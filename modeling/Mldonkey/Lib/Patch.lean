import Mathlib

-- Arrays that read as zero outside of their bounds, and that grow when they are
-- written behind their end.
namespace Mldonkey.Patch

variable {α : Type} [Zero α]

def elemAt (l : List α) (i : Nat) : α := l.getD i 0

-- The `len` elements from `pos` on.
def region (l : List α) (pos len : Nat) : List α :=
  (List.range len).map fun i => elemAt l (pos + i)

-- What l becomes when xs is written at `pos`. To write nothing does nothing.
def patch (l : List α) (pos : Nat) (xs : List α) : List α :=
  match xs with
  | [] => l
  | x :: xs =>
      l.take pos ++ List.replicate (pos - l.length) 0 ++ (x :: xs) ++
        l.drop (pos + (x :: xs).length)

variable {l l' xs ys : List α} {pos len i n m : Nat}

theorem elemAt_of_length_le (h : l.length ≤ i) : elemAt l i = 0 := List.getD_eq_default _ _ h

theorem elemAt_append (l l' : List α) (i : Nat) :
    elemAt (l ++ l') i = if i < l.length then elemAt l i else elemAt l' (i - l.length) := by
  simp only [elemAt, List.getD_eq_getElem?_getD]
  split
  case isTrue h => rw [List.getElem?_append_left h]
  case isFalse h => rw [List.getElem?_append_right (by omega)]

theorem ext_at (hlen : l.length = l'.length) (hat : ∀ i < l.length, elemAt l i = elemAt l' i) :
    l = l' := by
  refine List.ext_getElem hlen fun i hi hi' => ?_
  have := hat i hi
  rwa [elemAt, elemAt, List.getD_eq_getElem _ _ hi, List.getD_eq_getElem _ _ hi'] at this

@[simp] theorem length_region (l : List α) (pos len : Nat) : (region l pos len).length = len := by
  simp [region]

theorem elemAt_region (l : List α) (pos len i : Nat) :
    elemAt (region l pos len) i = if i < len then elemAt l (pos + i) else 0 := by
  split
  case isTrue h =>
      rw [elemAt, List.getD_eq_getElem _ _ (by simpa using h)]
      simp [region]
  case isFalse h => exact elemAt_of_length_le (by simpa using h)

@[simp] theorem region_zero (l : List α) (pos : Nat) : region l pos 0 = [] := rfl

theorem region_eq_iff (h : xs.length = len) :
    xs = region l pos len ↔ ∀ i < len, elemAt xs i = elemAt l (pos + i) := by
  constructor
  · rintro rfl i hi
    rw [elemAt_region, if_pos hi]
  · intro hat
    refine ext_at (by simp [h]) fun i hi => ?_
    rw [elemAt_region, if_pos (h ▸ hi), hat i (h ▸ hi)]

theorem region_congr (h : ∀ i < len, elemAt l (pos + i) = elemAt l' (n + i)) :
    region l pos len = region l' n len :=
  List.map_congr_left fun i hi => h i (List.mem_range.mp hi)

theorem region_append (l : List α) (pos n m : Nat) :
    region l pos (n + m) = region l pos n ++ region l (pos + n) m := by
  simp only [region, List.range_add, List.map_append, List.map_map]
  congr 1
  exact List.map_congr_left fun i _ => by simp [Nat.add_assoc]

theorem region_all (l : List α) : region l 0 l.length = l :=
  ext_at (by simp) fun i hi => by rw [elemAt_region, if_pos (by simpa using hi), Nat.zero_add]

theorem region_of_length_le (h : l.length ≤ pos) : region l pos len = List.replicate len 0 := by
  refine List.ext_getElem (by simp) fun i hi hi' => ?_
  simp only [region, List.getElem_map, List.getElem_range, List.getElem_replicate]
  exact elemAt_of_length_le (by omega)

theorem region_eq_take (h : pos + len ≤ l.length) : region l pos len = (l.drop pos).take len := by
  refine List.ext_getElem (by simp; omega) fun i hi hi' => ?_
  have hi : i < len := by simpa using hi
  rw [List.getElem_take, List.getElem_drop]
  simp only [region, List.getElem_map, List.getElem_range]
  exact List.getD_eq_getElem _ _ (by omega)

@[simp] theorem patch_nil (l : List α) (pos : Nat) : patch l pos [] = l := rfl

theorem length_patch (l : List α) (pos : Nat) (hxs : xs ≠ []) :
    (patch l pos xs).length = max l.length (pos + xs.length) := by
  cases xs with
  | nil => exact absurd rfl hxs
  | cons x xs =>
      simp only [patch, List.length_append, List.length_take, List.length_replicate,
        List.length_cons, List.length_drop]
      omega

theorem length_patch_of_le (h : pos + xs.length ≤ l.length) : (patch l pos xs).length = l.length := by
  by_cases hxs : xs = []
  · rw [hxs, patch_nil]
  · rw [length_patch l pos hxs]
    omega

theorem elemAt_replicate (n i : Nat) : elemAt (List.replicate n (0 : α)) i = 0 := by
  simp only [elemAt, List.getD_eq_getElem?_getD, List.getElem?_replicate]
  split <;> rfl

theorem elemAt_take (l : List α) (n i : Nat) : elemAt (l.take n) i = if i < n then elemAt l i else 0 := by
  simp only [elemAt, List.getD_eq_getElem?_getD, List.getElem?_take]
  split <;> rfl

theorem elemAt_drop (l : List α) (n i : Nat) : elemAt (l.drop n) i = elemAt l (n + i) := by
  simp only [elemAt, List.getD_eq_getElem?_getD, List.getElem?_drop]

theorem elemAt_patch (l : List α) (pos : Nat) (xs : List α) (i : Nat) :
    elemAt (patch l pos xs) i = if pos ≤ i ∧ i < pos + xs.length then elemAt xs (i - pos) else elemAt l i := by
  cases xs with
  | nil => rw [patch_nil, if_neg (by simp)]
  | cons x xs =>
      have hpre : (l.take pos ++ List.replicate (pos - l.length) (0 : α)).length = pos := by
        simp only [List.length_append, List.length_take, List.length_replicate]
        omega
      rw [patch, List.append_assoc, elemAt_append, hpre]
      by_cases hlt : i < pos
      · rw [if_pos hlt, if_neg (by omega), elemAt_append, elemAt_take, elemAt_replicate, if_pos hlt]
        split
        case isTrue => rfl
        case isFalse h => exact (elemAt_of_length_le (by simp at h; omega)).symm
      rw [if_neg hlt, elemAt_append]
      by_cases hin : i - pos < (x :: xs).length
      · rw [if_pos hin, if_pos (by omega)]
      · rw [if_neg hin, if_neg (by omega), elemAt_drop]
        congr 1
        omega

theorem elemAt_patch_of_mem (h : pos ≤ i) (h' : i < pos + xs.length) :
    elemAt (patch l pos xs) i = elemAt xs (i - pos) := by
  rw [elemAt_patch, if_pos ⟨h, h'⟩]

theorem patch_append (l : List α) (pos : Nat) (xs ys : List α) :
    patch (patch l pos xs) (pos + xs.length) ys = patch l pos (xs ++ ys) := by
  by_cases hxs : xs = []
  · simp [hxs]
  by_cases hys : ys = []
  · simp [hys]
  refine ext_at ?_ fun i _ => ?_
  · rw [length_patch _ _ hys, length_patch _ _ hxs, length_patch _ _ (by simp [hxs]),
      List.length_append]
    omega
  · rw [elemAt_patch, elemAt_patch, elemAt_patch, List.length_append, elemAt_append]
    by_cases hlt : i < pos
    · rw [if_neg (by omega), if_neg (by omega), if_neg (by omega)]
    by_cases hx : i < pos + xs.length
    · rw [if_neg (by omega), if_pos (by omega), if_pos (by omega), if_pos (by omega)]
    by_cases hy : i < pos + xs.length + ys.length
    · rw [if_pos (by omega), if_pos (by omega), if_neg (by omega)]
      congr 1
      omega
    · rw [if_neg (by omega), if_neg (by omega), if_neg (by omega)]

@[simp] theorem patch_empty (xs : List α) : patch [] 0 xs = xs := by
  cases xs with
  | nil => rfl
  | cons x xs => simp [patch]

theorem patch_end (h : l.length = pos) (xs : List α) : patch l pos xs = l ++ xs := by
  cases xs with
  | nil => simp
  | cons x xs => simp [patch, ← h]

theorem patch_patch (l : List α) (pos : Nat) (h : xs.length ≤ ys.length) :
    patch (patch l pos xs) pos ys = patch l pos ys := by
  by_cases hxs : xs = []
  · rw [hxs, patch_nil]
  have hys : ys ≠ [] := by
    rintro rfl
    exact hxs (List.length_eq_zero_iff.mp (Nat.le_zero.mp h))
  refine ext_at ?_ fun i _ => ?_
  · rw [length_patch _ _ hys, length_patch _ _ hxs, length_patch _ _ hys, max_assoc,
      max_eq_right (Nat.add_le_add_left h pos)]
  · rw [elemAt_patch, elemAt_patch, elemAt_patch]
    by_cases hin : pos ≤ i ∧ i < pos + ys.length
    · rw [if_pos hin, if_pos hin]
    · rw [if_neg hin, if_neg hin, if_neg (by omega)]

theorem region_patch_self (l : List α) (pos : Nat) (xs : List α) :
    region (patch l pos xs) pos xs.length = xs := by
  refine ((region_eq_iff rfl).mpr fun i hi => ?_).symm
  rw [elemAt_patch_of_mem (by omega) (by omega)]
  congr 1
  omega

theorem region_append_left (l' : List α) (h : pos + len ≤ l.length) :
    region (l ++ l') pos len = region l pos len :=
  region_congr fun i hi => by rw [elemAt_append, if_pos (by omega)]

theorem region_append_right (l' : List α) (h : l.length ≤ pos) :
    region (l ++ l') pos len = region l' (pos - l.length) len :=
  region_congr fun i hi => by
    rw [elemAt_append, if_neg (by omega)]
    congr 1
    omega

theorem region_region (l : List α) (pos : Nat) (h : n + m ≤ len) :
    region (region l pos len) n m = region l (pos + n) m :=
  region_congr fun i hi => by rw [elemAt_region, if_pos (by omega), Nat.add_assoc]

theorem region_patch (l : List α) (xs : List α) (h : n + xs.length ≤ len) :
    region (patch l n xs) 0 len = patch (region l 0 len) n xs := by
  refine ((region_eq_iff ?_).mpr fun i hi => ?_).symm
  · rw [length_patch_of_le (by simpa using h), length_region]
  · rw [elemAt_patch, elemAt_patch, elemAt_region, if_pos hi, Nat.zero_add]

theorem patch_append_left (l' : List α) (h : pos + xs.length ≤ l.length) :
    patch (l ++ l') pos xs = patch l pos xs ++ l' := by
  have hlen := length_patch_of_le h
  refine ext_at ?_ fun i _ => ?_
  · rw [length_patch_of_le (by rw [List.length_append]; omega), List.length_append,
      List.length_append, hlen]
  · rw [elemAt_patch, elemAt_append, elemAt_append, hlen, elemAt_patch]
    by_cases hin : pos ≤ i ∧ i < pos + xs.length
    · rw [if_pos hin, if_pos (by omega), if_pos hin]
    · rw [if_neg hin, if_neg hin]

theorem patch_append_right (l : List α) (h : n + xs.length ≤ l'.length) :
    patch (l ++ l') (l.length + n) xs = l ++ patch l' n xs := by
  refine ext_at ?_ fun i _ => ?_
  · rw [length_patch_of_le (by rw [List.length_append]; omega), List.length_append,
      List.length_append, length_patch_of_le h]
  · rw [elemAt_patch, elemAt_append, elemAt_append, elemAt_patch]
    by_cases hlt : i < l.length
    · rw [if_neg (by omega), if_pos hlt, if_pos hlt]
    rw [if_neg hlt, if_neg hlt]
    by_cases hin : n ≤ i - l.length ∧ i - l.length < n + xs.length
    · rw [if_pos (by omega), if_pos hin]
      congr 1
      omega
    · rw [if_neg (by omega), if_neg hin]

theorem drop_region (l : List α) (pos : Nat) (h : n ≤ len) :
    (region l pos len).drop n = region l (pos + n) (len - n) := by
  conv_lhs => rw [← Nat.add_sub_cancel' h, region_append]
  exact List.drop_left' (length_region _ _ _)

theorem patch_comm (l : List α) (h : pos + xs.length ≤ n) :
    patch (patch l pos xs) n ys = patch (patch l n ys) pos xs := by
  by_cases hxs : xs = []
  · rw [hxs, patch_nil, patch_nil]
  by_cases hys : ys = []
  · rw [hys, patch_nil, patch_nil]
  refine ext_at ?_ fun i _ => ?_
  · rw [length_patch _ _ hys, length_patch _ _ hxs, length_patch _ _ hxs, length_patch _ _ hys]
    exact max_right_comm _ _ _
  · simp only [elemAt_patch]
    by_cases hx : pos ≤ i ∧ i < pos + xs.length
    · rw [if_neg (by omega), if_pos hx, if_pos hx]
    · rw [if_neg hx, if_neg hx]

-- A write that begins before another one and reaches it leaves the rest of it.
theorem patch_merge (l : List α) (h : n ≤ pos) (h' : pos ≤ n + ys.length) :
    patch (patch l pos xs) n ys = patch l n (ys ++ xs.drop (n + ys.length - pos)) := by
  by_cases hys : ys = []
  · have hpos : pos = n := by simp [hys] at h'; omega
    simp [hys, hpos]
  have hne : ys ++ xs.drop (n + ys.length - pos) ≠ [] := by simp [hys]
  refine ext_at ?_ fun i _ => ?_
  · rw [length_patch _ _ hys, length_patch l n hne, List.length_append, List.length_drop]
    by_cases hxs : xs = []
    · simp [hxs]
    · have hpos := List.length_pos_iff.mpr hxs
      rw [length_patch _ _ hxs, max_assoc]
      congr 1
      omega
  · simp only [elemAt_patch, List.length_append, List.length_drop]
    by_cases hy : n ≤ i ∧ i < n + ys.length
    · rw [if_pos hy, if_pos (by omega), elemAt_append, if_pos (by omega)]
    rw [if_neg hy]
    by_cases hx : pos ≤ i ∧ i < pos + xs.length
    · rw [if_pos hx, if_pos (by omega), elemAt_append, if_neg (by omega), elemAt_drop]
      congr 1
      omega
    · rw [if_neg hx, if_neg (by omega)]

end Mldonkey.Patch
