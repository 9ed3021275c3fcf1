import Mathlib

-- Free lists threaded through an array: the cell of a free index holds the next
-- free index, and the list ends at the length of the array.
namespace Mldonkey.FreeList

-- The indices of the list that begins at s.
def Linked (arr : List Nat) : Nat → List Nat → Prop
  | s, [] => s = arr.length
  | s, f :: fs => s = f ∧ ∃ n, arr[f]? = some n ∧ Linked arr n fs

variable {arr : List Nat} {s i k mark next : Nat} {fs : List Nat} {used : Nat → Prop}

theorem Linked.set (h : Linked arr s fs) (hi : i ∉ fs) (x : Nat) : Linked (arr.set i x) s fs := by
  induction fs generalizing s with
  | nil => simpa [Linked] using h
  | cons f fs ih =>
      obtain ⟨rfl, n, hn, hrest⟩ := h
      simp only [List.mem_cons, not_or] at hi
      exact ⟨rfl, n, by rw [List.getElem?_set_ne hi.1, hn], ih hrest hi.2⟩

-- The cells of a fresh tail are numbered upwards, up to the end of the array.
theorem linked_range (arr : List Nat) (k : Nat) :
    Linked (arr ++ List.range' (arr.length + 1) k) arr.length (List.range' arr.length k) := by
  induction k generalizing arr with
  | zero => simp [Linked]
  | succ k ih =>
      rw [List.range'_succ, List.range'_succ]
      refine ⟨rfl, arr.length + 1, by simp, ?_⟩
      simpa using ih (arr ++ [arr.length + 1])

-- The free list of an array in which the indices below `mark` have been given
-- out: those given back come first, then come the fresh ones.
def Free (arr : List Nat) (next : Nat) (used : Nat → Prop) (mark : Nat) : Prop :=
  ∃ freed : List Nat, Linked arr next (freed ++ List.range' mark (arr.length - mark)) ∧
    freed.Nodup ∧ mark ≤ arr.length ∧ (∀ i, i < mark ↔ used i ∨ i ∈ freed) ∧
    ∀ i ∈ freed, ¬ used i

theorem free_nil : Free [] 0 (fun _ => False) 0 := ⟨[], by simp [Linked]⟩

theorem Free.congr {used' : Nat → Prop} (h : Free arr next used mark)
    (heq : ∀ i, used i ↔ used' i) : Free arr next used' mark := by
  obtain rfl : used = used' := funext fun i => propext (heq i)
  exact h

theorem Free.lt_mark (h : Free arr next used mark) (hi : used i) : i < mark := by
  obtain ⟨freed, -, -, -, hmark, -⟩ := h
  exact (hmark i).2 (.inl hi)

theorem Free.mark_le (h : Free arr next used mark) : mark ≤ arr.length := by
  obtain ⟨freed, -, -, hle, -⟩ := h
  exact hle

theorem Free.lt_length (h : Free arr next used mark) (hi : used i) : i < arr.length :=
  lt_of_lt_of_le (h.lt_mark hi) h.mark_le

-- To take the first index: it was free, and it is a new one only where
-- everything below it is in use.
theorem Free.pop (h : Free arr next used mark) (hlt : next < arr.length) :
    ¬ used next ∧ ∃ n mark', arr[next]? = some n ∧
      Free arr n (fun i => i = next ∨ used i) mark' ∧
      (mark' = mark ∨ mark' = mark + 1 ∧ ∀ i < mark, used i) := by
  obtain ⟨freed, hlink, hnodup, hle, hmark, hfreed⟩ := h
  cases freed with
  | cons f freed =>
      obtain ⟨rfl, n, hn, hrest⟩ := hlink
      obtain ⟨hnot, hnodup⟩ := List.nodup_cons.1 hnodup
      refine ⟨hfreed _ List.mem_cons_self, n, mark, hn,
        ⟨freed, hrest, hnodup, hle, fun i => ?_, fun i hi => ?_⟩, .inl rfl⟩
      · rw [hmark i, List.mem_cons]
        tauto
      · rintro (rfl | hu)
        · exact hnot hi
        · exact hfreed i (List.mem_cons_of_mem _ hi) hu
  | nil =>
      obtain ⟨k, hk⟩ | hk : (∃ k, arr.length - mark = k + 1) ∨ arr.length - mark = 0 := by
        cases arr.length - mark with
        | zero => exact .inr rfl
        | succ k => exact .inl ⟨k, rfl⟩
      · rw [hk, List.nil_append, List.range'_succ] at hlink
        obtain ⟨rfl, n, hn, hrest⟩ := hlink
        have hu : ¬ used next := fun hu => absurd ((hmark next).2 (.inl hu)) (lt_irrefl _)
        refine ⟨hu, n, next + 1, hn, ⟨[], ?_, .nil, by omega, fun i => ?_, by simp⟩,
          .inr ⟨rfl, fun i hi => ?_⟩⟩
        · rwa [List.nil_append, show arr.length - (next + 1) = k by omega]
        · have := hmark i
          simp only [List.not_mem_nil, or_false] at this ⊢
          rw [← this]
          omega
        · simpa using (hmark i).1 hi
      · rw [hk] at hlink
        exact absurd hlink hlt.ne

-- Where the list is at its end, the array may grow by a fresh tail.
theorem Free.grow (h : Free arr next used mark) (hge : arr.length ≤ next) (k : Nat) :
    next = arr.length ∧ Free (arr ++ List.range' (arr.length + 1) k) next used mark := by
  obtain ⟨freed, hlink, hnodup, hle, hmark, hfreed⟩ := h
  cases hl : freed ++ List.range' mark (arr.length - mark) with
  | cons f fs =>
      rw [hl] at hlink
      obtain ⟨rfl, n, hn, -⟩ := hlink
      have := (List.getElem?_eq_some_iff.1 hn).1
      omega
  | nil =>
      rw [hl] at hlink
      obtain rfl : next = arr.length := hlink
      obtain ⟨rfl, hr⟩ := List.append_eq_nil_iff.1 hl
      obtain rfl : mark = arr.length := by
        have : arr.length - mark = 0 := by simpa using hr
        omega
      refine ⟨rfl, [], ?_, .nil, by simp, hmark, by simp⟩
      simpa using linked_range arr k

-- To give an index back.
theorem Free.push (h : Free arr next used mark) (hi : used i) :
    Free (arr.set i next) i (fun j => j ≠ i ∧ used j) mark := by
  have hlt := h.lt_mark hi
  obtain ⟨freed, hlink, hnodup, hle, hmark, hfreed⟩ := h
  have hnot : i ∉ freed := fun hm => hfreed i hm hi
  refine ⟨i :: freed, ⟨rfl, next, ?_, ?_⟩, List.nodup_cons.2 ⟨hnot, hnodup⟩, by simpa using hle,
    fun j => ?_, ?_⟩
  · rw [List.getElem?_set_self (by omega)]
  · rw [List.length_set]
    refine hlink.set (fun hm => ?_) _
    rcases List.mem_append.1 hm with hm | hm
    · exact hnot hm
    · have := (List.mem_range'_1.1 hm).1
      omega
  · rw [hmark j, List.mem_cons]
    by_cases hj : j = i
    · subst hj
      simp [hi]
    · simp [hj]
  · intro j hj
    rcases List.mem_cons.1 hj with rfl | hj
    · simp
    · exact fun hu => hfreed j hj hu.2

-- The cell of an index in use may hold anything.
theorem Free.set (h : Free arr next used mark) (hi : used i) (x : Nat) :
    Free (arr.set i x) next used mark := by
  have hlt := h.lt_mark hi
  obtain ⟨freed, hlink, hnodup, hle, hmark, hfreed⟩ := h
  refine ⟨freed, ?_, hnodup, by simpa using hle, hmark, hfreed⟩
  rw [List.length_set]
  refine hlink.set (fun hm => ?_) x
  rcases List.mem_append.1 hm with hm | hm
  · exact hfreed i hm hi
  · have := (List.mem_range'_1.1 hm).1
    omega

end Mldonkey.FreeList
