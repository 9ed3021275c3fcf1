import Mldonkey.Gnutella.Codecs

-- Normal forms of paths.
namespace Mldonkey.Filename2

open Bencode (Bytes)
open Indexing (split)
open Gnutella (unsplit split_unsplit split_of_notMem)

def dot : Bytes := [46]
def dotdot : Bytes := [46, 46]

def iterAbs : List Bytes → List Bytes
  | [] => []
  | x :: l => if x = dotdot then iterAbs l else x :: l

-- What the pass over the components gives: the components that stay, and whether the first one
-- was taken back by the one behind it. Then two of them at least are gone.
structure Pass (n : ℕ) where
  list : List Bytes
  redo : Bool
  length_le : list.length + (if redo then 2 else 0) ≤ n

def iter (l : List Bytes) : Pass l.length :=
  match l with
  | [] => ⟨[], false, le_rfl⟩
  | x :: l =>
      if x = [] ∨ x = dot then
        let r := iter l
        ⟨r.list, r.redo, r.length_le.trans (Nat.le_succ _)⟩
      else if x = dotdot then
        let r := iter l
        ⟨dotdot :: r.list, false, Nat.succ_le_succ ((Nat.le_add_right _ _).trans r.length_le)⟩
      else if h : l.head? = some dotdot then
        have hlen : l.tail.length + 1 = l.length := by cases l <;> simp_all
        let r := iter l.tail
        ⟨r.list, true, by
          have := (Nat.le_add_right _ _).trans r.length_le
          simp only [if_true, List.length_cons]
          omega⟩
      else
        if h : (iter l).redo = true then
          have hlen : (iter l).list.length + 2 ≤ l.length := by simpa [h] using (iter l).length_le
          let r := iter (x :: (iter l).list)
          ⟨r.list, r.redo, r.length_le.trans (by simp only [List.length_cons]; omega)⟩
        else
          ⟨x :: (iter l).list, false,
            Nat.succ_le_succ ((Nat.le_add_right _ _).trans (iter l).length_le)⟩
termination_by l.length
decreasing_by
  · exact Nat.lt_succ_self _
  · exact Nat.lt_succ_self _
  · simp only [List.length_cons]
    omega
  · exact Nat.lt_succ_self _
  · simp only [List.length_cons]
    omega

def slash (win32 : Bool) : UInt8 := if win32 then 92 else 47

def normalize (slash : UInt8) (filename : Bytes) : Bytes :=
  let l := split slash filename
  let isAbsolute := l.head? == some []
  let l := (iter l).list
  let l := if isAbsolute then [] :: iterAbs l else l
  match l with
  | [] => dot
  | [[]] => [slash]
  | l => unsplit slash l

section Place

-- A place is reached by going up some times, and then down by names, the last one first.
abbrev Place := ℕ × List Bytes

def isName (x : Bytes) : Bool := x ≠ [] ∧ x ≠ dot ∧ x ≠ dotdot

def Place.step (at' : Place) (x : Bytes) : Place :=
  if x = [] ∨ x = dot then at'
  else if x = dotdot then
    if at'.2 = [] then (at'.1 + 1, []) else (at'.1, at'.2.tail)
  else (at'.1, x :: at'.2)

def resolve (l : List Bytes) : Place := l.foldl Place.step (0, [])

-- Whether a path begins at the root, and where it leads from there: the root is its own parent.
def location (slash : UInt8) (p : Bytes) : Bool × Place :=
  let isAbsolute := p.head? == some slash
  let reached := resolve (split slash p)
  (isAbsolute, if isAbsolute then (0, reached.2) else reached)

-- The components of a path in normal form; the root and the current directory have none.
def components (slash : UInt8) (p : Bytes) : List Bytes :=
  if p = dot ∨ p = [slash] then []
  else if p.head? = some slash then (split slash p).tail
  else split slash p

end Place

section Passes

variable {x y : Bytes} {l pre q post : List Bytes}

def pass (l : List Bytes) : List Bytes × Bool := ((iter l).list, (iter l).redo)

lemma pass_nil : pass [] = ([], false) := by
  rw [pass, iter]

lemma pass_skip (hx : x = [] ∨ x = dot) : pass (x :: l) = pass l := by
  rw [pass, iter, if_pos hx, pass]

lemma pass_up : pass (dotdot :: l) = (dotdot :: (pass l).1, false) := by
  rw [pass, iter, if_neg (by decide), if_pos rfl, pass]

lemma isName_iff : isName x = true ↔ ¬ (x = [] ∨ x = dot) ∧ x ≠ dotdot := by
  simp [isName, and_assoc]

lemma pass_cancel (hx : isName x = true) : pass (x :: dotdot :: l) = ((pass l).1, true) := by
  obtain ⟨hskip, hup⟩ := isName_iff.mp hx
  have hhead : (dotdot :: l).head? = some dotdot := rfl
  rw [pass, iter, if_neg hskip, if_neg hup, dif_pos hhead]
  rfl

lemma pass_name (hx : isName x = true) (hl : l.head? ≠ some dotdot) :
    pass (x :: l) = if (pass l).2 then pass (x :: (pass l).1) else (x :: (pass l).1, false) := by
  obtain ⟨hskip, hup⟩ := isName_iff.mp hx
  rw [pass, iter, if_neg hskip, if_neg hup, dif_neg hl]
  by_cases hredo : (pass l).2 = true
  · have hdone : (iter l).redo = true := hredo
    rw [if_pos hredo, dif_pos hdone]
    rfl
  · have hdone : ¬ (iter l).redo = true := hredo
    rw [if_neg hredo, dif_neg hdone]
    rfl

lemma length_pass (l : List Bytes) :
    (pass l).1.length + (if (pass l).2 then 2 else 0) ≤ l.length := (iter l).length_le

lemma isName_skip (hx : x = [] ∨ x = dot) : ¬ isName x = true := fun h => (isName_iff.mp h).1 hx

lemma component_cases (x : Bytes) : (x = [] ∨ x = dot) ∨ x = dotdot ∨ isName x = true := by
  by_cases hskip : x = [] ∨ x = dot
  · exact .inl hskip
  · by_cases hup : x = dotdot
    · exact .inr (.inl hup)
    · exact .inr (.inr (isName_iff.mpr ⟨hskip, hup⟩))

lemma pass_induction {P : List Bytes → Prop} (nil : P [])
    (skip : ∀ x l, x = [] ∨ x = dot → P l → P (x :: l))
    (up : ∀ l, P l → P (dotdot :: l))
    (cancel : ∀ x l, isName x = true → P l → P (x :: dotdot :: l))
    (name : ∀ x l, isName x = true → l.head? ≠ some dotdot → P l →
      ((pass l).2 = true → P (x :: (pass l).1)) → P (x :: l)) (l : List Bytes) : P l := by
  induction hn : l.length using Nat.strong_induction_on generalizing l with
  | _ n ih =>
    cases l with
    | nil => exact nil
    | cons x l =>
      rw [List.length_cons] at hn
      rcases component_cases x with hskip | rfl | hname
      · exact skip x l hskip (ih _ (by omega) l rfl)
      · exact up l (ih _ (by omega) l rfl)
      · by_cases hhead : l.head? = some dotdot
        · obtain ⟨l', rfl⟩ : ∃ l', l = dotdot :: l' := by
            cases l with
            | nil => cases hhead
            | cons y l' =>
              obtain rfl : y = dotdot := by simpa using hhead
              exact ⟨l', rfl⟩
          rw [List.length_cons] at hn
          exact cancel x l' hname (ih _ (by omega) l' rfl)
        · refine name x l hname hhead (ih _ (by omega) l rfl) fun hredo => ?_
          have hlen := length_pass l
          rw [if_pos hredo] at hlen
          exact ih _ (by rw [List.length_cons]; omega) _ rfl

def Clean (l : List Bytes) : Prop := ∀ x ∈ l, ¬ (x = [] ∨ x = dot)

lemma clean_pass (l : List Bytes) : Clean (pass l).1 := by
  induction l using pass_induction with
  | nil =>
    rw [pass_nil]
    exact fun x hx => absurd hx List.not_mem_nil
  | skip x l hx ih => rwa [pass_skip hx]
  | up l ih =>
    rw [pass_up]
    exact List.forall_mem_cons.mpr ⟨by decide, ih⟩
  | cancel x l hx ih => rwa [pass_cancel hx]
  | name x l hx hl ih ih' =>
    rw [pass_name hx hl]
    split_ifs with hredo
    · exact ih' hredo
    · exact List.forall_mem_cons.mpr ⟨(isName_iff.mp hx).1, ih⟩

lemma step_cancel (hx : isName x = true) (at' : Place) : (at'.step x).step dotdot = at' := by
  obtain ⟨hskip, hup⟩ := isName_iff.mp hx
  have hdots : ¬ (dotdot = [] ∨ dotdot = dot) := by decide
  rw [Place.step, if_neg hdots, if_pos rfl, Place.step, if_neg hskip, if_neg hup,
    if_neg (List.cons_ne_nil _ _)]
  rfl

lemma foldl_pass (l : List Bytes) (at' : Place) :
    (pass l).1.foldl Place.step at' = l.foldl Place.step at' := by
  induction l using pass_induction generalizing at' with
  | nil => rw [pass_nil]
  | skip x l hx ih => rw [pass_skip hx, List.foldl_cons, ih, Place.step, if_pos hx]
  | up l ih => rw [pass_up, List.foldl_cons, List.foldl_cons, ih]
  | cancel x l hx ih =>
    rw [pass_cancel hx, List.foldl_cons, List.foldl_cons, step_cancel hx, ih]
  | name x l hx hl ih ih' =>
    rw [pass_name hx hl]
    split_ifs with hredo
    · rw [ih' hredo, List.foldl_cons, List.foldl_cons, ih]
    · rw [List.foldl_cons, List.foldl_cons, ih]

-- Only names are kept where nothing goes up.
lemma pass_names (h : dotdot ∉ l) : pass l = (l.filter isName, false) := by
  induction l with
  | nil => exact pass_nil
  | cons x l ih =>
    rw [List.mem_cons, not_or] at h
    rcases component_cases x with hskip | rfl | hname
    · rw [pass_skip hskip, ih h.2, List.filter_cons_of_neg (isName_skip hskip)]
    · exact absurd rfl h.1
    · have hhead : l.head? ≠ some dotdot := fun hl => h.2 (List.mem_of_head? hl)
      rw [pass_name hname hhead, ih h.2, List.filter_cons_of_pos hname]
      rfl

-- A name and a skipped component hide the one that goes up from each other.
lemma pass_hidden (hpre : dotdot ∉ pre) (hlast : ∀ y, pre.getLast? = some y → y = [] ∨ y = dot) :
    pass (pre ++ dotdot :: post) = (pre.filter isName ++ dotdot :: (pass post).1, false) := by
  induction pre with
  | nil => exact pass_up
  | cons x pre ih =>
    rw [List.mem_cons, not_or] at hpre
    have hrest := ih hpre.2 fun y hy => hlast y (by
      rw [List.getLast?_cons, hy]
      rfl)
    rcases component_cases x with hskip | rfl | hname
    · rw [List.cons_append, pass_skip hskip, hrest, List.filter_cons_of_neg (isName_skip hskip)]
    · exact absurd rfl hpre.1
    · have hhead : (pre ++ dotdot :: post).head? ≠ some dotdot := by
        cases pre with
        | nil => exact absurd (hlast x rfl) (isName_iff.mp hname).1
        | cons y pre =>
          intro hy
          have : y = dotdot := by simpa using hy
          exact hpre.2 (this ▸ List.mem_cons_self)
      rw [List.cons_append, pass_name hname hhead, hrest, List.filter_cons_of_pos hname]
      rfl

-- A name in front of the first component that goes up is taken back with it, and the pass is
-- made again for the names before.
lemma pass_uncovered (hq : dotdot ∉ q) (hy : isName y = true) :
    pass (q ++ y :: dotdot :: post) =
      if q.filter isName = [] then ((pass post).1, true)
      else pass (q.filter isName ++ (pass post).1) := by
  induction q with
  | nil => exact pass_cancel hy
  | cons x q ih =>
    rw [List.mem_cons, not_or] at hq
    rcases component_cases x with hskip | rfl | hname
    · rw [List.cons_append, pass_skip hskip, ih hq.2, List.filter_cons_of_neg (isName_skip hskip)]
    · exact absurd rfl hq.1
    · have hhead : (q ++ y :: dotdot :: post).head? ≠ some dotdot := by
        cases q with
        | nil =>
          intro heq
          exact (isName_iff.mp hy).2 (by simpa using heq)
        | cons z q =>
          intro heq
          have : z = dotdot := by simpa using heq
          exact hq.2 (this ▸ List.mem_cons_self)
      rw [List.cons_append, pass_name hname hhead, ih hq.2, List.filter_cons_of_pos hname,
        if_neg (List.cons_ne_nil _ _), List.cons_append]
      by_cases hnil : q.filter isName = []
      · simp [hnil]
      · have hhead' : (q.filter isName ++ (pass post).1).head? ≠ some dotdot := by
          intro heq
          rw [List.head?_append_of_ne_nil _ hnil] at heq
          exact hq.2 (List.mem_filter.mp (List.mem_of_head? heq)).1
        rw [if_neg hnil, pass_name hname hhead']

-- The components that go up come first.
def Settled (l : List Bytes) : Prop :=
  ∃ k names, l = List.replicate k dotdot ++ names ∧ ∀ x ∈ names, isName x = true

lemma settled_names (h : ∀ x ∈ l, isName x = true) : Settled l := ⟨0, l, rfl, h⟩

lemma settled_up : Settled (dotdot :: l) ↔ Settled l := by
  constructor
  · rintro ⟨k, names, heq, hnames⟩
    cases k with
    | zero =>
      have hmem : dotdot ∈ List.replicate 0 dotdot ++ names := heq ▸ List.mem_cons_self
      have hup := hnames dotdot hmem
      exact absurd rfl (isName_iff.mp hup).2
    | succ k => exact ⟨k, names, List.tail_eq_of_cons_eq heq, hnames⟩
  · rintro ⟨k, names, rfl, hnames⟩
    exact ⟨k + 1, names, rfl, hnames⟩

lemma not_settled (hx : isName x = true) (hup : dotdot ∈ l) : ¬ Settled (x :: l) := by
  rintro ⟨k, names, heq, hnames⟩
  cases k with
  | zero =>
    have hmem : dotdot ∈ List.replicate 0 dotdot ++ names := heq ▸ List.mem_cons_of_mem x hup
    have hname := hnames dotdot hmem
    exact absurd rfl (isName_iff.mp hname).2
  | succ k => exact (isName_iff.mp hx).2 (List.head_eq_of_cons_eq heq)

-- The first component that goes up, and the one in front of it
lemma first_up (hup : dotdot ∈ x :: l) (hx : x ≠ dotdot) :
    ∃ q y post, x :: l = q ++ y :: dotdot :: post ∧ dotdot ∉ q ∧ y ≠ dotdot := by
  obtain ⟨q', post, heq, hq'⟩ := List.eq_append_cons_of_mem hup
  rcases List.eq_nil_or_concat q' with rfl | ⟨q, y, rfl⟩
  · exact absurd (List.head_eq_of_cons_eq heq) hx
  · rw [List.concat_eq_append, List.mem_append, not_or, List.mem_singleton] at hq'
    exact ⟨q, y, post, by simpa using heq, hq'.1, Ne.symm hq'.2⟩

lemma takeWhile_first (hq : dotdot ∉ q) (hy : y ≠ dotdot) (post : List Bytes) :
    (q ++ y :: dotdot :: post).takeWhile (· ≠ dotdot) = q ++ [y] := by
  rw [List.takeWhile_append_of_pos fun z hz => ?_]
  · simp [hy]
  · simpa using ne_of_mem_of_not_mem hz hq

-- Where no component is skipped one pass is enough.
lemma settled_pass_of_clean (h : Clean l) : Settled (pass l).1 := by
  induction hn : l.length using Nat.strong_induction_on generalizing l with
  | _ n ih =>
    cases l with
    | nil =>
      rw [pass_nil]
      exact settled_names (by simp)
    | cons x l =>
      obtain ⟨hx, hl⟩ := List.forall_mem_cons.mp h
      rw [List.length_cons] at hn
      rcases component_cases x with hskip | rfl | hname
      · exact absurd hskip hx
      · rw [pass_up, settled_up]
        exact ih _ (by omega) hl rfl
      · by_cases hup : dotdot ∈ x :: l
        · obtain ⟨q, y, post, heq, hq, hy⟩ := first_up hup (isName_iff.mp hname).2
          have hclean : Clean (q ++ y :: dotdot :: post) := heq ▸ h
          have hlen : l.length + 1 = q.length + (post.length + 2) := by
            rw [← List.length_cons, heq, List.length_append, List.length_cons, List.length_cons]
          have hyname : isName y = true := isName_iff.mpr ⟨hclean y (by simp), hy⟩
          rw [heq, pass_uncovered hq hyname]
          split_ifs
          · exact ih _ (by omega) (fun z hz => hclean z (by simp [hz])) rfl
          · have hpost := (Nat.le_add_right _ _).trans (length_pass post)
            have hnames := List.length_filter_le isName q
            refine ih _ (by rw [List.length_append]; omega) (fun z hz => ?_) rfl
            rcases List.mem_append.mp hz with hz | hz
            · exact (isName_iff.mp (List.mem_filter.mp hz).2).1
            · exact clean_pass post z hz
        · rw [pass_names hup]
          exact settled_names fun z hz => (List.mem_filter.mp hz).2

-- What is left when the skipped components, those that go up and the names right in front of
-- such a one are dropped at the beginning
def startDropped : List Bytes → List Bytes
  | [] => []
  | [x] => if isName x then [x] else []
  | x :: y :: l =>
      if isName x then if y = dotdot then startDropped l else x :: y :: l
      else startDropped (y :: l)

-- There, a name stands right in front of the first component that goes up.
def Uncovered (l : List Bytes) : Prop :=
  ∀ q y post, startDropped l = q ++ y :: dotdot :: post → dotdot ∉ q → y ≠ dotdot →
    isName y = true

lemma startDropped_cases (l : List Bytes) :
    startDropped l = [] ∨
      ∃ x l', startDropped l = x :: l' ∧ isName x = true ∧ l'.head? ≠ some dotdot := by
  induction l using startDropped.induct with
  | case1 => exact .inl rfl
  | case2 x hx => exact .inr ⟨x, [], by rw [startDropped, if_pos hx], hx, by simp⟩
  | case3 x hx => exact .inl (by rw [startDropped, if_neg hx])
  | case4 x l hx ih => rwa [startDropped, if_pos hx, if_pos rfl]
  | case5 x y l hx hy =>
    exact .inr ⟨x, y :: l, by rw [startDropped, if_pos hx, if_neg hy], hx, by simpa using hy⟩
  | case6 x y l hx ih => rwa [startDropped, if_neg hx]

lemma settled_startDropped (l : List Bytes) :
    Settled (pass (startDropped l)).1 ↔ Settled (pass l).1 := by
  have hdrop {x : Bytes} (hx : ¬ isName x = true) (l : List Bytes) :
      Settled (pass (x :: l)).1 ↔ Settled (pass l).1 := by
    rcases component_cases x with hskip | rfl | hname
    · rw [pass_skip hskip]
    · rw [pass_up, settled_up]
    · exact absurd hname hx
  induction l using startDropped.induct with
  | case1 => rfl
  | case2 x hx => rw [startDropped, if_pos hx]
  | case3 x hx =>
    rw [startDropped, if_neg hx]
    exact (hdrop hx []).symm
  | case4 x l hx ih =>
    rw [startDropped, if_pos hx, if_pos rfl, pass_cancel hx]
    exact ih
  | case5 x y l hx hy => rw [startDropped, if_pos hx, if_neg hy]
  | case6 x y l hx ih =>
    rw [startDropped, if_neg hx]
    exact ih.trans (hdrop hx (y :: l)).symm

-- One pass is enough exactly for the components of this kind.
lemma settled_iff (l : List Bytes) : Settled (pass l).1 ↔ Uncovered l := by
  rw [← settled_startDropped, Uncovered]
  rcases startDropped_cases l with hnil | ⟨x, l', hdropped, hx, hhead⟩
  · rw [hnil, pass_nil]
    refine ⟨fun _ q y post heq => ?_, fun _ => settled_names (by simp)⟩
    simp at heq
  rw [hdropped]
  by_cases hup : dotdot ∈ x :: l'
  · obtain ⟨q, y, post, heq, hq, hy⟩ := first_up hup (isName_iff.mp hx).2
    obtain ⟨q', rfl⟩ : ∃ q', q = x :: q' := by
      cases q with
      | nil =>
        obtain ⟨-, rfl⟩ := List.cons.inj heq
        exact absurd rfl hhead
      | cons z q' => exact ⟨q', by rw [List.head_eq_of_cons_eq heq]⟩
    have hfilter : (x :: q').filter isName = x :: q'.filter isName := List.filter_cons_of_pos hx
    rw [heq]
    by_cases hyname : isName y = true
    · -- the pass is made again where nothing is skipped any more
      refine iff_of_true ?_ fun q₂ y₂ post₂ heq₂ hq₂ hy₂ => ?_
      · rw [pass_uncovered hq hyname, hfilter, if_neg (List.cons_ne_nil _ _), ← hfilter]
        refine settled_pass_of_clean fun z hz => ?_
        rcases List.mem_append.mp hz with hz | hz
        · exact (isName_iff.mp (List.mem_filter.mp hz).2).1
        · exact clean_pass post z hz
      · have hsame : x :: q' ++ [y] = q₂ ++ [y₂] := by
          rw [← takeWhile_first hq hy post, ← takeWhile_first hq₂ hy₂ post₂, heq₂]
        have hlast : y = y₂ := List.head_eq_of_cons_eq (List.append_inj' hsame rfl).2
        exact hlast ▸ hyname
    · refine iff_of_false ?_ fun h => hyname (h _ _ _ rfl hq hy)
      have hskip := (component_cases y).resolve_right fun h => h.elim hy hyname
      have hpre : dotdot ∉ x :: q' ++ [y] := by
        rw [List.mem_append, not_or, List.mem_singleton]
        exact ⟨hq, Ne.symm hy⟩
      have hsplit : x :: q' ++ y :: dotdot :: post = (x :: q' ++ [y]) ++ dotdot :: post := by simp
      rw [hsplit, pass_hidden hpre fun z hz => ?_, List.filter_append, hfilter]
      · exact not_settled hx (by simp)
      · rw [List.getLast?_concat] at hz
        exact Option.some.inj hz ▸ hskip
  · rw [pass_names hup]
    refine iff_of_true (settled_names fun z hz => (List.mem_filter.mp hz).2) ?_
    intro q y post heq
    exact absurd (heq ▸ by simp) hup

end Passes

end Mldonkey.Filename2
