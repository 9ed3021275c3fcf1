import Mldonkey.Indexer.Query

-- Which queries the index answers exactly.
namespace Mldonkey.Indexer

variable {D : Type}

-- Some word added for the document with one of the fields goes on from s
def HasPrefix (adds : List (Add D)) (fields : Fields) (s : List UInt8) (d : D) : Prop :=
  ∃ a ∈ adds, a.doc = d ∧ a.fields &&& fields ≠ 0 ∧ s <+: a.word

namespace Query

-- The query as a boolean formula
def Sat (adds : List (Add D)) : Query D → D → Prop
  | and q1 q2, d => Sat adds q1 d ∧ Sat adds q2 d
  | or q1 q2, d => Sat adds q1 d ∨ Sat adds q2 d
  | andNot q1 q2, d => Sat adds q1 d ∧ ¬ Sat adds q2 d
  | hasWord s, d => HasPrefix adds (-1) s d
  | hasField fields s, d => HasPrefix adds fields s d
  | predicate f, d => f d = true

-- The words of the query are stemmed
def Words : Query D → Prop
  | and q1 q2 | or q1 q2 | andNot q1 q2 => Words q1 ∧ Words q2
  | hasWord s | hasField _ s => Stemmed s
  | predicate _ => True

-- Each predicate is an operand of an `and` with something else, or inside the second operand of
-- an `andNot`
def Placed : Query D → Prop
  | and q1 q2 =>
    (Placed q1 ∨ q1.isPredicate = true) ∧ (Placed q2 ∨ q2.isPredicate = true) ∧
      ¬ (q1.isPredicate = true ∧ q2.isPredicate = true)
  | or q1 q2 => Placed q1 ∧ Placed q2
  | andNot q1 _ => Placed q1
  | hasWord _ | hasField _ _ => True
  | predicate _ => False

-- A query that is made of predicates only and is simplified to one
def Test : Query D → Prop
  | and q1 q2 | andNot q1 q2 => Test q1 ∧ Test q2
  | predicate _ => True
  | _ => False

mutual

-- The index alone finds the documents of the query
def Finds : Query D → Prop
  | and q1 q2 => Finds q1 ∧ Sifts q2 ∨ Splits q1 ∧ Finds q2
  | or q1 q2 => Finds q1 ∧ Finds q2
  | andNot q1 q2 => Finds q1 ∧ (Test q2 ∨ Finds q2)
  | hasWord _ | hasField _ _ => True
  | predicate _ => False

-- The query finds its documents among given ones
def Sifts : Query D → Prop
  | and q1 q2 | or q1 q2 => Sifts q1 ∧ Sifts q2
  | andNot q1 q2 => Sifts q1 ∧ (Test q2 ∨ Finds q2)
  | hasWord _ | hasField _ _ | predicate _ => True

-- The parts of the query without an index are moved behind a query on its right
def Splits : Query D → Prop
  | and q1 q2 => Finds q1 ∧ Sifts q2 ∨ Splits q1 ∧ Finds q2 ∨ Splits q1 ∧ Test q2
  | or q1 q2 => Splits q1 ∧ Splits q2
  | andNot q1 q2 => Splits q1 ∧ (Test q2 ∨ Finds q2)
  | hasWord _ | hasField _ _ | predicate _ => True

end

mutual

-- The same of a simplified query, in which nothing is moved any more
def Found : Query D → Prop
  | and q1 q2 => Found q1 ∧ Sifted q2
  | or q1 q2 => Found q1 ∧ Found q2
  | andNot q1 q2 => Found q1 ∧ (q2.isPredicate = true ∨ Found q2)
  | hasWord _ | hasField _ _ => True
  | predicate _ => False

def Sifted : Query D → Prop
  | and q1 q2 | or q1 q2 => Sifted q1 ∧ Sifted q2
  | andNot q1 q2 => Sifted q1 ∧ (q2.isPredicate = true ∨ Found q2)
  | hasWord _ | hasField _ _ | predicate _ => True

end

def Removed (q : Query D) : Prop := q.isPredicate = true ∨ Found q

def Split : Query D → Prop
  | and q1 q2 => Found q1 ∧ Sifted q2
  | or q1 q2 => Split q1 ∧ Split q2
  | andNot q1 q2 => Split q1 ∧ Removed q2
  | hasWord _ | hasField _ _ | predicate _ => True

lemma Found.sifted {q : Query D} (h : Found q) : Sifted q := by
  induction q with
  | and q1 q2 ih1 _ =>
    rw [Found] at h
    rw [Sifted]
    exact ⟨ih1 h.1, h.2⟩
  | or q1 q2 ih1 ih2 =>
    rw [Found] at h
    rw [Sifted]
    exact ⟨ih1 h.1, ih2 h.2⟩
  | andNot q1 q2 ih1 _ =>
    rw [Found] at h
    rw [Sifted]
    exact ⟨ih1 h.1, h.2⟩
  | hasWord | hasField | predicate => simp [Sifted]

lemma Found.split {q : Query D} (h : Found q) : Split q := by
  induction q with
  | and q1 q2 =>
    rw [Found] at h
    exact h
  | or q1 q2 ih1 ih2 =>
    rw [Found] at h
    exact ⟨ih1 h.1, ih2 h.2⟩
  | andNot q1 q2 ih1 _ =>
    rw [Found] at h
    exact ⟨ih1 h.1, h.2⟩
  | hasWord | hasField | predicate => trivial

-- Regrouping an `or` keeps what holds of it exactly where it holds of both operands
lemma keeps_simplifyOr {K : Query D → Prop} (hK : ∀ q1 q2, K (or q1 q2) ↔ K q1 ∧ K q2)
    (q1 q2 : Query D) : K (simplifyOr q1 q2) ↔ K q1 ∧ K q2 := by
  induction q2 generalizing q1 with
  | or q2 q3 ih2 ih3 => rw [simplifyOr, ih3, ih2, hK, and_assoc]
  | and | andNot | hasWord | hasField | predicate => exact hK _ _

lemma found_or (q1 q2 : Query D) : Found (or q1 q2) ↔ Found q1 ∧ Found q2 := by rw [Found]

lemma sifted_or (q1 q2 : Query D) : Sifted (or q1 q2) ↔ Sifted q1 ∧ Sifted q2 := by rw [Sifted]

lemma split_or (q1 q2 : Query D) : Split (or q1 q2) ↔ Split q1 ∧ Split q2 := Iff.rfl

lemma simplifyAndNot_cases (q1 q2 : Query D) :
    (∃ f, simplifyAndNot q1 q2 = predicate f) ∧ q1.isPredicate = true ∧ q2.isPredicate = true ∨
      simplifyAndNot q1 q2 = andNot q1 q2 := by
  fun_cases simplifyAndNot q1 q2 with
  | case1 f1 f2 => exact .inl ⟨⟨_, rfl⟩, rfl, rfl⟩
  | case2 => exact .inr rfl

lemma Found.not_isPredicate {q : Query D} (h : Found q) : ¬ q.isPredicate = true := by
  cases q with
  | predicate f => simp [Found] at h
  | and | or | andNot | hasWord | hasField => simp [isPredicate]

lemma Found.simplifyAndNot {q1 q2 : Query D} (h1 : Found q1) (h2 : Removed q2) :
    Found (simplifyAndNot q1 q2) := by
  obtain ⟨-, h, -⟩ | h := simplifyAndNot_cases q1 q2
  · exact absurd h h1.not_isPredicate
  · rw [h, Found]
    exact ⟨h1, h2⟩

lemma Sifted.simplifyAndNot {q1 q2 : Query D} (h1 : Sifted q1) (h2 : Removed q2) :
    Sifted (simplifyAndNot q1 q2) := by
  obtain ⟨⟨f, h⟩, -⟩ | h := simplifyAndNot_cases q1 q2
  · rw [h, Sifted]
    trivial
  · rw [h, Sifted]
    exact ⟨h1, h2⟩

lemma Split.simplifyAndNot {q1 q2 : Query D} (h1 : Split q1) (h2 : Removed q2) :
    Split (simplifyAndNot q1 q2) := by
  obtain ⟨⟨f, h⟩, -⟩ | h := simplifyAndNot_cases q1 q2
  · rw [h]
    trivial
  · rw [h]
    exact ⟨h1, h2⟩

lemma Sifted.simplifyAnd {q1 q2 : Query D} (h1 : Sifted q1) (h2 : Sifted q2) :
    Sifted (Indexer.simplifyAnd q1 q2) := by
  fun_induction Indexer.simplifyAnd q1 q2 with
  | case1 f1 f2 => simp [Sifted]
  | case2 q1 q2 q3 ih =>
    rw [Sifted] at h1
    exact (ih h1.1 h2).simplifyAndNot h1.2
  | case3 q f =>
    rw [Sifted]
    exact ⟨h2, by simp [Sifted]⟩
  | case4 q1 q2 q3 _ _ ih1 ih2 =>
    rw [Sifted] at h2
    exact ih2 (ih1 h1 h2.1) h2.2
  | case5 q1 q2 q3 _ ih1 ih2 =>
    rw [Sifted] at h1
    exact (keeps_simplifyOr sifted_or _ _).mpr ⟨ih1 h1.1 h2, ih2 h1.2 h2⟩
  | case6 q1 q2 =>
    rw [Sifted]
    exact ⟨h1, h2⟩

lemma Found.simplifyAnd {q1 q2 : Query D} (h1 : Found q1) (h2 : Sifted q2) :
    Found (Indexer.simplifyAnd q1 q2) := by
  fun_induction Indexer.simplifyAnd q1 q2 with
  | case1 f1 f2 => simp [Found] at h1
  | case2 q1 q2 q3 ih =>
    rw [Found] at h1
    exact (ih h1.1 h2).simplifyAndNot h1.2
  | case3 q f => simp [Found] at h1
  | case4 q1 q2 q3 _ _ ih1 ih2 =>
    rw [Sifted] at h2
    exact ih2 (ih1 h1 h2.1) h2.2
  | case5 q1 q2 q3 _ ih1 ih2 =>
    rw [Found] at h1
    exact (keeps_simplifyOr found_or _ _).mpr ⟨ih1 h1.1 h2, ih2 h1.2 h2⟩
  | case6 q1 q2 =>
    rw [Found]
    exact ⟨h1, h2⟩

lemma Split.found {q : Query D} (h : Split q) (hor : ∀ q1 q2, q ≠ or q1 q2)
    (hnot : ∀ q1 q2, q ≠ andNot q1 q2) (hpred : ∀ f, q ≠ predicate f) : Found q := by
  cases q with
  | and =>
    rw [Found]
    exact h
  | or q1 q2 => exact absurd rfl (hor q1 q2)
  | andNot q1 q2 => exact absurd rfl (hnot q1 q2)
  | hasWord | hasField => simp [Found]
  | predicate f => exact absurd rfl (hpred f)

lemma Split.simplifyAnd {q1 q2 : Query D} (h1 : Split q1) (h2 : Found q2) :
    Found (Indexer.simplifyAnd q1 q2) := by
  fun_induction Indexer.simplifyAnd q1 q2 with
  | case1 f1 f2 => simp [Found] at h2
  | case2 q1 q2 q3 ih => exact (ih h1.1 h2).simplifyAndNot h1.2
  | case3 q f =>
    rw [Found]
    exact ⟨h2, by simp [Sifted]⟩
  | case4 q1 q2 q3 _ _ ih1 ih2 =>
    rw [Found] at h2
    exact (ih1 h1 h2.1).simplifyAnd h2.2
  | case5 q1 q2 q3 _ ih1 ih2 =>
    exact (keeps_simplifyOr found_or _ _).mpr ⟨ih1 h1.1 h2, ih2 h1.2 h2⟩
  | case6 q1 q2 _ hnot hpred hand hor =>
    rw [Found]
    exact ⟨h1.found hor hnot hpred, h2.sifted⟩

lemma Split.simplifyAnd_test {q1 q2 : Query D} (h1 : Split q1) (h2 : q2.isPredicate = true) :
    Split (Indexer.simplifyAnd q1 q2) := by
  fun_induction Indexer.simplifyAnd q1 q2 with
  | case1 f1 f2 => trivial
  | case2 q1 q2 q3 ih => exact (ih h1.1 h2).simplifyAndNot h1.2
  | case3 f q hq =>
    cases q with
    | predicate g => exact absurd rfl (hq g)
    | and | or | andNot | hasWord | hasField => simp [isPredicate] at h2
  | case4 q1 q2 q3 => simp [isPredicate] at h2
  | case5 q1 q2 q3 _ ih1 ih2 =>
    exact (keeps_simplifyOr split_or _ _).mpr ⟨ih1 h1.1 h2, ih2 h1.2 h2⟩
  | case6 q1 q2 _ hnot hpred hand hor =>
    refine ⟨h1.found hor hnot hpred, ?_⟩
    cases q2 with
    | predicate f => simp [Sifted]
    | and | or | andNot | hasWord | hasField => simp [isPredicate] at h2

lemma Test.simplify {q : Query D} (h : Test q) : (simplify q).isPredicate = true := by
  induction q with
  | and q1 q2 ih1 ih2 =>
    have h1 := ih1 h.1
    have h2 := ih2 h.2
    rw [Indexer.simplify]
    cases hq1 : Indexer.simplify q1 <;> simp [hq1, isPredicate] at h1
    cases hq2 : Indexer.simplify q2 <;> simp [hq2, isPredicate] at h2
    rw [Indexer.simplifyAnd]
    rfl
  | andNot q1 q2 ih1 ih2 =>
    have h1 := ih1 h.1
    have h2 := ih2 h.2
    rw [Indexer.simplify]
    cases hq1 : Indexer.simplify q1 <;> simp [hq1, isPredicate] at h1
    cases hq2 : Indexer.simplify q2 <;> simp [hq2, isPredicate] at h2
    rfl
  | predicate f => rfl
  | or | hasWord | hasField => exact h.elim

-- The conditions on a query become those on the simplified one
lemma simplify_conditions (q : Query D) :
    (Finds q → Found (simplify q)) ∧ (Sifts q → Sifted (simplify q)) ∧
      (Splits q → Split (simplify q)) := by
  have hremoved {q : Query D} (ih : Finds q → Found (simplify q)) (h : Test q ∨ Finds q) :
      Removed (simplify q) := h.imp Test.simplify ih
  induction q with
  | and q1 q2 ih1 ih2 =>
    have hfinds (h : Finds q1 ∧ Sifts q2 ∨ Splits q1 ∧ Finds q2) :
        Found (simplifyAnd (simplify q1) (simplify q2)) := by
      cases h with
      | inl h => exact (ih1.1 h.1).simplifyAnd (ih2.2.1 h.2)
      | inr h => exact (ih1.2.2 h.1).simplifyAnd (ih2.1 h.2)
    rw [Finds, Sifts, Splits, Indexer.simplify]
    refine ⟨hfinds, fun h => (ih1.2.1 h.1).simplifyAnd (ih2.2.1 h.2), ?_⟩
    rintro (h | h | h)
    · exact (hfinds (.inl h)).split
    · exact (hfinds (.inr h)).split
    · exact (ih1.2.2 h.1).simplifyAnd_test h.2.simplify
  | or q1 q2 ih1 ih2 =>
    rw [Finds, Sifts, Splits, Indexer.simplify, keeps_simplifyOr found_or,
      keeps_simplifyOr sifted_or, keeps_simplifyOr split_or]
    exact ⟨.imp ih1.1 ih2.1, .imp ih1.2.1 ih2.2.1, .imp ih1.2.2 ih2.2.2⟩
  | andNot q1 q2 ih1 ih2 =>
    rw [Finds, Sifts, Splits, Indexer.simplify]
    exact ⟨fun h => (ih1.1 h.1).simplifyAndNot (hremoved ih2.1 h.2),
      fun h => (ih1.2.1 h.1).simplifyAndNot (hremoved ih2.1 h.2),
      fun h => (ih1.2.2 h.1).simplifyAndNot (hremoved ih2.1 h.2)⟩
  | hasWord | hasField => simp [Indexer.simplify, Found, Sifted, Split]
  | predicate => simp [Indexer.simplify, Finds, Sifted, Split]

section Meaning

variable {adds : List (Add D)} {d : D}

lemma sat_simplifyOr (q1 q2 : Query D) :
    Sat adds (simplifyOr q1 q2) d ↔ Sat adds q1 d ∨ Sat adds q2 d := by
  induction q2 generalizing q1 with
  | or q2 q3 ih2 ih3 => rw [simplifyOr, ih3, ih2, Sat, or_assoc]
  | and | andNot | hasWord | hasField | predicate => exact Iff.rfl

lemma sat_simplifyAndNot (q1 q2 : Query D) :
    Sat adds (simplifyAndNot q1 q2) d ↔ Sat adds q1 d ∧ ¬ Sat adds q2 d := by
  fun_cases Indexer.simplifyAndNot q1 q2 with
  | case1 f1 f2 => simp [Sat]
  | case2 => exact Iff.rfl

lemma sat_simplifyAnd (q1 q2 : Query D) :
    Sat adds (simplifyAnd q1 q2) d ↔ Sat adds q1 d ∧ Sat adds q2 d := by
  fun_induction Indexer.simplifyAnd q1 q2 with
  | case1 f1 f2 => simp [Sat]
  | case2 q1 q2 q3 ih =>
    rw [sat_simplifyAndNot, ih, Sat]
    tauto
  | case3 q f => exact and_comm
  | case4 q1 q2 q3 _ _ ih1 ih2 => rw [ih2, ih1, Sat, and_assoc]
  | case5 q1 q2 q3 _ ih1 ih2 => rw [sat_simplifyOr, ih1, ih2, Sat, or_and_right]
  | case6 q1 q2 => exact Iff.rfl

lemma sat_simplify (q : Query D) : Sat adds (simplify q) d ↔ Sat adds q d := by
  induction q with
  | and q1 q2 ih1 ih2 => rw [simplify, sat_simplifyAnd, ih1, ih2, Sat]
  | or q1 q2 ih1 ih2 => rw [simplify, sat_simplifyOr, ih1, ih2, Sat]
  | andNot q1 q2 ih1 ih2 => rw [simplify, sat_simplifyAndNot, ih1, ih2, Sat]
  | hasWord | hasField | predicate => rfl

end Meaning

lemma words_simplifyOr {q1 q2 : Query D} (h1 : Words q1) (h2 : Words q2) :
    Words (simplifyOr q1 q2) :=
  (keeps_simplifyOr (K := Words) (fun _ _ => Iff.rfl) q1 q2).mpr ⟨h1, h2⟩

lemma words_simplifyAndNot {q1 q2 : Query D} (h1 : Words q1) (h2 : Words q2) :
    Words (simplifyAndNot q1 q2) := by
  obtain ⟨⟨f, h⟩, -⟩ | h := simplifyAndNot_cases q1 q2
  · rw [h]
    trivial
  · rw [h]
    exact ⟨h1, h2⟩

lemma words_simplifyAnd {q1 q2 : Query D} (h1 : Words q1) (h2 : Words q2) :
    Words (simplifyAnd q1 q2) := by
  fun_induction simplifyAnd q1 q2 with
  | case1 f1 f2 => trivial
  | case2 q1 q2 q3 ih => exact words_simplifyAndNot (ih h1.1 h2) h1.2
  | case3 q f => exact ⟨h2, h1⟩
  | case4 q1 q2 q3 _ _ ih1 ih2 => exact ih2 (ih1 h1 h2.1) h2.2
  | case5 q1 q2 q3 _ ih1 ih2 => exact words_simplifyOr (ih1 h1.1 h2) (ih2 h1.2 h2)
  | case6 q1 q2 => exact ⟨h1, h2⟩

lemma words_simplify {q : Query D} (hq : Words q) : Words (simplify q) := by
  induction q with
  | and q1 q2 ih1 ih2 => exact words_simplifyAnd (ih1 hq.1) (ih2 hq.2)
  | or q1 q2 ih1 ih2 => exact words_simplifyOr (ih1 hq.1) (ih2 hq.2)
  | andNot q1 q2 ih1 ih2 => exact words_simplifyAndNot (ih1 hq.1) (ih2 hq.2)
  | hasWord | hasField | predicate => exact hq

end Query

end Mldonkey.Indexer

-- What the four evaluations of a simplified query contain, and the hits of a search.
namespace Mldonkey.Indexer

variable {D : Type} [DecidableEq D] {doc : Doc D} {adds : List (Add D)}

-- The words that were added are stemmed
def StemmedAdds (adds : List (Add D)) : Prop := ∀ a ∈ adds, Stemmed a.word

lemma hit_iff_hasPrefix (hadds : StemmedAdds adds) {s : List UInt8} (hs : Stemmed s) (d : D)
    (fields : Fields) :
    Hit (find (indexOf adds) s).entries d fields ↔ HasPrefix adds fields s d := by
  rw [hit_find]
  constructor
  · rintro ⟨a, ha, hd, hf, h⟩
    exact ⟨a, ha, hd, hf, (path_prefix_iff hs (hadds a ha)).mp h⟩
  · rintro ⟨a, ha, hd, hf, h⟩
    exact ⟨a, ha, hd, hf, (path_prefix_iff hs (hadds a ha)).mpr h⟩

lemma mem_unless_empty {m m' : Intmap doc} {d : D} {P : Prop} (h : d ∈ m' ↔ d ∈ m ∧ P) :
    d ∈ (if m.isEmpty then m else m') ↔ d ∈ m ∧ P := by
  split_ifs with he
  · simp [Intmap.not_mem_of_isEmpty he]
  · exact h

namespace Query

attribute [local simp] queryMap andQuery orQuery andnotQuery

-- What each evaluation makes of a query, under its condition
structure Evaluated (doc : Doc D) (adds : List (Add D)) (q : Query D) : Prop where
  map : Found q → ∀ d, d ∈ queryMap doc (indexOf adds) q ↔ Sat adds q d
  and : Sifted q → ∀ m d, d ∈ andQuery doc (indexOf adds) q m ↔ d ∈ m ∧ Sat adds q d
  or : Found q → ∀ m d, d ∈ orQuery doc (indexOf adds) q m ↔ d ∈ m ∨ Sat adds q d
  andNot : Removed q → ∀ m d, d ∈ andnotQuery doc (indexOf adds) q m ↔ d ∈ m ∧ ¬ Sat adds q d

-- A word is looked for in the same way in some fields and in all of them.
lemma evaluated_search (hf : ∀ d, doc.filtered d = false) (hadds : StemmedAdds adds)
    {fields : Fields} {s : List UInt8} (hs : Stemmed s) {q : Query D}
    (hsat : ∀ d, Sat adds q d ↔ HasPrefix adds fields s d)
    (hmap : queryMap doc (indexOf adds) q = getFields doc (find (indexOf adds) s) fields)
    (hand : ∀ m, andQuery doc (indexOf adds) q m =
      if m.isEmpty then m else andGetFields doc (find (indexOf adds) s) fields m)
    (hor : ∀ m, orQuery doc (indexOf adds) q m =
      orGetFields doc m (find (indexOf adds) s) fields)
    (hnot : ∀ m, andnotQuery doc (indexOf adds) q m =
      substractMap doc m (getFields doc (find (indexOf adds) s) fields)) :
    Evaluated doc adds q where
  map _ d := by rw [hmap, mem_getFields hf, hit_iff_hasPrefix hadds hs, hsat]
  and _ m d := by
    rw [hand]
    refine mem_unless_empty ?_
    rw [mem_andGetFields, hit_iff_hasPrefix hadds hs, hsat]
  or _ m d := by rw [hor, mem_orGetFields hf, hit_iff_hasPrefix hadds hs, hsat]
  andNot _ m d := by
    rw [hnot, mem_substractMap, mem_getFields hf, hit_iff_hasPrefix hadds hs, hsat]

lemma evaluated_hasField (hf : ∀ d, doc.filtered d = false) (hadds : StemmedAdds adds)
    {fields : Fields} {s : List UInt8} (hs : Stemmed s) :
    Evaluated doc adds (.hasField fields s) :=
  evaluated_search hf hadds hs (fun _ => Iff.rfl) (by rw [queryMap]) (fun _ => by rw [andQuery])
    (fun _ => by rw [orQuery]) fun _ => by rw [andnotQuery]

lemma evaluated_hasWord (hf : ∀ d, doc.filtered d = false) (hadds : StemmedAdds adds)
    {s : List UInt8} (hs : Stemmed s) : Evaluated doc adds (.hasWord s) :=
  evaluated_search hf hadds hs (fun _ => Iff.rfl) (by rw [queryMap]) (fun _ => by rw [andQuery])
    (fun _ => by rw [orQuery]) fun _ => by rw [andnotQuery]

lemma evaluated_predicate (f : D → Bool) : Evaluated doc adds (.predicate f) where
  map h := by simp [Found] at h
  and _ m d := by
    rw [andQuery]
    exact mem_unless_empty mem_purgeMap
  or h := by simp [Found] at h
  andNot _ m d := by
    rw [andnotQuery, mem_purgeMap, Sat, Bool.not_eq_true', Bool.not_eq_true]

lemma Evaluated.and_map {q1 q2 : Query D} (h1 : Evaluated doc adds q1)
    (h2 : Evaluated doc adds q2) (h : Found (.and q1 q2)) (d : D) :
    d ∈ (if q1.isPredicate = true then
        andQuery doc (indexOf adds) q1 (queryMap doc (indexOf adds) q2)
      else andQuery doc (indexOf adds) q2 (queryMap doc (indexOf adds) q1)) ↔
      Sat adds (.and q1 q2) d := by
  rw [Found] at h
  rw [if_neg h.1.not_isPredicate, h2.and h.2, h1.map h.1, Sat]

lemma evaluated_and {q1 q2 : Query D} (h1 : Evaluated doc adds q1) (h2 : Evaluated doc adds q2) :
    Evaluated doc adds (.and q1 q2) where
  map h d := by
    rw [queryMap]
    exact h1.and_map h2 h d
  and h m d := by
    rw [Sifted] at h
    rw [andQuery]
    refine mem_unless_empty ?_
    rw [h2.and h.2, h1.and h.1, Sat, and_assoc]
  or h m d := by rw [orQuery, mem_mergeMaps, h1.and_map h2 h]
  andNot h m d := by
    have h := h.resolve_left (by simp [isPredicate])
    rw [andnotQuery, mem_substractMap, h1.and_map h2 h]

lemma evaluated_or {q1 q2 : Query D} (h1 : Evaluated doc adds q1) (h2 : Evaluated doc adds q2) :
    Evaluated doc adds (.or q1 q2) where
  map h d := by
    rw [found_or] at h
    rw [queryMap, h2.or h.2, h1.map h.1, Sat]
  and h m d := by
    rw [sifted_or] at h
    rw [andQuery]
    refine mem_unless_empty ?_
    rw [mem_mergeMaps, h1.and h.1, h2.and h.2, Sat, and_or_left]
  or h m d := by
    rw [found_or] at h
    rw [orQuery, h2.or h.2, h1.or h.1, Sat, or_assoc]
  andNot h m d := by
    have h := (found_or q1 q2).mp (h.resolve_left (by simp [isPredicate]))
    have hsubstract : andnotQuery doc (indexOf adds) (.or q1 q2) m =
        substractMap doc (substractMap doc m (queryMap doc (indexOf adds) q1))
          (queryMap doc (indexOf adds) q2) := by
      have hne {q : Query D} (hq : Found q) : ∀ f, q = .predicate f → False := by
        rintro f rfl
        exact hq.not_isPredicate rfl
      rw [andnotQuery]
      · exact hne h.2
      · exact hne h.1
    rw [hsubstract, mem_substractMap, mem_substractMap, h1.map h.1, h2.map h.2, Sat]
    tauto

lemma evaluated_andNot {q1 q2 : Query D} (h1 : Evaluated doc adds q1)
    (h2 : Evaluated doc adds q2) : Evaluated doc adds (.andNot q1 q2) where
  map h d := by
    rw [Found] at h
    rw [queryMap, h2.andNot h.2, h1.map h.1, Sat]
  and h m d := by
    rw [Sifted] at h
    rw [andQuery]
    refine mem_unless_empty ?_
    rw [h2.andNot h.2, h1.and h.1, Sat, and_assoc]
  or h m d := by
    rw [Found] at h
    rw [orQuery, mem_mergeMaps, h2.andNot h.2, h1.map h.1, Sat]
  andNot h m d := by
    have h := h.resolve_left (by simp [isPredicate])
    rw [Found] at h
    rw [andnotQuery, mem_substractMap, h2.andNot h.2, h1.map h.1, Sat]

lemma evaluated (hf : ∀ d, doc.filtered d = false) (hadds : StemmedAdds adds) {q : Query D}
    (hq : Words q) : Evaluated doc adds q := by
  induction q with
  | and q1 q2 ih1 ih2 => exact evaluated_and (ih1 hq.1) (ih2 hq.2)
  | or q1 q2 ih1 ih2 => exact evaluated_or (ih1 hq.1) (ih2 hq.2)
  | andNot q1 q2 ih1 ih2 => exact evaluated_andNot (ih1 hq.1) (ih2 hq.2)
  | hasWord s => exact evaluated_hasWord hf hadds hq
  | hasField fields s => exact evaluated_hasField hf hadds hq
  | predicate f => exact evaluated_predicate f

-- A search for a query that the index finds answers with exactly the documents of the query
theorem query_exact (doc : Doc D) (hf : ∀ d, doc.filtered d = false) (adds : List (Add D))
    (hadds : StemmedAdds adds) (q : Query D) (hq : Words q) (hfinds : Finds q) :
    (∀ d, d ∈ queryMap doc (indexOf adds) (simplify q) ↔ Sat adds q d) ∧
      (query doc (indexOf adds) q).Nodup ∧
      (∀ d ∈ query doc (indexOf adds) q, Sat adds q d) ∧
      (query doc (indexOf adds) q).length = min {d | Sat adds q d}.ncard 1000 := by
  have hmap (d : D) : d ∈ queryMap doc (indexOf adds) (simplify q) ↔ Sat adds q d := by
    rw [(evaluated hf hadds (words_simplify hq)).map ((simplify_conditions q).1 hfinds) d,
      sat_simplify]
  have hnodup := Intmap.nodup_docs (queryMap doc (indexOf adds) (simplify q))
  refine ⟨hmap, hnodup.sublist (List.take_sublist _ _), fun d hd => ?_, ?_⟩
  · exact (hmap d).mp (Intmap.mem_docs.mp (List.mem_of_mem_take hd))
  · have hset : {d | Sat adds q d} =
        ((queryMap doc (indexOf adds) (simplify q)).docs.toFinset : Set D) := by
      ext d
      simp [hmap]
    rw [hset, Set.ncard_coe_finset, List.toFinset_card_of_nodup hnodup, query, List.length_take,
      maxSearchResults]
    omega

-- Documents that are numbered by themselves
def number : Doc ℤ := ⟨id, fun _ => false, fun _ _ h => h⟩

-- Four documents: two with "ab", one with "abc", and one with "ab" in the other field and "xy"; the
-- first one has "cd" too.
def fourDocs : List (Add ℤ) :=
  [⟨[97, 98], 0, 1⟩, ⟨[99, 100], 0, 2⟩, ⟨[97, 98, 99], 3, 1⟩, ⟨[97, 98], 4, 2⟩,
    ⟨[120, 121], 4, 1⟩, ⟨[97, 98], 7, 1⟩]

-- What begins with "ab" in the first field or with "xy", without "cd", below 5
def belowFive : Query ℤ :=
  .and (.predicate (· < 5))
    (.andNot (.or (.hasField 1 [97, 98]) (.hasWord [120, 121])) (.hasWord [99, 100]))

theorem query_exact_fourDocs : query number (indexOf fourDocs) belowFive = [3, 4] ∧
    ∀ d ∈ query number (indexOf fourDocs) belowFive, Sat fourDocs belowFive d := by
  refine ⟨?_, (query_exact number (fun _ => rfl) fourDocs
    (by simp [StemmedAdds, Stemmed, fourDocs]) belowFive (by simp [belowFive, Words, Stemmed])
    (by simp [belowFive, Finds, Test, Splits])).2.2.1⟩
  have hsimplify : simplify belowFive = .and
      (.andNot (.or (.hasField 1 [97, 98]) (.hasWord [120, 121])) (.hasWord [99, 100]))
      (.predicate (· < 5)) := by
    simp [belowFive, simplify, simplifyAnd, simplifyOr, simplifyAndNot]
  rw [query, hsimplify]
  decide

-- One document, whose word is "a"
def oneAdd : List (Add ℤ) := [⟨[97], 0, 1⟩]

-- The document has "a" and passes the predicate, so it is not to be found, and it is
theorem query_purges_wrong :
    let q : Query ℤ :=
      .andNot (.hasField 1 [97]) (.or (.hasField 1 [98]) (.predicate fun _ => true))
    Placed q ∧ Words q ∧ StemmedAdds oneAdd ∧
      (0 : ℤ) ∈ queryMap number (indexOf oneAdd) (simplify q) ∧ ¬ Sat oneAdd q 0 := by
  refine ⟨trivial, by simp [Words, Stemmed], by simp [StemmedAdds, Stemmed, oneAdd], ?_, ?_⟩
  · rw [← Intmap.contains_iff]
    decide
  · simp [Sat]

end Query

end Mldonkey.Indexer
