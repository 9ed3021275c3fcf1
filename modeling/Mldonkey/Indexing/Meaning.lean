import Mldonkey.Indexing.Query

namespace Mldonkey.Indexing.Query

-- What a document answers to each leaf of a query
structure Document where
  hasWord : List UInt8 → Bool
  hasField : Field → List UInt8 → Bool
  hasMinVal : Field → ℤ → Bool
  hasMaxVal : Field → ℤ → Bool

-- `q1 AND NOT q2` where an operand may be no constraint
def without : Option Bool → Option Bool → Option Bool
  | Option.none, _ => Option.none
  | some a, Option.none => some a
  | some a, some b => some (a && !b)

@[simp] lemma without_none (a : Option Bool) : without a Option.none = a := by
  cases a <;> rfl

@[simp] lemma none_without (b : Option Bool) : without Option.none b = Option.none := rfl

lemma merge_without {a b c : Option Bool} (h : c.isSome → b = Option.none → a = Option.none) :
    without (Option.merge (· && ·) a b) c = Option.merge (· && ·) a (without b c) := by
  cases a <;> cases b <;> cases c <;> simp_all [without, Bool.and_assoc]

lemma merge_and_comm (a b : Option Bool) :
    Option.merge (· && ·) a b = Option.merge (· && ·) b a :=
  Std.Commutative.comm a b

-- Whether the document meets the query; `none` is no constraint
def value (d : Document) : Query → Option Bool
  | and q1 q2 => Option.merge (· && ·) (value d q1) (value d q2)
  | or q1 q2 => Option.merge (· || ·) (value d q1) (value d q2)
  | andNot q1 q2 => without (value d q1) (value d q2)
  | hasWord s => some (d.hasWord s)
  | hasField f s => some (d.hasField f s)
  | hasMinVal f v => some (d.hasMinVal f v)
  | hasMaxVal f v => some (d.hasMaxVal f v)
  | none => Option.none

def NoNone : Query → Prop
  | and q1 q2 | or q1 q2 | andNot q1 q2 => NoNone q1 ∧ NoNone q2
  | none => False
  | _ => True

-- The query asks for nothing: it simplifies to no constraint at all
def vacuous : Query → Bool
  | and q1 q2 | or q1 q2 => vacuous q1 && vacuous q2
  | andNot q1 _ => vacuous q1
  | none => true
  | _ => false

-- Only QNone leaves
def empty : Query → Bool
  | and q1 q2 | or q1 q2 | andNot q1 q2 => empty q1 && empty q2
  | none => true
  | _ => false

-- An AND NOT with something to exclude reaches the root through ANDs, left sides of
-- AND NOTs and operands whose sibling is empty
def excludes : Query → Bool
  | and q1 q2 => excludes q1 || excludes q2
  | or q1 q2 => empty q1 && excludes q2 || empty q2 && excludes q1
  | andNot q1 q2 => excludes q1 || !empty q2
  | _ => false

-- The root is an AND NOT, and not only of empty queries
def isAndNot : Query → Bool
  | andNot q1 q2 => !(empty q1 && empty q2)
  | _ => false

-- No AND NOT is moved next to another one, into the right side of another one, or out of
-- an operand that is no constraint
def Clean : Query → Prop
  | and q1 q2 => Clean q1 ∧ Clean q2 ∧ ¬ (excludes q1 ∧ excludes q2) ∧
      (excludes q1 → vacuous q1 → vacuous q2) ∧ (excludes q2 → vacuous q2 → vacuous q1)
  | or q1 q2 => Clean q1 ∧ Clean q2
  | andNot q1 q2 => Clean q1 ∧ Clean q2 ∧ (excludes q1 → empty q2) ∧ ¬ excludes q2 ∧
      ¬ isAndNot q2
  | _ => True

lemma empty_not_excludes {q : Query} (h : empty q) : excludes q = false := by
  induction q with
  | and q1 q2 h1 h2 =>
    simp only [empty, Bool.and_eq_true] at h
    simp [excludes, h1 h.1, h2 h.2]
  | or q1 q2 h1 h2 =>
    simp only [empty, Bool.and_eq_true] at h
    simp [excludes, h1 h.1, h2 h.2]
  | andNot q1 q2 h1 h2 =>
    simp only [empty, Bool.and_eq_true] at h
    simp [excludes, h1 h.1, h.2]
  | _ => rfl

lemma empty_vacuous {q : Query} (h : empty q) : vacuous q := by
  induction q with
  | and q1 q2 h1 h2 | or q1 q2 h1 h2 | andNot q1 q2 h1 h2 =>
    simp only [empty, Bool.and_eq_true] at h
    simp [vacuous, h1 h.1, h2 h.2]
  | none => rfl
  | _ => cases h

lemma vacuous_iff (d : Document) (q : Query) : vacuous q ↔ value d q = Option.none := by
  induction q with
  | and q1 q2 h1 h2 | or q1 q2 h1 h2 =>
    simp only [vacuous, Bool.and_eq_true, h1, h2, value]
    cases value d q1 <;> cases value d q2 <;> simp [Option.merge]
  | andNot q1 q2 h1 h2 =>
    simp only [vacuous, h1, value]
    cases value d q1 <;> cases value d q2 <;> simp [without]
  | _ => simp [vacuous, value]

theorem value_recSimplifyQuery (d : Document) (q : Query) :
    value d (recSimplifyQuery q) = value d q := by
  induction q with
  | and q1 q2 h1 h2 =>
    rw [recSimplifyQuery, value, ← h1, ← h2]
    fun_cases dropNone and (recSimplifyQuery q1) (recSimplifyQuery q2) <;>
      simp_all [value]
  | or q1 q2 h1 h2 =>
    rw [recSimplifyQuery, value, ← h1, ← h2]
    fun_cases dropNone or (recSimplifyQuery q1) (recSimplifyQuery q2) <;>
      simp_all [value]
  | andNot q1 q2 h1 h2 =>
    rw [recSimplifyQuery, value, ← h1, ← h2]
    fun_cases dropNoneNot (recSimplifyQuery q1) (recSimplifyQuery q2) <;>
      simp_all [value]
  | _ => rfl

lemma noNone_dropNone {node : Query → Query → Query} (hn : ∀ {a b}, NoNone a → NoNone b →
    NoNone (node a b)) {a b : Query} (ha : a = none ∨ NoNone a) (hb : b = none ∨ NoNone b) :
    dropNone node a b = none ∨ NoNone (dropNone node a b) := by
  fun_cases dropNone node a b with
  | case1 => exact .inl rfl
  | case2 => exact hb
  | case3 => exact ha
  | case4 a b _ hane hbne => exact .inr (hn (ha.resolve_left hane) (hb.resolve_left hbne))

lemma noNone_dropNoneNot {a b : Query} (ha : a = none ∨ NoNone a) (hb : b = none ∨ NoNone b) :
    dropNoneNot a b = none ∨ NoNone (dropNoneNot a b) := by
  fun_cases dropNoneNot a b with
  | case1 => exact .inl rfl
  | case2 => exact .inl rfl
  | case3 => exact ha
  | case4 a b _ hane hbne => exact .inr ⟨ha.resolve_left hane, hb.resolve_left hbne⟩

theorem recSimplifyQuery_noNone (q : Query) :
    recSimplifyQuery q = none ∨ NoNone (recSimplifyQuery q) := by
  induction q with
  | and q1 q2 h1 h2 => exact noNone_dropNone And.intro h1 h2
  | or q1 q2 h1 h2 => exact noNone_dropNone And.intro h1 h2
  | andNot q1 q2 h1 h2 => exact noNone_dropNoneNot h1 h2
  | none => exact .inl rfl
  | _ => exact .inr trivial

-- What a step of the rewriting leaves of a clean query
structure Keeps (q r : Query) : Prop where
  value : ∀ d, value d r = value d q
  empty : empty r = empty q
  excludes : excludes r = excludes q
  clean : Clean r

lemma Keeps.trans {q r s : Query} (h1 : Keeps q r) (h2 : Keeps r s) : Keeps q s where
  value d := (h2.value d).trans (h1.value d)
  empty := h2.empty.trans h1.empty
  excludes := h2.excludes.trans h1.excludes
  clean := h2.clean

lemma Keeps.vacuous {q r : Query} (h : Keeps q r) : vacuous r = vacuous q := by
  let d : Document := ⟨fun _ => true, fun _ _ => true, fun _ _ => true, fun _ _ => true⟩
  rw [Bool.eq_iff_iff, vacuous_iff d, vacuous_iff d, h.value]

-- The rule for a nested left side, harmless only when one of the two right sides is empty
lemma keeps_left (q1 q2 q3 : Query) (hq : Clean (andNot (andNot q1 q2) q3)) :
    Keeps (andNot (andNot q1 q2) q3) (andNot q1 (and q2 q3)) := by
  have e2 := @empty_not_excludes q2
  refine ⟨fun d => ?_, ?_, ?_, ?_⟩
  · have h : empty q2 ∨ empty q3 := by
      simp only [Clean, excludes] at hq
      grind
    rcases h with h | h
    · have hv := (vacuous_iff d q2).mp (empty_vacuous h)
      simp [value, hv]
    · have hv := (vacuous_iff d q3).mp (empty_vacuous h)
      simp [value, hv]
  · simp [empty, Bool.and_assoc]
  · simp [excludes, empty]
    grind
  · simp only [Clean, excludes, empty, isAndNot] at hq ⊢
    grind

-- The rule for a nested right side, harmless only on empty queries
lemma keeps_right (q1 q2 q3 : Query) (hq : Clean (andNot q1 (andNot q2 q3))) :
    Keeps (andNot q1 (andNot q2 q3)) (andNot (and q1 q2) q3) := by
  have h : empty q2 ∧ empty q3 := by
    simp only [Clean, isAndNot] at hq
    grind
  have e2 := empty_not_excludes h.1
  have v2 := empty_vacuous h.1
  refine ⟨fun d => ?_, ?_, ?_, ?_⟩
  · have hv2 := (vacuous_iff d q2).mp v2
    have hv3 := (vacuous_iff d q3).mp (empty_vacuous h.2)
    simp [value, hv2, hv3]
  · simp [empty, Bool.and_assoc]
  · simp [excludes, empty, h, e2]
  · simp only [Clean, excludes, empty, isAndNot] at hq ⊢
    grind

lemma keeps_hoistRight (q1 q2 q3 : Query) (hq : Clean (and q1 (andNot q2 q3))) :
    Keeps (and q1 (andNot q2 q3)) (andNot (and q1 q2) q3) := by
  have v3 := @empty_vacuous q3
  refine ⟨fun d => ?_, ?_, ?_, ?_⟩
  · refine merge_without fun h3 h2 => ?_
    rw [← vacuous_iff d] at h2 ⊢
    have h3' : ¬ empty q3 := by
      intro h
      rw [(vacuous_iff d q3).mp (v3 h)] at h3
      cases h3
    simp only [Clean, excludes, vacuous] at hq
    grind
  · simp [empty, Bool.and_assoc]
  · simp [excludes, Bool.or_assoc]
  · simp only [Clean, excludes, vacuous, isAndNot] at hq ⊢
    grind

lemma keeps_hoistLeft (q1 q2 q3 : Query) (hq : Clean (and (andNot q1 q2) q3)) :
    Keeps (and (andNot q1 q2) q3) (andNot (and q1 q3) q2) := by
  have hs : Clean (and q3 (andNot q1 q2)) := by
    simp only [Clean, excludes] at hq ⊢
    grind
  have hk := keeps_hoistRight q3 q1 q2 hs
  refine ⟨fun d => ?_, ?_, ?_, ?_⟩
  · have := hk.value d
    simp only [value] at this ⊢
    rw [merge_and_comm (value d q1), this, merge_and_comm]
  · simp only [empty, Bool.and_assoc]
    rw [Bool.and_comm (empty q2)]
  · simp [excludes, Bool.or_assoc, Bool.or_comm]
  · simp only [Clean, excludes, vacuous, isAndNot] at hq ⊢
    grind

lemma Rewrites.keeps {q q1 : Query} (h : Rewrites q q1) (hq : Clean q) : Keeps q q1 := by
  cases h with
  | andNone => exact ⟨fun d => by simp [value], by simp [empty], by simp [excludes], hq.1⟩
  | noneAnd => exact ⟨fun d => by simp [value], by simp [empty], by simp [excludes], hq.2.1⟩
  | orNone => exact ⟨fun d => by simp [value], by simp [empty], by simp [excludes, empty], hq.1⟩
  | noneOr => exact ⟨fun d => by simp [value], by simp [empty], by simp [excludes, empty], hq.2⟩
  | andNotNone => exact ⟨fun d => by simp [value], by simp [empty], by simp [excludes, empty], hq.1⟩
  | left q1 q2 q3 => exact keeps_left q1 q2 q3 hq
  | right q1 q2 q3 => exact keeps_right q1 q2 q3 hq
  | hoistRight q1 q2 q3 => exact keeps_hoistRight q1 q2 q3 hq
  | hoistLeft q1 q2 q3 => exact keeps_hoistLeft q1 q2 q3 hq

lemma Rewrites.empty_eq {q q1 : Query} (h : Rewrites q q1) : empty q1 = empty q := by
  cases h <;> simp only [empty, Bool.and_true, Bool.true_and, Bool.and_assoc]
  case hoistLeft q1 q2 q3 => rw [Bool.and_comm (empty q2)]

lemma empty_node {node : Query → Query → Query} (hn : Node node) (q1 q2 : Query) :
    empty (node q1 q2) = (empty q1 && empty q2) := by
  cases hn <;> rfl

lemma rule_node_none {node : Query → Query → Query} (hn : Node node) (q : Query) :
    rule (node q none) = some q := by
  cases hn <;> rfl

lemma Canonizes.eq_none {q r : Query} (h : Canonizes q r) (hq : empty q) : r = none := by
  induction h with
  | rule h _ ih => exact ih ((Rewrites.of_rule h).empty_eq.trans hq)
  | @leaf q hr hleaf =>
    rcases shape q with ⟨node, hn, q1, q2, rfl⟩ | _
    · exact absurd rfl (hleaf node hn q1 q2)
    · cases q <;> first | rfl | cases hq | exact absurd rfl (hleaf _ (by constructor) _ _)
  | same hn hr _ _ ih1 ih2 =>
    rw [empty_node hn, Bool.and_eq_true] at hq
    rw [ih2 hq.2, rule_node_none hn] at hr
    cases hr
  | node hn _ _ _ _ _ ih1 ih2 ih =>
    rw [empty_node hn, Bool.and_eq_true] at hq
    rw [ih1 hq.1, ih2 hq.2] at ih
    exact ih (by rw [empty_node hn]; rfl)

-- An AND NOT that is left excludes something
lemma Canonizes.settled {q r : Query} (h : Canonizes q r) :
    ∀ q1 q2, r = andNot q1 q2 → empty q2 = false := by
  induction h with
  | rule _ _ ih => exact ih
  | leaf _ hleaf =>
    intro q1 q2 hq
    exact absurd hq (hleaf _ .andNot q1 q2)
  | @same node q1 q2 hn hr _ h2 _ _ =>
    intro r1 r2 hq
    by_contra hne
    cases hn with
    | and => cases hq
    | or => cases hq
    | andNot =>
      cases hq
      rw [h2.eq_none (by simpa using hne)] at hr
      cases hr
  | node _ _ _ _ _ _ _ _ ih => exact ih

lemma Canonizes.not_isAndNot {q r : Query} (h : Canonizes q r) (hr : excludes r = false) :
    isAndNot r = false := by
  cases r with
  | andNot q1 q2 =>
    have := h.settled q1 q2 rfl
    simp [excludes, this] at hr
  | _ => rfl

lemma Keeps.node {node : Query → Query → Query} (hn : Node node) {q1 q2 r1 r2 : Query}
    (h1 : Keeps q1 r1) (h2 : Keeps q2 r2) (hq : Clean (node q1 q2))
    (h : Query.excludes r2 = false → isAndNot r2 = false) : Keeps (node q1 q2) (node r1 r2) := by
  cases hn with
  | and =>
    refine ⟨fun d => ?_, ?_, ?_, h1.clean, h2.clean, ?_⟩
    · simp [Query.value, h1.value, h2.value]
    · simp [Query.empty, h1.empty, h2.empty]
    · simp [Query.excludes, h1.excludes, h2.excludes]
    · rw [h1.excludes, h2.excludes, h1.vacuous, h2.vacuous]
      exact hq.2.2
  | or =>
    refine ⟨fun d => ?_, ?_, ?_, h1.clean, h2.clean⟩
    · simp [Query.value, h1.value, h2.value]
    · simp [Query.empty, h1.empty, h2.empty]
    · simp [Query.excludes, h1.excludes, h2.excludes, h1.empty, h2.empty]
  | andNot =>
    have hx : ¬ Query.excludes q2 := hq.2.2.2.1
    refine ⟨fun d => ?_, ?_, ?_, h1.clean, h2.clean, ?_, ?_, ?_⟩
    · simp [Query.value, h1.value, h2.value]
    · simp [Query.empty, h1.empty, h2.empty]
    · simp [Query.excludes, h1.excludes, h2.empty]
    · rw [h1.excludes, h2.empty]
      exact hq.2.2.1
    · rw [h2.excludes]
      exact hx
    · simp [h (by rw [h2.excludes]; simpa using hx)]

-- The operands of a clean query are clean
lemma Clean.operands {node : Query → Query → Query} (hn : Node node) {q1 q2 : Query}
    (h : Clean (node q1 q2)) : Clean q1 ∧ Clean q2 := by
  cases hn with
  | and => exact ⟨h.1, h.2.1⟩
  | or => exact h
  | andNot => exact ⟨h.1, h.2.1⟩

-- On a clean query the whole rewriting keeps the meaning
theorem Canonizes.keeps {q r : Query} (h : Canonizes q r) (hq : Clean q) : Keeps q r := by
  induction h with
  | rule h _ ih =>
    have hk := (Rewrites.of_rule h).keeps hq
    exact hk.trans (ih hk.clean)
  | leaf => exact ⟨fun _ => rfl, rfl, rfl, hq⟩
  | same => exact ⟨fun _ => rfl, rfl, rfl, hq⟩
  | node hn _ _ h2 _ _ ih1 ih2 ih =>
    have hops := hq.operands hn
    have hk := Keeps.node hn (ih1 hops.1) (ih2 hops.2) hq h2.not_isAndNot
    exact hk.trans (ih hk.clean)

-- Every query is simplified, with fuel for its weight, to one without QNone; when no AND NOT
-- of the query is moved across another and it asks for something, the result accepts exactly
-- the documents that the query accepts
theorem simplifyQuery_spec (q : Query) :
    ∃ r, (∀ fuel, weight q ≤ fuel → simplifyQuery fuel q = some r) ∧ NoNone r ∧
      (Clean q → vacuous q = false → ∀ d, value d r = value d q) := by
  obtain ⟨c, hc, hcan⟩ := canonizeQuery_spec q
  by_cases hn : recSimplifyQuery c = none
  · refine ⟨hasWord [32], fun fuel hf => ?_, trivial, fun hq hv d => ?_⟩
    · simp [simplifyQuery, hc fuel hf, hn]
    · have h := (hcan.keeps hq).value d
      rw [← value_recSimplifyQuery, hn] at h
      exact absurd ((vacuous_iff d q).mpr h.symm) (by simp [hv])
  · refine ⟨recSimplifyQuery c, fun fuel hf => ?_, (recSimplifyQuery_noNone c).resolve_left hn,
      fun hq hv d => ?_⟩
    · simp [simplifyQuery, hc fuel hf]
    · rw [value_recSimplifyQuery, (hcan.keeps hq).value]

theorem simplifyQuery_spec_example :
    ∃ r, (∀ fuel, weight (andNot (hasWord [97]) (hasWord [98])) ≤ fuel →
      simplifyQuery fuel (andNot (hasWord [97]) (hasWord [98])) = some r) ∧ NoNone r ∧
      ∀ d, value d r = value d (andNot (hasWord [97]) (hasWord [98])) := by
  obtain ⟨r, h, hn, hv⟩ := simplifyQuery_spec (andNot (hasWord [97]) (hasWord [98]))
  exact ⟨r, h, hn, hv (by simp [Clean, excludes, isAndNot]) rfl⟩

-- (a AND NOT b) AND NOT c becomes a AND NOT (b AND c), which accepts a document with a and b
theorem simplifyQuery_changes :
    ¬ ∀ q, vacuous q = false → ∃ r, (∀ fuel, weight q ≤ fuel → simplifyQuery fuel q = some r) ∧
      NoNone r ∧ ∀ d, value d r = value d q := by
  intro h
  obtain ⟨r, hr, _, hd⟩ := h (andNot (andNot (hasWord [97]) (hasWord [98])) (hasWord [99])) rfl
  have hs : simplifyQuery 37 (andNot (andNot (hasWord [97]) (hasWord [98])) (hasWord [99])) =
      some (andNot (hasWord [97]) (and (hasWord [98]) (hasWord [99]))) := by
    decide
  rw [hr 37 (by simp [weight])] at hs
  cases hs
  have := hd ⟨fun s => s.head? != some 99, fun _ _ => false, fun _ _ => false, fun _ _ => false⟩
  simp [value, without] at this

end Mldonkey.Indexing.Query
