import Mathlib

namespace Mldonkey.Indexing

-- The fields a query or a tag can name
inductive Field where
  | artist
  | title
  | album
  | format
  | type
  | length
  | bitrate
  | codec
  | availability
  | completesources
  | filename
  | size
  | sizeHi
  | uid
  | filerating
  | lastseencomplete
  | mediacodec
  | medialength
  | known (s : List UInt8)
  | unknown (s : List UInt8)
deriving DecidableEq

-- A search; `none` marks a form entry left empty
inductive Query where
  | and (q1 q2 : Query)
  | or (q1 q2 : Query)
  | andNot (q1 q2 : Query)
  | hasWord (s : List UInt8)
  | hasField (f : Field) (s : List UInt8)
  | hasMinVal (f : Field) (v : ℤ)
  | hasMaxVal (f : Field) (v : ℤ)
  | none
deriving DecidableEq

namespace Query

-- The QAnd and QOr branches of rec_simplify_query, `node` being the constructor
def dropNone (node : Query → Query → Query) : Query → Query → Query
  | none, none => none
  | none, q2 => q2
  | q1, none => q1
  | q1, q2 => node q1 q2

-- Its QAndNot branch: without a left side nothing is left
def dropNoneNot : Query → Query → Query
  | none, none => none
  | none, _ => none
  | q1, none => q1
  | q1, q2 => andNot q1 q2

def recSimplifyQuery : Query → Query
  | and q1 q2 => dropNone and (recSimplifyQuery q1) (recSimplifyQuery q2)
  | or q1 q2 => dropNone or (recSimplifyQuery q1) (recSimplifyQuery q2)
  | andNot q1 q2 => dropNoneNot (recSimplifyQuery q1) (recSimplifyQuery q2)
  | q => q

-- The rules of canonize_query that rewrite the root, in the order of the source
def rule : Query → Option Query
  | and q none => some q
  | and none q => some q
  | or q none => some q
  | or none q => some q
  | andNot q none => some q
  | andNot (andNot q1 q2) q3 => some (andNot q1 (and q2 q3))
  | andNot q1 (andNot q2 q3) => some (andNot (and q1 q2) q3)
  | and q1 (andNot q2 q3) => some (andNot (and q1 q2) q3)
  | and (andNot q1 q2) q3 => some (andNot (and q1 q3) q2)
  | _ => Option.none

-- `fuel` bounds the depth of the calls
def canonizeQuery : ℕ → Query → Option Query
  | 0, _ => Option.none
  | fuel + 1, q => do
    let q1 ←
      match rule q with
      | some q1 => some q1
      | Option.none =>
        match q with
        | and q1 q2 => pure (and (← canonizeQuery fuel q1) (← canonizeQuery fuel q2))
        | or q1 q2 => pure (or (← canonizeQuery fuel q1) (← canonizeQuery fuel q2))
        | andNot q1 q2 => pure (andNot (← canonizeQuery fuel q1) (← canonizeQuery fuel q2))
        | q => some q
    if q ≠ q1 then canonizeQuery fuel q1 else some q

def simplifyQuery (fuel : ℕ) (q : Query) : Option Query := do
  let q ← canonizeQuery fuel q
  match recSimplifyQuery q with
  | none => some (hasWord [32])
  | q' => some q'

end Query

end Mldonkey.Indexing

namespace Mldonkey.Indexing.Query

-- Termination of the rewriting: every rule makes this number smaller
def weight : Query → ℕ
  | and q1 q2 => weight q1 * weight q2
  | or q1 q2 => weight q1 + weight q2
  | andNot q1 q2 => weight q1 * weight q2 ^ 2 + 1
  | _ => 2

-- The three constructors with two operands
inductive Node : (Query → Query → Query) → Prop
  | and : Node and
  | or : Node or
  | andNot : Node andNot

-- One call of canonize_query and the calls it makes, whatever fuel they need
inductive Canonizes : Query → Query → Prop
  | rule {q q1 r} : rule q = some q1 → Canonizes q1 r → Canonizes q r
  | leaf {q} : rule q = Option.none → (∀ node, Node node → ∀ q1 q2, q ≠ node q1 q2) →
      Canonizes q q
  | same {node q1 q2} : Node node → rule (node q1 q2) = Option.none → Canonizes q1 q1 →
      Canonizes q2 q2 → Canonizes (node q1 q2) (node q1 q2)
  | node {node q1 q2 r1 r2 r} : Node node → rule (node q1 q2) = Option.none →
      Canonizes q1 r1 → Canonizes q2 r2 → node q1 q2 ≠ node r1 r2 →
      Canonizes (node r1 r2) r → Canonizes (node q1 q2) r

-- The root rules by name
inductive Rewrites : Query → Query → Prop
  | andNone (q) : Rewrites (and q none) q
  | noneAnd (q) : Rewrites (and none q) q
  | orNone (q) : Rewrites (or q none) q
  | noneOr (q) : Rewrites (or none q) q
  | andNotNone (q) : Rewrites (andNot q none) q
  | left (q1 q2 q3) : Rewrites (andNot (andNot q1 q2) q3) (andNot q1 (and q2 q3))
  | right (q1 q2 q3) : Rewrites (andNot q1 (andNot q2 q3)) (andNot (and q1 q2) q3)
  | hoistRight (q1 q2 q3) : Rewrites (and q1 (andNot q2 q3)) (andNot (and q1 q2) q3)
  | hoistLeft (q1 q2 q3) : Rewrites (and (andNot q1 q2) q3) (andNot (and q1 q3) q2)

lemma two_le_weight (q : Query) : 2 ≤ weight q := by
  induction q with
  | and q1 q2 h1 h2 =>
    simp only [weight]
    nlinarith
  | or q1 q2 h1 h2 =>
    simp only [weight]
    omega
  | andNot q1 q2 h1 h2 =>
    have : 2 ^ 2 ≤ weight q2 ^ 2 := Nat.pow_le_pow_left h2 2
    simp only [weight]
    nlinarith
  | _ => simp [weight]

lemma Rewrites.of_rule {q q1 : Query} (h : rule q = some q1) : Rewrites q q1 := by
  revert h
  fun_cases rule q <;> intro h <;> cases h
  · exact .andNone _
  · exact .noneAnd _
  · exact .orNone _
  · exact .noneOr _
  · exact .andNotNone _
  · exact .left _ _ _
  · exact .right _ _ _
  · exact .hoistRight _ _ _
  · exact .hoistLeft _ _ _

lemma Rewrites.weight_lt {q q1 : Query} (h : Rewrites q q1) : weight q1 < weight q := by
  cases h with
  | andNone | noneAnd | orNone | noneOr =>
    have := two_le_weight q1
    simp only [weight]
    omega
  | andNotNone =>
    simp only [weight]
    omega
  | left q1 q2 q3 =>
    have : 0 < weight q3 := by linarith [two_le_weight q3]
    have : 0 < weight q3 ^ 2 := by positivity
    simp only [weight]
    nlinarith
  | right q1 q2 q3 =>
    have h1 := two_le_weight q1
    have h4 : weight q2 * weight q3 ^ 2 + 1 ≤ (weight q2 * weight q3 ^ 2 + 1) ^ 2 :=
      Nat.le_self_pow (by omega) _
    simp only [weight]
    nlinarith
  | hoistRight q1 q2 q3 =>
    have := two_le_weight q1
    simp only [weight]
    nlinarith
  | hoistLeft q1 q2 q3 =>
    have := two_le_weight q3
    simp only [weight]
    nlinarith

lemma weight_node_left {node : Query → Query → Query} (hn : Node node) {q1 q2 r1 : Query}
    (h : weight r1 < weight q1) : weight (node r1 q2) < weight (node q1 q2) := by
  have h2 : 0 < weight q2 := by linarith [two_le_weight q2]
  cases hn with
  | and => exact Nat.mul_lt_mul_of_pos_right h h2
  | or => exact Nat.add_lt_add_right h _
  | andNot => exact Nat.succ_lt_succ (Nat.mul_lt_mul_of_pos_right h (by positivity))

lemma weight_node_right {node : Query → Query → Query} (hn : Node node) {q1 q2 r2 : Query}
    (h : weight r2 < weight q2) : weight (node q1 r2) < weight (node q1 q2) := by
  have h1 : 0 < weight q1 := by linarith [two_le_weight q1]
  cases hn with
  | and => exact Nat.mul_lt_mul_of_pos_left h h1
  | or => exact Nat.add_lt_add_left h _
  | andNot =>
    exact Nat.succ_lt_succ (Nat.mul_lt_mul_of_pos_left (Nat.pow_lt_pow_left h (by simp)) h1)

lemma weight_operand {node : Query → Query → Query} (hn : Node node) (q1 q2 : Query) :
    weight q1 < weight (node q1 q2) ∧ weight q2 < weight (node q1 q2) := by
  have h1 := two_le_weight q1
  have h2 := two_le_weight q2
  cases hn with
  | and => constructor <;> simp only [weight] <;> nlinarith
  | or => constructor <;> simp only [weight] <;> omega
  | andNot =>
    have h3 : weight q2 ≤ weight q2 ^ 2 := Nat.le_self_pow (by omega) _
    constructor <;> simp only [weight] <;> nlinarith

lemma weight_node_lt {node : Query → Query → Query} (hn : Node node) {q1 q2 r1 r2 : Query}
    (h1 : r1 = q1 ∨ weight r1 < weight q1) (h2 : r2 = q2 ∨ weight r2 < weight q2)
    (h : node q1 q2 ≠ node r1 r2) : weight (node r1 r2) < weight (node q1 q2) := by
  rcases h1 with rfl | h1 <;> rcases h2 with rfl | h2
  · exact absurd rfl h
  · exact weight_node_right hn h2
  · exact weight_node_left hn h1
  · exact (weight_node_left hn h1).trans (weight_node_right hn h2)

-- The branch of canonize_query that rewrites the operands
lemma canonizeQuery_node {node : Query → Query → Query} (hn : Node node) {q1 q2 : Query}
    (h : rule (node q1 q2) = Option.none) (n : ℕ) :
    canonizeQuery (n + 1) (node q1 q2) = (do
      let r ← pure (node (← canonizeQuery n q1) (← canonizeQuery n q2))
      if node q1 q2 ≠ r then canonizeQuery n r else some (node q1 q2)) := by
  cases hn <;> simp only [canonizeQuery, h]

lemma canonizeQuery_rule {q q1 : Query} (h : rule q = some q1) (n : ℕ) :
    canonizeQuery (n + 1) q = canonizeQuery n q1 := by
  have hne : q ≠ q1 := by
    rintro rfl
    exact lt_irrefl _ (Rewrites.of_rule h).weight_lt
  simp [canonizeQuery, h, hne]

lemma canonizeQuery_leaf {q : Query} (h : rule q = Option.none)
    (hq : ∀ node, Node node → ∀ q1 q2, q ≠ node q1 q2) (n : ℕ) :
    canonizeQuery (n + 1) q = some q := by
  cases q with
  | and q1 q2 => exact absurd rfl (hq _ .and q1 q2)
  | or q1 q2 => exact absurd rfl (hq _ .or q1 q2)
  | andNot q1 q2 => exact absurd rfl (hq _ .andNot q1 q2)
  | _ => simp [canonizeQuery, rule]

lemma shape (q : Query) :
    (∃ node, Node node ∧ ∃ q1 q2, q = node q1 q2) ∨
      ∀ node, Node node → ∀ q1 q2, q ≠ node q1 q2 := by
  cases q with
  | and q1 q2 => exact .inl ⟨_, .and, q1, q2, rfl⟩
  | or q1 q2 => exact .inl ⟨_, .or, q1, q2, rfl⟩
  | andNot q1 q2 => exact .inl ⟨_, .andNot, q1, q2, rfl⟩
  | _ => exact .inr fun _ hn _ _ h => by cases hn <;> cases h

-- With fuel for its weight the rewriting ends, in a query that is no heavier
theorem canonizeQuery_total (n : ℕ) : ∀ q, weight q ≤ n →
    ∃ r, canonizeQuery n q = some r ∧ Canonizes q r ∧ (r = q ∨ weight r < weight q) := by
  induction n with
  | zero =>
    intro q hq
    exact absurd (two_le_weight q) (by omega)
  | succ n ih =>
    intro q hq
    cases hr : rule q with
    | some q1 =>
      have hlt := (Rewrites.of_rule hr).weight_lt
      obtain ⟨r, h, hc, hle⟩ := ih q1 (by omega)
      refine ⟨r, (canonizeQuery_rule hr n).trans h, .rule hr hc, .inr ?_⟩
      rcases hle with rfl | hle
      · exact hlt
      · exact hle.trans hlt
    | none =>
      rcases shape q with ⟨node, hn, q1, q2, rfl⟩ | hleaf
      · have hop := weight_operand hn q1 q2
        obtain ⟨r1, h1, hc1, hle1⟩ := ih q1 (by omega)
        obtain ⟨r2, h2, hc2, hle2⟩ := ih q2 (by omega)
        by_cases hne : node q1 q2 = node r1 r2
        · have hinj : q1 = r1 ∧ q2 = r2 := by
            cases hn <;> cases hne <;> exact ⟨rfl, rfl⟩
          obtain ⟨rfl, rfl⟩ := hinj
          refine ⟨node q1 q2, ?_, .same hn hr hc1 hc2, .inl rfl⟩
          simp [canonizeQuery_node hn hr, h1, h2]
        · have hlt := weight_node_lt hn hle1 hle2 hne
          obtain ⟨r, h, hc, hle⟩ := ih (node r1 r2) (by omega)
          refine ⟨r, ?_, .node hn hr hc1 hc2 hne hc, .inr ?_⟩
          · simp [canonizeQuery_node hn hr, h1, h2, hne, h]
          · rcases hle with rfl | hle
            · exact hlt
            · exact hle.trans hlt
      · exact ⟨q, canonizeQuery_leaf hr hleaf n, .leaf hr hleaf, .inl rfl⟩

-- More fuel does not change the result
lemma canonizeQuery_mono (n : ℕ) : ∀ {q r}, canonizeQuery n q = some r →
    canonizeQuery (n + 1) q = some r := by
  induction n with
  | zero =>
    intro q r h
    cases h
  | succ n ih =>
    intro q r h
    cases hr : rule q with
    | some q1 =>
      rw [canonizeQuery_rule hr] at h ⊢
      exact ih h
    | none =>
      rcases shape q with ⟨node, hn, q1, q2, rfl⟩ | hleaf
      · rw [canonizeQuery_node hn hr] at h ⊢
        simp only [Option.bind_eq_bind, Option.bind_eq_some_iff, Option.pure_def] at h
        obtain ⟨r1, h1, r2, h2, _, ⟨⟩, h⟩ := h
        simp only [ih h1, ih h2, Option.bind_eq_bind, Option.bind_some, Option.pure_def]
        split at h
        · rename_i hne
          simpa [hne] using ih h
        · rename_i heq
          simpa [heq] using h
      · rw [canonizeQuery_leaf hr hleaf] at h ⊢
        exact h

theorem canonizeQuery_spec (q : Query) :
    ∃ r, (∀ fuel, weight q ≤ fuel → canonizeQuery fuel q = some r) ∧ Canonizes q r := by
  obtain ⟨r, h, hc, _⟩ := canonizeQuery_total (weight q) q le_rfl
  refine ⟨r, fun fuel hf => ?_, hc⟩
  induction fuel, hf using Nat.le_induction with
  | base => exact h
  | succ n _ ih => exact canonizeQuery_mono n ih

end Mldonkey.Indexing.Query
