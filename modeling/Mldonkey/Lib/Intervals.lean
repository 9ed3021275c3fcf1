import Mathlib.Order.SuccPred.Basic
import Mathlib.Tactic

-- Closed intervals as pairs of bounds, and the merging of a list of them that is
-- sorted by the lower bound.
namespace Mldonkey.Lib.Intervals

variable {α : Type*} [LinearOrder α]

def Covers (l : List (α × α)) (x : α) : Prop := ∃ r ∈ l, r.1 ≤ x ∧ x ≤ r.2

-- The intervals stand in their order with a gap between neighbours.
def Apart (l : List (α × α)) : Prop := l.Pairwise fun r q => r.2 < q.1

def Proper (l : List (α × α)) : Prop := ∀ r ∈ l, r.1 ≤ r.2

theorem covers_cons {r : α × α} {l : List (α × α)} {x : α} :
    Covers (r :: l) x ↔ (r.1 ≤ x ∧ x ≤ r.2) ∨ Covers l x := by
  simp [Covers]

theorem covers_absorb {r q : α × α} {l : List (α × α)} {x : α} (h1 : r.1 ≤ q.1) (h2 : q.2 ≤ r.2) :
    Covers (r :: q :: l) x ↔ Covers (r :: l) x := by
  rw [covers_cons, covers_cons, covers_cons]
  constructor
  · rintro (h | h | h)
    · exact .inl h
    · exact .inl ⟨h1.trans h.1, h.2.trans h2⟩
    · exact .inr h
  · rintro (h | h)
    · exact .inl h
    · exact .inr (.inr h)

variable [SuccOrder α]

-- `cur` is the interval that is being extended: the next one is left out if it does not
-- go further, and joined if it begins inside or just behind.
def mergeFrom : α × α → List (α × α) → List (α × α)
  | cur, [] => [cur]
  | cur, r :: l =>
      if cur.2 < r.2 then
        if r.1 ≤ Order.succ cur.2 then mergeFrom (cur.1, r.2) l
        else cur :: mergeFrom r l
      else mergeFrom cur l

theorem covers_join {r q : α × α} {l : List (α × α)} {x : α} (h1 : r.1 ≤ q.1)
    (hlt : r.2 < q.2) (h2 : q.1 ≤ Order.succ r.2) :
    Covers ((r.1, q.2) :: l) x ↔ Covers (r :: q :: l) x := by
  rw [covers_cons, covers_cons, covers_cons]
  constructor
  · rintro (h | h)
    · by_cases hx : x ≤ r.2
      · exact .inl ⟨h.1, hx⟩
      · have hq : q.1 ≤ x := h2.trans (Order.succ_le_of_lt (not_le.mp hx))
        exact .inr (.inl ⟨hq, h.2⟩)
    · exact .inr (.inr h)
  · rintro (h | h | h)
    · exact .inl ⟨h.1, h.2.trans hlt.le⟩
    · exact .inl ⟨h1.trans h.1, h.2⟩
    · exact .inr h

theorem covers_mergeFrom {cur : α × α} {l : List (α × α)} {x : α}
    (hs : (cur :: l).Pairwise fun r q => r.1 ≤ q.1) :
    Covers (mergeFrom cur l) x ↔ Covers (cur :: l) x := by
  induction l generalizing cur with
  | nil => rfl
  | cons r l ih =>
      obtain ⟨hcur, hrest⟩ := List.pairwise_cons.mp hs
      have hr : cur.1 ≤ r.1 := hcur r List.mem_cons_self
      have hl : ∀ q ∈ l, cur.1 ≤ q.1 := fun q hq => hcur q (List.mem_cons_of_mem r hq)
      obtain ⟨-, htail⟩ := List.pairwise_cons.mp hrest
      rw [mergeFrom]
      split
      · next hlt =>
          split
          · next hjoin =>
              rw [@ih (cur.1, r.2) (List.pairwise_cons.mpr ⟨hl, htail⟩)]
              exact covers_join hr hlt hjoin
          · rw [covers_cons, ih hrest, ← covers_cons]
      · next hge =>
          rw [ih (List.pairwise_cons.mpr ⟨hl, htail⟩)]
          exact (covers_absorb hr (not_lt.mp hge)).symm

theorem mergeFrom_fst_le {cur : α × α} {l : List (α × α)}
    (hs : (cur :: l).Pairwise fun r q => r.1 ≤ q.1) : ∀ r ∈ mergeFrom cur l, cur.1 ≤ r.1 := by
  induction l generalizing cur with
  | nil =>
      intro r hr
      rw [List.mem_singleton.mp hr]
  | cons q l ih =>
      obtain ⟨hcur, hrest⟩ := List.pairwise_cons.mp hs
      have hq : cur.1 ≤ q.1 := hcur q List.mem_cons_self
      have hl : ∀ p ∈ l, cur.1 ≤ p.1 := fun p hp => hcur p (List.mem_cons_of_mem q hp)
      obtain ⟨-, htail⟩ := List.pairwise_cons.mp hrest
      rw [mergeFrom]
      split
      · split
        · exact @ih (cur.1, q.2) (List.pairwise_cons.mpr ⟨hl, htail⟩)
        · intro r hr
          rcases List.mem_cons.mp hr with rfl | hr
          · exact le_refl _
          · exact hq.trans (ih hrest r hr)
      · exact ih (List.pairwise_cons.mpr ⟨hl, htail⟩)

theorem mergeFrom_apart {cur : α × α} {l : List (α × α)}
    (hs : (cur :: l).Pairwise fun r q => r.1 ≤ q.1) : Apart (mergeFrom cur l) := by
  induction l generalizing cur with
  | nil => exact List.pairwise_singleton _ _
  | cons q l ih =>
      obtain ⟨hcur, hrest⟩ := List.pairwise_cons.mp hs
      have hl : ∀ p ∈ l, cur.1 ≤ p.1 := fun p hp => hcur p (List.mem_cons_of_mem q hp)
      obtain ⟨-, htail⟩ := List.pairwise_cons.mp hrest
      rw [mergeFrom]
      split
      · split
        · exact @ih (cur.1, q.2) (List.pairwise_cons.mpr ⟨hl, htail⟩)
        · next hgap =>
            refine List.pairwise_cons.mpr ⟨fun r hr => ?_, ih hrest⟩
            have hq := mergeFrom_fst_le hrest r hr
            exact ((Order.le_succ cur.2).trans_lt (not_le.mp hgap)).trans_le hq
      · exact ih (List.pairwise_cons.mpr ⟨hl, htail⟩)

theorem mergeFrom_proper {cur : α × α} {l : List (α × α)}
    (hp : Proper (cur :: l)) : Proper (mergeFrom cur l) := by
  induction l generalizing cur with
  | nil => exact hp
  | cons q l ih =>
      obtain ⟨hcur, hrest⟩ := List.forall_mem_cons.mp hp
      obtain ⟨hq, htail⟩ := List.forall_mem_cons.mp hrest
      rw [mergeFrom]
      split
      · next hlt =>
          split
          · exact @ih (cur.1, q.2) (List.forall_mem_cons.mpr ⟨hcur.trans hlt.le, htail⟩)
          · exact List.forall_mem_cons.mpr ⟨hcur, ih hrest⟩
      · exact ih (List.forall_mem_cons.mpr ⟨hcur, htail⟩)

end Mldonkey.Lib.Intervals
