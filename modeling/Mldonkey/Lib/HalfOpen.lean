import Mathlib

-- Lists of half-open intervals. A pair (a, b) stands for the points from a on
-- that lie below b.
namespace Mldonkey.HalfOpen

section Order

variable {α : Type} [LinearOrder α]

def Covers (l : List (α × α)) (x : α) : Prop := ∃ p ∈ l, p.1 ≤ x ∧ x < p.2

-- The intervals are not empty and follow each other between two points. They
-- may touch.
def Chain : α → List (α × α) → α → Prop
  | lo, [], hi => lo ≤ hi
  | lo, p :: l, hi => lo ≤ p.1 ∧ p.1 < p.2 ∧ Chain p.2 l hi

variable {l l' : List (α × α)} {p : α × α} {lo lo' mid hi hi' a b c x : α}

@[simp] theorem covers_nil : ¬ Covers ([] : List (α × α)) x := by simp [Covers]

@[simp] theorem covers_cons : Covers (p :: l) x ↔ p.1 ≤ x ∧ x < p.2 ∨ Covers l x := by
  simp [Covers]

@[simp] theorem covers_append : Covers (l ++ l') x ↔ Covers l x ∨ Covers l' x := by
  simp [Covers, or_and_right, exists_or]

theorem Chain.le (h : Chain lo l hi) : lo ≤ hi := by
  induction l generalizing lo with
  | nil => exact h
  | cons p l ih =>
      obtain ⟨h₁, h₂, h₃⟩ := h
      have := ih h₃
      order

theorem Chain.weaken (h : Chain lo l hi) (hlo : lo' ≤ lo) (hhi : hi ≤ hi') :
    Chain lo' l hi' := by
  induction l generalizing lo lo' with
  | nil => exact hlo.trans (le_trans h hhi)
  | cons p l ih => exact ⟨hlo.trans h.1, h.2.1, ih h.2.2 le_rfl⟩

theorem chain_append : Chain lo (l ++ l') hi ↔ ∃ mid, Chain lo l mid ∧ Chain mid l' hi := by
  induction l generalizing lo with
  | nil => exact ⟨fun h => ⟨lo, le_refl lo, h⟩, fun ⟨mid, h, h'⟩ => h'.weaken h le_rfl⟩
  | cons p l ih =>
      simp only [List.cons_append, Chain, ih]
      exact ⟨fun ⟨h₁, h₂, mid, h₃⟩ => ⟨mid, ⟨h₁, h₂, h₃.1⟩, h₃.2⟩,
        fun ⟨mid, ⟨h₁, h₂, h₃⟩, h₄⟩ => ⟨h₁, h₂, mid, h₃, h₄⟩⟩

theorem Chain.covers_bounds (h : Chain lo l hi) (hx : Covers l x) : lo ≤ x ∧ x < hi := by
  induction l generalizing lo with
  | nil => exact absurd hx covers_nil
  | cons p l ih =>
      obtain ⟨h₁, h₂, h₃⟩ := h
      rcases covers_cons.mp hx with hx | hx
      · exact ⟨h₁.trans hx.1, hx.2.trans_le h₃.le⟩
      · have := ih h₃ hx
        exact ⟨by order, this.2⟩

theorem Chain.of_mem (h : Chain lo l hi) (hp : p ∈ l) : lo ≤ p.1 ∧ p.1 < p.2 ∧ p.2 ≤ hi := by
  induction l generalizing lo with
  | nil => simp at hp
  | cons q l ih =>
      obtain ⟨h₁, h₂, h₃⟩ := h
      rcases List.mem_cons.mp hp with rfl | hp
      · exact ⟨h₁, h₂, h₃.le⟩
      · have := ih h₃ hp
        exact ⟨by order, this.2⟩

theorem Chain.nodup (h : Chain lo l hi) : l.Nodup := by
  induction l generalizing lo with
  | nil => exact List.nodup_nil
  | cons p l ih =>
      refine List.nodup_cons.mpr ⟨fun hp => ?_, ih h.2.2⟩
      have h₁ := h.2.1
      have h₂ := (h.2.2.of_mem hp).1
      order

-- The middle of a chain may be exchanged.
theorem Chain.replace {l₁ l₂ m m' : List (α × α)} (h : Chain lo (l₁ ++ m ++ l₂) hi)
    (hm : ∀ a b, Chain a m b → Chain a m' b) : Chain lo (l₁ ++ m' ++ l₂) hi := by
  simp only [chain_append] at h ⊢
  obtain ⟨b, ⟨a, h₁, h₂⟩, h₃⟩ := h
  exact ⟨b, ⟨a, h₁, hm a b h₂⟩, h₃⟩

-- The intervals of a chain do not overlap.
theorem Chain.not_covers_outside {l₁ l₂ m : List (α × α)} (h : Chain lo (l₁ ++ m ++ l₂) hi)
    (hx : Covers m x) : ¬ Covers (l₁ ++ l₂) x := by
  simp only [chain_append] at h
  obtain ⟨b, ⟨a, h₁, h₂⟩, h₃⟩ := h
  have hm := h₂.covers_bounds hx
  rw [covers_append]
  rintro (hx' | hx')
  · have := h₁.covers_bounds hx'
    order
  · have := h₃.covers_bounds hx'
    order

-- Two chains next to each other are one.
theorem Chain.append (h : Chain lo l mid) (h' : Chain mid l' hi) : Chain lo (l ++ l') hi :=
  chain_append.mpr ⟨mid, h, h'⟩

-- The intervals are not empty and there is a gap between any two of them.
structure Gapped (l : List (α × α)) : Prop where
  lt : ∀ p ∈ l, p.1 < p.2
  gap : l.Pairwise fun p q => p.2 < q.1

theorem Gapped.tail (h : Gapped (p :: l)) : Gapped l :=
  ⟨fun q hq => h.lt q (List.mem_cons_of_mem p hq), (List.pairwise_cons.mp h.gap).2⟩

theorem Gapped.not_covers_tail (h : Gapped (p :: l)) (hx : x ≤ p.2) : ¬ Covers l x := by
  rintro ⟨q, hq, hqx, -⟩
  have := (List.pairwise_cons.mp h.gap).1 q hq
  order

theorem Gapped.chain (h : Gapped l) (hle : lo ≤ hi) (hlo : ∀ p ∈ l, lo ≤ p.1)
    (hhi : ∀ p ∈ l, p.2 ≤ hi) : Chain lo l hi := by
  induction l generalizing lo with
  | nil => exact hle
  | cons p l ih =>
      have hgap := (List.pairwise_cons.mp h.gap).1
      exact ⟨hlo p (by simp), h.lt p (by simp), ih h.tail (hhi p (by simp))
        (fun q hq => (hgap q hq).le) fun q hq => hhi q (by simp [hq])⟩

-- Such a list is determined by the points it covers.
theorem Gapped.ext (h : Gapped l) (h' : Gapped l') (heq : ∀ x, Covers l x ↔ Covers l' x) :
    l = l' := by
  induction l generalizing l' with
  | nil =>
      cases l' with
      | nil => rfl
      | cons q l' =>
          exact absurd ((heq q.1).mpr (covers_cons.mpr (.inl ⟨le_rfl, h'.lt q (by simp)⟩)))
            covers_nil
  | cons p l ih =>
      cases l' with
      | nil =>
          exact absurd ((heq p.1).mp (covers_cons.mpr (.inl ⟨le_rfl, h.lt p (by simp)⟩)))
            covers_nil
      | cons q l' =>
          have hp := h.lt p (by simp)
          have hq := h'.lt q (by simp)
          -- no covered point lies before the first interval
          have hmin : ∀ {p : α × α} {l : List (α × α)}, Gapped (p :: l) → ∀ {x},
              Covers (p :: l) x → p.1 ≤ x := by
            intro p l h x hx
            rcases covers_cons.mp hx with hx | hx
            · exact hx.1
            · by_contra hlt
              exact h.not_covers_tail (by have := h.lt p (by simp); order) hx
          have hbegin : p.1 = q.1 := le_antisymm
            (hmin h ((heq _).mpr (covers_cons.mpr (.inl ⟨le_rfl, hq⟩))))
            (hmin h' ((heq _).mp (covers_cons.mpr (.inl ⟨le_rfl, hp⟩))))
          -- the end of the first interval is not covered
          have hend : ∀ {p q : α × α} {l l' : List (α × α)}, Gapped (p :: l) → p.1 < p.2 →
              p.1 = q.1 → (∀ x, Covers (q :: l') x → Covers (p :: l) x) → q.2 ≤ p.2 := by
            intro p q l l' h hp hb hsub
            by_contra hlt
            have := hsub p.2 (covers_cons.mpr (.inl ⟨by order, by order⟩))
            rcases covers_cons.mp this with hx | hx
            · exact absurd hx.2 (lt_irrefl _)
            · exact h.not_covers_tail le_rfl hx
          have hends : p.2 = q.2 := le_antisymm
            (hend h' hq hbegin.symm fun x => (heq x).mp) (hend h hp hbegin fun x => (heq x).mpr)
          have hpq : p = q := Prod.ext hbegin hends
          subst hpq
          congr 1
          refine ih h.tail h'.tail fun x => ?_
          have := heq x
          simp only [covers_cons] at this
          by_cases hx : x ≤ p.2
          · exact iff_of_false (h.not_covers_tail hx) (h'.not_covers_tail hx)
          · have hn : ¬ (p.1 ≤ x ∧ x < p.2) := fun e => hx e.2.le
            simpa only [hn, false_or] using this

end Order

section Length

-- The number of points in intervals that do not overlap.
def total (l : List (Int × Int)) : Int := (l.map fun p => p.2 - p.1).sum

@[simp] theorem total_nil : total [] = 0 := rfl

@[simp] theorem total_cons (p : Int × Int) (l : List (Int × Int)) :
    total (p :: l) = p.2 - p.1 + total l := by simp [total]

@[simp] theorem total_append (l l' : List (Int × Int)) :
    total (l ++ l') = total l + total l' := by simp [total]

open Classical in
-- What a chain covers, as a set.
theorem Chain.card_covers {l : List (Int × Int)} {lo hi : Int} (h : Chain lo l hi) :
    (((Finset.Ico lo hi).filter (Covers l)).card : Int) = total l := by
  induction l generalizing lo with
  | nil => simp
  | cons p l ih =>
      obtain ⟨h₁, h₂, h₃⟩ := h
      have hsplit : (Finset.Ico lo hi).filter (Covers (p :: l)) =
          Finset.Ico p.1 p.2 ∪ (Finset.Ico p.2 hi).filter (Covers l) := by
        ext x
        simp only [Finset.mem_filter, Finset.mem_Ico, Finset.mem_union, covers_cons]
        have := h₃.le
        constructor
        · rintro ⟨hx, hx' | hx'⟩
          · exact .inl hx'
          · have := h₃.covers_bounds hx'
            exact .inr ⟨this, hx'⟩
        · rintro (hx | ⟨hx, hx'⟩)
          · exact ⟨by omega, .inl hx⟩
          · exact ⟨by omega, .inr hx'⟩
      have hdisj : Disjoint (Finset.Ico p.1 p.2) ((Finset.Ico p.2 hi).filter (Covers l)) := by
        rw [Finset.disjoint_left]
        intro x hx hx'
        simp only [Finset.mem_filter, Finset.mem_Ico] at hx hx'
        omega
      rw [hsplit, Finset.card_union_of_disjoint hdisj, Nat.cast_add, ih h₃, Int.card_Ico,
        total_cons]
      omega

end Length

-- Half-open intervals that fill another one without gaps.

variable {α : Type} [LinearOrder α]

def Tiles : α → List (α × α) → α → Prop
  | lo, [], hi => lo = hi
  | lo, p :: l, hi => p.1 = lo ∧ p.1 < p.2 ∧ Tiles p.2 l hi

variable {l l' l₁ l₂ : List (α × α)} {p q : α × α} {lo hi a b c x : α}

theorem Tiles.chain (h : Tiles lo l hi) : Chain lo l hi := by
  induction l generalizing lo with
  | nil => exact le_of_eq h
  | cons p l ih => exact ⟨h.1.ge, h.2.1, ih h.2.2⟩

theorem tiles_append : Tiles lo (l ++ l') hi ↔ ∃ mid, Tiles lo l mid ∧ Tiles mid l' hi := by
  induction l generalizing lo with
  | nil => exact ⟨fun h => ⟨lo, rfl, h⟩, fun ⟨mid, h, h'⟩ => (show lo = mid from h) ▸ h'⟩
  | cons p l ih =>
      simp only [List.cons_append, Tiles, ih]
      exact ⟨fun ⟨h₁, h₂, mid, h₃⟩ => ⟨mid, ⟨h₁, h₂, h₃.1⟩, h₃.2⟩,
        fun ⟨mid, ⟨h₁, h₂, h₃⟩, h₄⟩ => ⟨h₁, h₂, mid, h₃, h₄⟩⟩

theorem Tiles.covers (h : Tiles lo l hi) : Covers l x ↔ lo ≤ x ∧ x < hi := by
  refine ⟨h.chain.covers_bounds, fun hx => ?_⟩
  induction l generalizing lo with
  | nil =>
      obtain rfl : lo = hi := h
      exact absurd (hx.1.trans_lt hx.2) (lt_irrefl _)
  | cons p l ih =>
      obtain ⟨rfl, -, h₃⟩ := h
      rw [covers_cons]
      by_cases hp : x < p.2
      · exact .inl ⟨hx.1, hp⟩
      · exact .inr (ih h₃ ⟨not_lt.mp hp, hx.2⟩)

-- A chain that covers all of its interval fills it.
theorem Chain.tiles (h : Chain lo l hi) (hcov : ∀ x, lo ≤ x → x < hi → Covers l x) :
    Tiles lo l hi := by
  induction l generalizing lo with
  | nil =>
      refine le_antisymm h (not_lt.mp fun hlt => ?_)
      exact covers_nil (hcov lo le_rfl hlt)
  | cons p l ih =>
      obtain ⟨h₁, h₂, h₃⟩ := h
      have hhi := h₃.le
      refine ⟨le_antisymm (not_lt.mp fun hlt => ?_) h₁, h₂, ih h₃ fun x hx hx' => ?_⟩
      · rcases covers_cons.mp (hcov lo le_rfl (by order)) with hx | hx
        · exact absurd hx.1 (not_le.mpr hlt)
        · have := (h₃.covers_bounds hx).1
          order
      · rcases covers_cons.mp (hcov x (by order) hx') with hp | hp
        · exact absurd hp.2 (not_lt.mpr hx)
        · exact hp

-- One interval is cut in two.
theorem Tiles.cut (h : Tiles lo (l₁ ++ (a, b) :: l₂) hi) (hac : a < c) (hcb : c < b) :
    Tiles lo (l₁ ++ (a, c) :: (c, b) :: l₂) hi := by
  rw [tiles_append] at h ⊢
  obtain ⟨mid, h₁, h₂, -, h₃⟩ := h
  exact ⟨mid, h₁, h₂, hac, rfl, hcb, h₃⟩

-- Two intervals with a common point are the same one.
theorem Tiles.unique (h : Tiles lo l hi) (hp : p ∈ l) (hq : q ∈ l) (hxp : p.1 ≤ x ∧ x < p.2)
    (hxq : q.1 ≤ x ∧ x < q.2) : p = q := by
  induction l generalizing lo with
  | nil => simp at hp
  | cons y l ih =>
      have hrest := fun {z : α × α} (hz : z ∈ l) => (h.2.2.chain.of_mem hz).1
      rcases List.mem_cons.mp hp with rfl | hp' <;> rcases List.mem_cons.mp hq with rfl | hq'
      · rfl
      · have := hrest hq'
        order
      · have := hrest hp'
        order
      · exact ih h.2.2 hp' hq'

end Mldonkey.HalfOpen
