import Mldonkey.Swarming.Ranges.Steps

namespace Mldonkey.Swarming

open HalfOpen

namespace Store

-- The blocks follow each other from 0 to the size. A swarmer of size 0 has one
-- block.
structure Placed (s : Store) : Prop where
  positions : s.blockPos.length = s.blocks.length
  nonempty : 0 < s.blocks.length
  size_nonneg : 0 ≤ s.size
  first : s.computeBlockBegin 0 = 0
  lt : 0 < s.size → ∀ i < s.blocks.length, s.computeBlockBegin i < s.computeBlockEnd i
  single : s.size = 0 → s.blocks.length = 1

namespace Placed

variable {s s' : Store} {i j : Nat} {x : Int}

theorem congr (h : s.Placed) (hl : s'.layout = s.layout) : s'.Placed := by
  have hb := computeBlockBegin_congr hl
  have he := computeBlockEnd_congr hl
  simp only [layout, Prod.mk.injEq] at hl
  obtain ⟨h₁, h₂, h₃⟩ := hl
  refine ⟨by rw [h₂, h₃]; exact h.positions, by rw [h₃]; exact h.nonempty,
    by rw [h₁]; exact h.size_nonneg, by rw [hb]; exact h.first, ?_, ?_⟩
  · rw [h₁, h₃]
    intro hs i hi
    rw [hb, he]
    exact h.lt hs i hi
  · rw [h₁, h₃]; exact h.single

theorem end_eq_begin (h : s.Placed) (hi : i + 1 < s.blocks.length) :
    s.computeBlockEnd i = s.computeBlockBegin (i + 1) := by
  have := h.positions
  rw [computeBlockEnd, if_neg (by omega), computeBlockBegin]

theorem end_last (h : s.Placed) (hi : i + 1 = s.blocks.length) : s.computeBlockEnd i = s.size := by
  have := h.positions
  rw [computeBlockEnd, if_pos (by omega)]

theorem le (h : s.Placed) (hi : i < s.blocks.length) :
    s.computeBlockBegin i ≤ s.computeBlockEnd i := by
  rcases h.size_nonneg.lt_or_eq with hs | hs
  · exact (h.lt hs i hi).le
  · have hn := h.single hs.symm
    obtain rfl : i = 0 := by omega
    rw [h.first, h.end_last hn.symm]
    exact h.size_nonneg

-- A block ends before the next ones begin.
theorem end_le_begin (h : s.Placed) (hij : i < j) (hj : j < s.blocks.length) :
    s.computeBlockEnd i ≤ s.computeBlockBegin j := by
  induction j with
  | zero => omega
  | succ j ih =>
      rcases Nat.lt_succ_iff_lt_or_eq.mp hij with hij | rfl
      · exact ((ih hij (by omega)).trans (h.le (by omega))).trans (h.end_eq_begin hj).le
      · exact (h.end_eq_begin hj).le

theorem begin_nonneg (h : s.Placed) (hi : i < s.blocks.length) : 0 ≤ s.computeBlockBegin i := by
  rcases Nat.eq_zero_or_pos i with rfl | hpos
  · exact h.first.ge
  · exact (h.first.ge.trans (h.le h.nonempty)).trans (h.end_le_begin hpos hi)

theorem end_le_size (h : s.Placed) (hi : i < s.blocks.length) : s.computeBlockEnd i ≤ s.size := by
  have hn := h.nonempty
  have hlast := h.end_last (i := s.blocks.length - 1) (by omega)
  rcases Nat.lt_or_ge i (s.blocks.length - 1) with hlt | hge
  · exact ((h.end_le_begin hlt (by omega)).trans (h.le (by omega))).trans hlast.le
  · obtain rfl : i = s.blocks.length - 1 := by omega
    exact hlast.le

theorem unique (h : s.Placed) (hi : i < s.blocks.length) (hj : j < s.blocks.length)
    (hxi : s.computeBlockBegin i ≤ x ∧ x < s.computeBlockEnd i)
    (hxj : s.computeBlockBegin j ≤ x ∧ x < s.computeBlockEnd j) : i = j := by
  rcases Nat.lt_trichotomy i j with hlt | he | hlt
  · have := h.end_le_begin hlt hj; omega
  · exact he
  · have := h.end_le_begin hlt hi; omega

-- Every offset lies in a block.
theorem exists_block (h : s.Placed) (hx : 0 ≤ x ∧ x < s.size) :
    ∃ i < s.blocks.length, s.computeBlockBegin i ≤ x ∧ x < s.computeBlockEnd i := by
  by_contra hno
  push Not at hno
  have hend : ∀ i < s.blocks.length, s.computeBlockEnd i ≤ x := by
    intro i
    induction i with
    | zero => exact fun hi => hno 0 hi (h.first.le.trans hx.1)
    | succ i ih => exact fun hi => hno _ hi ((h.end_eq_begin hi).ge.trans (ih (by omega)))
  have hn := h.nonempty
  have := hend (s.blocks.length - 1) (by omega)
  rw [h.end_last (by omega)] at this
  omega

end Placed

-- Is the byte at `x`, which lies in block `v`, still to be downloaded?
def MissingIn (s : Store) (v : BlockV) (x : Int) : Prop :=
  match v with
  | .emptyBlock => True
  | .partialBlock b => Covers (s.spans (s.ranges b)) x
  | .completeBlock | .verifiedBlock => False

-- What the component is for, seen from outside: which bytes are missing.
def Missing (s : Store) (x : Int) : Prop :=
  ∃ i < s.blocks.length, s.computeBlockBegin i ≤ x ∧ x < s.computeBlockEnd i ∧
    s.MissingIn (s.blockAt i) x

theorem Placed.missing_bounds {s : Store} (h : s.Placed) {x : Int} (hx : s.Missing x) :
    0 ≤ x ∧ x < s.size := by
  obtain ⟨i, hi, h₁, h₂, -⟩ := hx
  have := h.begin_nonneg hi
  have := h.end_le_size hi
  omega

theorem Placed.missing_iff {s : Store} (h : s.Placed) {i : Nat} (hi : i < s.blocks.length) {x : Int}
    (hx : s.computeBlockBegin i ≤ x ∧ x < s.computeBlockEnd i) :
    s.Missing x ↔ s.MissingIn (s.blockAt i) x := by
  refine ⟨fun ⟨j, hj, h₁, h₂, hm⟩ => ?_, fun hm => ⟨i, hi, hx.1, hx.2, hm⟩⟩
  rwa [h.unique hi hj hx ⟨h₁, h₂⟩]

-- What is missing changes in block `i` at most.
structure Local (i : Nat) (s s' : Store) : Prop where
  layout : s'.layout = s.layout
  other : ∀ j < s.blocks.length, j ≠ i → ∀ x, s'.MissingIn (s'.blockAt j) x ↔
    s.MissingIn (s.blockAt j) x

theorem Local.missing {s s' : Store} {i : Nat} (h : Local i s s') (hp : s.Placed)
    (hi : i < s.blocks.length) {p : Int → Prop}
    (hin : ∀ x, s.computeBlockBegin i ≤ x → x < s.computeBlockEnd i →
      (s'.MissingIn (s'.blockAt i) x ↔ s.MissingIn (s.blockAt i) x ∧ p x))
    (hout : ∀ x, ¬ p x → s.computeBlockBegin i ≤ x ∧ x < s.computeBlockEnd i) (x : Int) :
    s'.Missing x ↔ s.Missing x ∧ p x := by
  have hp' := hp.congr h.layout
  have hlen : s'.blocks.length = s.blocks.length := congrArg (fun g => g.2.2) h.layout
  have hb := computeBlockBegin_congr h.layout
  have he := computeBlockEnd_congr h.layout
  by_cases hx : s.computeBlockBegin i ≤ x ∧ x < s.computeBlockEnd i
  · rw [hp.missing_iff hi hx, hp'.missing_iff (hlen ▸ hi) (by rw [hb, he]; exact hx)]
    exact hin x hx.1 hx.2
  · have hpx : p x := by
      by_contra hn
      exact hx (hout x hn)
    have hother : ∀ j < s.blocks.length, s.computeBlockBegin j ≤ x ∧ x < s.computeBlockEnd j →
        j ≠ i := by
      rintro j hj hxj rfl
      exact hx hxj
    simp only [hpx, and_true, Missing, hlen, hb, he]
    refine exists_congr fun j => and_congr_right fun hj => ?_
    refine and_congr_right fun h₁ => and_congr_right fun h₂ => ?_
    exact h.other j hj (hother j hj ⟨h₁, h₂⟩) x

theorem Local.trans {s s' s'' : Store} {i : Nat} (h : Local i s s') (h' : Local i s' s'') :
    Local i s s'' :=
  ⟨h'.layout.trans h.layout, fun j hj hne x => (h'.other j
    (by rw [show s'.blocks.length = s.blocks.length from congrArg (fun g => g.2.2) h.layout]
        exact hj) hne x).trans (h.other j hj hne x)⟩

end Store

namespace Store

def Current (s : Store) (b : BlockId) : Prop :=
  ∃ i < s.blocks.length, s.blockAt i = .partialBlock b

def Void (s : Store) (r : RangeId) : Prop := (s.range r).rangeBegin = (s.range r).rangeEnd

-- The invariant of the blocks and ranges. Where `c` and `d` hold, it claims the
-- two sums that the record of a partial block keeps.
structure Books (c d : Prop) (s : Store) : Prop where
  placed : s.Placed
  owned : ∀ b, ∀ r ∈ s.ranges b, (s.range r).block = b ∧ r < s.nextRange
  owner_lt : ∀ r < s.nextRange, (s.range r).block < s.nextBlock
  tidy : ∀ i < s.blocks.length, ∀ b, s.blockAt i = .partialBlock b → s.Tidy c d i b

-- A range that still misses bytes is linked if its block is one of s_blocks.
def Kept (s : Store) (r : RangeId) : Prop :=
  s.Void r ∨ (s.Current (s.range r).block → r ∈ s.ranges (s.range r).block)

def Held (s : Store) (r : RangeId) : Prop := s.Void r ∨ s.Current (s.range r).block

def Chosen (s : Store) (b : BlockId) : Prop := s.Current b ∨ ∀ r ∈ s.ranges b, s.Void r

-- What the steps on blocks leave to the uploaders that hold ranges or were
-- given blocks.
structure Evolves (s s' : Store) : Prop where
  layout : s'.layout = s.layout
  nextBlock : s.nextBlock ≤ s'.nextBlock
  nextRange : s.nextRange ≤ s'.nextRange
  num : ∀ b < s.nextBlock, (s'.block b).num = (s.block b).num
  nuploading : ∀ r < s.nextRange, (s'.range r).nuploading = (s.range r).nuploading
  fresh : ∀ r, s.nextRange ≤ r → r < s'.nextRange → (s'.range r).nuploading = 0
  kept : ∀ r < s.nextRange, s.Kept r → s'.Kept r
  held : ∀ r < s.nextRange, s.Kept r → s.Held r → s'.Held r
  chosen : ∀ b < s.nextBlock, s.Chosen b → s'.Chosen b
  shrinks : ∀ r < s.nextRange, (s.range r).rangeBegin ≤ (s'.range r).rangeBegin ∧
    (s'.range r).rangeEnd ≤ (s.range r).rangeEnd
  linked : ∀ b, s'.Current b → ∀ r ∈ s'.ranges b, r < s.nextRange →
    s.Current b ∧ r ∈ s.ranges b

theorem Evolves.refl (s : Store) : Evolves s s :=
  ⟨rfl, le_rfl, le_rfl, fun _ _ => rfl, fun _ _ => rfl, fun _ h h' => absurd h' (Nat.not_lt.mpr h),
    fun _ _ h => h, fun _ _ _ h => h, fun _ _ h => h, fun _ _ => ⟨le_rfl, le_rfl⟩,
    fun _ hb _ hr _ => ⟨hb, hr⟩⟩

theorem Evolves.trans {s s' s'' : Store} (h : Evolves s s') (h' : Evolves s' s'') :
    Evolves s s'' where
  layout := h'.layout.trans h.layout
  nextBlock := h.nextBlock.trans h'.nextBlock
  nextRange := h.nextRange.trans h'.nextRange
  num b hb := (h'.num b (hb.trans_le h.nextBlock)).trans (h.num b hb)
  nuploading r hr := (h'.nuploading r (hr.trans_le h.nextRange)).trans (h.nuploading r hr)
  fresh r hr hr' := by
    by_cases hlt : r < s'.nextRange
    · rw [h'.nuploading r hlt]; exact h.fresh r hr hlt
    · exact h'.fresh r (Nat.not_lt.mp hlt) hr'
  kept r hr hk := h'.kept r (hr.trans_le h.nextRange) (h.kept r hr hk)
  held r hr hk hh :=
    h'.held r (hr.trans_le h.nextRange) (h.kept r hr hk) (h.held r hr hk hh)
  chosen b hb hc := h'.chosen b (hb.trans_le h.nextBlock) (h.chosen b hb hc)
  shrinks r hr :=
    ⟨(h.shrinks r hr).1.trans (h'.shrinks r (hr.trans_le h.nextRange)).1,
      (h'.shrinks r (hr.trans_le h.nextRange)).2.trans (h.shrinks r hr).2⟩
  linked b hb r hr hlt := by
    obtain ⟨h₁, h₂⟩ := h'.linked b hb r hr (hlt.trans_le h.nextRange)
    exact h.linked b h₁ r h₂ hlt

variable {c d : Prop} {s s' : Store} {b : BlockId} {r : RangeId} {i : Nat}

theorem Books.current_unique (h : Books c d s) {j : Nat} (hi : i < s.blocks.length)
    (hj : j < s.blocks.length) (hbi : s.blockAt i = .partialBlock b)
    (hbj : s.blockAt j = .partialBlock b) : i = j :=
  (h.tidy i hi b hbi).num.symm.trans (h.tidy j hj b hbj).num

theorem Books.current_lt (h : Books c d s) (hb : s.Current b) : b < s.nextBlock := by
  obtain ⟨i, hi, hb⟩ := hb
  exact (h.tidy i hi b hb).lt

theorem Only.current (h : Only b s s') (b' : BlockId) : s'.Current b' ↔ s.Current b' := by
  simp only [Current, h.blockAt, show s'.blocks.length = s.blocks.length by rw [h.blocks]]

theorem Only.ranges (h : Only b s s') {b' : BlockId} (hb : b' ≠ b) :
    s'.ranges b' = s.ranges b' := by simp only [Store.ranges, h.block b' hb]

theorem Books.only (h : Books c d s) (ho : Only b s s')
    (hb : s.nextRange < s'.nextRange → b < s.nextBlock)
    (howned : ∀ r ∈ s'.ranges b, (s'.range r).block = b ∧ r < s'.nextRange)
    (ht : ∀ i < s.blocks.length, s.blockAt i = .partialBlock b → s'.Tidy c d i b) :
    Books c d s' := by
  refine ⟨h.placed.congr ho.layout, fun b' r hr => ?_, fun r hr => ?_, fun i hi b' hb' => ?_⟩
  · by_cases hb : b' = b
    · rw [hb] at hr ⊢; exact howned r hr
    · rw [ho.ranges hb] at hr
      obtain ⟨h₁, h₂⟩ := h.owned b' r hr
      rw [ho.owner r h₂]
      exact ⟨h₁, h₂.trans_le ho.nextRange⟩
  · rw [ho.nextBlock]
    by_cases hlt : r < s.nextRange
    · rw [ho.owner r hlt]; exact h.owner_lt r hlt
    · have hge := Nat.not_lt.mp hlt
      rw [ho.fresh r hge hr]
      exact hb (Nat.lt_of_le_of_lt hge hr)
  · rw [ho.blocks] at hi
    rw [ho.blockAt] at hb'
    by_cases hb : b' = b
    · rw [hb] at hb' ⊢; exact ht i hi hb'
    · exact (h.tidy i hi b' hb').frame ho.layout (ho.sameBlock hb)

theorem Evolves.of_only (ho : Only b s s')
    (howned : ∀ b, ∀ r ∈ s.ranges b, (s.range r).block = b ∧ r < s.nextRange)
    (hnum : (s'.block b).num = (s.block b).num)
    (hnup : ∀ r < s.nextRange, (s'.range r).nuploading = (s.range r).nuploading)
    (hfresh : ∀ r, s.nextRange ≤ r → r < s'.nextRange → (s'.range r).nuploading = 0)
    (hspan : ∀ r < s.nextRange, (s.range r).rangeBegin ≤ (s'.range r).rangeBegin ∧
      (s'.range r).rangeEnd ≤ (s.range r).rangeEnd)
    (hvoid : ∀ r < s.nextRange, s.Void r → s'.Void r)
    (hkeep : ∀ r ∈ s.ranges b, r ∈ s'.ranges b ∨ s'.Void r)
    (hlist : ∀ r ∈ s'.ranges b, r ∈ s.ranges b ∨ s.nextRange ≤ r)
    (hnew : (∀ r ∈ s.ranges b, s.Void r) → ∀ r ∈ s'.ranges b, r ∈ s.ranges b) :
    Evolves s s' where
  layout := ho.layout
  nextBlock := ho.nextBlock.ge
  nextRange := ho.nextRange
  num b' _ := by
    by_cases hb : b' = b
    · rw [hb]; exact hnum
    · rw [ho.block b' hb]
  nuploading := hnup
  fresh := hfresh
  kept r hr hk := by
    unfold Kept at hk ⊢
    rcases hk with hk | hk
    · exact .inl (hvoid r hr hk)
    · rw [ho.owner r hr, ho.current]
      by_cases hb : (s.range r).block = b
      · by_cases hc : s.Current (s.range r).block
        · rw [hb] at hk hc ⊢
          rcases hkeep r (hk hc) with hm | hv
          · exact .inr fun _ => hm
          · exact .inl hv
        · exact .inr fun hc' => absurd hc' hc
      · rw [ho.ranges hb]; exact .inr hk
  held r hr _ hk := by
    unfold Held at hk ⊢
    rw [ho.owner r hr, ho.current]
    exact hk.imp_left (hvoid r hr)
  chosen b' _ hc := by
    unfold Chosen at hc ⊢
    rw [ho.current]
    refine hc.imp_right fun hv => ?_
    by_cases hb : b' = b
    · rw [hb] at hv ⊢
      intro r hr
      have hmem := hnew hv r hr
      exact hvoid r (howned b r hmem).2 (hv r hmem)
    · rw [ho.ranges hb]
      exact fun r hr => hvoid r (howned b' r hr).2 (hv r hr)
  shrinks := hspan
  linked b' hb' r hr hlt := by
    rw [ho.current] at hb'
    refine ⟨hb', ?_⟩
    by_cases hb : b' = b
    · rw [hb] at hr ⊢
      exact (hlist r hr).resolve_right (Nat.not_le.mpr hlt)
    · rwa [ho.ranges hb] at hr

theorem range_splitRange (hlt : r < s.nextRange) {cutPos : Int}
    (hcut : (s.range r).rangeBegin < cutPos ∧ cutPos < (s.range r).rangeEnd) (r' : RangeId) :
    (s.splitRange r cutPos).range r' =
      if r' = r then { s.range r with rangeEnd := cutPos }
      else if r' = s.nextRange then { s.range r with rangeBegin := cutPos, nuploading := 0 }
      else s.range r' := by
  simp only [splitRange, if_pos hcut, range_modifyBlock, range_modifyRange, range_allocRange,
    if_neg (Nat.ne_of_lt hlt)]

theorem nextRange_splitRange {cutPos : Int}
    (hcut : (s.range r).rangeBegin < cutPos ∧ cutPos < (s.range r).rangeEnd) :
    (s.splitRange r cutPos).nextRange = s.nextRange + 1 := by
  simp only [splitRange, if_pos hcut]; rfl

theorem ranges_splitRange {cutPos : Int}
    (hcut : (s.range r).rangeBegin < cutPos ∧ cutPos < (s.range r).rangeEnd) :
    (s.splitRange r cutPos).ranges (s.range r).block =
      insertAfter r s.nextRange (s.ranges (s.range r).block) := by
  simp only [splitRange, if_pos hcut, Store.ranges, block_modifyBlock, if_true]
  rfl

theorem splitRange_of_not {cutPos : Int}
    (hcut : ¬ ((s.range r).rangeBegin < cutPos ∧ cutPos < (s.range r).rangeEnd)) :
    s.splitRange r cutPos = s := by
  simp only [splitRange, if_neg hcut]

theorem mem_insertAfter {r new r' : RangeId} {l : List RangeId} (h : r' ∈ insertAfter r new l) :
    r' ∈ l ∨ r' = new ∧ r ∈ l := by
  induction l with
  | nil => simp [insertAfter] at h
  | cons x l ih =>
      simp only [insertAfter] at h
      split at h
      · next hx =>
          simp only [List.mem_cons] at h ⊢
          rcases h with h | h | h
          · exact .inl (.inl h)
          · exact .inr ⟨h, .inl hx.symm⟩
          · exact .inl (.inr h)
      · simp only [List.mem_cons] at h ⊢
        rcases h with h | h
        · exact .inl (.inl h)
        · exact (ih h).imp (.inr ·) fun h => ⟨h.1, .inr h.2⟩

theorem mem_insertAfter_of_mem {r new r' : RangeId} {l : List RangeId} (h : r' ∈ l) :
    r' ∈ insertAfter r new l := by
  induction l with
  | nil => simp at h
  | cons x l ih =>
      simp only [insertAfter]
      split
      · simp only [List.mem_cons] at h ⊢; tauto
      · simp only [List.mem_cons] at h ⊢; tauto

-- Splitting a range at a point where it may be split.
theorem Books.splitRange (h : Books c d s) (hr : r ∈ s.ranges b) (cutPos : Int)
    (hd : d → (s.range r).rangeBegin < cutPos → cutPos < (s.range r).rangeEnd →
      s.Current b → (s.range r).nuploading = 0) :
    Books c d (s.splitRange r cutPos) ∧ Evolves s (s.splitRange r cutPos) := by
  by_cases hcut : (s.range r).rangeBegin < cutPos ∧ cutPos < (s.range r).rangeEnd
  · obtain ⟨hrb, hlt⟩ := h.owned b r hr
    have ho := s.splitRange_only r cutPos
    have hranges := ranges_splitRange hcut
    have hrange := range_splitRange hlt hcut
    have hn := nextRange_splitRange hcut
    rw [hrb] at ho hranges
    have hnew : ∀ r' < s.nextRange, r' ≠ s.nextRange := fun r' h e => Nat.lt_irrefl _ (e ▸ h)
    have hnum : ((s.splitRange r cutPos).block b).num = (s.block b).num := by
      simp only [Store.splitRange, if_pos hcut, hrb, block_modifyBlock, if_true]
      rfl
    refine ⟨h.only ho (fun _ => hrb ▸ h.owner_lt r hlt) ?_ ?_,
      .of_only ho h.owned hnum ?_ ?_ ?_ ?_ ?_ ?_ ?_⟩
    · rw [hranges, hn]
      intro r' hr'
      rcases mem_insertAfter hr' with hr' | ⟨rfl, -⟩
      · obtain ⟨h₁, h₂⟩ := h.owned b r' hr'
        rw [ho.owner r' h₂]
        exact ⟨h₁, Nat.lt_succ_of_lt h₂⟩
      · rw [hrange, if_neg (Nat.ne_of_gt hlt), if_pos rfl]
        exact ⟨hrb, Nat.lt_succ_self _⟩
    · intro i hi hbi
      exact (h.tidy i hi b hbi).splitRange hr cutPos
        fun hd' h₁ h₂ => hd hd' h₁ h₂ ⟨i, hi, hbi⟩
    · intro r' hr'
      rw [hrange]
      split
      · next e => rw [e]
      · rw [if_neg (hnew r' hr')]
    · intro r' h₁ h₂
      obtain rfl : r' = s.nextRange := by
        rw [hn] at h₂
        exact Nat.le_antisymm (Nat.lt_succ_iff.mp h₂) h₁
      rw [hrange, if_neg (Nat.ne_of_gt hlt), if_pos rfl]
    · intro r' hr'
      rw [hrange]
      split
      · next e => rw [e]; exact ⟨le_rfl, hcut.2.le⟩
      · rw [if_neg (hnew r' hr')]; exact ⟨le_rfl, le_rfl⟩
    · intro r' hr' hv
      unfold Void at hv ⊢
      rw [hrange]
      split
      · next e => subst e; omega
      · rw [if_neg (hnew r' hr')]; exact hv
    · intro r' hr'
      rw [hranges]
      exact .inl (mem_insertAfter_of_mem hr')
    · intro r' hr'
      rw [hranges] at hr'
      exact (mem_insertAfter hr').imp_right fun e => e.1.ge
    · intro hv
      have := hv r hr
      unfold Void at this
      omega
  · rw [splitRange_of_not hcut]
    exact ⟨h, .refl s⟩

theorem range_advanceRange (newBegin : Int) (r' : RangeId) :
    (s.advanceRange r newBegin).range r' =
      if r' = r then { s.range r with rangeBegin := newBegin } else s.range r' := by
  simp only [Store.advanceRange, range_modifyRange, range_modifyBlock]

theorem ranges_advanceRange (newBegin : Int) (b : BlockId) :
    (s.advanceRange r newBegin).ranges b = s.ranges b := by
  simp only [Store.ranges, Store.advanceRange, block_modifyRange, block_modifyBlock]
  split
  · next e => rw [e]
  · rfl

theorem num_advanceRange (newBegin : Int) (b : BlockId) :
    ((s.advanceRange r newBegin).block b).num = (s.block b).num := by
  simp only [Store.advanceRange, block_modifyRange, block_modifyBlock]
  split
  · next e => rw [e]
  · rfl

theorem Evolves.advanceRange (h : Books c d s) (r : RangeId) (newBegin : Int)
    (h₁ : (s.range r).rangeBegin ≤ newBegin) (h₂ : newBegin ≤ (s.range r).rangeEnd) :
    Evolves s (s.advanceRange r newBegin) := by
  have hrange := range_advanceRange (s := s) (r := r) newBegin
  have hranges := ranges_advanceRange (s := s) (r := r) newBegin
  refine .of_only (s.advanceRange_only r newBegin) h.owned (num_advanceRange newBegin _) ?_ ?_ ?_
    ?_ ?_ ?_ ?_
  · intro r' _
    rw [hrange]
    split
    · next e => rw [e]
    · rfl
  · exact fun r' h h' => absurd h' (Nat.not_lt.mpr h)
  · intro r' _
    rw [hrange]
    split
    · next e => rw [e]; exact ⟨h₁, le_rfl⟩
    · exact ⟨le_rfl, le_rfl⟩
  · intro r' _ hv
    unfold Void at hv ⊢
    rw [hrange]
    split
    · next e => subst e; dsimp only; omega
    · exact hv
  · intro r' hr'
    rw [hranges]
    exact .inl hr'
  · intro r' hr'
    rw [hranges] at hr'
    exact .inl hr'
  · intro _ r' hr'
    rwa [hranges] at hr'

theorem Books.advanceRange (h : Books c d s) (newBegin : Int) (hk : s.Kept r)
    (hv : ¬ s.Void r) (h₁ : (s.range r).rangeBegin ≤ newBegin)
    (hend : s.Current (s.range r).block → newBegin < (s.range r).rangeEnd) :
    Books c d (s.advanceRange r newBegin) := by
  have ho := s.advanceRange_only r newBegin
  refine h.only ho (fun h => absurd h (Nat.lt_irrefl _)) ?_ ?_
  · intro r' hr'
    rw [ranges_advanceRange] at hr'
    obtain ⟨h₁, h₂⟩ := h.owned _ r' hr'
    rw [ho.owner r' h₂]
    exact ⟨h₁, h₂.trans_le ho.nextRange⟩
  · intro i hi hbi
    have hc : s.Current (s.range r).block := ⟨i, hi, hbi⟩
    exact (h.tidy i hi _ hbi).advanceRange ((hk.resolve_left hv) hc) h₁ (hend hc)

theorem ranges_finishRange (b' : BlockId) :
    (s.finishRange b r).ranges b' =
      if b' = b then (s.ranges b).erase r else s.ranges b' := by
  have h := ranges_advanceRange (s := s) (r := r) (s.range r).rangeEnd
  simp only [Store.ranges, finishRange, block_modifyBlock] at h ⊢
  split
  · rw [h]
  · exact h b'

theorem range_finishRange (r' : RangeId) : (s.finishRange b r).range r' =
    if r' = r then { s.range r with rangeBegin := (s.range r).rangeEnd } else s.range r' :=
  range_advanceRange (s := s) (r := r) _ r'

theorem Books.finishRange (h : Books c d s) (hr : r ∈ s.ranges b) (hne : s.ranges b ≠ [r])
    (hle : (s.range r).rangeBegin ≤ (s.range r).rangeEnd) :
    Books c d (s.finishRange b r) ∧ Evolves s (s.finishRange b r) := by
  obtain ⟨hrb, hlt⟩ := h.owned b r hr
  have ho : Only b s (s.finishRange b r) :=
    (hrb ▸ s.advanceRange_only r _).trans (modifyBlock_only _ _ _)
  have hnum : ((s.finishRange b r).block b).num = (s.block b).num := by
    have := num_advanceRange (s := s) (r := r) (s.range r).rangeEnd b
    simp only [Store.finishRange, block_modifyBlock, if_true]
    exact this
  have hranges : (s.finishRange b r).ranges b = (s.ranges b).erase r := by
    rw [ranges_finishRange, if_pos rfl]
  have hsub : ∀ r' ∈ (s.finishRange b r).ranges b, r' ∈ s.ranges b := fun r' hr' =>
    List.mem_of_mem_erase (hranges ▸ hr')
  refine ⟨h.only ho (fun _ => hrb ▸ h.owner_lt r hlt) ?_ ?_,
    .of_only ho h.owned hnum ?_ ?_ ?_ ?_ ?_ ?_ ?_⟩
  · intro r' hr'
    obtain ⟨h₁, h₂⟩ := h.owned b r' (hsub r' hr')
    rw [ho.owner r' h₂]
    exact ⟨h₁, h₂.trans_le ho.nextRange⟩
  · intro i hi hbi
    exact (h.tidy i hi b hbi).finishRange hr hne
  · intro r' _
    rw [range_finishRange]
    split
    · next e => rw [e]
    · rfl
  · exact fun r' h h' => absurd h' (Nat.not_lt.mpr h)
  · intro r' _
    rw [range_finishRange]
    split
    · next e => rw [e]; exact ⟨hle, le_rfl⟩
    · exact ⟨le_rfl, le_rfl⟩
  · intro r' _ hv
    unfold Void at hv ⊢
    rw [range_finishRange]
    split
    · rfl
    · exact hv
  · intro r' hr'
    by_cases e : r' = r
    · refine .inr ?_
      unfold Void
      rw [range_finishRange, if_pos e]
    · rw [hranges]
      exact .inl ((List.mem_erase_of_ne e).mpr hr')
  · exact fun r' hr' => .inl (hsub r' hr')
  · exact fun _ r' hr' => hsub r' hr'

end Store

end Mldonkey.Swarming
