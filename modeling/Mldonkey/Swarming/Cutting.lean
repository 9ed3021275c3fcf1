import Mldonkey.Swarming.Split
import Mldonkey.Swarming.Ranges.Evolves
import Mldonkey.Swarming.Tags.Blocks

-- What split_blocks does to the records of a partial block that it cuts in two.
namespace Mldonkey.Swarming

open HalfOpen

namespace Store

variable {s s' : Store} {b b1 b2 : BlockId} {r : RangeId} {l : List RangeId}
  {lo cutPos hi : Int}

-- The ranges `l`, which lie between `lo` and `hi`, are cut at a point. A void range stands on the
-- right if no byte is missing there; the left may stay without ranges.
structure CutsRanges (lo cutPos hi : Int) (l : List RangeId) (s s' : Store)
    (left right : List RangeId) : Prop where
  nextRange : s.nextRange ≤ s'.nextRange
  other : ∀ r < s.nextRange, r ∉ l → s'.range r = s.range r
  old : ∀ r < s.nextRange, (s'.range r).block = (s.range r).block ∧
    (s'.range r).nuploading = (s.range r).nuploading
  mem : ∀ r, r ∈ left ∨ r ∈ right ↔ r ∈ l ∨ s.nextRange ≤ r ∧ r < s'.nextRange
  left_mem : ∀ r ∈ left, r ∈ l
  disjoint : ∀ r ∈ left, r ∉ right
  left_chain : Chain lo (s'.spans left) cutPos
  right_chain : right ≠ [] ∧ (Chain cutPos (s'.spans right) hi ∨
    right = [s.nextRange] ∧ (s'.range s.nextRange).span = (cutPos, cutPos))
  left_covers : ∀ x < cutPos, Covers (s'.spans left) x ↔ Covers (s.spans l) x
  right_covers : ∀ x, cutPos ≤ x → (Covers (s'.spans right) x ↔ Covers (s.spans l) x)

-- All ranges lie on the right.
theorem cutsRanges_right (hne : l ≠ []) (hlo : lo ≤ cutPos)
    (h : Chain cutPos (s.spans l) hi) : CutsRanges lo cutPos hi l s s [] l where
  nextRange := le_rfl
  other _ _ _ := rfl
  old _ _ := ⟨rfl, rfl⟩
  mem r := by
    have : ¬ (s.nextRange ≤ r ∧ r < s.nextRange) := fun h => h.1.not_gt h.2
    simp [this]
  left_mem := by simp
  disjoint := by simp
  left_chain := hlo
  right_chain := ⟨hne, .inl h⟩
  left_covers x hx := by
    rw [spans_nil]
    refine iff_of_false covers_nil fun hc => ?_
    have := h.covers_bounds hc
    omega
  right_covers _ _ := Iff.rfl

-- The last range ends before the cut.
theorem cutsRanges_void (hr : r < s.nextRange) (h : Chain lo (s.spans [r]) hi)
    (hend : (s.range r).rangeEnd ≤ cutPos) :
    CutsRanges lo cutPos hi [r] s (s.voidRange b cutPos) [r] [s.nextRange] := by
  have hrange : ∀ r' < s.nextRange, (s.voidRange b cutPos).range r' = s.range r' := fun r' hr' => by
    rw [voidRange, range_allocRange, if_neg hr'.ne]
  have hvoid : ((s.voidRange b cutPos).range s.nextRange).span = (cutPos, cutPos) := by
    rw [voidRange, range_allocRange, if_pos rfl]
    rfl
  have hspans : (s.voidRange b cutPos).spans [r] = s.spans [r] :=
    spans_congr fun r' hr' => hrange r' (by rw [List.mem_singleton.mp hr']; exact hr)
  exact
  { nextRange := Nat.le_succ _
    other := fun r' hr' _ => hrange r' hr'
    old := fun r' hr' => by rw [hrange r' hr']; exact ⟨rfl, rfl⟩
    mem := fun r' => by
      have : s.nextRange ≤ r' ∧ r' < (s.voidRange b cutPos).nextRange ↔ r' = s.nextRange := by
        rw [le_antisymm_iff, and_comm]
        exact and_congr_left fun _ => Nat.lt_succ_iff
      rw [List.mem_singleton, List.mem_singleton, this]
    left_mem := fun _ h => h
    disjoint := fun r' hr' => by
      rw [List.mem_singleton.mp hr', List.mem_singleton]
      exact hr.ne
    left_chain := by
      rw [hspans]
      exact ⟨h.1, h.2.1, hend⟩
    right_chain := ⟨by simp, .inr ⟨rfl, hvoid⟩⟩
    left_covers := fun x _ => by rw [hspans]
    right_covers := fun x hx => by
      have h₁ : ¬ (cutPos ≤ x ∧ x < cutPos) := by omega
      have h₂ : ¬ ((s.range r).rangeBegin ≤ x ∧ x < (s.range r).rangeEnd) := by omega
      rw [spans_cons, spans_cons, covers_cons, covers_cons, hvoid]
      exact iff_of_false (by simp [h₁]) (by simp [Range.span, h₂]) }

-- The first range lies on the left with those that are cut off behind it.
theorem CutsRanges.cons {left right : List RangeId}
    (h : CutsRanges (s.range r).rangeEnd cutPos hi l s s' left right) (hr : r < s.nextRange)
    (hrl : r ∉ l) (hlo : lo ≤ (s.range r).rangeBegin)
    (hlt : (s.range r).rangeBegin < (s.range r).rangeEnd) (hend : (s.range r).rangeEnd ≤ cutPos) :
    CutsRanges lo cutPos hi (r :: l) s s' (r :: left) right := by
  have hrange := h.other r hr hrl
  have hmem := h.mem r
  exact
  { h with
    other := fun r' hr' hn => h.other r' hr' fun hm => hn (List.mem_cons_of_mem r hm)
    mem := fun r' => by
      rw [List.mem_cons, List.mem_cons, or_assoc, or_assoc, h.mem]
    left_mem := fun r' hr' => by
      rcases List.mem_cons.mp hr' with rfl | hr'
      · exact List.mem_cons_self
      · exact List.mem_cons_of_mem r (h.left_mem r' hr')
    disjoint := fun r' hr' => by
      rcases List.mem_cons.mp hr' with rfl | hr'
      · intro hn
        rcases hmem.mp (.inr hn) with hn | hn
        · exact hrl hn
        · exact hn.1.not_gt hr
      · exact h.disjoint r' hr'
    left_chain := by
      rw [spans_cons, hrange]
      exact ⟨hlo, hlt, h.left_chain⟩
    left_covers := fun x hx => by
      rw [spans_cons, spans_cons, covers_cons, covers_cons, hrange, h.left_covers x hx]
    right_covers := fun x hx => by
      have : ¬ ((s.range r).rangeBegin ≤ x ∧ x < (s.range r).rangeEnd) := by omega
      rw [h.right_covers x hx, spans_cons, covers_cons]
      simp [Range.span, this] }

-- The first range is cut itself.
theorem cutsRanges_split (h : Chain lo (s.spans (r :: l)) hi) (hr : r < s.nextRange)
    (hl : ∀ r' ∈ l, r' < s.nextRange) (hrl : r ∉ l) (hlow : (s.range r).rangeBegin < cutPos)
    (hhigh : cutPos < (s.range r).rangeEnd) :
    CutsRanges lo cutPos hi (r :: l) s
      ((s.allocRange { s.range r with rangeBegin := cutPos }).modifyRange r
        fun x => { x with rangeEnd := cutPos }) [r] (s.nextRange :: l) := by
  generalize hs' : (s.allocRange { s.range r with rangeBegin := cutPos }).modifyRange r
    (fun x => { x with rangeEnd := cutPos }) = s'
  have hrange : ∀ r', s'.range r' = if r' = r then { s.range r with rangeEnd := cutPos } else
      if r' = s.nextRange then { s.range r with rangeBegin := cutPos } else s.range r' := by
    intro r'
    rw [← hs', range_modifyRange, range_allocRange, range_allocRange, if_neg hr.ne]
  have hfirst : (s'.range r).span = ((s.range r).rangeBegin, cutPos) := by
    rw [hrange, if_pos rfl]
    rfl
  have hnew : (s'.range s.nextRange).span = (cutPos, (s.range r).rangeEnd) := by
    rw [hrange, if_neg hr.ne', if_pos rfl]
    rfl
  have hspans : s'.spans l = s.spans l := spans_congr fun r' hr' => by
    rw [hrange, if_neg (by rintro rfl; exact hrl hr'), if_neg (hl r' hr').ne]
  obtain ⟨h₁, -, h₃⟩ := h
  exact
  { nextRange := by rw [← hs']; exact Nat.le_succ _
    other := fun r' hr' hn => by
      rw [hrange, if_neg (by rintro rfl; exact hn List.mem_cons_self), if_neg hr'.ne]
    old := fun r' hr' => by
      rw [hrange]
      split
      · next e => exact e ▸ ⟨rfl, rfl⟩
      · rw [if_neg hr'.ne]
        exact ⟨rfl, rfl⟩
    mem := fun r' => by
      have : s.nextRange ≤ r' ∧ r' < s'.nextRange ↔ r' = s.nextRange := by
        rw [le_antisymm_iff, and_comm, ← hs']
        exact and_congr_left fun _ => Nat.lt_succ_iff
      rw [List.mem_singleton, List.mem_cons, List.mem_cons, this]
      tauto
    left_mem := fun r' hr' => List.mem_singleton.mp hr' ▸ List.mem_cons_self
    disjoint := fun r' hr' => by
      rw [List.mem_singleton.mp hr', List.mem_cons]
      exact fun h => h.elim hr.ne hrl
    left_chain := by
      rw [spans_cons, hfirst]
      exact ⟨h₁, hlow, le_rfl⟩
    right_chain := by
      refine ⟨by simp, .inl ?_⟩
      rw [spans_cons, hnew, hspans]
      exact ⟨le_rfl, hhigh, h₃⟩
    left_covers := fun x hx => by
      have hrest : ¬ Covers (s.spans l) x := fun hc => by
        have := (h₃.covers_bounds hc).1
        simp only [Range.span] at this
        omega
      rw [spans_cons, hfirst, spans_cons, covers_cons, covers_cons]
      simp only [spans_nil, covers_nil, hrest, or_false, Range.span]
      omega
    right_covers := fun x hx => by
      rw [spans_cons, hnew, hspans, spans_cons, covers_cons, covers_cons]
      simp only [Range.span]
      have : cutPos ≤ x ∧ x < (s.range r).rangeEnd ↔
          (s.range r).rangeBegin ≤ x ∧ x < (s.range r).rangeEnd := by omega
      rw [this] }

theorem cutRanges_spec (hne : l ≠ []) (h : Chain lo (s.spans l) hi) (hnd : l.Nodup)
    (hl : ∀ r ∈ l, r < s.nextRange) (hlo : lo ≤ cutPos) :
    CutsRanges lo cutPos hi l s (cutRanges b cutPos s l).1 (cutRanges b cutPos s l).2.1
      (cutRanges b cutPos s l).2.2 := by
  induction l generalizing lo with
  | nil => exact absurd rfl hne
  | cons r rest ih =>
    obtain ⟨h₁, h₂, h₃⟩ := h
    obtain ⟨hr, hnd⟩ := List.nodup_cons.mp hnd
    have hlt := hl r List.mem_cons_self
    have hrest : ∀ r' ∈ rest, r' < s.nextRange := fun r' hr' => hl r' (List.mem_cons_of_mem r hr')
    unfold cutRanges
    split
    · next hcut => exact cutsRanges_right (by simp) hlo ⟨hcut, h₂, h₃⟩
    · next hbegin =>
      split
      · next hend =>
        cases rest with
        | nil => exact cutsRanges_void hlt ⟨h₁, h₂, h₃⟩ hend
        | cons r' rest => exact (ih (by simp) h₃ hnd hrest hend).cons hlt hr h₁ h₂ hend
      · next hend => exact cutsRanges_split ⟨h₁, h₂, h₃⟩ hlt hrest hr (by omega) (by omega)

-- A new block has none of the ranges.
theorem CutsRanges.of_allocBlock {new : Block} {left right : List RangeId}
    (h : CutsRanges lo cutPos hi l (s.allocBlock new) s' left right) :
    CutsRanges lo cutPos hi l s s' left right :=
  ⟨h.nextRange, h.other, h.old, h.mem, h.left_mem, h.disjoint, h.left_chain, h.right_chain,
    h.left_covers, h.right_covers⟩

theorem cutRanges_same (b : BlockId) (cutPos : Int) (l : List RangeId) (s : Store) :
    SameMap s (cutRanges b cutPos s l).1 ∧ (cutRanges b cutPos s l).1.block = s.block ∧
    (cutRanges b cutPos s l).1.nextBlock = s.nextBlock := by
  induction l with
  | nil => exact ⟨.refl s, rfl, rfl⟩
  | cons r rest ih =>
    unfold cutRanges
    split
    · exact ⟨.refl s, rfl, rfl⟩
    · split
      · cases rest with
        | nil => exact ⟨⟨rfl, rfl, rfl⟩, rfl, rfl⟩
        | cons r' rest => exact ih
      · exact ⟨⟨rfl, rfl, rfl⟩, rfl, rfl⟩

theorem range_ownRanges (s : Store) (b : BlockId) (l : List RangeId) (r : RangeId) :
    (s.ownRanges b l).range r = if r ∈ l then { s.range r with block := b } else s.range r := by
  unfold ownRanges
  induction l generalizing s with
  | nil => simp
  | cons x l ih =>
    rw [List.foldl_cons, ih, range_modifyRange]
    by_cases hx : r = x
    · subst hx
      simp
    · simp [hx]

theorem ownRanges_same (s : Store) (b : BlockId) (l : List RangeId) :
    SameMap s (s.ownRanges b l) ∧ (s.ownRanges b l).block = s.block ∧
    (s.ownRanges b l).nextBlock = s.nextBlock ∧ (s.ownRanges b l).nextRange = s.nextRange := by
  unfold ownRanges
  induction l generalizing s with
  | nil => exact ⟨.refl s, rfl, rfl, rfl⟩
  | cons r l ih =>
    obtain ⟨h₁, h₂, h₃, h₄⟩ := ih (s.modifyRange r fun x => { x with block := b })
    exact ⟨⟨h₁.size, h₁.blockPos, h₁.blocks⟩, h₂, h₃, h₄⟩

theorem cutPartial_map (s : Store) (b1 : BlockId) (cutPos : Int) :
    SameMap s (s.cutPartial b1 cutPos) := by
  have hmap : ∀ (s : Store) (b2 : BlockId), SameMap s (s.cutRangesAfter b1 b2 cutPos) := by
    intro s b2
    obtain ⟨hcut, -⟩ := cutRanges_same b2 cutPos (s.block b1).ranges s
    unfold cutRangesAfter
    dsimp only
    split
    · obtain ⟨hown, -⟩ := ownRanges_same
        (((cutRanges b2 cutPos s (s.block b1).ranges).1.voidRange b1 cutPos).modifyBlock b1
          fun x => { x with ranges := [(cutRanges b2 cutPos s (s.block b1).ranges).1.nextRange] })
        b2 (cutRanges b2 cutPos s (s.block b1).ranges).2.2
      exact hcut.trans ⟨hown.size, hown.blockPos, hown.blocks⟩
    · obtain ⟨hown, -⟩ := ownRanges_same
        ((cutRanges b2 cutPos s (s.block b1).ranges).1.modifyBlock b1
          fun x => { x with ranges := (cutRanges b2 cutPos s (s.block b1).ranges).2.1 })
        b2 (cutRanges b2 cutPos s (s.block b1).ranges).2.2
      exact hcut.trans ⟨hown.size, hown.blockPos, hown.blocks⟩
  unfold cutPartial
  have h := fun new : Block => hmap (s.allocBlock new) s.nextBlock
  exact ⟨(h _).size, (h _).blockPos, (h _).blocks⟩

-- One of the two blocks that come from the ranges `l` of a block in `s`.
structure Half (l : List RangeId) (lo hi : Int) (s s' : Store) (b : BlockId) : Prop where
  blockBegin : (s'.block b).blockBegin = lo
  blockEnd : (s'.block b).blockEnd = hi
  covers : ∀ x, lo ≤ x → x < hi →
    (Covers (s'.spans (s'.ranges b)) x ↔ Covers (s.spans l) x)
  sound : s'.blockIsFull b = false → s'.Sound b lo hi

-- The partial block `b1` is cut in two; the ranges of all other blocks stay.
structure CutsBlock (b1 : BlockId) (lo cutPos hi : Int) (s s' : Store) : Prop where
  map : SameMap s s'
  nextBlock : s'.nextBlock = s.nextBlock + 1
  nextRange : s.nextRange ≤ s'.nextRange
  block : ∀ b, b ≠ b1 → b ≠ s.nextBlock → s'.block b = s.block b
  range : ∀ r < s.nextRange, r ∉ s.ranges b1 → s'.range r = s.range r
  nuploading : ∀ r < s.nextRange, (s'.range r).nuploading = (s.range r).nuploading
  linked : ∀ r, r ∈ s'.ranges b1 ∨ r ∈ s'.ranges s.nextBlock ↔
    r ∈ s.ranges b1 ∨ s.nextRange ≤ r ∧ r < s'.nextRange
  owned : ∀ b, b = b1 ∨ b = s.nextBlock → ∀ r ∈ s'.ranges b, (s'.range r).block = b
  left : Half (s.ranges b1) lo cutPos s s' b1
  right : Half (s.ranges b1) cutPos hi s s' s.nextBlock

-- A list of ranges is all that is missing between two points.
theorem half_of {l m : List RangeId} (hbegin : (s'.block b).blockBegin = lo)
    (hend : (s'.block b).blockEnd = hi) (hm : s'.ranges b = m) (hb : b < s'.nextBlock)
    (hcovers : ∀ x, lo ≤ x → x < hi → (Covers (s'.spans m) x ↔ Covers (s.spans l) x))
    (hne : m ≠ []) (howned : ∀ r ∈ m, (s'.range r).block = b ∧ r < s'.nextRange)
    (hchain : Chain lo (s'.spans m) hi ∨ ∃ r, m = [r] ∧ s'.Void r) : Half l lo hi s s' b := by
  refine ⟨hbegin, hend, fun x h₁ h₂ => hm ▸ hcovers x h₁ h₂, fun hfull => ?_⟩
  refine ⟨hb, hbegin, hend, hm ▸ hne, hm ▸ howned, hm ▸ hchain.resolve_right ?_⟩
  rintro ⟨r, rfl, hr⟩
  have hm' : (s'.block b).ranges = [r] := hm
  simp [blockIsFull, hm'] at hfull
  exact hfull hr

theorem cutsBlock_of {c : Store} {left left' right : List RangeId} (h : s.Sound b1 lo hi)
    (hcut : CutsRanges lo cutPos hi (s.ranges b1) s c left right) (hmap : SameMap s s')
    (hnext : s'.nextBlock = s.nextBlock + 1)
    (hb1 : s'.block b1 = { s.block b1 with blockEnd := cutPos, ranges := left' })
    (hb2 : (s'.block s.nextBlock).blockBegin = cutPos ∧
      (s'.block s.nextBlock).blockEnd = (s.block b1).blockEnd ∧ s'.ranges s.nextBlock = right)
    (hblock : ∀ b, b ≠ b1 → b ≠ s.nextBlock → s'.block b = s.block b)
    (hrange : ∀ r < c.nextRange, s'.range r =
      if r ∈ right then { c.range r with block := s.nextBlock } else c.range r)
    (hleft : left ≠ [] ∧ left' = left ∧ s'.nextRange = c.nextRange ∨
      left = [] ∧ left' = [c.nextRange] ∧ s'.nextRange = c.nextRange + 1 ∧
        s'.range c.nextRange = ⟨b1, cutPos, cutPos, 0⟩) :
    CutsBlock b1 lo cutPos hi s s' := by
  have hold : ∀ r ∈ s.ranges b1, r < s.nextRange := fun r hr => (h.owned r hr).2
  have hcn := hcut.nextRange
  have hle : c.nextRange ≤ s'.nextRange := by
    rcases hleft with ⟨-, -, e⟩ | ⟨-, -, e, -⟩
    · exact e.ge
    · exact e ▸ Nat.le_succ _
  have hright_lt : ∀ r ∈ right, r < c.nextRange := fun r hr => by
    rcases (hcut.mem r).mp (.inr hr) with hr | hr
    · exact (hold r hr).trans_le hcn
    · exact hr.2
  have hspan : ∀ r < c.nextRange, (s'.range r).span = (c.range r).span := fun r hr => by
    rw [hrange r hr]
    split <;> rfl
  have hranges : s'.ranges b1 = left' := congrArg Block.ranges hb1
  have hleft_old : ∀ r ∈ left, s'.range r = c.range r := fun r hr => by
    rw [hrange r ((hold r (hcut.left_mem r hr)).trans_le hcn), if_neg (hcut.disjoint r hr)]
  have hown : ∀ r ∈ left', (s'.range r).block = b1 := by
    intro r hr
    rcases hleft with ⟨-, rfl, -⟩ | ⟨-, rfl, -, e⟩
    · have hr' := hcut.left_mem r hr
      rw [hleft_old r hr, (hcut.old r (hold r hr')).1]
      exact (h.owned r hr').1
    · rw [List.mem_singleton.mp hr, e]
  have hspans : s'.spans right = c.spans right :=
    List.map_congr_left fun r hr => hspan r (hright_lt r hr)
  refine ⟨hmap, hnext, hcn.trans hle, hblock, fun r hr hn => ?_, fun r hr => ?_, fun r => ?_,
    fun b hb r hr => ?_, ?_, ?_⟩
  · have hr' : r ∉ right := fun hr' => by
      rcases (hcut.mem r).mp (.inr hr') with hr' | hr'
      · exact hn hr'
      · exact hr'.1.not_gt hr
    rw [hrange r (hr.trans_le hcn), if_neg hr', hcut.other r hr hn]
  · rw [hrange r (hr.trans_le hcn), ← (hcut.old r hr).2]
    split <;> rfl
  · rw [hranges, hb2.2.2]
    rcases hleft with ⟨-, rfl, e⟩ | ⟨rfl, rfl, e, -⟩
    · rw [e]
      exact hcut.mem r
    · have := hcut.mem r
      simp only [List.not_mem_nil, false_or] at this
      rw [List.mem_singleton, e, this, Nat.lt_succ_iff]
      have : s.nextRange ≤ r ∧ r ≤ c.nextRange ↔
          r = c.nextRange ∨ s.nextRange ≤ r ∧ r < c.nextRange := by
        constructor
        · exact fun ⟨h₁, h₂⟩ => (Nat.eq_or_lt_of_le h₂).imp id fun h => ⟨h₁, h⟩
        · rintro (rfl | ⟨h₁, h₂⟩)
          · exact ⟨hcn, le_rfl⟩
          · exact ⟨h₁, h₂.le⟩
      tauto
  · rcases hb with rfl | rfl
    · exact hown r (hranges ▸ hr)
    · rw [hb2.2.2] at hr
      rw [hrange r (hright_lt r hr), if_pos hr]
  · refine half_of (by rw [hb1]; exact h.blockBegin) (by rw [hb1]) hranges
      (hnext ▸ h.lt.trans (Nat.lt_succ_self _)) ?_ ?_ (fun r hr => ⟨hown r hr, ?_⟩) ?_
    · intro x _ hx
      rw [← hcut.left_covers x hx]
      rcases hleft with ⟨-, rfl, -⟩ | ⟨rfl, rfl, -, e⟩
      · rw [spans_congr hleft_old]
      · have hx' : ¬ (cutPos ≤ x ∧ x < cutPos) := by omega
        rw [spans_cons, e, covers_cons]
        simp [Range.span, hx']
    · rcases hleft with ⟨h, rfl, -⟩ | ⟨-, rfl, -⟩
      · exact h
      · simp
    · rcases hleft with ⟨-, rfl, e⟩ | ⟨-, rfl, e, -⟩
      · exact ((hold r (hcut.left_mem r hr)).trans_le hcn).trans_le e.ge
      · rw [List.mem_singleton.mp hr, e]
        exact Nat.lt_succ_self _
    · rcases hleft with ⟨-, rfl, -⟩ | ⟨-, rfl, -, e⟩
      · rw [spans_congr hleft_old]
        exact .inl hcut.left_chain
      · exact .inr ⟨_, rfl, by rw [Void, e]⟩
  · obtain ⟨hne, hchain⟩ := hcut.right_chain
    refine half_of hb2.1 (hb2.2.1.trans h.blockEnd) hb2.2.2 (hnext ▸ Nat.lt_succ_self _)
      (fun x hx _ => ?_) hne (fun r hr => ⟨?_, (hright_lt r hr).trans_le hle⟩) ?_
    · rw [← hcut.right_covers x hx, hspans]
    · rw [hrange r (hright_lt r hr), if_pos hr]
    · rcases hchain with hchain | ⟨rfl, hvoid⟩
      · exact .inl (hspans ▸ hchain)
      · refine .inr ⟨_, rfl, ?_⟩
        have := (hspan _ (hright_lt s.nextRange (by simp))).trans hvoid
        exact (congrArg Prod.fst this).trans (congrArg Prod.snd this).symm

theorem cutPartial_spec (h : s.Sound b1 lo hi) (hlo : lo ≤ cutPos) :
    CutsBlock b1 lo cutPos hi s (s.cutPartial b1 cutPos) := by
  have hne : b1 ≠ s.nextBlock := h.lt.ne
  let new : Block :=
    { num := 0
      blockBegin := cutPos
      blockEnd := (s.block b1).blockEnd
      ranges := (s.block b1).ranges
      remaining := 0
      unselectedRemaining := 0 }
  have hblock₁ : ∀ b, (s.allocBlock new).block b = if b = s.nextBlock then new else s.block b :=
    fun b => Function.update_apply _ _ _ _
  have hranges₁ : ((s.allocBlock new).block b1).ranges = s.ranges b1 := by
    rw [hblock₁, if_neg hne]
    rfl
  have hcut : CutsRanges lo cutPos hi (s.ranges b1) s
      (cutRanges s.nextBlock cutPos (s.allocBlock new) (s.ranges b1)).1
      (cutRanges s.nextBlock cutPos (s.allocBlock new) (s.ranges b1)).2.1
      (cutRanges s.nextBlock cutPos (s.allocBlock new) (s.ranges b1)).2.2 :=
    (cutRanges_spec (s := s.allocBlock new) h.ranges_ne h.chain h.nodup
      (fun r hr => (h.owned r hr).2) hlo).of_allocBlock
  obtain ⟨-, hblock, hnext⟩ :=
    cutRanges_same s.nextBlock cutPos (s.ranges b1) (s.allocBlock new)
  have hsame := s.cutPartial_map b1 cutPos
  change SameMap s (((s.allocBlock new).cutRangesAfter b1 s.nextBlock cutPos).modifyBlock b1
    fun x => { x with blockEnd := cutPos }) at hsame
  show CutsBlock b1 lo cutPos hi s
    (((s.allocBlock new).cutRangesAfter b1 s.nextBlock cutPos).modifyBlock b1
      fun x => { x with blockEnd := cutPos })
  unfold cutRangesAfter at hsame ⊢
  dsimp only at hsame ⊢
  rw [hranges₁] at hsame ⊢
  generalize (cutRanges s.nextBlock cutPos (s.allocBlock new) (s.ranges b1)).2.2 = right at *
  generalize (cutRanges s.nextBlock cutPos (s.allocBlock new) (s.ranges b1)).2.1 = left at *
  generalize (cutRanges s.nextBlock cutPos (s.allocBlock new) (s.ranges b1)).1 = c at *
  -- the left part, with a void range if it has no other
  obtain ⟨c', left', hc', hleft, hrest⟩ : ∃ (c' : Store) (left' : List RangeId),
      (if left = [] then (c.voidRange b1 cutPos, [c.nextRange]) else (c, left)) = (c', left') ∧
      (left ≠ [] ∧ left' = left ∧ c'.nextRange = c.nextRange ∨
        left = [] ∧ left' = [c.nextRange] ∧ c'.nextRange = c.nextRange + 1 ∧
          c'.range c.nextRange = ⟨b1, cutPos, cutPos, 0⟩) ∧
      (c'.block = c.block ∧ c'.nextBlock = c.nextBlock ∧
        ∀ r < c.nextRange, c'.range r = c.range r) := by
    by_cases hl : left = []
    · refine ⟨_, _, if_pos hl, .inr ⟨hl, rfl, rfl, ?_⟩, rfl, rfl, fun r hr => ?_⟩
      · rw [voidRange, range_allocRange, if_pos rfl]
      · rw [voidRange, range_allocRange, if_neg hr.ne]
    · exact ⟨_, _, if_neg hl, .inl ⟨hl, rfl, rfl⟩, rfl, rfl, fun _ _ => rfl⟩
  rw [hc'] at hsame ⊢
  dsimp only at hsame ⊢
  obtain ⟨hblock', hnext', hrange'⟩ := hrest
  obtain ⟨-, hoblock, honext, horange⟩ :=
    ownRanges_same (c'.modifyBlock b1 fun x => { x with ranges := left' }) s.nextBlock right
  have hfinal : ∀ b, ((((c'.modifyBlock b1 fun x => { x with ranges := left' }).ownRanges
      s.nextBlock right).modifyBlock s.nextBlock fun x => { x with ranges := right }).modifyBlock
        b1 fun x => { x with blockEnd := cutPos }).block b =
      if b = b1 then { s.block b1 with blockEnd := cutPos, ranges := left' }
      else if b = s.nextBlock then { new with ranges := right } else s.block b := by
    intro b
    simp only [block_modifyBlock, hoblock, hblock', hblock, hblock₁, if_neg hne, if_neg hne.symm,
      if_true]
    split
    · rfl
    · split <;> rfl
  refine @cutsBlock_of _ _ _ _ _ _ _ left left' right h hcut hsame ?_ ?_ ⟨?_, ?_, ?_⟩ ?_ ?_ ?_
  · exact honext.trans (hnext'.trans hnext)
  · rw [hfinal, if_pos rfl]
  · rw [hfinal, if_neg hne.symm, if_pos rfl]
  · rw [hfinal, if_neg hne.symm, if_pos rfl]
  · rw [Store.ranges, hfinal, if_neg hne.symm, if_pos rfl]
  · intro b h₁ h₂
    rw [hfinal, if_neg h₁, if_neg h₂]
  · intro r hr
    rw [range_modifyBlock, range_modifyBlock, range_ownRanges, range_modifyBlock, hrange' r hr]
  · rcases hleft with ⟨h₁, h₂, h₃⟩ | ⟨h₁, h₂, h₃, h₄⟩
    · exact .inl ⟨h₁, h₂, horange.trans h₃⟩
    · refine .inr ⟨h₁, h₂, horange.trans h₃, ?_⟩
      have hr : c.nextRange ∉ right := fun hr => by
        rcases (hcut.mem _).mp (.inr hr) with hr | hr
        · exact ((h.owned _ hr).2.trans_le hcut.nextRange).ne rfl
        · exact hr.2.ne rfl
      rw [range_modifyBlock, range_modifyBlock, range_ownRanges, if_neg hr, range_modifyBlock, h₄]

end Store

end Mldonkey.Swarming
