import Mldonkey.Swarming.Ranges.Basic
import Mldonkey.Swarming.Transfer

namespace Mldonkey.Swarming

open HalfOpen

namespace Store

section Fields

variable (s : Store) (b : BlockId) (r : RangeId)

theorem block_modifyBlock (f : Block → Block) (b' : BlockId) :
    (s.modifyBlock b f).block b' = if b' = b then f (s.block b) else s.block b' :=
  Function.update_apply _ _ _ _

theorem range_modifyRange (f : Range → Range) (r' : RangeId) :
    (s.modifyRange r f).range r' = if r' = r then f (s.range r) else s.range r' :=
  Function.update_apply _ _ _ _

theorem range_allocRange (x : Range) (r' : RangeId) :
    (s.allocRange x).range r' = if r' = s.nextRange then x else s.range r' :=
  Function.update_apply _ _ _ _

@[simp] theorem range_modifyBlock (f : Block → Block) : (s.modifyBlock b f).range = s.range := rfl

@[simp] theorem block_modifyRange (f : Range → Range) : (s.modifyRange r f).block = s.block := rfl

@[simp] theorem block_allocRange (x : Range) : (s.allocRange x).block = s.block := rfl

end Fields

theorem insertAfter_split {r new : RangeId} {l₁ l₂ : List RangeId} (h : ∀ r' ∈ l₁, r' ≠ r) :
    insertAfter r new (l₁ ++ [r] ++ l₂) = l₁ ++ [r, new] ++ l₂ := by
  induction l₁ with
  | nil => simp [insertAfter]
  | cons x l₁ ih =>
      have hx : x ≠ r := h x (by simp)
      simpa [insertAfter, hx] using ih fun r' hr' => h r' (by simp [hr'])

theorem erase_split {r : RangeId} {l₁ l₂ : List RangeId} (h : ∀ r' ∈ l₁, r' ≠ r) :
    (l₁ ++ [r] ++ l₂).erase r = l₁ ++ [] ++ l₂ := by
  have hr : r ∉ l₁ := fun hr => h r hr rfl
  simp [List.erase_append_right _ hr]

variable {s : Store} {b : BlockId} {r : RangeId} {lo hi : Int}

-- A change of block `b` and of one of its ranges.
theorem modify_only (f : Block → Block) {g : Range → Range} (hr : (s.range r).block = b)
    (hg : (g (s.range r)).block = (s.range r).block) :
    Only b s ((s.modifyBlock b f).modifyRange r g) := by
  refine ⟨rfl, rfl, rfl, le_rfl, fun b' hb => ?_, fun r' _ hb => ?_, fun r' _ => ?_,
    fun _ h h' => absurd h' (Nat.not_lt.mpr h)⟩
  · rw [block_modifyRange, block_modifyBlock, if_neg hb]
  · rw [range_modifyRange, if_neg (by rintro rfl; exact hb hr)]
    rfl
  · rw [range_modifyRange]
    split
    · next e => rw [e]; exact hg
    · rfl

theorem modifyBlock_only (s : Store) (b : BlockId) (f : Block → Block) :
    Only b s (s.modifyBlock b f) :=
  ⟨rfl, rfl, rfl, le_rfl, fun b' hb => by rw [block_modifyBlock, if_neg hb], fun _ _ _ => rfl,
    fun _ _ => rfl, fun _ h h' => absurd h' (Nat.not_lt.mpr h)⟩

theorem modifyRange_only {f : Range → Range} (hr : (s.range r).block = b)
    (hf : (f (s.range r)).block = (s.range r).block) : Only b s (s.modifyRange r f) := by
  refine ⟨rfl, rfl, rfl, le_rfl, fun _ _ => rfl, fun r' _ hb => ?_, fun r' _ => ?_,
    fun _ h h' => absurd h' (Nat.not_lt.mpr h)⟩
  · rw [range_modifyRange, if_neg (by rintro rfl; exact hb hr)]
  · rw [range_modifyRange]
    split
    · next e => rw [e]; exact hf
    · rfl

theorem splitRange_only (s : Store) (r : RangeId) (cutPos : Int) :
    Only (s.range r).block s (s.splitRange r cutPos) := by
  simp only [splitRange]
  split
  · have halloc : Only (s.range r).block s (s.allocRange
        { s.range r with rangeBegin := cutPos, nuploading := 0 }) := by
      refine ⟨rfl, rfl, rfl, Nat.le_succ _, fun _ _ => rfl, fun r' hr' _ => ?_, fun r' hr' => ?_,
        fun r' h₁ h₂ => ?_⟩
      · rw [range_allocRange, if_neg (Nat.ne_of_lt hr')]
      · rw [range_allocRange, if_neg (Nat.ne_of_lt hr')]
      · rw [range_allocRange, if_pos (Nat.le_antisymm (Nat.lt_succ_iff.mp h₂) h₁)]
    refine (halloc.trans (modifyRange_only ?_ ?_)).trans (modifyBlock_only _ _ _)
    · rw [range_allocRange]; split <;> rfl
    · rfl
  · exact .refl _ s

theorem advanceRange_only (s : Store) (r : RangeId) (newBegin : Int) :
    Only (s.range r).block s (s.advanceRange r newBegin) := by
  unfold advanceRange
  exact modify_only _ rfl rfl

theorem mergeRanges_only (s : Store) (r r2 : RangeId) :
    Only (s.range r).block s (s.mergeRanges r r2) := by
  unfold mergeRanges
  exact modify_only _ rfl rfl

theorem releaseRange_only (s : Store) (r : RangeId) :
    Only (s.range r).block s (s.releaseRange r) := by
  have h := modifyRange_only (s := s) (r := r)
    (f := fun x => { x with nuploading := x.nuploading - 1 }) rfl rfl
  have hb : ((s.modifyRange r fun x => { x with nuploading := x.nuploading - 1 }).range r).block =
      (s.range r).block := by rw [range_modifyRange, if_pos rfl]
  simp only [releaseRange]
  split
  · exact h.trans (hb ▸ modifyBlock_only _ _ _)
  · exact h

theorem addUploader_only (s : Store) (r : RangeId) :
    Only (s.range r).block s (s.addUploader r) := by
  simp only [addUploader]
  split
  · exact modify_only _ rfl rfl
  · exact modifyRange_only rfl rfl

theorem splitRange_exchange (h : s.Sound b lo hi) (hr : r ∈ s.ranges b) {cutPos : Int}
    (hcut : (s.range r).rangeBegin < cutPos ∧ cutPos < (s.range r).rangeEnd) :
    Exchange b [r] [r, s.nextRange] s (s.splitRange r cutPos) := by
  obtain ⟨hb, hlt⟩ := h.owned r hr
  obtain ⟨l₁, l₂, hl, hne⟩ := h.split hr
  have honly := s.splitRange_only r cutPos
  rw [hb] at honly
  have hblock : (s.splitRange r cutPos).block b =
      { s.block b with ranges := insertAfter r s.nextRange (s.block b).ranges } := by
    simp only [splitRange, if_pos hcut, hb, block_modifyBlock, if_true]
    rfl
  have hrange : ∀ r', (s.splitRange r cutPos).range r' =
      if r' = r then { s.range r with rangeEnd := cutPos }
      else if r' = s.nextRange then { s.range r with rangeBegin := cutPos, nuploading := 0 }
      else s.range r' := by
    intro r'
    simp only [splitRange, if_pos hcut, range_modifyBlock, range_modifyRange, range_allocRange,
      if_neg (Nat.ne_of_lt hlt)]
  have hr₁ := hrange r
  have hr₂ := hrange s.nextRange
  rw [if_pos rfl] at hr₁
  rw [if_neg (Nat.ne_of_gt hlt), if_pos rfl] at hr₂
  refine ⟨honly, by rw [hblock], by rw [hblock], by rw [hblock], ⟨l₁, l₂, hl, ?_, ?_⟩, ?_, ?_, ?_⟩
  · simp only [Store.ranges, hblock]
    rw [show (s.block b).ranges = l₁ ++ [r] ++ l₂ from hl]
    exact insertAfter_split fun r' hr' => hne r' (List.mem_append_left _ hr')
  · intro r' hr'
    have hmem : r' ∈ s.ranges b := by
      rw [hl]; simp only [List.mem_append] at hr' ⊢; tauto
    rw [hrange, if_neg (hne r' hr'), if_neg (Nat.ne_of_lt (h.owned r' hmem).2)]
  · have hn : (s.splitRange r cutPos).nextRange = s.nextRange + 1 := by
      simp only [splitRange, if_pos hcut]; rfl
    intro r' hr'
    rw [hn]
    rcases List.mem_cons.mp hr' with rfl | hr'
    · rw [hr₁]; exact ⟨hb, Nat.lt_succ_of_lt hlt⟩
    · rw [List.mem_singleton.mp hr', hr₂]; exact ⟨hb, Nat.lt_succ_self _⟩
  · rintro lo hi ⟨h₁, h₂, h₃⟩
    simp only [spans_cons, spans_nil, hr₁, hr₂]
    exact ⟨h₁, hcut.1, le_rfl, hcut.2, h₃⟩
  · simp only [spans_cons, spans_nil, hr₁, hr₂, hblock, total_cons, total_nil, Range.span]
    omega

-- A change of the record of `b` and of the record of one of its ranges.
theorem exchange_one (h : s.Sound b lo hi) (hr : r ∈ s.ranges b) {s' : Store}
    (honly : Only b s s') (hnum : (s'.block b).num = (s.block b).num)
    (hbegin : (s'.block b).blockBegin = (s.block b).blockBegin)
    (hend : (s'.block b).blockEnd = (s.block b).blockEnd)
    (hranges : s'.ranges b = s.ranges b)
    (hrange : ∀ r' ≠ r, r' < s.nextRange → s'.range r' = s.range r')
    (hspan : (s.range r).rangeBegin ≤ (s'.range r).rangeBegin ∧
      (s'.range r).rangeBegin < (s'.range r).rangeEnd ∧
      (s'.range r).rangeEnd = (s.range r).rangeEnd)
    (hrem : (s'.block b).remaining - (s.block b).remaining =
      (s.range r).rangeBegin - (s'.range r).rangeBegin) : Exchange b [r] [r] s s' := by
  obtain ⟨hb, hlt⟩ := h.owned r hr
  obtain ⟨l₁, l₂, hl, hne⟩ := h.split hr
  refine ⟨honly, hnum, hbegin, hend, ⟨l₁, l₂, hl, hranges.trans hl, fun r' hr' => ?_⟩, ?_, ?_, ?_⟩
  · have hmem : r' ∈ s.ranges b := by
      rw [hl]; simp only [List.mem_append] at hr' ⊢; tauto
    exact hrange r' (hne r' hr') (h.owned r' hmem).2
  · intro r' hr'
    rw [List.mem_singleton.mp hr', honly.owner r hlt]
    exact ⟨hb, hlt.trans_le honly.nextRange⟩
  · rintro lo hi ⟨h₁, h₂, h₃⟩
    refine ⟨h₁.trans hspan.1, hspan.2.1, ?_⟩
    show (s'.range r).rangeEnd ≤ hi
    rw [hspan.2.2]
    exact h₃
  · simp only [spans_cons, spans_nil, total_cons, total_nil, Range.span]
    omega

theorem advanceRange_exchange (h : s.Sound b lo hi) (hr : r ∈ s.ranges b) {newBegin : Int}
    (hle : (s.range r).rangeBegin ≤ newBegin) (hlt : newBegin < (s.range r).rangeEnd) :
    Exchange b [r] [r] s (s.advanceRange r newBegin) := by
  obtain ⟨hb, -⟩ := h.owned r hr
  have hblock : (s.advanceRange r newBegin).block b = { s.block b with
      remaining := (s.block b).remaining - (newBegin - (s.range r).rangeBegin)
      unselectedRemaining := if (s.range r).nuploading = 0 then
          (s.block b).unselectedRemaining - (newBegin - (s.range r).rangeBegin)
        else (s.block b).unselectedRemaining } := by
    simp only [advanceRange, block_modifyRange, hb, block_modifyBlock, if_true]
  have hrange : (s.advanceRange r newBegin).range r =
      { s.range r with rangeBegin := newBegin } := by
    simp only [advanceRange, range_modifyRange, if_true]
    rfl
  refine exchange_one h hr (hb ▸ s.advanceRange_only r newBegin) (by rw [hblock]) (by rw [hblock])
    (by rw [hblock]) (by simp only [Store.ranges, hblock]) (fun r' hr' _ => ?_) ?_ ?_
  · simp only [advanceRange, range_modifyRange, if_neg hr']
    rfl
  · rw [hrange]; exact ⟨hle, hlt, rfl⟩
  · rw [hblock, hrange]; dsimp only; omega

-- The range is received up to its end and leaves the list.
def finishRange (s : Store) (b : BlockId) (r : RangeId) : Store :=
  (s.advanceRange r (s.range r).rangeEnd).modifyBlock b fun x =>
    { x with ranges := x.ranges.erase r }

theorem finishRange_exchange (h : s.Sound b lo hi) (hr : r ∈ s.ranges b) :
    Exchange b [r] [] s (s.finishRange b r) := by
  obtain ⟨hb, -⟩ := h.owned r hr
  obtain ⟨l₁, l₂, hl, hne⟩ := h.split hr
  have hle := (h.of_mem hr).2.1.le
  have hblock : (s.finishRange b r).block b = { s.block b with
      ranges := (s.block b).ranges.erase r
      remaining := (s.block b).remaining - ((s.range r).rangeEnd - (s.range r).rangeBegin)
      unselectedRemaining := if (s.range r).nuploading = 0 then
          (s.block b).unselectedRemaining - ((s.range r).rangeEnd - (s.range r).rangeBegin)
        else (s.block b).unselectedRemaining } := by
    simp only [finishRange, advanceRange, block_modifyRange, hb, block_modifyBlock, if_true]
  refine ⟨(hb ▸ s.advanceRange_only r _).trans (modifyBlock_only _ _ _), by rw [hblock],
    by rw [hblock], by rw [hblock], ⟨l₁, l₂, hl, ?_, fun r' hr' => ?_⟩, by simp, ?_, ?_⟩
  · simp only [Store.ranges, hblock]
    rw [show (s.block b).ranges = l₁ ++ [r] ++ l₂ from hl]
    exact erase_split fun r' hr' => hne r' (List.mem_append_left _ hr')
  · simp only [finishRange, advanceRange, range_modifyBlock, range_modifyRange,
      if_neg (hne r' hr')]
  · rintro lo hi ⟨h₁, h₂, h₃⟩
    exact (h₁.trans h₂.le).trans h₃
  · rw [hblock]
    simp only [spans_cons, spans_nil, total_cons, total_nil, Range.span]
    omega

theorem nextIn_eq {r r2 : RangeId} : ∀ {l : List RangeId}, nextIn r l = some r2 →
    ∃ l₁ l₂, l = l₁ ++ [r, r2] ++ l₂
  | [], h => by simp [nextIn] at h
  | [x], h => by simp [nextIn] at h
  | x :: y :: l, h => by
      simp only [nextIn] at h
      split at h
      · next hx => exact ⟨[], l, by simp_all⟩
      · obtain ⟨l₁, l₂, hl⟩ := nextIn_eq h
        exact ⟨x :: l₁, l₂, by rw [hl]; rfl⟩

theorem mergeRanges_exchange (h : s.Sound b lo hi) {r2 : RangeId} {l₁ l₂ : List RangeId}
    (hl : s.ranges b = l₁ ++ [r, r2] ++ l₂)
    (hadj : (s.range r2).rangeBegin ≤ (s.range r).rangeEnd) :
    Exchange b [r, r2] [r] s (s.mergeRanges r r2) := by
  have hr : r ∈ s.ranges b := by simp [hl]
  obtain ⟨hb, hlt⟩ := h.owned r hr
  have hn := h.nodup
  rw [hl] at hn
  have hmid : ∀ r' ∈ l₁ ++ l₂, r' ≠ r ∧ r' ≠ r2 := by
    intro r' hr'
    simp only [List.nodup_append, List.nodup_cons, List.mem_cons, List.mem_append] at hn hr'
    refine ⟨fun e => ?_, fun e => ?_⟩ <;> subst e <;> rcases hr' with hr' | hr' <;> grind
  have hrr : r2 ≠ r := by
    intro e
    subst e
    simp [List.nodup_append] at hn
  have hchain := h.chain
  rw [hl, spans_append, spans_append] at hchain
  simp only [chain_append, spans_cons, spans_nil, Chain, Range.span] at hchain
  have hmid₂ : (s.range r).rangeEnd = (s.range r2).rangeBegin := by
    obtain ⟨_, ⟨_, _, hc⟩, _⟩ := hchain
    omega
  have hblock : (s.mergeRanges r r2).block b =
      { s.block b with ranges := (s.block b).ranges.erase r2 } := by
    simp only [mergeRanges, block_modifyRange, hb, block_modifyBlock, if_true]
  have hrange : ∀ r', (s.mergeRanges r r2).range r' =
      if r' = r then { s.range r with rangeEnd := (s.range r2).rangeEnd } else s.range r' := by
    intro r'
    simp only [mergeRanges, range_modifyRange, range_modifyBlock]
  have hr₁ := hrange r
  rw [if_pos rfl] at hr₁
  refine ⟨hb ▸ s.mergeRanges_only r r2, by rw [hblock], by rw [hblock], by rw [hblock],
    ⟨l₁, l₂, hl, ?_, fun r' hr' => ?_⟩, ?_, ?_, ?_⟩
  · simp only [Store.ranges, hblock]
    rw [show (s.block b).ranges = l₁ ++ [r, r2] ++ l₂ from hl]
    have hnot : r2 ∉ l₁ := fun hm => (hmid r2 (by simp [hm])).2 rfl
    simp [List.erase_append_right _ hnot, hrr.symm]
  · rw [hrange, if_neg (hmid r' hr').1]
  · intro r' hr'
    rw [List.mem_singleton.mp hr', hr₁]
    exact ⟨hb, hlt⟩
  · rintro lo hi ⟨h₁, h₂, h₃, h₄, h₅⟩
    simp only [spans_cons, spans_nil, hr₁]
    simp only [Range.span] at h₁ h₂ h₃ h₄ h₅ ⊢
    exact ⟨h₁, by omega, h₅⟩
  · simp only [spans_cons, spans_nil, hr₁, hblock, total_cons, total_nil, Range.span]
    omega

section Tidy

variable {c d : Prop} {i : Nat}

theorem unselectedSpans_one (x : Range) :
    total (unselectedSpans [x]) = if x.nuploading = 0 then x.rangeEnd - x.rangeBegin else 0 := by
  simp only [unselectedSpans, List.filter_cons, List.filter_nil]
  split <;> simp_all [Range.span]

theorem Tidy.advanceRange (h : s.Tidy c d i b) (hr : r ∈ s.ranges b) {newBegin : Int}
    (hle : (s.range r).rangeBegin ≤ newBegin) (hlt : newBegin < (s.range r).rangeEnd) :
    (s.advanceRange r newBegin).Tidy c d i b := by
  obtain ⟨hb, -⟩ := h.owned r hr
  refine (advanceRange_exchange h.toSound hr hle hlt).tidy h ?_ fun _ => ?_
  · have hranges : (s.advanceRange r newBegin).ranges b = s.ranges b := by
      simp only [Store.ranges, Store.advanceRange, block_modifyRange, hb, block_modifyBlock,
        if_true]
    rw [hranges]
    exact h.ranges_ne
  · simp only [List.map_cons, List.map_nil, unselectedSpans_one, Store.advanceRange,
      block_modifyRange, hb, block_modifyBlock, range_modifyRange, range_modifyBlock, if_true]
    split <;> omega

theorem Tidy.finishRange (h : s.Tidy c d i b) (hr : r ∈ s.ranges b) (hne : s.ranges b ≠ [r]) :
    (s.finishRange b r).Tidy c d i b := by
  obtain ⟨hb, -⟩ := h.owned r hr
  refine (finishRange_exchange h.toSound hr).tidy h ?_ fun _ => ?_
  · have hranges : (s.finishRange b r).ranges b = (s.ranges b).erase r := by
      simp only [Store.ranges, Store.finishRange, Store.advanceRange, block_modifyRange, hb,
        block_modifyBlock, if_true]
    rw [hranges]
    intro he
    obtain ⟨l₁, l₂, hl, hn⟩ := h.toSound.split hr
    rw [hl, erase_split fun r' hr' => hn r' (List.mem_append_left _ hr')] at he
    simp only [List.append_nil, List.append_eq_nil_iff] at he
    exact hne (by rw [hl, he.1, he.2]; rfl)
  · simp only [List.map_cons, List.map_nil, unselectedSpans_one, Store.finishRange,
      Store.advanceRange, block_modifyRange, hb, block_modifyBlock, if_true]
    simp only [unselectedSpans, List.filter_nil, List.map_nil, total_nil]
    split <;> omega

-- Cutting a selected range would leave its second half out of the sum.
theorem Tidy.splitRange (h : s.Tidy c d i b) (hr : r ∈ s.ranges b) (cutPos : Int)
    (hd : d → (s.range r).rangeBegin < cutPos → cutPos < (s.range r).rangeEnd →
      (s.range r).nuploading = 0) : (s.splitRange r cutPos).Tidy c d i b := by
  by_cases hcut : (s.range r).rangeBegin < cutPos ∧ cutPos < (s.range r).rangeEnd
  · obtain ⟨hb, hlt⟩ := h.owned r hr
    have hx := splitRange_exchange h.toSound hr hcut
    obtain ⟨l₁, l₂, -, hl', -⟩ := hx.ranges
    refine hx.tidy h (by rw [hl']; simp) fun hd' => ?_
    have hblock : ((s.splitRange r cutPos).block b).unselectedRemaining =
        (s.block b).unselectedRemaining := by
      simp only [Store.splitRange, if_pos hcut, hb, block_modifyBlock, if_true]
      rfl
    have hrange : ∀ r', (s.splitRange r cutPos).range r' =
        if r' = r then { s.range r with rangeEnd := cutPos }
        else if r' = s.nextRange then { s.range r with rangeBegin := cutPos, nuploading := 0 }
        else s.range r' := by
      intro r'
      simp only [Store.splitRange, if_pos hcut, range_modifyBlock, range_modifyRange,
        range_allocRange, if_neg (Nat.ne_of_lt hlt)]
    have h₂ : unselectedSpans ([r, s.nextRange].map (s.splitRange r cutPos).range) =
        unselectedSpans [{ s.range r with rangeEnd := cutPos }] ++
          unselectedSpans [{ s.range r with rangeBegin := cutPos, nuploading := 0 }] := by
      rw [← unselectedSpans_append]
      simp only [List.map_cons, List.map_nil, hrange, if_true, if_neg (Nat.ne_of_gt hlt)]
      rfl
    rw [hblock, h₂, total_append, unselectedSpans_one, unselectedSpans_one, List.map_cons,
      List.map_nil, unselectedSpans_one]
    simp only [hd hd' hcut.1 hcut.2, if_true]
    omega
  · rw [Store.splitRange]
    simp only [if_neg hcut]
    exact h

theorem Tidy.mergeRanges (h : s.Tidy c d i b) {r2 : RangeId} {l₁ l₂ : List RangeId}
    (hl : s.ranges b = l₁ ++ [r, r2] ++ l₂)
    (hadj : (s.range r2).rangeBegin ≤ (s.range r).rangeEnd)
    (hd : d → (s.range r).nuploading = 0 ∧ (s.range r2).nuploading = 0) :
    (s.mergeRanges r r2).Tidy c d i b := by
  have hx := mergeRanges_exchange h.toSound hl hadj
  obtain ⟨hb, -⟩ := h.owned r (by simp [hl])
  have hx' := hx.ranges
  obtain ⟨k₁, k₂, -, hl', -⟩ := hx'
  refine hx.tidy h (by rw [hl']; simp) fun hd' => ?_
  obtain ⟨h₁, h₂⟩ := hd hd'
  have hchain := h.chain
  rw [hl, spans_append, spans_append] at hchain
  simp only [chain_append, spans_cons, spans_nil, Chain, Range.span] at hchain
  have hmid : (s.range r).rangeEnd = (s.range r2).rangeBegin := by
    obtain ⟨_, ⟨_, _, hc⟩, _⟩ := hchain
    omega
  have hsplit : unselectedSpans ([r, r2].map s.range) =
      unselectedSpans [s.range r] ++ unselectedSpans [s.range r2] := by
    rw [← unselectedSpans_append]; rfl
  rw [hsplit, total_append, List.map_cons, List.map_nil, unselectedSpans_one, unselectedSpans_one,
    unselectedSpans_one]
  simp only [Store.mergeRanges, block_modifyRange, hb, block_modifyBlock, range_modifyRange,
    range_modifyBlock, if_true, h₁, h₂]
  omega

theorem Tidy.addUploader (h : s.Tidy c d i b) (hr : r ∈ s.ranges b) :
    (s.addUploader r).Tidy c d i b := by
  obtain ⟨hb, -⟩ := h.owned r hr
  have hblock : (s.addUploader r).block b = { s.block b with
      unselectedRemaining := if (s.range r).nuploading = 0 then
          (s.block b).unselectedRemaining - s.computeRangeSize r
        else (s.block b).unselectedRemaining } := by
    simp only [Store.addUploader, hb]
    split
    · simp only [block_modifyRange, block_modifyBlock, if_true]
    · rfl
  have hrange : ∀ r', (s.addUploader r).range r' =
      if r' = r then { s.range r with nuploading := (s.range r).nuploading + 1 }
      else s.range r' := by
    intro r'
    simp only [Store.addUploader]
    split <;> simp only [range_modifyRange, range_modifyBlock]
  have hr₁ := hrange r
  rw [if_pos rfl] at hr₁
  have hranges : (s.addUploader r).ranges b = s.ranges b := by simp only [Store.ranges, hblock]
  have hx := exchange_one h.toSound hr (hb ▸ s.addUploader_only r) (by rw [hblock])
    (by rw [hblock]) (by rw [hblock]) hranges (fun r' hr' _ => by rw [hrange, if_neg hr'])
    (by rw [hr₁]; exact ⟨le_rfl, (h.toSound.of_mem hr).2.1, rfl⟩)
    (by rw [hr₁, hblock]; dsimp only; omega)
  refine hx.tidy h (by rw [hranges]; exact h.ranges_ne) fun _ => ?_
  rw [hblock, List.map_cons, List.map_nil, List.map_cons, List.map_nil, unselectedSpans_one,
    unselectedSpans_one, hr₁]
  simp only [Nat.add_eq_zero_iff, Nat.one_ne_zero, and_false, if_false, computeRangeSize]
  split <;> omega

theorem Tidy.releaseRange (h : s.Tidy c d i b) (hr : r ∈ s.ranges b)
    (hd : d → 0 < (s.range r).nuploading) : (s.releaseRange r).Tidy c d i b := by
  obtain ⟨hb, -⟩ := h.owned r hr
  have hrange : ∀ r', (s.releaseRange r).range r' =
      if r' = r then { s.range r with nuploading := (s.range r).nuploading - 1 }
      else s.range r' := by
    intro r'
    simp only [Store.releaseRange]
    split <;> simp only [range_modifyRange, range_modifyBlock]
  have hblock : (s.releaseRange r).block b = { s.block b with
      unselectedRemaining := if (s.range r).nuploading - 1 = 0 then
          (s.block b).unselectedRemaining + s.computeRangeSize r
        else (s.block b).unselectedRemaining } := by
    simp only [Store.releaseRange, range_modifyRange, if_true, hb]
    split
    · simp only [block_modifyBlock, block_modifyRange, if_true, computeRangeSize,
        range_modifyRange]
    · rfl
  have hr₁ := hrange r
  rw [if_pos rfl] at hr₁
  have hranges : (s.releaseRange r).ranges b = s.ranges b := by simp only [Store.ranges, hblock]
  have hx := exchange_one h.toSound hr (hb ▸ s.releaseRange_only r) (by rw [hblock])
    (by rw [hblock]) (by rw [hblock]) hranges (fun r' hr' _ => by rw [hrange, if_neg hr'])
    (by rw [hr₁]; exact ⟨le_rfl, (h.toSound.of_mem hr).2.1, rfl⟩)
    (by rw [hr₁, hblock]; dsimp only; omega)
  refine hx.tidy h (by rw [hranges]; exact h.ranges_ne) fun hd' => ?_
  have := hd hd'
  rw [hblock, List.map_cons, List.map_nil, List.map_cons, List.map_nil, unselectedSpans_one,
    unselectedSpans_one, hr₁]
  simp only [computeRangeSize, if_neg (Nat.ne_of_gt this)]
  split <;> omega

end Tidy

end Store

end Mldonkey.Swarming
