import Mldonkey.Swarming.Ranges.Whole

namespace Mldonkey.Swarming

open HalfOpen

namespace Store

variable {c d : Prop} {s s' : Store} {b : BlockId} {r : RangeId} {i : Nat}

theorem spans_eq_of_owned {l : List RangeId} (h : ∀ r ∈ l, (s.range r).block = b ∧ r < s.nextRange)
    (hs : ∀ r < s.nextRange, (s.range r).block = b → s'.range r = s.range r) :
    s'.spans l = s.spans l := spans_congr fun r hr => hs r (h r hr).2 (h r hr).1

theorem Only.missingIn (h : Books c d s) (ho : Only b s s') {v : BlockV}
    (hv : v ≠ .partialBlock b) (y : Int) : s'.MissingIn v y ↔ s.MissingIn v y := by
  unfold MissingIn
  cases v with
  | emptyBlock => rfl
  | completeBlock => rfl
  | verifiedBlock => rfl
  | partialBlock b' =>
      have hb : b' ≠ b := fun e => hv (by rw [e])
      dsimp only
      rw [ho.ranges hb, spans_eq_of_owned (h.owned b') (ho.sameBlock hb).range]

theorem Only.local_at (h : Books c d s) (ho : Only b s s') (hi : i < s.blocks.length)
    (hb : s.blockAt i = .partialBlock b) : Local i s s' := by
  refine ⟨ho.layout, fun j hj hne y => ?_⟩
  rw [ho.blockAt]
  exact ho.missingIn h (fun e => hne (h.current_unique hj hi e hb)) y

theorem Only.missing_iff (h : Books c d s) (ho : Only b s s') (hb : ¬ s.Current b) (y : Int) :
    s'.Missing y ↔ s.Missing y := by
  simp only [Missing, ho.blockAt, ho.blocks, computeBlockBegin_congr ho.layout,
    computeBlockEnd_congr ho.layout]
  refine exists_congr fun j => and_congr_right fun hj => and_congr_right fun _ =>
    and_congr_right fun _ => ?_
  exact ho.missingIn h (fun e => hb ⟨j, hj, e⟩) y

-- The ranges of a block in use lose some of the bytes they cover.
theorem Only.missing_current (h : Books c d s) (ho : Only b s s')
    (hi : i < s.blocks.length) (hb : s.blockAt i = .partialBlock b) {p : Int → Prop}
    (hp : ∀ y, ¬ p y → s.computeBlockBegin i ≤ y ∧ y < s.computeBlockEnd i)
    (hc : ∀ y, Covers (s'.spans (s'.ranges b)) y ↔ Covers (s.spans (s.ranges b)) y ∧ p y) (y : Int) :
    s'.Missing y ↔ s.Missing y ∧ p y := by
  refine (ho.local_at h hi hb).missing h.placed hi (fun y _ _ => ?_) hp y
  rw [ho.blockAt, hb]
  exact hc y

theorem Books.missing_splitRange (h : Books c d s) (hr : r ∈ s.ranges b) (cutPos y : Int) :
    (s.splitRange r cutPos).Missing y ↔ s.Missing y := by
  by_cases hcut : (s.range r).rangeBegin < cutPos ∧ cutPos < (s.range r).rangeEnd
  · obtain ⟨hrb, hlt⟩ := h.owned b r hr
    have ho := s.splitRange_only r cutPos
    rw [hrb] at ho
    by_cases hcur : s.Current b
    · obtain ⟨i, hi, hb⟩ := hcur
      have hs := (h.tidy i hi b hb).toSound
      have := ho.missing_current h hi hb (p := fun _ => True) (by simp) (fun y => ?_) y
      · simpa only [and_true] using this
      · refine (splitRange_exchange hs hr hcut).covers hs ?_ (by simp)
        simp only [spans_cons, spans_nil, range_splitRange hlt hcut, if_true,
          if_neg (Nat.ne_of_gt hlt), covers_cons, covers_nil, Range.span, or_false, and_true]
        omega
    · exact ho.missing_iff h hcur y
  · rw [splitRange_of_not hcut]

theorem Books.missing_advanceRange (h : Books c d s) (hr : r ∈ s.ranges b)
    (hi : i < s.blocks.length) (hb : s.blockAt i = .partialBlock b) {newBegin : Int}
    (h₁ : (s.range r).rangeBegin ≤ newBegin) (h₂ : newBegin ≤ (s.range r).rangeEnd) (y : Int) :
    (s.advanceRange r newBegin).Missing y ↔
      s.Missing y ∧ ¬ ((s.range r).rangeBegin ≤ y ∧ y < newBegin) := by
  obtain ⟨hrb, hlt⟩ := h.owned b r hr
  have hs := (h.tidy i hi b hb).toSound
  have ho := s.advanceRange_only r newBegin
  rw [hrb] at ho
  have hmem := hs.of_mem hr
  refine ho.missing_current h hi hb
    (p := fun y => ¬ ((s.range r).rangeBegin ≤ y ∧ y < newBegin))
    (fun y hy => by omega) (fun y => ?_) y
  obtain ⟨l₁, l₂, hl, hne⟩ := hs.split hr
  have hchain := hs.chain
  rw [hl, spans_append, spans_append] at hchain
  rw [ranges_advanceRange, hl]
  have hframe : ∀ l, (∀ r' ∈ l, r' ≠ r) → (s.advanceRange r newBegin).spans l = s.spans l :=
    fun l hl => spans_congr fun r' hr' => by rw [range_advanceRange, if_neg (hl r' hr')]
  simp only [spans_append, covers_append, hframe l₁ fun r' hr' => hne r' (List.mem_append_left _ hr'),
    hframe l₂ fun r' hr' => hne r' (List.mem_append_right _ hr'), spans_cons, spans_nil,
    covers_cons, covers_nil, range_advanceRange, if_true, or_false, Range.span]
  have hout := hchain.not_covers_outside (x := y)
  simp only [covers_append, spans_cons, spans_nil, covers_cons, covers_nil, or_false,
    Range.span] at hout
  by_cases hy : (s.range r).rangeBegin ≤ y ∧ y < (s.range r).rangeEnd
  · have := hout hy
    push Not at this
    simp only [this, or_false, false_or, hy, true_and, and_true]
    omega
  · have h₁ : ¬ (newBegin ≤ y ∧ y < (s.range r).rangeEnd) := by omega
    have h₂ : ¬ ((s.range r).rangeBegin ≤ y ∧ y < newBegin) := by omega
    simp only [hy, h₁, h₂, not_false_eq_true, and_true]

theorem Books.missing_finishRange (h : Books c d s) (hr : r ∈ s.ranges b)
    (hi : i < s.blocks.length) (hb : s.blockAt i = .partialBlock b) (y : Int) :
    (s.finishRange b r).Missing y ↔
      s.Missing y ∧ ¬ ((s.range r).rangeBegin ≤ y ∧ y < (s.range r).rangeEnd) := by
  have hs := (h.tidy i hi b hb).toSound
  have hx := finishRange_exchange hs hr
  have hmem := hs.of_mem hr
  refine hx.toOnly.missing_current h hi hb
    (p := fun y => ¬ ((s.range r).rangeBegin ≤ y ∧ y < (s.range r).rangeEnd))
    (fun y hy => by omega) (fun y => ?_) y
  refine hx.covers hs ?_ fun hy => ?_
  · simp only [spans_nil, covers_nil, spans_cons, covers_cons, Range.span, or_false]
    tauto
  · simp only [spans_cons, spans_nil, covers_cons, covers_nil, Range.span, or_false]
    omega

-- Whatever was missing in a block is present once it is complete.
theorem Books.missing_completeAt (h : Books c d s) (hi : i < s.blocks.length) (y : Int) :
    (s.completeAt i).Missing y ↔
      s.Missing y ∧ ¬ (s.computeBlockBegin i ≤ y ∧ y < s.computeBlockEnd i) := by
  have hwhole : ∀ s' : Store, Local i s s' → s'.blocks.length = s.blocks.length →
      ((s'.setBlockAt i .completeBlock).Missing y ↔
        s.Missing y ∧ ¬ (s.computeBlockBegin i ≤ y ∧ y < s.computeBlockEnd i)) := by
    intro s' hl hlen
    have hl' : Local i s (s'.setBlockAt i .completeBlock) := by
      refine ⟨(layout_setBlockAt s' i _).trans hl.layout, fun j hj hne z => ?_⟩
      rw [blockAt_setBlockAt, if_neg fun e => hne e.1, ← hl.other j hj hne z]
      rfl
    refine hl'.missing h.placed hi
      (p := fun y => ¬ (s.computeBlockBegin i ≤ y ∧ y < s.computeBlockEnd i))
      (fun z h₁ h₂ => ?_) (fun z hz => by tauto) y
    rw [blockAt_setBlockAt, if_pos ⟨rfl, hlen ▸ hi⟩]
    exact iff_of_false (fun h => h) fun h => h.2 ⟨h₁, h₂⟩
  have hdone : (∀ z, ¬ s.MissingIn (s.blockAt i) z) → (s.Missing y ↔
      s.Missing y ∧ ¬ (s.computeBlockBegin i ≤ y ∧ y < s.computeBlockEnd i)) := by
    intro hn
    refine ⟨fun hm => ⟨hm, fun hy => ?_⟩, fun h => h.1⟩
    exact hn y ((h.placed.missing_iff hi hy).mp hm)
  unfold Store.completeAt
  split
  · next hb => exact hdone fun z => by simp [MissingIn, hb]
  · next hb => exact hdone fun z => by simp [MissingIn, hb]
  · exact hwhole s ⟨rfl, fun _ _ _ _ => Iff.rfl⟩ rfl
  · next b hb =>
      have howned := fun r hr => (h.owned b r hr).1
      have ho := closeRanges_only howned
      exact hwhole _ (ho.local_at h hi hb) (by rw [ho.blocks])

-- A block that is reset misses all its bytes.
theorem Placed.missing_reset (h : s.Placed) (hi : i < s.blocks.length)
    (hb : s.blockAt i = .completeBlock) (y : Int) :
    s.Missing y ↔ (s.setBlockAt i .emptyBlock).Missing y ∧
      ¬ (s.computeBlockBegin i ≤ y ∧ y < s.computeBlockEnd i) := by
  have hl := layout_setBlockAt s i .emptyBlock
  have hlen : (s.setBlockAt i .emptyBlock).blocks.length = s.blocks.length := List.length_set
  have hlocal : Local i (s.setBlockAt i .emptyBlock) s := by
    refine ⟨hl.symm, fun j hj hne z => ?_⟩
    rw [blockAt_setBlockAt, if_neg fun e => hne e.1]
    rfl
  have := hlocal.missing (h.congr hl) (hlen ▸ hi)
    (p := fun y => ¬ (s.computeBlockBegin i ≤ y ∧ y < s.computeBlockEnd i)) ?_ ?_ y
  · exact this
  · intro z h₁ h₂
    rw [computeBlockBegin_congr hl] at h₁
    rw [computeBlockEnd_congr hl] at h₂
    rw [hb]
    exact iff_of_false (fun h => h) fun h => h.2 ⟨h₁, h₂⟩
  · intro z hz
    rw [computeBlockBegin_congr hl, computeBlockEnd_congr hl]
    tauto

theorem Books.missing_addBlock (h : Books c d s) (hi : i < s.blocks.length)
    (hb : s.blockAt i = .emptyBlock) (y : Int) : (s.addBlock i).Missing y ↔ s.Missing y := by
  have hl := layout_addBlock s i
  have hlocal : Local i s (s.addBlock i) := by
    refine ⟨hl, fun j hj hne z => ?_⟩
    rw [blockAt_addBlock, if_neg fun e => hne e.1]
    cases hbj : s.blockAt j with
    | emptyBlock => rfl
    | completeBlock => rfl
    | verifiedBlock => rfl
    | partialBlock b =>
        have hs := sameBlock_addBlock s i (h.tidy j hj b hbj).lt
        simp only [MissingIn]
        rw [hs.ranges, spans_eq_of_owned (h.owned b) hs.range]
  have := hlocal.missing h.placed hi (p := fun _ => True) (fun z h₁ h₂ => ?_) (by simp) y
  · simpa only [and_true] using this
  · rw [blockAt_addBlock, if_pos ⟨rfl, hi⟩, hb]
    simp only [MissingIn, ranges_addBlock, if_true, spans_cons, spans_nil, range_addBlock,
      covers_cons, covers_nil, Range.span, and_true, or_false, iff_true]
    exact ⟨h₁, h₂⟩

-- A block without missing bytes takes another state of this kind.
theorem missing_done {v : BlockV} (hb : s.blockAt i = .completeBlock ∨ s.blockAt i = .verifiedBlock)
    (hv : v = .completeBlock ∨ v = .verifiedBlock) (y : Int) :
    (s.setBlockAt i v).Missing y ↔ s.Missing y := by
  have hl := layout_setBlockAt s i v
  have hlen : (s.setBlockAt i v).blocks.length = s.blocks.length := List.length_set
  have hnone : ∀ v : BlockV, v = .completeBlock ∨ v = .verifiedBlock → ¬ s.MissingIn v y := by
    rintro v (rfl | rfl) <;> exact fun h => h
  simp only [Missing, hlen, computeBlockBegin_congr hl, computeBlockEnd_congr hl]
  refine exists_congr fun j => and_congr_right fun _ => and_congr_right fun _ =>
    and_congr_right fun _ => ?_
  rw [blockAt_setBlockAt]
  split
  · next e => rw [e.1]; exact iff_of_false (hnone v hv) (hnone _ hb)
  · rfl

theorem modifyBlock_self {f : Block → Block} (h : f (s.block b) = s.block b) :
    s.modifyBlock b f = s := by
  simp only [modifyBlock, h, Function.update_eq_self]

theorem modifyRange_self {f : Range → Range} (h : f (s.range r) = s.range r) :
    s.modifyRange r f = s := by
  simp only [modifyRange, h, Function.update_eq_self]

theorem advanceRange_end (hr : (s.range r).block = b) :
    s.advanceRange r (s.range r).rangeEnd = s.closeRange b r := by
  subst hr
  rfl

theorem closeRange_closeRange : (s.closeRange b r).closeRange b r = s.closeRange b r := by
  have hsize : (s.closeRange b r).computeRangeSize r = 0 := by
    simp only [computeRangeSize, closeRange, range_modifyRange, if_true]
    omega
  rw [closeRange.eq_1 (s.closeRange b r), hsize]
  simp only [sub_zero, ite_self]
  rw [modifyBlock_self rfl, modifyRange_self]
  simp only [closeRange, range_modifyRange, if_true]

-- Receiving the last bytes of a block and closing it is closing it.
theorem completeAt_advanceRange (hr : (s.range r).block = b) (hb : s.blockAt i = .partialBlock b)
    (hl : s.ranges b = [r]) :
    (s.advanceRange r (s.range r).rangeEnd).completeAt i = s.completeAt i := by
  have hranges := ranges_advanceRange (s := s) (r := r) (s.range r).rangeEnd b
  rw [advanceRange_end hr] at hranges ⊢
  have hb' : (s.closeRange b r).blockAt i = .partialBlock b := hb
  simp only [completeAt, hb, hb', closeRanges, hranges, hl, List.foldl_cons, List.foldl_nil,
    closeRange_closeRange]

end Store

end Mldonkey.Swarming
