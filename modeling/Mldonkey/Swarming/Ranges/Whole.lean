import Mldonkey.Swarming.Ranges.Evolves

namespace Mldonkey.Swarming

open HalfOpen

namespace Store

variable {c d : Prop} {s s' : Store} {b : BlockId} {r : RangeId} {i : Nat}

theorem layout_setBlockAt (s : Store) (i : Nat) (v : BlockV) :
    (s.setBlockAt i v).layout = s.layout := by
  simp [layout, setBlockAt]

-- A block takes a state in which it has no ranges.
def IsWhole (v : BlockV) : Prop := ∀ b, v ≠ .partialBlock b

theorem current_setBlockAt_whole {v : BlockV} (hv : IsWhole v) (b : BlockId) :
    (s.setBlockAt i v).Current b ↔
      ∃ j < s.blocks.length, j ≠ i ∧ s.blockAt j = .partialBlock b := by
  have hlen : (s.setBlockAt i v).blocks.length = s.blocks.length := List.length_set
  simp only [Current, hlen, blockAt_setBlockAt]
  refine exists_congr fun j => and_congr_right fun hj => ?_
  by_cases hji : j = i
  · subst hji
    simp [hj, hv b]
  · simp [hji]

theorem Books.setBlockAt (h : Books c d s) {v : BlockV} (hv : IsWhole v) :
    Books c d (s.setBlockAt i v) := by
  have hl := layout_setBlockAt s i v
  have hlen : (s.setBlockAt i v).blocks.length = s.blocks.length := List.length_set
  refine ⟨h.placed.congr hl, h.owned, h.owner_lt, fun j hj b hb => ?_⟩
  rw [hlen] at hj
  rw [blockAt_setBlockAt] at hb
  split at hb
  · exact absurd hb (hv b)
  · exact (h.tidy j hj b hb).frame hl ⟨le_rfl, le_rfl, rfl, fun _ _ _ => rfl⟩

theorem Evolves.setBlockAt (hi : ∀ b, s.blockAt i ≠ .partialBlock b) {v : BlockV}
    (hv : IsWhole v) : Evolves s (s.setBlockAt i v) := by
  have hc : ∀ b, (s.setBlockAt i v).Current b ↔ s.Current b := by
    intro b
    rw [current_setBlockAt_whole hv]
    refine exists_congr fun j => and_congr_right fun _ => ?_
    exact ⟨fun h => h.2, fun h => ⟨fun e => hi b (e ▸ h), h⟩⟩
  refine ⟨layout_setBlockAt s i v, le_rfl, le_rfl, fun _ _ => rfl, fun _ _ => rfl,
    fun r h h' => absurd h' (Nat.not_lt.mpr h), fun r _ hk => ?_, fun r _ _ hk => ?_,
    fun b _ hk => ?_, fun _ _ => ⟨le_rfl, le_rfl⟩, fun b hb r hr _ => ⟨(hc b).mp hb, hr⟩⟩
  · exact hk.imp_right fun h h' => h ((hc _).mp h')
  · exact hk.imp_right (hc _).mpr
  · exact hk.imp_left (hc _).mpr

-- All ranges of a block are closed and lose their links.
def closeRanges (s : Store) (b : BlockId) : Store :=
  ((s.ranges b).foldl (fun s r => s.closeRange b r) s).modifyBlock b fun x =>
    { x with ranges := x.ranges.take 1 }

theorem foldl_closeRange (b : BlockId) : ∀ (l : List RangeId) {s : Store},
    (∀ r ∈ l, (s.range r).block = b) →
    let s' := l.foldl (fun s r => s.closeRange b r) s
    Only b s s' ∧ s'.nextRange = s.nextRange ∧ s'.ranges b = s.ranges b ∧
      (s'.block b).num = (s.block b).num ∧ ∀ r, s'.range r =
        if r ∈ l then { s.range r with rangeBegin := (s.range r).rangeEnd } else s.range r
  | [], s, _ => ⟨.refl b s, rfl, rfl, rfl, by simp⟩
  | r :: l, s, h => by
      have hrange : ∀ r', (s.closeRange b r).range r' = if r' = r then
          { s.range r with rangeBegin := (s.range r).rangeEnd } else s.range r' := fun r' => by
        simp only [closeRange, range_modifyRange, range_modifyBlock]
      have ho : Only b s (s.closeRange b r) := by
        unfold closeRange
        exact modify_only _ (h r (by simp)) rfl
      have hb : ∀ r' ∈ l, ((s.closeRange b r).range r').block = b := fun r' hr' => by
        rw [hrange]
        split
        · exact h r (by simp)
        · exact h r' (by simp [hr'])
      obtain ⟨h₁, h₂, h₃, h₄, h₅⟩ := foldl_closeRange b l hb
      refine ⟨ho.trans h₁, h₂, h₃.trans ?_, h₄.trans ?_, fun r' => ?_⟩
      · simp only [Store.ranges, closeRange, block_modifyRange, block_modifyBlock, if_true]
      · simp only [closeRange, block_modifyRange, block_modifyBlock, if_true]
      · rw [List.foldl_cons, h₅, hrange]
        by_cases e : r' = r
        · subst e
          simp
        · simp [e]

theorem range_closeRanges (howned : ∀ r ∈ s.ranges b, (s.range r).block = b) (r : RangeId) :
    (s.closeRanges b).range r = if r ∈ s.ranges b then
      { s.range r with rangeBegin := (s.range r).rangeEnd } else s.range r :=
  (foldl_closeRange b (s.ranges b) howned).2.2.2.2 r

theorem closeRanges_only (howned : ∀ r ∈ s.ranges b, (s.range r).block = b) :
    Only b s (s.closeRanges b) :=
  (foldl_closeRange b (s.ranges b) howned).1.trans (modifyBlock_only _ _ _)

theorem ranges_closeRanges (howned : ∀ r ∈ s.ranges b, (s.range r).block = b) :
    (s.closeRanges b).ranges b = (s.ranges b).take 1 := by
  have h := (foldl_closeRange b (s.ranges b) howned).2.2.1
  simp only [Store.ranges, closeRanges, block_modifyBlock, if_true] at h ⊢
  rw [h]

theorem blocks_closeRanges (s : Store) (b : BlockId) : (s.closeRanges b).blocks = s.blocks := by
  have hf : ∀ (l : List RangeId) (s : Store),
      (l.foldl (fun s r => s.closeRange b r) s).blocks = s.blocks := by
    intro l
    induction l with
    | nil => exact fun _ => rfl
    | cons r l ih => exact fun s => (ih _).trans rfl
  exact hf _ s

-- What set_completed_block does to the blocks.
def completeAt (s : Store) (i : Nat) : Store :=
  match s.blockAt i with
  | .completeBlock | .verifiedBlock => s
  | .emptyBlock => s.setBlockAt i .completeBlock
  | .partialBlock b => (s.closeRanges b).setBlockAt i .completeBlock

theorem blockAt_completeAt (s : Store) (i j : Nat) : (s.completeAt i).blockAt j =
    if j = i ∧ i < s.blocks.length ∧ s.blockAt i ≠ .verifiedBlock then .completeBlock
    else s.blockAt j := by
  have hv := fun v (s' : Store) (h : s'.blocks = s.blocks) (hv : s.blockAt i ≠ .verifiedBlock) =>
    show (s'.setBlockAt i v).blockAt j = if j = i ∧ i < s.blocks.length ∧
        s.blockAt i ≠ .verifiedBlock then v else s.blockAt j by
      rw [blockAt_setBlockAt, h]
      simp only [Store.blockAt, h] at hv ⊢
      simp only [hv, ne_eq, not_false_eq_true, and_true]
  unfold completeAt
  split
  · next h =>
      split
      · next e => rw [e.1, h]
      · rfl
  · next h => simp [h]
  · next h => exact hv _ s rfl (by simp [h])
  · next b h => exact hv _ _ (blocks_closeRanges s b) (by simp [h])

theorem isWhole_empty : IsWhole .emptyBlock := fun _ h => nomatch h

theorem isWhole_complete : IsWhole .completeBlock := fun _ h => nomatch h

theorem isWhole_verified : IsWhole .verifiedBlock := fun _ h => nomatch h

-- The ranges of the closed block are void, but it is no longer one of s_blocks.
theorem Books.completeAt (h : Books c d s) (hi : i < s.blocks.length) :
    Books c d (s.completeAt i) := by
  unfold Store.completeAt
  split
  · exact h
  · exact h
  · exact h.setBlockAt isWhole_complete
  · next b hb =>
      have howned := fun r hr => (h.owned b r hr).1
      have ho := closeRanges_only howned
      have hl := layout_setBlockAt (s.closeRanges b) i .completeBlock
      have hlen : ((s.closeRanges b).setBlockAt i .completeBlock).blocks.length =
          s.blocks.length := by rw [← ho.blocks]; exact List.length_set
      refine ⟨h.placed.congr (hl.trans ho.layout), fun b' r hr => ?_, fun r hr => ?_,
        fun j hj b' hb' => ?_⟩
      · have hr' : r ∈ (s.closeRanges b).ranges b' := hr
        show ((s.closeRanges b).range r).block = b' ∧ r < (s.closeRanges b).nextRange
        have hmem : r ∈ s.ranges b' := by
          by_cases e : b' = b
          · rw [e, ranges_closeRanges howned] at hr'
            rw [e]
            exact List.mem_of_mem_take hr'
          · rwa [ho.ranges e] at hr'
        obtain ⟨h₁, h₂⟩ := h.owned b' r hmem
        rw [ho.owner r h₂]
        exact ⟨h₁, h₂.trans_le ho.nextRange⟩
      · have hn : (s.closeRanges b).nextRange = s.nextRange :=
          (foldl_closeRange b (s.ranges b) howned).2.1
        have hr' : r < s.nextRange := hn ▸ hr
        show ((s.closeRanges b).range r).block < (s.closeRanges b).nextBlock
        rw [ho.owner r hr', ho.nextBlock]
        exact h.owner_lt r hr'
      · rw [hlen] at hj
        rw [blockAt_setBlockAt, ho.blockAt, ho.blocks] at hb'
        split at hb'
        · exact nomatch hb'
        · next hn =>
            have hne : b' ≠ b := by
              rintro rfl
              exact hn ⟨h.current_unique hj hi hb' hb, hi⟩
            exact ((h.tidy j hj b' hb').frame ho.layout (ho.sameBlock hne)).frame hl
              ⟨le_rfl, le_rfl, rfl, fun _ _ _ => rfl⟩

theorem Books.ordered (h : Books c d s) (hi : i < s.blocks.length)
    (hb : s.blockAt i = .partialBlock b) : ∀ r ∈ s.ranges b,
      (s.range r).rangeBegin ≤ (s.range r).rangeEnd :=
  fun _ hr => ((h.tidy i hi b hb).toSound.of_mem hr).2.1.le

-- The block that is closed is no longer one of s_blocks.
theorem Evolves.completeAt (h : Books c d s) (hi : i < s.blocks.length) :
    Evolves s (s.completeAt i) := by
  unfold Store.completeAt
  split
  · exact .refl s
  · exact .refl s
  · next hb => exact .setBlockAt (by simp [hb]) isWhole_complete
  · next b hb =>
      have howned := fun r hr => (h.owned b r hr).1
      have ho := closeRanges_only howned
      have hrange := range_closeRanges howned
      have hlen : (s.closeRanges b).blocks.length = s.blocks.length := by rw [ho.blocks]
      have hc : ∀ b', ((s.closeRanges b).setBlockAt i .completeBlock).Current b' ↔
          s.Current b' ∧ b' ≠ b := by
        intro b'
        rw [current_setBlockAt_whole isWhole_complete]
        simp only [hlen, ho.blockAt]
        constructor
        · rintro ⟨j, hj, hne, hbj⟩
          refine ⟨⟨j, hj, hbj⟩, fun e => hne ?_⟩
          exact h.current_unique hj hi (e ▸ hbj) hb
        · rintro ⟨⟨j, hj, hbj⟩, hne⟩
          exact ⟨j, hj, fun e => hne (by rw [e, hb] at hbj; exact (BlockV.partialBlock.inj hbj).symm),
            hbj⟩
      have hvoid : ∀ r, s.Void r → (s.closeRanges b).Void r := by
        intro r hv
        unfold Void at hv ⊢
        rw [hrange]
        split
        · rfl
        · exact hv
      refine ⟨(layout_setBlockAt _ i _).trans ho.layout, ho.nextBlock.ge, ho.nextRange,
        fun b' _ => ?_, fun r _ => ?_, fun r h₁ h₂ => ?_, fun r hr hk => ?_, fun r hr hk hh => ?_,
        fun b' _ hk => ?_, fun r _ => ?_, fun b' hb' r hr hlt => ?_⟩
      · show ((s.closeRanges b).block b').num = _
        by_cases e : b' = b
        · subst e
          simp only [Store.closeRanges, block_modifyBlock, if_true]
          exact (foldl_closeRange b' (s.ranges b') howned).2.2.2.1
        · rw [ho.block b' e]
      · show ((s.closeRanges b).range r).nuploading = _
        rw [hrange]
        split <;> rfl
      · have hn : (s.closeRanges b).nextRange = s.nextRange :=
          (foldl_closeRange b (s.ranges b) howned).2.1
        exact absurd (hn ▸ h₂ : r < s.nextRange) (Nat.not_lt.mpr h₁)
      · show (s.closeRanges b).Void r ∨ (_ → r ∈ (s.closeRanges b).ranges
          ((s.closeRanges b).range r).block)
        refine hk.imp (hvoid r) fun hk hcur => ?_
        rw [show (((s.closeRanges b).setBlockAt i .completeBlock).range r).block =
          ((s.closeRanges b).range r).block from rfl, ho.owner r hr, hc] at hcur
        rw [ho.owner r hr, ho.ranges hcur.2]
        exact hk hcur.1
      · show (s.closeRanges b).Void r ∨ _
        by_cases hv : s.Void r
        · exact .inl (hvoid r hv)
        · have hcur := hh.resolve_left hv
          have hlinked := (hk.resolve_left hv) hcur
          by_cases e : (s.range r).block = b
          · refine .inl ?_
            unfold Void
            rw [e] at hlinked
            rw [hrange, if_pos hlinked]
          · refine .inr ((hc _).mpr ?_)
            rw [show (((s.closeRanges b).setBlockAt i .completeBlock).range r).block =
              ((s.closeRanges b).range r).block from rfl, ho.owner r hr]
            exact ⟨hcur, e⟩
      · show _ ∨ ∀ r ∈ (s.closeRanges b).ranges b', (s.closeRanges b).Void r
        by_cases e : b' = b
        · subst e
          refine .inr fun r hr => ?_
          rw [ranges_closeRanges howned] at hr
          unfold Void
          rw [hrange, if_pos (List.mem_of_mem_take hr)]
        · rw [hc, ho.ranges e]
          exact hk.imp (⟨·, e⟩) fun hv r hr => hvoid r (hv r hr)
      · show (s.range r).rangeBegin ≤ ((s.closeRanges b).range r).rangeBegin ∧
          ((s.closeRanges b).range r).rangeEnd ≤ (s.range r).rangeEnd
        rw [hrange]
        split
        · next hm => exact ⟨h.ordered hi hb r hm, le_rfl⟩
        · exact ⟨le_rfl, le_rfl⟩
      · rw [hc] at hb'
        have hr' : r ∈ (s.closeRanges b).ranges b' := hr
        rw [ho.ranges hb'.2] at hr'
        exact ⟨hb'.1, hr'⟩

section AddBlock

theorem block_addBlock (s : Store) (i : Nat) (b : BlockId) : (s.addBlock i).block b =
    if b = s.nextBlock then
      { num := i
        blockBegin := s.computeBlockBegin i
        blockEnd := s.computeBlockEnd i
        ranges := [s.nextRange]
        remaining := s.computeBlockEnd i - s.computeBlockBegin i
        unselectedRemaining := s.computeBlockEnd i - s.computeBlockBegin i }
    else s.block b :=
  Function.update_apply _ _ _ _

theorem range_addBlock (s : Store) (i : Nat) (r : RangeId) : (s.addBlock i).range r =
    if r = s.nextRange then ⟨s.nextBlock, s.computeBlockBegin i, s.computeBlockEnd i, 0⟩
    else s.range r :=
  Function.update_apply _ _ _ _

theorem blockAt_addBlock (s : Store) (i i' : Nat) : (s.addBlock i).blockAt i' =
    if i' = i ∧ i < s.blocks.length then .partialBlock s.nextBlock else s.blockAt i' :=
  blockAt_setBlockAt _ i i' _

theorem layout_addBlock (s : Store) (i : Nat) : (s.addBlock i).layout = s.layout :=
  layout_setBlockAt _ i _

theorem ranges_addBlock (s : Store) (i : Nat) (b : BlockId) : (s.addBlock i).ranges b =
    if b = s.nextBlock then [s.nextRange] else s.ranges b := by
  simp only [Store.ranges, block_addBlock]
  split <;> rfl

theorem sameBlock_addBlock (s : Store) (i : Nat) (hb : b < s.nextBlock) :
    SameBlock b s (s.addBlock i) :=
  ⟨Nat.le_succ _, Nat.le_succ _, by rw [block_addBlock, if_neg (Nat.ne_of_lt hb)],
    fun r hr _ => by rw [range_addBlock, if_neg (Nat.ne_of_lt hr)]⟩

theorem Books.addBlock (h : Books c d s) (hs : 0 < s.size) (hi : i < s.blocks.length) :
    Books c d (s.addBlock i) := by
  have hl := layout_addBlock s i
  have hlen : (s.addBlock i).blocks.length = s.blocks.length := List.length_set
  have hlt := h.placed.lt hs i hi
  refine ⟨h.placed.congr hl, fun b r hr => ?_, fun r hr => ?_, fun j hj b hb => ?_⟩
  · rw [ranges_addBlock] at hr
    show _ ∧ r < s.nextRange + 1
    split at hr
    · next e =>
        rw [List.mem_singleton.mp hr, range_addBlock, if_pos rfl, e]
        exact ⟨rfl, Nat.lt_succ_self _⟩
    · obtain ⟨h₁, h₂⟩ := h.owned b r hr
      rw [range_addBlock, if_neg (Nat.ne_of_lt h₂)]
      exact ⟨h₁, Nat.lt_succ_of_lt h₂⟩
  · rw [range_addBlock]
    split
    · exact Nat.lt_succ_self _
    · next e =>
        have hlt : r < s.nextRange :=
          Nat.lt_of_le_of_ne (Nat.lt_succ_iff.mp hr) e
        exact Nat.lt_succ_of_lt (h.owner_lt r hlt)
  · rw [hlen] at hj
    rw [blockAt_addBlock] at hb
    split at hb
    · next e =>
        obtain ⟨rfl, -⟩ := e
        rw [← BlockV.partialBlock.inj hb]
        have hb' := block_addBlock s j s.nextBlock
        rw [if_pos rfl] at hb'
        have hr' := range_addBlock s j s.nextRange
        rw [if_pos rfl] at hr'
        have hranges : (s.addBlock j).ranges s.nextBlock = [s.nextRange] := by
          rw [ranges_addBlock, if_pos rfl]
        have hspans : (s.addBlock j).spans [s.nextRange] =
            [(s.computeBlockBegin j, s.computeBlockEnd j)] := by
          simp only [spans_cons, spans_nil, hr', Range.span]
        refine ⟨⟨Nat.lt_succ_self _, ?_, ?_, by simp [hranges], ?_, ?_⟩, by rw [hb'],
          fun _ => ?_, fun _ => ?_⟩
        · rw [hb', computeBlockBegin_congr hl]
        · rw [hb', computeBlockEnd_congr hl]
        · rw [hranges]
          intro r hr
          rw [List.mem_singleton.mp hr, hr']
          exact ⟨rfl, Nat.lt_succ_self _⟩
        · rw [hranges, hspans, computeBlockBegin_congr hl, computeBlockEnd_congr hl]
          exact ⟨le_rfl, hlt, le_rfl⟩
        · rw [hb', hranges, hspans, total_cons, total_nil, add_zero]
        · rw [hb', hranges, List.map_cons, List.map_nil, unselectedSpans_one, hr', if_pos rfl]
    · exact (h.tidy j hj b hb).frame hl (sameBlock_addBlock s i (h.tidy j hj b hb).lt)

theorem Evolves.addBlock (h : Books c d s) (hb : s.blockAt i = .emptyBlock) :
    Evolves s (s.addBlock i) := by
  have hlen : (s.addBlock i).blocks.length = s.blocks.length := List.length_set
  have hc : ∀ b, s.Current b → (s.addBlock i).Current b := by
    rintro b ⟨j, hj, hbj⟩
    refine ⟨j, hlen ▸ hj, ?_⟩
    rw [blockAt_addBlock, if_neg, hbj]
    rintro ⟨rfl, -⟩
    rw [hb] at hbj
    exact nomatch hbj
  have hc' : ∀ b, (s.addBlock i).Current b → b = s.nextBlock ∨ s.Current b := by
    rintro b ⟨j, hj, hbj⟩
    rw [blockAt_addBlock] at hbj
    split at hbj
    · exact .inl (BlockV.partialBlock.inj hbj).symm
    · exact .inr ⟨j, hlen ▸ hj, hbj⟩
  have hrange : ∀ r < s.nextRange, (s.addBlock i).range r = s.range r := fun r hr => by
    rw [range_addBlock, if_neg (Nat.ne_of_lt hr)]
  have hvoid : ∀ r < s.nextRange, s.Void r → (s.addBlock i).Void r := fun r hr hv => by
    unfold Void at hv ⊢
    rw [hrange r hr]
    exact hv
  refine ⟨layout_addBlock s i, Nat.le_succ _, Nat.le_succ _, fun b hb => ?_, fun r hr => ?_,
    fun r h₁ h₂ => ?_, fun r hr hk => ?_, fun r hr _ hh => ?_, fun b hb hk => ?_, fun r hr => ?_,
    fun b hb r hr hlt => ?_⟩
  · rw [block_addBlock, if_neg (Nat.ne_of_lt hb)]
  · rw [hrange r hr]
  · obtain rfl : r = s.nextRange := Nat.le_antisymm (Nat.lt_succ_iff.mp h₂) h₁
    rw [range_addBlock, if_pos rfl]
  · refine hk.imp (hvoid r hr) fun hk hcur => ?_
    rw [hrange r hr] at hcur ⊢
    rcases hc' _ hcur with e | hcur
    · exact absurd e (Nat.ne_of_lt (h.owner_lt r hr))
    · rw [ranges_addBlock, if_neg (Nat.ne_of_lt (h.current_lt hcur))]
      exact hk hcur
  · unfold Held at hh ⊢
    rw [hrange r hr]
    exact hh.imp (hvoid r hr) (hc _)
  · refine hk.imp (hc _) fun hv r hr => ?_
    rw [ranges_addBlock, if_neg (Nat.ne_of_lt hb)] at hr
    exact hvoid r (h.owned b r hr).2 (hv r hr)
  · rw [hrange r hr]; exact ⟨le_rfl, le_rfl⟩
  · rw [ranges_addBlock] at hr
    split at hr
    · exact absurd (List.mem_singleton.mp hr) (Nat.ne_of_lt hlt)
    · next e => exact ⟨(hc' b hb).resolve_left e, hr⟩

end AddBlock

end Store

end Mldonkey.Swarming
