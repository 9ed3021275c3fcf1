import Mldonkey.Swarming.Priorities
import Mldonkey.Swarming.Dividing

-- The walk of split_blocks along the blocks and the chunks of a new frontend.
namespace Mldonkey.Swarming

open HalfOpen

namespace State

variable {chunkSize chunkBegin : Int} {s s' : State} {i : Nat} {newBlocks : List NewBlock}

-- The blocks that the walk has not come to
def pending (s : State) (i : Nat) : List NewBlock :=
  (List.range' i (s.blocks.length - i)).map fun j => ⟨s.blockAt j, s.computeBlockBegin j, s.bit j⟩

def listing (s : State) (i : Nat) (newBlocks : List NewBlock) : List NewBlock :=
  newBlocks.reverse ++ s.pending i

theorem pending_cons (hi : i < s.blocks.length) :
    s.pending i = ⟨s.blockAt i, s.computeBlockBegin i, s.bit i⟩ :: s.pending (i + 1) := by
  have h : s.blocks.length - i = (s.blocks.length - (i + 1)) + 1 := by omega
  rw [pending, h, List.range'_succ, List.map_cons]
  rfl

theorem pending_end (s : State) : s.pending s.blocks.length = [] := by
  simp [pending]

theorem pending_congr (hlen : s'.blocks.length = s.blocks.length)
    (h : ∀ j, i ≤ j → s'.blockAt j = s.blockAt j ∧
      s'.computeBlockBegin j = s.computeBlockBegin j ∧ s'.bit j = s.bit j) :
    s'.pending i = s.pending i := by
  rw [pending, pending, hlen]
  refine List.map_congr_left fun j hj => ?_
  obtain ⟨h₁, h₂, h₃⟩ := h j (List.mem_range'_1.mp hj).1
  rw [h₁, h₂, h₃]

-- The walk stands at block `i`, in the chunk that begins at `chunkBegin`.
structure Turn (chunkSize : Int) (s : State) (i : Nat) (chunkBegin : Int)
    (newBlocks : List NewBlock) : Prop extends Cuts chunkSize s i chunkBegin newBlocks where
  inChunk : i < s.blocks.length → chunkBegin ≤ s.computeBlockBegin i
  multiple : i < s.blocks.length → chunkSize ∣ chunkBegin

-- The state in which the block at `i` is cut at `cutPos`
def cutAt (s : State) (i : Nat) (cutPos : Int) : State :=
  s.withStore fun st => { st with blockPos := st.blockPos.set i cutPos }

-- What a property of the walk has to be kept by.
structure Walks (chunkSize : Int) (Q : State → Nat → List NewBlock → Prop) : Prop where
  pass : ∀ {s i chunkBegin newBlocks}, Turn chunkSize s i chunkBegin newBlocks →
    i < s.blocks.length → s.computeBlockEnd i ≤ chunkBegin + chunkSize → Q s i newBlocks →
    Q s (i + 1) (⟨s.blockAt i, s.computeBlockBegin i, s.bit i⟩ :: newBlocks)
  whole : ∀ {s i chunkBegin newBlocks}, Turn chunkSize s i chunkBegin newBlocks →
    i < s.blocks.length → chunkBegin + chunkSize < s.computeBlockEnd i →
    Store.IsWhole (s.blockAt i) → Q s i newBlocks →
    Q (s.cutAt i (chunkBegin + chunkSize)) i
      (⟨s.blockAt i, s.computeBlockBegin i, s.bit i⟩ :: newBlocks)
  part : ∀ {s i chunkBegin newBlocks b1}, Turn chunkSize s i chunkBegin newBlocks →
    i < s.blocks.length → chunkBegin + chunkSize < s.computeBlockEnd i →
    s.blockAt i = .partialBlock b1 → Q s i newBlocks →
    Q (((s.cutAt i (chunkBegin + chunkSize)).withStore
        (·.cutPartial b1 (chunkBegin + chunkSize))).setRightBlock i s.nextBlock) i
      (((s.cutAt i (chunkBegin + chunkSize)).withStore
        (·.cutPartial b1 (chunkBegin + chunkSize))).leftBlock i b1 (s.computeBlockBegin i)
          :: newBlocks)

theorem ediv_sub_self {a c : Int} (hc : 0 < c) : (a - c) / c = a / c - 1 := by
  have := Int.add_mul_ediv_right a (-1) hc.ne'
  rw [show a - c = a + -1 * c by ring, this]
  rfl

-- The walk comes to the last block, and keeps whatever each of its turns does.
theorem Walks.splitIter {Q : State → Nat → List NewBlock → Prop} (h : Walks chunkSize Q)
    (hc : 0 < chunkSize) {fuel : Nat} (hturn : Turn chunkSize s i chunkBegin newBlocks)
    (hfuel : (s.blocks.length - i) + ((s.size - 1 - chunkBegin) / chunkSize).toNat + 1 ≤ fuel)
    (hQ : Q s i newBlocks) :
    ∃ s' newBlocks', State.splitIter chunkSize fuel s i chunkBegin newBlocks =
      (s', newBlocks'.reverse) ∧ Q s' s'.blocks.length newBlocks' := by
  induction fuel generalizing s i chunkBegin newBlocks with
  | zero => omega
  | succ fuel ih =>
    unfold State.splitIter
    dsimp only
    split
    · next hi => exact ⟨s, newBlocks, rfl, hi ▸ hQ⟩
    · next hi =>
      have hi' : i < s.blocks.length := hturn.le.lt_of_ne hi
      have hlt := hturn.lt i le_rfl hi'
      have hhere := hturn.here hi'
      have hin := hturn.inChunk hi'
      have hmul := hturn.multiple hi'
      have hsucc : i + 1 < s.blocks.length → s.computeBlockEnd i = s.computeBlockBegin (i + 1) :=
        s.toStore.computeBlockEnd_succ hturn.positions
      -- the next block begins in this chunk, or in the next one
      have hpass : ∀ next : Int, chunkBegin ≤ next → s.computeBlockEnd i ≤ chunkBegin + chunkSize →
          s.computeBlockEnd i < next + chunkSize → next ≤ s.computeBlockEnd i ∨
            i + 1 = s.blocks.length →
          (chunkSize ∣ next ∨ i + 1 = s.blocks.length) → ∃ s' newBlocks',
          State.splitIter chunkSize fuel s (i + 1) next
            (⟨s.blockAt i, s.computeBlockBegin i, s.bit i⟩ :: newBlocks) =
              (s', newBlocks'.reverse) ∧ Q s' s'.blocks.length newBlocks' := by
        intro next hnext hend hlow hle hdvd
        have hmono := Int.ediv_le_ediv hc (show s.size - 1 - next ≤ s.size - 1 - chunkBegin by omega)
        refine ih ⟨hturn.toCuts.pass hi' rfl hlow, fun hn => ?_, fun hn => ?_⟩ (by omega)
          (h.pass hturn hi' hend hQ)
        · rw [← hsucc hn]
          exact hle.resolve_right hn.ne
        · exact hdvd.resolve_right hn.ne
      split
      · next hlow => exact hpass chunkBegin le_rfl (by omega) (by omega) (by omega) (.inl hmul)
      · split
        · next heq =>
          by_cases hsize : chunkBegin + chunkSize ≤ s.size
          · rw [min_eq_left hsize] at heq ⊢
            exact hpass _ (by omega) (by omega) (by omega) (.inl (by omega))
              (.inl (hmul.add (dvd_refl chunkSize)))
          · have hlast : i + 1 = s.blocks.length := by
              by_contra hn
              have hn' : i + 1 < s.blocks.length := by omega
              have := (hturn.lt (i + 1) (by omega) hn')
              have := hsucc hn'
              omega
            exact hpass _ (by omega) (by omega) (by omega) (.inr hlast) (.inr hlast)
        · next hhigh hne =>
          have hcut : chunkBegin + chunkSize < s.computeBlockEnd i := by omega
          have hmin : min (chunkBegin + chunkSize) s.size = chunkBegin + chunkSize := by omega
          rw [hmin]
          have hdiv := ediv_sub_self (a := s.size - 1 - chunkBegin) hc
          have hquot : 1 ≤ (s.size - 1 - chunkBegin) / chunkSize :=
            (Int.le_ediv_iff_mul_le hc).mpr (by omega)
          have hmore : ∀ {s' : State} {new : NewBlock}, new.pos = s.computeBlockBegin i →
              s'.layout = (s.size, s.blockPos.set i (chunkBegin + chunkSize), s.blocks.length) →
              Q s' i (new :: newBlocks) → ∃ s'' newBlocks',
              State.splitIter chunkSize fuel s' i (chunkBegin + chunkSize) (new :: newBlocks) =
                (s'', newBlocks'.reverse) ∧ Q s'' s''.blocks.length newBlocks' := by
            intro s' new hnew hs' hQ'
            have hsize : s'.size = s.size := congrArg (·.1) hs'
            have hblocks : s'.blocks.length = s.blocks.length := congrArg (·.2.2) hs'
            have hpos : s'.blockPos = s.blockPos.set i (chunkBegin + chunkSize) :=
              congrArg (·.2.1) hs'
            have hbegin : s'.computeBlockBegin i = chunkBegin + chunkSize := by
              rw [Store.computeBlockBegin, hpos,
                List.getD_eq_getElem _ _ (by rw [List.length_set, hturn.positions]; exact hi'),
                List.getElem_set_self]
            refine ih ⟨hturn.toCuts.cut hi' hnew hc hhere hcut hs', fun _ => hbegin.ge,
              fun _ => hmul.add (dvd_refl chunkSize)⟩ ?_ hQ'
            rw [hsize, hblocks, show s.size - 1 - (chunkBegin + chunkSize) =
              s.size - 1 - chunkBegin - chunkSize by ring, hdiv]
            omega
          split
          · next b1 hb =>
            have hlayout : ∀ s₁ : State, ((s₁.withStore (·.cutPartial b1
                (chunkBegin + chunkSize))).setRightBlock i s₁.nextBlock).layout = s₁.layout :=
              fun s₁ => (layout_setRightBlock i _).trans
                (Store.layout_cutPartial b1 _ s₁.toStore)
            exact hmore (pos_leftBlock _ _ _ _)
              ((hlayout _).trans (by simp [Store.layout, withStore]))
              (h.part hturn hi' hcut hb hQ)
          · next hb =>
            exact hmore rfl (by simp [Store.layout, withStore])
              (h.whole hturn hi' hcut (fun b e => hb b e) hQ)

theorem listing_split (hi : i < s.blocks.length) (newBlocks : List NewBlock) :
    s.listing i newBlocks = newBlocks.reverse ++
      ⟨s.blockAt i, s.computeBlockBegin i, s.bit i⟩ :: s.pending (i + 1) := by
  rw [listing, pending_cons hi]

theorem listing_pass (hi : i < s.blocks.length) (newBlocks : List NewBlock) :
    s.listing (i + 1) (⟨s.blockAt i, s.computeBlockBegin i, s.bit i⟩ :: newBlocks) =
      s.listing i newBlocks := by
  rw [listing_split hi, listing, List.reverse_cons, List.append_assoc]
  rfl

theorem listing_cut (hi : i < s.blocks.length) (hlen : s.blockPos.length = s.blocks.length)
    {cutPos : Int} (hs : s'.layout = (s.size, s.blockPos.set i cutPos, s.blocks.length))
    (hother : ∀ j, j ≠ i → s'.blockAt j = s.blockAt j ∧ s'.bit j = s.bit j)
    (newBlocks : List NewBlock) (new : NewBlock) :
    s'.listing i (new :: newBlocks) = newBlocks.reverse ++
      new :: ⟨s'.blockAt i, cutPos, s'.bit i⟩ :: s.pending (i + 1) := by
  have hblocks : s'.blocks.length = s.blocks.length := congrArg (·.2.2) hs
  have hpos : s'.blockPos = s.blockPos.set i cutPos := congrArg (·.2.1) hs
  have hbegin : s'.computeBlockBegin i = cutPos := by
    rw [Store.computeBlockBegin, hpos,
      List.getD_eq_getElem _ _ (by rw [List.length_set, hlen]; exact hi), List.getElem_set_self]
  have hrest : s'.pending (i + 1) = s.pending (i + 1) := by
    refine pending_congr hblocks fun j hj => ?_
    obtain ⟨h₁, h₂⟩ := hother j (by omega)
    refine ⟨h₁, ?_, h₂⟩
    rw [Store.computeBlockBegin, Store.computeBlockBegin, hpos, List.getD_eq_getElem?_getD,
      List.getD_eq_getElem?_getD, List.getElem?_set_ne (by omega)]
  rw [listing_split (hblocks ▸ hi), hbegin, hrest, List.reverse_cons, List.append_assoc]
  rfl

theorem listBegin_pending (h : s.blockPos.length = s.blocks.length) (hi : i < s.blocks.length) :
    listBegin s.size (s.pending (i + 1)) = s.computeBlockEnd i := by
  by_cases hn : i + 1 < s.blocks.length
  · rw [pending_cons hn, s.toStore.computeBlockEnd_succ h hn]
    rfl
  · have hn' : i + 1 = s.blocks.length := by omega
    rw [hn', pending_end, Store.computeBlockEnd, if_pos (by omega)]
    rfl

-- The two states in which the walk goes on behind a cut
theorem layout_cutAt (s : State) (i : Nat) (cutPos : Int) :
    (s.cutAt i cutPos).layout = (s.size, s.blockPos.set i cutPos, s.blocks.length) := by
  simp [cutAt, Store.layout, withStore]

theorem layout_cutPart (s : State) (i : Nat) (cutPos : Int) (b1 b2 : BlockId) :
    (((s.cutAt i cutPos).withStore (·.cutPartial b1 cutPos)).setRightBlock i b2).layout =
      (s.size, s.blockPos.set i cutPos, s.blocks.length) :=
  (layout_setRightBlock i b2).trans
    ((Store.layout_cutPartial b1 cutPos _).trans (s.layout_cutAt i cutPos))

theorem setRightBlock_at (s : State) {i : Nat} (hi : i < s.blocks.length) (b2 : BlockId) (j : Nat) :
    (s.setRightBlock i b2).blockAt j = if j = i then s.partBlock b2 else s.blockAt j := by
  have hset : ∀ v, (s.setBlockAt i v).blockAt j = if j = i then v else s.blockAt j := fun v => by
    rw [Store.blockAt_setBlockAt]
    simp [hi]
  unfold setRightBlock Store.partBlock
  split
  · exact hset _
  · split
    · exact hset _
    · exact hset _

theorem setRightBlock_bit (s : State) (i : Nat) (b2 : BlockId) (j : Nat) :
    (s.setRightBlock i b2).bit j =
      if j = i ∧ i < s.verifiedBitmap.length then s.partState b2 (s.bit i) else s.bit j := by
  have hset : ∀ (c : PartState) v, ((s.withStore (·.setBlockAt i v)).setBit i c).bit j =
      if j = i ∧ i < s.verifiedBitmap.length then c else s.bit j := fun c v => by
    rw [bit_setBit]
    rfl
  unfold setRightBlock Store.partState
  split
  · exact hset _ _
  · split
    · exact hset _ _
    · show s.bit j = _
      split
      · next h => rw [h.1]
      · rfl

end State

end Mldonkey.Swarming
