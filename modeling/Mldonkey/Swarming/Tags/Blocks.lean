import Mldonkey.Swarming.Transfer
import Mldonkey.Swarming.Ranges.Basic

namespace Mldonkey.Swarming

open Effects

-- The character that the comment on swarmer invariants expects for a block.
def BlockV.state : BlockV → PartState
  | .emptyBlock => .stateMissing
  | .partialBlock _ => .statePartial
  | .completeBlock => .stateComplete
  | .verifiedBlock => .stateVerified

def PartState.Done (c : PartState) : Prop := c = .stateComplete ∨ c = .stateVerified

instance (c : PartState) : Decidable c.Done := inferInstanceAs (Decidable (_ ∨ _))

@[simp] theorem PartState.not_done_missing : ¬ PartState.stateMissing.Done := by decide

@[simp] theorem PartState.not_done_partial : ¬ PartState.statePartial.Done := by decide

@[simp] theorem PartState.done_complete : PartState.stateComplete.Done := by decide

@[simp] theorem PartState.done_verified : PartState.stateVerified.Done := by decide

theorem PartState.not_done_iff (c : PartState) :
    ¬ c.Done ↔ c = .stateMissing ∨ c = .statePartial := by
  cases c <;> decide

namespace VB

@[simp] theorem length_set (x : VerificationBitmap) (i : Nat) (c : PartState) :
    (set x i c).length = x.length := List.length_set

theorem get_of_length_le {x : VerificationBitmap} {i : Nat} (h : x.length ≤ i) :
    get x i = .stateMissing := by
  simp [get, List.getElem?_eq_none h]

theorem get_set (x : VerificationBitmap) (i i' : Nat) (c : PartState) :
    get (set x i c) i' = if i' = i ∧ i < x.length then c else get x i' := by
  simp only [get, set, List.getD_eq_getElem?_getD, List.getElem?_set]
  by_cases h : i = i'
  · subst h
    by_cases hi : i < x.length <;> simp [hi]
  · have h' : i' ≠ i := Ne.symm h
    simp [h, h']

end VB

namespace Frontend

-- The tables of a frontend agree with each other and with `n` blocks.
structure Tabled (n : Nat) (t : Frontend) : Prop where
  chunkNum_lt : ∀ i < n, t.chunkNum i < t.convertedVerifiedBitmap.length
  mem_blockNums : ∀ i j, i ∈ t.blockNums j ↔ i < n ∧ t.chunkNum i = j
  exists_block : ∀ j < t.convertedVerifiedBitmap.length, ∃ i < n, t.chunkNum i = j
  nodup : ∀ j, (t.blockNums j).Nodup

-- Two frontends differ in their chunks and their counters alone.
structure Same (t t' : Frontend) : Prop where
  chunkSize : t'.chunkSize = t.chunkSize
  bitmap_length : t'.convertedVerifiedBitmap.length = t.convertedVerifiedBitmap.length
  verifier : t'.verifier = t.verifier
  blocksOfChunk : t'.blocksOfChunk = t.blocksOfChunk
  chunkOfBlock : t'.chunkOfBlock = t.chunkOfBlock

theorem Same.refl (t : Frontend) : Same t t := ⟨rfl, rfl, rfl, rfl, rfl⟩

theorem Same.trans {t t' t'' : Frontend} (h : Same t t') (h' : Same t' t'') : Same t t'' :=
  ⟨h'.chunkSize.trans h.chunkSize, h'.bitmap_length.trans h.bitmap_length,
    h'.verifier.trans h.verifier, h'.blocksOfChunk.trans h.blocksOfChunk,
    h'.chunkOfBlock.trans h.chunkOfBlock⟩

theorem Same.chunkNum {t t' : Frontend} (h : Same t t') (i : Nat) :
    t'.chunkNum i = t.chunkNum i := by simp only [Frontend.chunkNum, h.chunkOfBlock]

theorem Same.blockNums {t t' : Frontend} (h : Same t t') (j : Nat) :
    t'.blockNums j = t.blockNums j := by simp only [Frontend.blockNums, h.blocksOfChunk]

theorem Same.tabled {t t' : Frontend} {n : Nat} (h : Same t t') (ht : t.Tabled n) :
    t'.Tabled n where
  chunkNum_lt i hi := by rw [h.chunkNum, h.bitmap_length]; exact ht.chunkNum_lt i hi
  mem_blockNums i j := by rw [h.blockNums, h.chunkNum]; exact ht.mem_blockNums i j
  exists_block j hj := by
    obtain ⟨i, hi, hij⟩ := ht.exists_block j (h.bitmap_length ▸ hj)
    exact ⟨i, hi, by rw [h.chunkNum, hij]⟩
  nodup j := by rw [h.blockNums]; exact ht.nodup j

theorem chunk_of_length_le {t : Frontend} {j : Nat}
    (h : t.convertedVerifiedBitmap.length ≤ j) : t.chunk j = .stateMissing :=
  VB.get_of_length_le h

theorem same_setChunk (t : Frontend) (j : Nat) (c : PartState) : Same t (t.setChunk j c) :=
  ⟨rfl, VB.length_set _ _ _, rfl, rfl, rfl⟩

theorem chunk_setChunk (t : Frontend) (j j' : Nat) (c : PartState) :
    (t.setChunk j c).chunk j' =
      if j' = j ∧ j < t.convertedVerifiedBitmap.length then c else t.chunk j' := by
  simp only [chunk, setChunk, VB.get_set]

-- Chunks that change are not complete before or after.
structure Minor (t t' : Frontend) : Prop extends Same t t' where
  chunk : ∀ j, t'.chunk j = t.chunk j ∨ ¬ (t.chunk j).Done ∧ ¬ (t'.chunk j).Done

theorem Minor.refl (t : Frontend) : Minor t t := ⟨Same.refl t, fun _ => .inl rfl⟩

theorem Minor.done {t t' : Frontend} (h : Minor t t') (j : Nat) :
    (t'.chunk j).Done ↔ (t.chunk j).Done := by
  rcases h.chunk j with h | ⟨h, h'⟩
  · rw [h]
  · exact iff_of_false h' h

theorem Minor.eq_iff {t t' : Frontend} (h : Minor t t') (j : Nat) {c : PartState}
    (hc : c.Done) : t'.chunk j = c ↔ t.chunk j = c := by
  rcases h.chunk j with h | ⟨h, h'⟩
  · rw [h]
  · exact iff_of_false (fun e => h' (e ▸ hc)) fun e => h (e ▸ hc)

theorem minor_setChunk {t : Frontend} {j : Nat} {c : PartState} (hj : ¬ (t.chunk j).Done)
    (hc : ¬ c.Done) : Minor t (t.setChunk j c) := by
  refine ⟨same_setChunk t j c, fun j' => ?_⟩
  rw [chunk_setChunk]
  split
  · next h => obtain ⟨rfl, -⟩ := h; exact .inr ⟨hj, hc⟩
  · exact .inl rfl

end Frontend

namespace State

theorem bit_setBit (s : State) (i i' : Nat) (c : PartState) :
    (s.setBit i c).bit i' = if i' = i ∧ i < s.verifiedBitmap.length then c else s.bit i' := by
  simp only [bit, setBit, VB.get_set]

theorem frontend_of_length_le {s : State} {k : Nat} (h : s.networks.length ≤ k) :
    s.frontend k = default := by
  simp [frontend, List.getElem?_eq_none h]

theorem frontend_modifyFrontend (s : State) (k k' : Nat) (f : Frontend → Frontend) :
    (s.modifyFrontend k f).frontend k' =
      if k' = k ∧ k < s.networks.length then f (s.frontend k) else s.frontend k' := by
  simp only [frontend, modifyFrontend, List.getD_eq_getElem?_getD, List.getElem?_modify]
  by_cases h : k = k'
  · subst h
    by_cases hk : k < s.networks.length <;> simp [hk]
  · have h' : k' ≠ k := Ne.symm h
    cases hx : s.networks[k']? <;> simp [h, h']

theorem getD_map_networks (l : List Frontend) (g : Frontend → Frontend) (k : Nat) :
    (l.map g).getD k default = if k < l.length then g (l.getD k default) else l.getD k default := by
  simp only [List.getD_eq_getElem?_getD, List.getElem?_map]
  by_cases hk : k < l.length
  · simp [hk]
  · simp [hk]

end State

namespace State

-- Nothing that the tags of the blocks and chunks depend on differs.
structure SameTags (s s' : State) : Prop where
  size : s'.size = s.size
  blockPos : s'.blockPos = s.blockPos
  blocks : s'.blocks = s.blocks
  verifiedBitmap : s'.verifiedBitmap = s.verifiedBitmap
  networks : s'.networks = s.networks

theorem SameTags.refl (s : State) : SameTags s s := ⟨rfl, rfl, rfl, rfl, rfl⟩

theorem SameTags.trans {s s' s'' : State} (h : SameTags s s') (h' : SameTags s' s'') :
    SameTags s s'' :=
  ⟨h'.size.trans h.size, h'.blockPos.trans h.blockPos, h'.blocks.trans h.blocks,
    h'.verifiedBitmap.trans h.verifiedBitmap, h'.networks.trans h.networks⟩

theorem SameTags.bit {s s' : State} (h : SameTags s s') (i : Nat) : s'.bit i = s.bit i := by
  simp only [State.bit, h.verifiedBitmap]

theorem SameTags.blockAt {s s' : State} (h : SameTags s s') (i : Nat) :
    s'.blockAt i = s.blockAt i := by simp only [Store.blockAt, h.blocks]

theorem SameTags.frontend {s s' : State} (h : SameTags s s') (k : Nat) :
    s'.frontend k = s.frontend k := by simp only [State.frontend, h.networks]

-- The arrays have the same lengths and the frontends the same tables.
structure SameShape (s s' : State) : Prop where
  size : s'.size = s.size
  blockPos : s'.blockPos = s.blockPos
  blocks_length : s'.blocks.length = s.blocks.length
  bitmap_length : s'.verifiedBitmap.length = s.verifiedBitmap.length
  networks_length : s'.networks.length = s.networks.length
  frontend : ∀ k, Frontend.Same (s.frontend k) (s'.frontend k)

theorem SameShape.refl (s : State) : SameShape s s :=
  ⟨rfl, rfl, rfl, rfl, rfl, fun _ => .refl _⟩

theorem SameShape.trans {s s' s'' : State} (h : SameShape s s') (h' : SameShape s' s'') :
    SameShape s s'' :=
  ⟨h'.size.trans h.size, h'.blockPos.trans h.blockPos, h'.blocks_length.trans h.blocks_length,
    h'.bitmap_length.trans h.bitmap_length, h'.networks_length.trans h.networks_length,
    fun k => (h.frontend k).trans (h'.frontend k)⟩

theorem SameShape.layout {s s' : State} (h : SameShape s s') : s'.layout = s.layout := by
  simp only [Store.layout, h.size, h.blockPos, h.blocks_length]

theorem SameTags.shape {s s' : State} (h : SameTags s s') : SameShape s s' :=
  ⟨h.size, h.blockPos, by rw [h.blocks], by rw [h.verifiedBitmap], by rw [h.networks],
    fun k => h.frontend k ▸ .refl _⟩

theorem allBlocks_iff (s : State) (t : Frontend) (j : Nat) (c : PartState) :
    s.allBlocks t j c = true ↔ ∀ i ∈ t.blockNums j, s.bit i = c := by
  simp [allBlocks]

@[simp] theorem addFileDownloaded_tags (s : State) (maybeT : Option Nat) (n : Int) :
    SameTags s (s.addFileDownloaded maybeT n) := by
  unfold addFileDownloaded
  split <;> exact ⟨rfl, rfl, rfl, rfl, rfl⟩

theorem closeRange_tags (maybeT : Option Nat) (b : BlockId) (s : State) (r : RangeId) :
    SameTags s (s.closeRange maybeT b r) := by
  obtain ⟨h1, h2, h3, h4, h5⟩ := s.addFileDownloaded_tags maybeT (s.computeRangeSize r)
  exact ⟨h1, h2, h3, h4, h5⟩

theorem foldl_tags {β : Type} {f : State → β → State} (hf : ∀ s x, SameTags s (f s x))
    (l : List β) (s : State) : SameTags s (l.foldl f s) := by
  induction l generalizing s with
  | nil => exact .refl s
  | cons x l ih => exact (hf s x).trans (ih (f s x))

theorem closeBlockRanges_tags (s : State) (maybeT : Option Nat) (b : BlockId) :
    SameTags s (s.closeBlockRanges maybeT b) := by
  have h := foldl_tags (closeRange_tags maybeT b) (s.block b).ranges s
  exact ⟨h.size, h.blockPos, h.blocks, h.verifiedBitmap, h.networks⟩

-- Block `i` was completed, and the primary's chunk with it if it was the last
-- one missing there.
structure Completes (i : Nat) (s s' : State) : Prop extends SameShape s s' where
  blockAt : ∀ i', s'.blockAt i' =
    if i' = i ∧ i < s.blocks.length then .completeBlock else s.blockAt i'
  bit : ∀ i', s'.bit i' =
    if i' = i ∧ i < s.verifiedBitmap.length then .stateComplete else s.bit i'
  secondary : ∀ k, 0 < k → s'.frontend k = s.frontend k
  chunk : ∀ j, (s'.frontend 0).chunk j =
    if j = (s.frontend 0).chunkNum i ∧ j < (s.frontend 0).convertedVerifiedBitmap.length ∧
        ¬ ((s.frontend 0).chunk j).Done ∧
        ∀ i' ∈ (s.frontend 0).blockNums j, s'.bit i' = .stateComplete then .stateComplete
    else (s.frontend 0).chunk j

-- What set_swarmer_state_complete does to the primary.
def completeChunk (s : State) (i : Nat) (t : Frontend) : Frontend :=
  match t.chunk (t.chunkNum i) with
  | .stateMissing | .statePartial =>
      if s.allBlocks t (t.chunkNum i) .stateComplete then
        { t.setChunk (t.chunkNum i) .stateComplete with
          ncompleteChunks := t.ncompleteChunks + 1 }
      else t
  | .stateComplete | .stateVerified => t

theorem completeChunk_same (s : State) (i : Nat) (t : Frontend) :
    Frontend.Same t (s.completeChunk i t) := by
  have h := Frontend.same_setChunk t (t.chunkNum i) .stateComplete
  have h' : Frontend.Same t { t.setChunk (t.chunkNum i) .stateComplete with
      ncompleteChunks := t.ncompleteChunks + 1 } := ⟨h.1, h.2, h.3, h.4, h.5⟩
  unfold completeChunk
  split
  · split
    · exact h'
    · exact .refl t
  · split
    · exact h'
    · exact .refl t
  · exact .refl t
  · exact .refl t

theorem chunk_completeChunk (s : State) (i : Nat) (t : Frontend) (j : Nat) :
    (s.completeChunk i t).chunk j =
      if j = t.chunkNum i ∧ j < t.convertedVerifiedBitmap.length ∧ ¬ (t.chunk j).Done ∧
          ∀ i' ∈ t.blockNums j, s.bit i' = .stateComplete then .stateComplete
      else t.chunk j := by
  have hset : (Frontend.chunk { t.setChunk (t.chunkNum i) .stateComplete with
      ncompleteChunks := t.ncompleteChunks + 1 } j) =
      if j = t.chunkNum i ∧ t.chunkNum i < t.convertedVerifiedBitmap.length then .stateComplete
      else t.chunk j := Frontend.chunk_setChunk t (t.chunkNum i) j .stateComplete
  have hnot : ∀ c, t.chunk (t.chunkNum i) = c → ¬ c.Done →
      Frontend.chunk (if s.allBlocks t (t.chunkNum i) .stateComplete then
        { t.setChunk (t.chunkNum i) .stateComplete with
          ncompleteChunks := t.ncompleteChunks + 1 } else t) j =
      if j = t.chunkNum i ∧ j < t.convertedVerifiedBitmap.length ∧ ¬ (t.chunk j).Done ∧
          ∀ i' ∈ t.blockNums j, s.bit i' = .stateComplete then .stateComplete
      else t.chunk j := by
    intro c hc hd
    by_cases hj : j = t.chunkNum i
    · subst hj
      by_cases hall : s.allBlocks t (t.chunkNum i) .stateComplete
      · rw [if_pos hall, hset]
        by_cases hlen : t.chunkNum i < t.convertedVerifiedBitmap.length
        · rw [if_pos ⟨rfl, hlen⟩, if_pos ⟨rfl, hlen, hc ▸ hd, (s.allBlocks_iff t _ _).mp hall⟩]
        · rw [if_neg fun h => hlen h.2, if_neg fun h => hlen h.2.1]
      · rw [if_neg hall, if_neg]
        rintro ⟨-, -, -, h⟩
        exact hall ((s.allBlocks_iff t _ _).mpr h)
    · rw [if_neg (c := j = t.chunkNum i ∧ _) fun h => hj h.1]
      split
      · rw [hset, if_neg fun h => hj h.1]
      · rfl
  unfold completeChunk
  split
  · next h => exact hnot _ h (by decide)
  · next h => exact hnot _ h (by decide)
  · next h =>
      rw [if_neg]
      rintro ⟨rfl, -, hd, -⟩
      exact hd (h ▸ by decide)
  · next h =>
      rw [if_neg]
      rintro ⟨rfl, -, hd, -⟩
      exact hd (h ▸ by decide)

theorem setSwarmerStateComplete_eq {s : State} {i : Nat} (h : ¬ (s.bit i).Done) :
    s.setSwarmerStateComplete i =
      (s.setBit i .stateComplete).modifyFrontend 0
        (completeChunk (s.setBit i .stateComplete) i) := by
  rcases (s.bit i).not_done_iff.mp h with h | h <;> simp only [setSwarmerStateComplete, h] <;> rfl

theorem setSwarmerStateComplete_of_complete {s : State} {i : Nat} (h : s.bit i = .stateComplete) :
    s.setSwarmerStateComplete i = s := by
  simp only [setSwarmerStateComplete, h]

theorem shape_of_modifyFrontend {s : State} {k : Nat} {f : Frontend → Frontend}
    (hf : ∀ t, Frontend.Same t (f t)) : SameShape s (s.modifyFrontend k f) := by
  refine ⟨rfl, rfl, rfl, rfl, List.length_modify _ _ _, fun k' => ?_⟩
  rw [frontend_modifyFrontend]
  split
  · next h => rw [h.1]; exact hf _
  · exact .refl _

theorem setBit_shape (s : State) (i : Nat) (c : PartState) : SameShape s (s.setBit i c) :=
  ⟨rfl, rfl, rfl, VB.length_set _ _ _, rfl, fun _ => .refl _⟩

theorem setBlockAt_shape (s : State) (i : Nat) (b : BlockV) :
    SameShape s (s.withStore (·.setBlockAt i b)) :=
  ⟨rfl, rfl, List.length_set, rfl, rfl, fun _ => .refl _⟩

theorem setSwarmerStateComplete_completes {s s' : State} {i : Nat} (h : ¬ (s.bit i).Done)
    (hs : SameTags (s.setSwarmerStateComplete i) s') :
    Completes i s (s'.withStore (·.setBlockAt i .completeBlock)) := by
  have heq := setSwarmerStateComplete_eq h
  have hshape : SameShape s (s.setSwarmerStateComplete i) :=
    heq ▸ (s.setBit_shape i .stateComplete).trans (shape_of_modifyFrontend (completeChunk_same _ i))
  have hbit : ∀ i', s'.bit i' =
      if i' = i ∧ i < s.verifiedBitmap.length then .stateComplete else s.bit i' := fun i' => by
    rw [hs.bit, heq]; exact s.bit_setBit i i' .stateComplete
  have hblocks : s'.blocks = s.blocks := by rw [hs.blocks, heq]; rfl
  refine ⟨(hshape.trans hs.shape).trans (s'.setBlockAt_shape i _), fun i' => ?_, hbit,
    fun k hk => ?_, fun j => ?_⟩
  · have h' := Store.blockAt_setBlockAt s'.toStore i i' .completeBlock
    simp only [Store.blockAt, hblocks] at h' ⊢
    exact h'
  · change s'.frontend k = s.frontend k
    rw [hs.frontend, heq, frontend_modifyFrontend, if_neg (by omega)]
    rfl
  · change (s'.frontend 0).chunk j = _
    rw [hs.frontend, heq, frontend_modifyFrontend]
    have hbits : ∀ i', (s.setBit i .stateComplete).bit i' = s'.bit i' := fun i' => by
      rw [hbit]; exact s.bit_setBit i i' .stateComplete
    by_cases hlen : 0 < s.networks.length
    · rw [if_pos ⟨rfl, hlen⟩, chunk_completeChunk]
      simp only [hbits]
      rfl
    · have hnone : s.frontend 0 = default := frontend_of_length_le (by omega)
      rw [if_neg fun hn => hlen hn.2, if_neg]
      · rfl
      · rintro ⟨-, hj, -⟩
        rw [hnone] at hj
        exact absurd hj (Nat.not_lt_zero j)

theorem setCompletedBlock_completes {s : State} {i : Nat} (maybeT : Option Nat)
    (hbit : ¬ (s.bit i).Done) (hblock : ¬ (s.blockAt i).state.Done) :
    Completes i s (s.setCompletedBlock maybeT i) := by
  have key : ∀ s₁, SameTags s s₁ →
      Completes i s ((s₁.setSwarmerStateComplete i).withStore (·.setBlockAt i .completeBlock)) := by
    intro s₁ h₁
    have hc : Completes i s₁ _ :=
      setSwarmerStateComplete_completes (s := s₁) (by rw [h₁.bit]; exact hbit) (.refl _)
    refine ⟨h₁.shape.trans hc.toSameShape, fun i' => ?_, fun i' => ?_, fun k hk => ?_, fun j => ?_⟩
    · rw [hc.blockAt, h₁.blocks, h₁.blockAt]
    · rw [hc.bit, h₁.verifiedBitmap, h₁.bit]
    · rw [hc.secondary k hk, h₁.frontend]
    · rw [hc.chunk, h₁.frontend]
  unfold setCompletedBlock
  split
  · next h => rw [h] at hblock; exact absurd (by decide) hblock
  · next h => rw [h] at hblock; exact absurd (by decide) hblock
  · exact key _ (s.addFileDownloaded_tags maybeT _)
  · exact key _ (s.closeBlockRanges_tags maybeT _)

theorem setCompletedBlock_of_done {s : State} {i : Nat} (maybeT : Option Nat)
    (h : (s.blockAt i).state.Done) : s.setCompletedBlock maybeT i = s := by
  unfold setCompletedBlock
  split
  · rfl
  · rfl
  · next h' => rw [h'] at h; exact absurd h (by decide)
  · next h' => rw [h'] at h; exact absurd h (by simp [BlockV.state])

end State

open State

namespace Store

-- The arrays of blocks and of their positions are the same.
structure SameMap (s s' : Store) : Prop where
  size : s'.size = s.size
  blockPos : s'.blockPos = s.blockPos
  blocks : s'.blocks = s.blocks

theorem SameMap.refl (s : Store) : SameMap s s := ⟨rfl, rfl, rfl⟩

theorem SameMap.trans {s s' s'' : Store} (h : SameMap s s') (h' : SameMap s' s'') :
    SameMap s s'' :=
  ⟨h'.size.trans h.size, h'.blockPos.trans h.blockPos, h'.blocks.trans h.blocks⟩

theorem splitRange_map (s : Store) (r : RangeId) (cutPos : Int) :
    SameMap s (s.splitRange r cutPos) := by
  simp only [splitRange]
  split <;> exact ⟨rfl, rfl, rfl⟩

theorem releaseRange_map (s : Store) (r : RangeId) : SameMap s (s.releaseRange r) := by
  simp only [releaseRange]
  split <;> exact ⟨rfl, rfl, rfl⟩

theorem addUploader_map (s : Store) (r : RangeId) : SameMap s (s.addUploader r) := by
  simp only [addUploader]
  split <;> exact ⟨rfl, rfl, rfl⟩

theorem mergeAll_map (r : RangeId) : ∀ (q : List RangeId) (s : Store), SameMap s (mergeAll r s q)
  | [], s => .refl s
  | r2 :: q, s => by
      unfold mergeAll
      split
      · exact (show SameMap s (s.mergeRanges r r2) from ⟨rfl, rfl, rfl⟩).trans (mergeAll_map r q _)
      · exact .refl s

end Store

namespace State

theorem withStore_tags {s : State} {f : Store → Store} (h : Store.SameMap s.toStore (f s.toStore)) :
    SameTags s (s.withStore f) :=
  ⟨h.size, h.blockPos, h.blocks, rfl, rfl⟩

theorem splitRange_tags (s : State) (r : RangeId) (cutPos : Int) :
    SameTags s (s.withStore (·.splitRange r cutPos)) :=
  withStore_tags (s.toStore.splitRange_map r cutPos)

theorem advanceRange_tags (s : State) (maybeT : Option Nat) (r : RangeId) (newBegin : Int) :
    SameTags s (s.advanceRange maybeT r newBegin) := by
  have h := s.addFileDownloaded_tags maybeT (newBegin - (s.range r).rangeBegin)
  exact ⟨h.size, h.blockPos, h.blocks, h.verifiedBitmap, h.networks⟩

theorem releaseRange_tags (s : State) (r : RangeId) : SameTags s (s.releaseRange r) :=
  withStore_tags (s.toStore.releaseRange_map r)

theorem clearUploaderRanges_tags (s : State) (up : Nat) :
    SameTags s (s.clearUploaderRanges up) := by
  have h := foldl_tags (f := fun s (key : Int × Int × RangeId) => s.releaseRange key.2.2)
    (fun s key => releaseRange_tags s key.2.2) (s.uploader up).ranges s
  exact h.trans ⟨rfl, rfl, rfl, rfl, rfl⟩

theorem removeCompletedUploaderRanges_tags (s : State) (up : Nat) :
    SameTags s (s.removeCompletedUploaderRanges up) := by
  have h := fun l f => foldl_tags (f := fun s (key : Int × Int × RangeId) => s.releaseRange key.2.2)
    (fun s key => releaseRange_tags s key.2.2) l (s.modifyUploader up f)
  have h' := h ((s.uploader up).ranges.filter fun key =>
    !decide ((s.range key.2.2).rangeBegin < (s.range key.2.2).rangeEnd)) fun u =>
      { u with
        ranges := u.ranges.filter fun key =>
          decide ((s.range key.2.2).rangeBegin < (s.range key.2.2).rangeEnd) }
  exact ⟨h'.size, h'.blockPos, h'.blocks, h'.verifiedBitmap, h'.networks⟩

theorem clearUploaderBlocks_tags (s : State) (up : Nat) :
    SameTags s (s.clearUploaderBlocks up) := by
  have h := foldl_tags (f := fun s (b : UploaderBlock) => s.decrNuploading (s.block b.block).num)
    (fun s b => ⟨rfl, rfl, rfl, rfl, rfl⟩) (s.uploader up).blocks s
  exact h.trans ⟨rfl, rfl, rfl, rfl, rfl⟩

theorem chooseBlocks_tags (s : State) (up : Nat) (blocks : List UploaderBlock) :
    SameTags s ((blocks.foldl (fun s b => s.incrNuploading (s.block b.block).num) s).modifyUploader
      up fun u => { u with blocks := blocks }) := by
  have h := foldl_tags (f := fun s (b : UploaderBlock) => s.incrNuploading (s.block b.block).num)
    (fun s b => ⟨rfl, rfl, rfl, rfl, rfl⟩) blocks s
  exact h.trans ⟨rfl, rfl, rfl, rfl, rfl⟩

theorem modifyUploader_tags (s : State) (up : Nat) (f : Uploader → Uploader) :
    SameTags s (s.modifyUploader up f) :=
  ⟨rfl, rfl, rfl, rfl, rfl⟩

theorem clearUploaderIntervals_tags (s : State) (up : Nat) :
    SameTags s (s.clearUploaderIntervals up) := by
  simp only [clearUploaderIntervals]
  split
  · have h₁ := foldl_tags (f := decrAvailability) (fun s i => ⟨rfl, rfl, rfl, rfl, rfl⟩)
      (s.uploader up).completeBlocks s
    have h₂ := foldl_tags (f := fun s (b : Nat × Int × Int) => s.decrAvailability b.1)
      (fun s b => ⟨rfl, rfl, rfl, rfl, rfl⟩) (s.uploader up).partialBlocks
      ((s.uploader up).completeBlocks.foldl decrAvailability s)
    exact (((h₁.trans h₂).trans (modifyUploader_tags _ up _)).trans
      (clearUploaderBlocks_tags _ up)).trans (modifyUploader_tags _ up _)
  · exact .refl s

theorem selectRange_tags (s : State) (up : Nat) (r : RangeId) :
    SameTags s (s.selectRange up r) := by
  have h := s.toStore.addUploader_map r
  exact ⟨h.size, h.blockPos, h.blocks, rfl, rfl⟩

theorem takeCluster_tags (s : State) (up : Nat) (r : RangeId) (q : List RangeId)
    (rangeSize blockEnd : Int) : SameTags s (s.takeCluster up r q rangeSize blockEnd) := by
  have h := withStore_tags (s := s) (f := (Store.mergeAll r · q)) (Store.mergeAll_map r q s.toStore)
  exact (h.trans (splitRange_tags _ r _)).trans (selectRange_tags _ up r)

theorem incrAvailability_tags (s : State) (i : Nat) : SameTags s (s.incrAvailability i) :=
  ⟨rfl, rfl, rfl, rfl, rfl⟩

end State

end Mldonkey.Swarming
