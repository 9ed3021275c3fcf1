import Mldonkey.Swarming.Tags.Blocks

namespace Mldonkey.Swarming

open Effects State

-- The characters of blocks and chunks agree with the blocks. While chunk `x` of
-- the primary is being verified or reset, its own character runs ahead.
structure TaggedBut (x : Option Nat) (s : State) : Prop where
  bitmap_length : s.verifiedBitmap.length = s.blocks.length
  networks_pos : 0 < s.networks.length
  tabled : ∀ k < s.networks.length, (s.frontend k).Tabled s.blocks.length
  agree : ∀ i, s.bit i = (s.blockAt i).state
  done : ∀ j < (s.frontend 0).convertedVerifiedBitmap.length, some j ≠ x →
    (((s.frontend 0).chunk j).Done ↔ ∀ i ∈ (s.frontend 0).blockNums j, (s.bit i).Done)
  verified_done : ∀ i < s.blocks.length, s.bit i = .stateVerified →
    ((s.frontend 0).chunk ((s.frontend 0).chunkNum i)).Done
  verified_blocks : ∀ j, some j ≠ x → (s.frontend 0).chunk j = .stateVerified →
    ∀ i ∈ (s.frontend 0).blockNums j, s.bit i = .stateVerified
  secondary : ∀ k, 0 < k → ∀ i < s.blocks.length,
    (s.frontend k).chunk ((s.frontend k).chunkNum i) = .stateComplete → s.bit i = .stateVerified

abbrev Tagged : State → Prop := TaggedBut none

-- Verified blocks lie in verified chunks of the primary.
def FromPrimary (s : State) : Prop :=
  ∀ i < s.blocks.length, s.bit i = .stateVerified →
    (s.frontend 0).chunk ((s.frontend 0).chunkNum i) = .stateVerified

-- Verified chunks of a secondary have verified blocks only.
def SecondaryVerified (s : State) : Prop :=
  ∀ k, 0 < k → ∀ i < s.blocks.length,
    (s.frontend k).chunk ((s.frontend k).chunkNum i) = .stateVerified → s.bit i = .stateVerified

namespace TaggedBut

variable {x : Option Nat} {s s' : State} {i j k : Nat}

theorem primary_tabled (h : TaggedBut x s) : (s.frontend 0).Tabled s.blocks.length :=
  h.tabled 0 h.networks_pos

theorem mem_blockNums (h : TaggedBut x s) :
    i ∈ (s.frontend 0).blockNums j ↔ i < s.blocks.length ∧ (s.frontend 0).chunkNum i = j :=
  h.primary_tabled.mem_blockNums i j

theorem lt_of_bit (h : TaggedBut x s) (hi : s.bit i ≠ .stateMissing) : i < s.blocks.length := by
  by_contra hn
  exact hi (VB.get_of_length_le (by rw [h.bitmap_length]; omega))

theorem shape_tabled (h : TaggedBut x s) (hs : SameShape s s') :
    ∀ k < s'.networks.length, (s'.frontend k).Tabled s'.blocks.length := fun k hk => by
  rw [hs.blocks_length]
  exact (hs.frontend k).tabled (h.tabled k (hs.networks_length ▸ hk))

theorem of_sameTags (h : TaggedBut x s) (hs : SameTags s s') : TaggedBut x s' := by
  refine ⟨?_, ?_, h.shape_tabled hs.shape, ?_, ?_, ?_, ?_, ?_⟩
  · rw [hs.verifiedBitmap, hs.blocks]; exact h.bitmap_length
  · rw [hs.networks]; exact h.networks_pos
  · intro i; rw [hs.bit, hs.blockAt]; exact h.agree i
  · intro j hj hx
    simp only [hs.frontend, hs.bit] at hj ⊢
    exact h.done j hj hx
  · intro i hi hv
    simp only [hs.frontend, hs.bit, hs.blocks] at hi hv ⊢
    exact h.verified_done i hi hv
  · intro j hx hv i hi
    simp only [hs.frontend, hs.bit] at hv hi ⊢
    exact h.verified_blocks j hx hv i hi
  · intro k hk i hi hc
    simp only [hs.frontend, hs.bit, hs.blocks] at hi hc ⊢
    exact h.secondary k hk i hi hc

end TaggedBut

namespace State

-- Characters that change are those of blocks and chunks still incomplete, and
-- they stay incomplete.
structure Minors (s s' : State) : Prop extends SameShape s s' where
  minor : ∀ k, Frontend.Minor (s.frontend k) (s'.frontend k)
  bit : ∀ i, s'.bit i = s.bit i ∨ ¬ (s.bit i).Done ∧ ¬ (s'.bit i).Done

theorem Minors.done {s s' : State} (h : Minors s s') (i : Nat) :
    (s'.bit i).Done ↔ (s.bit i).Done := by
  rcases h.bit i with h | ⟨h, h'⟩
  · rw [h]
  · exact iff_of_false h' h

theorem Minors.bit_eq_iff {s s' : State} (h : Minors s s') (i : Nat) {c : PartState}
    (hc : c.Done) : s'.bit i = c ↔ s.bit i = c := by
  rcases h.bit i with h | ⟨h, h'⟩
  · rw [h]
  · exact iff_of_false (fun e => h' (e ▸ hc)) fun e => h (e ▸ hc)

end State

theorem TaggedBut.of_minors {x : Option Nat} {s s' : State} (h : TaggedBut x s)
    (hm : Minors s s') (hagree : ∀ i, s'.bit i = (s'.blockAt i).state) : TaggedBut x s' := by
  have hnum := fun k => (hm.frontend k).chunkNum
  have hblocks := fun k => (hm.frontend k).blockNums
  refine ⟨?_, ?_, h.shape_tabled hm.toSameShape, hagree, ?_, ?_, ?_, ?_⟩
  · rw [hm.bitmap_length, hm.blocks_length]; exact h.bitmap_length
  · rw [hm.networks_length]; exact h.networks_pos
  · intro j hj hx
    rw [(hm.frontend 0).bitmap_length] at hj
    rw [(hm.minor 0).done, hblocks]
    simpa only [hm.done] using h.done j hj hx
  · intro i hi hv
    rw [hnum, (hm.minor 0).done]
    exact h.verified_done i (hm.blocks_length ▸ hi) ((hm.bit_eq_iff i (by decide)).mp hv)
  · intro j hx hv i hi
    rw [hblocks] at hi
    have hv' := ((hm.minor 0).eq_iff j (by decide)).mp hv
    exact (hm.bit_eq_iff i (by decide)).mpr (h.verified_blocks j hx hv' i hi)
  · intro k hk i hi hc
    rw [hnum] at hc
    have hc' := ((hm.minor k).eq_iff _ (by decide)).mp hc
    exact (hm.bit_eq_iff i (by decide)).mpr
      (h.secondary k hk i (hm.blocks_length ▸ hi) hc')

theorem FromPrimary.of_minors {s s' : State} (h : FromPrimary s) (hm : Minors s s') :
    FromPrimary s' := by
  intro i hi hv
  rw [(hm.frontend 0).chunkNum]
  exact ((hm.minor 0).eq_iff _ (by decide)).mpr
    (h i (hm.blocks_length ▸ hi) ((hm.bit_eq_iff i (by decide)).mp hv))

theorem SecondaryVerified.of_minors {s s' : State} (h : SecondaryVerified s)
    (hm : Minors s s') : SecondaryVerified s' := by
  intro k hk i hi hc
  rw [(hm.frontend k).chunkNum] at hc
  exact (hm.bit_eq_iff i (by decide)).mpr
    (h k hk i (hm.blocks_length ▸ hi) (((hm.minor k).eq_iff _ (by decide)).mp hc))

section Completes

variable {x : Option Nat} {s s' : State} {i : Nat}

theorem State.Completes.verified_iff (hc : Completes i s s') (hi : ¬ (s.bit i).Done) (i' : Nat) :
    s'.bit i' = .stateVerified ↔ s.bit i' = .stateVerified := by
  rw [hc.bit]
  split
  · next h =>
      obtain ⟨rfl, -⟩ := h
      exact iff_of_false (by decide) fun e => hi (e ▸ by decide)
  · rfl

theorem State.Completes.chunk_verified_iff (hc : Completes i s s') (j : Nat) :
    (s'.frontend 0).chunk j = .stateVerified ↔ (s.frontend 0).chunk j = .stateVerified := by
  rw [hc.chunk]
  split
  · next h => exact iff_of_false (by decide) fun e => h.2.2.1 (e ▸ by decide)
  · rfl

theorem State.Completes.done_of_done (hc : Completes i s s') {j : Nat}
    (h : ((s.frontend 0).chunk j).Done) : ((s'.frontend 0).chunk j).Done := by
  rw [hc.chunk]
  split
  · decide
  · exact h

-- The chunk is complete exactly when its last block is: before that, a chunk
-- that is not complete has no verified block.
theorem TaggedBut.completes (h : TaggedBut x s) (hc : Completes i s s')
    (hi : ¬ (s.bit i).Done) : TaggedBut x s' := by
  have hnum := fun k => (hc.frontend k).chunkNum
  have hblocks := fun k => (hc.frontend k).blockNums
  refine ⟨?_, ?_, h.shape_tabled hc.toSameShape, ?_, ?_, ?_, ?_, ?_⟩
  · rw [hc.bitmap_length, hc.blocks_length]; exact h.bitmap_length
  · rw [hc.networks_length]; exact h.networks_pos
  · intro i'
    rw [hc.bit, hc.blockAt, h.bitmap_length]
    split
    · rfl
    · exact h.agree i'
  · intro j hj hx
    rw [(hc.frontend 0).bitmap_length] at hj
    rw [hblocks]
    have hbits : ∀ i', (s.bit i').Done → (s'.bit i').Done := fun i' hd => by
      rw [hc.bit]
      split
      · decide
      · exact hd
    constructor
    · intro hd i' hi'
      rw [hc.chunk] at hd
      split at hd
      · next hall => rw [hall.2.2.2 i' hi']; decide
      · exact hbits i' ((h.done j hj hx).mp hd i' hi')
    · intro hall
      by_cases hd : ((s.frontend 0).chunk j).Done
      · exact hc.done_of_done hd
      · have hmem : i ∈ (s.frontend 0).blockNums j := by
          by_contra hmem
          refine hd ((h.done j hj hx).mpr fun i' hi' => ?_)
          have hne : i' ≠ i := fun e => hmem (e ▸ hi')
          simpa only [hc.bit, hne, false_and, if_false] using hall i' hi'
        have hcomplete : ∀ i' ∈ (s.frontend 0).blockNums j, s'.bit i' = .stateComplete := by
          intro i' hi'
          refine (hall i' hi').resolve_right fun hv => hd ?_
          obtain ⟨hlt, rfl⟩ := h.mem_blockNums.mp hi'
          exact h.verified_done i' hlt ((hc.verified_iff hi i').mp hv)
        rw [hc.chunk, if_pos ⟨(h.mem_blockNums.mp hmem).2.symm, hj, hd, hcomplete⟩]
        decide
  · intro i' hi' hv
    rw [hnum]
    exact hc.done_of_done
      (h.verified_done i' (hc.blocks_length ▸ hi') ((hc.verified_iff hi i').mp hv))
  · intro j hx hv i' hi'
    rw [hblocks] at hi'
    rw [hc.verified_iff hi]
    exact h.verified_blocks j hx ((hc.chunk_verified_iff j).mp hv) i' hi'
  · intro k hk i' hi' hcm
    rw [hc.secondary k hk] at hcm
    exact (hc.verified_iff hi i').mpr (h.secondary k hk i' (hc.blocks_length ▸ hi') hcm)

theorem FromPrimary.completes (h : FromPrimary s) (hc : Completes i s s')
    (hi : ¬ (s.bit i).Done) : FromPrimary s' := by
  intro i' hi' hv
  rw [(hc.frontend 0).chunkNum, hc.chunk_verified_iff]
  exact h i' (hc.blocks_length ▸ hi') ((hc.verified_iff hi i').mp hv)

theorem SecondaryVerified.completes (h : SecondaryVerified s) (hc : Completes i s s')
    (hi : ¬ (s.bit i).Done) : SecondaryVerified s' := by
  intro k hk i' hi' hcm
  rw [hc.secondary k hk] at hcm
  exact (hc.verified_iff hi i').mpr (h k hk i' (hc.blocks_length ▸ hi') hcm)

end Completes

namespace State

theorem minor_map {g : Frontend → Frontend} (hg : ∀ t, Frontend.Minor t (g t)) (s : State)
    (k : Nat) : Frontend.Minor (s.frontend k) ((s.networks.map g).getD k default) := by
  rw [getD_map_networks]
  split
  · exact hg _
  · exact .refl _

theorem minor_partial (i : Nat) (t : Frontend) : Frontend.Minor t
    (match t.chunk (t.chunkNum i) with
    | .stateMissing => t.setChunk (t.chunkNum i) .statePartial
    | _ => t) := by
  split
  · next hc => exact Frontend.minor_setChunk (hc ▸ by decide) (by decide)
  · exact .refl t

theorem setSwarmerStatePartial_minors (s : State) (i : Nat) :
    Minors s (s.setSwarmerStatePartial i) := by
  unfold setSwarmerStatePartial
  split
  · next h =>
      have hg := minor_partial i
      refine ⟨⟨rfl, rfl, rfl, VB.length_set _ _ _, List.length_map _,
        fun k => (minor_map hg s k).toSame⟩, minor_map hg s, fun i' => ?_⟩
      have hbit := s.bit_setBit i i' .statePartial
      simp only [State.bit] at hbit h ⊢
      rw [hbit]
      split
      · next hi => exact .inr ⟨by rw [hi.1, h]; decide, by decide⟩
      · exact .inl rfl
  · exact ⟨.refl s, fun _ => .refl _, fun _ => .inl rfl⟩

theorem bit_setSwarmerStatePartial {s : State} {i : Nat} (h : s.bit i = .stateMissing)
    (i' : Nat) : (s.setSwarmerStatePartial i).bit i' =
      if i' = i ∧ i < s.verifiedBitmap.length then .statePartial else s.bit i' := by
  simp only [setSwarmerStatePartial, h]
  exact s.bit_setBit i i' .statePartial

theorem blocks_setSwarmerStatePartial (s : State) (i : Nat) :
    (s.setSwarmerStatePartial i).blocks = s.blocks := by
  unfold setSwarmerStatePartial
  split <;> rfl

theorem addBlock_minors (s : State) (i : Nat) : Minors s (s.withStore (·.addBlock i)) :=
  ⟨⟨rfl, rfl, List.length_set, rfl, rfl, fun _ => .refl _⟩, fun _ => .refl _, fun _ => .inl rfl⟩

theorem Minors.trans {s s' s'' : State} (h : Minors s s') (h' : Minors s' s'') :
    Minors s s'' := by
  refine ⟨h.toSameShape.trans h'.toSameShape, fun k => ?_, fun i => ?_⟩
  · refine ⟨(h.frontend k).trans (h'.frontend k), fun j => ?_⟩
    rcases h'.minor k |>.chunk j with e | e
    · rw [e]; exact (h.minor k).chunk j
    · exact .inr ⟨fun hd => e.1 (((h.minor k).done j).mpr hd), e.2⟩
  · rcases h'.bit i with e | e
    · rw [e]; exact h.bit i
    · exact .inr ⟨fun hd => e.1 ((h.done i).mpr hd), e.2⟩

theorem newBlock_minors (s : State) (i : Nat) : Minors s (s.newBlock i) := by
  have h := s.addBlock_minors i
  simp only [newBlock]
  split
  · exact h.trans (setSwarmerStatePartial_minors _ i)
  · exact h

theorem blockAt_newBlock (s : State) (i i' : Nat) : (s.newBlock i).blockAt i' =
    if i' = i ∧ i < s.blocks.length then .partialBlock s.nextBlock else s.blockAt i' := by
  have h := Store.blockAt_setBlockAt s.toStore i i' (.partialBlock s.nextBlock)
  have hb : (s.newBlock i).blocks = s.blocks.set i (.partialBlock s.nextBlock) := by
    simp only [newBlock]
    split
    · rw [blocks_setSwarmerStatePartial]; rfl
    · rfl
  simp only [Store.blockAt, Store.setBlockAt, hb] at h ⊢
  exact h

theorem bit_newBlock {s : State} {i : Nat} (h : s.bit i = .stateMissing) (i' : Nat) :
    (s.newBlock i).bit i' =
      if i' = i ∧ i < s.verifiedBitmap.length then .statePartial else s.bit i' := by
  have h' : (s.withStore (·.addBlock i)).bit i = .stateMissing := h
  simp only [newBlock, h', if_true]
  exact bit_setSwarmerStatePartial h' i'

end State

theorem TaggedBut.newBlock {x : Option Nat} {s : State} {i : Nat} (h : TaggedBut x s)
    (hi : s.blockAt i = .emptyBlock) : TaggedBut x (s.newBlock i) := by
  have hbit : s.bit i = .stateMissing := by rw [h.agree, hi]; rfl
  refine h.of_minors (s.newBlock_minors i) fun i' => ?_
  rw [bit_newBlock hbit, blockAt_newBlock, h.bitmap_length]
  split
  · rfl
  · exact h.agree i'

-- Block `i`, which was complete, is verified.
structure State.Promotes (i : Nat) (s s' : State) : Prop extends SameShape s s' where
  blockAt : ∀ i', s'.blockAt i' =
    if i' = i ∧ i < s.blocks.length then .verifiedBlock else s.blockAt i'
  bit : ∀ i', s'.bit i' =
    if i' = i ∧ i < s.verifiedBitmap.length then .stateVerified else s.bit i'
  primary : ∀ j, (s'.frontend 0).chunk j = (s.frontend 0).chunk j
  secondary : ∀ k, 0 < k → ∀ j, (s'.frontend k).chunk j = (s.frontend k).chunk j ∨
    ∀ i' ∈ (s.frontend k).blockNums j, s'.bit i' = .stateVerified

section Promotes

variable {x : Option Nat} {s s' : State} {i : Nat}

theorem State.Promotes.verified (hp : Promotes i s s') {i' : Nat}
    (h : s.bit i' = .stateVerified) : s'.bit i' = .stateVerified := by
  rw [hp.bit]
  split
  · rfl
  · exact h

theorem State.Promotes.done_iff (hp : Promotes i s s') (hi : (s.bit i).Done) (i' : Nat) :
    (s'.bit i').Done ↔ (s.bit i').Done := by
  rw [hp.bit]
  split
  · next h => obtain ⟨rfl, -⟩ := h; exact iff_of_true (by decide) hi
  · rfl

theorem secondary_verified (htab : ∀ k < s.networks.length, (s.frontend k).Tabled s.blocks.length)
    (hp : Promotes i s s') {k i' : Nat} (hk : 0 < k) (hi' : i' < s.blocks.length) {c : PartState}
    (hc : c.Done) (hs : (s.frontend k).chunk ((s.frontend k).chunkNum i') = c →
      s.bit i' = .stateVerified)
    (h : (s'.frontend k).chunk ((s.frontend k).chunkNum i') = c) :
    s'.bit i' = .stateVerified := by
  rcases hp.secondary k hk ((s.frontend k).chunkNum i') with he | he
  · exact hp.verified (hs (he ▸ h))
  · by_cases hlen : k < s.networks.length
    · exact he i' (((htab k hlen).mem_blockNums _ _).mpr ⟨hi', rfl⟩)
    · rw [frontend_of_length_le (by rw [hp.networks_length]; omega),
        Frontend.chunk_of_length_le (Nat.zero_le _)] at h
      exact absurd hc (h ▸ by decide)

theorem TaggedBut.promotes (h : TaggedBut x s) (hp : Promotes i s s') (hi : (s.bit i).Done)
    (hd : ((s.frontend 0).chunk ((s.frontend 0).chunkNum i)).Done) : TaggedBut x s' := by
  have hnum := fun k => (hp.frontend k).chunkNum
  have hblocks := fun k => (hp.frontend k).blockNums
  refine ⟨?_, ?_, h.shape_tabled hp.toSameShape, ?_, ?_, ?_, ?_, ?_⟩
  · rw [hp.bitmap_length, hp.blocks_length]; exact h.bitmap_length
  · rw [hp.networks_length]; exact h.networks_pos
  · intro i'
    rw [hp.bit, hp.blockAt, h.bitmap_length]
    split
    · rfl
    · exact h.agree i'
  · intro j hj hx
    rw [(hp.frontend 0).bitmap_length] at hj
    rw [hblocks, hp.primary]
    simpa only [hp.done_iff hi] using h.done j hj hx
  · intro i' hi' hv
    rw [hnum, hp.primary]
    rw [hp.bit] at hv
    split at hv
    · next he => obtain ⟨rfl, -⟩ := he; exact hd
    · exact h.verified_done i' (hp.blocks_length ▸ hi') hv
  · intro j hx hv i' hi'
    rw [hblocks] at hi'
    rw [hp.primary] at hv
    exact hp.verified (h.verified_blocks j hx hv i' hi')
  · intro k hk i' hi' hc
    rw [hnum] at hc
    rw [hp.blocks_length] at hi'
    exact secondary_verified h.tabled hp hk hi' (by decide) (h.secondary k hk i' hi') hc

theorem FromPrimary.promotes (h : FromPrimary s) (hp : Promotes i s s')
    (hi : (s.frontend 0).chunk ((s.frontend 0).chunkNum i) = .stateVerified) :
    FromPrimary s' := by
  intro i' hi' hv
  rw [(hp.frontend 0).chunkNum, hp.primary]
  rw [hp.bit] at hv
  split at hv
  · next he => obtain ⟨rfl, -⟩ := he; exact hi
  · exact h i' (hp.blocks_length ▸ hi') hv

theorem SecondaryVerified.promotes (h : SecondaryVerified s) (ht : TaggedBut x s)
    (hp : Promotes i s s') : SecondaryVerified s' := by
  intro k hk i' hi' hc
  rw [(hp.frontend k).chunkNum] at hc
  rw [hp.blocks_length] at hi'
  exact secondary_verified ht.tabled hp hk hi' (by decide) (h k hk i' hi') hc

end Promotes

-- Block `i`, which was complete, is to be downloaded again.
structure State.Resets (i : Nat) (s s' : State) : Prop extends SameShape s s' where
  blockAt : ∀ i', s'.blockAt i' =
    if i' = i ∧ i < s.blocks.length then .emptyBlock else s.blockAt i'
  bit : ∀ i', s'.bit i' =
    if i' = i ∧ i < s.verifiedBitmap.length then .stateMissing else s.bit i'
  minor : ∀ k, Frontend.Minor (s.frontend k) (s'.frontend k)

section Resets

variable {s s' : State} {i : Nat}

theorem State.Resets.verified_iff (hr : Resets i s s') (hi : s.bit i ≠ .stateVerified) (i' : Nat) :
    s'.bit i' = .stateVerified ↔ s.bit i' = .stateVerified := by
  rw [hr.bit]
  split
  · next h => obtain ⟨rfl, -⟩ := h; exact iff_of_false (by decide) hi
  · rfl

theorem TaggedBut.resets {j : Nat} (h : TaggedBut (some j) s) (hr : Resets i s s')
    (hi : s.bit i ≠ .stateVerified) (hj : (s.frontend 0).chunkNum i = j) :
    TaggedBut (some j) s' := by
  have hnum := fun k => (hr.frontend k).chunkNum
  have hblocks := fun k => (hr.frontend k).blockNums
  refine ⟨?_, ?_, h.shape_tabled hr.toSameShape, ?_, ?_, ?_, ?_, ?_⟩
  · rw [hr.bitmap_length, hr.blocks_length]; exact h.bitmap_length
  · rw [hr.networks_length]; exact h.networks_pos
  · intro i'
    rw [hr.bit, hr.blockAt, h.bitmap_length]
    split
    · rfl
    · exact h.agree i'
  · intro j' hj' hx
    rw [(hr.frontend 0).bitmap_length] at hj'
    rw [hblocks, (hr.minor 0).done, h.done j' hj' hx]
    refine forall₂_congr fun i' hi' => ?_
    have hne : i' ≠ i := by
      rintro rfl
      exact hx (by rw [← hj, (h.mem_blockNums.mp hi').2])
    rw [hr.bit, if_neg fun e => hne e.1]
  · intro i' hi' hv
    rw [hnum, (hr.minor 0).done]
    exact h.verified_done i' (hr.blocks_length ▸ hi') ((hr.verified_iff hi i').mp hv)
  · intro j' hx hv i' hi'
    rw [hblocks] at hi'
    exact (hr.verified_iff hi i').mpr
      (h.verified_blocks j' hx (((hr.minor 0).eq_iff j' (by decide)).mp hv) i' hi')
  · intro k hk i' hi' hc
    rw [hnum] at hc
    exact (hr.verified_iff hi i').mpr (h.secondary k hk i' (hr.blocks_length ▸ hi')
      (((hr.minor k).eq_iff _ (by decide)).mp hc))

theorem FromPrimary.resets (h : FromPrimary s) (hr : Resets i s s')
    (hi : s.bit i ≠ .stateVerified) : FromPrimary s' := by
  intro i' hi' hv
  rw [(hr.frontend 0).chunkNum]
  exact ((hr.minor 0).eq_iff _ (by decide)).mpr
    (h i' (hr.blocks_length ▸ hi') ((hr.verified_iff hi i').mp hv))

theorem SecondaryVerified.resets (h : SecondaryVerified s) (hr : Resets i s s')
    (hi : s.bit i ≠ .stateVerified) : SecondaryVerified s' := by
  intro k hk i' hi' hc
  rw [(hr.frontend k).chunkNum] at hc
  exact (hr.verified_iff hi i').mpr (h k hk i' (hr.blocks_length ▸ hi')
    (((hr.minor k).eq_iff _ (by decide)).mp hc))

end Resets

end Mldonkey.Swarming
