import Mldonkey.Swarming.Tags.Steps

namespace Mldonkey.Swarming

open Effects State

-- The invariant of the tags. With `p`, only the primary's verifier verifies
-- blocks; with `q`, only the blocks make a secondary's chunks verified.
structure Marked (x : Option Nat) (p q : Prop) (s : State) : Prop where
  tagged : TaggedBut x s
  fromPrimary : p → FromPrimary s
  secondary : q → SecondaryVerified s

-- Nothing that is verified is given up.
structure State.Advances (s s' : State) : Prop extends SameShape s s' where
  bit : ∀ i, s.bit i = .stateVerified → s'.bit i = .stateVerified
  chunk : ∀ j, (s.frontend 0).chunk j = .stateVerified → (s'.frontend 0).chunk j = .stateVerified

theorem State.Advances.refl (s : State) : Advances s s := ⟨.refl s, fun _ h => h, fun _ h => h⟩

theorem State.Advances.trans {s s' s'' : State} (h : Advances s s') (h' : Advances s' s'') :
    Advances s s'' :=
  ⟨h.toSameShape.trans h'.toSameShape, fun i hi => h'.bit i (h.bit i hi),
    fun j hj => h'.chunk j (h.chunk j hj)⟩

namespace State

theorem verifySecondary_same (s : State) (i : Nat) (t : Frontend) :
    Frontend.Same t (s.verifySecondary i t) := by
  simp only [verifySecondary]
  split
  · split <;> split <;>
      first | exact .refl t | exact ⟨rfl, VB.length_set _ _ _, rfl, rfl, rfl⟩
  · exact .refl t

-- Only a chunk all of whose blocks are verified changes.
theorem chunk_verifySecondary (s : State) (i j : Nat) (t : Frontend) :
    (s.verifySecondary i t).chunk j = t.chunk j ∨
      ∀ i' ∈ t.blockNums j, s.bit i' = .stateVerified := by
  by_cases hall : s.allBlocks t (t.chunkNum i) .stateVerified
  · by_cases hj : j = t.chunkNum i
    · exact .inr (hj ▸ (s.allBlocks_iff t _ _).mp hall)
    · have hset : ∀ c, (t.setChunk (t.chunkNum i) c).chunk j = t.chunk j := fun c => by
        rw [Frontend.chunk_setChunk, if_neg fun h => hj h.1]
      refine .inl ?_
      simp only [verifySecondary, hall, if_true]
      split <;> split <;> first | rfl | exact hset _
  · exact .inl (by simp only [verifySecondary, hall]; rfl)

theorem frontend_verifySecondaries (s : State) (i k : Nat) :
    (s.verifySecondaries i).frontend k =
      if 0 < k ∧ k < s.networks.length then s.verifySecondary i (s.frontend k)
      else s.frontend k := by
  have hmap : (s.verifySecondaries i).networks =
      s.networks.take 1 ++ (s.networks.drop 1).map (s.verifySecondary i) := rfl
  cases hn : s.networks with
  | nil => simp [frontend, hmap, hn]
  | cons t l =>
      cases k with
      | zero => simp [frontend, hmap, hn]
      | succ k =>
          have h := getD_map_networks l (s.verifySecondary i) k
          simp only [frontend, hmap, hn, List.take_succ_cons, List.take_zero, List.drop_succ_cons,
            List.drop_zero, List.singleton_append, List.getD_cons_succ, h, List.length_cons,
            Nat.succ_pos, true_and, Nat.succ_lt_succ_iff]

theorem networks_length_verifySecondaries (s : State) (i : Nat) :
    (s.verifySecondaries i).networks.length = s.networks.length := by
  have hmap : (s.verifySecondaries i).networks =
      s.networks.take 1 ++ (s.networks.drop 1).map (s.verifySecondary i) := rfl
  rw [hmap, List.length_append, List.length_map, ← List.length_append, List.take_append_drop]

theorem promotes_setBit (s : State) (i : Nat) :
    Promotes i s ((s.withStore (·.setBlockAt i .verifiedBlock)).setBit i .stateVerified) :=
  ⟨(s.setBlockAt_shape i _).trans (setBit_shape _ i _),
    fun i' => Store.blockAt_setBlockAt s.toStore i i' .verifiedBlock,
    fun i' => s.bit_setBit i i' .stateVerified, fun _ => rfl, fun _ _ _ => .inl rfl⟩

theorem promotes_verifySecondaries (s : State) (i : Nat) :
    Promotes i s (((s.withStore (·.setBlockAt i .verifiedBlock)).setBit i .stateVerified
      ).verifySecondaries i) := by
  have h := s.promotes_setBit i
  refine ⟨⟨h.size, h.blockPos, h.blocks_length, h.bitmap_length,
    (networks_length_verifySecondaries _ i).trans h.networks_length, fun k => ?_⟩,
    h.blockAt, h.bit, fun j => ?_, fun k hk j => ?_⟩
  · rw [frontend_verifySecondaries]
    split
    · exact (h.frontend k).trans (verifySecondary_same _ i _)
    · exact h.frontend k
  · rw [frontend_verifySecondaries, if_neg (by omega)]
    exact h.primary j
  · rw [frontend_verifySecondaries]
    split
    · exact chunk_verifySecondary _ i j _
    · exact h.secondary k hk j

end State

namespace Marked

variable {x : Option Nat} {p q : Prop} {s s' : State} {i j : Nat}

theorem of_sameTags (h : Marked x p q s) (hs : SameTags s s') : Marked x p q s' := by
  refine ⟨h.tagged.of_sameTags hs, fun hp i hi hv => ?_, fun hq k hk i hi hc => ?_⟩
  · simp only [hs.frontend, hs.bit, hs.blocks] at hi hv ⊢
    exact h.fromPrimary hp i hi hv
  · simp only [hs.frontend, hs.bit, hs.blocks] at hi hc ⊢
    exact h.secondary hq k hk i hi hc

theorem completes (h : Marked x p q s) (hc : Completes i s s') (hi : ¬ (s.bit i).Done) :
    Marked x p q s' :=
  ⟨h.tagged.completes hc hi, fun hp => (h.fromPrimary hp).completes hc hi,
    fun hq => (h.secondary hq).completes hc hi⟩

theorem promotes (h : Marked x p q s) (hp : Promotes i s s') (hi : (s.bit i).Done)
    (hd : ((s.frontend 0).chunk ((s.frontend 0).chunkNum i)).Done)
    (hv : p → (s.frontend 0).chunk ((s.frontend 0).chunkNum i) = .stateVerified) :
    Marked x p q s' :=
  ⟨h.tagged.promotes hp hi hd, fun hp' => (h.fromPrimary hp').promotes hp (hv hp'),
    fun hq => (h.secondary hq).promotes h.tagged hp⟩

theorem resets (h : Marked (some j) p q s) (hr : Resets i s s') (hi : s.bit i ≠ .stateVerified)
    (hj : (s.frontend 0).chunkNum i = j) : Marked (some j) p q s' :=
  ⟨h.tagged.resets hr hi hj, fun hp => (h.fromPrimary hp).resets hr hi,
    fun hq => (h.secondary hq).resets hr hi⟩

theorem newBlock (h : Marked x p q s) (hi : s.blockAt i = .emptyBlock) :
    Marked x p q (s.newBlock i) :=
  ⟨h.tagged.newBlock hi, fun hp => (h.fromPrimary hp).of_minors (s.newBlock_minors i),
    fun hq => (h.secondary hq).of_minors (s.newBlock_minors i)⟩

theorem not_done (h : Marked x p q s) (hi : ¬ (s.blockAt i).state.Done) : ¬ (s.bit i).Done := by
  rw [h.tagged.agree]; exact hi

theorem setCompletedBlock (h : Marked x p q s) (maybeT : Option Nat) (i : Nat) :
    Marked x p q (s.setCompletedBlock maybeT i) := by
  by_cases hd : (s.blockAt i).state.Done
  · rw [setCompletedBlock_of_done maybeT hd]; exact h
  · exact h.completes (setCompletedBlock_completes maybeT (h.not_done hd) hd) (h.not_done hd)

end Marked

theorem setCompletedBlock_advances {x : Option Nat} {p q : Prop} {s : State}
    (h : Marked x p q s) (maybeT : Option Nat) (i : Nat) :
    Advances s (s.setCompletedBlock maybeT i) := by
  by_cases hd : (s.blockAt i).state.Done
  · rw [setCompletedBlock_of_done maybeT hd]; exact .refl s
  · have hc := setCompletedBlock_completes maybeT (h.not_done hd) hd
    exact ⟨hc.toSameShape, fun i' => (hc.verified_iff (h.not_done hd) i').mpr,
      fun j => (hc.chunk_verified_iff j).mpr⟩

theorem setCompletedBlock_bit {x : Option Nat} {p q : Prop} {s : State} {i : Nat}
    (h : Marked x p q s) (maybeT : Option Nat) (hi : i < s.blocks.length)
    (hv : s.blockAt i ≠ .verifiedBlock) :
    (s.setCompletedBlock maybeT i).bit i = .stateComplete := by
  by_cases hd : (s.blockAt i).state.Done
  · rw [setCompletedBlock_of_done maybeT hd, h.tagged.agree]
    cases hb : s.blockAt i with
    | completeBlock => rfl
    | verifiedBlock => exact absurd hb hv
    | emptyBlock => rw [hb] at hd; exact absurd hd (by decide)
    | partialBlock b => rw [hb] at hd; exact absurd hd (by simp [BlockV.state])
  · have hc := setCompletedBlock_completes maybeT (h.not_done hd) hd
    rw [hc.bit, if_pos ⟨rfl, h.tagged.bitmap_length ▸ hi⟩]

-- Completing and then verifying a block of a verified chunk of the primary.
theorem setVerifiedBlock_marked {x : Option Nat} {p q : Prop} {s : State} {i : Nat}
    (h : Marked x p q s) (hi : i < s.blocks.length)
    (hc : (s.frontend 0).chunk ((s.frontend 0).chunkNum i) = .stateVerified) :
    Outcome (setVerifiedBlock i)
      (fun _ s' => Marked x p q s' ∧ Advances s s' ∧ s'.bit i = .stateVerified)
      (fun _ _ => False) s := by
  have hend : ∀ s₁ s', Marked x p q s₁ → Advances s s₁ → s₁.bit i = .stateComplete →
      Promotes i s₁ s' → Marked x p q s' ∧ Advances s s' ∧ s'.bit i = .stateVerified := by
    intro s₁ s' h₁ ha hbit hp
    have hv : (s₁.frontend 0).chunk ((s₁.frontend 0).chunkNum i) = .stateVerified := by
      rw [(ha.frontend 0).chunkNum]; exact ha.chunk _ hc
    refine ⟨h₁.promotes hp (hbit ▸ by decide) (hv ▸ by decide) fun _ => hv,
      ha.trans ⟨hp.toSameShape, fun _ => hp.verified, fun j hj => (hp.primary j).trans hj⟩, ?_⟩
    rw [hp.bit, if_pos ⟨rfl, by rw [h₁.tagged.bitmap_length, ha.blocks_length]; exact hi⟩]
  have h₁ := h.setCompletedBlock none i
  have ha := setCompletedBlock_advances h none i
  have hbit := setCompletedBlock_bit h none hi
  generalize heq : s.setCompletedBlock none i = s₁ at h₁ ha hbit
  unfold setVerifiedBlock
  rw [outcome_get_bind]
  split
  · next hv => exact ⟨h, .refl s, by rw [h.tagged.agree, hv]; rfl⟩
  · next hv =>
      rw [outcome_modify_bind, outcome_modify_bind, heq]
      have hbit₁ := hbit hv
      have hone := hend s₁ _ h₁ ha hbit₁ (s₁.promotes_setBit i)
      have hall := hend s₁ _ h₁ ha hbit₁ (s₁.promotes_verifySecondaries i)
      unfold setSwarmerStateVerified
      rw [outcome_get_bind]
      split
      · next hv' => exact absurd (hbit₁.symm.trans hv') (by decide)
      simp only [outcome_modify_bind, outcome_get_bind]
      split
      · next hn =>
          have hn' : s₁.networks = [] := hn
          exact absurd h₁.tagged.networks_pos (by simp [hn'])
      · next t l hn =>
          have ht : s₁.frontend 0 = t := by
            have hn' : s₁.networks = t :: l := hn
            simp [frontend, hn']
          have hv : t.chunk (t.chunkNum i) = .stateVerified := by
            rw [← ht, (ha.frontend 0).chunkNum]; exact ha.chunk _ hc
          have hreal : Outcome (do
              check (t.chunk (t.chunkNum i) = .stateVerified)
                (Exn.assertFailure .setSwarmerStateVerified)
              modify (·.verifySecondaries i))
              (fun _ s' => Marked x p q s' ∧ Advances s s' ∧ s'.bit i = .stateVerified)
              (fun _ _ => False)
              ((s₁.withStore (·.setBlockAt i .verifiedBlock)).setBit i .stateVerified) := by
            rw [outcome_bind, outcome_check]
            exact ⟨fun _ => hall, fun hn => hn hv⟩
          cases t.verifier with
          | noVerification => exact hone
          | verificationNotAvailable => exact hone
          | forceVerification => exact hreal
          | verification uids => exact hreal

-- All blocks of a chunk that the primary has verified.
theorem forM_setVerifiedBlock_marked {x : Option Nat} {p q : Prop} {j : Nat} :
    ∀ (l : List Nat) {s : State}, Marked x p q s →
      (s.frontend 0).chunk j = .stateVerified →
      (∀ i ∈ l, i < s.blocks.length ∧ (s.frontend 0).chunkNum i = j) →
      Outcome (forM l setVerifiedBlock)
        (fun _ s' => Marked x p q s' ∧ Advances s s' ∧ ∀ i ∈ l, s'.bit i = .stateVerified)
        (fun _ _ => False) s
  | [], s, h, _, _ => by simpa using ⟨h, .refl s⟩
  | i :: l, s, h, hj, hl => by
      obtain ⟨hi, hij⟩ := hl i (by simp)
      rw [List.forM_cons]
      refine (setVerifiedBlock_marked h hi (hij ▸ hj)).bind fun _ s₁ ⟨h₁, ha, hv⟩ => ?_
      refine (forM_setVerifiedBlock_marked l h₁ (ha.chunk j hj) fun i' hi' => ?_).mono
        (fun _ s' ⟨h', ha', hv'⟩ => ⟨h', ha.trans ha', fun i' hi' => ?_⟩) fun _ _ h => h
      · obtain ⟨hlt, hij'⟩ := hl i' (by simp [hi'])
        exact ⟨ha.blocks_length ▸ hlt, (ha.frontend 0).chunkNum i' ▸ hij'⟩
      · rcases List.mem_cons.mp hi' with rfl | hi'
        · exact ha'.bit _ hv
        · exact hv' i' hi'

-- The character of chunk `j` of frontend `k` is set and nothing else that the
-- invariant reads.
structure State.SetsChunk (k j : Nat) (c : PartState) (s s' : State) : Prop
    extends SameShape s s' where
  blocks : s'.blocks = s.blocks
  bitmap : s'.verifiedBitmap = s.verifiedBitmap
  other : ∀ k', k' ≠ k → s'.frontend k' = s.frontend k'
  chunk : ∀ j', (s'.frontend k).chunk j' =
    if j' = j ∧ j < (s.frontend k).convertedVerifiedBitmap.length then c
    else (s.frontend k).chunk j'

namespace State

theorem SetsChunk.bit {k j : Nat} {c : PartState} {s s' : State} (h : SetsChunk k j c s s')
    (i : Nat) : s'.bit i = s.bit i := by simp only [State.bit, h.bitmap]

theorem SetsChunk.blockAt {k j : Nat} {c : PartState} {s s' : State} (h : SetsChunk k j c s s')
    (i : Nat) : s'.blockAt i = s.blockAt i := by simp only [Store.blockAt, h.blocks]

-- The counters are changed first.
theorem setsChunk_modifyFrontend {s : State} {k : Nat} (hk : k < s.networks.length) (j : Nat)
    (c : PartState) {f : Frontend → Frontend} (hf : ∀ t, Frontend.Same t (f t))
    (hb : ∀ t, (f t).convertedVerifiedBitmap = t.convertedVerifiedBitmap) :
    SetsChunk k j c s ((s.modifyFrontend k f).modifyFrontend k (·.setChunk j c)) := by
  have hlen : k < (s.modifyFrontend k f).networks.length := by
    rw [(shape_of_modifyFrontend hf).networks_length]; exact hk
  refine ⟨(shape_of_modifyFrontend hf).trans
    (shape_of_modifyFrontend fun t => Frontend.same_setChunk t j c), rfl, rfl, fun k' hk' => ?_,
    fun j' => ?_⟩
  · rw [frontend_modifyFrontend, if_neg fun h => hk' h.1, frontend_modifyFrontend,
      if_neg fun h => hk' h.1]
  · rw [frontend_modifyFrontend, if_pos ⟨rfl, hlen⟩, frontend_modifyFrontend, if_pos ⟨rfl, hk⟩,
      Frontend.chunk_setChunk, (hf _).bitmap_length]
    simp only [Frontend.chunk, hb]

end State

namespace Marked

variable {p q : Prop} {s s' : State} {j k : Nat} {c : PartState}

theorem setsPrimary (h : Marked none p q s) (hs : SetsChunk 0 j c s s')
    (hv : ∀ i ∈ (s.frontend 0).blockNums j, s.bit i = .stateVerified → c.Done ∧
      (p → c = .stateVerified)) : Marked (some j) p q s' := by
  have hnum := fun k => (hs.frontend k).chunkNum
  have hblocks := fun k => (hs.frontend k).blockNums
  have ht := h.tagged
  refine ⟨⟨?_, ?_, ht.shape_tabled hs.toSameShape, ?_, ?_, ?_, ?_, ?_⟩, ?_, ?_⟩
  · rw [hs.bitmap, hs.blocks]; exact ht.bitmap_length
  · rw [hs.networks_length]; exact ht.networks_pos
  · intro i; rw [hs.bit, hs.blockAt]; exact ht.agree i
  · intro j' hj' hx
    have hne : j' ≠ j := fun e => hx (e ▸ rfl)
    rw [(hs.frontend 0).bitmap_length] at hj'
    rw [hs.chunk, if_neg fun e => hne e.1, hblocks]
    simpa only [hs.bit] using ht.done j' hj' (by simp)
  · intro i hi hb
    rw [hs.blocks] at hi
    rw [hs.bit] at hb
    rw [hnum, hs.chunk]
    split
    · next he => exact (hv i (ht.mem_blockNums.mpr ⟨hi, he.1⟩) hb).1
    · exact ht.verified_done i hi hb
  · intro j' hx hc i hi
    have hne : j' ≠ j := fun e => hx (e ▸ rfl)
    rw [hs.chunk, if_neg fun e => hne e.1] at hc
    rw [hblocks] at hi
    rw [hs.bit]
    exact ht.verified_blocks j' (by simp) hc i hi
  · intro k hk i hi hc
    rw [hs.other k (by omega)] at hc
    rw [hs.bit]
    exact ht.secondary k hk i (hs.blocks ▸ hi) hc
  · intro hp i hi hb
    rw [hs.blocks] at hi
    rw [hs.bit] at hb
    rw [hnum, hs.chunk]
    split
    · next he => exact (hv i (ht.mem_blockNums.mpr ⟨hi, he.1⟩) hb).2 hp
    · exact h.fromPrimary hp i hi hb
  · intro hq k hk i hi hc
    rw [hs.other k (by omega)] at hc
    rw [hs.bit]
    exact h.secondary hq k hk i (hs.blocks ▸ hi) hc

theorem setsSecondary (h : Marked none p q s) (hk : 0 < k)
    (hs : SetsChunk k j .stateVerified s s') (hq : q → ((s.frontend k).chunk j).Done) :
    Marked none p q s' := by
  have h0 : s'.frontend 0 = s.frontend 0 := hs.other 0 (by omega)
  have ht := h.tagged
  refine ⟨⟨?_, ?_, ht.shape_tabled hs.toSameShape, ?_, ?_, ?_, ?_, ?_⟩, ?_, ?_⟩
  · rw [hs.bitmap, hs.blocks]; exact ht.bitmap_length
  · rw [hs.networks_length]; exact ht.networks_pos
  · intro i; rw [hs.bit, hs.blockAt]; exact ht.agree i
  · rw [h0]
    simpa only [hs.bit] using ht.done
  · rw [h0, hs.blocks]
    simpa only [hs.bit] using ht.verified_done
  · rw [h0]
    simpa only [hs.bit] using ht.verified_blocks
  · intro k' hk' i hi hc
    rw [hs.bit]
    refine ht.secondary k' hk' i (hs.blocks ▸ hi) ?_
    by_cases he : k' = k
    · subst he
      rw [(hs.frontend k').chunkNum, hs.chunk] at hc
      split at hc
      · exact absurd hc (by decide)
      · exact hc
    · rw [hs.other k' he] at hc; exact hc
  · intro hp i hi hb
    rw [h0]
    rw [hs.bit] at hb
    exact h.fromPrimary hp i (hs.blocks ▸ hi) hb
  · intro hq' k' hk' i hi hc
    rw [hs.blocks] at hi
    rw [hs.bit]
    by_cases he : k' = k
    · subst he
      rw [(hs.frontend k').chunkNum, hs.chunk] at hc
      split at hc
      · next he =>
          rcases hq hq' with hd | hd
          · exact ht.secondary k' hk' i hi (he.1 ▸ hd)
          · exact h.secondary hq' k' hk' i hi (he.1 ▸ hd)
      · exact h.secondary hq' k' hk' i hi hc
    · rw [hs.other k' he] at hc; exact h.secondary hq' k' hk' i hi hc

theorem close_verified (h : Marked (some j) p q s)
    (hc : j < (s.frontend 0).convertedVerifiedBitmap.length →
      (s.frontend 0).chunk j = .stateVerified)
    (hv : ∀ i ∈ (s.frontend 0).blockNums j, s.bit i = .stateVerified) : Marked none p q s := by
  have ht := h.tagged
  refine ⟨{ ht with done := fun j' hj' _ => ?_, verified_blocks := fun j' _ => ?_ },
    h.fromPrimary, h.secondary⟩
  · by_cases he : j' = j
    · subst he
      exact iff_of_true (hc hj' ▸ by decide) fun i hi => hv i hi ▸ by decide
    · exact ht.done j' hj' (by simpa using he)
  · by_cases he : j' = j
    · subst he; exact fun _ => hv
    · exact ht.verified_blocks j' (by simpa using he)

theorem close_missing (h : Marked (some j) p q s) (hc : ¬ ((s.frontend 0).chunk j).Done)
    (hm : j < (s.frontend 0).convertedVerifiedBitmap.length →
      ∃ i ∈ (s.frontend 0).blockNums j, ¬ (s.bit i).Done) : Marked none p q s := by
  have ht := h.tagged
  refine ⟨{ ht with done := fun j' hj' _ => ?_, verified_blocks := fun j' _ hv => ?_ },
    h.fromPrimary, h.secondary⟩
  · by_cases he : j' = j
    · subst he
      obtain ⟨i, hi, hd⟩ := hm hj'
      exact iff_of_false hc fun hall => hd (hall i hi)
    · exact ht.done j' hj' (by simpa using he)
  · by_cases he : j' = j
    · subst he
      exact absurd (hv ▸ by decide) hc
    · exact ht.verified_blocks j' (by simpa using he) hv

end Marked

end Mldonkey.Swarming
