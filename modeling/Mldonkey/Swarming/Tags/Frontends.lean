import Mldonkey.Swarming.Tags.Chunks

namespace Mldonkey.Swarming

open Effects State

variable {p q : Prop} {s : State} {j k : Nat}

-- A secondary keeps its complete chunks when one of them is verified.
structure State.KeepsDone (k : Nat) (s s' : State) : Prop extends SameShape s s' where
  done : 0 < k → ∀ j, ((s.frontend k).chunk j).Done → ((s'.frontend k).chunk j).Done

theorem markVerified_marked {f : Frontend → Frontend} (h : Marked none p q s)
    (hk : k < s.networks.length) (hf : ∀ t, Frontend.Same t (f t))
    (hb : ∀ t, (f t).convertedVerifiedBitmap = t.convertedVerifiedBitmap)
    (hq : q → 0 < k → ((s.frontend k).chunk j).Done) :
    Outcome (markVerified k j)
      (fun _ s' => Marked none p q s' ∧ KeepsDone k s s')
      (fun _ _ => False) (s.modifyFrontend k f) := by
  have hs := setsChunk_modifyFrontend hk j .stateVerified hf hb
  unfold markVerified
  rw [outcome_modify_bind]
  by_cases h0 : k = 0
  · subst h0
    rw [if_pos rfl, outcome_get_bind]
    have h₁ := h.setsPrimary hs fun i _ _ => ⟨by decide, fun _ => rfl⟩
    have hlen := (hs.frontend 0).bitmap_length
    -- a chunk out of the bitmap's bounds has no blocks
    by_cases hj : j < (s.frontend 0).convertedVerifiedBitmap.length
    · have hj' : (_ : Frontend).chunk j = .stateVerified := (hs.chunk j).trans (if_pos ⟨rfl, hj⟩)
      refine (forM_setVerifiedBlock_marked _ h₁ hj' fun i hi =>
        h₁.tagged.mem_blockNums.mp hi).mono (fun _ s' ⟨h', ha, hv⟩ => ?_) fun _ _ h => h
      refine ⟨h'.close_verified (fun _ => ha.chunk j hj') fun i hi => hv i ?_,
        hs.toSameShape.trans ha.toSameShape, fun hpos => absurd hpos (by decide)⟩
      exact (ha.frontend 0).blockNums j ▸ hi
    · have hnil : ∀ i, i ∉ (_ : Frontend).blockNums j := fun i hi => by
        obtain ⟨hi, he⟩ := h₁.tagged.mem_blockNums.mp hi
        have := h₁.tagged.primary_tabled.chunkNum_lt i hi
        omega
      rw [List.eq_nil_iff_forall_not_mem.mpr hnil, List.forM_nil, outcome_pure]
      exact ⟨h₁.close_verified (fun hj' => absurd (hlen ▸ hj') hj) fun i hi => absurd hi (hnil i),
        hs.toSameShape, fun hpos => absurd hpos (by decide)⟩
  · rw [if_neg h0, outcome_pure]
    refine ⟨h.setsSecondary (by omega) hs fun hq' => hq hq' (by omega), hs.toSameShape,
      fun _ j' hd => ?_⟩
    rw [hs.chunk]
    split
    · decide
    · exact hd

theorem setFrontendStateVerified_marked (h : Marked none p q s) (hk : k < s.networks.length)
    (hq : q → 0 < k → ((s.frontend k).chunk j).Done) :
    Outcome (setFrontendStateVerified k j)
      (fun _ s' => Marked none p q s' ∧ KeepsDone k s s') (fun _ _ => False) s := by
  unfold setFrontendStateVerified
  rw [outcome_get_bind]
  split
  · exact markVerified_marked h hk (fun t => ⟨rfl, rfl, rfl, rfl, rfl⟩) (fun _ => rfl) hq
  · exact markVerified_marked h hk (fun t => ⟨rfl, rfl, rfl, rfl, rfl⟩) (fun _ => rfl) hq
  · exact markVerified_marked h hk (fun t => ⟨rfl, rfl, rfl, rfl, rfl⟩) (fun _ => rfl) hq
  · exact ⟨h, .refl s, fun _ _ hd => hd⟩

namespace State

theorem minor_missing (s : State) (i : Nat) (t : Frontend) : Frontend.Minor t
    (match t.chunk (t.chunkNum i) with
    | .statePartial =>
        if s.allBlocks t (t.chunkNum i) .stateMissing then t.setChunk (t.chunkNum i) .stateMissing
        else t
    | _ => t) := by
  split
  · next hc =>
      split
      · exact Frontend.minor_setChunk (hc ▸ by decide) (by decide)
      · exact .refl t
  · exact .refl t

theorem setSwarmerStateMissing_frontends (s : State) (i : Nat) :
    ∀ k, Frontend.Minor (s.frontend k) ((s.setSwarmerStateMissing i).frontend k) := by
  have hg := minor_missing (s.setBit i .stateMissing) i
  unfold setSwarmerStateMissing
  split
  · exact minor_map hg s
  · exact minor_map hg s
  · exact fun _ => .refl _
  · exact fun _ => .refl _

theorem setSwarmerStateMissing_bits {s : State} {i : Nat} (h : s.bit i = .stateComplete) :
    (s.setSwarmerStateMissing i).verifiedBitmap = VB.set s.verifiedBitmap i .stateMissing := by
  simp only [setSwarmerStateMissing, h]
  rfl

theorem setSwarmerStateMissing_store (s : State) (i : Nat) :
    (s.setSwarmerStateMissing i).toStore = s.toStore := by
  unfold setSwarmerStateMissing
  split <;> rfl

theorem setSwarmerStateMissing_networks_length (s : State) (i : Nat) :
    (s.setSwarmerStateMissing i).networks.length = s.networks.length := by
  unfold setSwarmerStateMissing
  split <;> first | rfl | exact List.length_map _

end State

theorem resetBlock_resets {i : Nat} (hb : s.blockAt i = .completeBlock)
    (hi : s.bit i = .stateComplete) :
    Outcome (resetBlock i) (fun _ s' => Resets i s s') (fun _ _ => False) s := by
  unfold resetBlock
  rw [outcome_get_bind]
  simp only [hb]
  rw [outcome_modify_bind, outcome_modify_bind, outcome_modify]
  have ht := s.addFileDownloaded_tags none (s.computeBlockBegin i - s.computeBlockEnd i)
  generalize s.addFileDownloaded none (s.computeBlockBegin i - s.computeBlockEnd i) = s₁ at ht
  have hbit : (s₁.withStore (·.setBlockAt i .emptyBlock)).bit i = .stateComplete := by
    rw [← hi, ← ht.bit]; rfl
  have hstore := setSwarmerStateMissing_store (s₁.withStore (·.setBlockAt i .emptyBlock)) i
  have hbits := setSwarmerStateMissing_bits hbit
  have hfront := setSwarmerStateMissing_frontends (s₁.withStore (·.setBlockAt i .emptyBlock)) i
  have hnet := setSwarmerStateMissing_networks_length (s₁.withStore (·.setBlockAt i .emptyBlock)) i
  have hfront' : ∀ k, (s₁.withStore (·.setBlockAt i .emptyBlock)).frontend k = s.frontend k :=
    ht.frontend
  have hblocks := congrArg Store.blocks hstore
  refine ⟨⟨(congrArg Store.size hstore).trans ht.size,
    (congrArg Store.blockPos hstore).trans ht.blockPos, ?_, ?_, ?_, fun k => ?_⟩, fun i' => ?_,
    fun i' => ?_, fun k => ?_⟩
  · rw [hblocks, ← ht.blocks]; exact List.length_set
  · rw [hbits, VB.length_set, ← ht.verifiedBitmap]; rfl
  · rw [hnet, ← ht.networks]; rfl
  · rw [← hfront']; exact (hfront k).toSame
  · have := Store.blockAt_setBlockAt s₁.toStore i i' .emptyBlock
    rw [hstore]
    simp only [Store.blockAt, ht.blocks] at this ⊢
    exact this
  · simp only [State.bit, hbits, VB.get_set, ← ht.verifiedBitmap]
    rfl
  · rw [← hfront']; exact hfront k

-- The blocks of a chunk of the primary that failed its verification.
theorem forM_resetBlock_marked {j : Nat} :
    ∀ (l : List Nat) {s : State}, l.Nodup → Marked (some j) p q s →
      ¬ ((s.frontend 0).chunk j).Done →
      (∀ i ∈ l, (s.frontend 0).chunkNum i = j ∧ s.bit i = .stateComplete) →
      Outcome (forM l resetBlock)
        (fun _ s' => Marked (some j) p q s' ∧ SameShape s s' ∧
          ¬ ((s'.frontend 0).chunk j).Done ∧
          (∀ i ∈ l, s'.bit i = .stateMissing) ∧ ∀ i ∉ l, s'.bit i = s.bit i)
        (fun _ _ => False) s
  | [], s, _, h, hj, _ => by simpa using ⟨h, .refl s, hj⟩
  | i :: l, s, hnd, h, hj, hl => by
      obtain ⟨hij, hi⟩ := hl i (by simp)
      obtain ⟨hil, hnd⟩ := List.nodup_cons.mp hnd
      have hb : s.blockAt i = .completeBlock := by
        have := (h.tagged.agree i).symm.trans hi
        cases hb : s.blockAt i <;> simp_all [BlockV.state]
      have hlt := h.tagged.lt_of_bit (i := i) (by rw [hi]; decide)
      rw [List.forM_cons]
      refine (resetBlock_resets hb hi).bind fun _ s₁ hr => ?_
      have h₁ := h.resets hr (by rw [hi]; decide) hij
      have hj₁ : ¬ ((s₁.frontend 0).chunk j).Done := fun hd => hj (((hr.minor 0).done j).mp hd)
      have hbit : ∀ i', i' ≠ i → s₁.bit i' = s.bit i' := fun i' hne => by
        rw [hr.bit, if_neg fun e => hne e.1]
      refine (forM_resetBlock_marked l hnd h₁ hj₁ fun i' hi' => ?_).mono
        (fun _ s' hend => ⟨hend.1, hr.toSameShape.trans hend.2.1, hend.2.2.1,
          fun i' hi' => ?_, fun i' hi' => ?_⟩) fun _ _ h => h
      · obtain ⟨hij', hc⟩ := hl i' (by simp [hi'])
        exact ⟨(hr.frontend 0).chunkNum i' ▸ hij',
          (hbit i' fun e => hil (e ▸ hi')).trans hc⟩
      · rcases List.mem_cons.mp hi' with rfl | hi'
        · rw [hend.2.2.2.2 _ hil, hr.bit, if_pos ⟨rfl, by rw [h.tagged.bitmap_length]; exact hlt⟩]
        · exact hend.2.2.2.1 i' hi'
      · have hne : i' ≠ i := fun e => hi' (by simp [e])
        rw [hend.2.2.2.2 i' fun e => hi' (by simp [e]), hbit i' hne]

-- A primary's chunk is reset if none of its blocks is verified, which is so
-- when only its own verification verifies blocks. A secondary's complete chunk
-- has verified blocks, so the second assert fails.
theorem setFrontendStateMissing_marked (h : Marked none p q s)
    (hc : (s.frontend k).chunk j = .stateComplete) :
    Outcome (setFrontendStateMissing k j) (fun _ s' => Marked none p q s' ∧ SameShape s s')
      (fun e s' => s' = s ∧ e = .assertFailure .setFrontendStateMissing ∧ (p → 0 < k)) s := by
  have hk : k < s.networks.length := by
    by_contra hn
    rw [frontend_of_length_le (by omega), Frontend.chunk_of_length_le (Nat.zero_le _)] at hc
    exact absurd hc (by decide)
  have hj : j < (s.frontend k).convertedVerifiedBitmap.length := by
    by_contra hn
    rw [Frontend.chunk_of_length_le (by omega)] at hc
    exact absurd hc (by decide)
  obtain ⟨i₀, hi₀, hij₀⟩ := (h.tagged.tabled k hk).exists_block j hj
  have hmem₀ : i₀ ∈ (s.frontend k).blockNums j :=
    ((h.tagged.tabled k hk).mem_blockNums i₀ j).mpr ⟨hi₀, hij₀⟩
  unfold setFrontendStateMissing
  rw [outcome_get_bind, outcome_bind, outcome_check]
  refine ⟨fun _ => ?_, fun hn => absurd hc hn⟩
  rw [outcome_bind, outcome_check]
  refine ⟨fun hnv => ?_, fun hv => ⟨rfl, rfl, fun hp => ?_⟩⟩
  · have h0 : k = 0 := by
      by_contra hne
      exact hnv i₀ hmem₀ (h.tagged.secondary k (by omega) i₀ hi₀ (hij₀ ▸ hc))
    subst h0
    have hbits : ∀ i ∈ (s.frontend 0).blockNums j, s.bit i = .stateComplete := fun i hi =>
      ((h.tagged.done j hj (by simp)).mp (hc ▸ by decide) i hi).resolve_right (hnv i hi)
    have hall : s.allBlocks (s.frontend 0) j .stateComplete = true :=
      (s.allBlocks_iff _ _ _).mpr hbits
    rw [outcome_modify_bind, if_pos hall, outcome_modify_bind]
    have hs := setsChunk_modifyFrontend (s := s) hk j .stateMissing
      (f := fun t => { t with ncompleteChunks := t.ncompleteChunks - 1 })
      (fun t => ⟨rfl, rfl, rfl, rfl, rfl⟩) (fun _ => rfl)
    have h₁ := h.setsPrimary hs fun i hi hv => absurd hv (hnv i hi)
    have hj₁ := (hs.chunk j).trans (if_pos ⟨rfl, hj⟩)
    refine (forM_resetBlock_marked _ ((h.tagged.primary_tabled).nodup j) h₁
      (by rw [hj₁]; decide) fun i hi =>
      ⟨?_, (hs.bit i).trans (hbits i hi)⟩).mono
        (fun _ s' ⟨h', hs', hj', hm, _⟩ => ⟨h'.close_missing hj' fun _ => ⟨i₀, ?_, ?_⟩,
          hs.toSameShape.trans hs'⟩)
        fun _ _ h => h.elim
    · rw [(hs.frontend 0).chunkNum]; exact (h.tagged.mem_blockNums.mp hi).2
    · rw [(hs'.frontend 0).blockNums, (hs.frontend 0).blockNums]; exact hmem₀
    · rw [hm i₀ hmem₀]; decide
  · -- a verified block of the primary's complete chunk would not come from the primary
    by_contra h0
    have h0 : k = 0 := by omega
    subst h0
    push Not at hv
    obtain ⟨i, hi, hv⟩ := hv
    obtain ⟨hlt, hij⟩ := h.tagged.mem_blockNums.mp hi
    have := h.fromPrimary hp i hlt hv
    rw [hij, hc] at this
    exact absurd this (by decide)

end Mldonkey.Swarming
