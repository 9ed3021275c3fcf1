import Mldonkey.Swarming.Ledger.Blocks
import Mldonkey.Swarming.Tags.Chunks

namespace Mldonkey.Swarming

open Effects HalfOpen

namespace State

open Store

variable {c d : Prop} {s s' s'' : State} {b : BlockId} {r : RangeId} {i : Nat}

-- What completes block `i`, and may mark it as verified.
def Sealed (i : Nat) (s s' : State) : Prop :=
  ∃ maybeT, SameBooks (s.setCompletedBlock maybeT i) s' ∨
    SameBooks ((s.setCompletedBlock maybeT i).withStore (·.setBlockAt i .verifiedBlock)) s'

-- The bytes missing in block `i` are present and counted.
structure Completed (i : Nat) (s s' : State) : Prop extends Rest s s' where
  store : s'.toStore = s.toStore.completeAt i ∨
    s'.toStore = (s.toStore.completeAt i).setBlockAt i .verifiedBlock
  downloaded : (s'.file 0).downloaded = (s.file 0).downloaded + (missingAt s.toStore i).card

theorem Sealed.trans_same (h : Sealed i s s') (h' : SameBooks s' s'') : Sealed i s s'' := by
  obtain ⟨maybeT, h | h⟩ := h
  · exact ⟨maybeT, .inl (h.trans h')⟩
  · exact ⟨maybeT, .inr (h.trans h')⟩

theorem Sealed.rest (h : Sealed i s s') : Rest s s' := by
  obtain ⟨maybeT, h | h⟩ := h
  · exact (s.rest_setCompletedBlock maybeT i).trans h.toRest
  · exact ((s.rest_setCompletedBlock maybeT i).trans (rest_withStore _ _)).trans h.toRest

theorem Sealed.store (h : Sealed i s s') : s'.toStore = s.toStore.completeAt i ∨
    s'.toStore = (s.toStore.completeAt i).setBlockAt i .verifiedBlock := by
  obtain ⟨maybeT, h | h⟩ := h
  · exact .inl (h.store.trans (s.toStore_setCompletedBlock maybeT i))
  · refine .inr (h.store.trans ?_)
    rw [toStore_withStore, toStore_setCompletedBlock]

theorem Sealed.downloaded (h : Sealed i s s') :
    ∃ maybeT, s'.file 0 = (s.setCompletedBlock maybeT i).file 0 := by
  obtain ⟨maybeT, h | h⟩ := h
  · exact ⟨maybeT, h.file 0⟩
  · exact ⟨maybeT, h.file 0⟩

theorem Sealed.completed (h : Sealed i s s') (hb : Books c d s.toStore) (hi : i < s.blocks.length)
    (hf : 0 < s.files.length) : Completed i s s' := by
  obtain ⟨maybeT, hd⟩ := h.downloaded
  exact ⟨h.rest, h.store, by rw [hd]; exact downloaded_setCompletedBlock hb hi hf maybeT⟩

-- The last bytes missing in a block complete it.
theorem Sealed.completed_last (h : Sealed i s s'') (hb : Books c d s'.toStore)
    (hi : i < s'.blocks.length) (hf : 0 < s'.files.length) (hbi : s'.blockAt i = .partialBlock b)
    (hl : s'.ranges b = [r]) {m : Option Nat}
    (hs : s = s'.advanceRange m r (s'.range r).rangeEnd) : Completed i s' s'' := by
  have hr := (hb.owned b r (by simp [hl])).1
  have hstore : s.toStore = s'.toStore.advanceRange r (s'.range r).rangeEnd := by
    rw [hs]
    simp only [State.advanceRange, toStore_withStore, toStore_addFileDownloaded]
  have hc := completeAt_advanceRange hr hbi hl
  have hrest : Rest s' s := by
    rw [hs]
    exact (rest_addFileDownloaded s' m _).trans (rest_withStore _ _)
  refine ⟨hrest.trans h.rest, ?_, ?_⟩
  · rw [← hc, ← hstore]; exact h.store
  · obtain ⟨maybeT', hd⟩ := h.downloaded
    have hbi' : s.blockAt i = .partialBlock b := by
      rw [hstore]
      exact hbi
    have hl' : s.ranges b = [r] := by rw [hstore, ranges_advanceRange]; exact hl
    have hvoid : (s.range r).rangeBegin = (s.range r).rangeEnd := by
      rw [hstore, range_advanceRange, if_pos rfl]
    have hset : s.setCompletedBlock maybeT' i = ((s.closeBlockRanges maybeT' b
        ).setSwarmerStateComplete i).withStore (·.setBlockAt i .completeBlock) := by
      simp only [setCompletedBlock, hbi']
    have hfile : ((s.setCompletedBlock maybeT' i).file 0).downloaded = (s.file 0).downloaded := by
      rw [hset]
      refine (congrArg File.downloaded
        ((setSwarmerStateComplete_books (s.closeBlockRanges maybeT' b) i).file 0)).trans ?_
      rw [downloaded_closeBlockRanges s maybeT' b (hrest.files_length ▸ hf) (by simp [hl']), hl']
      simp only [spans_cons, spans_nil, total_cons, total_nil, Range.span]
      omega
    have hfirst : (s.file 0).downloaded =
        (s'.file 0).downloaded + ((s'.range r).rangeEnd - (s'.range r).rangeBegin) := by
      rw [hs]
      exact downloaded_addFileDownloaded s' m _ hf
    rw [hd, hfile, hfirst, card_missingAt_partial (hb.tidy i hi b hbi).toSound hbi, hl]
    simp only [spans_cons, spans_nil, total_cons, total_nil, Range.span]
    omega

theorem blockAt_done (s : Store) (hi : i < s.blocks.length) :
    (s.completeAt i).blockAt i = .completeBlock ∨ (s.completeAt i).blockAt i = .verifiedBlock := by
  rw [blockAt_completeAt]
  by_cases hv : s.blockAt i = .verifiedBlock
  · rw [if_neg fun e => e.2.2 hv]; exact .inr hv
  · rw [if_pos ⟨rfl, hi, hv⟩]; exact .inl rfl

namespace Completed

variable (h : Completed i s s') (hb : Books c d s.toStore) (hi : i < s.blocks.length)

include h hb hi

theorem books : Books c d s'.toStore := by
  have hc := hb.completeAt hi
  rcases h.store with e | e
  · rw [e]; exact hc
  · rw [e]; exact hc.setBlockAt isWhole_verified

theorem moves : Moves s s' := by
  refine ⟨h.toRest, ?_⟩
  have he := Evolves.completeAt hb hi
  rcases h.store with e | e
  · rw [e]; exact he
  · rw [e]
    refine he.trans (.setBlockAt (fun b hb' => ?_) isWhole_verified)
    rcases blockAt_done s.toStore hi with e' | e' <;> rw [e'] at hb' <;> exact nomatch hb'

theorem missing (y : Int) : s'.Missing y ↔
    s.Missing y ∧ ¬ (s.computeBlockBegin i ≤ y ∧ y < s.computeBlockEnd i) := by
  rw [← hb.missing_completeAt hi]
  rcases h.store with e | e
  · rw [e]
  · rw [e]
    exact missing_done (blockAt_done s.toStore hi) (.inr rfl) y

theorem fills : Fills (missingAt s.toStore i) s s' := by
  refine ⟨fun y => ?_, fun y hy => ?_, h.downloaded⟩
  · rw [h.missing hb hi, mem_missingAt]
    refine and_congr_right fun hm => not_congr ⟨fun hy => ⟨hy, ?_⟩, fun hy => hy.1⟩
    exact (hb.placed.missing_iff hi hy).mp hm
  · rw [mem_missingAt] at hy
    exact (hb.placed.missing_iff hi hy.1).mpr hy.2

end Completed

section Verify

theorem verifySecondaries_books (s : State) (i : Nat) : SameBooks s (s.verifySecondaries i) := by
  refine ⟨⟨rfl, ?_, fun k => ?_, rfl, rfl, rfl, rfl⟩, rfl, rfl⟩
  · simp only [verifySecondaries, List.length_append, List.length_map]
    rw [← List.length_append, List.take_append_drop]
  · rw [frontend_verifySecondaries]
    split
    · exact (verifySecondary_same s i _).verifier
    · rfl

theorem setSwarmerStateVerified_books (s : State) (i : Nat) :
    Outcome (setSwarmerStateVerified i) (fun _ s' => SameBooks s s')
      (fun _ s' => SameBooks s s' ∧
        (s.networks = [] ∨ (s.frontend 0).verifier ≠ .noVerification)) s := by
  unfold setSwarmerStateVerified
  rw [outcome_get_bind]
  split
  · exact .refl s
  · rw [outcome_modify_bind, outcome_get_bind]
    have hb := s.sameBooks_setBit i .stateVerified
    split
    · next hn => exact ⟨hb, .inl hn⟩
    · next t l hn =>
        have ht : s.frontend 0 = t := by
          have hn' : s.networks = t :: l := hn
          simp [frontend, hn']
        have hcheck : ∀ (p : Prop) [Decidable p], t.verifier ≠ .noVerification →
            Outcome (do check p (Exn.assertFailure .setSwarmerStateVerified)
                        modify (·.verifySecondaries i)) (fun _ s' => SameBooks s s')
              (fun _ s' => SameBooks s s' ∧
                (s.networks = [] ∨ (s.frontend 0).verifier ≠ .noVerification))
              (s.setBit i .stateVerified) := by
          intro p _ hv
          rw [outcome_bind, outcome_check]
          exact ⟨fun _ => hb.trans (verifySecondaries_books _ i), fun _ => ⟨hb, .inr (ht ▸ hv)⟩⟩
        split
        · exact hb
        · exact hb
        · next hv => exact hcheck _ (by simp [hv])
        · next hv => exact hcheck _ (by simp [hv])

theorem setVerifiedBlock_sealed (s : State) (i : Nat) :
    Outcome (setVerifiedBlock i) (fun _ s' => s.blockAt i = .verifiedBlock ∧ s' = s ∨ Sealed i s s')
      (fun _ s' => Sealed i s s' ∧
        (s.networks = [] ∨ (s.frontend 0).verifier ≠ .noVerification)) s := by
  unfold setVerifiedBlock
  rw [outcome_get_bind]
  split
  · next hb => exact .inl ⟨hb, rfl⟩
  · rw [outcome_modify_bind, outcome_modify_bind]
    have hr := s.rest_setCompletedBlock none i
    have hseal : Sealed i s ((s.setCompletedBlock none i).withStore
        (·.setBlockAt i .verifiedBlock)) := ⟨none, .inr (.refl _)⟩
    refine (setSwarmerStateVerified_books _ i).mono (fun _ s' h => .inr (hseal.trans_same h))
      fun _ s' h => ⟨hseal.trans_same h.1, h.2.imp (fun hn => ?_) fun hv => ?_⟩
    · have hn' : (s.setCompletedBlock none i).networks = [] := hn
      have := hr.networks_length
      rw [hn'] at this
      exact List.length_eq_zero_iff.mp this.symm
    · exact (hr.verifier 0).symm.trans_ne hv

theorem verifyReceived_sealed (s : State) (hn : 0 < s.networks.length) (num : Nat)
    (hv : s.blockAt num ≠ .verifiedBlock) :
    Outcome (match s.networks with
      | [] => throw (.assertFailure .noFrontend)
      | t :: _ =>
          match t.verifier with
          | .noVerification => setVerifiedBlock num
          | _ => do
              modify (·.setCompletedBlock (some 0) num)
              modify (·.mustVerifyBlock num) : Act Unit)
      (fun _ s' => s' = s ∧
        (s.blockAt num = .completeBlock ∨ s.blockAt num = .verifiedBlock) ∨ Sealed num s s')
      (fun _ _ => False) s := by
  cases hl : s.networks with
  | nil => simp [hl] at hn
  | cons t l =>
      have ht : s.frontend 0 = t := by simp [frontend, hl]
      have hmust : Sealed num s ((s.setCompletedBlock (some 0) num).mustVerifyBlock num) :=
        ⟨some 0, .inl (setSwarmerStateComplete_books _ num)⟩
      dsimp only
      split
      · next hver =>
          refine (setVerifiedBlock_sealed s num).mono (fun _ s' h => h.elim
            (fun h => absurd h.1 hv) .inr) fun _ s' h => ?_
          rcases h.2 with h | h
          · simp [hl] at h
          · exact h (ht ▸ hver)
      · exact .inr hmust

theorem blockReceived_sealed (s : State) (hn : 0 < s.networks.length) (num : Nat) :
    Outcome (blockReceived num) (fun _ s' => s' = s ∧
        (s.blockAt num = .completeBlock ∨ s.blockAt num = .verifiedBlock) ∨ Sealed num s s')
      (fun _ _ => False) s := by
  have hsome := verifyReceived_sealed s hn num
  unfold blockReceived
  rw [outcome_get_bind]
  split
  · next hb => exact hsome (by simp [hb])
  · next hb => exact hsome (by simp [hb])
  · next hb => exact .inl ⟨rfl, .inl hb⟩
  · next hb => exact .inl ⟨rfl, .inr hb⟩

end Verify

end State

end Mldonkey.Swarming
