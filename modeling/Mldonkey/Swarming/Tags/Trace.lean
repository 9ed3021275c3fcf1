import Mldonkey.Swarming.Tags.Frontends
import Mldonkey.Swarming.Tags.Blocks
import Mldonkey.Swarming.Selecting
import Mldonkey.Swarming.Stable

namespace Mldonkey.Swarming

open Effects State

-- The tags of a swarmer with `n` frontends whose blocks lie as `g` says. A
-- primary without verification trusts each block by itself, so its chunks have
-- one block each.
structure Tags (p q : Prop) (n : Nat) (g : Int × List Int × Nat) (s : State) : Prop
    extends Marked none p q s where
  layout : s.layout = g
  networks_length : s.networks.length = n
  trusted : (s.frontend 0).verifier = .noVerification → ¬ p ∧
    ∀ i i', i < s.blocks.length → i' < s.blocks.length →
      (s.frontend 0).chunkNum i = (s.frontend 0).chunkNum i' → i = i'

-- The exceptions that operations may end with.
structure Allows (p : Prop) (n : Nat) (G : Exn → Prop) : Prop where
  calm : ∀ e : Exn, e.Calm → G e
  reset : ∀ k < n, (p → 0 < k) → G (.assertFailure .setFrontendStateMissing)

namespace Tags

variable {p q : Prop} {n : Nat} {g : Int × List Int × Nat} {G : Exn → Prop} {s s' : State} {i j k : Nat}

theorem of_marked (h : Tags p q n g s) (hm : Marked none p q s') (hs : SameShape s s') :
    Tags p q n g s' := by
  refine ⟨hm, hs.layout.trans h.layout, hs.networks_length.trans h.networks_length, fun hv => ?_⟩
  obtain ⟨hp, hi⟩ := h.trusted ((hs.frontend 0).verifier ▸ hv)
  refine ⟨hp, fun i i' => ?_⟩
  rw [hs.blocks_length, (hs.frontend 0).chunkNum, (hs.frontend 0).chunkNum]
  exact hi i i'

theorem of_sameTags (h : Tags p q n g s) (hs : SameTags s s') : Tags p q n g s' :=
  h.of_marked (h.toMarked.of_sameTags hs) hs.shape

theorem newBlock (h : Tags p q n g s) (hi : s.blockAt i = .emptyBlock) :
    Tags p q n g (s.newBlock i) :=
  h.of_marked (h.toMarked.newBlock hi) (s.newBlock_minors i).toSameShape

theorem setCompletedBlock (h : Tags p q n g s) (maybeT : Option Nat) (i : Nat) :
    Tags p q n g (s.setCompletedBlock maybeT i) :=
  h.of_marked (h.toMarked.setCompletedBlock maybeT i)
    (setCompletedBlock_advances h.toMarked maybeT i).toSameShape

-- A block that a primary without verification trusts is a chunk of its own,
-- which is complete with it.
theorem setVerifiedBlock (h : Tags p q n g s)
    (hv : (s.frontend 0).verifier = .noVerification) (i : Nat) :
    Outcome (setVerifiedBlock i) (fun _ => Tags p q n g) (fun _ _ => False) s := by
  unfold Swarming.setVerifiedBlock
  rw [outcome_get_bind]
  split
  · exact h
  · next hnv =>
      have h₁ := h.setCompletedBlock none i
      have ha := setCompletedBlock_advances h.toMarked none i
      have hbit := fun hi => setCompletedBlock_bit (i := i) h.toMarked none hi hnv
      rw [outcome_modify_bind, outcome_modify_bind]
      generalize s.setCompletedBlock none i = s₁ at h₁ ha hbit
      obtain ⟨hp, hinj⟩ := h₁.trusted ((ha.frontend 0).verifier.trans hv)
      have hend : Tags p q n g
          ((s₁.withStore (·.setBlockAt i .verifiedBlock)).setBit i .stateVerified) := by
        by_cases hi : i < s₁.blocks.length
        · have hc := hbit (ha.blocks_length ▸ hi)
          have hd : ((s₁.frontend 0).chunk ((s₁.frontend 0).chunkNum i)).Done := by
            refine (h₁.tagged.done _ (h₁.tagged.primary_tabled.chunkNum_lt i hi) (by simp)).mpr
              fun i' hi' => ?_
            obtain ⟨hi', he⟩ := h₁.tagged.mem_blockNums.mp hi'
            rw [hinj i' i hi' hi he, hc]
            decide
          have hpr := s₁.promotes_setBit i
          exact h₁.of_marked (h₁.toMarked.promotes hpr (hc ▸ by decide) hd fun h => absurd h hp)
            hpr.toSameShape
        · have hb : s₁.verifiedBitmap.length ≤ i := by rw [h₁.tagged.bitmap_length]; omega
          exact h₁.of_sameTags ⟨rfl, rfl, List.set_eq_of_length_le (by omega),
            List.set_eq_of_length_le hb, rfl⟩
      unfold setSwarmerStateVerified
      rw [outcome_get_bind]
      split
      · next hb =>
          have hb : s₁.bit i = .stateVerified := hb
          by_cases hi : i < s.blocks.length
          · rw [hbit hi] at hb; exact absurd hb (by decide)
          · have hlt := h₁.tagged.lt_of_bit (i := i) (by rw [hb]; decide)
            rw [ha.blocks_length] at hlt
            exact absurd hlt hi
      · rw [outcome_modify_bind, outcome_get_bind]
        split
        · next hn =>
            have hn' : s₁.networks = [] := hn
            exact absurd h₁.tagged.networks_pos (by simp [hn'])
        · next t l hn =>
            have ht : s₁.frontend 0 = t := by
              have hn' : s₁.networks = t :: l := hn
              simp [frontend, hn']
            have hv' : t.verifier = .noVerification := by
              rw [← ht, (ha.frontend 0).verifier]; exact hv
            simp only [hv']
            exact hend

theorem ends (hG : Allows p n G) (h : Tags p q n g s) {e : Exn} (he : e.Calm) :
    Ends (Tags p q n g) G e s := ⟨h, hG.calm e he⟩

theorem mustVerifyBlock (h : Tags p q n g s) {num : Nat} (hv : s.blockAt num ≠ .verifiedBlock) :
    Tags p q n g ((s.setCompletedBlock (some 0) num).mustVerifyBlock num) := by
  have h₁ := h.setCompletedBlock (some 0) num
  have hbit := fun hi => setCompletedBlock_bit (i := num) h.toMarked (some 0) hi hv
  have ha := setCompletedBlock_advances h.toMarked (some 0) num
  generalize s.setCompletedBlock (some 0) num = s₁ at h₁ ha hbit
  unfold State.mustVerifyBlock
  by_cases hi : num < s.blocks.length
  · rw [setSwarmerStateComplete_of_complete (hbit hi)]; exact h₁
  · -- a number past the last block changes no character
    have hm : s₁.bit num = .stateMissing :=
      VB.get_of_length_le (by rw [h₁.tagged.bitmap_length, ha.blocks_length]; omega)
    have hd : ¬ (s₁.bit num).Done := hm ▸ by decide
    have hc := setSwarmerStateComplete_completes hd (.refl _)
    have h₂ := h₁.of_marked (h₁.toMarked.completes hc hd) hc.toSameShape
    refine h₂.of_sameTags ⟨rfl, rfl, ?_, rfl, rfl⟩
    exact (List.set_eq_of_length_le (by
      have := hc.blocks_length
      have h3 : ((s₁.setSwarmerStateComplete num).withStore
        (·.setBlockAt num .completeBlock)).blocks.length =
        (s₁.setSwarmerStateComplete num).blocks.length := List.length_set
      have := ha.blocks_length
      omega)).symm

theorem verifyReceived (hG : Allows p n G) (h : Tags p q n g s) {num : Nat}
    (hv : s.blockAt num ≠ .verifiedBlock) : Outcome
    (match s.networks with
    | [] => throw (.assertFailure .noFrontend)
    | t :: _ =>
        match t.verifier with
        | .noVerification => Swarming.setVerifiedBlock num
        | _ => do
            modify (·.setCompletedBlock (some 0) num)
            modify (·.mustVerifyBlock num)) (fun _ => Tags p q n g) (Ends (Tags p q n g) G) s := by
  split
  · exact h.ends hG (by simp [Exn.Calm])
  · next t l hn =>
      have ht : s.frontend 0 = t := by simp [frontend, hn]
      split
      · next hver =>
          exact (h.setVerifiedBlock (ht ▸ hver) num).mono (fun _ _ h => h) fun _ _ h => h.elim
      · rw [outcome_modify_bind, outcome_modify]
        exact h.mustVerifyBlock hv

theorem blockReceived (hG : Allows p n G) (h : Tags p q n g s) (num : Nat) :
    Outcome (blockReceived num) (fun _ => Tags p q n g) (Ends (Tags p q n g) G) s := by
  have hreceived : s.blockAt num ≠ .verifiedBlock → _ := h.verifyReceived hG
  unfold Swarming.blockReceived
  rw [outcome_get_bind]
  split
  · next hb => exact hreceived (by rw [hb]; exact fun e => nomatch e)
  · next hb => exact hreceived (by rw [hb]; exact fun e => nomatch e)
  · exact h
  · exact h

theorem rangeReceived (hG : Allows p n G) (h : Tags p q n g s) (maybeT : Option Nat) (r : RangeId)
    (intervalBegin intervalEnd : Int) :
    Outcome (rangeReceived maybeT r intervalBegin intervalEnd)
      (fun _ => Tags p q n g) (Ends (Tags p q n g) G) s := by
  unfold Swarming.rangeReceived
  rw [outcome_get_bind]
  dsimp only
  split
  · rw [outcome_modify_bind]
    have h₁ := h.of_sameTags (s.advanceRange_tags maybeT r
      (max (min intervalEnd (s.range r).rangeEnd) (s.range r).rangeBegin))
    split
    · split
      · exact h₁.of_sameTags ⟨rfl, rfl, rfl, rfl, rfl⟩
      · exact h₁.blockReceived hG _
    · exact h₁
  · exact h

theorem setPresentBlock (hG : Allows p n G) (h : Tags p q n g s) (b : BlockId)
    (intervalBegin intervalEnd : Int) :
    Outcome (setPresentBlock b intervalBegin intervalEnd)
      (fun _ => Tags p q n g) (Ends (Tags p q n g) G) s := by
  unfold Swarming.setPresentBlock
  rw [outcome_modify_bind, outcome_get_bind]
  have h₁ := h.of_sameTags (foldl_tags (f := fun (s : State) r =>
    s.withStore (·.splitRange r intervalBegin)) (fun s r => splitRange_tags s r intervalBegin)
    (s.block b).ranges s)
  exact Outcome.forM h₁ fun r _ s' h' => h'.rangeReceived hG none r intervalBegin intervalEnd

theorem setFrontendStateVerified (h : Tags p q n g s) (hk : k < n)
    (hq : q → 0 < k → ((s.frontend k).chunk j).Done) :
    Outcome (setFrontendStateVerified k j)
      (fun _ s' => Tags p q n g s' ∧ KeepsDone k s s') (fun _ _ => False) s :=
  (setFrontendStateVerified_marked h.toMarked (h.networks_length ▸ hk) hq).mono
    (fun _ _ ⟨hm, hs⟩ => ⟨h.of_marked hm hs.toSameShape, hs⟩) fun _ _ h => h

theorem setFrontendStateMissing (h : Tags p q n g s)
    (hc : (s.frontend k).chunk j = .stateComplete)
    (hG : (p → 0 < k) → G (.assertFailure .setFrontendStateMissing)) :
    Outcome (setFrontendStateMissing k j) (fun _ s' => Tags p q n g s' ∧ SameShape s s')
      (Ends (Tags p q n g) G) s :=
  (setFrontendStateMissing_marked h.toMarked hc).mono
    (fun _ _ ⟨hm, hs⟩ => ⟨h.of_marked hm hs, hs⟩)
    fun _ _ ⟨hs, he, hp⟩ => ⟨hs ▸ h, he ▸ hG hp⟩

theorem lt_of_complete (h : Tags p q n g s) (hc : (s.frontend k).chunk j = .stateComplete) :
    k < n := by
  by_contra hn
  rw [frontend_of_length_le (by rw [h.networks_length]; omega),
    Frontend.chunk_of_length_le (Nat.zero_le _)] at hc
  exact absurd hc (by decide)

end Tags

namespace State

-- file_verify finds other data than the hash that verify_chunk asks for.
def HashDiffers (s : State) (fileVerify : FileVerify) (k j : Nat) : Prop :=
  match (s.frontend k).verifier with
  | .verification uids =>
      if uids.length = (s.frontend k).convertedVerifiedBitmap.length then
        fileVerify (uids.getD j []) ((s.frontend k).chunkSize * j)
          (min ((s.frontend k).chunkSize * j + (s.frontend k).chunkSize) s.size) = .ok false
      else fileVerify (uids.getD 0 []) 0 s.size = .ok false
  | _ => False

theorem hashDiffers_each {s : State} {fileVerify : FileVerify} {k : Nat} (j : Nat)
    {uids : List Uid} (hv : (s.frontend k).verifier = .verification uids)
    (hlen : uids.length = (s.frontend k).convertedVerifiedBitmap.length) :
    s.HashDiffers fileVerify k j ↔
      fileVerify (uids.getD j []) ((s.frontend k).chunkSize * j)
        (min ((s.frontend k).chunkSize * j + (s.frontend k).chunkSize) s.size) = .ok false := by
  simp only [HashDiffers, hv, if_pos hlen]

theorem hashDiffers_whole {s : State} {fileVerify : FileVerify} {k : Nat} (j : Nat)
    {uids : List Uid} (hv : (s.frontend k).verifier = .verification uids)
    (hlen : uids.length ≠ (s.frontend k).convertedVerifiedBitmap.length) :
    s.HashDiffers fileVerify k j ↔ fileVerify (uids.getD 0 []) 0 s.size = .ok false := by
  simp only [HashDiffers, hv, if_neg hlen]

end State

-- There is a hash for each chunk, or one for the file.
def Frontend.UidsFit (t : Frontend) : Prop :=
  ∀ uids, t.verifier = .verification uids →
    uids.length = t.convertedVerifiedBitmap.length ∨ uids.length = 1

namespace Tags

variable {p q : Prop} {n : Nat} {g : Int × List Int × Nat} {G : Exn → Prop} {s s' : State} {i j k : Nat}
  {fileVerify : FileVerify}

theorem verifyChunk_of (h : Tags p q n g s) (herror : ∀ e : VerifyError, G e.exn)
    (huids : ¬ (s.frontend k).UidsFit → G (.assertFailure .verifyChunk))
    (hreset : (p → 0 < k) → s.HashDiffers fileVerify k j →
      G (.assertFailure .setFrontendStateMissing)) :
    Outcome (verifyChunk fileVerify k j) (fun _ => Tags p q n g) (Ends (Tags p q n g) G) s := by
  unfold verifyChunk
  rw [outcome_get_bind]
  dsimp only
  split
  · next hc =>
      have hk := h.lt_of_complete hc
      have hver : Outcome (Swarming.setFrontendStateVerified k j) (fun _ => Tags p q n g)
          (Ends (Tags p q n g) G) s :=
        (h.setFrontendStateVerified (j := j) hk fun _ _ => hc ▸ by decide).mono (fun _ _ h => h.1)
          fun _ _ h => h.elim
      split
      · exact h
      · exact h
      · exact hver
      · next uids hv =>
          split
          · next hlen =>
              unfold verifyOneHash
              rw [outcome_get_bind]
              dsimp only
              split
              · exact hver
              · next ha =>
                  have hdiff := (hashDiffers_each j hv hlen).mpr ha
                  exact (h.setFrontendStateMissing hc fun hp => hreset hp hdiff).mono
                    (fun _ _ h => h.1) fun _ _ h => h
              · exact h
              · exact ⟨h, herror _⟩
          · next hlen =>
              rw [outcome_bind, outcome_check]
              refine ⟨fun hone => ?_, fun hone => ⟨h, huids fun hfit => ?_⟩⟩
              · unfold verifyWholeFile
                rw [outcome_get_bind]
                dsimp only
                split
                · next hall =>
                    split
                    · -- no chunk of a secondary is lost on the way
                      refine (Outcome.forM (I := fun s' => Tags p q n g s' ∧ KeepsDone k s s')
                        ⟨h, .refl s, fun _ _ hd => hd⟩ fun j' hj' s' hkeep => ?_).mono
                          (fun _ _ h => h.1) fun _ _ h => h
                      obtain ⟨h', hs'⟩ := hkeep
                      refine (h'.setFrontendStateVerified hk fun _ hpos =>
                        hs'.done hpos j' ?_).mono (fun _ _ hnext => ⟨hnext.1,
                          hs'.toSameShape.trans hnext.2.toSameShape, fun hpos j hd =>
                            hnext.2.done hpos j (hs'.done hpos j hd)⟩) fun _ _ h => h.elim
                      have hj' := List.mem_range.mp hj'
                      have := List.all_eq_true.mp hall _ (List.getElem_mem hj')
                      simpa [Frontend.chunk, VB.get, hj', PartState.Done] using this
                    · next ha =>
                        have hdiff := (hashDiffers_whole j hv hlen).mpr ha
                        refine Outcome.forM h fun j' _ s' h' => ?_
                        rw [outcome_get_bind]
                        split
                        · next hc' =>
                            exact (h'.setFrontendStateMissing hc' fun hp => hreset hp hdiff).mono
                              (fun _ _ h => h.1) fun _ _ h => h
                        · exact h'
                    · exact h
                    · exact ⟨h, herror _⟩
                · exact h
              · exact (hfit uids hv).elim hlen hone
  · exact h

theorem verifyError_calm (e : VerifyError) : e.exn.Calm := by
  cases e <;> simp [VerifyError.exn, Exn.Calm]

theorem verifyChunk (hG : Allows p n G) (h : Tags p q n g s) (k j : Nat) :
    Outcome (verifyChunk fileVerify k j) (fun _ => Tags p q n g) (Ends (Tags p q n g) G) s := by
  by_cases hk : k < n
  · exact h.verifyChunk_of (fun e => hG.calm _ (verifyError_calm e))
      (fun _ => hG.calm _ (by simp [Exn.Calm])) fun hp _ => hG.reset k hk hp
  · have hc : (s.frontend k).chunk j ≠ .stateComplete := fun hc => hk (h.lt_of_complete hc)
    unfold Swarming.verifyChunk
    rw [outcome_get_bind]
    dsimp only
    rw [if_neg hc]
    exact h

end Tags

namespace Tags

variable {p q : Prop} {n : Nat} {g : Int × List Int × Nat} {G : Exn → Prop} {s : State}

-- The operations keep the tags, whatever the ranges are.
theorem stable (hG : Allows p n G) (hpos : g.2.1.length = g.2.2) (hne : 0 < g.2.2) :
    Stable g (fun _ => True) (Tags p q n g) (fun _ _ => True) (fun _ _ _ _ _ _ => True) True
      G where
  calm he := hG.calm _ he
  positions := hpos
  nonempty := hne
  layout h := h.layout
  disk h := h.of_sameTags ⟨rfl, rfl, rfl, rfl, rfl⟩
  write h := h.of_sameTags ⟨rfl, rfl, rfl, rfl, rfl⟩
  sized _ := trivial
  wanted _ _ := trivial
  start _ h _ hb := ⟨h.newBlock hb, trivial, fun _ _ => trivial⟩
  complete i h := h.setCompletedBlock none i
  present h _ _ _ _ := h.setPresentBlock hG _ _ _
  receive h _ _ _ _ := h.rangeReceived hG _ _ _ _
  verify h := (h.verifyChunk hG _ _).mono (fun _ _ h => ⟨h, fun _ _ _ _ _ _ => trivial⟩)
    fun _ _ h => ⟨h, fun _ _ _ _ _ _ => trivial⟩
  prune up h := h.of_sameTags (removeCompletedUploaderRanges_tags _ up)
  pick h _ := h.of_sameTags (takeCluster_tags _ _ _ _ _ _)
  permute h _ _ _ := h.of_sameTags (modifyUploader_tags _ _ _)
  dropComplete h _ := h.of_sameTags (modifyUploader_tags _ _ _)
  dropPartial h _ := h.of_sameTags (modifyUploader_tags _ _ _)
  current _ _ _ := trivial
  aside _ := trivial
  unselect up h := h.of_sameTags (clearUploaderBlocks_tags _ up)
  choose h _ := h.of_sameTags (chooseBlocks_tags _ _ _)
  count i h := h.of_sameTags (incrAvailability_tags _ i)
  declare _ h := h.of_sameTags (modifyUploader_tags _ _ _)
  register _ _ h := h.of_sameTags ⟨rfl, rfl, rfl, rfl, rfl⟩
  clear up h := h.of_sameTags (clearUploaderIntervals_tags _ up)
  release up h := h.of_sameTags (clearUploaderRanges_tags _ up)
  strategy h := h.of_sameTags ⟨rfl, rfl, rfl, rfl, rfl⟩
  fileState h := h.of_sameTags ⟨rfl, rfl, rfl, rfl, rfl⟩
  prioritize h := h.of_sameTags ⟨rfl, rfl, rfl, rfl, rfl⟩

end Tags

end Mldonkey.Swarming
