import Mldonkey.Swarming.System

-- check_swarmer, and the assertion that verify_chunk runs into.
namespace Mldonkey.Swarming

open Effects State

-- What check_swarmer asks of a chunk of the primary; it fails with the text.
def checkPrimary (s : State) (tprim : Frontend) (j : Nat) : Except Exn Unit :=
  if tprim.chunk j = .stateVerified then
    if (tprim.blockNums j).any fun i => s.bit i ≠ .stateVerified then
      .error (.failure "Bad propagation of State_verified from primary to swarmer")
    else .ok ()
  else if (tprim.blockNums j).any fun i => s.bit i = .stateVerified then
    .error (.failure "Swarmer has State_verified not coming from primary")
  else .ok ()

def checkSecondary (s : State) (t : Frontend) (j : Nat) : Except Exn Unit :=
  if t.chunk j = .stateVerified then
    if (t.blockNums j).any fun i => s.bit i ≠ .stateVerified then
      .error (.failure "State_verified in secondary without State_verified in primary")
    else .ok ()
  else if t.chunk j = .stateComplete then
    if (t.blockNums j).any fun i => s.bit i ≠ .stateVerified then
      .error (.failure "State_complete in secondary without State_verified in primary")
    else .ok ()
  else .ok ()

-- The frontend at the head is the primary, so the assertions on t_primary hold.
def checkSwarmer (s : State) : Except Exn Unit :=
  match s.networks with
  | [] => .ok ()
  | tprim :: tail => do
      forM (List.range tprim.convertedVerifiedBitmap.length) (checkPrimary s tprim)
      forM tail fun t => do
        if t.fd ≠ tprim.fd then throw (.assertFailure .checkSwarmer)
        forM (List.range t.convertedVerifiedBitmap.length) (checkSecondary s t)

-- The files of all frontends have the descriptor of the primary's file.
def State.Shared (s : State) : Prop := ∀ t ∈ s.networks, t.fd = (s.frontend 0).fd

theorem State.shared_iff {s : State} :
    s.Shared ↔ ∀ fd ∈ s.networks.map Frontend.fd, fd = (s.networks.map Frontend.fd).headD 0 := by
  rw [Shared, List.forall_mem_map]
  cases h : s.networks <;> simp [frontend, h]

theorem State.Shared.congr {s s' : State} (h : s.Shared) (heq : s'.tables = s.tables) :
    s'.Shared := by
  have hfds : s'.networks.map Frontend.fd = s.networks.map Frontend.fd := by
    simpa [tables, Frontend.tables, Function.comp_def] using
      congrArg (fun τ : TableValues => τ.2.2.map (·.2.2.2.2)) heq
  rw [shared_iff] at h ⊢
  rwa [hfds]

theorem State.Shared.associate {s : State} (h : s.Shared) (hpos : 0 < s.blocks.length)
    (t : Frontend) (file : File) : (s.associate t file).Shared := by
  have hfds : (s.associate t file).networks.map Frontend.fd = s.networks.map Frontend.fd ++
      [if s.networks = [] then t.fd else (s.frontend 0).fd] := by
    rw [networks_associate hpos, List.map_map, List.map_append]
    rfl
  rw [shared_iff] at h ⊢
  rw [hfds]
  cases hn : s.networks with
  | nil => simp
  | cons tprim tail =>
    rw [hn] at h
    intro fd hmem
    rcases List.mem_append.mp hmem with hold | hnew
    · exact h fd hold
    · simpa [frontend, hn] using hnew

theorem State.Shared.reachable {verifiers : Verifier → Prop} {ok : State → Op → Prop} {s : State}
    (h : Reachable verifiers ok s) : s.Shared := by
  refine Runs.Reach.inv_of (fun s hs => Mapped.reachable hs) (fun s hs => ?_)
    (fun s op hm hs hop => ?_) h
  · obtain ⟨size, t, file, -, -, rfl⟩ := hs.associated
    exact State.Shared.associate (s := createSwarmer size) (fun _ h => nomatch h) Nat.one_pos t file
  · rcases hm.tabled hop.1 with heq | ⟨t, file, -, heq⟩
    · exact hs.congr heq
    · rw [heq]
      exact hs.associate hm.nonempty t file

theorem forM_ok {α ε : Type} {f : α → Except ε Unit} :
    ∀ {l : List α}, (∀ x ∈ l, f x = .ok ()) → forM l f = .ok ()
  | [], _ => rfl
  | x :: l, h => by
    rw [List.forM_cons, h x List.mem_cons_self]
    exact forM_ok fun y hy => h y (List.mem_cons_of_mem x hy)

section Checked

variable {s : State} {q : Prop} {k j : Nat}

theorem checkPrimary_ok (h : Marked none True q s) (j : Nat) :
    checkPrimary s (s.frontend 0) j = .ok () := by
  unfold checkPrimary
  split
  · next hc =>
    rw [if_neg]
    rw [List.any_eq_true]
    rintro ⟨i, hi, hv⟩
    exact of_decide_eq_true hv (h.tagged.verified_blocks j (by simp) hc i hi)
  · next hc =>
    rw [if_neg]
    rw [List.any_eq_true]
    rintro ⟨i, hi, hv⟩
    obtain ⟨hlt, rfl⟩ := h.tagged.mem_blockNums.mp hi
    exact hc (h.fromPrimary trivial i hlt (of_decide_eq_true hv))

theorem checkSecondary_ok (h : Marked none True True s) (hk : 0 < k) (hlt : k < s.networks.length)
    (j : Nat) : checkSecondary s (s.frontend k) j = .ok () := by
  have hnum : ∀ {i : Nat}, i ∈ (s.frontend k).blockNums j →
      i < s.blocks.length ∧ (s.frontend k).chunkNum i = j :=
    fun hi => ((h.tagged.tabled k hlt).mem_blockNums _ _).mp hi
  unfold checkSecondary
  split
  · next hc =>
    rw [if_neg]
    rw [List.any_eq_true]
    rintro ⟨i, hi, hv⟩
    obtain ⟨hi', rfl⟩ := hnum hi
    exact of_decide_eq_true hv (h.secondary trivial k hk i hi' hc)
  · split
    · next hc =>
      rw [if_neg]
      rw [List.any_eq_true]
      rintro ⟨i, hi, hv⟩
      obtain ⟨hi', rfl⟩ := hnum hi
      exact of_decide_eq_true hv (h.tagged.secondary k hk i hi' hc)
    · rfl

theorem checkSwarmer_ok (h : Marked none True True s) (hfd : s.Shared) :
    checkSwarmer s = .ok () := by
  unfold checkSwarmer
  split
  · rfl
  · next tprim tail hn =>
    have hprim : s.frontend 0 = tprim := by simp [frontend, hn]
    have htail : ∀ t ∈ tail, ∃ k, 0 < k ∧ k < s.networks.length ∧ s.frontend k = t := by
      intro t ht
      obtain ⟨k, hk, rfl⟩ := List.getElem_of_mem ht
      exact ⟨k + 1, Nat.succ_pos k, by rw [hn]; simpa using hk, by simp [frontend, hn, hk]⟩
    rw [forM_ok fun j _ => hprim ▸ checkPrimary_ok h j]
    refine forM_ok fun t ht => ?_
    have hshared : t.fd = tprim.fd := hprim ▸ hfd t (hn ▸ List.mem_cons_of_mem tprim ht)
    rw [if_neg (not_not_intro hshared)]
    obtain ⟨k, hk, hlt, rfl⟩ := htail t ht
    exact forM_ok fun j _ => checkSecondary_ok h hk hlt j

end Checked

-- With a primary that verifies its chunks, without a check of all chunks and without a bitmap that
-- makes a secondary's chunk verified by itself, check_swarmer never raises.
theorem check_swarmer_passes {s : State} (h : Reachable (· ≠ .noVerification)
    (fun s op => op.Trusting ∧ op.Consistent s) s) (hs : 0 < s.size) : checkSwarmer s = .ok () :=
  checkSwarmer_ok (Trusted.reachable (fun hok => ⟨hok.1, fun _ => hok.2⟩) h hs).marked
    (.reachable h)

-- A second network with chunks of three bytes and a hash for each
def mergedTen : State :=
  Op.next (.merge ⟨10, 3, .verification [[0], [1], [2], [3]], 0, 0, 0, .fileDownloading, 1⟩) startTen

-- All bytes are there and the primary has verified its first two chunks.
def twoVerified : State :=
  Op.next (.verifyChunk (fun _ _ _ => .ok true) 0 1)
    (Op.next (.verifyChunk (fun _ _ _ => .ok true) 0 0)
      (Op.next (.setPresent [(0, 10)]) mergedTen))

theorem reachable_twoVerified : Reachable (· ≠ .noVerification)
    (fun s op => op.Trusting ∧ op.Consistent s) twoVerified :=
  .step (.step (.step (.step (.start (fresh_startTen (by decide))) ⟨trivial, trivial, trivial⟩)
    ⟨trivial, trivial, trivial⟩) ⟨⟨by decide, by decide⟩, trivial, trivial⟩)
    ⟨⟨by decide, by decide⟩, trivial, trivial⟩

theorem check_swarmer_passes_ten : checkSwarmer twoVerified = .ok () :=
  check_swarmer_passes reachable_twoVerified (by decide)

-- file_verify answers that the data of a chunk, or of a file whose chunks are all complete, are
-- not those of the hash.
def State.Refutes (s : State) (fileVerify : FileVerify) (k j : Nat) : Prop :=
  match (s.frontend k).verifier with
  | .verification uids =>
      if uids.length = (s.frontend k).convertedVerifiedBitmap.length then
        fileVerify (uids.getD j []) ((s.frontend k).chunkSize * j)
          (min ((s.frontend k).chunkSize * j + (s.frontend k).chunkSize) s.size) = .ok false
      else
        uids.length = 1 ∧
          ((s.frontend k).convertedVerifiedBitmap.all
            fun c => c = .stateComplete ∨ c = .stateVerified) = true ∧
          fileVerify (uids.getD 0 []) 0 s.size = .ok false
  | _ => False

section Asserts

variable {s : State} {k j : Nat} {fileVerify : FileVerify}

theorem refutes_each (j : Nat) {uids : List Uid}
    (hv : (s.frontend k).verifier = .verification uids)
    (hlen : uids.length = (s.frontend k).convertedVerifiedBitmap.length) :
    s.Refutes fileVerify k j ↔ fileVerify (uids.getD j []) ((s.frontend k).chunkSize * j)
      (min ((s.frontend k).chunkSize * j + (s.frontend k).chunkSize) s.size) = .ok false := by
  simp only [Refutes, hv, if_pos hlen]

-- The blocks of a complete chunk of a secondary are verified, so it cannot be reset.
theorem secondary_asserts {p q : Prop} (h : Marked none p q s) (hk : 0 < k)
    (hc : (s.frontend k).chunk j = .stateComplete) :
    Outcome (setFrontendStateMissing k j) (fun _ _ => False)
      (fun e _ => e = .assertFailure .setFrontendStateMissing) s := by
  have hlt : k < s.networks.length := by
    by_contra hge
    rw [frontend_of_length_le (Nat.not_lt.mp hge),
      Frontend.chunk_of_length_le (Nat.zero_le _)] at hc
    cases hc
  have ht := h.tagged.tabled k hlt
  obtain ⟨i, hi, rfl⟩ := ht.exists_block j (by
    by_contra hge
    rw [Frontend.chunk_of_length_le (Nat.not_lt.mp hge)] at hc
    cases hc)
  unfold setFrontendStateMissing
  rw [outcome_get_bind]
  dsimp only
  rw [outcome_bind, outcome_check]
  refine ⟨fun _ => ?_, fun _ => rfl⟩
  rw [outcome_bind, outcome_check]
  exact ⟨fun hall => absurd (h.tagged.secondary k hk i hi hc)
    (hall i ((ht.mem_blockNums _ _).mpr ⟨hi, rfl⟩)), fun _ => rfl⟩

-- The first complete chunk of a secondary ends the walk.
theorem walk_asserts {p q : Prop} (h : Marked none p q s) (hk : 0 < k) :
    ∀ {l : List Nat}, (∃ j ∈ l, (s.frontend k).chunk j = .stateComplete) →
      Outcome (forM l fun j => do
        let s ← get
        if (s.frontend k).chunk j = .stateComplete then setFrontendStateMissing k j else pure ())
        (fun _ _ => False) (fun e _ => e = .assertFailure .setFrontendStateMissing) s
  | [], hl => by
    obtain ⟨j, hj, -⟩ := hl
    cases hj
  | j :: l, hl => by
    rw [List.forM_cons]
    by_cases hc : (s.frontend k).chunk j = .stateComplete
    · refine Outcome.bind (P := fun _ _ => False) ?_ fun _ _ hno => hno.elim
      rw [outcome_get_bind, if_pos hc]
      exact secondary_asserts h hk hc
    · refine Outcome.bind (P := fun _ s' => s' = s) ?_ fun _ s' hs' => ?_
      · rw [outcome_get_bind, if_neg hc]
        exact rfl
      · obtain ⟨j', hj', hc'⟩ := hl
        rcases List.mem_cons.mp hj' with rfl | hj'
        · exact absurd hc' hc
        · exact hs' ▸ walk_asserts h hk ⟨j', hj', hc'⟩

theorem verifyError_ne (e : VerifyError) :
    e.exn ≠ .assertFailure .setFrontendStateMissing := by
  cases e <;> simp [VerifyError.exn]

theorem secondary_outcome (h : Trusted False s) (hk : 0 < k)
    (hc : (s.frontend k).chunk j = .stateComplete) :
    Outcome (verifyChunk fileVerify k j) (fun _ _ => ¬ s.Refutes fileVerify k j)
      (fun e _ => e = .assertFailure .setFrontendStateMissing ↔ s.Refutes fileVerify k j) s := by
  have hlt : k < s.networks.length := h.tags.lt_of_complete hc
  have hverify : ¬ s.Refutes fileVerify k j → Outcome (setFrontendStateVerified k j)
      (fun _ _ => ¬ s.Refutes fileVerify k j)
      (fun e _ => e = .assertFailure .setFrontendStateMissing ↔ s.Refutes fileVerify k j) s :=
    fun hno => (h.tags.setFrontendStateVerified (j := j) hlt fun hq => hq.elim).mono
      (fun _ _ _ => hno) fun _ _ hf => hf.elim
  unfold verifyChunk
  rw [outcome_get_bind]
  dsimp only
  rw [if_pos hc]
  split
  · next hv => exact (outcome_pure _ _ _ s).mpr (by simp [Refutes, hv])
  · next hv => exact (outcome_pure _ _ _ s).mpr (by simp [Refutes, hv])
  · next hv => exact hverify (by simp [Refutes, hv])
  · next uids hv =>
    split
    · next hlen =>
      have hiff : s.Refutes fileVerify k j ↔ _ := refutes_each j hv hlen
      unfold verifyOneHash
      rw [outcome_get_bind]
      dsimp only
      split
      · next ha => exact hverify (by rw [hiff, ha]; simp)
      · next ha =>
        exact (secondary_asserts h.marked hk hc).mono (fun _ _ hf => hf.elim)
          fun _ _ he => iff_of_true he (hiff.mpr ha)
      · next ha => exact (outcome_pure _ _ _ s).mpr (by rw [hiff, ha]; simp)
      · next ha =>
        refine (outcome_throw _ _ _ s).mpr (iff_of_false (verifyError_ne _) ?_)
        rw [hiff, ha]
        simp
    · next hlen =>
      rw [outcome_bind, outcome_check]
      refine ⟨fun hone => ?_, fun hone => iff_of_false (by simp) ?_⟩
      · have hiff : s.Refutes fileVerify k j ↔
            ((s.frontend k).convertedVerifiedBitmap.all
              fun c => c = .stateComplete ∨ c = .stateVerified) = true ∧
            fileVerify (uids.getD 0 []) 0 s.size = .ok false := by
          simp only [Refutes, hv, if_neg hlen]
          exact ⟨fun hr => hr.2, fun hr => ⟨hone, hr⟩⟩
        unfold verifyWholeFile
        rw [outcome_get_bind]
        dsimp only
        split
        · next hall =>
          split
          · next ha =>
            refine (Outcome.forM (I := fun s' => Tags True False s.networks.length s.layout s')
              h.tags fun j' _ s' h' => (h'.setFrontendStateVerified (j := j') hlt
                fun hq => hq.elim).mono (fun _ _ hn => hn.1) fun _ _ hf => hf.elim).mono
              (fun _ _ _ => by rw [hiff, ha]; simp) fun _ _ hf => hf
          · next ha =>
            have hj : j < (s.frontend k).convertedVerifiedBitmap.length := by
              by_contra hge
              rw [Frontend.chunk_of_length_le (Nat.not_lt.mp hge)] at hc
              cases hc
            exact (walk_asserts h.marked hk ⟨j, List.mem_range.mpr hj, hc⟩).mono
              (fun _ _ hf => hf.elim) fun _ _ he => iff_of_true he (hiff.mpr ⟨hall, ha⟩)
          · next ha => exact (outcome_pure _ _ _ s).mpr (by rw [hiff, ha]; simp)
          · next ha =>
            refine (outcome_throw _ _ _ s).mpr (iff_of_false (verifyError_ne _) ?_)
            rw [hiff, ha]
            simp
        · next hall => exact (outcome_pure _ _ _ s).mpr fun hr => hall (hiff.mp hr).1
      · simp only [Refutes, hv, if_neg hlen]
        exact fun hr => hone hr.1

end Asserts

-- verify_chunk runs into the assertion of set_frontend_state_missing exactly when file_verify
-- refutes a complete chunk of a secondary, whose blocks the primary has verified.
theorem verify_chunk_asserts {s : State} (h : Reachable (· ≠ .noVerification)
    (fun _ op => op.Trusting) s) (hs : 0 < s.size) (fileVerify : FileVerify) (k j : Nat) :
    (∃ s', verifyChunk fileVerify k j s =
      .error (.assertFailure .setFrontendStateMissing) s') ↔
    0 < k ∧ (s.frontend k).chunk j = .stateComplete ∧ s.Refutes fileVerify k j := by
  have htrusted : Trusted False s := .reachable (fun hok => ⟨hok, fun hq => hq.elim⟩) h hs
  suffices hout : Outcome (verifyChunk fileVerify k j)
      (fun _ _ => ¬ (0 < k ∧ (s.frontend k).chunk j = .stateComplete ∧
        s.Refutes fileVerify k j))
      (fun e _ => e = .assertFailure .setFrontendStateMissing ↔
        0 < k ∧ (s.frontend k).chunk j = .stateComplete ∧ s.Refutes fileVerify k j) s by
    unfold Outcome at hout
    split at hout
    · next heq => exact iff_of_false (by rw [heq]; simp) hout
    · next e s' heq =>
      rw [← hout, heq]
      simp
  by_cases hk : 0 < k
  · by_cases hc : (s.frontend k).chunk j = .stateComplete
    · simpa only [hk, hc, true_and] using secondary_outcome htrusted hk hc
    · unfold verifyChunk
      rw [outcome_get_bind]
      dsimp only
      rw [if_neg hc]
      exact (outcome_pure _ _ _ s).mpr fun hr => hc hr.2.1
  · -- the primary can reset its chunks: none of their blocks is verified
    refine (htrusted.tags.verifyChunk_of
      (G := (· ≠ .assertFailure .setFrontendStateMissing)) verifyError_ne (fun _ => by simp)
      fun hpos _ => absurd (hpos trivial) hk).mono (fun _ _ _ hr => hk hr.1)
      fun _ _ he => iff_of_false he.2 fun hr => hk hr.1

theorem verify_chunk_asserts_ten : ∃ s', verifyChunk (fun _ _ _ => .ok false) 1 0 twoVerified =
    .error (.assertFailure .setFrontendStateMissing) s' := by
  have h : Reachable (· ≠ .noVerification) (fun _ op => op.Trusting) twoVerified :=
    .step (.step (.step (.step (.start (fresh_startTen (by decide))) ⟨trivial, trivial⟩)
      ⟨trivial, trivial⟩) ⟨⟨by decide, by decide⟩, trivial⟩) ⟨⟨by decide, by decide⟩, trivial⟩
  have hverifier : (twoVerified.frontend 1).verifier = .verification [[0], [1], [2], [3]] := by
    decide
  exact (verify_chunk_asserts h (by decide) _ 1 0).mpr
    ⟨by decide, by decide, (refutes_each 0 hverifier (by decide)).mpr rfl⟩

end Mldonkey.Swarming
