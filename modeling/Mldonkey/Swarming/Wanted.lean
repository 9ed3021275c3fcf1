import Mldonkey.Swarming.Marking

-- The blocks of an uploader that select_blocks chooses from, and the arrays that it reads for that.
namespace Mldonkey.Swarming

open Effects

-- A block that select_blocks passes over, or one more to choose from.
def wantBlock (fileVerify : FileVerify) (ns : List Nat) (n b : Nat) : Act (List Nat) := do
  let s ← get
  if (← readAt s.prioritiesBitmap b) = PRIORITY_ZERO then return ns
  else if !(← shouldDownloadBlock fileVerify b) then return ns
  else return n :: ns

-- The places of the wanted ones among the first n blocks that an uploader has whole, the last
-- one first.
def wantedBlocks (fileVerify : FileVerify) (up n : Nat) : Act (List Nat) := do
  let s ← get
  (List.range n).foldlM
    (fun ns i => wantBlock fileVerify ns i ((s.uploader up).completeBlocks.getD i 0)) []

-- What the verification of a chunk may end with.
def Exn.Verifying (e : Exn) : Prop :=
  e = .notFound ∨ e = .unixError ∨ ∃ site, e = .assertFailure site ∧
    (site = .setFrontendStateMissing ∨ site = .setSwarmerStateVerified ∨ site = .verifyChunk ∨
      site = .noFrontend)

-- An array was too short, or a position was not in the file.
def Exn.OutOfBounds (e : Exn) : Prop :=
  e = .invalidArgument ∨ ∃ site, e = .assertFailure site ∧
    (site = .iterDiskSpace ∨ site = .noFrontend ∨ site = .remainingBlocksInChunks ∨
      site = .subarrayFoldLefti)

-- The arrays have a place for each block, the blocks lie in the file, and the uploader has some
-- of them.
structure State.Sized (s : State) (up : Nat) : Prop where
  networks : s.networks ≠ []
  bits : s.blocks.length ≤ s.verifiedBitmap.length
  priorities : s.blocks.length ≤ s.prioritiesBitmap.length
  chunks : s.blocks.length ≤ (s.frontend (s.uploader up).t).chunkOfBlock.length
  disk : s.DiskFits
  inside : ∀ i < s.blocks.length, 0 ≤ s.computeBlockBegin i ∧ s.computeBlockEnd i ≤ s.size
  ncomplete : 0 < (s.uploader up).ncomplete ∧
    (s.uploader up).ncomplete ≤ (s.uploader up).completeBlocks.length
  complete : ∀ b ∈ (s.uploader up).completeBlocks, b < s.blocks.length

-- A choice that create_choice makes after some of the blocks have been looked at.
def State.Offers (s : State) (fileVerify : FileVerify) (up : Nat) (c : Choice) : Prop :=
  ∃ n ≤ (s.uploader up).ncomplete, ∃ ns s', wantedBlocks fileVerify up n s = .ok ns s' ∧
    createChoice c.num ((s.uploader up).completeBlocks.getD c.num 0) s' = .ok c s'

-- A read failed for want of such an array.
def Astray (s : State) (up : Nat) (e : Exn) : Prop := e.OutOfBounds ∧ ¬ s.Sized up

section Raising

variable {α β : Type} {G : Exn → Prop} {fileVerify : FileVerify}

-- The exceptions of a program.
def Raises (G : Exn → Prop) (m : Act α) : Prop :=
  ∀ s, Outcome m (fun _ _ => True) (fun e _ => G e) s

namespace Raises

theorem pure (a : α) : Raises G (Pure.pure a : Act α) := fun _ => trivial

theorem throw {e : Exn} (h : G e) : Raises G (throw e : Act α) := fun _ => h

theorem check {c : Prop} [Decidable c] {e : Exn} (h : G e) : Raises G (Effects.check c e) :=
  fun s => (outcome_check c e _ _ s).mpr ⟨fun _ => trivial, fun _ => h⟩

theorem modify (f : State → State) : Raises G (modify f : Act Unit) := fun _ => trivial

theorem bind {x : Act α} {f : α → Act β} (hx : Raises G x) (hf : ∀ a, Raises G (f a)) :
    Raises G (x >>= f) := fun s => (hx s).bind fun a s' _ => hf a s'

theorem get_bind {f : State → Act α} (h : ∀ s, Raises G (f s)) : Raises G (get >>= f) :=
  fun s => h s s

theorem forM {l : List β} {f : β → Act Unit} (h : ∀ x, Raises G (f x)) : Raises G (forM l f) :=
  fun _ => Outcome.forM trivial fun x _ s' _ => h x s'

end Raises

open Raises

theorem raises_assert {site : Site} (h : site = .setFrontendStateMissing ∨
    site = .setSwarmerStateVerified ∨ site = .verifyChunk ∨ site = .noFrontend) :
    Exn.Verifying (.assertFailure site) := .inr (.inr ⟨site, rfl, h⟩)

theorem setSwarmerStateVerified_raises (i : Nat) :
    Raises Exn.Verifying (setSwarmerStateVerified i) := by
  refine get_bind fun s => ?_
  split
  · exact pure ()
  · refine bind (modify _) fun _ => get_bind fun s => ?_
    split
    · exact throw (raises_assert (by simp))
    · split
      · exact pure ()
      · exact pure ()
      · exact bind (check (raises_assert (by simp))) fun _ => modify _
      · exact bind (check (raises_assert (by simp))) fun _ => modify _

theorem setVerifiedBlock_raises (i : Nat) : Raises Exn.Verifying (setVerifiedBlock i) := by
  refine get_bind fun s => ?_
  split
  · exact pure ()
  · exact bind (modify _) fun _ => bind (modify _) fun _ => setSwarmerStateVerified_raises i

theorem resetBlock_raises (i : Nat) : Raises Exn.Verifying (resetBlock i) := by
  refine get_bind fun s => ?_
  split
  · exact modify _
  · exact modify _
  · exact bind (modify _) fun _ => bind (modify _) fun _ => modify _
  · exact throw (raises_assert (by simp))

theorem setFrontendStateMissing_raises (k j : Nat) :
    Raises Exn.Verifying (setFrontendStateMissing k j) := by
  refine get_bind fun s => bind (check (raises_assert (by simp))) fun _ =>
    bind (check (raises_assert (by simp))) fun _ => bind (modify _) fun _ => ?_
  split
  · exact bind (modify _) fun _ => forM resetBlock_raises
  · exact modify _

theorem markVerified_raises (k j : Nat) : Raises Exn.Verifying (markVerified k j) := by
  refine bind (modify _) fun _ => ?_
  split
  · exact get_bind fun s => forM setVerifiedBlock_raises
  · exact pure ()

theorem setFrontendStateVerified_raises (k j : Nat) :
    Raises Exn.Verifying (setFrontendStateVerified k j) := by
  refine get_bind fun s => ?_
  split
  · exact bind (modify _) fun _ => markVerified_raises k j
  · exact bind (modify _) fun _ => markVerified_raises k j
  · exact bind (modify _) fun _ => markVerified_raises k j
  · exact pure ()

theorem verifyError_verifying {e : VerifyError} (h : e ≠ .verifierNotReady) :
    e.exn.Verifying := by
  cases e with
  | verifierNotReady => exact absurd rfl h
  | notFound => exact .inl rfl
  | unixError => exact .inr (.inl rfl)

theorem verifyChunk_raises (k j : Nat) : Raises Exn.Verifying (verifyChunk fileVerify k j) := by
  refine get_bind fun s => ?_
  dsimp only
  split
  · split
    · exact pure ()
    · exact pure ()
    · exact setFrontendStateVerified_raises k j
    · split
      · refine get_bind fun s => ?_
        dsimp only
        split
        · exact setFrontendStateVerified_raises k j
        · exact setFrontendStateMissing_raises k j
        · exact pure ()
        · next e he _ => exact throw (verifyError_verifying he)
      · refine bind (check (raises_assert (by simp))) fun _ => get_bind fun s => ?_
        dsimp only
        split
        · split
          · exact forM (setFrontendStateVerified_raises k)
          · refine forM fun j => get_bind fun s => ?_
            split
            · exact setFrontendStateMissing_raises k j
            · exact pure ()
          · exact pure ()
          · next e he _ => exact throw (verifyError_verifying he)
        · exact pure ()
  · exact pure ()

end Raising

section Reading

variable {fileVerify : FileVerify} {up n b : Nat} {s s' : State} {e : Exn}

-- What the comparison reads of a state, and what tells which blocks are compared.
def State.compared (s : State) : List Nat × List Nat × List Uploader × List Nat :=
  (s.nuploading, s.availability, s.uploaders, s.prioritiesBitmap)

-- What the verification of a chunk leaves alone.
def State.kept (s : State) : (TableValues × Nat) ×
    ((Strategy × List (Int × Int)) × (Int × List Bool)) ×
      (List Nat × List Nat × List Uploader × List Nat) :=
  ((s.tables, s.verifiedBitmap.length), s.settings, s.compared)

theorem State.Sized.congr (h : s.Sized up) (hs : s'.kept = s.kept) : s'.Sized up := by
  have htables : s'.tables = s.tables := congrArg (·.1.1) hs
  have hbits : s'.verifiedBitmap.length = s.verifiedBitmap.length := congrArg (·.1.2) hs
  have hset : s'.settings = s.settings := congrArg (·.2.1) hs
  have huploaders : s'.uploaders = s.uploaders := congrArg (·.2.2.2.2.1) hs
  have hlayout : s'.layout = s.layout := congrArg (·.1) htables
  have hblocks : s'.blocks.length = s.blocks.length := congrArg (·.2.2) hlayout
  have hsize : s'.size = s.size := congrArg (·.1) hlayout
  have hprio : s'.prioritiesBitmap.length = s.prioritiesBitmap.length :=
    congrArg (·.2.1.2) htables
  have hnetworks : s'.networks.length = s.networks.length := by
    simpa [State.tables] using congrArg (·.2.2.length) htables
  have hup : s'.uploader up = s.uploader up := by
    rw [State.uploader, State.uploader, huploaders]
  have hchunk : ∀ k, (s'.frontend k).chunkOfBlock = (s.frontend k).chunkOfBlock := fun k =>
    congrArg (·.2.2.2.1) (frontend_tables htables k)
  refine ⟨?_, ?_, ?_, ?_, h.disk.congr hsize hset, fun i hi => ?_, hup ▸ h.ncomplete,
    fun b hb => ?_⟩
  · rw [← List.length_pos_iff_ne_nil, hnetworks]
    exact List.length_pos_iff_ne_nil.mpr h.networks
  · rw [hblocks, hbits]
    exact h.bits
  · rw [hblocks, hprio]
    exact h.priorities
  · rw [hblocks, hup, hchunk]
    exact h.chunks
  · rw [Store.computeBlockBegin_congr hlayout, Store.computeBlockEnd_congr hlayout, hsize]
    exact h.inside i (hblocks ▸ hi)
  · rw [hblocks]
    exact h.complete b (hup ▸ hb)

theorem Astray.congr (h : Astray s' up e) (hs : s'.kept = s.kept) : Astray s up e :=
  ⟨h.1, fun hsized => h.2 (hsized.congr hs)⟩

theorem outOfBounds_invalidArgument : Exn.OutOfBounds .invalidArgument := .inl rfl

theorem outOfBounds_assert {site : Site} (h : site = .iterDiskSpace ∨ site = .noFrontend ∨
    site = .remainingBlocksInChunks ∨ site = .subarrayFoldLefti) :
    Exn.OutOfBounds (.assertFailure site) := .inr ⟨site, rfl, h⟩

-- A read fails where the array is too short.
theorem readAt_astray {α : Type} {a : List α} {i : Nat} (h : s.Sized up → i < a.length) :
    Outcome (readAt a i) (fun x s' => s' = s ∧ a[i]? = some x)
      (fun e s' => s' = s ∧ Astray s up e) s := by
  unfold readAt
  split
  · next x hx => exact ⟨rfl, hx⟩
  · next hx =>
    refine ⟨rfl, outOfBounds_invalidArgument, fun hsized => ?_⟩
    exact absurd (h hsized) (not_lt.mpr (List.getElem?_eq_none_iff.mp hx))

theorem check_astray {c : Prop} [Decidable c] {e : Exn} (he : e.OutOfBounds)
    (h : s.Sized up → c) :
    Outcome (check c e) (fun _ s' => s' = s ∧ c) (fun e s' => s' = s ∧ Astray s up e) s :=
  (outcome_check c e _ _ s).mpr ⟨fun hc => ⟨rfl, hc⟩,
    fun hno => ⟨rfl, he, fun hsized => hno (h hsized)⟩⟩

theorem diskBlocks_astray (hb : s.Sized up → b < s.blocks.length) :
    Outcome (diskBlocks (s.computeBlockBegin b) (s.computeBlockEnd b))
      (fun l s' => s' = s ∧ ∀ i ∈ l, s.Sized up → i < s.diskAllocated.length)
      (fun e s' => s' = s ∧ Astray s up e) s := by
  have hassert : Exn.OutOfBounds (.assertFailure .iterDiskSpace) := outOfBounds_assert (by simp)
  unfold diskBlocks
  rw [outcome_get_bind]
  split
  · next hlt =>
    have hin : s.Sized up → 0 ≤ s.computeBlockBegin b ∧ s.computeBlockEnd b ≤ s.size :=
      fun h => h.inside b (hb h)
    refine (check_astray hassert fun h => ?_).bind fun _ s' hs' => ?_
    · have := hin h
      omega
    obtain ⟨rfl, -⟩ := hs'
    refine (check_astray hassert fun h => ?_).bind fun _ s'' hs'' => ?_
    · have := hin h
      omega
    obtain ⟨rfl, -⟩ := hs''
    refine ⟨rfl, fun i hi hsized => ?_⟩
    obtain ⟨hbegin, hend⟩ := hin hsized
    obtain ⟨hpos, hfits⟩ := hsized.disk
    rw [Int.tdiv_eq_ediv_of_nonneg (by omega)] at hfits
    rw [Int.tdiv_eq_ediv_of_nonneg (by omega), Int.tdiv_eq_ediv_of_nonneg (by omega),
      List.mem_range'_1] at hi
    have hle := Int.ediv_le_ediv hpos (show s''.computeBlockEnd b - 1 ≤ s''.size - 1 by omega)
    have hnonneg := Int.ediv_nonneg (show 0 ≤ s''.computeBlockEnd b - 1 by omega) hpos.le
    omega
  · exact ⟨rfl, fun i hi => absurd hi List.not_mem_nil⟩

theorem allDiskAllocated_astray {l : List Nat}
    (h : ∀ i ∈ l, s.Sized up → i < s.diskAllocated.length) :
    Outcome (allDiskAllocated l) (fun _ s' => s' = s) (fun e s' => s' = s ∧ Astray s up e) s := by
  induction l with
  | nil => exact rfl
  | cons i l ih =>
    obtain ⟨hi, hl⟩ := List.forall_mem_cons.mp h
    unfold allDiskAllocated
    rw [outcome_get_bind]
    refine (check_astray outOfBounds_invalidArgument hi).bind fun _ s' hs' => ?_
    obtain ⟨rfl, -⟩ := hs'
    split
    · exact ih hl
    · exact rfl

theorem createChoice_astray (hb : s.Sized up → b < s.blocks.length) :
    Outcome (createChoice n b) (fun c s' => s' = s ∧ c.num = n ∧ c.block = b ∧
      c.userPriority = s.prioritiesBitmap.getD b 0) (fun e s' => s' = s ∧ Astray s up e) s := by
  have hdisk : Outcome (isFullyPreallocated (s.computeBlockBegin b) (s.computeBlockEnd b))
      (fun _ s' => s' = s) (fun e s' => s' = s ∧ Astray s up e) s := by
    refine (diskBlocks_astray hb).bind fun l s' hl => ?_
    obtain ⟨rfl, hl⟩ := hl
    exact allDiskAllocated_astray hl
  unfold createChoice
  rw [outcome_get_bind]
  split
  all_goals
    refine hdisk.bind fun full s' hs' => ?_
    subst hs'
    refine (readAt_astray fun h => (hb h).trans_le h.priorities).bind fun p s' hp => ?_
    obtain ⟨rfl, hp⟩ := hp
    exact ⟨rfl, rfl, rfl, by simp [hp]⟩

-- should_download_block fails as the verification does.
theorem shouldDownloadBlock_raises (hb : s.Sized up → b < s.blocks.length) :
    Outcome (shouldDownloadBlock fileVerify b) (fun _ _ => True)
      (fun e _ => e.Verifying ∨ Astray s up e) s := by
  unfold shouldDownloadBlock
  rw [outcome_get_bind]
  refine Outcome.bind ((readAt_astray fun h => (hb h).trans_le h.bits).mono (fun _ _ h => h)
    fun _ _ h => .inr h.2) fun c s' hs' => ?_
  obtain ⟨rfl, -⟩ := hs'
  split
  · trivial
  · trivial
  · split
    · next hnil =>
      exact .inr ⟨outOfBounds_assert (by simp), fun h => h.networks hnil⟩
    · dsimp only
      split
      · refine Outcome.bind (P := fun _ _ => True) ?_ fun _ _ _ => trivial
        refine (verifyChunk_raises 0 _ s').tryCatch fun e s'' he => ?_
        split
        · trivial
        · exact .inl he
      · trivial
  · trivial

-- The verification of a chunk leaves alone what is compared.
theorem frame_compared (τ : TableValues) (c : List Nat × List Nat × List Uploader × List Nat) :
    Frame τ fun s => s.tables = τ ∧ s.compared = c :=
  frame_value τ c (fun _ _ => rfl) (fun _ _ => rfl) (fun _ _ => rfl) fun _ _ _ => rfl

theorem Frame.and {τ : TableValues} {I J : State → Prop} (h : Frame τ I) (h' : Frame τ J) :
    Frame τ fun s => I s ∧ J s where
  tables hs := h.tables hs.1
  store hf hs := ⟨h.store hf hs.1, h'.store hf hs.2⟩
  files l hs := ⟨h.files l hs.1, h'.files l hs.2⟩
  setBit i c hs := ⟨h.setBit i c hs.1, h'.setBit i c hs.2⟩
  setSwarmerStateMissing i hs :=
    ⟨h.setSwarmerStateMissing i hs.1, h'.setSwarmerStateMissing i hs.2⟩
  setSwarmerStatePartial i hs :=
    ⟨h.setSwarmerStatePartial i hs.1, h'.setSwarmerStatePartial i hs.2⟩
  setSwarmerStateComplete i hs :=
    ⟨h.setSwarmerStateComplete i hs.1, h'.setSwarmerStateComplete i hs.2⟩
  verifySecondaries i hs := ⟨h.verifySecondaries i hs.1, h'.verifySecondaries i hs.2⟩
  setVerifier k f hs := ⟨h.setVerifier k f hs.1, h'.setVerifier k f hs.2⟩
  failed hs hc hd := ⟨h.failed hs.1 hc hd, h'.failed hs.2 hc hd⟩
  verified hs hj hd := ⟨h.verified hs.1 hj hd, h'.verified hs.2 hj hd⟩
  confirmed hs hc := ⟨h.confirmed hs.1 hc, h'.confirmed hs.2 hc⟩

theorem verifyChunk_kept (s : State) (k j : Nat) :
    Outcome (verifyChunk fileVerify k j) (fun _ s' => s'.kept = s.kept)
      (fun _ s' => s'.kept = s.kept) s := by
  have hkept : ∀ s' : State, ((s'.tables = s.tables ∧
      s'.verifiedBitmap.length = s.verifiedBitmap.length) ∧
      (s'.tables = s.tables ∧ s'.settings = s.settings) ∧
        s'.tables = s.tables ∧ s'.compared = s.compared) → s'.kept = s.kept := by
    rintro s' ⟨⟨ht, hb⟩, ⟨-, hset⟩, -, hc⟩
    rw [State.kept, State.kept, ht, hb, hset, hc]
  have hframe := (frame_bits s.tables s.verifiedBitmap.length).and
    ((frame_settings s.tables s.settings).and (frame_compared s.tables s.compared))
  exact (hframe.verifyChunk fileVerify k j s ⟨⟨rfl, rfl⟩, ⟨rfl, rfl⟩, rfl, rfl⟩).mono
    (fun _ s' => hkept s') fun _ s' => hkept s'

theorem shouldDownloadBlock_kept (s : State) (n : Nat) :
    Outcome (shouldDownloadBlock fileVerify n) (fun _ s' => s'.kept = s.kept)
      (fun _ s' => s'.kept = s.kept) s :=
  shouldDownloadBlock_outcome (I := fun s' => s'.kept = s.kept)
    (E := fun _ s' => s'.kept = s.kept) (fun h _ => h) (fun h => h)
    (fun {s'} j h _ => (verifyChunk_kept s' 0 j).mono (fun _ _ h' => h'.trans h)
      fun _ _ h' => h'.trans h) rfl n

-- One more block is looked at.
theorem wantedBlocks_succ (s : State) (n : Nat) :
    wantedBlocks fileVerify up (n + 1) s = (wantedBlocks fileVerify up n >>= fun ns =>
      wantBlock fileVerify ns n ((s.uploader up).completeBlocks.getD n 0)) s := by
  have hfold : (List.range (n + 1)).foldlM
      (fun ns i => wantBlock fileVerify ns i ((s.uploader up).completeBlocks.getD i 0)) [] =
      (List.range n).foldlM
        (fun ns i => wantBlock fileVerify ns i ((s.uploader up).completeBlocks.getD i 0)) [] >>=
      fun ns => wantBlock fileVerify ns n ((s.uploader up).completeBlocks.getD n 0) := by
    rw [List.range_succ, List.foldlM_append]
    simp only [List.foldlM_cons, List.foldlM_nil, bind_pure]
  exact congrFun hfold s

section Looking

variable {ns : List Nat} {p : Nat}

theorem readAt_some {α : Type} {a : List α} {i : Nat} {x : α} (h : a[i]? = some x) :
    readAt a i = (pure x : Act α) := by
  unfold readAt
  rw [h]

theorem wantBlock_zero (hp : s.prioritiesBitmap[b]? = some PRIORITY_ZERO) :
    wantBlock fileVerify ns n b s = .ok ns s := by
  unfold wantBlock
  simp only [bind, EStateM.bind, get, getThe, MonadStateOf.get, EStateM.get, readAt_some hp, pure,
    EStateM.pure, if_true]

theorem wantBlock_ok (hp : s.prioritiesBitmap[b]? = some p) (hne : p ≠ PRIORITY_ZERO) {d : Bool}
    (hd : shouldDownloadBlock fileVerify b s = .ok d s') :
    wantBlock fileVerify ns n b s = .ok (if d then n :: ns else ns) s' := by
  unfold wantBlock
  simp only [bind, EStateM.bind, get, getThe, MonadStateOf.get, EStateM.get, readAt_some hp, pure,
    EStateM.pure, if_neg hne, hd]
  cases d <;> rfl

theorem wantBlock_error (hp : s.prioritiesBitmap[b]? = some p) (hne : p ≠ PRIORITY_ZERO)
    (hd : shouldDownloadBlock fileVerify b s = .error e s') :
    wantBlock fileVerify ns n b s = .error e s' := by
  unfold wantBlock
  simp only [bind, EStateM.bind, get, getThe, MonadStateOf.get, EStateM.get, readAt_some hp, pure,
    EStateM.pure, if_neg hne, hd]

end Looking

theorem outcome_run {α : Type} (m : Act α) (s : State) :
    Outcome m (fun a s' => m s = .ok a s') (fun e s' => m s = .error e s') s := by
  unfold Outcome
  cases m s <;> rfl

theorem lt_of_sized (h : s.Sized up) (hn : n < (s.uploader up).ncomplete) :
    (s.uploader up).completeBlocks.getD n 0 < s.blocks.length := by
  have hlt := hn.trans_le h.ncomplete.2
  refine h.complete _ ?_
  rw [List.getD_eq_getElem _ _ hlt]
  exact List.getElem_mem hlt

end Reading

end Mldonkey.Swarming
