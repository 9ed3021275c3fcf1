import Mldonkey.Swarming.Transfer

namespace Mldonkey.Swarming

open Effects

-- Any exception but the asserts of set_frontend_state_missing.
def Exn.Calm (e : Exn) : Prop := e ≠ .assertFailure .setFrontendStateMissing

-- The program stopped with an exception that `G` admits, in a state that
-- satisfies `I`.
def Ends (I : State → Prop) (G : Exn → Prop) (e : Exn) (s : State) : Prop := I s ∧ G e

-- The state is only read.
def Reads {α : Type} (m : Act α) (s : State) : Prop :=
  Outcome m (fun _ s' => s' = s) (fun e s' => s' = s ∧ e.Calm) s

namespace Reads

variable {α β : Type} {x : Act α} {f : α → Act β} {s : State} {Q : β → State → Prop}
  {E : Exn → State → Prop}

theorem pure (a : α) : Reads (Pure.pure a : Act α) s := rfl

theorem throw {e : Exn} (he : e.Calm) : Reads (throw e : Act α) s := ⟨rfl, he⟩

theorem check (c : Prop) [Decidable c] {e : Exn} (he : e.Calm) :
    Reads (Effects.check c e) s :=
  (outcome_check c e _ _ s).mpr ⟨fun _ => rfl, fun _ => ⟨rfl, he⟩⟩

theorem readAt (a : List α) (i : Nat) : Reads (readAt a i) s := by
  unfold Reads Swarming.readAt
  split
  · exact rfl
  · exact ⟨rfl, by simp [Exn.Calm]⟩

theorem outcome_bind (hx : Reads x s) (hE : ∀ e : Exn, e.Calm → E e s)
    (hf : ∀ a, Outcome (f a) Q E s) : Outcome (x >>= f) Q E s :=
  (Effects.outcome_bind x f Q E s).mpr
    (hx.mono (fun a _ hs => hs ▸ hf a) fun e _ h => h.1 ▸ hE e h.2)

theorem bind (hx : Reads x s) (hf : ∀ a, Reads (f a) s) : Reads (x >>= f) s :=
  hx.outcome_bind (fun _ he => ⟨rfl, he⟩) hf

theorem get_bind {f : State → Act β} (h : Reads (f s) s) : Reads (get >>= f) s := h

end Reads

theorem readAt_outcome {α : Type} {a : List α} {i : Nat} {Q : α → State → Prop}
    {E : Exn → State → Prop} {s : State} (hQ : ∀ x, a[i]? = some x → Q x s)
    (hE : E .invalidArgument s) : Outcome (readAt a i) Q E s := by
  unfold readAt
  split
  · next x hx => exact hQ x hx
  · exact hE

theorem diskBlocks_reads (b e : Int) (s : State) : Reads (diskBlocks b e) s := by
  unfold diskBlocks
  refine .get_bind ?_
  split
  · exact (Reads.check _ (by simp [Exn.Calm])).bind fun _ =>
      (Reads.check _ (by simp [Exn.Calm])).bind fun _ => .pure _
  · exact .pure _

theorem allDiskAllocated_reads (s : State) : ∀ l, Reads (allDiskAllocated l) s
  | [] => .pure _
  | n :: l => by
      unfold allDiskAllocated
      refine .get_bind ((Reads.check _ (by simp [Exn.Calm])).bind fun _ => ?_)
      split
      · exact allDiskAllocated_reads s l
      · exact .pure _

theorem createChoice_reads (n b : Nat) (s : State) : Reads (createChoice n b) s := by
  unfold createChoice
  refine .get_bind ?_
  have hfull := fun b e => (diskBlocks_reads b e s).bind fun l => allDiskAllocated_reads s l
  split <;> exact (hfull _ _).bind fun _ => (Reads.readAt _ _).bind fun _ => .pure _

theorem chunkSpecimen_reads (sel : Selection) (up : Nat) (s : State) :
    ∀ l acc memo, Reads (chunkSpecimen sel up l acc memo) s
  | [], _, _ => .pure _
  | n :: l, acc, memo => by
      unfold chunkSpecimen
      refine .get_bind ((Reads.readAt _ _).bind fun b => (createChoice_reads n b s).bind fun c =>
        (Reads.check _ (by simp [Exn.Calm])).bind fun _ => ?_)
      split
      exact chunkSpecimen_reads sel up s l _ _

-- The chunk may become the best one, the best ones stay, or it is added.
theorem keepBestChunks_outcome {sel : Selection} {up : Nat} {l : List Nat} {best : Best}
    {s : State} : Outcome (keepBestChunks sel up l best)
      (fun best' s' => s' = s ∧ ∀ c ∈ best'.choices, c ∈ best.choices ∨ c = l ∧ l ≠ [])
      (fun e s' => s' = s ∧ e.Calm) s := by
  cases l with
  | nil => exact ⟨rfl, fun c hc => .inl hc⟩
  | cons h q =>
      have hE : ∀ e : Exn, e.Calm → s = s ∧ e.Calm := fun e he => ⟨rfl, he⟩
      refine (Reads.readAt _ _).outcome_bind hE fun b =>
        (createChoice_reads h b s).outcome_bind hE fun first =>
          (chunkSpecimen_reads sel up s q first _).outcome_bind hE fun r =>
            (Reads.check _ (by simp [Exn.Calm])).outcome_bind hE fun _ => ?_
      split
      refine ⟨rfl, fun c hc => ?_⟩
      split at hc
      · exact .inl hc
      · split at hc
        · exact .inr ⟨by simpa using hc, by simp⟩
        · rcases List.mem_cons.mp hc with rfl | hc
          · exact .inr ⟨rfl, by simp⟩
          · exact .inl hc

-- What an invariant `I` has to stand for uploader `up` to select blocks. A block
-- record that satisfied `R` when it was picked is handed out at the end; `W`
-- is what a priority of some block tells.
structure Selecting (fileVerify : FileVerify) (up : Nat) (W : Prop) (I : State → Prop)
    (R : State → BlockId → Prop) (E : Exn → State → Prop) : Prop where
  raise : ∀ {e s}, I s → e.Calm → E e s
  recover : ∀ {e s}, E e s → I s
  wanted : ∀ {s i}, I s → s.prioritiesBitmap.getD i 0 ≠ 0 → W
  verify : ∀ {s j}, I s → (s.frontend 0).chunk j = .stateComplete →
    Outcome (verifyChunk fileVerify 0 j) (fun _ => I) E s
  permute : ∀ {s n b last}, I s → n < (s.uploader up).ncomplete →
    (s.uploader up).completeBlocks[n]? = some b →
    (s.uploader up).completeBlocks[(s.uploader up).ncomplete - 1]? = some last →
    I (s.modifyUploader up fun u =>
      { u with
        completeBlocks := (u.completeBlocks.set n last).set (u.ncomplete - 1) b
        ncomplete := u.ncomplete - 1 })
  dropComplete : ∀ {s n}, I s → n + 1 = (s.uploader up).ncomplete →
    I (s.modifyUploader up fun u => { u with ncomplete := n })
  dropPartial : ∀ {s n}, I s → n + 1 = Uploader.npartial (s.uploader up) →
    I (s.modifyUploader up fun u => { u with npartial := n })
  start : ∀ {s i}, W → I s → i < s.blocks.length → s.blockAt i = .emptyBlock → I (s.newBlock i)
  started : ∀ {s i}, W → I s → i < s.blocks.length → s.blockAt i = .emptyBlock →
    R (s.newBlock i) s.nextBlock ∧ ∀ b, R s b → R (s.newBlock i) b
  current : ∀ {s i b}, I s → i < s.blocks.length → s.blockAt i = .partialBlock b → R s b
  aside : ∀ {s f b}, R s b → R (s.modifyUploader up f) b
  unselect : ∀ {s}, I s → I (s.clearUploaderBlocks up)
  choose : ∀ {s} {blocks : List UploaderBlock}, I s → (∀ b ∈ blocks, R s b.block) →
    I ((blocks.foldl (fun s b => s.incrNuploading (s.block b.block).num) s).modifyUploader up
      fun u => { u with blocks := blocks })

theorem State.uploader_modifyUploader (s : State) (up up' : Nat) (f : Uploader → Uploader) :
    (s.modifyUploader up f).uploader up' =
      if up' = up ∧ up < s.uploaders.length then f (s.uploader up) else s.uploader up' := by
  simp only [State.uploader, State.modifyUploader, List.getD_eq_getElem?_getD,
    List.getElem?_modify]
  by_cases h : up = up'
  · subst h
    by_cases hk : up < s.uploaders.length <;> simp [hk]
  · have h' : up' ≠ up := Ne.symm h
    cases hx : s.uploaders[up']? <;> simp [h, h']

theorem State.uploader_of_length_le {s : State} {up : Nat} (h : s.uploaders.length ≤ up) :
    s.uploader up = default := by
  simp [State.uploader, List.getElem?_eq_none h]

namespace Selecting

variable {fileVerify : FileVerify} {up : Nat} {W : Prop} {I : State → Prop}
  {R : State → BlockId → Prop} {E : Exn → State → Prop} {s : State}

theorem blockAt_of_get {i : Nat} {b : BlockV} (h : s.blocks[i]? = some b) :
    i < s.blocks.length ∧ s.blockAt i = b := by
  obtain ⟨hi, hb⟩ := List.getElem?_eq_some_iff.mp h
  exact ⟨hi, by simp [Store.blockAt, h]⟩

theorem getD_of_get {α : Type} {a : List α} {i : Nat} {x d : α} (h : a[i]? = some x) :
    a.getD i d = x := by simp [h]

theorem permuteAndReturn (h : Selecting fileVerify up W I R E) (hW : W) (hs : I s) (n : Nat) :
    Outcome (permuteAndReturn up n)
      (fun b s' => I s' ∧ R s' b.block ∧ ∀ b', R s b' → R s' b') E s := by
  unfold Swarming.permuteAndReturn
  rw [outcome_get_bind, outcome_bind, outcome_check]
  refine ⟨fun hn => ?_, fun _ => h.raise hs (by simp [Exn.Calm])⟩
  rw [outcome_bind]
  refine readAt_outcome (fun b hb => ?_) (h.raise hs (by simp [Exn.Calm]))
  rw [outcome_bind]
  refine readAt_outcome (fun last hlast => ?_) (h.raise hs (by simp [Exn.Calm]))
  have hp := h.permute hs hn hb hlast
  have hR : ∀ f b', R s b' → R (s.modifyUploader up f) b' := fun _ _ hb' => h.aside hb'
  rw [outcome_modify_bind, outcome_bind]
  refine readAt_outcome (fun x hx => ?_) (h.raise hp (by simp [Exn.Calm]))
  obtain ⟨hi, hx⟩ := blockAt_of_get hx
  cases x with
  | emptyBlock =>
      obtain ⟨hnew, hkeep⟩ := h.started hW hp hi hx
      exact ⟨h.start hW hp hi hx, hnew, fun b' hb' => hkeep b' (hR _ b' hb')⟩
  | partialBlock b => exact ⟨hp, h.current hp hi hx, hR _⟩
  | completeBlock => exact h.raise hp (by simp [Exn.Calm])
  | verifiedBlock => exact h.raise hp (by simp [Exn.Calm])

theorem linearSelectPartial (h : Selecting fileVerify up W I R E) :
    ∀ (n : Nat) {s : State}, I s → Uploader.npartial (s.uploader up) = n →
      Outcome (linearSelectPartial up n) (fun r s' => I s' ∧ ∀ b ∈ r.2, R s' b.block) E s
  | 0, s, hs, _ => h.raise hs (by simp [Exn.Calm])
  | n + 1, s, hs, hn => by
      unfold Swarming.linearSelectPartial
      rw [outcome_get_bind, outcome_bind]
      refine readAt_outcome (fun x hx => ?_) (h.raise hs (by simp [Exn.Calm]))
      obtain ⟨b, blockBegin, blockEnd⟩ := x
      have hp := h.dropPartial (n := n) hs hn.symm
      have hlt : up < s.uploaders.length := by
        by_contra hge
        rw [State.uploader_of_length_le (by omega)] at hn
        exact absurd hn (by simp [default])
      have hagain := linearSelectPartial h n hp
        (by rw [State.uploader_modifyUploader, if_pos ⟨rfl, hlt⟩])
      simp only
      rw [outcome_modify_bind, outcome_bind]
      refine readAt_outcome (fun c hc => ?_) (h.raise hp (by simp [Exn.Calm]))
      split
      · exact hagain
      · next hc0 =>
          have hW : W := h.wanted hs (i := b) (by rw [getD_of_get hc]; exact hc0)
          refine (Reads.readAt _ _).outcome_bind (fun _ he => h.raise hp he) fun chunk => ?_
          rw [outcome_bind]
          refine readAt_outcome (fun x hx => ?_) (h.raise hp (by simp [Exn.Calm]))
          obtain ⟨hi, hx⟩ := blockAt_of_get hx
          cases x with
          | emptyBlock =>
              refine ⟨h.start hW hp hi hx, fun b' hb' => ?_⟩
              rw [List.mem_singleton.mp hb']
              exact (h.started hW hp hi hx).1
          | partialBlock b =>
              refine ⟨hp, fun b' hb' => ?_⟩
              rw [List.mem_singleton.mp hb']
              exact h.current hp hi hx
          | completeBlock => exact hagain
          | verifiedBlock => exact hagain

theorem linearSelectComplete (h : Selecting fileVerify up W I R E) :
    ∀ (n : Nat) {s : State}, I s → (s.uploader up).ncomplete = n →
      Outcome (linearSelectComplete up n) (fun r s' => I s' ∧ ∀ b ∈ r.2, R s' b.block) E s
  | 0, s, hs, _ => by
      unfold Swarming.linearSelectComplete
      rw [outcome_get_bind]
      exact h.linearSelectPartial _ hs rfl
  | n + 1, s, hs, hn => by
      unfold Swarming.linearSelectComplete
      rw [outcome_get_bind, outcome_bind]
      refine readAt_outcome (fun b hb => ?_) (h.raise hs (by simp [Exn.Calm]))
      have hp := h.dropComplete (n := n) hs hn.symm
      have hlt : up < s.uploaders.length := by
        by_contra hge
        rw [State.uploader_of_length_le (by omega)] at hn
        exact absurd hn (by simp [default])
      have hagain := linearSelectComplete h n hp
        (by rw [State.uploader_modifyUploader, if_pos ⟨rfl, hlt⟩])
      rw [outcome_modify_bind, outcome_bind]
      refine readAt_outcome (fun c hc => ?_) (h.raise hp (by simp [Exn.Calm]))
      split
      · exact hagain
      · next hc0 =>
          have hW : W := h.wanted hs (i := b) (by rw [getD_of_get hc]; exact hc0)
          refine (Reads.readAt _ _).outcome_bind (fun _ he => h.raise hp he) fun chunk => ?_
          rw [outcome_bind]
          refine readAt_outcome (fun x hx => ?_) (h.raise hp (by simp [Exn.Calm]))
          obtain ⟨hi, hx⟩ := blockAt_of_get hx
          cases x with
          | emptyBlock =>
              refine ⟨h.start hW hp hi hx, fun b' hb' => ?_⟩
              rw [List.mem_singleton.mp hb']
              exact (h.started hW hp hi hx).1
          | partialBlock b =>
              refine ⟨hp, fun b' hb' => ?_⟩
              rw [List.mem_singleton.mp hb']
              exact h.current hp hi hx
          | completeBlock => exact hagain
          | verifiedBlock => exact hagain

theorem linearSelectBlocks (h : Selecting fileVerify up W I R E) (hs : I s) :
    Outcome (linearSelectBlocks up) (fun r s' => I s' ∧ ∀ b ∈ r.2, R s' b.block) E s :=
  h.linearSelectComplete _ hs rfl

end Selecting

-- A complete block may get its chunk of the primary verified.
theorem shouldDownloadBlock_outcome {fileVerify : FileVerify} {I : State → Prop}
    {E : Exn → State → Prop} {s : State} (hraise : ∀ {e s}, I s → e.Calm → E e s)
    (hrecover : ∀ {e s}, E e s → I s)
    (hverify : ∀ {s j}, I s → (s.frontend 0).chunk j = .stateComplete →
      Outcome (verifyChunk fileVerify 0 j) (fun _ => I) E s) (hs : I s) (n : Nat) :
    Outcome (shouldDownloadBlock fileVerify n) (fun _ => I) E s := by
  unfold shouldDownloadBlock
  rw [outcome_get_bind, outcome_bind]
  refine readAt_outcome (fun c _ => ?_) (hraise hs (by simp [Exn.Calm]))
  cases c with
  | stateMissing => exact hs
  | statePartial => exact hs
  | stateVerified => exact hs
  | stateComplete =>
      cases hn : s.networks with
      | nil => exact hraise hs (by simp [Exn.Calm])
      | cons t l =>
          have ht : s.frontend 0 = t := by simp [State.frontend, hn]
          simp only
          split
          · next hc =>
              refine Outcome.bind (P := fun _ => I) ((hverify hs (ht ▸ hc)).tryCatch fun e s' he => ?_)
                fun _ s' hs' => hs'
              split
              · exact hrecover he
              · exact he
          · exact hs

namespace Selecting

variable {fileVerify : FileVerify} {up : Nat} {W : Prop} {I : State → Prop}
  {R : State → BlockId → Prop} {E : Exn → State → Prop} {s : State}

theorem shouldDownloadBlock (h : Selecting fileVerify up W I R E) (hs : I s) (n : Nat) :
    Outcome (shouldDownloadBlock fileVerify n) (fun _ => I) E s :=
  shouldDownloadBlock_outcome h.raise h.recover h.verify hs n

theorem keepBestChunks (h : Selecting fileVerify up W I R E) (hs : I s) (sel : Selection)
    {l : List Nat} {best : Best} (hW : l ≠ [] ∨ best.choices ≠ [] → W) :
    Outcome (keepBestChunks sel up l best)
      (fun best' s' => I s' ∧ (best'.choices ≠ [] → W)) E s := by
  refine keepBestChunks_outcome.mono (fun best' s' ⟨hs', hc⟩ => ⟨hs' ▸ hs, fun hne => ?_⟩)
    fun e s' ⟨hs', he⟩ => hs' ▸ h.raise hs he
  obtain ⟨c, hmem⟩ := List.exists_mem_of_ne_nil _ hne
  rcases hc c hmem with hc | ⟨-, hl⟩
  · exact hW (.inr (List.ne_nil_of_mem hc))
  · exact hW (.inl hl)

-- What has been collected so far was wanted.
theorem scanBlock (h : Selecting fileVerify up W I R E) (hs : I s) (sel : Selection) {acc : Scan}
    (hacc : acc.chunkBlocks ≠ [] ∨ acc.best.choices ≠ [] → W) (n b : Nat) :
    Outcome (scanBlock fileVerify sel up acc n b)
      (fun acc' s' => I s' ∧ (acc'.chunkBlocks ≠ [] ∨ acc'.best.choices ≠ [] → W)) E s := by
  unfold Swarming.scanBlock
  rw [outcome_get_bind, outcome_bind]
  refine readAt_outcome (fun c hc => ?_) (h.raise hs (by simp [Exn.Calm]))
  split
  · exact ⟨hs, hacc⟩
  · next hc0 =>
      have hW : W := h.wanted hs (i := b) (by rw [getD_of_get hc]; exact hc0)
      refine (h.shouldDownloadBlock hs b).bind fun d s₁ hs₁ => ?_
      split
      · exact ⟨hs₁, hacc⟩
      · rw [outcome_get_bind]
        refine (Reads.readAt _ _).outcome_bind (fun _ he => h.raise hs₁ he) fun chunkNum => ?_
        split
        · exact ⟨hs₁, fun _ => hW⟩
        · split
          · exact ⟨hs₁, fun _ => hW⟩
          · exact (h.keepBestChunks hs₁ sel fun _ => hW).bind fun best s₂ hs₂ =>
              ⟨hs₂.1, fun _ => hW⟩

theorem mapM_permuteAndReturn (h : Selecting fileVerify up W I R E) (hW : W) :
    ∀ (l : List Nat) {s : State}, I s → Outcome (l.mapM (Swarming.permuteAndReturn up))
      (fun r s' => I s' ∧ (∀ b ∈ r, R s' b.block) ∧ ∀ b, R s b → R s' b) E s
  | [], s, hs => by
      rw [List.mapM_nil]
      exact ⟨hs, fun b hb => absurd hb (by simp), fun _ hb => hb⟩
  | n :: l, s, hs => by
      rw [List.mapM_cons]
      refine (h.permuteAndReturn hW hs n).bind fun b s₁ ⟨hs₁, hb, hkeep⟩ => ?_
      refine (mapM_permuteAndReturn h hW l hs₁).bind fun r s₂ ⟨hs₂, hr, hkeep'⟩ => ?_
      refine ⟨hs₂, fun b' hb' => ?_, fun b' hb' => hkeep' b' (hkeep b' hb')⟩
      rcases List.mem_cons.mp hb' with rfl | hb'
      · exact hkeep' _ hb
      · exact hr b' hb'

theorem firstChunk_reads (s : State) (up t : Nat) (blocks : List Nat) :
    Reads (match blocks with
      | [] => throw (.assertFailure .selectBlocks)
      | n :: _ => do
          readAt (s.frontend t).chunkOfBlock
            (← readAt (s.uploader up).completeBlocks n) : Act Nat) s := by
  split
  · exact Reads.throw (by simp [Exn.Calm])
  · exact (Reads.readAt _ _).bind fun _ => Reads.readAt _ _

theorem selectBestBlocks (h : Selecting fileVerify up W I R E) (hs : I s) (sel : Selection)
    (random : Nat → Nat) :
    Outcome (selectBestBlocks fileVerify sel random up)
      (fun r s' => I s' ∧ ∀ b ∈ r.2, R s' b.block) E s := by
  have hfold : ∀ (a : List Nat) (last : Int), Outcome
      (subarrayFoldLefti (Swarming.scanBlock fileVerify sel up) ⟨none, [], ⟨[], dummyChoice, []⟩⟩ a last)
      (fun acc s' => I s' ∧ (acc.chunkBlocks ≠ [] ∨ acc.best.choices ≠ [] → W)) E s := by
    intro a last
    unfold subarrayFoldLefti
    refine (Reads.check _ (by simp [Exn.Calm])).outcome_bind (fun _ he => h.raise hs he) fun _ => ?_
    refine (Reads.check _ (by simp [Exn.Calm])).outcome_bind (fun _ he => h.raise hs he) fun _ => ?_
    have hstart : ∀ acc : Scan, acc.chunkBlocks = [] → acc.best.choices = [] →
        (acc.chunkBlocks ≠ [] ∨ acc.best.choices ≠ [] → W) := fun acc h1 h2 hne =>
      absurd hne (by simp [h1, h2])
    exact Outcome.foldlM ⟨hs, hstart _ rfl rfl⟩
      fun acc i _ s' hacc => h.scanBlock hacc.1 sel hacc.2 _ _
  unfold Swarming.selectBestBlocks
  rw [outcome_get_bind]
  refine (hfold _ _).bind fun scan s₁ ⟨hs₁, hacc⟩ => ?_
  refine (h.keepBestChunks hs₁ sel hacc).bind fun best s₂ ⟨hs₂, hbest⟩ => ?_
  refine Outcome.tryCatch (P := E) ?_ fun e s' he => ?_
  · refine Outcome.bind (P := fun _ s' => I s' ∧ W) ?_ fun blocks s₃ ⟨hs₃, hW⟩ => ?_
    · split
      · exact h.raise hs₂ (by simp [Exn.Calm])
      · next hb => exact ⟨hs₂, hbest (by simp [hb])⟩
      · next hb _ => exact ⟨hs₂, hbest hb⟩
    · rw [outcome_get_bind]
      have hchunk := firstChunk_reads s₃ up (s.uploader up).t blocks
      refine hchunk.outcome_bind (fun _ he => h.raise hs₃ he) fun chunk => ?_
      exact (h.mapM_permuteAndReturn hW blocks hs₃).bind fun r s₄ hr => ⟨hr.1, hr.2.1⟩
  · split
    · exact h.linearSelectBlocks (h.recover he)
    · exact he

theorem selectBlocks (h : Selecting fileVerify up W I R E) (hs : I s) (sourcesPerChunk : Int)
    (random : Nat → Nat) : Outcome (selectBlocks fileVerify sourcesPerChunk random up)
      (fun r s' => I s' ∧ ∀ b ∈ r.2, R s' b.block) E s := by
  unfold Swarming.selectBlocks
  rw [outcome_get_bind]
  split
  · exact h.linearSelectBlocks hs
  · have hcheck : ∀ (c : Prop) [Decidable c] {e : Exn}, e.Calm → Reads (check c e) s :=
      fun c _ _ he => Reads.check c he
    refine (hcheck _ (by simp [Exn.Calm])).outcome_bind (fun _ he => h.raise hs he) fun _ => ?_
    refine (hcheck _ (by simp [Exn.Calm])).outcome_bind (fun _ he => h.raise hs he) fun _ => ?_
    refine (hcheck _ (by simp [Exn.Calm])).outcome_bind (fun _ he => h.raise hs he) fun _ => ?_
    exact h.selectBestBlocks hs _ random

theorem findBlocks (h : Selecting fileVerify up W I R E) (hs : I s) (sourcesPerChunk : Int)
    (random : Nat → Nat) :
    Outcome (findBlocks fileVerify sourcesPerChunk random up) (fun _ => I) E s := by
  unfold Swarming.findBlocks
  rw [outcome_get_bind]
  refine (Reads.check _ (by simp [Exn.Calm])).outcome_bind (fun _ he => h.raise hs he) fun _ => ?_
  rw [outcome_modify_bind]
  refine (h.selectBlocks (h.unselect hs) sourcesPerChunk random).bind fun r s₁ ⟨hs₁, hr⟩ => ?_
  exact h.choose hs₁ hr

end Selecting

-- find_range looks at the uploader's other blocks before it gives up.
theorem checkOtherBlocks_outcome {fileVerify : FileVerify} {I : State → Prop}
    {E : Exn → State → Prop} (hraise : ∀ {e s}, I s → e.Calm → E e s)
    (hrecover : ∀ {e s}, E e s → I s)
    (hverify : ∀ {s j}, I s → (s.frontend 0).chunk j = .stateComplete →
      Outcome (verifyChunk fileVerify 0 j) (fun _ => I) E s) (u : Uploader) :
    ∀ (l : List Nat) {s : State}, I s →
      Outcome (checkOtherBlocks fileVerify u l) (fun _ => I) E s
  | [], _, hs => hs
  | i :: l, s, hs => by
      have hagain : ∀ s', I s' → Outcome (checkOtherBlocks fileVerify u l) (fun _ => I) E s' :=
        fun s' hs' => checkOtherBlocks_outcome hraise hrecover hverify u l hs'
      unfold checkOtherBlocks
      refine (Reads.readAt _ _).outcome_bind (fun _ he => hraise hs he) fun block => ?_
      rw [outcome_get_bind]
      split
      · exact hagain s hs
      · refine (Reads.readAt _ _).outcome_bind (fun _ he => hraise hs he) fun prio => ?_
        split
        · refine (shouldDownloadBlock_outcome hraise hrecover hverify hs block).bind
            fun d s₁ hs₁ => ?_
          split
          · rw [outcome_get_bind]
            refine (Reads.readAt _ _).outcome_bind (fun _ he => hraise hs₁ he) fun b => ?_
            cases b with
            | emptyBlock => exact hraise hs₁ (by simp [Exn.Calm])
            | completeBlock => exact hagain s₁ hs₁
            | verifiedBlock => exact hagain s₁ hs₁
            | partialBlock b =>
                dsimp only
                split
                · exact hraise hs₁ (by simp [Exn.Calm])
                · exact hagain s₁ hs₁
          · exact hagain s₁ hs₁
        · exact hagain s hs

end Mldonkey.Swarming
