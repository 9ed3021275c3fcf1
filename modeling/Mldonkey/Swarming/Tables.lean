import Mldonkey.Swarming.Stable
import Mldonkey.Swarming.Tags.Blocks

namespace Mldonkey.Swarming

open Effects

namespace Frontend

-- What a frontend was set up with: the size of its chunks, how many there are, its tables and the
-- descriptor of its file.
def tables (t : Frontend) : Int × Nat × List (List Nat) × List Nat × Nat :=
  (t.chunkSize, t.convertedVerifiedBitmap.length, t.blocksOfChunk, t.chunkOfBlock, t.fd)

@[simp] theorem tables_setChunk (t : Frontend) (j : Nat) (c : PartState) :
    (t.setChunk j c).tables = t.tables := by
  simp [tables, setChunk, VB.set]

@[simp] theorem tables_counters (t : Frontend) (n m : Int) :
    tables { t with ncompleteChunks := n, nverifiedChunks := m } = t.tables := rfl

@[simp] theorem tables_ncomplete (t : Frontend) (n : Int) :
    tables { t with ncompleteChunks := n } = t.tables := rfl

@[simp] theorem tables_nverified (t : Frontend) (n : Int) :
    tables { t with nverifiedChunks := n } = t.tables := rfl

@[simp] theorem tables_verifier (t : Frontend) (f : Verifier) :
    tables { t with verifier := f } = t.tables := rfl

end Frontend

namespace Store

@[simp] theorem length_markPriority (s : Store) (bitmap : List Nat) (a e v : Int) :
    (s.markPriority bitmap a e v).length = bitmap.length := by
  unfold markPriority
  split
  · split
    · rfl
    · simp
  · rfl

@[simp] theorem length_markPriorities (s : Store) (bitmap : List Nat) (l : List (Int × Int)) :
    (s.markPriorities bitmap l).length = bitmap.length := by
  induction l generalizing bitmap with
  | nil => rfl
  | cons run l ih =>
    cases l with
    | nil => exact s.length_markPriority bitmap _ _ _
    | cons next l => exact (ih _).trans (s.length_markPriority bitmap _ _ _)

end Store

-- Where the blocks lie, how many counters and priorities there are and the tables of the
-- frontends.
abbrev TableValues : Type :=
  (Int × List Int × Nat) × (Nat × Nat) × List (Int × Nat × List (List Nat) × List Nat × Nat)

namespace State

def tables (s : State) : TableValues :=
  (s.layout, (s.availability.length, s.prioritiesBitmap.length), s.networks.map Frontend.tables)

variable (s : State)

theorem tables_withStore {f : Store → Store} (h : (f s.toStore).layout = s.layout) :
    (s.withStore f).tables = s.tables := by
  simp [tables, withStore, h]

theorem tables_modifyFrontend (k : Nat) {f : Frontend → Frontend}
    (h : ∀ t, (f t).tables = t.tables) : (s.modifyFrontend k f).tables = s.tables := by
  have hmap : (s.networks.modify k f).map Frontend.tables = s.networks.map Frontend.tables := by
    refine List.ext_getElem? fun i => ?_
    rw [List.getElem?_map, List.getElem?_map, List.getElem?_modify]
    cases s.networks[i]? with
    | none => rfl
    | some t =>
      by_cases hi : k = i
      · simp [hi, h]
      · simp [hi]
  rw [tables, modifyFrontend, hmap]
  rfl

theorem tables_networks {f : Frontend → Frontend} (h : ∀ t, (f t).tables = t.tables) :
    ({ s with networks := s.networks.map f } : State).tables = s.tables := by
  simp only [tables, List.map_map]
  congr 2
  exact List.map_congr_left fun t _ => h t

theorem tables_foldl {α : Type} {f : State → α → State} (h : ∀ s x, (f s x).tables = s.tables)
    (l : List α) : (l.foldl f s).tables = s.tables := by
  induction l generalizing s with
  | nil => rfl
  | cons x l ih => rw [List.foldl_cons, ih, h]

@[simp] theorem tables_modifyFile (k : Nat) (f : File → File) :
    (s.modifyFile k f).tables = s.tables := rfl

@[simp] theorem tables_setBit (i : Nat) (c : PartState) : (s.setBit i c).tables = s.tables := rfl

@[simp] theorem tables_modifyUploader (up : Nat) (f : Uploader → Uploader) :
    (s.modifyUploader up f).tables = s.tables := rfl

@[simp] theorem tables_addFileDownloaded (maybeT : Option Nat) (n : Int) :
    (s.addFileDownloaded maybeT n).tables = s.tables := by
  unfold addFileDownloaded
  split <;> rfl

@[simp] theorem tables_setBlockAt (i : Nat) (b : BlockV) :
    (s.withStore (·.setBlockAt i b)).tables = s.tables :=
  tables_withStore s (by simp [Store.layout, Store.setBlockAt])

@[simp] theorem tables_closeBlockRanges (maybeT : Option Nat) (b : BlockId) :
    (s.closeBlockRanges maybeT b).tables = s.tables := by
  have h : ∀ s r, (closeRange maybeT b s r).tables = s.tables := fun s r =>
    (tables_withStore _ rfl).trans (tables_addFileDownloaded s maybeT _)
  exact (tables_withStore _ rfl).trans (tables_foldl s h _)

@[simp] theorem tables_setSwarmerStateMissing (i : Nat) :
    (s.setSwarmerStateMissing i).tables = s.tables := by
  unfold setSwarmerStateMissing
  split
  · refine tables_networks (s.setBit i .stateMissing) fun t => ?_
    split
    · split <;> simp
    · rfl
  · refine tables_networks (s.setBit i .stateMissing) fun t => ?_
    split
    · split <;> simp
    · rfl
  · rfl
  · rfl

@[simp] theorem tables_setSwarmerStatePartial (i : Nat) :
    (s.setSwarmerStatePartial i).tables = s.tables := by
  unfold setSwarmerStatePartial
  split
  · refine tables_networks (s.setBit i .statePartial) fun t => ?_
    split <;> simp
  · rfl

@[simp] theorem tables_setSwarmerStateComplete (i : Nat) :
    (s.setSwarmerStateComplete i).tables = s.tables := by
  have hdone : ∀ s' : State, ∀ t : Frontend,
      (if s'.allBlocks t (t.chunkNum i) .stateComplete = true then
        { t.setChunk (t.chunkNum i) .stateComplete with
          ncompleteChunks := t.ncompleteChunks + 1 }
      else t).tables = t.tables := fun s' t => by split <;> simp
  unfold setSwarmerStateComplete
  split
  · refine tables_modifyFrontend (s.setBit i .stateComplete) 0 fun t => ?_
    split <;> first | exact hdone _ t | rfl
  · refine tables_modifyFrontend (s.setBit i .stateComplete) 0 fun t => ?_
    split <;> first | exact hdone _ t | rfl
  · rfl
  · refine tables_modifyFrontend (s.setBit i .stateComplete) 0 fun t => ?_
    split <;> simp

theorem tables_verifySecondary (i : Nat) (t : Frontend) :
    (s.verifySecondary i t).tables = t.tables := by
  unfold verifySecondary
  dsimp only
  split
  · split <;> split <;> simp
  · rfl

@[simp] theorem tables_verifySecondaries (i : Nat) :
    (s.verifySecondaries i).tables = s.tables := by
  have h : (s.networks.take 1 ++ (s.networks.drop 1).map (s.verifySecondary i)).map Frontend.tables
      = s.networks.map Frontend.tables := by
    conv_rhs => rw [← List.take_append_drop 1 s.networks, List.map_append]
    rw [List.map_append, List.map_map]
    congr 1
    exact List.map_congr_left fun t _ => s.tables_verifySecondary i t
  rw [tables, verifySecondaries, h]
  rfl

@[simp] theorem tables_setCompletedBlock (maybeT : Option Nat) (i : Nat) :
    (s.setCompletedBlock maybeT i).tables = s.tables := by
  unfold setCompletedBlock
  split <;> simp

@[simp] theorem tables_verifyAllChunks : s.verifyAllChunks.tables = s.tables := by
  refine tables_foldl s (fun s i => ?_) _
  split <;> simp [mustVerifyBlock]

@[simp] theorem tables_setFrontendStateComplete (k j : Nat) :
    (s.setFrontendStateComplete k j).tables = s.tables := by
  unfold setFrontendStateComplete
  split
  · exact tables_foldl s (fun s i => s.tables_setCompletedBlock none i) _
  · exact tables_foldl s (fun s i => s.tables_setCompletedBlock none i) _
  · rfl
  · rfl

@[simp] theorem tables_newBlock (i : Nat) : (s.newBlock i).tables = s.tables := by
  have h : (s.withStore (·.addBlock i)).tables = s.tables :=
    tables_withStore s (by simp [Store.layout, Store.addBlock, Store.setBlockAt, Store.allocBlock,
      Store.allocRange])
  unfold newBlock
  dsimp only
  split
  · rw [tables_setSwarmerStatePartial, h]
  · exact h

theorem layout_of_map {st st' : Store} (h : st.SameMap st') : st'.layout = st.layout := by
  rw [Store.layout, Store.layout, h.size, h.blockPos, h.blocks]

theorem tables_splitRange (r : RangeId) (cutPos : Int) :
    (s.withStore (·.splitRange r cutPos)).tables = s.tables :=
  tables_withStore s (layout_of_map (s.toStore.splitRange_map r cutPos))

theorem tables_releaseRange (r : RangeId) : (s.releaseRange r).tables = s.tables :=
  tables_withStore s (layout_of_map (s.toStore.releaseRange_map r))

theorem tables_clearUploaderRanges (up : Nat) : (s.clearUploaderRanges up).tables = s.tables := by
  unfold clearUploaderRanges
  rw [tables_modifyUploader]
  exact tables_foldl s (fun s key => s.tables_releaseRange _) _

theorem tables_removeCompletedUploaderRanges (up : Nat) :
    (s.removeCompletedUploaderRanges up).tables = s.tables := by
  unfold removeCompletedUploaderRanges
  exact tables_foldl (s.modifyUploader up _) (fun s key => s.tables_releaseRange _) _

theorem tables_decrNuploading (num : Nat) : (s.decrNuploading num).tables = s.tables := rfl

theorem tables_incrNuploading (num : Nat) : (s.incrNuploading num).tables = s.tables := rfl

theorem tables_clearUploaderBlocks (up : Nat) : (s.clearUploaderBlocks up).tables = s.tables := by
  unfold clearUploaderBlocks
  rw [tables_modifyUploader]
  exact tables_foldl s (fun s b => s.tables_decrNuploading _) _

theorem tables_chooseBlocks (up : Nat) (blocks : List UploaderBlock) :
    ((blocks.foldl (fun s b => s.incrNuploading (s.block b.block).num) s).modifyUploader
      up fun u => { u with blocks := blocks }).tables = s.tables := by
  rw [tables_modifyUploader]
  exact tables_foldl s (fun s b => s.tables_incrNuploading _) _

theorem tables_incrAvailability (i : Nat) : (s.incrAvailability i).tables = s.tables := by
  simp [tables, incrAvailability]

theorem tables_decrAvailability (i : Nat) : (s.decrAvailability i).tables = s.tables := by
  simp [tables, decrAvailability]

theorem tables_clearUploaderIntervals (up : Nat) :
    (s.clearUploaderIntervals up).tables = s.tables := by
  simp only [clearUploaderIntervals]
  split
  · rw [tables_modifyUploader, tables_clearUploaderBlocks, tables_modifyUploader]
    rw [tables_foldl _ (fun s b => s.tables_decrAvailability _)]
    exact tables_foldl s tables_decrAvailability _
  · rfl

theorem tables_recomputePriorities (l : List (Int × Int)) :
    (swarmerRecomputePrioritiesBitmap { s with prioritiesIntervals := l }).tables = s.tables := by
  simp [tables, swarmerRecomputePrioritiesBitmap]

theorem tables_takeCluster (up : Nat) (r : RangeId) (q : List RangeId) (rangeSize blockEnd : Int) :
    (s.takeCluster up r q rangeSize blockEnd).tables = s.tables := by
  refine (tables_withStore _ (layout_of_map (Store.addUploader_map _ r))).trans ?_
  refine (tables_splitRange _ r _).trans ?_
  exact tables_withStore s (layout_of_map (Store.mergeAll_map r q s.toStore))

end State

theorem outcome_after {Q : State → Prop} {m : Act Unit} {s : State}
    (h : Outcome m (fun _ => Q) (fun _ => Q) s) : Q (after m s) := by
  unfold Outcome at h
  unfold after
  cases hres : m s with
  | ok a s' => simpa [hres] using h
  | error e s' => simpa [hres] using h

-- A program that keeps an invariant, also when it raises.
def Preserves {α : Type} (I : State → Prop) (m : Act α) : Prop :=
  ∀ s : State, I s → Outcome m (fun _ => I) (fun _ => I) s

namespace Preserves

variable {α β : Type} {I : State → Prop}

theorem pure (a : α) : Preserves I (Pure.pure a : Act α) := fun _ h => h

theorem throw (e : Exn) : Preserves I (throw e : Act α) := fun _ h => h

theorem check (c : Prop) [Decidable c] (e : Exn) : Preserves I (check c e : Act Unit) := by
  intro s h
  rw [outcome_check]
  exact ⟨fun _ => h, fun _ => h⟩

theorem modify {f : State → State} (h : ∀ s, I s → I (f s)) :
    Preserves I (modify f : Act Unit) := fun s hs => h s hs

theorem bind {m : Act α} {f : α → Act β} (hm : Preserves I m) (hf : ∀ a, Preserves I (f a)) :
    Preserves I (m >>= f) := fun s hs => (hm s hs).bind fun a s' hs' => hf a s' hs'

theorem get_bind {f : State → Act α}
    (h : ∀ s, I s → Outcome (f s) (fun _ => I) (fun _ => I) s) :
    Preserves I (get >>= f) := fun s hs => h s hs

theorem forM {l : List β} {f : β → Act Unit} (h : ∀ x ∈ l, Preserves I (f x)) :
    Preserves I (forM l f) := fun _ hs => Outcome.forM hs fun x hx s' hs' => h x hx s' hs'

theorem after {m : Act Unit} (h : Preserves I m) {s : State} (hs : I s) : I (after m s) :=
  outcome_after (h s hs)

end Preserves

-- The frontend, if it is there, has the chunk.
def InTables (τ : TableValues) (k j : Nat) : Prop := ∀ t, τ.2.2[k]? = some t → j < t.2.1

-- The updates that the completion and the verification of blocks and chunks are made of keep
-- the invariant, which fixes the tables. A character and its counters change together.
structure Frame (τ : TableValues) (I : State → Prop) : Prop where
  tables : ∀ {s}, I s → s.tables = τ
  store : ∀ {s} {f : Store → Store}, (f s.toStore).layout = s.layout → I s → I (s.withStore f)
  files : ∀ {s} l, I s → I { s with files := l }
  setBit : ∀ {s} i c, I s → I (s.setBit i c)
  setSwarmerStateMissing : ∀ {s} i, I s → I (s.setSwarmerStateMissing i)
  setSwarmerStatePartial : ∀ {s} i, I s → I (s.setSwarmerStatePartial i)
  setSwarmerStateComplete : ∀ {s} i, I s → I (s.setSwarmerStateComplete i)
  verifySecondaries : ∀ {s} i, I s → I (s.verifySecondaries i)
  setVerifier : ∀ {s} k f, I s → I (s.modifyFrontend k fun t => { t with verifier := f })
  failed : ∀ {s k j c}, I s → (s.frontend k).chunk j = .stateComplete → ¬ c.Done →
    I ((s.modifyFrontend k fun t => { t with ncompleteChunks := t.ncompleteChunks - 1 }
      ).modifyFrontend k (·.setChunk j c))
  verified : ∀ {s k j}, I s → InTables τ k j → ¬ ((s.frontend k).chunk j).Done →
    I ((s.modifyFrontend k fun t =>
        { t with
          ncompleteChunks := t.ncompleteChunks + 1
          nverifiedChunks := t.nverifiedChunks + 1 }).modifyFrontend k
            (·.setChunk j .stateVerified))
  confirmed : ∀ {s k j}, I s → (s.frontend k).chunk j = .stateComplete →
    I ((s.modifyFrontend k fun t => { t with nverifiedChunks := t.nverifiedChunks + 1 }
      ).modifyFrontend k (·.setChunk j .stateVerified))

theorem inTables_of_lt {τ : TableValues} {s : State} {k j : Nat} (h : s.tables = τ)
    (hj : j < (s.frontend k).convertedVerifiedBitmap.length) : InTables τ k j := by
  subst h
  intro t ht
  have hmap : (s.networks.map Frontend.tables)[k]? = some t := ht
  rw [List.getElem?_map, Option.map_eq_some_iff] at hmap
  obtain ⟨x, hx, rfl⟩ := hmap
  have hk : s.frontend k = x := by simp [State.frontend, hx]
  exact hk ▸ hj

namespace Frame

open Preserves

variable {τ : TableValues} {I : State → Prop} {s : State}

theorem addFileDownloaded (h : Frame τ I) (maybeT : Option Nat) (n : Int) (hs : I s) :
    I (s.addFileDownloaded maybeT n) := by
  unfold State.addFileDownloaded
  split
  · exact h.files _ (h.files _ hs)
  · exact h.files _ hs

theorem setBlockAt (h : Frame τ I) (i : Nat) (b : BlockV) (hs : I s) :
    I (s.withStore (·.setBlockAt i b)) :=
  h.store (by simp [Store.layout, Store.setBlockAt]) hs

theorem foldl {α : Type} {f : State → α → State} (hf : ∀ s x, I s → I (f s x)) (l : List α)
    (hs : I s) : I (l.foldl f s) := by
  induction l generalizing s with
  | nil => exact hs
  | cons x l ih => exact ih (hf s x hs)

theorem setCompletedBlock (h : Frame τ I) (maybeT : Option Nat) (i : Nat) (hs : I s) :
    I (s.setCompletedBlock maybeT i) := by
  unfold State.setCompletedBlock
  split
  · exact hs
  · exact hs
  · exact h.setBlockAt i _ (h.setSwarmerStateComplete i (h.addFileDownloaded maybeT _ hs))
  · next b _ =>
    have hclose : I (s.closeBlockRanges maybeT b) :=
      h.store rfl (foldl (fun s r hs => h.store rfl (h.addFileDownloaded maybeT _ hs)) _ hs)
    exact h.setBlockAt i _ (h.setSwarmerStateComplete i hclose)

theorem newBlock (h : Frame τ I) (i : Nat) (hs : I s) : I (s.newBlock i) := by
  have hadd : I (s.withStore (·.addBlock i)) :=
    h.store (by simp [Store.layout, Store.addBlock, Store.setBlockAt, Store.allocBlock,
      Store.allocRange]) hs
  unfold State.newBlock
  dsimp only
  split
  · exact h.setSwarmerStatePartial i hadd
  · exact hadd

theorem setFrontendStateComplete (h : Frame τ I) (k j : Nat) (hs : I s) :
    I (s.setFrontendStateComplete k j) := by
  unfold State.setFrontendStateComplete
  split
  · exact foldl (fun s i hs => h.setCompletedBlock none i hs) _ hs
  · exact foldl (fun s i hs => h.setCompletedBlock none i hs) _ hs
  · exact hs
  · exact hs

theorem verifyAllChunks (h : Frame τ I) (hs : I s) : I s.verifyAllChunks := by
  refine foldl (fun s i hs => ?_) _ hs
  split
  · exact h.setSwarmerStateComplete i hs
  · exact h.setSwarmerStateComplete i (h.addFileDownloaded none _ hs)
  · exact hs
  · exact hs

theorem setSwarmerStateVerified (h : Frame τ I) (i : Nat) :
    Preserves I (setSwarmerStateVerified i) := by
  refine get_bind fun s hs => ?_
  split
  · exact pure () s hs
  · refine bind (modify fun s => h.setBit i _) (fun _ => get_bind fun s hs => ?_) s hs
    split
    · exact throw _ s hs
    · split
      · exact pure () s hs
      · exact pure () s hs
      · exact bind (check _ _) (fun _ => modify fun s => h.verifySecondaries i) s hs
      · exact bind (check _ _) (fun _ => modify fun s => h.verifySecondaries i) s hs

theorem setVerifiedBlock (h : Frame τ I) (i : Nat) : Preserves I (setVerifiedBlock i) := by
  refine get_bind fun s hs => ?_
  split
  · exact pure () s hs
  · refine bind (modify fun s => h.setCompletedBlock none i) (fun _ => ?_) s hs
    refine bind (modify fun s => h.setBlockAt i _) fun _ => ?_
    exact h.setSwarmerStateVerified i

theorem resetBlock (h : Frame τ I) (i : Nat) : Preserves I (resetBlock i) := by
  refine get_bind fun s hs => ?_
  split
  · exact modify (fun s => h.setSwarmerStateMissing i) s hs
  · exact modify (fun s => h.setSwarmerStatePartial i) s hs
  · refine bind (modify fun s => h.addFileDownloaded none _) (fun _ => ?_) s hs
    refine bind (modify fun s => h.setBlockAt i _) fun _ => ?_
    exact modify fun s => h.setSwarmerStateMissing i
  · exact throw _ s hs

theorem setFrontendStateMissing (h : Frame τ I) (k j : Nat) :
    Preserves I (setFrontendStateMissing k j) := by
  refine get_bind fun s hs => ?_
  rw [outcome_bind, outcome_check]
  refine ⟨fun hc => ?_, fun _ => hs⟩
  rw [outcome_bind, outcome_check]
  refine ⟨fun _ => ?_, fun _ => hs⟩
  rw [outcome_modify_bind]
  split
  · exact forM (fun i _ => h.resetBlock i) _ (h.failed hs hc (by decide))
  · exact h.failed hs hc (by decide)

theorem handOn (h : Frame τ I) (k j : Nat) :
    Preserves I (if k = 0 then do
      let s ← get
      ForM.forM ((s.frontend k).blockNums j) Swarming.setVerifiedBlock
    else Pure.pure () : Act Unit) := by
  split
  · exact get_bind fun s hs => forM (fun i _ => h.setVerifiedBlock i) s hs
  · exact pure ()

theorem setFrontendStateVerified (h : Frame τ I) {k j : Nat} (hj : InTables τ k j) :
    Preserves I (setFrontendStateVerified k j) := by
  refine get_bind fun s hs => ?_
  split
  · next hc => exact h.handOn k j _ (h.verified hs hj (by rw [hc]; decide))
  · next hc => exact h.handOn k j _ (h.verified hs hj (by rw [hc]; decide))
  · next hc => exact h.handOn k j _ (h.confirmed hs hc)
  · exact pure () s hs

theorem inTables_of_complete (h : Frame τ I) (hs : I s) {k j : Nat}
    (hc : (s.frontend k).chunk j = .stateComplete) : InTables τ k j := by
  refine inTables_of_lt (h.tables hs) ?_
  by_contra hge
  rw [Frontend.chunk_of_length_le (not_lt.mp hge)] at hc
  cases hc

theorem verifyChunk (h : Frame τ I) (fileVerify : FileVerify) (k j : Nat) :
    Preserves I (verifyChunk fileVerify k j) := by
  refine get_bind fun s hs => ?_
  dsimp only
  split
  · next hc =>
    have hj := h.inTables_of_complete hs hc
    split
    · exact pure () s hs
    · exact pure () s hs
    · exact h.setFrontendStateVerified hj s hs
    · split
      · refine get_bind (fun s hs => ?_) s hs
        dsimp only
        split
        · exact h.setFrontendStateVerified hj s hs
        · exact h.setFrontendStateMissing k j s hs
        · exact pure () s hs
        · exact throw _ s hs
      · refine bind (check _ _) (fun _ => get_bind fun s hs => ?_) s hs
        dsimp only
        split
        · split
          · refine forM (fun j hj => h.setFrontendStateVerified ?_) s hs
            exact inTables_of_lt (h.tables hs) (List.mem_range.mp hj)
          · refine forM (fun j _ => get_bind fun s hs => ?_) s hs
            split
            · exact h.setFrontendStateMissing k j s hs
            · exact pure () s hs
          · exact pure () s hs
          · exact throw _ s hs
        · exact pure () s hs
  · exact pure () s hs

theorem setChunksVerifiedBitmap (h : Frame τ I) (k : Nat) (bitmap : VerificationBitmap) :
    Preserves I (setChunksVerifiedBitmap k bitmap) := by
  refine forM fun j _ => ?_
  split
  · exact pure ()
  · exact pure ()
  · exact get_bind fun s hs => bind (check _ _)
      (fun _ => modify fun s => h.setFrontendStateComplete k j) s hs
  · refine get_bind fun s hs => ?_
    rw [outcome_bind, outcome_check]
    exact ⟨fun hj => h.setFrontendStateVerified (inTables_of_lt (h.tables hs) hj) s hs,
      fun _ => hs⟩

theorem verifyAllChunksImmediately (h : Frame τ I) (fileVerify : FileVerify) (k : Nat) :
    Preserves I (verifyAllChunksImmediately fileVerify k) :=
  bind (modify fun s => h.verifyAllChunks) fun _ =>
    get_bind fun s hs => forM (fun j _ => h.verifyChunk fileVerify k j) s hs

theorem setVerifierAct (h : Frame τ I) (k : Nat) (f : Verifier) :
    Preserves I (Swarming.setVerifier k f) :=
  bind (modify fun s => h.setVerifier k f) fun _ =>
    get_bind fun s hs => h.setChunksVerifiedBitmap k _ s hs

theorem verifyReceived (h : Frame τ I) (num : Nat) (hs : I s) : Outcome
    (match s.networks with
    | [] => throw (.assertFailure .noFrontend)
    | t :: _ =>
        match t.verifier with
        | .noVerification => Swarming.setVerifiedBlock num
        | _ => do
            modify (·.setCompletedBlock (some 0) num)
            modify (·.mustVerifyBlock num)) (fun _ => I) (fun _ => I) s := by
  split
  · exact throw _ s hs
  · split
    · exact h.setVerifiedBlock num s hs
    · exact h.setSwarmerStateComplete num (h.setCompletedBlock _ num hs)

theorem blockReceived (h : Frame τ I) (num : Nat) : Preserves I (blockReceived num) := by
  refine get_bind fun s hs => ?_
  split
  · exact h.verifyReceived num hs
  · exact h.verifyReceived num hs
  · exact pure () s hs
  · exact pure () s hs

theorem rangeReceived (h : Frame τ I) (maybeT : Option Nat) (r : RangeId)
    (intervalBegin intervalEnd : Int) :
    Preserves I (rangeReceived maybeT r intervalBegin intervalEnd) := by
  refine get_bind fun s hs => ?_
  dsimp only
  split
  · refine bind (modify fun s hs => h.store rfl (h.addFileDownloaded maybeT _ hs))
      (fun _ => ?_) s hs
    split
    · split
      · exact modify fun s => h.store rfl
      · exact h.blockReceived _
    · exact pure ()
  · exact pure () s hs

theorem setPresentBlock (h : Frame τ I) (b : BlockId) (intervalBegin intervalEnd : Int) :
    Preserves I (setPresentBlock b intervalBegin intervalEnd) := by
  refine bind (modify fun s => foldl (fun s r =>
    h.store (State.layout_of_map (s.toStore.splitRange_map r _))) _) fun _ => ?_
  exact get_bind fun s hs => forM (fun r _ => h.rangeReceived none r _ _) s hs

-- The operations keep the invariant if it is about the tables, the frontends and the characters
-- of the blocks alone.
theorem stable_of (h : Frame τ I) (hsame : ∀ {s s' : State}, I s → s'.tables = s.tables →
    s'.networks = s.networks → s'.verifiedBitmap = s.verifiedBitmap → I s')
    (hpos : τ.1.2.1.length = τ.1.2.2) (hne : 0 < τ.1.2.2) :
    Stable τ.1 (fun _ => True) I (fun _ _ => True) (fun _ _ _ _ _ _ => True) True
      (fun _ => True) where
  calm _ := trivial
  positions := hpos
  nonempty := hne
  layout hs := congrArg Prod.fst (h.tables hs)
  disk hs := hsame hs rfl rfl rfl
  write hs := hsame hs rfl rfl rfl
  sized _ := trivial
  wanted _ _ := trivial
  start _ hs _ _ := ⟨h.newBlock _ hs, trivial, fun _ _ => trivial⟩
  complete i hs := h.setCompletedBlock none i hs
  present {s i b ib ie} hs _ _ _ _ := (h.setPresentBlock b ib ie s hs).mono
    (fun _ _ h' => h') fun _ _ h' => ⟨h', trivial⟩
  receive {s u key t ie} hs _ _ _ _ := (h.rangeReceived (some t) key.2.2 _ ie s hs).mono
    (fun _ _ h' => h') fun _ _ h' => ⟨h', trivial⟩
  verify {s fileVerify k j} hs := (h.verifyChunk fileVerify k j s hs).mono
    (fun _ _ h' => ⟨h', fun _ _ _ _ _ _ => trivial⟩)
    fun _ _ h' => ⟨⟨h', trivial⟩, fun _ _ _ _ _ _ => trivial⟩
  prune {s} up hs :=
    have htags := State.removeCompletedUploaderRanges_tags s up
    hsame hs (s.tables_removeCompletedUploaderRanges up) htags.networks htags.verifiedBitmap
  pick {s r q e up rangeSize} hs _ :=
    have htags := State.takeCluster_tags s up r q rangeSize e
    hsame hs (s.tables_takeCluster up r q rangeSize e) htags.networks htags.verifiedBitmap
  permute hs _ _ _ := hsame hs rfl rfl rfl
  dropComplete hs _ := hsame hs rfl rfl rfl
  dropPartial hs _ := hsame hs rfl rfl rfl
  current _ _ _ := trivial
  aside _ := trivial
  unselect {s} up hs :=
    have htags := State.clearUploaderBlocks_tags s up
    hsame hs (s.tables_clearUploaderBlocks up) htags.networks htags.verifiedBitmap
  choose {s up blocks} hs _ :=
    have htags := State.chooseBlocks_tags s up blocks
    hsame hs (s.tables_chooseBlocks up blocks) htags.networks htags.verifiedBitmap
  count {s} i hs := hsame hs (s.tables_incrAvailability i) rfl rfl
  declare _ hs := hsame hs rfl rfl rfl
  register _ _ hs := hsame hs rfl rfl rfl
  clear {s} up hs :=
    have htags := State.clearUploaderIntervals_tags s up
    hsame hs (s.tables_clearUploaderIntervals up) htags.networks htags.verifiedBitmap
  release {s} up hs :=
    have htags := State.clearUploaderRanges_tags s up
    hsame hs (s.tables_clearUploaderRanges up) htags.networks htags.verifiedBitmap
  strategy hs := hsame hs rfl rfl rfl
  fileState hs := hsame hs rfl rfl rfl
  prioritize {s l} hs := hsame hs (s.tables_recomputePriorities l) rfl rfl

-- Every operation but merge keeps the invariant.
theorem next_of (h : Frame τ I) (hsame : ∀ {s s' : State}, I s → s'.tables = s.tables →
    s'.networks = s.networks → s'.verifiedBitmap = s.verifiedBitmap → I s')
    (hpos : τ.1.2.1.length = τ.1.2.2) (hne : 0 < τ.1.2.2) {op : Op} (hs : I s) (hop : op.Valid s)
    (hmerge : ∀ f2, op ≠ .merge f2) : I (op.next s) := by
  cases hop' : op with
  | verifyAllChunks => exact h.verifyAllChunks hs
  | verifyAllChunksImmediately fileVerify k =>
    exact (h.verifyAllChunksImmediately fileVerify k).after hs
  | setChunksVerifiedBitmap k bitmap => exact (h.setChunksVerifiedBitmap k bitmap).after hs
  | setVerifier k f => exact (h.setVerifierAct k f).after hs
  | merge f2 => exact absurd hop' (hmerge f2)
  | _ =>
    have hrun := (h.stable_of hsame hpos hne).run hs hop (by subst hop'; simp [Op.Fits])
    subst hop'
    exact outcome_after (hrun.mono (fun _ _ h => h) fun _ _ h => h.1)

-- An invariant that is not about the characters of the blocks.
theorem next (h : Frame τ I) (hsame : ∀ {s s' : State}, I s →
    s'.tables = s.tables → s'.networks = s.networks → I s') (hpos : τ.1.2.1.length = τ.1.2.2)
    (hne : 0 < τ.1.2.2) {op : Op} (hs : I s) (hop : op.Valid s)
    (hmerge : ∀ f2, op ≠ .merge f2) : I (op.next s) :=
  h.next_of (fun hs ht hn _ => hsame hs ht hn) hpos hne hs hop hmerge

end Frame

theorem frame_tables (τ : TableValues) : Frame τ fun s => s.tables = τ where
  tables h := h
  store hf h := (State.tables_withStore _ hf).trans h
  files _ h := h
  setBit i c h := (State.tables_setBit _ i c).trans h
  setSwarmerStateMissing i h := (State.tables_setSwarmerStateMissing _ i).trans h
  setSwarmerStatePartial i h := (State.tables_setSwarmerStatePartial _ i).trans h
  setSwarmerStateComplete i h := (State.tables_setSwarmerStateComplete _ i).trans h
  verifySecondaries i h := (State.tables_verifySecondaries _ i).trans h
  setVerifier k f h := (State.tables_modifyFrontend _ k fun t => t.tables_verifier f).trans h
  failed h _ _ := (State.tables_modifyFrontend _ _ fun t => t.tables_setChunk _ _).trans
    ((State.tables_modifyFrontend _ _ fun t => t.tables_ncomplete _).trans h)
  verified h _ _ := (State.tables_modifyFrontend _ _ fun t => t.tables_setChunk _ _).trans
    ((State.tables_modifyFrontend _ _ fun t => t.tables_counters _ _).trans h)
  confirmed h _ := (State.tables_modifyFrontend _ _ fun t => t.tables_setChunk _ _).trans
    ((State.tables_modifyFrontend _ _ fun t => t.tables_nverified _).trans h)

-- What depends neither on the files nor on the frontends, and keeps its value when a character
-- of a block is set, can be framed beside the tables.
theorem frame_value {α : Type} {v : State → α} (τ : TableValues) (d : α)
    (hstore : ∀ s f, v (State.withStore s f) = v s) (hfiles : ∀ s l, v { s with files := l } = v s)
    (hnetworks : ∀ s l, v { s with networks := l } = v s)
    (hbit : ∀ s i c, v (State.setBit s i c) = v s) :
    Frame τ fun s => s.tables = τ ∧ v s = d where
  tables h := h.1
  store hf h := ⟨(frame_tables τ).store hf h.1, (hstore _ _).trans h.2⟩
  files l h := ⟨(frame_tables τ).files l h.1, (hfiles _ l).trans h.2⟩
  setBit i c h := ⟨(frame_tables τ).setBit i c h.1, (hbit _ i c).trans h.2⟩
  setSwarmerStateMissing {s} i h := by
    refine ⟨(frame_tables τ).setSwarmerStateMissing i h.1, Eq.trans ?_ h.2⟩
    unfold State.setSwarmerStateMissing
    split
    all_goals first | exact (hnetworks _ _).trans (hbit s i _) | rfl
  setSwarmerStatePartial {s} i h := by
    refine ⟨(frame_tables τ).setSwarmerStatePartial i h.1, Eq.trans ?_ h.2⟩
    unfold State.setSwarmerStatePartial
    split
    all_goals first | exact (hnetworks _ _).trans (hbit s i _) | rfl
  setSwarmerStateComplete {s} i h := by
    refine ⟨(frame_tables τ).setSwarmerStateComplete i h.1, Eq.trans ?_ h.2⟩
    unfold State.setSwarmerStateComplete
    split
    all_goals first | exact (hnetworks _ _).trans (hbit s i _) | exact hbit s i _ | rfl
  verifySecondaries i h := ⟨(frame_tables τ).verifySecondaries i h.1, (hnetworks _ _).trans h.2⟩
  setVerifier k f h := ⟨(frame_tables τ).setVerifier k f h.1, (hnetworks _ _).trans h.2⟩
  failed h hc hd := ⟨(frame_tables τ).failed h.1 hc hd,
    (hnetworks _ _).trans ((hnetworks _ _).trans h.2)⟩
  verified h hj hd := ⟨(frame_tables τ).verified h.1 hj hd,
    (hnetworks _ _).trans ((hnetworks _ _).trans h.2)⟩
  confirmed h hc := ⟨(frame_tables τ).confirmed h.1 hc,
    (hnetworks _ _).trans ((hnetworks _ _).trans h.2)⟩

end Mldonkey.Swarming
