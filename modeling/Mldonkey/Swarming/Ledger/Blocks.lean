import Mldonkey.Swarming.Ranges.Whole
import Mldonkey.Swarming.Tags.Blocks
import Mldonkey.Swarming.Ranges.Effect

namespace Mldonkey.Swarming

open Effects HalfOpen

namespace State

open Store

-- What no step on blocks touches.
structure Rest (s s' : State) : Prop where
  files_length : s'.files.length = s.files.length
  networks_length : s'.networks.length = s.networks.length
  verifier : ∀ k, (s'.frontend k).verifier = (s.frontend k).verifier
  uploaders : s'.uploaders = s.uploaders
  nuploading : s'.nuploading = s.nuploading
  prioritiesBitmap : s'.prioritiesBitmap = s.prioritiesBitmap
  written : s'.written = s.written

-- All but the characters and the chunks is the same.
structure SameBooks (s s' : State) : Prop extends Rest s s' where
  store : s'.toStore = s.toStore
  files : s'.files = s.files

-- The blocks evolved; files may have more or less bytes downloaded.
structure Moves (s s' : State) : Prop extends Rest s s' where
  evolves : Evolves s.toStore s'.toStore

-- The bytes in `w`, which were missing, are now present and were added to the
-- primary's file.
structure Fills (w : Finset Int) (s s' : State) : Prop where
  missing : ∀ x, s'.Missing x ↔ s.Missing x ∧ x ∉ w
  before : ∀ x ∈ w, s.Missing x
  downloaded : (s'.file 0).downloaded = (s.file 0).downloaded + w.card

theorem Rest.refl (s : State) : Rest s s := ⟨rfl, rfl, fun _ => rfl, rfl, rfl, rfl, rfl⟩

theorem Rest.trans {s s' s'' : State} (h : Rest s s') (h' : Rest s' s'') : Rest s s'' :=
  ⟨h'.files_length.trans h.files_length, h'.networks_length.trans h.networks_length,
    fun k => (h'.verifier k).trans (h.verifier k), h'.uploaders.trans h.uploaders,
    h'.nuploading.trans h.nuploading, h'.prioritiesBitmap.trans h.prioritiesBitmap,
    h'.written.trans h.written⟩

theorem SameBooks.moves {s s' : State} (h : SameBooks s s') : Moves s s' :=
  ⟨h.toRest, h.store ▸ .refl _⟩

theorem Moves.refl (s : State) : Moves s s := ⟨.refl s, .refl _⟩

theorem Moves.trans {s s' s'' : State} (h : Moves s s') (h' : Moves s' s'') : Moves s s'' :=
  ⟨h.toRest.trans h'.toRest, h.evolves.trans h'.evolves⟩

theorem SameBooks.refl (s : State) : SameBooks s s := ⟨.refl s, rfl, rfl⟩

theorem SameBooks.trans {s s' s'' : State} (h : SameBooks s s') (h' : SameBooks s' s'') :
    SameBooks s s'' :=
  ⟨h.toRest.trans h'.toRest, h'.store.trans h.store, h'.files.trans h.files⟩

theorem SameBooks.file {s s' : State} (h : SameBooks s s') (k : Nat) : s'.file k = s.file k := by
  simp only [State.file, h.files]

theorem SameBooks.fills {s s' : State} (h : SameBooks s s') : Fills ∅ s s' := by
  refine ⟨fun x => ?_, by simp, by simp [h.file]⟩
  rw [h.store]
  simp

theorem Fills.refl (s : State) : Fills ∅ s s := (SameBooks.refl s).fills

theorem Fills.trans {w w' : Finset Int} {s s' s'' : State} (h : Fills w s s')
    (h' : Fills w' s' s'') : Fills (w ∪ w') s s'' := by
  refine ⟨fun x => ?_, fun x hx => ?_, ?_⟩
  · rw [h'.missing, h.missing, Finset.mem_union]
    tauto
  · rcases Finset.mem_union.mp hx with hx | hx
    · exact h.before x hx
    · exact ((h.missing x).mp (h'.before x hx)).1
  · have hdisj : Disjoint w w' := by
      rw [Finset.disjoint_left]
      intro x hx hx'
      exact ((h.missing x).mp (h'.before x hx')).2 hx
    rw [h'.downloaded, h.downloaded, Finset.card_union_of_disjoint hdisj]
    push_cast
    omega

theorem Fills.trans_same {w : Finset Int} {s s' s'' : State} (h : Fills w s s')
    (h' : SameBooks s' s'') : Fills w s s'' := by
  have := h.trans h'.fills
  rwa [Finset.union_empty] at this

open Classical in
-- The bytes of the swarmer that are not in a missing range.
noncomputable def present (s : State) : Finset Int :=
  (Finset.Ico 0 s.size).filter fun x => ¬ s.Missing x

def Counted (s : State) : Prop := (s.file 0).downloaded = s.present.card

theorem mem_present {s : State} {x : Int} :
    x ∈ s.present ↔ (0 ≤ x ∧ x < s.size) ∧ ¬ s.Missing x := by
  simp [present]

theorem Fills.counted_iff {w : Finset Int} {s s' : State} (h : Fills w s s') (hp : s.Placed)
    (hs : s'.size = s.size) : s'.Counted ↔ s.Counted := by
  have hset : s'.present = s.present ∪ w := by
    ext x
    rw [Finset.mem_union, mem_present, mem_present, hs, h.missing]
    have := h.before x
    have := fun hm : s.Missing x => hp.missing_bounds hm
    tauto
  have hdisj : Disjoint s.present w := by
    rw [Finset.disjoint_left]
    intro x hx hx'
    exact (mem_present.mp hx).2 (h.before x hx')
  unfold Counted
  rw [hset, Finset.card_union_of_disjoint hdisj, h.downloaded]
  push_cast
  omega

section AddFileDownloaded

variable (s : State) (maybeT : Option Nat) (n : Int)

@[simp] theorem toStore_addFileDownloaded : (s.addFileDownloaded maybeT n).toStore = s.toStore := by
  unfold addFileDownloaded
  split <;> rfl

@[simp] theorem toStore_withStore (f : Store → Store) : (s.withStore f).toStore = f s.toStore := rfl

theorem file_modifyFile (k k' : Nat) (f : File → File) : (s.modifyFile k f).file k' =
    if k' = k ∧ k < s.files.length then f (s.file k) else s.file k' := by
  simp only [file, modifyFile, List.getD_eq_getElem?_getD, List.getElem?_modify]
  by_cases h : k = k'
  · subst h
    by_cases hk : k < s.files.length <;> simp [hk]
  · have h' : k' ≠ k := Ne.symm h
    cases hx : s.files[k']? <;> simp [h, h']

theorem downloaded_addFileDownloaded (h : 0 < s.files.length) :
    ((s.addFileDownloaded maybeT n).file 0).downloaded = (s.file 0).downloaded + n := by
  unfold addFileDownloaded
  dsimp only
  split
  · rw [file_modifyFile, if_neg (by simp), file_modifyFile, if_pos ⟨rfl, h⟩]
  · rw [file_modifyFile, if_pos ⟨rfl, h⟩]

end AddFileDownloaded

theorem rest_withStore (s : State) (f : Store → Store) : Rest s (s.withStore f) :=
  ⟨rfl, rfl, fun _ => rfl, rfl, rfl, rfl, rfl⟩

theorem rest_addFileDownloaded (s : State) (maybeT : Option Nat) (n : Int) :
    Rest s (s.addFileDownloaded maybeT n) := by
  unfold addFileDownloaded
  dsimp only
  split
  · exact ⟨by simp [modifyFile], rfl, fun _ => rfl, rfl, rfl, rfl, rfl⟩
  · exact ⟨by simp [modifyFile], rfl, fun _ => rfl, rfl, rfl, rfl, rfl⟩

end State

namespace State

open Store

variable {c d : Prop} {s s' : State} {b : BlockId} {r : RangeId} {i : Nat}

section Tags

theorem verifier_map {g : Frontend → Frontend} (hg : ∀ t, (g t).verifier = t.verifier)
    (l : List Frontend) (k : Nat) :
    ((l.map g).getD k default).verifier = (l.getD k default).verifier := by
  rw [getD_map_networks]
  split
  · exact hg _
  · rfl

theorem verifier_modifyFrontend {f : Frontend → Frontend} (hf : ∀ t, (f t).verifier = t.verifier)
    (s : State) (k k' : Nat) :
    ((s.modifyFrontend k f).frontend k').verifier = (s.frontend k').verifier := by
  rw [frontend_modifyFrontend]
  split
  · next h => rw [h.1]; exact hf _
  · rfl

theorem sameBooks_setBit (s : State) (i : Nat) (c : PartState) : SameBooks s (s.setBit i c) :=
  ⟨⟨rfl, rfl, fun _ => rfl, rfl, rfl, rfl, rfl⟩, rfl, rfl⟩

theorem sameBooks_modifyFrontend {f : Frontend → Frontend}
    (hf : ∀ t, (f t).verifier = t.verifier) (s : State) (k : Nat) :
    SameBooks s (s.modifyFrontend k f) :=
  ⟨⟨rfl, List.length_modify _ _ _, verifier_modifyFrontend hf s k, rfl, rfl, rfl, rfl⟩, rfl, rfl⟩

theorem sameBooks_map {g : Frontend → Frontend} (hg : ∀ t, (g t).verifier = t.verifier)
    (s : State) : SameBooks s { s with networks := s.networks.map g } :=
  ⟨⟨rfl, List.length_map _, verifier_map hg s.networks, rfl, rfl, rfl, rfl⟩, rfl, rfl⟩

theorem verifier_missing (s : State) (i : Nat) (t : Frontend) :
    (match t.chunk (t.chunkNum i) with
    | .statePartial => if s.allBlocks t (t.chunkNum i) .stateMissing then
        t.setChunk (t.chunkNum i) .stateMissing else t
    | _ => t).verifier = t.verifier := by
  split
  · split <;> rfl
  · rfl

theorem setSwarmerStateMissing_books (s : State) (i : Nat) :
    SameBooks s (s.setSwarmerStateMissing i) := by
  unfold setSwarmerStateMissing
  split
  · exact (s.sameBooks_setBit i _).trans (sameBooks_map (verifier_missing _ i) _)
  · exact (s.sameBooks_setBit i _).trans (sameBooks_map (verifier_missing _ i) _)
  · exact .refl s
  · exact .refl s

theorem setSwarmerStatePartial_books (s : State) (i : Nat) :
    SameBooks s (s.setSwarmerStatePartial i) := by
  unfold setSwarmerStatePartial
  split
  · refine (s.sameBooks_setBit i _).trans (sameBooks_map (fun t => ?_) _)
    split <;> rfl
  · exact .refl s

theorem verifier_complete (s : State) (i : Nat) (t : Frontend) :
    (match t.chunk (t.chunkNum i) with
    | .stateMissing | .statePartial =>
        if s.allBlocks t (t.chunkNum i) .stateComplete then
          { t.setChunk (t.chunkNum i) .stateComplete with
            ncompleteChunks := t.ncompleteChunks + 1 }
        else t
    | .stateComplete | .stateVerified => t).verifier = t.verifier := by
  split
  · split <;> rfl
  · split <;> rfl
  · rfl
  · rfl

theorem setSwarmerStateComplete_books (s : State) (i : Nat) :
    SameBooks s (s.setSwarmerStateComplete i) := by
  unfold setSwarmerStateComplete
  split
  · exact (s.sameBooks_setBit i _).trans (sameBooks_modifyFrontend (verifier_complete _ i) _ _)
  · exact (s.sameBooks_setBit i _).trans (sameBooks_modifyFrontend (verifier_complete _ i) _ _)
  · exact .refl s
  · refine (s.sameBooks_setBit i _).trans (sameBooks_modifyFrontend (fun t => ?_) _ _)
    split <;> rfl

end Tags

section Close

theorem foldl_closeRange_toStore (maybeT : Option Nat) (b : BlockId) (l : List RangeId)
    (s : State) : (l.foldl (closeRange maybeT b) s).toStore =
      l.foldl (fun st r => st.closeRange b r) s.toStore := by
  induction l generalizing s with
  | nil => rfl
  | cons r l ih =>
      rw [List.foldl_cons, ih, List.foldl_cons]
      simp only [closeRange, toStore_withStore, toStore_addFileDownloaded]

theorem toStore_closeBlockRanges (s : State) (maybeT : Option Nat) (b : BlockId) :
    (s.closeBlockRanges maybeT b).toStore = s.toStore.closeRanges b := by
  simp only [closeBlockRanges, toStore_withStore, foldl_closeRange_toStore]
  rfl

theorem rest_closeRange (maybeT : Option Nat) (b : BlockId) (s : State) (r : RangeId) :
    Rest s (s.closeRange maybeT b r) :=
  (rest_addFileDownloaded s maybeT _).trans (rest_withStore _ _)

theorem rest_foldl {β : Type} {f : State → β → State} (hf : ∀ s x, Rest s (f s x)) (l : List β)
    (s : State) : Rest s (l.foldl f s) := by
  induction l generalizing s with
  | nil => exact .refl s
  | cons x l ih => exact (hf s x).trans (ih (f s x))

theorem rest_closeBlockRanges (s : State) (maybeT : Option Nat) (b : BlockId) :
    Rest s (s.closeBlockRanges maybeT b) :=
  (rest_foldl (rest_closeRange maybeT b) _ s).trans (rest_withStore _ _)

theorem downloaded_foldl_closeRange (maybeT : Option Nat) (b : BlockId) :
    ∀ (l : List RangeId) (s : State), 0 < s.files.length → l.Nodup →
      ((l.foldl (closeRange maybeT b) s).file 0).downloaded =
        (s.file 0).downloaded + total (s.spans l)
  | [], s, _, _ => by simp
  | r :: l, s, hf, hn => by
      obtain ⟨hr, hn⟩ := List.nodup_cons.mp hn
      have hspans : (s.closeRange maybeT b r).spans l = s.spans l := by
        refine spans_congr fun r' hr' => ?_
        have hne : r' ≠ r := fun e => hr (e ▸ hr')
        show ((s.addFileDownloaded maybeT _).toStore.closeRange b r).range r' = _
        rw [toStore_addFileDownloaded]
        simp only [Store.closeRange, range_modifyRange, range_modifyBlock, if_neg hne]
      rw [List.foldl_cons, downloaded_foldl_closeRange maybeT b l _
        (by rw [(s.rest_closeRange maybeT b r).files_length]; exact hf) hn, hspans]
      have hd : ((s.closeRange maybeT b r).file 0).downloaded =
          (s.file 0).downloaded + s.computeRangeSize r :=
        s.downloaded_addFileDownloaded maybeT _ hf
      rw [hd, spans_cons, total_cons]
      simp only [computeRangeSize, Range.span]
      omega

theorem downloaded_closeBlockRanges (s : State) (maybeT : Option Nat) (b : BlockId)
    (hf : 0 < s.files.length) (hn : (s.ranges b).Nodup) :
    ((s.closeBlockRanges maybeT b).file 0).downloaded =
      (s.file 0).downloaded + total (s.spans (s.ranges b)) :=
  downloaded_foldl_closeRange maybeT b (s.ranges b) s hf hn

end Close

theorem toStore_setCompletedBlock (s : State) (maybeT : Option Nat) (i : Nat) :
    (s.setCompletedBlock maybeT i).toStore = s.toStore.completeAt i := by
  unfold setCompletedBlock Store.completeAt
  cases hb : s.blockAt i with
  | completeBlock => rfl
  | verifiedBlock => rfl
  | emptyBlock =>
      dsimp only
      rw [toStore_withStore, (setSwarmerStateComplete_books _ i).store, toStore_addFileDownloaded]
  | partialBlock b =>
      dsimp only
      rw [toStore_withStore, (setSwarmerStateComplete_books _ i).store, toStore_closeBlockRanges]

theorem rest_setCompletedBlock (s : State) (maybeT : Option Nat) (i : Nat) :
    Rest s (s.setCompletedBlock maybeT i) := by
  unfold setCompletedBlock
  split
  · exact .refl s
  · exact .refl s
  · exact ((rest_addFileDownloaded s maybeT _).trans
      (setSwarmerStateComplete_books _ i).toRest).trans (rest_withStore _ _)
  · exact ((s.rest_closeBlockRanges maybeT _).trans
      (setSwarmerStateComplete_books _ i).toRest).trans (rest_withStore _ _)

open Classical in
-- The bytes that are missing in block `i`.
noncomputable def missingAt (s : Store) (i : Nat) : Finset Int :=
  (Finset.Ico (s.computeBlockBegin i) (s.computeBlockEnd i)).filter (s.MissingIn (s.blockAt i))

theorem mem_missingAt {s : Store} {y : Int} : y ∈ missingAt s i ↔
    (s.computeBlockBegin i ≤ y ∧ y < s.computeBlockEnd i) ∧ s.MissingIn (s.blockAt i) y := by
  simp [missingAt]

theorem card_missingAt_empty {s : Store} (h : s.Placed) (hi : i < s.blocks.length)
    (hb : s.blockAt i = .emptyBlock) :
    ((missingAt s i).card : Int) = s.computeBlockEnd i - s.computeBlockBegin i := by
  have hset : missingAt s i = Finset.Ico (s.computeBlockBegin i) (s.computeBlockEnd i) := by
    ext y
    simp [mem_missingAt, hb, MissingIn]
  have := h.le hi
  rw [hset, Int.card_Ico]
  omega

open Classical in
theorem card_missingAt_partial {s : Store} (hs : s.Sound b (s.computeBlockBegin i)
    (s.computeBlockEnd i)) (hb : s.blockAt i = .partialBlock b) :
    ((missingAt s i).card : Int) = total (s.spans (s.ranges b)) := by
  rw [← hs.chain.card_covers]
  congr 2
  ext y
  simp [mem_missingAt, hb, MissingIn]

theorem downloaded_setCompletedBlock (h : Books c d s.toStore) (hi : i < s.blocks.length)
    (hf : 0 < s.files.length) (maybeT : Option Nat) :
    ((s.setCompletedBlock maybeT i).file 0).downloaded =
      (s.file 0).downloaded + (missingAt s.toStore i).card := by
  have hfile : ∀ (s : State) v, ((s.setSwarmerStateComplete i).withStore (·.setBlockAt i v)).file 0
      = s.file 0 := fun s v => (s.setSwarmerStateComplete_books i).file 0
  unfold setCompletedBlock
  cases hb : s.blockAt i with
  | completeBlock => simp [missingAt, hb, MissingIn]
  | verifiedBlock => simp [missingAt, hb, MissingIn]
  | emptyBlock =>
      dsimp only
      rw [hfile, downloaded_addFileDownloaded _ _ _ hf, card_missingAt_empty h.placed hi hb]
  | partialBlock b =>
      have ht := (h.tidy i hi b hb).toSound
      dsimp only
      rw [hfile, downloaded_closeBlockRanges s maybeT b hf ht.nodup, card_missingAt_partial ht hb]

theorem setCompletedBlock_fills (h : Books c d s.toStore) (hi : i < s.blocks.length)
    (hf : 0 < s.files.length) (maybeT : Option Nat) :
    Fills (missingAt s.toStore i) s (s.setCompletedBlock maybeT i) := by
  refine ⟨fun y => ?_, fun y hy => ?_, downloaded_setCompletedBlock h hi hf maybeT⟩
  · rw [toStore_setCompletedBlock, h.missing_completeAt hi, mem_missingAt]
    refine and_congr_right fun hm => not_congr ⟨fun hy => ⟨hy, ?_⟩, fun hy => hy.1⟩
    exact (h.placed.missing_iff hi hy).mp hm
  · rw [mem_missingAt] at hy
    exact (h.placed.missing_iff hi hy.1).mpr hy.2

theorem setCompletedBlock_books (h : Books c d s.toStore) (hi : i < s.blocks.length)
    (maybeT : Option Nat) : Books c d (s.setCompletedBlock maybeT i).toStore := by
  rw [toStore_setCompletedBlock]
  exact h.completeAt hi

theorem setCompletedBlock_moves (h : Books c d s.toStore) (hi : i < s.blocks.length)
    (maybeT : Option Nat) : Moves s (s.setCompletedBlock maybeT i) := by
  refine ⟨s.rest_setCompletedBlock maybeT i, ?_⟩
  rw [toStore_setCompletedBlock]
  exact .completeAt h hi

end State

end Mldonkey.Swarming
