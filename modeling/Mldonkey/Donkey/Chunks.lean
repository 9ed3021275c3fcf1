import Mldonkey.Swarming.Mapped

-- The chunk bitmaps of eDonkey clients, and what add_client_chunks makes of them.
namespace Mldonkey.Donkey.Chunks

open Effects Swarming

def blockSize : Int := 9728000

-- The number of chunks of a file for the protocol: one more than the full ones.
def getNchunks (size : Int) : Nat := (size.tdiv blockSize).toNat + 1

-- An entry of client_file_queue
structure QueueEntry where
  file : Nat
  chunks : List Bool
  up : Nat

-- The `iter` of add_client_chunks
def addIter (swarmer file : Nat) (clientChunks : List Bool) :
    List QueueEntry → Act (List QueueEntry)
  | e :: tail => do
      if e.file ≠ file then do
        let tail ← addIter swarmer file clientChunks tail
        return e :: tail
      else do
        updateUploaderIntervals e.up (.availableBitv clientChunks)
        -- Bitv.blit
        check (e.chunks.length ≤ clientChunks.length) .invalidArgument
        return { e with chunks := clientChunks.take e.chunks.length } :: tail
  | [] => do
      let s ← get
      registerUploader swarmer (.availableBitv clientChunks)
      return [⟨file, clientChunks, s.uploaders.length⟩]

def addClientChunks (fileSwarmer : Option Nat) (file : Nat) (clientChunks : List Bool)
    (clientFileQueue : List QueueEntry) : Act (List QueueEntry) :=
  match fileSwarmer with
  | none => throw (.failure "add_client_chunks: no swarmer")
  | some swarmer => addIter swarmer file clientChunks clientFileQueue

-- The entries of a file hold the uploaders that were registered for it, and bitmaps of
-- its number of chunks.
def QueueFits (s : State) (swarmer file : Nat) (queue : List QueueEntry) : Prop :=
  ∀ e ∈ queue, e.file = file → e.up < s.uploaders.length ∧ (s.uploader e.up).t = swarmer ∧
    e.chunks.length = getNchunks s.size

-- The chunk in which a block of the swarmer lies
def chunkOf (s : Store) (i : Nat) : Nat := ((s.computeBlockBegin i).tdiv blockSize).toNat

-- Uploader `up` is declared with the blocks of the chunks of `bitmap`, and no others; their
-- counters and the times of their chunks have a place in the arrays.
structure Declares (s : State) (swarmer up : Nat) (bitmap : List Bool) : Prop where
  uploader : up < s.uploaders.length ∧ (s.uploader up).t = swarmer
  declared : (s.uploader up).declared = true
  complete : ∀ i, i ∈ (s.uploader up).completeBlocks ↔
    i < s.blocks.length ∧ bitmap.getD (chunkOf s.toStore i) false = true
  nodup : (s.uploader up).completeBlocks.Nodup
  ncomplete : (s.uploader up).ncomplete = (s.uploader up).completeBlocks.length
  partialBlocks : (s.uploader up).partialBlocks = [] ∧ Uploader.npartial (s.uploader up) = 0
  counted : ∀ i ∈ (s.uploader up).completeBlocks, i < s.availability.length ∧
    (s.frontend swarmer).chunkNum i < (s.frontend swarmer).convertedVerifiedBitmap.length

-- Only counters of blocks differ.
def Counted (s s' : State) : Prop :=
  ∃ l, l.length = s.availability.length ∧ s' = { s with availability := l }

theorem Counted.refl (s : State) : Counted s s := ⟨s.availability, rfl, rfl⟩

theorem Counted.incr {s s' : State} (h : Counted s s') (i : Nat) :
    Counted s (s'.incrAvailability i) := by
  obtain ⟨l, hl, rfl⟩ := h
  exact ⟨l.modify i (· + 1), by rw [List.length_modify, hl], rfl⟩

theorem forM_raises {β : Type} {l : List β} {f : β → Act Unit} {I : State → Prop}
    {E : Exn → State → Prop} {x : β} {s : State} (hx : x ∈ l) (hs : I s)
    (hraises : ∀ s', I s' → Outcome (f x) (fun _ _ => False) E s')
    (hf : ∀ y ∈ l, ∀ s', I s' → Outcome (f y) (fun _ => I) E s') :
    Outcome (forM l f) (fun _ _ => False) E s := by
  induction l generalizing s with
  | nil => cases hx
  | cons y l ih =>
    rw [List.forM_cons]
    rcases List.mem_cons.mp hx with rfl | hx
    · exact (hraises s hs).bind fun _ _ h => h.elim
    · exact (hf y (by simp) s hs).bind fun _ s' hs' =>
        ih hx hs' fun y hy => hf y (by simp [hy])

variable {s : State} {t : Nat} {bitmap : List Bool}

-- A bitmap whose chunks are all in the table is counted;
theorem countIntervals_fits
    (h : ∀ j ∈ State.bitvTrue bitmap, j < (s.frontend t).blocksOfChunk.length) :
    Outcome (countIntervals t (.availableBitv bitmap)) (fun _ => Counted s) (fun _ _ => False)
      s := by
  refine Outcome.forM (Counted.refl s) fun j hj s' hs' => ?_
  rw [outcome_get_bind, outcome_bind, outcome_check]
  have hlen : j < (s'.frontend t).blocksOfChunk.length := by
    obtain ⟨l, _, rfl⟩ := hs'
    exact h j hj
  refine ⟨fun _ => ?_, fun hn => absurd hlen hn⟩
  exact Outcome.forM hs' fun i _ s'' hs'' => hs''.incr i

-- one with a chunk past its end raises.
theorem countIntervals_past {j : Nat} (hj : j ∈ State.bitvTrue bitmap)
    (h : (s.frontend t).blocksOfChunk.length ≤ j) :
    Outcome (countIntervals t (.availableBitv bitmap)) (fun _ _ => False)
      (fun e _ => e = Exn.invalidArgument) s := by
  refine forM_raises hj (Counted.refl s) (fun s' hs' => ?_) fun y _ s' hs' => ?_
  · rw [outcome_get_bind, outcome_bind, outcome_check]
    obtain ⟨l, _, rfl⟩ := hs'
    exact ⟨fun hlt => absurd hlt (Nat.not_lt.mpr h), fun _ => rfl⟩
  · rw [outcome_get_bind, outcome_bind, outcome_check]
    refine ⟨fun _ => ?_, fun _ => rfl⟩
    exact Outcome.forM hs' fun i _ s'' hs'' => hs''.incr i

theorem mem_bitvTrue {j : Nat} : j ∈ State.bitvTrue bitmap ↔ bitmap.getD j false = true := by
  rw [State.bitvTrue, List.mem_filter, List.mem_range]
  refine ⟨fun h => h.2, fun h => ⟨?_, h⟩⟩
  by_contra hlen
  rw [List.getD_eq_default _ _ (Nat.le_of_not_lt hlen)] at h
  cases h

section Tables

variable {k up : Nat} (hm : Mapped s) (hk : k < s.networks.length)
  (hsize : (s.frontend k).chunkSize = blockSize)

include hk

theorem frontend_mem : s.frontend k ∈ s.networks := by
  rw [State.frontend, List.getD_eq_getElem _ _ hk]
  exact List.getElem_mem hk

include hm

theorem blocksOfChunk_eq : (s.frontend k).blocksOfChunk =
    ((s.frontend k).mapBlocks s.toStore).blocksOfChunk := by
  have := hm.maps _ (frontend_mem hk)
  simp only [Frontend.tables, Prod.mk.injEq] at this
  exact this.2.2.1.symm

theorem length_blocksOfChunk : (s.frontend k).blocksOfChunk.length =
    (s.frontend k).convertedVerifiedBitmap.length := by
  rw [blocksOfChunk_eq hm hk]
  simp [Frontend.mapBlocks]

include hsize

theorem nchunks_eq : (s.frontend k).convertedVerifiedBitmap.length =
    (1 + (s.size - 1).tdiv blockSize).toNat := by
  rw [hm.chunks _ (frontend_mem hk), hsize]

theorem chunkNum_eq {i : Nat} (hi : i < s.blocks.length) :
    (s.frontend k).chunkNum i = chunkOf s.toStore i := by
  have := hm.maps _ (frontend_mem hk)
  simp only [Frontend.tables, Prod.mk.injEq] at this
  rw [Frontend.chunkNum, ← this.2.2.2.1]
  simp [Frontend.mapBlocks, chunkOf, hsize, hi]

theorem blockNums_eq {j : Nat} (hj : j < (s.frontend k).convertedVerifiedBitmap.length) :
    (s.frontend k).blockNums j =
      ((List.range s.blocks.length).filter fun i => chunkOf s.toStore i = j).reverse := by
  rw [Frontend.blockNums, blocksOfChunk_eq hm hk]
  simp [Frontend.mapBlocks, chunkOf, hsize, hj]
  rfl

theorem mem_blockNums {i j : Nat} (hj : j < (s.frontend k).convertedVerifiedBitmap.length) :
    i ∈ (s.frontend k).blockNums j ↔ i < s.blocks.length ∧ chunkOf s.toStore i = j := by
  rw [blockNums_eq hm hk hsize hj]
  simp

theorem mem_declared (hfits : ∀ j ∈ State.bitvTrue bitmap,
      j < (s.frontend k).convertedVerifiedBitmap.length) {i : Nat} :
    i ∈ (s.declaredBlocks k (.availableBitv bitmap)).1 ↔
      i < s.blocks.length ∧ bitmap.getD (chunkOf s.toStore i) false = true := by
  rw [State.declaredBlocks, List.mem_reverse, List.mem_flatMap]
  constructor
  · rintro ⟨j, hj, hi⟩
    obtain ⟨hlt, rfl⟩ := (mem_blockNums hm hk hsize (hfits j hj)).mp hi
    exact ⟨hlt, mem_bitvTrue.mp hj⟩
  · rintro ⟨hlt, hbit⟩
    have hj := mem_bitvTrue.mpr hbit
    exact ⟨_, hj, (mem_blockNums hm hk hsize (hfits _ hj)).mpr ⟨hlt, rfl⟩⟩

theorem nodup_declared (hfits : ∀ j ∈ State.bitvTrue bitmap,
      j < (s.frontend k).convertedVerifiedBitmap.length) :
    (s.declaredBlocks k (.availableBitv bitmap)).1.Nodup := by
  rw [State.declaredBlocks, List.nodup_reverse, List.nodup_flatMap]
  refine ⟨fun j hj => ?_, ?_⟩
  · rw [blockNums_eq hm hk hsize (hfits j hj), List.nodup_reverse]
    exact List.nodup_range.filter _
  · refine (List.nodup_range.filter _).pairwise_of_forall_ne fun j hj j' hj' hne i hi hi' => hne ?_
    rw [mem_blockNums hm hk hsize (hfits j hj)] at hi
    rw [mem_blockNums hm hk hsize (hfits j' hj')] at hi'
    exact hi.2.symm.trans hi'.2

-- What stays of the other uploaders
structure Kept (s s' : State) : Prop where
  size : s'.size = s.size
  uploaders : s.uploaders.length ≤ s'.uploaders.length
  t : ∀ up < s.uploaders.length, (s'.uploader up).t = (s.uploader up).t

theorem setUploaderIntervals_fits (hup : up < s.uploaders.length) (ht : (s.uploader up).t = k)
    (hd : (s.uploader up).declared = false) (hfits : ∀ j ∈ State.bitvTrue bitmap,
      j < (s.frontend k).convertedVerifiedBitmap.length) :
    Outcome (setUploaderIntervals up (.availableBitv bitmap))
      (fun _ s' => Declares s' k up bitmap ∧ Kept s s') (fun _ _ => False) s := by
  unfold setUploaderIntervals
  rw [outcome_get_bind]
  dsimp only
  rw [if_neg (by simp [hd]), ht]
  refine Outcome.bind (countIntervals_fits fun j hj => ?_) fun _ s' hs' => ?_
  · rw [length_blocksOfChunk hm hk]
    exact hfits j hj
  obtain ⟨l, hl, rfl⟩ := hs'
  rw [outcome_modify]
  have hself := State.uploader_modifyUploader { s with availability := l } up up fun u =>
    { u with
      intervals := .availableBitv bitmap
      completeBlocks := (s.declaredBlocks k (.availableBitv bitmap)).1
      ncomplete := (s.declaredBlocks k (.availableBitv bitmap)).1.length
      partialBlocks := (s.declaredBlocks k (.availableBitv bitmap)).2
      npartial := (s.declaredBlocks k (.availableBitv bitmap)).2.length
      blocks := []
      declared := true }
  rw [if_pos ⟨rfl, hup⟩] at hself
  have hmem := fun i => mem_declared hm hk hsize hfits (i := i)
  refine ⟨⟨⟨?_, ?_⟩, ?_, ?_, ?_, ?_, ?_, ?_⟩, ⟨rfl, ?_, ?_⟩⟩
  · simpa [State.modifyUploader] using hup
  · rw [hself]
    exact ht
  · rw [hself]
  · rw [hself]
    exact hmem
  · rw [hself]
    exact nodup_declared hm hk hsize hfits
  · rw [hself]
  · rw [hself]
    exact ⟨rfl, rfl⟩
  · rw [hself]
    intro i hi
    obtain ⟨hlt, hbit⟩ := (hmem i).mp hi
    refine ⟨?_, ?_⟩
    · show i < l.length
      rw [hl, hm.counters]
      exact hlt
    · show (s.frontend k).chunkNum i < _
      rw [chunkNum_eq hm hk hsize hlt]
      exact hfits _ (mem_bitvTrue.mpr hbit)
  · simp [State.modifyUploader]
  · intro up' _
    rw [State.uploader_modifyUploader]
    split
    · next h => rw [h.1]; rfl
    · rfl

omit hsize in
theorem setUploaderIntervals_past (ht : (s.uploader up).t = k)
    (hd : (s.uploader up).declared = false) {j : Nat} (hj : j ∈ State.bitvTrue bitmap)
    (hpast : (s.frontend k).convertedVerifiedBitmap.length ≤ j) :
    Outcome (setUploaderIntervals up (.availableBitv bitmap)) (fun _ _ => False)
      (fun e _ => e = Exn.invalidArgument) s := by
  unfold setUploaderIntervals
  rw [outcome_get_bind]
  dsimp only
  rw [if_neg (by simp [hd]), ht]
  refine Outcome.bind (countIntervals_past hj ?_) fun _ _ h => h.elim
  rw [length_blocksOfChunk hm hk]
  exact hpast

end Tables

-- The uploaders are there with their frontends.
structure SameUploaders (s s' : State) : Prop where
  length : s'.uploaders.length = s.uploaders.length
  t : ∀ up, (s'.uploader up).t = (s.uploader up).t

theorem SameUploaders.trans {s s' s'' : State} (h : SameUploaders s s')
    (h' : SameUploaders s' s'') : SameUploaders s s'' :=
  ⟨h'.length.trans h.length, fun up => (h'.t up).trans (h.t up)⟩

theorem SameUploaders.of_eq {s s' : State} (h : s'.uploaders = s.uploaders) : SameUploaders s s' :=
  ⟨by rw [h], fun up => by simp only [State.uploader, h]⟩

theorem SameUploaders.modify (s : State) (up : Nat) {f : Uploader → Uploader}
    (h : ∀ u, (f u).t = u.t) : SameUploaders s (s.modifyUploader up f) := by
  refine ⟨by simp [State.modifyUploader], fun up' => ?_⟩
  rw [State.uploader_modifyUploader]
  split
  · next hup => rw [h, hup.1]
  · rfl

theorem SameUploaders.foldl {α : Type} {f : State → α → State}
    (h : ∀ s x, (f s x).uploaders = s.uploaders) (l : List α) (s : State) :
    SameUploaders s (l.foldl f s) := by
  induction l generalizing s with
  | nil => exact .of_eq rfl
  | cons x l ih => exact (SameUploaders.of_eq (h s x)).trans (ih _)

theorem uploaders_decrAvailability (s : State) (i : Nat) :
    (s.decrAvailability i).uploaders = s.uploaders := rfl

theorem uploaders_decrNuploading (s : State) (num : Nat) :
    (s.decrNuploading num).uploaders = s.uploaders := rfl

theorem sameUploaders_clearUploaderIntervals (s : State) (up : Nat) :
    SameUploaders s (s.clearUploaderIntervals up) := by
  simp only [State.clearUploaderIntervals]
  split
  · refine SameUploaders.trans ?_ (.modify _ up fun _ => rfl)
    refine SameUploaders.trans ?_ (.modify _ up fun _ => rfl)
    refine SameUploaders.trans ?_ (.foldl (fun s b => uploaders_decrNuploading s _) _ _)
    refine SameUploaders.trans ?_ (.modify _ up fun _ => rfl)
    exact (SameUploaders.foldl uploaders_decrAvailability _ s).trans
      (.foldl (fun s b => uploaders_decrAvailability s _) _ _)
  · exact .of_eq rfl

theorem declared_clearUploaderIntervals {s : State} {up : Nat} (hup : up < s.uploaders.length) :
    ((s.clearUploaderIntervals up).uploader up).declared = false := by
  have hlen := (sameUploaders_clearUploaderIntervals s up).length
  simp only [State.clearUploaderIntervals] at hlen ⊢
  split at hlen
  · next h =>
    rw [if_pos h, State.uploader_modifyUploader, if_pos]
    refine ⟨rfl, ?_⟩
    simp only [State.modifyUploader, List.length_modify] at hlen ⊢
    omega
  · next h =>
    rw [if_neg h]
    simpa using h

theorem Kept.of_same {s s' s'' : State} (h : SameUploaders s s') (hsize : s'.size = s.size)
    (hk : Kept s' s'') : Kept s s'' where
  size := hk.size.trans hsize
  uploaders := h.length ▸ hk.uploaders
  t up hup := (hk.t up (h.length ▸ hup)).trans (h.t up)

section Calls

variable {k up file : Nat} {queue : List QueueEntry} (hm : Mapped s) (hk : k < s.networks.length)
  (hsize : (s.frontend k).chunkSize = blockSize)

include hm hk

theorem updateUploaderIntervals_fits (hsize : (s.frontend k).chunkSize = blockSize)
    (hup : up < s.uploaders.length) (ht : (s.uploader up).t = k)
    (hfits : ∀ j ∈ State.bitvTrue bitmap, j < (s.frontend k).convertedVerifiedBitmap.length) :
    Outcome (updateUploaderIntervals up (.availableBitv bitmap))
      (fun _ s' => Declares s' k up bitmap ∧ Kept s s') (fun _ _ => False) s := by
  have htags := s.clearUploaderIntervals_tags up
  have hsame := sameUploaders_clearUploaderIntervals s up
  have hfront := htags.frontend k
  unfold updateUploaderIntervals
  rw [outcome_modify_bind]
  refine (setUploaderIntervals_fits (hm.congr (s.tables_clearUploaderIntervals up))
    (by rw [htags.networks]; exact hk) (by rw [hfront]; exact hsize)
    (by rw [hsame.length]; exact hup) (by rw [hsame.t, ht]) (declared_clearUploaderIntervals hup) (by rw [hfront]; exact hfits)).mono
    (fun _ s' h => ⟨h.1, .of_same hsame htags.size h.2⟩) fun _ _ h => h

theorem updateUploaderIntervals_past (hup : up < s.uploaders.length) (ht : (s.uploader up).t = k)
    {j : Nat} (hj : j ∈ State.bitvTrue bitmap)
    (hpast : (s.frontend k).convertedVerifiedBitmap.length ≤ j) :
    Outcome (updateUploaderIntervals up (.availableBitv bitmap)) (fun _ _ => False)
      (fun e _ => e = Exn.invalidArgument) s := by
  have htags := s.clearUploaderIntervals_tags up
  have hsame := sameUploaders_clearUploaderIntervals s up
  unfold updateUploaderIntervals
  rw [outcome_modify_bind]
  exact setUploaderIntervals_past (hm.congr (s.tables_clearUploaderIntervals up))
    (by rw [htags.networks]; exact hk) (by rw [hsame.t, ht])
    (declared_clearUploaderIntervals hup) hj (by rw [htags.frontend]; exact hpast)

omit hm hk in
theorem uploader_concat (u : Uploader) :
    ({ s with uploaders := s.uploaders ++ [u] } : State).uploader s.uploaders.length = u := by
  simp [State.uploader]

omit hm hk in
theorem uploader_before (u : Uploader) {up : Nat} (h : up < s.uploaders.length) :
    ({ s with uploaders := s.uploaders ++ [u] } : State).uploader up = s.uploader up := by
  simp [State.uploader, List.getD_eq_getElem?_getD, List.getElem?_append_left h]

theorem registered_fits (hsize : (s.frontend k).chunkSize = blockSize)
    (hfits : ∀ j ∈ State.bitvTrue bitmap, j < (s.frontend k).convertedVerifiedBitmap.length)
    {u : Uploader} (ht : u.t = k) (hd : u.declared = false) :
    Outcome (setUploaderIntervals s.uploaders.length (.availableBitv bitmap))
      (fun _ s' => Declares s' k s.uploaders.length bitmap ∧ Kept s s') (fun _ _ => False)
      { s with uploaders := s.uploaders ++ [u] } := by
  have hm' : Mapped { s with uploaders := s.uploaders ++ [u] } := hm.congr rfl
  refine (setUploaderIntervals_fits hm' hk hsize (by simp) ?_ ?_ hfits).mono
    (fun _ s' h => ⟨h.1, h.2.size, ?_, fun up hup => ?_⟩) fun _ _ h => h
  · rw [uploader_concat, ht]
  · rw [uploader_concat, hd]
  · have := h.2.uploaders
    simp only [List.length_append] at this
    omega
  · have := h.2.t up (by simp; omega)
    rwa [uploader_before _ hup] at this

theorem registered_past {j : Nat} (hj : j ∈ State.bitvTrue bitmap)
    (hpast : (s.frontend k).convertedVerifiedBitmap.length ≤ j) {u : Uploader} (ht : u.t = k)
    (hd : u.declared = false) :
    Outcome (setUploaderIntervals s.uploaders.length (.availableBitv bitmap)) (fun _ _ => False)
      (fun e _ => e = Exn.invalidArgument) { s with uploaders := s.uploaders ++ [u] } := by
  have hm' : Mapped { s with uploaders := s.uploaders ++ [u] } := hm.congr rfl
  refine setUploaderIntervals_past hm' hk ?_ ?_ hj hpast
  · rw [uploader_concat, ht]
  · rw [uploader_concat, hd]

-- add_client_chunks declares the chunks of a bitmap that are all in the table,
theorem addIter_fits (hsize : (s.frontend k).chunkSize = blockSize)
    (hq : QueueFits s k file queue) (hlen : bitmap.length = getNchunks s.size)
    (hfits : ∀ j ∈ State.bitvTrue bitmap, j < (s.frontend k).convertedVerifiedBitmap.length) :
    Outcome (addIter k file bitmap queue) (fun queue' s' =>
      (∃ e ∈ queue', e.file = file ∧ e.chunks = bitmap ∧ Declares s' k e.up bitmap) ∧
        QueueFits s' k file queue' ∧ Kept s s') (fun _ _ => False) s := by
  induction queue with
  | nil =>
    unfold addIter registerUploader
    rw [outcome_get_bind, outcome_bind, outcome_get_bind, outcome_modify_bind]
    refine (registered_fits hm hk hsize hfits rfl rfl).mono (fun _ s' h => ?_) fun _ _ h => h
    rw [outcome_pure]
    refine ⟨⟨_, List.mem_singleton_self _, rfl, rfl, h.1⟩, fun e he _ => ?_, h.2⟩
    obtain rfl := List.mem_singleton.mp he
    exact ⟨h.1.uploader.1, h.1.uploader.2, by rw [hlen, h.2.size]⟩
  | cons e tail ih =>
    have htail : QueueFits s k file tail := fun x hx => hq x (by simp [hx])
    unfold addIter
    split
    · next hne =>
      refine (ih htail).bind fun queue' s' h => ?_
      rw [outcome_pure]
      obtain ⟨⟨x, hx, hxe⟩, hfitsq, hkept⟩ := h
      refine ⟨⟨x, by simp [hx], hxe⟩, fun y hy hfile => ?_, hkept⟩
      rcases List.mem_cons.mp hy with rfl | hy
      · exact absurd hfile hne
      · exact hfitsq y hy hfile
    · next heq =>
      obtain ⟨hup, ht, hchunks⟩ := hq e (by simp) (by simpa using heq)
      refine (updateUploaderIntervals_fits hm hk hsize hup ht hfits).bind fun _ s' h => ?_
      rw [outcome_bind, outcome_check]
      refine ⟨fun _ => ?_, fun hn => absurd (by rw [hchunks, hlen]) hn⟩
      rw [outcome_pure]
      have htake : bitmap.take e.chunks.length = bitmap := by
        rw [hchunks, ← hlen, List.take_length]
      refine ⟨⟨_, List.mem_cons_self, by simpa using heq, htake, h.1⟩, fun y hy hfile => ?_, h.2⟩
      rcases List.mem_cons.mp hy with rfl | hy
      · exact ⟨h.1.uploader.1, h.1.uploader.2, by rw [htake, hlen, h.2.size]⟩
      · obtain ⟨hup', ht', hchunks'⟩ := htail y hy hfile
        exact ⟨hup'.trans_le h.2.uploaders, (h.2.t _ hup').trans ht', by rw [hchunks', h.2.size]⟩

-- and raises on one with a chunk past its end.
theorem addIter_past (hq : QueueFits s k file queue) {j : Nat} (hj : j ∈ State.bitvTrue bitmap)
    (hpast : (s.frontend k).convertedVerifiedBitmap.length ≤ j) :
    Outcome (addIter k file bitmap queue) (fun _ _ => False)
      (fun e _ => e = Exn.invalidArgument) s := by
  induction queue with
  | nil =>
    unfold addIter registerUploader
    rw [outcome_get_bind, outcome_bind, outcome_get_bind, outcome_modify_bind]
    exact (registered_past hm hk hj hpast rfl rfl).mono (fun _ _ h => h.elim) fun _ _ h => h
  | cons e tail ih =>
    unfold addIter
    split
    · exact (ih fun x hx => hq x (by simp [hx])).bind fun _ _ h => h.elim
    · next heq =>
      obtain ⟨hup, ht, _⟩ := hq e (by simp) (by simpa using heq)
      exact (updateUploaderIntervals_past hm hk hup ht hj hpast).bind fun _ _ h => h.elim

end Calls

-- The chunks of a bitmap of the protocol are all in the swarmer's table unless the size is a
-- multiple of the chunk size and the last bit is set.
theorem fits_iff {size : Int} (hsize : 0 < size) (hlen : bitmap.length = getNchunks size) :
    (∀ j ∈ State.bitvTrue bitmap, j < (1 + (size - 1).tdiv blockSize).toNat) ↔
      ¬ (size % blockSize = 0 ∧ bitmap.getD (bitmap.length - 1) false = true) := by
  have h1 : size.tdiv blockSize = size / blockSize := Int.tdiv_eq_ediv_of_nonneg hsize.le
  have h2 : (size - 1).tdiv blockSize = (size - 1) / blockSize :=
    Int.tdiv_eq_ediv_of_nonneg (by omega)
  rw [getNchunks, h1] at hlen
  rw [h2]
  unfold blockSize at hlen ⊢
  constructor
  · rintro h ⟨hmod, hbit⟩
    have := h _ (mem_bitvTrue.mpr hbit)
    omega
  · intro h j hj
    have hbit := mem_bitvTrue.mp hj
    have hlt : j < bitmap.length := by
      by_contra hge
      rw [List.getD_eq_default _ _ (Nat.le_of_not_lt hge)] at hbit
      cases hbit
    by_cases hlast : j = bitmap.length - 1
    · have hmod : size % 9728000 ≠ 0 := fun hmod => h ⟨hmod, hlast ▸ hbit⟩
      omega
    · omega

-- A bitmap of the protocol is declared with exactly the blocks of its chunks, in every state
-- that the operations on a swarmer reach, unless the file's size is a multiple of the chunk
-- size and the bit of the chunk after the last one is set.
theorem add_client_chunks_iff {verifiers : Verifier → Prop} {ok : State → Op → Prop} {s : State}
    (hs : Reachable verifiers ok s) {k : Nat} (hk : k < s.networks.length)
    (hchunk : (s.frontend k).chunkSize = blockSize) (hsize : 0 < s.size) {file : Nat}
    {queue : List QueueEntry} (hq : QueueFits s k file queue) {bitmap : List Bool}
    (hlen : bitmap.length = getNchunks s.size) :
    Outcome (addClientChunks (some k) file bitmap queue) (fun queue' s' =>
      (∃ e ∈ queue', e.file = file ∧ e.chunks = bitmap ∧ Declares s' k e.up bitmap) ∧
        QueueFits s' k file queue') (fun _ _ => False) s ↔
      ¬ (s.size % blockSize = 0 ∧ bitmap.getD (bitmap.length - 1) false = true) := by
  have hm := Mapped.reachable hs
  rw [← fits_iff hsize hlen, ← nchunks_eq hm hk hchunk]
  constructor
  · intro hout j hj
    by_contra hge
    have hpast := addIter_past hm hk hq hj (Nat.le_of_not_lt hge)
    have := hout.and hpast
    unfold Outcome at this
    split at this
    · exact this.2
    · exact this.1
  · intro hfits
    exact (addIter_fits hm hk hchunk hq hlen hfits).mono (fun _ _ h => ⟨h.1, h.2.1⟩) fun _ _ h => h

-- A new file of three chunks
def threeChunks : State :=
  (createSwarmer 25000000).associate
    { chunkSize := 9728000
      nchunks := 3
      convertedVerifiedBitmap := VB.create 3 .stateMissing
      ncompleteChunks := 0
      nverifiedChunks := 0
      verifier := .forceVerification
      blocksOfChunk := List.replicate 3 []
      chunkOfBlock := []
      fd := 0 } ⟨25000000, 0, .fileDownloading⟩

-- The client has had the second chunk only.
def secondChunk : State :=
  Op.next (.registerUploader 0 (.availableBitv [false, true, false])) threeChunks

theorem add_client_chunks_iff_second :
    Outcome (addClientChunks (some 0) 7 [true, false, true]
      [⟨3, [true], 5⟩, ⟨7, [false, true, false], 0⟩]) (fun queue' s' =>
        (∃ e ∈ queue', e.file = 7 ∧ e.chunks = [true, false, true] ∧
          Declares s' 0 e.up [true, false, true]) ∧
        QueueFits s' 0 7 queue') (fun _ _ => False) secondChunk := by
  have hs : Reachable (fun _ => True) (fun _ _ => True) secondChunk :=
    .step (.start ⟨25000000, 9728000, .forceVerification, .fileDownloading, trivial, rfl⟩)
      ⟨(show 0 < threeChunks.networks.length by decide), trivial⟩
  have hq : QueueFits secondChunk 0 7 [⟨3, [true], 5⟩, ⟨7, [false, true, false], 0⟩] := by
    intro e he hfile
    obtain rfl | rfl : e = ⟨3, [true], 5⟩ ∨ e = ⟨7, [false, true, false], 0⟩ := by simpa using he
    · cases hfile
    · decide +kernel
  exact (add_client_chunks_iff hs (by decide +kernel) (by decide +kernel) (by decide +kernel) hq
    (by decide +kernel)).mpr (by decide +kernel)

-- A client that has all of a file of two chunks
theorem add_client_chunks_raises : ¬ ∀ s : State,
    Reachable (fun _ => True) (fun _ _ => True) s → ∀ k < s.networks.length,
      (s.frontend k).chunkSize = blockSize → 0 < s.size → ∀ bitmap : List Bool,
        bitmap.length = getNchunks s.size →
          Outcome (addClientChunks (some k) 7 bitmap []) (fun _ _ => True) (fun _ _ => False)
            s := by
  intro h
  obtain ⟨s, hs, hk, hchunk, hsize⟩ :=
    exists_created (show 0 < 19456000 by decide) (show 0 < 9728000 by decide)
  have hm := Mapped.reachable hs
  have hout := h s hs 0 hk hchunk (by omega) [true, true, true] (by rw [hsize]; decide)
  have hq : QueueFits s 0 7 [] := fun _ h => by cases h
  have hbit : 2 ∈ State.bitvTrue [true, true, true] := by decide
  have hpast := addIter_past hm hk hq hbit (by rw [nchunks_eq hm hk hchunk, hsize]; decide)
  have := hout.and hpast
  unfold Outcome at this
  split at this
  · exact this.2
  · exact this.1

end Mldonkey.Donkey.Chunks
