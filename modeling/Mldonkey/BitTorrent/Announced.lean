import Mldonkey.BitTorrent.BigEndian
import Mldonkey.Lib.Runs
import Mldonkey.Swarming.Types

-- What a peer has announced, and what the swarmer knows of it.
namespace Mldonkey.BitTorrent.Announced

open BigEndian (Bytes)
open Runs (Reach)
open Swarming (Intervals PartState VerificationBitmap)

structure Uploader where
  declared : Bool
  intervals : Intervals

-- A connected client and its file. `announced` are the chunks of the BitField and Have messages
-- so far; the code does not keep them.
structure Client where
  bitmap : Option (List Bool)
  newChunks : List ℕ
  uploader : Option Uploader
  interesting : Bool
  registeredBitfield : Bool
  choked : Bool
  rangesSent : ℕ
  chunk : Bool
  metadataDownloading : Bool
  fileDownloading : Bool
  swarmer : Option VerificationBitmap
  connected : Bool
  announced : List ℕ

namespace Uploader

def clearUploaderIntervals (up : Uploader) : Uploader :=
  if up.declared then { up with declared := false } else up

def setUploaderIntervals (up : Uploader) (intervals : Intervals) : Uploader :=
  if up.declared then up else { declared := true, intervals := intervals }

def updateUploaderIntervals (up : Uploader) (intervals : Intervals) : Uploader :=
  up.clearUploaderIntervals.setUploaderIntervals intervals

end Uploader

def registerUploader (intervals : Intervals) : Uploader :=
  Uploader.setUploaderIntervals { declared := false, intervals := intervals } intervals

-- The bitmap goes into the intervals by reference: both are the same after the update.
-- None stands for the assertion that fails without a swarmer.
def updateClientBitmap (c : Client) : Option Client := do
  let chunks ← c.swarmer
  let up := c.uploader.getD (registerUploader (.availableIntervals []))
  let bitmap := c.bitmap.getD (List.replicate chunks.length false)
  if c.newChunks ≠ [] then
    let bitmap := c.newChunks.foldl (fun bitmap n => bitmap.set n true) bitmap
    some { c with
      newChunks := []
      bitmap := some bitmap
      uploader := some (up.updateUploaderIntervals (.availableBitv bitmap)) }
  else some { c with bitmap := some bitmap, uploader := some up }

-- What find_range and find_blocks answer in one call of get_from_client: whether the blocks at
-- hand are given up, whether there are blocks at the end, and the ranges that are then sent.
structure Pick where
  lost : Bool
  chunk : Bool
  rangesSent : ℕ

def maxRangeRequests : ℕ := 5

def getFromClient (c : Client) (pick : Pick) : Client :=
  if c.rangesSent < maxRangeRequests ∧ c.fileDownloading ∧ c.choked = false then
    match c.uploader with
    | none => c
    | some _ =>
      let c' := if c.chunk = false ∨ pick.lost then (updateClientBitmap c).getD c else c
      { c' with chunk := pick.chunk, rangesSent := pick.rangesSent }
  else c

-- Bit 7 of the first byte stands for chunk 0.
def isBitSet (p : Bytes) (n : ℕ) : Bool := ((p.getD (n / 8) 0).toNat).testBit (7 - n % 8)

def lacks : PartState → Bool
  | .stateMissing | .statePartial => true
  | .stateComplete | .stateVerified => false

def bitField (c : Client) (p : Bytes) : Client :=
  if c.metadataDownloading then c
  else
    match c.swarmer with
    | none => c
    | some chunks =>
      let c := { c with newChunks := [] }
      if p.length * 8 < chunks.length then { c with connected := false }
      else
        let set := (List.range chunks.length).filter (isBitSet p)
        let c :=
          { c with
            newChunks := set.reverse
            interesting := c.interesting ||
              set.any fun i => lacks (chunks.getD i .stateMissing) }
        { (updateClientBitmap c).getD c with registeredBitfield := true }

-- A chunk out of the bounds of the bitmap is an exception.
def haveChunk (c : Client) (n : ℕ) : Client :=
  if c.metadataDownloading then c
  else
    match c.swarmer with
    | none => c
    | some chunks =>
      match chunks[n]? with
      | none => c
      | some state =>
        if lacks state then
          let c := { c with interesting := true, newChunks := n :: c.newChunks }
          (updateClientBitmap c).getD c
        else c

def choke (c : Client) : Client :=
  { c with
    uploader := c.uploader.map (·.clearUploaderIntervals)
    rangesSent := 0
    choked := true }

-- One pick for each turn of the loop.
def unchoke (c : Client) (picks : List Pick) : Client :=
  (picks.take (maxRangeRequests - c.rangesSent)).foldl getFromClient { c with choked := false }

-- The data of a Piece; what it does to the chunks is a step of `chunks`.
def piece (c : Client) (pick : Pick) : Client :=
  match c.fileDownloading, c.uploader with
  | true, none => c
  | _, _ => getFromClient { c with rangesSent := c.rangesSent - 1 } pick

-- The messages of the peer, and the changes of the file: data received from any peer, chunks that
-- are verified or turn out wrong, metadata that arrives, the file being paused.
inductive Event
  | bitField (p : Bytes)
  | haveChunk (n : ℕ)
  | choke
  | unchoke (picks : List Pick)
  | piece (pick : Pick)
  | chunks (swarmer : Option VerificationBitmap) (metadata downloading : Bool)

def announce (c : Client) (chunks : List ℕ) : Client :=
  { c with announced := chunks ++ c.announced }

def next : Event → Client → Client
  | .bitField p, c =>
    announce (bitField c p) ((List.range (p.length * 8)).filter (isBitSet p))
  | .haveChunk n, c => announce (haveChunk c n) [n]
  | .choke, c => choke c
  | .unchoke picks, c => unchoke c picks
  | .piece pick, c => piece c pick
  | .chunks swarmer metadata downloading, c =>
    { c with
      swarmer := swarmer
      metadataDownloading := metadata
      fileDownloading := downloading }

-- A client that was just connected: the uploader is registered without a chunk.
structure Fresh (c : Client) : Prop where
  bitmap : ∀ b, c.bitmap = some b →
    ∃ chunks, c.swarmer = some chunks ∧ b = List.replicate chunks.length false
  newChunks : c.newChunks = []
  uploader : ∀ up, c.uploader = some up → up.declared = true ∧ up.intervals = .availableIntervals []
  choked : c.choked = true
  announced : c.announced = []

-- The swarmer of a file keeps its number of chunks.
def Legal (c : Client) (e : Event) : Prop :=
  c.connected = true ∧
    match e with
    | .chunks swarmer _ _ => ∀ chunks, c.swarmer = some chunks →
        ∃ chunks', swarmer = some chunks' ∧ chunks'.length = chunks.length
    | _ => True

-- The chunk was announced and we do not have it complete.
def Wanted (c : Client) (i : ℕ) : Prop :=
  i ∈ c.announced ∧ ∃ chunks state, c.swarmer = some chunks ∧ chunks[i]? = some state ∧
    lacks state = true

-- The uploader is declared with the chunk.
def Usable (c : Client) (i : ℕ) : Prop :=
  ∃ up bitmap, c.uploader = some up ∧ up.declared = true ∧
    up.intervals = .availableBitv bitmap ∧ bitmap.getD i false = true

def Offers (c : Client) : Prop :=
  c.connected = true → c.choked = false → ∀ i, Wanted c i → Usable c i

-- The chunk is in the client's bitmap.
def Held (c : Client) (i : ℕ) : Prop := ∃ b, c.bitmap = some b ∧ b.getD i false = true

-- The messages and changes after which nothing is lost: an Unchoke comes when the uploader is
-- declared, no BitField or Have is ignored for want of the metadata, and a chunk whose Have was
-- ignored because we had it complete does not become missing.
def Fitting (c : Client) (e : Event) : Prop :=
  Legal c e ∧
    match e with
    | .bitField _ | .haveChunk _ => c.metadataDownloading = false
    | .unchoke _ => ∀ up, c.uploader = some up → up.declared = true
    | .chunks swarmer _ _ => ∀ i ∈ c.announced, ∀ chunks state, swarmer = some chunks →
        chunks[i]? = some state → lacks state = true → Held c i
    | _ => True

structure Inv (c : Client) : Prop where
  length : ∀ b, c.bitmap = some b →
    ∃ chunks, c.swarmer = some chunks ∧ b.length = chunks.length
  owner : ∀ i, Held c i → ∃ up, c.uploader = some up
  synced : ∀ up, c.uploader = some up → up.declared = true →
    (∃ b, c.bitmap = some b ∧ up.intervals = .availableBitv b) ∨ ∀ i, ¬ Held c i
  recorded : ∀ i, Wanted c i → Held c i
  live : c.choked = false → ∀ up, c.uploader = some up → up.declared = true

variable {c : Client}

theorem Inv.offers (h : Inv c) : Offers c := by
  intro _ hchoked i hi
  obtain ⟨b, hb, hbit⟩ := h.recorded i hi
  obtain ⟨up, hup⟩ := h.owner i ⟨b, hb, hbit⟩
  have hdecl := h.live hchoked up hup
  cases h.synced up hup hdecl with
  | inl hs =>
    obtain ⟨b', hb', hint⟩ := hs
    obtain rfl : b = b' := Option.some_inj.mp (hb.symm.trans hb')
    exact ⟨up, b, hup, hdecl, hint, hbit⟩
  | inr hs => exact absurd ⟨b, hb, hbit⟩ (hs i)

theorem not_getD_replicate (n i : ℕ) : ¬ (List.replicate n false).getD i false = true := by
  rw [List.getD_eq_getElem?_getD, List.getElem?_replicate]
  split <;> simp

theorem Fresh.inv (h : Fresh c) : Inv c := by
  have hheld (i : ℕ) : ¬ Held c i := by
    rintro ⟨b, hb, hbit⟩
    obtain ⟨chunks, -, rfl⟩ := h.bitmap b hb
    exact not_getD_replicate _ i hbit
  refine ⟨fun b hb => ?_, fun i hi => absurd hi (hheld i), fun _ _ _ => .inr hheld,
    fun i hi => ?_, fun hc => ?_⟩
  · obtain ⟨chunks, hs, rfl⟩ := h.bitmap b hb
    exact ⟨chunks, hs, List.length_replicate⟩
  · rw [Wanted, h.announced] at hi
    exact absurd hi.1 List.not_mem_nil
  · rw [h.choked] at hc
    cases hc

theorem length_foldl_set (l : List ℕ) (b : List Bool) :
    (l.foldl (fun b n => b.set n true) b).length = b.length := by
  induction l generalizing b with
  | nil => rfl
  | cons n l ih => rw [List.foldl_cons, ih, List.length_set]

theorem getD_foldl_set {l : List ℕ} {b : List Bool} {i : ℕ}
    (h : b.getD i false = true ∨ i ∈ l ∧ i < b.length) :
    (l.foldl (fun b n => b.set n true) b).getD i false = true := by
  induction l generalizing b with
  | nil => simpa using h
  | cons n l ih =>
    refine ih ?_
    by_cases hn : n = i
    · subst hn
      by_cases hlt : n < b.length
      · exact .inl (by simp [List.getD_eq_getElem?_getD, hlt])
      · refine h.imp (fun h => ?_) fun h => absurd h.2 hlt
        simpa [List.set_eq_of_length_le (Nat.le_of_not_lt hlt)] using h
    · refine h.imp (fun h => ?_) fun h => ⟨?_, ?_⟩
      · simpa [List.getD_eq_getElem?_getD, List.getElem?_set_ne hn] using h
      · exact (List.mem_cons.mp h.1).resolve_left (Ne.symm hn)
      · rw [List.length_set]
        exact h.2

-- What update_client_bitmap leaves alone
structure SameFile (c c' : Client) : Prop where
  swarmer : c'.swarmer = c.swarmer
  announced : c'.announced = c.announced
  choked : c'.choked = c.choked
  connected : c'.connected = c.connected

theorem updateClientBitmap_nil {chunks : VerificationBitmap} (hs : c.swarmer = some chunks)
    (hnew : c.newChunks = []) : updateClientBitmap c = some { c with
      bitmap := some (c.bitmap.getD (List.replicate chunks.length false))
      uploader := some (c.uploader.getD (registerUploader (.availableIntervals []))) } := by
  simp [updateClientBitmap, hs, hnew]

theorem updateClientBitmap_cons {chunks : VerificationBitmap} (hs : c.swarmer = some chunks)
    (hnew : c.newChunks ≠ []) : updateClientBitmap c =
      let bitmap := c.newChunks.foldl (fun bitmap n => bitmap.set n true)
        (c.bitmap.getD (List.replicate chunks.length false))
      some { c with
        newChunks := []
        bitmap := some bitmap
        uploader := some ⟨true, .availableBitv bitmap⟩ } := by
  have hdeclared (up : Uploader) (b : List Bool) :
      up.updateUploaderIntervals (.availableBitv b) = ⟨true, .availableBitv b⟩ := by
    rw [Uploader.updateUploaderIntervals, Uploader.clearUploaderIntervals]
    cases hd : up.declared <;> simp [Uploader.setUploaderIntervals, hd]
  simp [updateClientBitmap, hs, hnew, hdeclared]

-- After the update the new chunks are in the bitmap and the uploader is declared with it.
theorem Inv.update (h : Inv c) {chunks : VerificationBitmap} (hs : c.swarmer = some chunks) :
    ∃ c', updateClientBitmap c = some c' ∧ Inv c' ∧ c'.newChunks = [] ∧ SameFile c c' ∧
      ∀ n ∈ c.newChunks, n < chunks.length → Held c' n := by
  have hlen : (c.bitmap.getD (List.replicate chunks.length false)).length = chunks.length := by
    cases hb : c.bitmap with
    | none => exact List.length_replicate
    | some b =>
      obtain ⟨chunks', hs', hl⟩ := h.length b hb
      obtain rfl : chunks = chunks' := Option.some_inj.mp (hs.symm.trans hs')
      exact hl
  have hheld (i : ℕ) :
      (c.bitmap.getD (List.replicate chunks.length false)).getD i false = true ↔ Held c i := by
    cases hb : c.bitmap with
    | none => simp [Held, hb]
    | some b => simp [Held, hb]
  by_cases hnew : c.newChunks = []
  · refine ⟨_, updateClientBitmap_nil hs hnew, ?_, hnew, ⟨rfl, rfl, rfl, rfl⟩, ?_⟩
    · have hheld' (i : ℕ) : (∃ b, some (c.bitmap.getD (List.replicate chunks.length false)) =
          some b ∧ b.getD i false = true) ↔ Held c i := by
        rw [← hheld i]
        simp
      refine ⟨?_, fun i hi => ⟨_, rfl⟩, ?_, fun i hi => (hheld' i).mpr (h.recorded i hi), ?_⟩
      · rintro b ⟨⟩
        exact ⟨chunks, hs, hlen⟩
      · rintro up ⟨⟩ hdecl
        cases hup : c.uploader with
        | none =>
          refine .inr fun i hi => ?_
          obtain ⟨up, hup'⟩ := h.owner i ((hheld' i).mp hi)
          simp [hup] at hup'
        | some up =>
          rw [hup] at hdecl
          refine (h.synced up hup hdecl).imp ?_ fun hno i hi => hno i ((hheld' i).mp hi)
          rintro ⟨b, hb, hint⟩
          exact ⟨b, by simp [hb], hint⟩
      · rintro hc up ⟨⟩
        cases hup : c.uploader with
        | none => rfl
        | some up => exact h.live hc up hup
    · simp [hnew]
  · have hbit {i : ℕ} (hi : Held c i ∨ i ∈ c.newChunks ∧ i < chunks.length) :
        (c.newChunks.foldl (fun bitmap n => bitmap.set n true)
          (c.bitmap.getD (List.replicate chunks.length false))).getD i false = true :=
      getD_foldl_set (by rwa [hheld, hlen])
    refine ⟨_, updateClientBitmap_cons hs hnew, ?_, rfl,
      ⟨rfl, rfl, rfl, rfl⟩, fun n hn hlt => ⟨_, rfl, hbit (.inr ⟨hn, hlt⟩)⟩⟩
    refine ⟨?_, fun i hi => ⟨_, rfl⟩, ?_,
      fun i hi => ⟨_, rfl, hbit (.inl (h.recorded i hi))⟩, ?_⟩
    · rintro b ⟨⟩
      exact ⟨chunks, hs, by rw [length_foldl_set, hlen]⟩
    · rintro up ⟨⟩ -
      exact .inl ⟨_, rfl, rfl⟩
    · rintro - up ⟨⟩
      rfl

theorem Inv.getD_update (h : Inv c) (hnew : c.newChunks = []) :
    Inv ((updateClientBitmap c).getD c) ∧ ((updateClientBitmap c).getD c).newChunks = [] ∧
      SameFile c ((updateClientBitmap c).getD c) := by
  cases hs : c.swarmer with
  | none =>
    have : updateClientBitmap c = none := by simp [updateClientBitmap, hs]
    rw [this]
    exact ⟨h, hnew, ⟨rfl, rfl, rfl, rfl⟩⟩
  | some chunks =>
    obtain ⟨c', heq, hinv, hnew', hsame, -⟩ := h.update hs
    rw [heq]
    exact ⟨hinv, hnew', hsame⟩

-- The invariant between two events
def Quiet (c : Client) : Prop := Inv c ∧ c.newChunks = []

theorem Quiet.getFromClient (h : Quiet c) (pick : Pick) : Quiet (getFromClient c pick) := by
  have hupdate : Quiet (if c.chunk = false ∨ pick.lost then (updateClientBitmap c).getD c
      else c) := by
    split_ifs
    · obtain ⟨hinv, hnew, -⟩ := h.1.getD_update h.2
      exact ⟨hinv, hnew⟩
    · exact h
  rw [Announced.getFromClient]
  by_cases hgo : c.rangesSent < maxRangeRequests ∧ c.fileDownloading ∧ c.choked = false
  · rw [if_pos hgo]
    split
    · exact h
    · exact ⟨⟨hupdate.1.length, hupdate.1.owner, hupdate.1.synced, hupdate.1.recorded,
        hupdate.1.live⟩, hupdate.2⟩
  · rw [if_neg hgo]
    exact h

-- New announcements are covered where each of them that we lack is in the bitmap.
theorem Inv.announce (h : Inv c) {l : List ℕ}
    (hl : ∀ i ∈ l, ∀ chunks state, c.swarmer = some chunks → chunks[i]? = some state →
      lacks state = true → Held c i) : Inv (announce c l) := by
  refine ⟨h.length, h.owner, h.synced, ?_, h.live⟩
  rintro i ⟨hi, chunks, state, hs, hstate, hlacks⟩
  cases List.mem_append.mp hi with
  | inl hi => exact hl i hi chunks state hs hstate hlacks
  | inr hi => exact h.recorded i ⟨hi, chunks, state, hs, hstate, hlacks⟩

theorem haveChunk_lacks {n : ℕ} {chunks : VerificationBitmap} {state : PartState}
    (hmeta : c.metadataDownloading = false) (hs : c.swarmer = some chunks)
    (hn : chunks[n]? = some state) (hl : lacks state = true) {c' : Client}
    (heq : updateClientBitmap { c with interesting := true, newChunks := n :: c.newChunks } =
      some c') : haveChunk c n = c' := by
  rw [hmeta, hs] at heq
  rw [Announced.haveChunk, hmeta, hs]
  simp [hn, hl, heq]

-- The client with the chunks of a BitField
def withBits (c : Client) (chunks : VerificationBitmap) (p : Bytes) : Client :=
  let set := (List.range chunks.length).filter (isBitSet p)
  { c with
    newChunks := set.reverse
    interesting := c.interesting || set.any fun i => lacks (chunks.getD i .stateMissing) }

theorem bitField_eq {p : Bytes} {chunks : VerificationBitmap}
    (hmeta : c.metadataDownloading = false) (hs : c.swarmer = some chunks)
    (hlen : ¬ p.length * 8 < chunks.length) {c' : Client}
    (heq : updateClientBitmap (withBits c chunks p) = some c') :
    bitField c p = { c' with registeredBitfield := true } := by
  rw [withBits, hmeta, hs] at heq
  rw [Announced.bitField, hmeta, hs]
  simp only [hlen, if_false, heq, Option.getD_some, Bool.false_eq_true]

theorem Quiet.haveChunk (h : Quiet c) (hmeta : c.metadataDownloading = false) (n : ℕ) :
    Quiet (announce (haveChunk c n) [n]) := by
  cases hs : c.swarmer with
  | none =>
    have hsame : Announced.haveChunk c n = c := by simp [Announced.haveChunk, hmeta, hs]
    rw [hsame]
    refine ⟨h.1.announce fun i _ chunks state hs' => ?_, h.2⟩
    simp [hs] at hs'
  | some chunks =>
    cases hn : chunks[n]? with
    | none =>
      have hsame : Announced.haveChunk c n = c := by simp [Announced.haveChunk, hmeta, hs, hn]
      rw [hsame]
      refine ⟨h.1.announce fun i hi chunks' state hs' hstate => ?_, h.2⟩
      obtain rfl : chunks = chunks' := Option.some_inj.mp (hs.symm.trans hs')
      rw [List.mem_singleton.mp hi, hn] at hstate
      cases hstate
    | some state =>
      by_cases hl : lacks state
      · have hbase : Inv { c with interesting := true, newChunks := n :: c.newChunks } :=
          ⟨h.1.length, h.1.owner, h.1.synced, h.1.recorded, h.1.live⟩
        obtain ⟨c', heq, hinv, hnew, -, hheld⟩ := hbase.update hs
        have hlt : n < chunks.length := (List.getElem?_eq_some_iff.mp hn).1
        have hc' : Quiet (announce c' [n]) := by
          refine ⟨hinv.announce fun i hi _ _ _ _ _ => ?_, hnew⟩
          rw [List.mem_singleton.mp hi]
          exact hheld n List.mem_cons_self hlt
        rwa [haveChunk_lacks hmeta hs hn hl heq]
      · have hsame : Announced.haveChunk c n = c := by simp [Announced.haveChunk, hmeta, hs, hn, hl]
        rw [hsame]
        refine ⟨h.1.announce fun i hi chunks' state' hs' hstate' hl' => ?_, h.2⟩
        obtain rfl : chunks = chunks' := Option.some_inj.mp (hs.symm.trans hs')
        rw [List.mem_singleton.mp hi, hn, Option.some_inj] at hstate'
        exact absurd (hstate' ▸ hl') hl

theorem Quiet.bitField (h : Quiet c) (hmeta : c.metadataDownloading = false) (p : Bytes)
    (hconn : (next (.bitField p) c).connected = true) : Quiet (next (.bitField p) c) := by
  rw [next] at hconn ⊢
  cases hs : c.swarmer with
  | none =>
    have hsame : Announced.bitField c p = c := by simp [Announced.bitField, hmeta, hs]
    rw [hsame]
    refine ⟨h.1.announce fun i _ chunks state hs' => ?_, h.2⟩
    simp [hs] at hs'
  | some chunks =>
    by_cases hlen : p.length * 8 < chunks.length
    · simp [Announced.bitField, hmeta, hs, hlen, announce] at hconn
    · have hbase : Inv (withBits c chunks p) :=
        ⟨h.1.length, h.1.owner, h.1.synced, h.1.recorded, h.1.live⟩
      obtain ⟨c', heq, hinv, hnew, hsame, hheld⟩ := hbase.update hs
      have hc' : Inv { c' with registeredBitfield := true } :=
        ⟨hinv.length, hinv.owner, hinv.synced, hinv.recorded, hinv.live⟩
      rw [bitField_eq hmeta hs hlen heq]
      refine ⟨hc'.announce fun i hi chunks' state hs' hstate _ => ?_, hnew⟩
      have hs'' : some chunks = some chunks' := hs.symm.trans (hsame.swarmer.symm.trans hs')
      obtain rfl := Option.some_inj.mp hs''
      have hlt : i < chunks.length := (List.getElem?_eq_some_iff.mp hstate).1
      refine hheld i ?_ hlt
      exact List.mem_reverse.mpr (List.mem_filter.mpr
        ⟨List.mem_range.mpr hlt, (List.mem_filter.mp hi).2⟩)

theorem Quiet.choke (h : Quiet c) : Quiet (choke c) := by
  refine ⟨⟨h.1.length, fun i hi => ?_, fun up hup hdecl => ?_, h.1.recorded, fun hc => ?_⟩, h.2⟩
  · obtain ⟨up, hup⟩ := h.1.owner i hi
    exact ⟨up.clearUploaderIntervals, by simp [Announced.choke, hup]⟩
  · obtain ⟨up, -, rfl⟩ := Option.map_eq_some_iff.mp hup
    rw [Uploader.clearUploaderIntervals] at hdecl
    split at hdecl <;> simp_all
  · cases hc

theorem Quiet.unchoke (h : Quiet c) (hdecl : ∀ up, c.uploader = some up → up.declared = true)
    (picks : List Pick) : Quiet (unchoke c picks) := by
  have hstart : Quiet { c with choked := false } :=
    ⟨⟨h.1.length, h.1.owner, h.1.synced, h.1.recorded, fun _ => hdecl⟩, h.2⟩
  rw [Announced.unchoke]
  generalize picks.take _ = l
  generalize { c with choked := false } = c' at hstart
  induction l generalizing c' with
  | nil => exact hstart
  | cons pick l ih => exact ih _ (hstart.getFromClient pick)

theorem Quiet.piece (h : Quiet c) (pick : Pick) : Quiet (piece c pick) := by
  have hless : Quiet { c with rangesSent := c.rangesSent - 1 } :=
    ⟨⟨h.1.length, h.1.owner, h.1.synced, h.1.recorded, h.1.live⟩, h.2⟩
  rw [Announced.piece]
  split
  · exact h
  · exact hless.getFromClient pick

theorem Quiet.next (h : Quiet c) {e : Event} (he : Fitting c e)
    (hconn : (next e c).connected = true) : Quiet (next e c) := by
  cases e with
  | bitField p => exact h.bitField he.2 p hconn
  | haveChunk n => exact h.haveChunk he.2 n
  | choke => exact h.choke
  | unchoke picks => exact h.unchoke he.2 picks
  | piece pick => exact h.piece pick
  | chunks swarmer metadata downloading =>
    refine ⟨⟨fun b hb => ?_, h.1.owner, h.1.synced, ?_, h.1.live⟩, h.2⟩
    · obtain ⟨chunks, hs, hlen⟩ := h.1.length b hb
      obtain ⟨chunks', hs', hlen'⟩ := he.1.2 chunks hs
      exact ⟨chunks', hs', hlen.trans hlen'.symm⟩
    · rintro i ⟨hi, chunks, state, hs, hstate, hlacks⟩
      exact he.2 i hi chunks state hs hstate hlacks

-- In a run of such events an unchoked client offers every chunk that its peer has announced and
-- that we lack.
theorem announced_usable {c : Client} (h : Reach next Fresh Fitting c) : Offers c := by
  have hquiet : c.connected = true → Quiet c := by
    refine h.inv (I := fun c => c.connected = true → Quiet c)
      (fun c hc _ => ⟨hc.inv, hc.newChunks⟩) fun c e hc he => ?_
    exact (hc he.1.1).next he
  exact fun hconn => (hquiet hconn).1.offers hconn

-- A client that was just connected, for a file with one chunk that we lack
def justConnected : Client where
  bitmap := some [false]
  newChunks := []
  uploader := some ⟨true, .availableIntervals []⟩
  interesting := false
  registeredBitfield := false
  choked := true
  rangesSent := 0
  chunk := false
  metadataDownloading := false
  fileDownloading := true
  swarmer := some [.stateMissing]
  connected := true
  announced := []

theorem fresh_justConnected : Fresh justConnected where
  bitmap b hb := ⟨_, rfl, (Option.some_inj.mp hb).symm⟩
  newChunks := rfl
  uploader up hup := by
    obtain rfl := Option.some_inj.mp hup
    exact ⟨rfl, rfl⟩
  choked := rfl
  announced := rfl

theorem announced_usable_unchoked :
    Offers (next (.unchoke []) (next (.bitField [128]) justConnected)) := by
  refine announced_usable (.step (.step (.start fresh_justConnected) ⟨⟨rfl, trivial⟩, rfl⟩)
    ⟨⟨rfl, trivial⟩, ?_⟩)
  rintro up ⟨⟩
  rfl

-- After a Choke and an Unchoke the uploader is not declared again.
theorem announced_lost :
    ∃ c, Reach next Fresh Legal c ∧ c.connected = true ∧ c.choked = false ∧ Wanted c 0 ∧
      ¬ Usable c 0 := by
  refine ⟨next (.unchoke []) (next .choke (next (.unchoke [])
    (next (.bitField [128]) justConnected))), ?_, rfl, rfl, ⟨by decide, ?_⟩, ?_⟩
  · exact .step (.step (.step (.step (.start fresh_justConnected) ⟨rfl, trivial⟩) ⟨rfl, trivial⟩)
      ⟨rfl, trivial⟩) ⟨rfl, trivial⟩
  · exact ⟨_, _, rfl, rfl, rfl⟩
  · rintro ⟨up, bitmap, ⟨⟩, hdecl, -⟩
    cases hdecl

end Mldonkey.BitTorrent.Announced
