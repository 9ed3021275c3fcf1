import Mathlib
import Mldonkey.Bencode.RoundTrip

-- The ut_metadata messages, from which the torrent of a magnet link is put together.
namespace Mldonkey.BitTorrent.Metadata

open Bencode

-- The fields of the dummy download that the messages change, and the urls of its trackers.
structure File where
  metadataSize : Int64
  metadataPiece : Int64
  metadataChunks : List Bytes
  trackers : List Bytes

-- What a message leads to: an exception, a request for the next piece, or the download of a
-- torrent file.
inductive Action
  | ignored
  | raised
  | request (piece : Int64)
  | start (torrent : Bytes)

-- Str.search_forward for "ee", from the start.
def searchForward : Bytes → Option ℕ
  | a :: b :: s =>
    if a = chr 'e' ∧ b = chr 'e' then some 0 else (searchForward (b :: s)).map (· + 1)
  | _ => none

-- The loop over the chunks ends with the first in which nothing is found.
def writeChunks : List Bytes → Bytes
  | [] => []
  | chunk :: chunks =>
    match searchForward chunk with
    | some k => chunk.drop (k + 2) ++ writeChunks chunks
    | none => []

-- The dictionary of the trackers without its last e. None stands for the exception of List.hd.
def annString : List Bytes → Option Bytes
  | [] => none
  | url :: urls =>
    let beAnnTrack := encode true (.dictionary
      [(ofString "announce", .string url),
        (ofString "announce-list", .list ((url :: urls).map fun url => .list [.string url]))])
    some (beAnnTrack.take (beAnnTrack.length - 1))

def File.setChunk (file : File) (i : ℤ) (chunk : Bytes) : Option File :=
  if 0 ≤ i ∧ i < file.metadataChunks.length then
    some { file with metadataChunks := file.metadataChunks.set i.toNat chunk }
  else none

def torrentPrefix (ann : Bytes) : Bytes := ann ++ ofString "4:info"

-- A message with data.
def handleData (file : File) (payload : Bytes) : File × Action :=
  let lastPieceIndex := file.metadataSize.toInt.tdiv 16384
  match annString file.trackers with
  | none => (file, .raised)
  | some ann =>
    match file.setChunk (1 + file.metadataPiece.toInt) payload with
    | none => (file, .raised)
    | some file =>
      if lastPieceIndex ≤ file.metadataPiece.toInt then
        match file.setChunk 0 (ofString "ee" ++ torrentPrefix ann) with
        | none => (file, .raised)
        | some file =>
          match file.setChunk (2 + lastPieceIndex) (ofString "eee") with
          | none => (file, .raised)
          | some file => (file, .start (writeChunks file.metadataChunks))
      else (file, .request (file.metadataPiece + 1))

def readEntry (st : File × Int64) : Bytes × Value → File × Int64
  | (key, .int n) =>
    if key = ofString "msg_type" then (st.1, n)
    else if key = ofString "piece" then ({ st.1 with metadataPiece := n }, st.2)
    else st
  | _ => st

-- An Extended message for ut_metadata.
def utMetadata (ofFloat : Bytes → Option Int64) (file : File) (payload : Bytes) :
    File × Action :=
  match decode ofFloat payload with
  | .error _ => (file, .raised)
  | .ok (.dictionary list) =>
    let st := list.foldl readEntry (file, 0)
    if st.2 = 1 then handleData st.1 payload else (st.1, .ignored)
  | .ok _ => (file, .ignored)

-- The messages until a torrent is started: whether one of them raised, and the torrent.
def run (ofFloat : Bytes → Option Int64) : File → List Bytes → Bool × Option Bytes
  | _, [] => (false, none)
  | file, payload :: payloads =>
    match utMetadata ofFloat file payload with
    | (_, .start torrent) => (false, some torrent)
    | (file, .raised) => (true, (run ofFloat file payloads).2)
    | (file, _) => run ofFloat file payloads

-- new_file, once the size of the metadata is known.
def newFile (size : ℕ) (trackers : List Bytes) : File where
  metadataSize := .ofNat size
  metadataPiece := 0
  metadataChunks := List.replicate 20 []
  trackers := trackers

def pieceSize : ℕ := 16384

def piece (metadata : Bytes) (i : ℕ) : Bytes := (metadata.drop (pieceSize * i)).take pieceSize

def header (size i : ℕ) : Value :=
  .dictionary [(ofString "msg_type", .int 1), (ofString "piece", .int (.ofNat i)),
    (ofString "total_size", .int (.ofNat size))]

-- The message in which an honest peer sends a piece.
def payload (metadata : Bytes) (i : ℕ) : Bytes :=
  encode false (header metadata.length i) ++ piece metadata i

def pieces (metadata : Bytes) : ℕ := (metadata.length + pieceSize - 1) / pieceSize

variable (ofFloat : Bytes → Option Int64) {metadata : Bytes} {i : ℕ}

theorem decode_payload :
    decode ofFloat (payload metadata i) = .ok (header metadata.length i) := by
  have h := decodeFrom_encode ofFloat (header metadata.length i) (2 * (payload metadata i).length)
    (piece metadata i) (by simp [payload])
  rw [decode, payload] at *
  rw [h]
  rfl

theorem utMetadata_payload (file : File) :
    utMetadata ofFloat file (payload metadata i) =
      handleData { file with metadataPiece := .ofNat i } (payload metadata i) := by
  have h1 : ofString "piece" ≠ ofString "msg_type" := by decide
  have h2 : ofString "total_size" ≠ ofString "msg_type" := by decide
  have h3 : ofString "total_size" ≠ ofString "piece" := by decide
  rw [utMetadata, decode_payload, header]
  simp [readEntry, h1, h2, h3]

-- Two letters e in a row.
def NoEe (s : Bytes) : Prop := s.IsChain fun a b => ¬ (a = chr 'e' ∧ b = chr 'e')

theorem searchForward_append {s r : Bytes} (h : NoEe (s ++ [chr 'e'])) :
    searchForward (s ++ chr 'e' :: chr 'e' :: r) = some s.length := by
  induction s with
  | nil => simp [searchForward]
  | cons a s ih =>
    rw [List.cons_append, NoEe, List.isChain_cons] at h
    have ih := ih h.2
    cases s with
    | nil =>
      have ha : ¬ (a = chr 'e' ∧ chr 'e' = chr 'e') := h.1 _ (by simp)
      rw [List.cons_append, List.nil_append, searchForward, if_neg ha]
      simp [searchForward]
    | cons b s =>
      have ha : ¬ (a = chr 'e' ∧ b = chr 'e') := h.1 _ (by simp)
      rw [List.cons_append, List.cons_append, searchForward, if_neg ha,
        ← List.cons_append, ih]
      rfl

theorem noEe_of_ne {s : Bytes} (h : ∀ c ∈ s, c ≠ chr 'e') : NoEe s := by
  induction s with
  | nil => exact List.isChain_nil
  | cons a s ih =>
    refine List.isChain_cons.mpr ⟨fun b _ hab => h a List.mem_cons_self hab.1, ?_⟩
    exact ih fun c hc => h c (List.mem_cons_of_mem a hc)

theorem NoEe.append {s t : Bytes} (hs : NoEe s) (ht : NoEe t) (h : s.getLast? ≠ some (chr 'e') ∨
    t.head? ≠ some (chr 'e')) : NoEe (s ++ t) := by
  refine List.isChain_append.mpr ⟨hs, ht, fun a ha b hb hab => ?_⟩
  cases h with
  | inl h =>
    rw [hab.1] at ha
    exact h ha
  | inr h =>
    rw [hab.2] at hb
    exact h hb

theorem getLast_printInt (n : Int64) : (printInt n).getLast? ≠ some (chr 'e') := fun h =>
  ne_e_of_mem_printInt (List.mem_of_getLast? h) rfl

-- The dictionary of a message up to its last two letters
def headerBody (size i : ℕ) : Bytes :=
  ofString "d8:msg_typei1e5:piecei" ++ printInt (.ofNat i) ++
    (ofString "e10:total_sizei" ++ printInt (.ofNat size))

theorem encode_header (size i : ℕ) :
    encode false (header size i) = headerBody size i ++ [chr 'e', chr 'e'] := by
  have h1 : chr 'd' :: (encodeString (ofString "msg_type") ++ (chr 'i' ::
      (printInt 1 ++ [chr 'e'])) ++ (encodeString (ofString "piece") ++ [chr 'i'])) =
      ofString "d8:msg_typei1e5:piecei" := by decide
  have h2 : chr 'e' :: (encodeString (ofString "total_size") ++ [chr 'i']) =
      ofString "e10:total_sizei" := by decide
  rw [headerBody, ← h1, ← h2]
  simp [header, encode, encodeEntries]

theorem noEe_headerBody (size i : ℕ) : NoEe (headerBody size i ++ [chr 'e']) := by
  have hi : NoEe (printInt (.ofNat i)) := noEe_of_ne fun c hc => ne_e_of_mem_printInt hc
  have hsize : NoEe (printInt (.ofNat size)) := noEe_of_ne fun c hc => ne_e_of_mem_printInt hc
  have hA : NoEe (ofString "d8:msg_typei1e5:piecei") := by
    rw [NoEe]
    decide
  have hB : NoEe (ofString "e10:total_sizei") := by
    rw [NoEe]
    decide
  have hlast : NoEe (printInt (.ofNat size) ++ [chr 'e']) :=
    hsize.append (List.isChain_singleton _) (.inl (getLast_printInt _))
  have hBend : (ofString "e10:total_sizei").getLast? ≠ some (chr 'e') := by decide
  have hAend : (ofString "d8:msg_typei1e5:piecei").getLast? ≠ some (chr 'e') := by
    decide
  have hmiddle : NoEe (printInt (.ofNat i) ++
      (ofString "e10:total_sizei" ++ (printInt (.ofNat size) ++ [chr 'e']))) :=
    hi.append (hB.append hlast (.inl hBend)) (.inl (getLast_printInt _))
  have hall := hA.append hmiddle (.inl hAend)
  simpa [headerBody] using hall

-- In an honest message the search finds the end of the dictionary, and the piece follows.
theorem searchForward_payload (metadata : Bytes) (i : ℕ) :
    ∃ k, searchForward (payload metadata i) = some k ∧
      (payload metadata i).drop (k + 2) = piece metadata i := by
  have hsplit : payload metadata i =
      headerBody metadata.length i ++ chr 'e' :: chr 'e' :: piece metadata i := by
    rw [payload, encode_header]
    simp
  refine ⟨(headerBody metadata.length i).length, ?_, ?_⟩
  · rw [hsplit, searchForward_append (noEe_headerBody _ _)]
  · rw [hsplit]
    simp [List.drop_append]

theorem writeChunks_payload (is : List ℕ) (chunks : List Bytes) :
    writeChunks (is.map (payload metadata) ++ chunks) =
      (is.map (piece metadata)).flatten ++ writeChunks chunks := by
  induction is with
  | nil => rfl
  | cons i is ih =>
    obtain ⟨k, hk, hdrop⟩ := searchForward_payload metadata i
    rw [List.map_cons, List.cons_append, writeChunks, hk]
    simp only [hdrop, ih, List.map_cons, List.flatten_cons, List.append_assoc]

-- The first k pieces are the first k times 16384 bytes.
theorem flatten_pieces (k : ℕ) :
    ((List.range k).map (piece metadata)).flatten = metadata.take (pieceSize * k) := by
  induction k with
  | zero => simp
  | succ k ih =>
    rw [List.range_succ, List.map_append, List.flatten_append, ih]
    simp only [List.map_cons, List.map_nil, List.flatten_cons, List.flatten_nil, List.append_nil]
    rw [piece, Nat.mul_succ, List.take_add]

-- The chunks of a file after the honest pieces in l arrived.
structure Arrived (metadata : Bytes) (trackers : List Bytes) (file : File) (l : List ℕ) :
    Prop where
  size : file.metadataSize = .ofNat metadata.length
  trackers : file.trackers = trackers
  length : file.metadataChunks.length = 20
  chunks : ∀ j, file.metadataChunks.getD j [] =
    if j ≠ 0 ∧ j - 1 ∈ l then payload metadata (j - 1) else []

theorem arrived_newFile (metadata : Bytes) (trackers : List Bytes) :
    Arrived metadata trackers (newFile metadata.length trackers) [] where
  size := rfl
  trackers := rfl
  length := List.length_replicate
  chunks j := by
    simp only [newFile, List.not_mem_nil, and_false, if_false]
    rw [List.getD_eq_getElem?_getD, List.getElem?_replicate]
    split <;> rfl

theorem setChunk_eq {file : File} {j : ℕ} (hj : j < file.metadataChunks.length) (chunk : Bytes) :
    file.setChunk j chunk =
      some { file with metadataChunks := file.metadataChunks.set j chunk } := by
  rw [File.setChunk, if_pos ⟨by omega, by omega⟩]
  rfl

theorem handleData_request {file file1 : File} {ann payload : Bytes}
    (hann : annString file.trackers = some ann)
    (hset : file.setChunk (1 + file.metadataPiece.toInt) payload = some file1)
    (hlt : ¬ file.metadataSize.toInt.tdiv 16384 ≤ file1.metadataPiece.toInt) :
    handleData file payload = (file1, .request (file1.metadataPiece + 1)) := by
  simp only [handleData, hann, hset, if_neg hlt]

theorem handleData_start {file file3 : File} (file1 file2 : File) {ann payload : Bytes}
    (hann : annString file.trackers = some ann)
    (hset : file.setChunk (1 + file.metadataPiece.toInt) payload = some file1)
    (hle : file.metadataSize.toInt.tdiv 16384 ≤ file1.metadataPiece.toInt)
    (h2 : file1.setChunk 0 (ofString "ee" ++ torrentPrefix ann) = some file2)
    (h3 : file2.setChunk (2 + file.metadataSize.toInt.tdiv 16384) (ofString "eee") =
      some file3) :
    handleData file payload = (file3, .start (writeChunks file3.metadataChunks)) := by
  simp only [handleData, hann, hset, if_pos hle, h2, h3]

section Honest

variable {trackers : List Bytes} {ann : Bytes} {l : List ℕ} {file : File}
  (hann : annString trackers = some ann) (hsize : metadata.length < 18 * pieceSize)

include hsize

theorem toInt_size : (Int64.ofNat metadata.length).toInt = metadata.length := by
  rw [Int64.toInt_ofNat_of_lt]
  simp only [pieceSize] at hsize
  omega

theorem last_eq : (Int64.ofNat metadata.length).toInt.tdiv 16384 =
    ((metadata.length / pieceSize : ℕ) : ℤ) := by
  rw [toInt_size hsize, Int.tdiv_eq_ediv_of_nonneg (by omega), pieceSize]
  omega

include hann

-- A piece that is not the last is stored, and the next one is asked for.
theorem Arrived.step (h : Arrived metadata trackers file l)
    (hi : i < metadata.length / pieceSize) :
    ∃ file' next, utMetadata ofFloat file (payload metadata i) = (file', .request next) ∧
      Arrived metadata trackers file' (i :: l) := by
  have hi18 : i < 18 := by
    simp only [pieceSize] at hi hsize
    omega
  have hpiece : (Int64.ofNat i).toInt = i := Int64.toInt_ofNat_of_lt (by omega)
  have hset : File.setChunk { file with metadataPiece := .ofNat i }
      (1 + (Int64.ofNat i).toInt) (payload metadata i) = some { file with
        metadataPiece := .ofNat i
        metadataChunks := file.metadataChunks.set (i + 1) (payload metadata i) } := by
    rw [hpiece, show 1 + (i : ℤ) = ((i + 1 : ℕ) : ℤ) by omega]
    exact setChunk_eq (by simp [h.length]; omega) (payload metadata i)
  refine ⟨{ file with
    metadataPiece := .ofNat i
    metadataChunks := file.metadataChunks.set (i + 1) (payload metadata i) },
    .ofNat i + 1, ?_, ?_⟩
  · rw [utMetadata_payload]
    refine handleData_request (h.trackers.symm ▸ hann) hset ?_
    rw [h.size, last_eq hsize, hpiece]
    omega
  · refine ⟨h.size, h.trackers, by simp [h.length], fun j => ?_⟩
    by_cases hj : j = i + 1
    · subst hj
      simp [List.getD_eq_getElem?_getD, h.length, show i + 1 < 20 by omega]
    · have hmem : j ≠ 0 ∧ j - 1 ∈ i :: l ↔ j ≠ 0 ∧ j - 1 ∈ l := by
        refine and_congr_right fun h0 => ?_
        rw [List.mem_cons, or_iff_right (by omega)]
      rw [if_congr hmem rfl rfl, ← h.chunks j]
      simp [List.getD_eq_getElem?_getD, List.getElem?_set_ne (Ne.symm hj)]

theorem Arrived.run (h : Arrived metadata trackers file l) (order : List ℕ)
    (ho : ∀ i ∈ order, i < metadata.length / pieceSize) (rest : List Bytes) :
    ∃ file', run ofFloat file (order.map (payload metadata) ++ rest) = run ofFloat file' rest ∧
      Arrived metadata trackers file' (order.reverse ++ l) := by
  induction order generalizing file l with
  | nil => exact ⟨file, rfl, h⟩
  | cons i order ih =>
    obtain ⟨hi, ho⟩ := List.forall_mem_cons.mp ho
    obtain ⟨file1, next, heq, h1⟩ := h.step ofFloat hann hsize hi
    obtain ⟨file', hrun, h'⟩ := ih h1 ho
    refine ⟨file', ?_, by simpa using h'⟩
    rw [List.map_cons, List.cons_append, Metadata.run, heq]
    exact hrun

-- The place of each chunk when the last piece has come after all others
def chunkAt (metadata ann : Bytes) (k j : ℕ) : Bytes :=
  if j = 0 then ofString "ee" ++ torrentPrefix ann
  else if j = k + 2 then ofString "eee"
  else if j ≤ k + 1 then payload metadata (j - 1)
  else []

omit hsize hann in
theorem writeChunks_chunkAt {k : ℕ} (hk : k < 18) :
    writeChunks ((List.range 20).map (chunkAt metadata ann k)) =
      torrentPrefix ann ++ (metadata.take (pieceSize * (k + 1)) ++ ofString "e") := by
  have hsplit : ∀ k < 18, List.range 20 =
      0 :: ((List.range (k + 1)).map (1 + ·) ++
        (k + 2) :: (List.range (17 - k)).map (k + 3 + ·)) := by decide
  have hpayloads : ((List.range (k + 1)).map (1 + ·)).map (chunkAt metadata ann k) =
      (List.range (k + 1)).map (payload metadata) := by
    rw [List.map_map]
    refine List.map_congr_left fun j hj => ?_
    have := List.mem_range.mp hj
    rw [Function.comp_apply, chunkAt, if_neg (by omega), if_neg (by omega), if_pos (by omega)]
    congr 1
    omega
  have hempty : ((List.range (17 - k)).map (k + 3 + ·)).map (chunkAt metadata ann k) =
      List.replicate (17 - k) [] := by
    rw [List.map_map, List.eq_replicate_iff]
    refine ⟨by simp, fun b hb => ?_⟩
    obtain ⟨j, -, rfl⟩ := List.mem_map.mp hb
    rw [Function.comp_apply, chunkAt, if_neg (by omega), if_neg (by omega), if_neg (by omega)]
  have hend (n : ℕ) : writeChunks (List.replicate n []) = [] := by
    cases n <;> rfl
  have h0 : chunkAt metadata ann k 0 = ofString "ee" ++ torrentPrefix ann := by simp [chunkAt]
  have hlast : chunkAt metadata ann k (k + 2) = ofString "eee" := by simp [chunkAt]
  rw [hsplit k hk, List.map_cons, List.map_append, List.map_cons, hpayloads, hempty, h0, hlast,
    writeChunks]
  have hee : searchForward (ofString "ee" ++ torrentPrefix ann) = some 0 := rfl
  have heee : searchForward (ofString "eee") = some 0 := rfl
  rw [hee]
  simp only [writeChunks_payload, flatten_pieces, writeChunks, heee, hend, List.append_nil]
  rfl

-- The place of each chunk when the last piece has come and those in l before
def chunkOf (metadata ann : Bytes) (l : List ℕ) (k j : ℕ) : Bytes :=
  if j = 0 then ofString "ee" ++ torrentPrefix ann
  else if j = k + 2 then ofString "eee"
  else if j = k + 1 ∨ j - 1 ∈ l then payload metadata (j - 1)
  else []

-- The last piece starts a torrent, whatever has arrived before.
theorem Arrived.start (h : Arrived metadata trackers file l) :
    ∃ file', utMetadata ofFloat file (payload metadata (metadata.length / pieceSize)) =
      (file', .start (writeChunks ((List.range 20).map
        (chunkOf metadata ann l (metadata.length / pieceSize))))) := by
  have hk : metadata.length / pieceSize < 18 := by
    simp only [pieceSize] at hsize ⊢
    omega
  have hpiece : (Int64.ofNat (metadata.length / pieceSize)).toInt =
      ((metadata.length / pieceSize : ℕ) : ℤ) := Int64.toInt_ofNat_of_lt (by omega)
  generalize hkk : metadata.length / pieceSize = k at *
  let chunks1 := file.metadataChunks.set (k + 1) (payload metadata k)
  let chunks2 := chunks1.set 0 (ofString "ee" ++ torrentPrefix ann)
  let chunks3 := chunks2.set (k + 2) (ofString "eee")
  have hchunks : chunks3 = (List.range 20).map (chunkOf metadata ann l k) := by
    refine List.ext_getElem (by simp [chunks3, chunks2, chunks1, h.length]) fun j hj _ => ?_
    have hj20 : j < file.metadataChunks.length := by simpa [chunks3, chunks2, chunks1] using hj
    have hold := h.chunks j
    rw [List.getD_eq_getElem _ _ hj20] at hold
    simp only [chunks3, chunks2, chunks1, List.getElem_set, List.getElem_map, List.getElem_range,
      hold, chunkOf]
    by_cases h0 : j = 0
    · simp [h0]
    · by_cases h2 : j = k + 2
      · simp [h2]
      · by_cases h1 : j = k + 1
        · simp [h1]
        · simp [h0, h2, h1, Ne.symm h0, Ne.symm h2, Ne.symm h1]
  refine ⟨{ file with metadataPiece := .ofNat k, metadataChunks := chunks3 }, ?_⟩
  rw [utMetadata_payload, ← hchunks]
  have hlast : file.metadataSize.toInt.tdiv 16384 = (k : ℤ) := by
    rw [h.size, last_eq hsize, hkk]
  refine handleData_start
    { file with
      metadataPiece := .ofNat k
      metadataChunks := chunks1 }
    { file with
      metadataPiece := .ofNat k
      metadataChunks := chunks2 } (h.trackers.symm ▸ hann) ?_ ?_ ?_ ?_
  · rw [hpiece, show 1 + (k : ℤ) = ((k + 1 : ℕ) : ℤ) by omega]
    exact setChunk_eq (by simp [h.length]; omega) _
  · rw [hlast, hpiece]
  · exact setChunk_eq (j := 0) (by simp [chunks1, h.length]) _
  · rw [hlast, show 2 + (k : ℤ) = ((k + 2 : ℕ) : ℤ) by omega]
    exact setChunk_eq (by simp [chunks2, chunks1, h.length]; omega) _

-- The last piece, once all others have arrived, starts the torrent of the metadata.
theorem Arrived.last (h : Arrived metadata trackers file l)
    (hl : ∀ i, i ∈ l ↔ i < metadata.length / pieceSize) :
    ∃ file', utMetadata ofFloat file (payload metadata (metadata.length / pieceSize)) =
      (file', .start (torrentPrefix ann ++ (metadata ++ ofString "e"))) := by
  have hk : metadata.length / pieceSize < 18 := by
    simp only [pieceSize] at hsize ⊢
    omega
  have htake : metadata.take (pieceSize * (metadata.length / pieceSize + 1)) = metadata := by
    apply List.take_of_length_le
    simp only [pieceSize]
    omega
  have hchunks : (List.range 20).map (chunkOf metadata ann l (metadata.length / pieceSize)) =
      (List.range 20).map (chunkAt metadata ann (metadata.length / pieceSize)) := by
    refine List.map_congr_left fun j _ => ?_
    rw [chunkOf, chunkAt]
    by_cases h0 : j = 0
    · simp [h0]
    · have hle : j = metadata.length / pieceSize + 1 ∨ j - 1 ∈ l ↔
          j ≤ metadata.length / pieceSize + 1 := by
        rw [hl]
        omega
      simp only [h0, if_false, if_congr hle rfl rfl]
  obtain ⟨file', hstart⟩ := h.start ofFloat hann hsize
  refine ⟨file', ?_⟩
  rw [hstart, hchunks, writeChunks_chunkAt hk, htake]

end Honest

-- Where a piece is missing the file ends before it.
theorem writeChunks_missing {ann : Bytes} {l : List ℕ} {k m : ℕ} (hk : k < 18) (hmk : m < k)
    (hl : ∀ i < m, i ∈ l) (hm : m ∉ l) :
    writeChunks ((List.range 20).map (chunkOf metadata ann l k)) =
      torrentPrefix ann ++ metadata.take (pieceSize * m) := by
  have hsplit : ∀ m < 18, List.range 20 =
      0 :: ((List.range m).map (1 + ·) ++
        (m + 1) :: (List.range (18 - m)).map (m + 2 + ·)) := by decide
  have hpayloads : ((List.range m).map (1 + ·)).map (chunkOf metadata ann l k) =
      (List.range m).map (payload metadata) := by
    rw [List.map_map]
    refine List.map_congr_left fun j hj => ?_
    have hjm := List.mem_range.mp hj
    have hj1 : 1 + j - 1 = j := by omega
    rw [Function.comp_apply, chunkOf, if_neg (by omega), if_neg (by omega), hj1,
      if_pos (.inr (hl j hjm))]
  have h0 : chunkOf metadata ann l k 0 = ofString "ee" ++ torrentPrefix ann := by simp [chunkOf]
  have hempty : chunkOf metadata ann l k (m + 1) = [] := by
    rw [chunkOf, if_neg (by omega), if_neg (by omega), if_neg]
    rintro (h | h)
    · omega
    · exact hm h
  have hee : searchForward (ofString "ee" ++ torrentPrefix ann) = some 0 := rfl
  have hnil : searchForward [] = none := rfl
  rw [hsplit m (by omega), List.map_cons, List.map_append, List.map_cons, hpayloads, hempty, h0,
    writeChunks, hee]
  simp only [writeChunks_payload, flatten_pieces, writeChunks, hnil, List.append_nil]
  rfl

-- A file of this size of metadata, whatever its chunks are.
structure Sized (metadata : Bytes) (file : File) : Prop where
  size : file.metadataSize = .ofNat metadata.length
  length : file.metadataChunks.length = 20

theorem Sized.setChunk {file file' : File} (h : Sized metadata file) {j : ℤ} {chunk : Bytes}
    (hset : file.setChunk j chunk = some file') :
    Sized metadata file' ∧ file'.metadataPiece = file.metadataPiece ∧ j < 20 := by
  rw [File.setChunk] at hset
  split_ifs at hset with hj
  obtain rfl := Option.some_inj.mp hset
  refine ⟨⟨h.size, by simp [h.length]⟩, rfl, ?_⟩
  have := hj.2
  rw [h.length] at this
  exact this

-- A message starts a torrent only where the piece has the number of the last one, and there is
-- room for it.
theorem Sized.message {file : File} (h : Sized metadata file) (hlen : metadata.length < 2 ^ 63)
    (hi : i < 2 ^ 63) :
    Sized metadata (utMetadata ofFloat file (payload metadata i)).1 ∧
      ∀ t, (utMetadata ofFloat file (payload metadata i)).2 = .start t →
        metadata.length / pieceSize ≤ i ∧ metadata.length / pieceSize < 18 := by
  have hsize : (Int64.ofNat metadata.length).toInt.tdiv 16384 =
      ((metadata.length / pieceSize : ℕ) : ℤ) := by
    rw [Int64.toInt_ofNat_of_lt hlen, Int.tdiv_eq_ediv_of_nonneg (by omega), pieceSize]
    omega
  have hpiece : (Int64.ofNat i).toInt = i := Int64.toInt_ofNat_of_lt hi
  have h' : Sized metadata { file with metadataPiece := .ofNat i } := ⟨h.size, h.length⟩
  rw [utMetadata_payload, handleData]
  dsimp only
  cases annString file.trackers with
  | none => exact ⟨h', by simp⟩
  | some ann =>
    dsimp only
    cases h1 : File.setChunk { file with metadataPiece := .ofNat i } (1 + (Int64.ofNat i).toInt)
        (payload metadata i) with
    | none => exact ⟨h', by simp⟩
    | some file1 =>
      obtain ⟨hs1, hp1, -⟩ := h'.setChunk h1
      dsimp only
      rw [h.size, hsize, hp1]
      dsimp only
      rw [hpiece]
      split_ifs with hle
      · cases h2 : file1.setChunk 0 (ofString "ee" ++ torrentPrefix ann) with
        | none => exact ⟨hs1, by simp⟩
        | some file2 =>
          obtain ⟨hs2, -, -⟩ := hs1.setChunk h2
          dsimp only
          cases h3 : file2.setChunk (2 + ((metadata.length / pieceSize : ℕ) : ℤ))
              (ofString "eee") with
          | none => exact ⟨hs2, by simp⟩
          | some file3 =>
            obtain ⟨hs3, -, hlt⟩ := hs2.setChunk h3
            exact ⟨hs3, fun _ _ => ⟨by omega, by omega⟩⟩
      · exact ⟨hs1, by simp⟩

-- Without such a message nothing is started.
theorem Sized.run {file : File} (h : Sized metadata file) (hlen : metadata.length < 2 ^ 63)
    {order : List ℕ} (ho : ∀ i ∈ order, i < 2 ^ 63 ∧
      ¬ (metadata.length / pieceSize ≤ i ∧ metadata.length / pieceSize < 18)) :
    (run ofFloat file (order.map (payload metadata))).2 = none := by
  induction order generalizing file with
  | nil => rfl
  | cons i order ih =>
    obtain ⟨⟨hi, hno⟩, ho⟩ := List.forall_mem_cons.mp ho
    obtain ⟨hs, hstart⟩ := h.message ofFloat hlen hi
    rw [List.map_cons, Metadata.run]
    cases hm : utMetadata ofFloat file (payload metadata i) with
    | mk file' action =>
      rw [hm] at hs hstart
      cases action with
      | start t => exact absurd (hstart t rfl) hno
      | ignored => exact ih hs ho
      | raised => exact ih hs ho
      | request next => exact ih hs ho

-- The run of a peer that sends the pieces of some metadata, the last one at the end.
theorem run_assembled (metadata : Bytes) {trackers : List Bytes} {ann : Bytes}
    (hann : annString trackers = some ann)
    (hsize : metadata.length < 18 * pieceSize) (order : List ℕ)
    (ho : ∀ i, i ∈ order ↔ i < metadata.length / pieceSize) :
    run ofFloat (newFile metadata.length trackers)
      ((order ++ [metadata.length / pieceSize]).map (payload metadata)) =
        (false, some (torrentPrefix ann ++ (metadata ++ ofString "e"))) := by
  obtain ⟨file, hrun, harrived⟩ := (arrived_newFile metadata trackers).run
    ofFloat hann hsize order (fun i hi => (ho i).mp hi)
    [payload metadata (metadata.length / pieceSize)]
  obtain ⟨file', hlast⟩ := harrived.last ofFloat hann hsize (by simpa using ho)
  rw [List.map_append, List.map_singleton, hrun, run, hlast]

-- A last piece that comes before another one starts a torrent without the pieces from that on.
theorem run_early {trackers : List Bytes} {ann : Bytes} (hann : annString trackers = some ann)
    (hsize : metadata.length < 18 * pieceSize) {order : List ℕ} {m : ℕ}
    (ho : ∀ i ∈ order, i < metadata.length / pieceSize) (hm : m < metadata.length / pieceSize)
    (hmiss : m ∉ order) (rest : List Bytes) :
    ∃ n < metadata.length, run ofFloat (newFile metadata.length trackers)
      (order.map (payload metadata) ++
        payload metadata (metadata.length / pieceSize) :: rest) =
          (false, some (torrentPrefix ann ++ metadata.take n)) := by
  obtain ⟨file, hrun, harrived⟩ := (arrived_newFile metadata trackers).run
    ofFloat hann hsize order ho
    (payload metadata (metadata.length / pieceSize) :: rest)
  obtain ⟨file', hstart⟩ := harrived.start ofFloat hann hsize
  have hex : ∃ i, i ∉ order := ⟨m, hmiss⟩
  have hfirst := Nat.find_min' hex hmiss
  have hbefore (i : ℕ) (hi : i < Nat.find hex) : i ∈ order.reverse ++ [] := by
    have := Nat.find_min hex hi
    simpa using this
  have hnot : Nat.find hex ∉ order.reverse ++ [] := by
    have := Nat.find_spec hex
    simpa using this
  have hk : metadata.length / pieceSize < 18 := by
    simp only [pieceSize] at hsize ⊢
    omega
  refine ⟨pieceSize * Nat.find hex, ?_, ?_⟩
  · have : Nat.find hex < metadata.length / pieceSize := by omega
    simp only [pieceSize] at this ⊢
    omega
  · rw [hrun, run, hstart, writeChunks_missing hk (by omega) hbefore hnot]

-- A peer that sends the pieces of some metadata, each once, gives the torrent of the metadata
-- exactly where there is a tracker, the size is no multiple of 16384 and below 18 times that, and
-- the last piece comes last.
theorem metadata_assembled_iff (ofFloat : Bytes → Option Int64) (trackers : List Bytes)
    (metadata : Bytes) (hlen : metadata.length < 2 ^ 63) (order : List ℕ)
    (hperm : order.Perm (List.range (pieces metadata))) :
    (∃ ann, annString trackers = some ann ∧
      run ofFloat (newFile metadata.length trackers) (order.map (payload metadata)) =
        (false, some (torrentPrefix ann ++ (metadata ++ ofString "e")))) ↔
      trackers ≠ [] ∧ ¬ pieceSize ∣ metadata.length ∧ metadata.length < 18 * pieceSize ∧
        order.getLast? = some (metadata.length / pieceSize) := by
  have hmem (i : ℕ) : i ∈ order ↔ i < pieces metadata := by rw [hperm.mem_iff, List.mem_range]
  have hnodup : order.Nodup := hperm.nodup_iff.mpr List.nodup_range
  constructor
  · rintro ⟨ann, hann, hrun⟩
    have hne : trackers ≠ [] := by
      rintro rfl
      cases hann
    -- some piece has the number of the last one, and there is room for it
    have hstarts : ∃ i ∈ order, ¬ (i < 2 ^ 63 ∧
        ¬ (metadata.length / pieceSize ≤ i ∧ metadata.length / pieceSize < 18)) := by
      by_contra hno
      push Not at hno
      have hnone := Sized.run ofFloat
        (⟨rfl, List.length_replicate⟩ : Sized metadata (newFile metadata.length trackers)) hlen
        fun i hi => ⟨(hno i hi).1, fun h => absurd ((hno i hi).2 h.1) (by omega)⟩
      rw [hrun] at hnone
      cases hnone
    obtain ⟨i, hi, hlast⟩ := hstarts
    have hi' := (hmem i).mp hi
    have hsmall : i < 2 ^ 63 := by
      simp only [pieces, pieceSize] at hi'
      omega
    have hlast : metadata.length / pieceSize ≤ i ∧ metadata.length / pieceSize < 18 := by
      by_contra h
      exact hlast ⟨hsmall, h⟩
    have hdvd : ¬ pieceSize ∣ metadata.length := by
      rintro ⟨q, hq⟩
      simp only [pieces, pieceSize] at hi' hlast hq
      omega
    have hsize : metadata.length < 18 * pieceSize := by
      simp only [pieceSize] at hlast ⊢
      omega
    refine ⟨hne, hdvd, hsize, ?_⟩
    -- the pieces before and after the last one
    have hk : metadata.length / pieceSize ∈ order := by
      rw [hmem]
      simp only [pieces, pieceSize] at hi' hlast ⊢
      omega
    obtain ⟨before, after, rfl⟩ := List.append_of_mem hk
    cases after with
    | nil => simp
    | cons m after =>
      have hm : m ∈ before ++ metadata.length / pieceSize :: m :: after := by simp
      have hlt (j : ℕ) (hj : j ∈ before ++ metadata.length / pieceSize :: m :: after)
          (hne : j ≠ metadata.length / pieceSize) : j < metadata.length / pieceSize := by
        have := (hmem j).mp hj
        simp only [pieces, pieceSize] at this hne ⊢
        omega
      rw [List.nodup_append] at hnodup
      have hmk : m ≠ metadata.length / pieceSize := by
        rintro rfl
        simp at hnodup
      have hbefore : ∀ j ∈ before, j < metadata.length / pieceSize := fun j hj =>
        hlt j (by simp [hj]) fun h => hnodup.2.2 j hj _ List.mem_cons_self h
      have hmiss : m ∉ before := fun h => hnodup.2.2 m h m (by simp) rfl
      obtain ⟨n, hn, hearly⟩ := run_early ofFloat hann hsize hbefore (hlt m hm hmk)
        hmiss ((m :: after).map (payload metadata))
      rw [List.map_append, List.map_cons, hearly] at hrun
      have hcut := congrArg List.length (Option.some_inj.mp (congrArg Prod.snd hrun))
      simp at hcut
      omega
  · rintro ⟨hne, hdvd, hsize, hlast⟩
    obtain ⟨url, urls, rfl⟩ := List.exists_cons_of_ne_nil hne
    refine ⟨_, rfl, ?_⟩
    obtain ⟨before, rfl⟩ : ∃ before, order = before ++ [metadata.length / pieceSize] := by
      rw [List.getLast?_eq_some_iff] at hlast
      exact hlast
    refine run_assembled ofFloat metadata rfl hsize before fun i => ?_
    have hi := hmem i
    rw [List.nodup_append] at hnodup
    have hself : metadata.length / pieceSize ∉ before := fun h =>
      hnodup.2.2 _ h _ List.mem_cons_self rfl
    simp only [List.mem_append, List.mem_singleton] at hi
    have hpieces : pieces metadata = metadata.length / pieceSize + 1 := by
      have : ¬ metadata.length % pieceSize = 0 := fun h => hdvd (Nat.dvd_of_mod_eq_zero h)
      simp only [pieces, pieceSize] at this ⊢
      omega
    constructor
    · intro h
      have := hi.mp (.inl h)
      have : i ≠ metadata.length / pieceSize := fun e => hself (e ▸ h)
      omega
    · intro h
      exact (hi.mpr (by omega)).resolve_right (by omega)

-- Two whole pieces and a short one
def threePieces : Bytes := List.replicate 16384 1 ++ List.replicate 16384 2 ++ [3]

theorem length_threePieces : threePieces.length = 32769 := by
  rw [threePieces, List.length_append, List.length_append, List.length_replicate,
    List.length_replicate, List.length_singleton]

theorem metadata_assembled_threePieces :
    ∃ ann, annString [ofString "u", ofString "v"] = some ann ∧
      run (fun _ => none) (newFile threePieces.length [ofString "u", ofString "v"])
          ([1, 0, 2].map (payload threePieces)) =
        (false, some (torrentPrefix ann ++ (threePieces ++ ofString "e"))) := by
  refine (metadata_assembled_iff (fun _ => none) [ofString "u", ofString "v"] threePieces ?_
    [1, 0, 2] ?_).mpr ⟨by simp, ?_, ?_, ?_⟩
  all_goals simp only [pieces, pieceSize, length_threePieces]
  all_goals decide

-- Metadata of exactly 16384 bytes: its one piece is not taken for the last. And other metadata of
-- the same size starts its own torrent: the info-hash plays no part.
theorem metadata_not_assembled :
    run (fun _ => none) (newFile 16384 [ofString "u"]) [payload (List.replicate 16384 0) 0] =
        (false, none) ∧
      ∃ ann, run (fun _ => none) (newFile 1 [ofString "u"]) [payload [8] 0] =
        (false, some (torrentPrefix ann ++ ([8] ++ ofString "e"))) := by
  constructor
  · have h0 := arrived_newFile (List.replicate 16384 0) [ofString "u"]
    obtain ⟨file', next, heq, -⟩ := h0.step (i := 0) (fun _ => none)
      (show annString [ofString "u"] = some ((annString [ofString "u"]).getD []) from rfl)
      (by rw [List.length_replicate]; decide) (by rw [List.length_replicate]; decide)
    rw [List.length_replicate] at heq
    rw [run, heq]
    rfl
  · exact ⟨_, run_assembled _ [8] rfl (by decide) [] (by simp [pieceSize])⟩

end Mldonkey.BitTorrent.Metadata
