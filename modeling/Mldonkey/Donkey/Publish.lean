import Mldonkey.Donkey.ClientMessages
import Mldonkey.Donkey.TagLists
import Mldonkey.Lib.Runs

-- The files of a ShareReq: the records that fit in the buffer, behind their number.
namespace Mldonkey.Donkey

open BigEndian (bufInt8)
open LittleEndian

-- One file of write_files_max. None stands for the assertion that fails in buf_tag.
def bufFile (file : TaggedFile) : Option Bytes := do
  return file.md4.bytes ++ (bufIp file.ip ++
    (bufInt16 file.port ++ (← bufTags fileCommonTags file.tags)))

-- The buffer, the number of files and the length up to which the buffer is good. The file that
-- does not fit stays in the buffer behind that length.
def writeFilesMax (maxLen : Int) : Bytes → List TaggedFile → Nat → Option (Bytes × Nat × Nat)
  | buf, [], nfiles => some (buf, nfiles, buf.length)
  | buf, file :: files, nfiles => do
    let prevLen := buf.length
    let buf := buf ++ (← bufFile file)
    if buf.length < maxLen then writeFilesMax maxLen buf files (nfiles + 1)
    else some (buf, nfiles, prevLen)

-- server_send_share up to write_string, with what is left of the socket's buffer.
def serverSendShare (compress : Bytes → Bytes) (compressed : Bool) (maxLen : Int)
    (files : List TaggedFile) : Option Bytes := do
  let (buf, nfiles, prevLen) ← writeFilesMax maxLen (bufInt 0) files 0
  let s := bufInt64_32 nfiles ++ buf.drop 4
  let s ← sub s 0 prevLen
  let sc := if compressed then compress s else s
  let s :=
    if compressed ∧ sc.length < s.length then bufInt8 0xD4 ++ (bufInt 0 ++ (bufInt8 21 ++ sc))
    else bufInt8 227 ++ (bufInt 0 ++ (bufInt8 21 ++ s))
  return s.take 1 ++ (bufInt64_32 (s.length - 5) ++ s.drop 5)

def record (file : TaggedFile) : Bytes := (bufFile file).getD []

def records (files : List TaggedFile) : Bytes := (files.map record).flatten

-- The number of the files and their records.
def shareText (files : List TaggedFile) : Bytes := bufInt64_32 files.length ++ records files

def frame (opcode : Int) (payload : Bytes) : Bytes :=
  bufInt8 opcode ++ (bufInt64_32 (1 + payload.length) ++ (bufInt8 21 ++ payload))

-- A ShareReq of these files, as it is or compressed.
inductive Carries (compress : Bytes → Bytes) (files : List TaggedFile) : Bytes → Prop
  | plain : Carries compress files (frame 227 (shareText files))
  | zlib : Carries compress files (frame 0xD4 (compress (shareText files)))

variable {compress : Bytes → Bytes} {maxLen : Int} {files : List TaggedFile}

-- The files whose tags buf_tag can write.
def Writable (files : List TaggedFile) : Prop := ∀ f ∈ files, bufFile f = some (record f)

theorem getInt_shareText (h : files.length < 2 ^ 32) :
    getInt (shareText files) 0 = some (files.length : Int) := by
  have hdrop : (shareText files).drop 0 = bufInt64_32 files.length ++ records files := rfl
  exact getInt64_32_drop hdrop (by omega)

theorem records_take_length_le (files : List TaggedFile) (k : Nat) :
    (records (files.take k)).length ≤ (records files).length := by
  have h : records files = records (files.take k) ++ records (files.drop k) := by
    rw [records, records, records, ← List.flatten_append, ← List.map_append,
      List.take_append_drop]
  rw [h, List.length_append]
  omega

theorem writeFilesMax_cons {f : TaggedFile} {r : Bytes} (hf : bufFile f = some r) (buf : Bytes)
    (n : Nat) :
    writeFilesMax maxLen buf (f :: files) n =
      if ((buf ++ r).length : Int) < maxLen then writeFilesMax maxLen (buf ++ r) files (n + 1)
      else some (buf ++ r, n, buf.length) := by
  rw [writeFilesMax, hf]
  rfl

-- Where write_files_max stops: after k files, all that fit.
theorem writeFilesMax_eq (maxLen : Int) (hw : Writable files) (buf : Bytes) (n : Nat) :
    ∃ k ≤ files.length, ∃ rest,
      writeFilesMax maxLen buf files n =
        some (buf ++ records (files.take k) ++ rest, n + k,
          (buf ++ records (files.take k)).length) ∧
      (k = 0 ∨ ((buf ++ records (files.take k)).length : Int) < maxLen) ∧
      (k < files.length → maxLen ≤ (buf ++ records (files.take (k + 1))).length) := by
  induction files generalizing buf n with
  | nil => exact ⟨0, le_rfl, [], by simp [writeFilesMax, records], .inl rfl, by simp⟩
  | cons f files ih =>
    obtain ⟨hf, hw⟩ := List.forall_mem_cons.mp hw
    by_cases hfits : ((buf ++ record f).length : Int) < maxLen
    · obtain ⟨k, hk, rest, heq, hlt, hstop⟩ := ih hw (buf ++ record f) (n + 1)
      have hcons (j : Nat) : buf ++ records ((f :: files).take (j + 1)) =
          buf ++ record f ++ records (files.take j) := by
        simp [records]
      refine ⟨k + 1, Nat.succ_le_succ hk, rest, ?_, .inr ?_, fun hk => ?_⟩
      · rw [writeFilesMax_cons hf, if_pos hfits, hcons, heq, Nat.add_right_comm n 1 k]
        rfl
      · rw [hcons]
        cases hlt with
        | inl h0 => simpa [h0, records] using hfits
        | inr hlt => exact hlt
      · rw [hcons]
        exact hstop (Nat.lt_of_succ_lt_succ hk)
    · refine ⟨0, Nat.zero_le _, record f, ?_, .inl rfl, fun _ => ?_⟩
      · rw [writeFilesMax_cons hf, if_neg hfits]
        simp [records]
      · simpa [records] using hfits

-- What server_send_share writes: a prefix of the files that fits, the whole list where it fits.
theorem serverSendShare_eq (compress : Bytes → Bytes) (maxLen : Int) (hw : Writable files)
    (compressed : Bool) :
    ∃ packet sent, serverSendShare compress compressed maxLen files = some packet ∧
      Carries compress sent packet ∧ sent <+: files ∧
      (sent = [] ∨ ((shareText sent).length : Int) < maxLen) ∧
      (((shareText files).length : Int) < maxLen → sent = files) := by
  obtain ⟨k, hk, rest, heq, hlt, hstop⟩ := writeFilesMax_eq maxLen hw (bufInt 0) 0
  have hlen (l : List TaggedFile) : (bufInt 0 ++ records l).length = (shareText l).length := by
    simp [shareText]
  have htext : bufInt64_32 k ++ (bufInt 0 ++ records (files.take k) ++ rest).drop 4 =
      shareText (files.take k) ++ rest := by
    rw [shareText, List.length_take_of_le hk, List.append_assoc, List.append_assoc]
    rfl
  have hsub : sub (shareText (files.take k) ++ rest) 0 (shareText (files.take k)).length =
      some (shareText (files.take k)) := by
    simp [sub]
  have hpacket : ∃ packet, serverSendShare compress compressed maxLen files = some packet ∧
      Carries compress (files.take k) packet := by
    have hframe (op : Int) (p : Bytes) :
        (bufInt8 op ++ (bufInt 0 ++ (bufInt8 21 ++ p))).take 1 ++
          (bufInt64_32 (((bufInt8 op ++ (bufInt 0 ++ (bufInt8 21 ++ p))).length : Int) - 5) ++
            (bufInt8 op ++ (bufInt 0 ++ (bufInt8 21 ++ p))).drop 5) = frame op p := by
      have h : ((bufInt8 op ++ (bufInt 0 ++ (bufInt8 21 ++ p))).length : Int) - 5 =
          1 + p.length := by
        simp only [List.length_append, length_bufInt8, length_bufInt]
        omega
      rw [h]
      rfl
    simp only [serverSendShare, heq, hlen, Option.bind_eq_bind, Option.bind_some, Nat.zero_add,
      htext, hsub]
    by_cases hc : compressed = true ∧
        (compress (shareText (files.take k))).length < (shareText (files.take k)).length
    · rw [if_pos hc.1, if_pos hc]
      exact ⟨_, congrArg some (hframe 0xD4 _), .zlib⟩
    · refine ⟨_, congrArg some ?_, .plain⟩
      rw [← hframe 227 (shareText (files.take k)), if_neg]
      intro h
      rw [if_pos h.1] at h
      exact hc h
  obtain ⟨packet, hpacket, hcarries⟩ := hpacket
  refine ⟨packet, files.take k, hpacket, hcarries, List.take_prefix k files, ?_, fun hall => ?_⟩
  · cases hlt with
    | inl h0 => exact .inl (by simp [h0])
    | inr hlt => exact .inr (by rwa [hlen] at hlt)
  · by_cases hkl : k < files.length
    · have hle := hstop hkl
      have := records_take_length_le files (k + 1)
      simp only [shareText, List.length_append, length_bufInt64_32, length_bufInt] at hle hall
      omega
    · exact List.take_of_length_le (by omega)

end Mldonkey.Donkey

-- The files recorded as published on the servers of the network.
namespace Mldonkey.Donkey.Publish


-- The streams of an Ogg file, in the order in which the source compares them.
inductive OggStream
  | index
  | text
  | audio
  | vorbis
  | theora
  | video
  deriving DecidableEq

-- `unknown` also stands for a format that was not computed.
inductive Format
  | unknown
  | avi
  | mp3
  | ogg (streams : List OggStream)
  | type (format kind : Bytes)

-- `shared` holds the servers on which the file is recorded, none where it is not shared.
structure SharedFile (S : Type) where
  bestName : Bytes
  size : Int
  format : Format
  isShared : Bool
  shared : Option (List S)

-- A connected socket, with the number of bytes that wait in its write buffer.
structure Sock where
  closed : Bool
  remaining : Nat
  clientIp : Ip
  deriving DecidableEq

-- A message that was written, with the files and the length server_send_share was given.
structure Sent where
  files : List TaggedFile
  maxLen : Int
  packet : Bytes

structure Server (F : Type) where
  master : Bool
  hardLimit : Option Int
  hasLargefiles : Bool
  hasZlib : Bool
  connected : Bool
  sock : Option Sock
  sentShared : List F
  written : List Sent

-- The servers in the order of connected_server_list, the files in the order in which
-- Hashtbl.iter meets them.
structure State (S F : Type) where
  server : S → Server F
  file : F → SharedFile S
  connectedServers : List S
  filesByMd4 : List F
  maxPublishedFiles : Int
  clientBufferSize : Int
  donkeyPort : Int

def OggStream.rank : OggStream → Nat
  | .index => 0
  | .text => 1
  | .audio => 2
  | .vorbis => 3
  | .theora => 4
  | .video => 5

def stringTag (name : Field) (s : Bytes) : Tag := ⟨name, .string s⟩

def kindTags (kind format : Bytes) : List Tag :=
  [stringTag .type kind, stringTag .format format]

def formatTags : Format → List Tag
  | .unknown => []
  | .avi => kindTags (Bencode.ofString "Video") (Bencode.ofString "avi")
  | .mp3 => kindTags (Bencode.ofString "Audio") (Bencode.ofString "mp3")
  | .ogg streams =>
    match streams.foldl (fun m st => if st.rank > m.rank then st else m) .index with
    | .audio | .vorbis => kindTags (Bencode.ofString "Audio") (Bencode.ofString "ogg")
    | .video | .theora => kindTags (Bencode.ofString "Video") (Bencode.ofString "ogg")
    | .index | .text => []
  | .type format kind => kindTags kind format

variable {S F : Type}

def tagFile (file : SharedFile S) : List Tag :=
  let hidden := Bencode.ofString "hidden."
  let name :=
    if hidden.isPrefixOf file.bestName then file.bestName.drop 7 else file.bestName
  stringTag .filename name ::
    ⟨.sizeHi, .uint64 (file.size % 2 ^ 64 / 2 ^ 32)⟩ ::
      ⟨.size, .uint64 (file.size % 2 ^ 32)⟩ :: formatTags file.format

variable [DecidableEq S] [DecidableEq F] (md4 : F → Md4) (compress : Bytes → Bytes)

-- make_tagged_server, and make_tagged for the older servers.
def makeTaggedServer (st : State S F) (newerServer : Bool) (sock : Sock) (files : List F) :
    List TaggedFile :=
  files.map fun f =>
    let file := st.file f
    if newerServer then
      { md4 := md4 f
        ip := if file.isShared then ⟨0xFBFB, 0xFBFB⟩ else ⟨0xFCFC, 0xFCFC⟩
        port := if file.isShared then 0xFBFB else 0xFCFC
        tags := tagFile file }
    else ⟨md4 f, sock.clientIp, st.donkeyPort, tagFile file⟩

def fileIsLargefile (file : SharedFile S) : Bool := file.size > 4290048000

-- The files of files_by_md4 that are shared, built in reverse.
def allShared (st : State S F) : List F :=
  (st.filesByMd4.filter fun f => (st.file f).shared.isSome).reverse

def serverCount (st : State S F) (f : F) : Nat := ((st.file f).shared.getD []).length

-- The least published files first.
def leastPublished (st : State S F) : List F :=
  (allShared st).mergeSort fun f g => serverCount st f ≤ serverCount st g

def canPublish (sv : Server F) (file : SharedFile S) : Bool :=
  !(fileIsLargefile file && !sv.hasLargefiles)

def filesToSend (st : State S F) (s : S) (all : List F) : List F :=
  all.foldl
    (fun files f =>
      match (st.file f).shared with
      | some servers =>
        if s ∉ servers ∧ files.length < st.maxPublishedFiles ∧
            canPublish (st.server s) (st.file f) then f :: files
        else files
      | none => files) []

def State.setServer (st : State S F) (s : S) (sv : Server F) : State S F :=
  { st with server := Function.update st.server s sv }

def State.setFile (st : State S F) (f : F) (file : SharedFile S) : State S F :=
  { st with file := Function.update st.file f file }

-- write_string: nothing goes into a socket that is closed.
def writeString (st : State S F) (s : S) (sock : Sock) (m : Sent) : State S F :=
  if sock.closed then st
  else
    let sv := st.server s
    st.setServer s
      { sv with
        sock := some { sock with remaining := sock.remaining + m.packet.length }
        written := sv.written ++ [m] }

-- The two records of a publication.
def recordFiles (st : State S F) (s : S) (files : List F) : State S F :=
  let sv := st.server s
  files.foldl
    (fun st f =>
      let file := st.file f
      st.setFile f { file with shared := file.shared.map (· ++ [s]) })
    (st.setServer s { sv with sentShared := files ++ sv.sentShared })

def takesFiles (sv : Server F) : Bool :=
  sv.master &&
    match sv.hardLimit with
    | some v => !(v < sv.sentShared.length)
    | none => true

def room (st : State S F) (sock : Sock) : Int := st.clientBufferSize - 100 - sock.remaining

-- send_new_shared for one server. None stands for an exception.
def publishTo (all : List F) (st : State S F) (s : S) : Option (State S F) :=
  let sv := st.server s
  if takesFiles sv then
    let files := filesToSend st s all
    if files ≠ [] then do
      let st ←
        match sv.sock with
        | some sock => do
          let tagged := makeTaggedServer md4 st sv.hasZlib sock files
          let packet ← serverSendShare compress sv.hasZlib (room st sock) tagged
          some (writeString st s sock ⟨tagged, room st sock, packet⟩)
        | none => some st
      some (recordFiles st s files)
    else some st
  else some st

def loggedInServers (st : State S F) : List S :=
  st.connectedServers.filter fun s => (st.server s).connected

def sendNewShared (st : State S F) : Option (State S F) :=
  (loggedInServers st).foldlM (publishTo md4 compress (leastPublished st)) st

-- shared_iter over all shared files: the server is taken out of each.
def forgetServer (st : State S F) (s : S) : State S F :=
  { st with
    file := fun f =>
      let file := st.file f
      { file with shared := file.shared.map (·.filter (· ≠ s)) } }

-- remove_server_from_shared_files, when a server is disconnected.
def removeServerFromSharedFiles (st : State S F) (s : S) : State S F :=
  let sv := st.server s
  let st := sv.sentShared.foldl (fun st _ => forgetServer st s) st
  st.setServer s { sv with sentShared := [] }

def unshareFile (st : State S F) (f : F) : State S F :=
  let file := st.file f
  match file.shared with
  | none => st
  | some _ =>
    let st := st.connectedServers.foldl
      (fun st s =>
        let sv := st.server s
        st.setServer s { sv with sentShared := sv.sentShared.filter (· ≠ f) }) st
    st.setFile f { file with shared := none }

def mustShareFile (st : State S F) (f : F) : State S F :=
  let file := st.file f
  match file.shared with
  | some _ => st
  | none => st.setFile f { file with shared := some [] }

-- What happens to the records. `world` is everything else: connections come and go, write
-- buffers drain, files and options change.
inductive Op (S F : Type)
  | sendNewShared
  | removeServer (s : S)
  | unshareFile (f : F)
  | mustShareFile (f : F)
  | world (st : State S F)

-- send_new_shared runs in a timer, which drops an exception.
def next : Op S F → State S F → State S F
  | .sendNewShared, st => (sendNewShared md4 compress st).getD st
  | .removeServer s, st => removeServerFromSharedFiles st s
  | .unshareFile f, st => unshareFile st f
  | .mustShareFile f, st => mustShareFile st f
  | .world st', _ => st'

-- The records and the messages are the same.
structure SameRecords (st st' : State S F) : Prop where
  sentShared : ∀ s, (st'.server s).sentShared = (st.server s).sentShared
  written : ∀ s, (st'.server s).written = (st.server s).written
  shared : ∀ f, (st'.file f).shared = (st.file f).shared

def Legal (st : State S F) : Op S F → Prop
  | .world st' => SameRecords st st'
  | _ => True

-- The file is recorded as known to the server, on either side.
def Recorded (st : State S F) (s : S) (f : F) : Prop :=
  f ∈ (st.server s).sentShared ∨ ∃ servers, (st.file f).shared = some servers ∧ s ∈ servers

-- The message is a ShareReq of the first of its files, as many as there is room for.
def Exact (m : Sent) (sent : List TaggedFile) : Prop :=
  Carries compress sent m.packet ∧ sent <+: m.files ∧
    (sent = [] ∨ ((shareText sent).length : Int) < m.maxLen) ∧
    (sent.length < 2 ^ 32 → LittleEndian.getInt (shareText sent) 0 = some (sent.length : Int))

-- The file was in a ShareReq written to the server.
def Published (st : State S F) (s : S) (f : F) : Prop :=
  ∃ m ∈ (st.server s).written, ∃ sent, Exact compress m sent ∧ ∃ r ∈ sent, r.md4 = md4 f

-- The server's socket takes bytes, and the room that its write buffer leaves holds all files.
def Fits (all : List F) (st : State S F) (s : S) : Prop :=
  takesFiles (st.server s) → filesToSend st s all ≠ [] →
    ∃ sock, (st.server s).sock = some sock ∧ sock.closed = false ∧
      ((shareText (makeTaggedServer md4 st (st.server s).hasZlib sock
        (filesToSend st s all))).length : Int) < room st sock

-- Every server has room for its files when its turn comes.
def AllFit (all : List F) : List S → State S F → Prop
  | [], _ => True
  | s :: servers, st => Fits md4 all st s ∧
    ∀ st', publishTo md4 compress all st s = some st' → AllFit all servers st'

-- The operations of a run in which the files always fit.
def Fitting (st : State S F) (op : Op S F) : Prop :=
  Legal st op ∧
    match op with
    | .sendNewShared => AllFit md4 compress (leastPublished st) (loggedInServers st) st
    | _ => True

end Mldonkey.Donkey.Publish
