import Mldonkey.Donkey.Tags

-- The messages of DonkeyProtoKademlia.
namespace Mldonkey.Donkey.Kademlia

open BigEndian (bufInt8 getInt8)
open LittleEndian (bufInt16 getInt16)

def namesOfTag : Names :=
  [([243], .known (Bencode.ofString "encryption")),
    ([248], .known (Bencode.ofString "buddyhash")),
    ([249], .known (Bencode.ofString "clientlowid")),
    ([250], .known (Bencode.ofString "serverport")),
    ([251], .known (Bencode.ofString "serverip")),
    ([252], .known (Bencode.ofString "sourceuport")),
    ([253], .known (Bencode.ofString "sourceport")),
    ([254], .known (Bencode.ofString "sourceip")),
    ([255], .known (Bencode.ofString "sourcetype"))] ++ fileCommonTags

structure Peer where
  md4 : Md4
  ip : Ip
  port : Int
  tcpport : Int
  countryCode : Option Int
  kind : Int
  expire : Int
  lastSend : Int
  created : Int
  deriving DecidableEq

inductive SearchKind
  | keyword (e : Option Unit)
  | file
  | kind (n : Int)
  deriving DecidableEq

abbrev Answers := List (Md4 × List Tag)

inductive Message
  | connect (p : Peer)
  | connectReply (peers : List Peer)
  | publicize (p : Peer)
  | publicized (p : Option Peer)
  | search (nresults : Int) (target : Md4) (uid : Option Md4)
  | searchReply (target : Md4) (peers : List Peer)
  | getSearchResults (target : Md4) (kind : SearchKind) (min max : Int)
  | searchFilesResults (target : Md4) (results : Answers)
  | searchSourcesResults (target : Md4) (peers : List Peer)
  | publishFiles (target : Md4) (results : Answers)
  | publishSources (target : Md4) (peers : List Peer)
  | published (target : Md4)
  | noResult (target : Md4)
  | unknown (opcode : Int) (s : Bytes)
  | getMyIP (port : Int)
  | getMyIPResult (ip : Ip)
  | getMyIPDone
  | firewallConnection (md4 : Md4) (port : Int)
  | firewallConnectionACK (md4 : Md4)
  | firewallConnectionNACK (md4 : Md4)
  | peerNotFound (p : Peer)
  | unknown21 (p : Peer)
  deriving DecidableEq

-- The bytes of every word of four in the other order.
def swapWords : Bytes → Bytes
  | c0 :: c1 :: c2 :: c3 :: rest => c3 :: c2 :: c1 :: c0 :: swapWords rest
  | _ => []

theorem length_swapWords : ∀ (n : Nat) (b : Bytes), b.length = 4 * n → (swapWords b).length = 4 * n
  | 0, [], _ => rfl
  | n + 1, c0 :: c1 :: c2 :: c3 :: rest, h => by
      simp only [List.length_cons] at h
      simp only [swapWords, List.length_cons, length_swapWords n rest (by omega)]
      omega

theorem swapWords_swapWords : ∀ (n : Nat) (b : Bytes), b.length = 4 * n →
    swapWords (swapWords b) = b
  | 0, [], _ => rfl
  | n + 1, c0 :: c1 :: c2 :: c3 :: rest, h => by
      simp only [List.length_cons] at h
      simp only [swapWords, swapWords_swapWords n rest (by omega)]

def swapMd4 (md4 : Md4) : Md4 := ⟨swapWords md4.bytes, length_swapWords 4 _ md4.length_bytes⟩

@[simp] theorem swapMd4_swapMd4 (md4 : Md4) : swapMd4 (swapMd4 md4) = md4 := by
  cases md4 with
  | mk bytes h => simp only [swapMd4, swapWords_swapWords 4 bytes h]

def getMd4 (s : Bytes) (pos : Nat) : Option Md4 := (LittleEndian.getMd4 s pos).map swapMd4

def bufMd4 (md4 : Md4) : Bytes := (swapMd4 md4).bytes

def getIp (s : Bytes) (pos : Nat) : Option Ip := do
  let c1 ← getInt8 s pos
  let c2 ← getInt8 s (pos + 1)
  let c3 ← getInt8 s (pos + 2)
  let c4 ← getInt8 s (pos + 3)
  return ⟨.ofNat (c4 * 256 + c3).toNat, .ofNat (c2 * 256 + c1).toNat⟩

def bufIp (ip : Ip) : Bytes :=
  bufInt8 (ip.lo.toNat % 256) ++ (bufInt8 (ip.lo.toNat / 256) ++
    (bufInt8 (ip.hi.toNat % 256) ++ bufInt8 (ip.hi.toNat / 256)))

def bufPeer (p : Peer) : Bytes :=
  bufMd4 p.md4 ++ (bufIp p.ip ++ (bufInt16 p.port ++ (bufInt16 p.tcpport ++ bufInt8 p.kind)))

def bufPeers (peers : List Peer) : Bytes := (peers.map bufPeer).flatten

def bufAnswer (a : Md4 × List Tag) : Option Bytes := do
  return bufMd4 a.1 ++ (bufInt8 a.2.length ++ (← a.2.mapM (bufTag namesOfTag)).flatten)

def bufAnswers (target : Md4) (results : Answers) : Option Bytes := do
  return bufMd4 target ++ (bufInt16 results.length ++ (← results.mapM bufAnswer).flatten)

def bufKind : SearchKind → Bytes
  | .kind _ => bufInt8 1
  | .file => bufInt8 1
  | .keyword none => bufInt8 0
  | .keyword (some _) => bufInt8 1

-- None stands for MessageNotImplemented, or for the assertion of buf_tag.
def write : Message → Option Bytes
  | .connect p => some (bufInt8 0x00 ++ bufPeer p)
  | .connectReply peers => some (bufInt8 0x08 ++ (bufInt16 peers.length ++ bufPeers peers))
  | .publicize p => some (bufInt8 0x10 ++ bufPeer p)
  | .publicized (some p) => some (bufInt8 0x18 ++ bufPeer p)
  | .search nresults target (some uid) =>
      some (bufInt8 0x20 ++ (bufInt8 (nresults % 2 ^ 5) ++ (bufMd4 target ++ bufMd4 uid)))
  | .searchReply md4 peers =>
      some (bufInt8 0x28 ++ (bufMd4 md4 ++ (bufInt8 peers.length ++ bufPeers peers)))
  | .getSearchResults target kind _ _ => some (bufInt8 0x30 ++ (bufMd4 target ++ bufKind kind))
  | .searchFilesResults target results => (bufAnswers target results).map (bufInt8 0x38 ++ ·)
  | .publishFiles target results => (bufAnswers target results).map (bufInt8 0x40 ++ ·)
  | .unknown opcode s => some (bufInt8 opcode ++ s)
  | _ => none

section

-- The country of an address, and the time.
variable (country : Ip → Option Int) (now : Int)

-- A peer of which this is known.
def newPeer (md4 : Md4) (ip : Ip) (port tcpport : Int) : Peer where
  md4 := md4
  ip := ip
  port := port
  tcpport := tcpport
  countryCode := country ip
  kind := 3
  lastSend := 0
  expire := 0
  created := now

def getPeer (s : Bytes) (pos : Nat) : Option (Peer × Nat) := do
  let md4 ← getMd4 s pos
  let ip ← getIp s (pos + 16)
  let udpPort ← getInt16 s (pos + 20)
  let tcpPort ← getInt16 s (pos + 22)
  return (newPeer country now md4 ip udpPort tcpPort, pos + 25)

-- for_int_tag and for_int64_tag, with what is kept where they do nothing.
def intOfTag (value : TagValue) (n : Int) : Int :=
  match value with
  | .uint64 i | .fint64 i | .uint16 i | .uint8 i => i
  | .string _ | .addr _ | .pair _ _ => n

def ipOfInt64 (i : Int) : Ip := ⟨.ofNat (i / 2 ^ 16).toNat, .ofNat (i % 2 ^ 16).toNat⟩

def ipOfTag (value : TagValue) (ip : Ip) : Ip :=
  match value with
  | .uint64 i | .fint64 i | .uint16 i | .uint8 i => ipOfInt64 i
  | .string _ | .addr _ | .pair _ _ => ip

-- The address and the two ports that the tags of an answer give.
def sourceStep (source : Ip × Int × Int) (tag : Tag) : Ip × Int × Int :=
  if tag.name = .known (Bencode.ofString "sourceport") then
    (source.1, source.2.1, intOfTag tag.value source.2.2)
  else if tag.name = .known (Bencode.ofString "sourceuport") then
    (source.1, intOfTag tag.value source.2.1, source.2.2)
  else if tag.name = .known (Bencode.ofString "sourceip") then
    (ipOfTag tag.value source.1, source.2.1, source.2.2)
  else source

def getPeersFromResults (ip : Ip) (port : Int) (answers : Answers) : List Peer :=
  answers.map fun a =>
    let source := a.2.foldl sourceStep (ip, port, 0)
    newPeer country now a.1 source.1 source.2.1 source.2.2

-- The answers are sources when the first of them has the tag of a source.
def areSources : Answers → Bool
  | (_, firstTags) :: _ =>
      firstTags.any fun tag => tag.name = .known (Bencode.ofString "sourceport")
  | [] => false

def ofSearchAnswers (target : Md4) (answers : Answers) : Message :=
  if areSources answers then
    .searchSourcesResults target (getPeersFromResults country now Ip.null 0 answers)
  else .searchFilesResults target answers

def ofPublishAnswers (ip : Ip) (port : Int) (target : Md4) (answers : Answers) : Message :=
  if areSources answers then
    .publishSources target (getPeersFromResults country now ip port answers)
  else .publishFiles target answers

end

def getListRec {α : Type} (getItem : Bytes → Nat → Option (α × Nat)) (s : Bytes) :
    Nat → Nat → List α → Option (List α × Nat)
  | 0, pos, left => some (left.reverse, pos)
  | len + 1, pos, left => do
      let item ← getItem s pos
      getListRec getItem s len item.2 (item.1 :: left)

def getList8 {α : Type} (getItem : Bytes → Nat → Option (α × Nat)) (s : Bytes) (pos : Nat) :
    Option (List α × Nat) := do
  let len ← getInt8 s pos
  getListRec getItem s len.toNat (pos + 1) []

def getList16 {α : Type} (getItem : Bytes → Nat → Option (α × Nat)) (s : Bytes) (pos : Nat) :
    Option (List α × Nat) := do
  let len ← getInt16 s pos
  getListRec getItem s len.toNat (pos + 2) []

def getAnswer (s : Bytes) (pos : Nat) : Option ((Md4 × List Tag) × Nat) := do
  let uid ← getMd4 s pos
  let tags ← getList8 (getTag namesOfTag) s (pos + 16)
  return ((uid, tags.1), tags.2)

def getKind (s : Bytes) : Option SearchKind := do
  let kind ← getInt8 s 16
  return if s.length = 17 then if kind = 1 then .file else .keyword none else .kind kind

def parse (country : Ip → Option Int) (now : Int) (ip : Ip) (port : Int) (opcode : Nat)
    (s : Bytes) : Option Message :=
  if opcode = 0x00 then (getPeer country now s 0).map (.connect ·.1)
  else if opcode = 0x08 then (getList16 (getPeer country now) s 0).map (.connectReply ·.1)
  else if opcode = 0x10 then (getPeer country now s 0).map (.publicize ·.1)
  else if opcode = 0x18 then (getPeer country now s 0).map fun p => .publicized (some p.1)
  else if opcode = 0x20 then do
    let nresults ← getInt8 s 0
    let target ← getMd4 s 1
    let uid ← getMd4 s 17
    return .search (nresults % 2 ^ 5) target (some uid)
  else if opcode = 0x28 then do
    let target ← getMd4 s 0
    let peers ← getList8 (getPeer country now) s 16
    return .searchReply target peers.1
  else if opcode = 0x30 then do
    let target ← getMd4 s 0
    let kind ← getKind s
    return .getSearchResults target kind 0 100
  else if opcode = 0x38 then do
    let target ← getMd4 s 0
    let answers ← getList16 getAnswer s 16
    return ofSearchAnswers country now target answers.1
  else if opcode = 0x40 then do
    let target ← getMd4 s 0
    let answers ← getList16 getAnswer s 16
    return ofPublishAnswers country now ip port target answers.1
  else if opcode = 0x48 then (getMd4 s 0).map .published
  else if s = [] then none
  else some (.unknown opcode s.tail)

def kademliaHeaderCode : UInt8 := 0xE4

def kademliaPackedHeaderCode : UInt8 := 0xE5

section

-- Zlib.compress_string and Zlib.uncompress_string2.
variable (compress : Bytes → Bytes) (uncompress : Bytes → Option Bytes)

def parseMessage (country : Ip → Option Int) (now : Int) (ip : Ip) (port : Int) :
    Bytes → Option Message
  | magic :: opcode :: msg =>
      if magic = kademliaPackedHeaderCode then
        (uncompress msg).bind (parse country now ip port opcode.toNat)
      else if magic = kademliaHeaderCode then parse country now ip port opcode.toNat msg
      else none
  | _ => none

-- What udp_send makes of the bytes of a message.
def udpPacket (s : Bytes) : Bytes :=
  if 200 < s.length then kademliaPackedHeaderCode :: (s.take 1 ++ compress (s.drop 1))
  else kademliaHeaderCode :: s

end

end Mldonkey.Donkey.Kademlia
