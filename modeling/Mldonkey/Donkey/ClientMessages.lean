import Mldonkey.Donkey.Tags

-- DonkeyProtoClient: the messages that eDonkey and eMule clients exchange.
namespace Mldonkey.Donkey

open BigEndian (bufInt8 getInt8)
open LittleEndian

-- The features on which a codec depends.
structure EmuleProto where
  extendedrequest : Int
  sourceexchange : Int

def mldonkeyEmuleProto : EmuleProto := ⟨1, 2⟩

def extendedrequest (e : EmuleProto) : Int :=
  min e.extendedrequest mldonkeyEmuleProto.extendedrequest

def sourceexchange (e : EmuleProto) : Int :=
  min e.sourceexchange mldonkeyEmuleProto.sourceexchange

structure Connect where
  hashLen : Int
  md4 : Md4
  ip : Ip
  port : Int
  tags : List Tag
  serverInfo : Option (Ip × Int)
  leftBytes : Bytes

structure QueryFile where
  md4 : Md4
  emuleExtension : Option (List Bool × Int)

structure QueryFileReply where
  md4 : Md4
  name : Bytes

structure Bloc where
  md4 : Md4
  usesixtyfour : Bool
  startPos : Int
  endPos : Int
  blocStr : Bytes
  blocBegin : Int
  blocLen : Int

structure QueryBloc where
  md4 : Md4
  usesixtyfour : Bool
  startPos1 : Int
  endPos1 : Int
  startPos2 : Int
  endPos2 : Int
  startPos3 : Int
  endPos3 : Int

structure QueryChunksReply where
  md4 : Md4
  chunks : List Bool

structure QueryChunkMd4Reply where
  md4 : Md4
  chunks : List Md4

structure TaggedFile where
  md4 : Md4
  ip : Ip
  port : Int
  tags : List Tag

structure Sources where
  md4 : Md4
  sources : List (Ip × Int × Ip)

structure EmuleClientInfo where
  version : Int
  protversion : Int
  tags : List Tag

structure EmuleSignatureReq where
  signature : Bytes
  ipType : Int

structure EmuleSecIdentStateReq where
  state : Int
  challenge : Int

structure Source where
  ip : Ip
  port : Int
  serverIp : Ip
  serverPort : Int
  md4 : Md4
  cc : Option Int

structure EmuleRequestSourcesReply where
  md4 : Md4
  sources : List Source

structure EmuleFileDesc where
  rating : Int
  comment : Bytes

structure EmuleCompressedPart where
  md4 : Md4
  usesixtyfour : Bool
  statpos : Int
  newsize : Int
  bloc : Bytes

inductive ClientMsg
  | connectReq (t : Connect)
  | connectReplyReq (t : Connect)
  | queryFileReq (t : QueryFile)
  | queryFileReplyReq (t : QueryFileReply)
  | blocReq (t : Bloc)
  | queryBlocReq (t : QueryBloc)
  | joinQueueReq (t : Option Md4)
  | availableSlotReq
  | releaseSlotReq
  | outOfPartsReq
  | queryChunksReq (t : Md4)
  | queryChunksReplyReq (t : QueryChunksReply)
  | queryChunkMd4Req (t : Md4)
  | queryChunkMd4ReplyReq (t : QueryChunkMd4Reply)
  | viewFilesReq
  | viewFilesReplyReq (t : List TaggedFile)
  | viewDirsReq
  | viewDirsReplyReq (t : List Bytes)
  | viewFilesDirReq (t : Bytes)
  | viewFilesDirReplyReq (dir : Bytes) (files : List TaggedFile)
  | queueReq (t : List Ip)
  | unknownReq (opcode : Int) (s : Bytes)
  | otherLocationsReq (t : List Ip)
  | sayReq (t : Bytes)
  | sourcesReq (t : Sources)
  | endOfDownloadReq (t : Md4)
  | newUserIDReq (ip1 ip2 : Ip)
  | noSuchFileReq (t : Md4)
  | queueRankReq (t : Int)
  | emuleClientInfoReq (t : EmuleClientInfo)
  | emuleClientInfoReplyReq (t : EmuleClientInfo)
  | emuleQueueRankingReq (t : Int)
  | emuleRequestSourcesReq (t : Md4)
  | emuleRequestSourcesReplyReq (t : EmuleRequestSourcesReply)
  | emuleFileDescReq (t : EmuleFileDesc)
  | emulePublicKeyReq (t : Bytes)
  | emuleSignatureReq (t : EmuleSignatureReq)
  | emuleSecIdentStateReq (t : EmuleSecIdentStateReq)
  | emuleMultiPacketReq (md4 : Md4) (list : List ClientMsg)
  | emuleMultiPacketAnswerReq (md4 : Md4) (list : List ClientMsg)
  | emuleCompressedPart (t : EmuleCompressedPart)
  | emulePortTestReq (t : Bytes)
  | emuleCaptchaReq (t : Bytes)
  | emuleCaptchaRes (t : Int)

-- What the packets hold behind their opcode. None stands for an exception.

-- A Connect from its hash on.
def Connect.parseFrom (hashLen : Int) (s : Bytes) (pos : Nat) : Option Connect := do
  let md4 ← getMd4 s pos
  let ip ← getIp s (pos + 16)
  let port ← getInt16 s (pos + 20)
  let (tags, pos) ← getTags clientCommonTags s (pos + 22)
  let serverInfo := (← getIp s pos, ← getInt16 s (pos + 4))
  let leftBytes ← sub s (pos + 6) (s.length - pos - 6)
  return ⟨hashLen, md4, ip, port, tags, some serverInfo, leftBytes⟩

def Connect.parse (reply : Bool) (s : Bytes) : Option Connect :=
  if reply then parseFrom (-1) s 1 else do parseFrom (← getInt8 s 1) s 2

def Connect.write (reply : Bool) (t : Connect) : Option Bytes := do
  let tags ← bufTags clientCommonTags t.tags
  let (ip, port) := t.serverInfo.getD (Ip.null, 0)
  return (if reply then [] else bufInt8 16) ++
    (t.md4.bytes ++ (bufIp t.ip ++ (bufInt16 t.port ++ (tags ++ (bufIp ip ++ bufInt16 port)))))

def JoinQueue.parse (len : Nat) (s : Bytes) : Option (Option Md4) :=
  if 17 ≤ len then do return some (← getMd4 s 1) else some none

def JoinQueue.write (emule : EmuleProto) (t : Option Md4) : Bytes :=
  if 0 < extendedrequest emule then (t.map Md4.bytes).getD [] else []

-- Every exception in the extension is caught there.
def QueryFile.parse (emule : EmuleProto) (len : Nat) (s : Bytes) : Option QueryFile := do
  let md4 ← getMd4 s 1
  let extension : Option (List Bool × Int) :=
    if len < 18 ∨ extendedrequest emule = 0 then none
    else do
      let (chunks, pos) ← getBitmap s 17
      let ncompletesources ←
        if 1 < extendedrequest emule ∧ pos + 1 < len then getInt16 s pos else pure (-1)
      return (chunks, ncompletesources)
  return ⟨md4, extension⟩

def QueryFile.write (emule : EmuleProto) (t : QueryFile) : Bytes :=
  t.md4.bytes ++
    match t.emuleExtension with
    | none => []
    | some (chunks, ncompletesources) =>
        if 0 < extendedrequest emule then
          writeBitmap chunks ++
            if 1 < extendedrequest emule ∧ 0 ≤ ncompletesources then bufInt16 ncompletesources
            else []
        else []

def QueryChunksReply.parse (s : Bytes) : Option QueryChunksReply := do
  return ⟨← getMd4 s 1, (← getBitmap s 17).1⟩

def QueryChunksReply.write (t : QueryChunksReply) : Bytes :=
  t.md4.bytes ++ (writeBitmap t.chunks ++ if t.chunks.length = 0 then bufInt8 0 else [])

def QueryChunkMd4Reply.parse (s : Bytes) : Option QueryChunkMd4Reply := do
  let md4 ← getMd4 s 1
  let nchunks := (← getInt16 s 17).toNat
  return ⟨md4, ← (List.range nchunks).mapM fun i => getMd4 s (19 + i * 16)⟩

def QueryChunkMd4Reply.write (t : QueryChunkMd4Reply) : Bytes :=
  t.md4.bytes ++ (bufInt16 t.chunks.length ++ t.chunks.flatMap Md4.bytes)

def QueryFileReply.parse (s : Bytes) : Option QueryFileReply := do
  let (name, _) ← getString16 s 17
  return ⟨← getMd4 s 1, name⟩

def QueryFileReply.write (t : QueryFileReply) : Bytes := t.md4.bytes ++ bufString t.name

def Bloc.parse (usesixtyfour : Bool) (len : Nat) (s : Bytes) : Option Bloc := do
  return {
    md4 := ← getMd4 s 1
    usesixtyfour := usesixtyfour
    startPos := ← if usesixtyfour then getInt64 s 17 else getInt s 17
    endPos := ← if usesixtyfour then getInt64 s 25 else getInt s 21
    blocStr := s
    blocBegin := if usesixtyfour then 33 else 25
    blocLen := if usesixtyfour then len - 33 else len - 25 }

-- buf_int64 or buf_int64_32.
def bufPos (usesixtyfour : Bool) (i : Int) : Bytes :=
  if usesixtyfour then bufInt64 i else bufInt64_32 i

-- The substring that Buffer.add_substring adds, if it is one.
def Bloc.data (t : Bloc) : Option Bytes :=
  if 0 ≤ t.blocBegin ∧ 0 ≤ t.blocLen then sub t.blocStr t.blocBegin.toNat t.blocLen.toNat
  else none

def Bloc.write (t : Bloc) : Option Bytes := do
  return t.md4.bytes ++
    (bufPos t.usesixtyfour t.startPos ++ (bufPos t.usesixtyfour t.endPos ++ (← t.data)))

def QueryBloc.parse (usesixtyfour : Bool) (s : Bytes) : Option QueryBloc := do
  return {
    md4 := ← getMd4 s 1
    usesixtyfour := usesixtyfour
    startPos1 := ← if usesixtyfour then getInt64 s 17 else getInt s 17
    endPos1 := ← if usesixtyfour then getInt64 s 41 else getInt s 29
    startPos2 := ← if usesixtyfour then getInt64 s 25 else getInt s 21
    endPos2 := ← if usesixtyfour then getInt64 s 49 else getInt s 33
    startPos3 := ← if usesixtyfour then getInt64 s 33 else getInt s 25
    endPos3 := ← if usesixtyfour then getInt64 s 57 else getInt s 37 }

def QueryBloc.write (t : QueryBloc) : Bytes :=
  t.md4.bytes ++ (bufPos t.usesixtyfour t.startPos1 ++ (bufPos t.usesixtyfour t.startPos2 ++
    (bufPos t.usesixtyfour t.startPos3 ++ (bufPos t.usesixtyfour t.endPos1 ++
      (bufPos t.usesixtyfour t.endPos2 ++ bufPos t.usesixtyfour t.endPos3)))))

def ViewFilesReply.getFiles (s : Bytes) : Nat → Nat → Option (List TaggedFile × Nat)
  | 0, pos => some ([], pos)
  | n + 1, pos => do
      let md4 ← getMd4 s pos
      let ip ← getIp s (pos + 16)
      let port ← getInt16 s (pos + 20)
      let (tags, pos) ← getTags fileCommonTags s (pos + 22)
      let (files, pos) ← getFiles s n pos
      return (⟨md4, ip, port, tags⟩ :: files, pos)

def ViewFilesReply.parse (s : Bytes) : Option (List TaggedFile) := do
  let n := (← getInt s 1).toNat
  return (← getFiles s n 5).1

def ViewFilesReply.writeFile (file : TaggedFile) : Option Bytes := do
  return file.md4.bytes ++
    (bufIp file.ip ++ (bufInt16 file.port ++ (← bufTags fileCommonTags file.tags)))

def ViewFilesReply.writeFiles (files : List TaggedFile) : Option Bytes := do
  return (← files.mapM writeFile).flatten

def ViewFilesReply.write (t : List TaggedFile) : Option Bytes := do
  return bufInt t.length ++ (← writeFiles t)

def ViewDirsReply.write (t : List Bytes) : Bytes := bufInt t.length ++ t.flatMap bufString

def ViewFilesDirReply.write (dir : Bytes) (files : List TaggedFile) : Option Bytes := do
  return bufString dir ++ (bufInt files.length ++ (← ViewFilesReply.writeFiles files))

def Sources.parseSource (s : Bytes) (i : Nat) : Option (Ip × Int × Ip) := do
  return (← getIp s (19 + 10 * i), ← getInt16 s (23 + 10 * i), ← getIp s (25 + 10 * i))

-- Each source is put in front of those before it.
def Sources.parse (s : Bytes) : Option Sources := do
  let len := (← getInt16 s 1).toNat
  let md4 ← getMd4 s 3
  let list ← (List.range len).mapM (parseSource s)
  return ⟨md4, list.reverse⟩

def Sources.writeSource (p : Ip × Int × Ip) : Bytes := bufIp p.1 ++ (bufInt16 p.2.1 ++ bufIp p.2.2)

def Sources.write (t : Sources) : Bytes :=
  bufInt16 t.sources.length ++ (t.md4.bytes ++ t.sources.flatMap writeSource)

def EmuleClientInfo.parse (s : Bytes) : Option EmuleClientInfo := do
  return ⟨← getInt8 s 1, ← getInt8 s 2, (← getTags clientCommonTags s 3).1⟩

def EmuleClientInfo.write (t : EmuleClientInfo) : Option Bytes := do
  return bufInt8 t.version ++ (bufInt8 t.protversion ++ (← bufTags clientCommonTags t.tags))

def EmuleQueueRanking.write (t : Int) : Bytes := bufInt16 t ++ List.replicate 10 0

def EmuleSignatureReq.parse (s : Bytes) : Option EmuleSignatureReq := do
  let mlen := (← getInt8 s 1).toNat
  let signature ← sub s 2 mlen
  let ipType ← if mlen + 2 = s.length then pure 0 else getInt8 s (2 + mlen)
  return ⟨signature, ipType⟩

def EmuleSignatureReq.write (t : EmuleSignatureReq) : Bytes :=
  bufEstring t.signature ++ if t.ipType ≠ 0 then bufInt8 t.ipType else []

def EmulePublicKeyReq.parse (s : Bytes) : Option Bytes := do
  let len := (← getInt8 s 1).toNat
  sub s 2 len

def EmuleCaptchaReq.parse (len : Nat) (s : Bytes) : Option Bytes := sub s 2 (len - 2)

def EmuleSecIdentStateReq.parse (s : Bytes) : Option EmuleSecIdentStateReq := do
  return ⟨← getInt8 s 1, ← getInt s 2⟩

def EmuleSecIdentStateReq.write (t : EmuleSecIdentStateReq) : Bytes :=
  bufInt8 t.state ++ bufInt64_32 t.challenge

namespace EmuleRequestSourcesReply

def nullMd4 : Md4 := ⟨List.replicate 16 0, rfl⟩

-- One source, of which slen bytes are said to be in the packet.
def parseSource (countryCode : Ip → Option Int) (e : EmuleProto) (slen : Nat) (s : Bytes)
    (pos : Nat) : Option (Source × Nat) := do
  let ip ← getIp s pos
  let ss : Source := ⟨ip, ← getInt16 s (pos + 4), Ip.null, 0, nullMd4, countryCode ip⟩
  if 6 < slen then
    let ss := { ss with serverIp := ← getIp s (pos + 6), serverPort := ← getInt16 s (pos + 10) }
    if 12 < slen ∧ 1 < sourceexchange e then
      return ({ ss with md4 := ← getMd4 s (pos + 12) }, pos + 28)
    else return (ss, pos + 12)
  else return (ss, pos + 6)

def iter (countryCode : Ip → Option Int) (e : EmuleProto) (slen : Nat) (s : Bytes) :
    Nat → Nat → Option (List Source)
  | 0, _ => some []
  | n + 1, pos => do
      let (ss, pos) ← parseSource countryCode e slen s pos
      return ss :: (← iter countryCode e slen s n pos)

def parse (countryCode : Ip → Option Int) (e : EmuleProto) (len : Nat) (s : Bytes) :
    Option EmuleRequestSourcesReply := do
  let md4 ← getMd4 s 1
  let ncount := (← getInt16 s 17).toNat
  if ncount = 0 then return ⟨md4, []⟩
  else return ⟨md4, ← iter countryCode e ((len - 19) / ncount) s ncount 19⟩

def writeSource (e : EmuleProto) (s : Source) : Bytes :=
  bufIp s.ip ++ (bufInt16 s.port ++
    if 0 < sourceexchange e then
      bufIp s.serverIp ++ (bufInt16 s.serverPort ++
        if 1 < sourceexchange e then s.md4.bytes else [])
    else [])

def write (e : EmuleProto) (t : EmuleRequestSourcesReply) : Bytes :=
  t.md4.bytes ++ (bufInt16 t.sources.length ++ t.sources.flatMap (writeSource e))

end EmuleRequestSourcesReply

def EmuleFileDesc.parse (s : Bytes) : Option EmuleFileDesc := do
  let rating ← getInt8 s 1
  let (comment, _) ← getString32 s 2
  return ⟨rating, comment⟩

def EmuleFileDesc.write (t : EmuleFileDesc) : Bytes := bufInt8 t.rating ++ bufString t.comment

def EmuleCompressedPart.parse (usesixtyfour : Bool) (len : Nat) (s : Bytes) :
    Option EmuleCompressedPart := do
  return {
    md4 := ← getMd4 s 1
    usesixtyfour := usesixtyfour
    statpos := ← if usesixtyfour then getInt64 s 17 else getInt s 17
    newsize := ← if usesixtyfour then getInt s 25 else getInt s 21
    bloc := ← if usesixtyfour then sub s 29 (len - 29) else sub s 25 (len - 25) }

def EmuleCompressedPart.write (t : EmuleCompressedPart) : Bytes :=
  t.md4.bytes ++ (bufPos t.usesixtyfour t.statpos ++ (bufInt64_32 t.newsize ++ t.bloc))

-- A short packet of EmuleMultiPacketReq, and the position behind it.
def parseShort (emule : EmuleProto) (md4 : Md4) (s : Bytes) (pos : Nat) :
    Option (ClientMsg × Nat) := do
  let opcode ← getInt8 s pos
  if opcode = 0x58 then
    let (bitmap, pos) ← getBitmap s (pos + 1)
    if 1 < extendedrequest emule then
      return (.queryFileReq ⟨md4, some (bitmap, ← getInt16 s pos)⟩, pos + 2)
    else return (.queryFileReq ⟨md4, some (bitmap, -1)⟩, pos)
  else if opcode = 0x4F then return (.queryChunksReq md4, pos + 1)
  else if opcode = 0x81 then return (.emuleRequestSourcesReq md4, pos + 1)
  else none

-- A short packet of EmuleMultiPacketAnswerReq.
def parseShortAnswer (md4 : Md4) (s : Bytes) (pos : Nat) : Option (ClientMsg × Nat) := do
  let opcode ← getInt8 s pos
  if opcode = 89 then
    let (name, pos) ← getString16 s (pos + 1)
    return (.queryFileReplyReq ⟨md4, name⟩, pos)
  else if opcode = 80 then
    let (chunks, pos) ← getBitmap s (pos + 1)
    return (.queryChunksReplyReq ⟨md4, chunks⟩, pos)
  else none

-- The loop over the short packets. Each takes a byte at least, so the length is
-- fuel enough.
def iterShort (short : Nat → Option (ClientMsg × Nat)) (len : Nat) :
    Nat → Nat → Option (List ClientMsg)
  | 0, _ => some []
  | fuel + 1, pos =>
      if pos < len then do
        let (t, pos) ← short pos
        return t :: (← iterShort short len fuel pos)
      else some []

-- The short packet of a message, which is nothing for most of them.
def writeShort (emule : EmuleProto) : ClientMsg → Bytes
  | .queryFileReq t =>
      bufInt8 0x58 ++
        match t.emuleExtension with
        | none => []
        | some (bitmap, ncompletesources) =>
            writeBitmap bitmap ++
              if 0 ≤ ncompletesources ∧ 1 < extendedrequest emule then bufInt16 ncompletesources
              else []
  | .queryChunksReq _ => bufInt8 0x4F
  | .emuleRequestSourcesReq _ => bufInt8 0x81
  | _ => []

def writeShortAnswer : ClientMsg → Bytes
  | .queryFileReplyReq t => bufInt8 89 ++ bufString t.name
  | .queryChunksReplyReq t => bufInt8 80 ++ writeBitmap t.chunks
  | _ => []

section Parse

-- Zlib.uncompress_string2 and Geoip.get_country_code_option.
variable (uncompress : Bytes → Option Bytes) (countryCode : Ip → Option Int)

def parseEmulePacket (emule : EmuleProto) (opcode : UInt8) (s : Bytes) : Option ClientMsg :=
  let len := s.length
  if opcode = 1 then (EmuleClientInfo.parse s).map .emuleClientInfoReq
  else if opcode = 2 then (EmuleClientInfo.parse s).map .emuleClientInfoReplyReq
  else if opcode = 0x60 then (getInt16 s 1).map .emuleQueueRankingReq
  else if opcode = 0x61 then (EmuleFileDesc.parse s).map .emuleFileDescReq
  else if opcode = 0x81 then (getMd4 s 1).map .emuleRequestSourcesReq
  else if opcode = 0x82 then
    (EmuleRequestSourcesReply.parse countryCode emule len s).map .emuleRequestSourcesReplyReq
  else if opcode = 0x40 then (EmuleCompressedPart.parse false len s).map .emuleCompressedPart
  else if opcode = 0x85 then (EmulePublicKeyReq.parse s).map .emulePublicKeyReq
  else if opcode = 0x86 then (EmuleSignatureReq.parse s).map .emuleSignatureReq
  else if opcode = 0x87 then (EmuleSecIdentStateReq.parse s).map .emuleSecIdentStateReq
  else if opcode = 0x92 then do
    let md4 ← getMd4 s 1
    return .emuleMultiPacketReq md4 (← iterShort (parseShort emule md4 s) len len 17)
  else if opcode = 0x93 then
    if len < 16 then none
    else do
      let md4 ← getMd4 s 1
      return .emuleMultiPacketAnswerReq md4 (← iterShort (parseShortAnswer md4 s) len len 17)
  else if opcode = 0xa1 then (EmuleCompressedPart.parse true len s).map .emuleCompressedPart
  else if opcode = 0xa2 then (Bloc.parse true len s).map .blocReq
  else if opcode = 0xa3 then (QueryBloc.parse true s).map .queryBlocReq
  else if opcode = 0xa5 then (EmuleCaptchaReq.parse len s).map .emuleCaptchaReq
  else if opcode = 0xa6 then (getInt8 s 1).map .emuleCaptchaRes
  else if opcode = 0xfe then some (.emulePortTestReq s)
  else none

def parseEdonkeyPacket (emule : EmuleProto) (opcode : UInt8) (s : Bytes) : Option ClientMsg :=
  let len := s.length
  if opcode = 1 then (Connect.parse false s).map .connectReq
  else if opcode = 70 then (Bloc.parse false len s).map .blocReq
  else if opcode = 71 then (QueryBloc.parse false s).map .queryBlocReq
  else if opcode = 72 then (getMd4 s 1).map .noSuchFileReq
  else if opcode = 73 then (getMd4 s 1).map .endOfDownloadReq
  else if opcode = 74 then some .viewFilesReq
  else if opcode = 75 then (ViewFilesReply.parse s).map .viewFilesReplyReq
  else if opcode = 76 then (Connect.parse true s).map .connectReplyReq
  else if opcode = 77 then do return .newUserIDReq (← getIp s 1) (← getIp s 5)
  else if opcode = 78 then (getString16 s 1).map fun p => .sayReq p.1
  else if opcode = 79 then (getMd4 s 1).map .queryChunksReq
  else if opcode = 80 then (QueryChunksReply.parse s).map .queryChunksReplyReq
  else if opcode = 81 then (getMd4 s 1).map .queryChunkMd4Req
  else if opcode = 82 then (QueryChunkMd4Reply.parse s).map .queryChunkMd4ReplyReq
  else if opcode = 84 then (JoinQueue.parse len s).map .joinQueueReq
  else if opcode = 85 then some .availableSlotReq
  else if opcode = 86 then some .releaseSlotReq
  else if opcode = 87 then some .outOfPartsReq
  else if opcode = 88 then (QueryFile.parse emule len s).map .queryFileReq
  else if opcode = 89 then (QueryFileReply.parse s).map .queryFileReplyReq
  else if opcode = 92 then (getInt s 1).map .queueRankReq
  else if opcode = 93 then some .viewDirsReq
  else if opcode = 94 then (getString16 s 1).map fun p => .viewFilesDirReq p.1
  else if opcode = 250 then (Sources.parse s).map .sourcesReq
  else none

-- A packet that raises is an UnknownReq.
def parse (emule : EmuleProto) (magic : Int) (s : Bytes) : ClientMsg :=
  let t : Option ClientMsg := do
    let opcode ← s.head?
    if magic = 227 then parseEdonkeyPacket emule opcode s
    else if magic = 0xc5 then parseEmulePacket countryCode emule opcode s
    else if magic = 0xD4 then
      let s := opcode :: (← uncompress (s.drop 1))
      return (parseEmulePacket countryCode emule opcode s).getD (.unknownReq magic s)
    else none
  t.getD (.unknownReq magic s)

end Parse

def ClientMsg.magic : ClientMsg → Int
  | .emuleMultiPacketAnswerReq _ _ | .emuleMultiPacketReq _ _ | .emuleSecIdentStateReq _
  | .emuleSignatureReq _ | .emulePublicKeyReq _ | .emuleRequestSourcesReplyReq _
  | .emuleRequestSourcesReq _ | .emuleClientInfoReplyReq _ | .emuleClientInfoReq _
  | .emuleFileDescReq _ | .emuleQueueRankingReq _ | .emuleCaptchaReq _ | .emuleCaptchaRes _
  | .emuleCompressedPart _ => 0xC5
  | .queryBlocReq t => if t.usesixtyfour then 0xC5 else 227
  | .blocReq t => if t.usesixtyfour then 0xC5 else 227
  | _ => 227

-- The packet without its magic.
def ClientMsg.packet (emule : EmuleProto) : ClientMsg → Option Bytes
  | .connectReq t => do return bufInt8 1 ++ (← t.write false)
  | .connectReplyReq t => do return bufInt8 76 ++ (← t.write true)
  | .queryFileReq t => some (bufInt8 88 ++ t.write emule)
  | .queryFileReplyReq t => some (bufInt8 89 ++ t.write)
  | .queueReq t => some (bufInt8 77 ++ t.flatMap bufIp)
  | .queryBlocReq t => some (bufInt8 (if t.usesixtyfour then 0xa3 else 71) ++ t.write)
  | .blocReq t => do return bufInt8 (if t.usesixtyfour then 0xa2 else 70) ++ (← t.write)
  | .joinQueueReq t => some (bufInt8 84 ++ JoinQueue.write emule t)
  | .queryChunksReq t => some (bufInt8 79 ++ t.bytes)
  | .queryChunksReplyReq t => some (bufInt8 80 ++ t.write)
  | .queryChunkMd4Req t => some (bufInt8 81 ++ t.bytes)
  | .queryChunkMd4ReplyReq t => some (bufInt8 82 ++ t.write)
  | .availableSlotReq => some (bufInt8 85)
  | .releaseSlotReq => some (bufInt8 86)
  | .outOfPartsReq => some (bufInt8 87)
  | .viewFilesReq => some (bufInt8 74)
  | .viewFilesReplyReq t => do return bufInt8 75 ++ (← ViewFilesReply.write t)
  | .viewDirsReq => some (bufInt8 93)
  | .viewDirsReplyReq t => some (bufInt8 95 ++ ViewDirsReply.write t)
  | .viewFilesDirReq t => some (bufInt8 94 ++ bufString t)
  | .viewFilesDirReplyReq dir files => do return bufInt8 96 ++ (← ViewFilesDirReply.write dir files)
  | .otherLocationsReq t => some (bufInt8 72 ++ t.flatMap bufIp)
  | .sayReq t => some (bufInt8 78 ++ bufString t)
  | .sourcesReq t => some (bufInt8 250 ++ t.write)
  | .newUserIDReq ip1 ip2 => some (bufInt8 77 ++ (bufIp ip1 ++ bufIp ip2))
  | .endOfDownloadReq t => some (bufInt8 73 ++ t.bytes)
  | .noSuchFileReq t => some (bufInt8 72 ++ t.bytes)
  | .queueRankReq t => some (bufInt8 92 ++ bufInt t)
  | .emuleClientInfoReq t => do return bufInt8 1 ++ (← t.write)
  | .emuleClientInfoReplyReq t => do return bufInt8 2 ++ (← t.write)
  | .emuleQueueRankingReq t => some (bufInt8 0x60 ++ EmuleQueueRanking.write t)
  | .emuleRequestSourcesReq t => some (bufInt8 0x81 ++ t.bytes)
  | .emuleRequestSourcesReplyReq t => some (bufInt8 0x82 ++ t.write emule)
  | .emuleFileDescReq t => some (bufInt8 0x61 ++ t.write)
  | .emuleCompressedPart t => some (bufInt8 (if t.usesixtyfour then 0xa1 else 0x40) ++ t.write)
  | .emuleMultiPacketReq md4 list =>
      some (bufInt8 0x92 ++ (md4.bytes ++ list.flatMap (writeShort emule)))
  | .emuleMultiPacketAnswerReq md4 list =>
      some (bufInt8 0x93 ++ (md4.bytes ++ list.flatMap writeShortAnswer))
  | .emuleSecIdentStateReq t => some (bufInt8 0x87 ++ t.write)
  | .emuleSignatureReq t => some (bufInt8 0x86 ++ t.write)
  | .emulePublicKeyReq t => some (bufInt8 0x85 ++ bufEstring t)
  | .emulePortTestReq _ => some (bufInt8 0xfe ++ bufInt8 0x12)
  | .emuleCaptchaReq t => some (bufInt8 0xa5 ++ bufEstring t)
  | .emuleCaptchaRes t => some (bufInt8 0xa6 ++ bufInt8 t)
  | .unknownReq _ s => some s

def ClientMsg.write (emule : EmuleProto) (t : ClientMsg) : Option (Int × Bytes) := do
  return (t.magic, ← t.packet emule)

end Mldonkey.Donkey
