import Mldonkey.Donkey.LittleEndian
import Mldonkey.Ggep.Extensions
import Mldonkey.Indexing.Form

-- The messages of Gnutella: their parsers and writers. None stands for an exception.
namespace Mldonkey.Gnutella

open BigEndian (bufInt8 getInt8)
open Bencode (Bytes ofString)
open Donkey (Ip Md4)
open Donkey.LittleEndian
open Ggep.Cobs (Extension)

def getString0 (s : Bytes) (pos : ℕ) : Option (Bytes × ℕ) :=
  match (s.drop pos).findIdx? (· = 0) with
  | some n => some ((s.drop pos).take n, pos + n + 1)
  | none => if pos ≤ s.length then some (s.drop pos, s.length) else none

def bufString (s : Bytes) : Bytes := s ++ [0]

-- String.sub s pos (String.length s - n)
def subTo (s : Bytes) (pos n : ℕ) : Option Bytes :=
  if n ≤ s.length then sub s pos (s.length - n) else none

-- String2.unsplit
def unsplit (c : UInt8) : List Bytes → Bytes
  | [] => []
  | [x] => x
  | x :: y :: l => x ++ c :: unsplit c (y :: l)

namespace Ping

structure ComplexType where
  ip : Ip
  port : Int
  nfiles : Int
  nkb : Int
  s : Bytes
  deriving DecidableEq

inductive T where
  | simplePing
  | complexPing (t : ComplexType)
  deriving DecidableEq

def parse (s : Bytes) : Option T :=
  if s = [] then some .simplePing
  else do
    let port ← getInt16 s 0
    let ip ← getIp s 2
    let nfiles ← getInt s 6
    let nkb ← getInt s 10
    let s ← subTo s 14 15
    return .complexPing ⟨ip, port, nfiles, nkb, s⟩

def write : T → Bytes
  | .simplePing => []
  | .complexPing t =>
    bufInt16 t.port ++ (bufIp t.ip ++ (bufInt64_32 t.nfiles ++ (bufInt64_32 t.nkb ++ t.s)))

end Ping

namespace Pong

structure T where
  ip : Ip
  port : Int
  nfiles : Int
  nkb : Int
  ggep : List Extension
  deriving DecidableEq

def parse (s : Bytes) : Option T := do
  let port ← getInt16 s 0
  let ip ← getIp s 2
  let nfiles ← getInt s 6
  let nkb ← getInt s 10
  let ggep ← Ggep.Cobs.parse (← subTo s 14 14)
  return ⟨ip, port, nfiles, nkb, ggep⟩

def write (t : T) : Option Bytes := do
  let ggep ← Ggep.Cobs.write t.ggep
  return bufInt16 t.port ++ (bufIp t.ip ++ (bufInt t.nfiles ++ (bufInt t.nkb ++ ggep)))

end Pong

namespace Bye

structure T where
  code : Int
  reason : Bytes
  deriving DecidableEq

def parse (s : Bytes) : Option T := do
  let code ← getInt16 s 0
  let reason ← subTo s 2 3
  return ⟨code, reason⟩

def write (t : T) : Bytes := bufInt16 t.code ++ (t.reason ++ bufInt8 0)

end Bye

namespace Push

structure T where
  guid : Md4
  index : Int
  ip : Ip
  port : Int

def parse (s : Bytes) : Option T := do
  let guid ← getMd4 s 0
  let index ← getInt s 16
  let ip ← getIp s 20
  let port ← getInt16 s 24
  return ⟨guid, index, ip, port⟩

def write (t : T) : Bytes := t.guid.bytes ++ (bufInt t.index ++ (bufIp t.ip ++ bufInt16 t.port))

end Push

namespace Vendor

inductive T where
  | supported (list : List (Bytes × Int × Int))
  | bear4HopsFlow (nhops : Int)
  | bear7ConnectBack (port : Int)
  | gtkg7UdpConnectBack (port : Int) (md4 : Md4)
  | vUnknown (vendor : Bytes) (num version : Int) (s : Bytes)

def parse (s : Bytes) : Option T := do
  let vendor ← sub s 0 4
  if vendor = [0, 0, 0, 0] then
    let n ← getInt16 s 8
    let list ← (List.range' 1 n.toNat).mapM fun i => do
      return (← sub s (2 + i * 8) 4, ← getInt16 s (6 + i * 8), ← getInt16 s (8 + i * 8))
    return .supported list
  else
    let num ← getInt16 s 4
    let version ← getInt16 s 6
    if vendor = ofString "BEAR" ∧ num = 4 ∧ version = 1 then
      return .bear4HopsFlow (← getInt8 s 8)
    else if vendor = ofString "BEAR" ∧ num = 7 ∧ version = 1 then
      return .bear7ConnectBack (← getInt16 s 8)
    else if vendor = ofString "GTKG" ∧ num = 7 ∧ version = 1 then
      return .gtkg7UdpConnectBack (← getInt16 s 8) (← getMd4 s 10)
    else return .vUnknown vendor num version (← subTo s 8 8)

def writeOne (p : Bytes × Int × Int) : Bytes := p.1 ++ (bufInt16 p.2.1 ++ bufInt16 p.2.2)

def write : T → Bytes
  | .supported list => List.replicate 8 0 ++ (bufInt16 list.length ++ list.flatMap writeOne)
  | .bear4HopsFlow nhops => ofString "BEAR" ++ (bufInt16 4 ++ (bufInt16 1 ++ bufInt8 nhops))
  | .bear7ConnectBack port => ofString "BEAR" ++ (bufInt16 7 ++ (bufInt16 1 ++ bufInt16 port))
  | .gtkg7UdpConnectBack port md4 =>
    ofString "GTKG" ++ (bufInt16 7 ++ (bufInt16 1 ++ (bufInt8 port ++ md4.bytes)))
  | .vUnknown vendor num version s => vendor ++ (bufInt16 num ++ (bufInt16 version ++ s))

end Vendor

namespace Query

structure T where
  minSpeed : Int
  keywords : Bytes
  xmlQuery : List Bytes
  s : Bytes
  deriving DecidableEq

def parse (s : Bytes) : Option T := do
  let minSpeed ← getInt16 s 0
  let (keywords, pos) ← getString0 s 2
  let (xmlQuery, pos) ← getString0 s pos
  let s ← subTo s pos pos
  return ⟨minSpeed, keywords, Indexing.split 28 xmlQuery, s⟩

def write (t : T) : Bytes :=
  bufInt16 t.minSpeed ++ (bufString t.keywords ++ (bufString (unsplit 28 t.xmlQuery) ++ t.s))

end Query

namespace QueryReply

structure File where
  index : Int
  size : Int
  name : Bytes
  info : List Bytes
  deriving DecidableEq

structure T where
  ip : Ip
  port : Int
  speed : Int
  files : List File
  guid : Md4
  vendor : Bytes
  speedMeasured : Option Bool
  busy : Option Bool
  stable : Option Bool
  xmlReply : Bytes
  supportChat : Bool
  dontConnect : Option Bool

def iterFiles (s : Bytes) : ℕ → ℕ → List File → Option (List File × ℕ)
  | 0, pos, list => some (list.reverse, pos)
  | nfiles + 1, pos, list => do
    let index ← getInt s pos
    let size ← getInt s (pos + 4)
    let (name, pos) ← getString0 s (pos + 8)
    let (info, pos) ← getString0 s pos
    iterFiles s nfiles pos (⟨index, size, name, Indexing.split 28 info⟩ :: list)

-- A flag of which one byte says whether it is there, the other what it is
def flag (valid value bit : ℕ) : Option Bool :=
  if valid &&& bit = 0 then none else some (value &&& bit != 0)

def parse (s : Bytes) : Option T := do
  let nfiles ← getInt8 s 0
  let port ← getInt16 s 1
  let ip ← getIp s 3
  let speed ← getInt s 7
  let (files, pos) ← iterFiles s nfiles.toNat 11 []
  let vendor ← sub s pos 4
  let byte5 := (← getInt8 s (pos + 5)).toNat
  let byte6 := (← getInt8 s (pos + 6)).toNat
  let (supportChat, xmlReply) := (do
    let supportChat ← getInt8 s (pos + 9)
    let (xmlReply, _) ← getString0 s (pos + 10)
    return (decide (supportChat = 1), xmlReply) : Option (Bool × Bytes)).getD (false, [])
  let guid ← (if 16 ≤ s.length then getMd4 s (s.length - 16) else none)
  return {
    ip, port, speed, files, guid, vendor, xmlReply, supportChat
    dontConnect := flag byte6 byte5 1
    busy := flag byte5 byte6 4
    stable := flag byte5 byte6 8
    speedMeasured := flag byte5 byte6 16 }

def writeFile (f : File) : Bytes :=
  bufInt f.index ++ (bufInt64_32 f.size ++ (bufString f.name ++ bufString (unsplit 28 f.info)))

def valueBit (v : Option Bool) (bit : ℕ) : ℕ := if v = some true then bit else 0

def validBit (v : Option Bool) (bit : ℕ) : ℕ := if v = none then 0 else bit

def byte5 (t : T) : ℕ :=
  valueBit t.dontConnect 1 ||| 2 ||| validBit t.busy 4 ||| validBit t.stable 8 |||
    validBit t.speedMeasured 16

def byte6 (t : T) : ℕ :=
  validBit t.dontConnect 1 ||| valueBit t.busy 4 ||| valueBit t.stable 8 |||
    valueBit t.speedMeasured 16

def write (t : T) : Bytes :=
  bufInt8 t.files.length ++ (bufInt16 t.port ++ (bufIp t.ip ++ (bufInt t.speed ++
    (t.files.flatMap writeFile ++ (t.vendor ++ (bufInt8 4 ++ (bufInt8 (byte5 t) ++
      (bufInt8 (byte6 t) ++ (bufInt16 (t.xmlReply.length + 1) ++
        (bufInt8 (if t.supportChat then 1 else 0) ++
          (bufString t.xmlReply ++ t.guid.bytes)))))))))))

end QueryReply

namespace QrtReset

structure T where
  tableLength : Int
  infinity : Int
  deriving DecidableEq

def parse (s : Bytes) : Option T := do return ⟨← getInt s 1, ← getInt8 s 5⟩

def write (t : T) : Bytes := bufInt t.tableLength ++ bufInt8 t.infinity

end QrtReset

namespace QrtPatch

structure T where
  seqNo : Int
  seqSize : Int
  compressor : Int
  entryBits : Int
  table : Bytes
  deriving DecidableEq

def parse (s : Bytes) : Option T := do
  return ⟨← getInt8 s 1, ← getInt8 s 2, ← getInt8 s 3, ← getInt8 s 4, ← subTo s 5 5⟩

def write (t : T) : Bytes :=
  bufInt8 t.seqNo ++ (bufInt8 t.seqSize ++ (bufInt8 t.compressor ++
    (bufInt8 t.entryBits ++ t.table)))

end QrtPatch

inductive PacketType where
  | ping | pong | bye | qrp | vendor | standard | push | query | queryReply
  | unknown (i : Int)
  deriving DecidableEq

inductive Payload where
  | pingReq (t : Ping.T)
  | pongReq (t : Pong.T)
  | byeReq (t : Bye.T)
  | pushReq (t : Push.T)
  | qrtPatchReq (t : QrtPatch.T)
  | qrtResetReq (t : QrtReset.T)
  | queryReq (t : Query.T)
  | queryReplyReq (t : QueryReply.T)
  | vendorReq (t : Vendor.T)
  | unknownReq (type : PacketType) (s : Bytes)

structure Packet where
  uid : Md4
  type : PacketType
  ttl : Int
  hops : Int
  payload : Payload

-- A parser that raises leaves the packet unknown.
def parse (type : PacketType) (s : Bytes) : Payload :=
  let parsed : Option Payload := match type with
    | .ping => (Ping.parse s).map .pingReq
    | .pong => (Pong.parse s).map .pongReq
    | .push => (Push.parse s).map .pushReq
    | .bye => (Bye.parse s).map .byeReq
    | .query => (Query.parse s).map .queryReq
    | .queryReply => (QueryReply.parse s).map .queryReplyReq
    | .qrp => do
      if (← getInt8 s 0) = 0 then return .qrtResetReq (← QrtReset.parse s)
      else return .qrtPatchReq (← QrtPatch.parse s)
    | .vendor => (Vendor.parse s).map .vendorReq
    | .standard => some (.unknownReq (.unknown 50) s)
    | .unknown i => some (.unknownReq (.unknown i) s)
  parsed.getD (.unknownReq type s)

def write : Payload → Option Bytes
  | .pingReq t => some (Ping.write t)
  | .pongReq t => Pong.write t
  | .pushReq t => some (Push.write t)
  | .byeReq t => some (Bye.write t)
  | .queryReq t => some (Query.write t)
  | .vendorReq t => some (Vendor.write t)
  | .queryReplyReq t => some (QueryReply.write t)
  | .qrtPatchReq t => some (bufInt8 1 ++ QrtPatch.write t)
  | .qrtResetReq t => some (bufInt8 0 ++ QrtReset.write t)
  | .unknownReq _ s => some s

def PacketType.byte : PacketType → Int
  | .ping => 0
  | .pong => 1
  | .bye => 2
  | .qrp => 48
  | .vendor => 49
  | .standard => 50
  | .push => 64
  | .query => 128
  | .queryReply => 129
  | .unknown i => i

def PacketType.ofByte (n : Int) : PacketType :=
  if n = 0 then .ping
  else if n = 1 then .pong
  else if n = 2 then .bye
  else if n = 48 then .qrp
  else if n = 49 then .vendor
  else if n = 64 then .push
  else if n = 128 then .query
  else if n = 129 then .queryReply
  else .unknown n

def newPacket (uid : Md4) (t : Payload) : Packet where
  uid
  type := match t with
    | .pingReq _ => .ping
    | .pongReq _ => .pong
    | .pushReq _ => .push
    | .byeReq _ => .bye
    | .queryReq _ => .query
    | .vendorReq _ => .vendor
    | .qrtResetReq _ => .qrp
    | .qrtPatchReq _ => .qrp
    | .queryReplyReq _ => .queryReply
    | .unknownReq type _ => type
  ttl := match t with
    | .pingReq _ => 4
    | .queryReq _ => 4
    | _ => 1
  hops := 0
  payload := t

-- A round of the loop in gnutella_handler: a packet and what is left in the buffer.
def readPacket (b : Bytes) : Option (Packet × Bytes) :=
  if 23 ≤ b.length then do
    let msgLen := (← getInt b 19).toNat
    if 23 + msgLen ≤ b.length then
      let uid ← getMd4 b 0
      let type := PacketType.ofByte (← getInt8 b 16)
      let ttl ← getInt8 b 17
      let hops ← getInt8 b 18
      let data ← sub b 23 msgLen
      return (⟨uid, type, ttl, hops, parse type data⟩, b.drop (msgLen + 23))
    else none
  else none

def rounds : ℕ → Bytes → List Packet
  | 0, _ => []
  | n + 1, b =>
    match readPacket b with
    | none => []
    | some (pkt, b) => pkt :: rounds n b

end Mldonkey.Gnutella
