import Mldonkey.Gnutella.Codecs
import Mldonkey.Uids.Uid

-- The payloads of Gnutella2 packets, each under the name that it has on the wire. The
-- meaning of a name depends on the names of the packets around it. None stands for an
-- exception.
namespace Mldonkey.Gnutella2

open BigEndian (bufInt8 getInt8)
open Bencode (Bytes ofString)
open Donkey (Ip Md4)
open Donkey.LittleEndian
open Gnutella (getString0 unsplit)
open Hashes (Hash)
open Uids (Uid UidType)

abbrev Addr := Ip × Int

inductive Payload where
  | pi
  | piRelay
  | piUdp (addr : Addr)
  | po
  | poRelay
  | lni
  | lniNa (addr : Addr)
  | lniGu (uid : Md4)
  | lniV (vendor : Bytes)
  | lniLs (files kB : Int)
  | lniHs (leaves maxLeaves : Int)
  | khl
  | khlTs (time : Int)
  | khlNh (addr : Addr)
  | khlNhGu (uid : Md4)
  | khlNhV (vendor : Bytes)
  | khlNhLs (files kB : Int)
  | khlNhHs (leaves maxLeaves : Int)
  | khlCh (addr : Addr) (lastConn : Int)
  | khlChGu (uid : Md4)
  | khlChV (vendor : Bytes)
  | khlChLs (files kB : Int)
  | khlChHs (leaves maxLeaves : Int)
  | push (addr : Addr)
  | qhtReset
  | qhtPatch (p : Gnutella.QrtPatch.T)
  | qkr
  | qkrRna (addr : Addr)
  | qka
  | qkaQk (key : Int)
  | qkaSna (addr : Addr)
  | qkaQna (addr : Addr)
  | q2 (quid : Md4)
  | q2Udp (addr : Addr) (key : Option Int)
  | q2Urn (uid : Uid)
  | q2Dn (s : Bytes)
  | q2Md (s : Bytes)
  | q2Szr (min max : Int)
  | q2I (list : List Bytes)
  | q2Nog1
  | qa (quid : Md4)
  | qaTs (time : Int)
  | qaD (addr : Addr) (leaves : Int)
  | qaS (addr : Addr) (time : Option Int)
  | qaFr (addr : Addr)
  | qh2 (hops : Int) (quid : Md4)
  | qh2Gu (uid : Md4)
  | qh2Na (addr : Addr)
  | qh2Nh (addr : Addr)
  | qh2V (vendor : Bytes)
  | qh2Bup
  | qh2Pch
  | qh2Bh
  | qh2Hg (group : Int)
  | qh2Ss (queue capacity speed : Int)
  | qh2HgSs (queue capacity speed : Int)
  | qh2H
  | qh2HUrn (uid : Uid)
  | qh2HUrl (s : Bytes)
  | qh2HDn (s : Bytes)
  | qh2HSzdn (size : Int) (s : Bytes)
  | qh2HSz (size : Int)
  | qh2HG (group : Int)
  | qh2HId (id : Int)
  | qh2HCsc (sources : Int)
  | qh2HPart (length : Int)
  | qh2HCom (s : Bytes)
  | qh2HPvu (s : Bytes)
  | qh2Md (s : Bytes)
  | qh2Upro
  | qh2UproNick (s : Bytes)
  | to (uid : Md4)
  | uprod
  | uprodXml (s : Bytes)
  | uproc
  | unknown (names : List Bytes) (be : Bool) (s : Bytes)

-- The names that packets have, and all others
inductive Name where
  | to | pi | relay | udp | po | lni | na | gu | v | ls | hs | khl | ts | nh | ch | push
  | qkr | rna | qka | qk | sna | qna | q2 | md | urn | dn | szr | i | nog1 | qa | d | s | fr
  | qh2 | bup | bh | pch | hg | ss | h | url | com | pvu | upro | nick | sz | g | id | csc | part
  | qht | uproc | uprod | xml | other
  deriving DecidableEq

namespace Name

def text : Name → Bytes
  | .to => ofString "TO"
  | .pi => ofString "PI"
  | .relay => ofString "RELAY"
  | .udp => ofString "UDP"
  | .po => ofString "PO"
  | .lni => ofString "LNI"
  | .na => ofString "NA"
  | .gu => ofString "GU"
  | .v => ofString "V"
  | .ls => ofString "LS"
  | .hs => ofString "HS"
  | .khl => ofString "KHL"
  | .ts => ofString "TS"
  | .nh => ofString "NH"
  | .ch => ofString "CH"
  | .push => ofString "PUSH"
  | .qkr => ofString "QKR"
  | .rna => ofString "RNA"
  | .qka => ofString "QKA"
  | .qk => ofString "QK"
  | .sna => ofString "SNA"
  | .qna => ofString "QNA"
  | .q2 => ofString "Q2"
  | .md => ofString "MD"
  | .urn => ofString "URN"
  | .dn => ofString "DN"
  | .szr => ofString "SZR"
  | .i => ofString "I"
  | .nog1 => ofString "NOG1"
  | .qa => ofString "QA"
  | .d => ofString "D"
  | .s => ofString "S"
  | .fr => ofString "FR"
  | .qh2 => ofString "QH2"
  | .bup => ofString "BUP"
  | .bh => ofString "BH"
  | .pch => ofString "PCH"
  | .hg => ofString "HG"
  | .ss => ofString "SS"
  | .h => ofString "H"
  | .url => ofString "URL"
  | .com => ofString "COM"
  | .pvu => ofString "PVU"
  | .upro => ofString "UPRO"
  | .nick => ofString "NICK"
  | .sz => ofString "SZ"
  | .g => ofString "G"
  | .id => ofString "ID"
  | .csc => ofString "CSC"
  | .part => ofString "PART"
  | .qht => ofString "QHT"
  | .uproc => ofString "UPROC"
  | .uprod => ofString "UPROD"
  | .xml => ofString "XML"
  | .other => []

def all : List Name :=
  [.to, .pi, .relay, .udp, .po, .lni, .na, .gu, .v, .ls, .hs, .khl, .ts, .nh, .ch, .push,
    .qkr, .rna, .qka, .qk, .sna, .qna, .q2, .md, .urn, .dn, .szr, .i, .nog1, .qa, .d, .s, .fr,
    .qh2, .bup, .bh, .pch, .hg, .ss, .h, .url, .com, .pvu, .upro, .nick, .sz, .g, .id, .csc, .part,
    .qht, .uproc, .uprod, .xml]

def read (s : Bytes) : Name := (all.find? fun n => n.text == s).getD .other

end Name

-- G2_LittleEndian
def getAddr (s : Bytes) (pos len : ℕ) : Option Addr := do
  let ip ← getIp s pos
  let port ← (if pos + 6 ≤ len then getInt16 s (pos + 4) else some 0 : Option Int)
  return (ip, port)

def bufAddr (addr : Addr) : Bytes := bufIp addr.1 ++ bufInt16 addr.2

def bufShortAddr (addr : Addr) : Bytes := bufIp addr.1

-- direct_of_string of String.sub s pos n
def getHash (n : ℕ) (s : Bytes) (pos : ℕ) : Option (Hash n) :=
  if h : ((s.drop pos).take n).length = n then some ⟨_, h⟩ else none

-- get_string and get_uid, for len the length of s
def getString (s : Bytes) (pos : ℕ) : Option (Bytes × ℕ) := getString0 s pos

def getUid (s : Bytes) (pos : ℕ) : Option (Uid × ℕ) := do
  let (f, pos) ← getString s pos
  let (uid, pos) ← show Option (UidType × ℕ) from
    if f = ofString "ed2k" then (getHash 16 s pos).map fun ed2k => (UidType.ed2k ed2k, pos + 16)
    else if f = ofString "bitprint" ∨ f = ofString "bp" then do
      let sha1 ← getHash 20 s pos
      let ttr ← getHash 24 s (pos + 20)
      return (UidType.bitprint sha1 ttr, pos + 44)
    else if f = ofString "sha1" then
      (getHash 20 s pos).map fun sha1 => (UidType.sha1 sha1, pos + 20)
    else if f = ofString "tree:tiger" ∨ f = ofString "ttr" then
      (getHash 24 s pos).map fun ttr => (UidType.tigerTree ttr, pos + 24)
    else if f = ofString "md5" then (getHash 16 s pos).map fun md5 => (UidType.md5 md5, pos + 16)
    else none
  return (Uids.create uid, pos)

def bufUid (s : Uid) : Bytes :=
  match s.toUid with
  | .bitprint sha1 ttr => ofString "bp" ++ 0 :: (sha1.bytes ++ ttr.bytes)
  | .sha1 sha1 => ofString "sha1" ++ 0 :: sha1.bytes
  | .ed2k ed2k => ofString "ed2k" ++ 0 :: ed2k.bytes
  | .md5 md5 => ofString "md5" ++ 0 :: md5.bytes
  | .tigerTree ttr => ofString "ttr" ++ 0 :: ttr.bytes
  | _ => []

-- Two numbers of 4 bytes, and two of 2 bytes
def bufInts (a b : Int) : Bytes := bufInt64_32 a ++ bufInt64_32 b

def bufInts16 (a b : Int) : Bytes := bufInt16 a ++ bufInt16 b

-- An address, and a number of 4 bytes if there is one
def bufAddrInt (addr : Addr) : Option Int → Bytes
  | some n => bufAddr addr ++ bufInt64_32 n
  | none => bufAddr addr

def bufSs (queue capacity speed : Int) : Bytes :=
  bufInt16 queue ++ (bufInt8 capacity ++ bufInt speed)

def encodePayload : Payload → Option (Name × Bytes)
  | .to md4 => some (.to, md4.bytes)
  | .pi => some (.pi, [])
  | .piRelay => some (.relay, [])
  | .piUdp addr => some (.udp, bufAddr addr)
  | .po => some (.po, [])
  | .poRelay => some (.relay, [])
  | .lni => some (.lni, [])
  | .lniNa addr => some (.na, bufAddr addr)
  | .lniGu md4 => some (.gu, md4.bytes)
  | .khlNhGu md4 => some (.gu, md4.bytes)
  | .khlChGu md4 => some (.gu, md4.bytes)
  | .lniV s => some (.v, s)
  | .khlNhV s => some (.v, s)
  | .khlChV s => some (.v, s)
  | .lniLs a b => some (.ls, bufInts a b)
  | .khlNhLs a b => some (.ls, bufInts a b)
  | .khlChLs a b => some (.ls, bufInts a b)
  | .khlNhHs a b => some (.hs, bufInt8 a ++ bufInt8 b)
  | .lniHs a b => some (.hs, bufInts16 a b)
  | .khlChHs a b => some (.hs, bufInts16 a b)
  | .khl => some (.khl, [])
  | .khlTs time => some (.ts, bufInt64_32 time)
  | .khlNh addr => some (.nh, bufAddr addr)
  | .khlCh addr lastConn => some (.ch, bufAddrInt addr (some lastConn))
  | .push addr => some (.push, bufAddr addr)
  | .qkr => some (.qkr, [])
  | .qkrRna addr => some (.rna, bufAddr addr)
  | .qka => some (.qka, [])
  | .qkaSna addr => some (.sna, bufShortAddr addr)
  | .qkaQna addr => some (.qna, bufAddr addr)
  | .qkaQk key => some (.qk, bufInt64_32 key)
  | .q2 md4 => some (.q2, md4.bytes)
  | .q2Udp addr key => some (.udp, bufAddrInt addr key)
  | .q2Urn uid => some (.urn, bufUid uid)
  | .q2Dn s => some (.dn, s)
  | .q2Md s => some (.md, s)
  | .q2Szr min max => some (.szr, bufInts min max)
  | .q2I list => some (.i, unsplit 0 list)
  | .q2Nog1 => some (.nog1, [])
  | .qa md4 => some (.qa, md4.bytes)
  | .qaTs time => some (.ts, bufInt64_32 time)
  | .qaD addr leaves => some (.d, bufAddr addr ++ bufInt16 leaves)
  | .qaS addr time => some (.s, bufAddrInt addr time)
  | .qaFr addr => some (.fr, bufAddr addr)
  | .qh2 hops md4 => some (.qh2, bufInt8 hops ++ md4.bytes)
  | .qh2Gu md4 => some (.gu, md4.bytes)
  | .qh2V s => some (.v, s)
  | .qh2Na addr => some (.na, bufAddr addr)
  | .qh2Nh addr => some (.nh, bufAddr addr)
  | .qh2Bup => some (.bup, [])
  | .qh2Pch => some (.pch, [])
  | .qh2Bh => some (.bh, [])
  | .qh2Hg c => some (.hg, bufInt8 c)
  | .qh2Ss queue capacity speed => some (.ss, bufSs queue capacity speed)
  | .qh2HgSs queue capacity speed => some (.ss, bufSs queue capacity speed)
  | .qh2H => some (.h, [])
  | .qh2HUrn uid => some (.urn, bufUid uid)
  | .qh2HUrl s => some (.url, s)
  | .qh2HCom s => some (.com, s)
  | .qh2HPvu s => some (.pvu, s)
  | .qh2Md s => some (.md, s)
  | .qh2Upro => some (.upro, [])
  | .qh2UproNick s => some (.nick, s)
  | .qh2HDn s => some (.dn, s)
  | .qh2HSzdn size s => some (.dn, bufInt64_32 size ++ s)
  | .qh2HSz size => some (.sz, bufInt64 size)
  | .qh2HG group => some (.g, bufInt8 group)
  | .qh2HId id => some (.id, bufInt64_32 id)
  | .qh2HCsc sources => some (.csc, bufInt16 sources)
  | .qh2HPart length => some (.part, bufInt64_32 length)
  | .uproc => some (.uproc, [])
  | .uprod => some (.uprod, [])
  | .uprodXml s => some (.xml, s)
  | .qhtPatch p => some (.qht, bufInt8 1 ++ Gnutella.QrtPatch.write p)
  | .qhtReset => some (.qht, [0, 0, 0, 16, 0, 1])
  | .unknown _ _ _ => none

-- Readers of whole payloads
def addrOf (s : Bytes) : Option Addr := getAddr s 0 s.length

def stringOf (s : Bytes) : Option Bytes := (getString s 0).map (·.1)

def uidOf (s : Bytes) : Option Uid := (getUid s 0).map (·.1)

def intsOf (f : Int → Int → Payload) (s : Bytes) : Option Payload := do
  return f (← getInt s 0) (← getInt s 4)

def ints16Of (f : Int → Int → Payload) (s : Bytes) : Option Payload := do
  return f (← getInt16 s 0) (← getInt16 s 2)

def addrIntOf (f : Addr → Option Int → Payload) (s : Bytes) : Option Payload :=
  if 6 < s.length then do
    return f (← getAddr s 0 (s.length - 4)) (some (← getInt s (s.length - 4)))
  else do
    return f (← getAddr s 0 s.length) none

def ssOf (f : Int → Int → Int → Payload) (s : Bytes) : Option Payload := do
  return f (← getInt16 s 0) (← getInt8 s 2) (← getInt s 3)

def qhtOf (s : Bytes) : Option Payload := do
  if (← getInt8 s 0) = 1 then
    let p : Gnutella.QrtPatch.T := ⟨← getInt8 s 1, ← getInt8 s 2, ← getInt8 s 3, ← getInt8 s 4,
      ← Gnutella.subTo s 5 5⟩
    return .qhtPatch p
  else return .qhtReset

-- The match on the names of a packet, its own first
def decodeNames (names : List Name) (s : Bytes) : Option Payload :=
  match names with
  | .to :: _ => (getMd4 s 0).map .to
  | [.pi] => some .pi
  | [.relay, .pi] => some .piRelay
  | [.udp, .pi] => (addrOf s).map .piUdp
  | [.po] => some .po
  | [.relay, .po] => some .poRelay
  | [.lni] => some .lni
  | [.na, .lni] => (addrOf s).map .lniNa
  | [.gu, .lni] => (getMd4 s 0).map .lniGu
  | [.v, .lni] => (sub s 0 4).map .lniV
  | [.ls, .lni] => intsOf .lniLs s
  | [.hs, .lni] => ints16Of .lniHs s
  | [.khl] => some .khl
  | [.ts, .khl] => (getInt s 0).map .khlTs
  | [.nh, .khl] => (addrOf s).map .khlNh
  | [.gu, .nh, .khl] => (getMd4 s 0).map .khlNhGu
  | [.v, .nh, .khl] => (sub s 0 4).map .khlNhV
  | [.ls, .nh, .khl] => intsOf .khlNhLs s
  | [.hs, .nh, .khl] =>
    if s.length = 2 then do return .khlNhHs (← getInt8 s 0) (← getInt8 s 1) else none
  | [.ch, .khl] => do
    return .khlCh (← getAddr s 0 (s.length - 4)) (← getInt s (s.length - 4))
  | [.gu, .ch, .khl] => (getMd4 s 0).map .khlChGu
  | [.v, .ch, .khl] => (sub s 0 4).map .khlChV
  | [.ls, .ch, .khl] => intsOf .khlChLs s
  | [.hs, .ch, .khl] => ints16Of .khlChHs s
  | [.push] => (addrOf s).map .push
  | [.qkr] => some .qkr
  | [.rna, .qkr] => (addrOf s).map .qkrRna
  | [.qka] => some .qka
  | [.qk, .qka] => (getInt s 0).map .qkaQk
  | [.sna, .qka] => (addrOf s).map .qkaSna
  | [.qna, .qka] => (addrOf s).map .qkaQna
  | [.q2] => (getMd4 s 0).map .q2
  | [.udp, .q2] => addrIntOf .q2Udp s
  | [.md, .q2] => (stringOf s).map .q2Md
  | [.urn, .q2] => (uidOf s).map .q2Urn
  | [.dn, .q2] => (stringOf s).map .q2Dn
  | [.szr, .q2] => intsOf .q2Szr s
  | [.i, .q2] => some (.q2I (Indexing.split 0 s))
  | [.nog1, .q2] => some .q2Nog1
  | [.qa] => (getMd4 s 0).map .qa
  | [.ts, .qa] => (getInt s 0).map .qaTs
  | [.d, .qa] => do return .qaD (← getAddr s 0 6) (← getInt16 s 6)
  | [.s, .qa] => addrIntOf .qaS s
  | [.fr, .qa] => (addrOf s).map .qaFr
  | [.qh2] => do return .qh2 (← getInt8 s 0) (← getMd4 s 1)
  | [.gu, .qh2] => (getMd4 s 0).map .qh2Gu
  | [.v, .qh2] => (sub s 0 4).map .qh2V
  | [.na, .qh2] => (addrOf s).map .qh2Na
  | [.nh, .qh2] => (addrOf s).map .qh2Nh
  | [.bup, .qh2] => some .qh2Bup
  | [.bh, .qh2] => some .qh2Bh
  | [.pch, .qh2] => some .qh2Pch
  | [.hg, .qh2] => (getInt8 s 0).map .qh2Hg
  | [.ss, .hg, .qh2] => ssOf .qh2HgSs s
  | [.ss, .qh2] => ssOf .qh2Ss s
  | [.h, .qh2] => some .qh2H
  | [.urn, .h, .qh2] => (uidOf s).map .qh2HUrn
  | [.url, .h, .qh2] => (stringOf s).map .qh2HUrl
  | [.com, .h, .qh2] => (stringOf s).map .qh2HCom
  | [.pvu, .h, .qh2] => (stringOf s).map .qh2HPvu
  | [.md, .qh2] => (stringOf s).map .qh2Md
  | [.upro, .qh2] => some .qh2Upro
  | [.nick, .upro, .qh2] => (stringOf s).map .qh2UproNick
  | [.dn, .h, .qh2] => some (.qh2HDn s)
  | [.sz, .h, .qh2] =>
    (if s.length = 4 then getInt s 0 else getInt64 s 0).map .qh2HSz
  | [.g, .h, .qh2] => (getInt8 s 0).map .qh2HG
  | [.id, .h, .qh2] => (getInt s 0).map .qh2HId
  | [.csc, .h, .qh2] => (getInt16 s 0).map .qh2HCsc
  | [.part, .h, .qh2] => (getInt s 0).map .qh2HPart
  | [.qht] => qhtOf s
  | [.uproc] => some .uproc
  | [.uprod] => some .uprod
  | [.xml, .uprod] => (stringOf s).map .uprodXml
  | _ => none

-- A payload that cannot be read is kept as it is.
def decodePayload (names : List Bytes) (be : Bool) (s : Bytes) : Payload :=
  if be then .unknown names be s
  else
    match decodeNames (names.map Name.read) s with
    | some p => p
    | none => .unknown names be s

end Mldonkey.Gnutella2
