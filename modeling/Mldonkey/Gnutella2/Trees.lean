import Mldonkey.Gnutella2.Packets

-- Gnutella2 packets are trees: behind its header and its name a packet has its children,
-- and behind these its payload. None stands for an exception.
namespace Mldonkey.Gnutella2

open BigEndian (bufInt8 getInt8)
open Bencode (Bytes)
open Donkey.LittleEndian

structure Packet where
  children : List Packet
  payload : Payload

def packet (p : Payload) (list : List Packet) : Packet := ⟨list, p⟩

-- BigEndian.get_int24
def getInt24Be (s : Bytes) (pos : ℕ) : Option Int := do
  let c0 ← getInt8 s (pos + 2)
  let c1 ← getInt8 s (pos + 1)
  let c2 ← getInt8 s pos
  return c0 + c1 * 2 ^ 8 + c2 * 2 ^ 16

section Encoding

-- What stands behind the name of a packet
def body (children : List Bytes) (payload : Bytes) : Bytes :=
  children.flatten ++ ((if children ≠ [] ∧ payload ≠ [] then [0] else []) ++ payload)

def bodySize (children : List Bytes) (payload : Bytes) : ℕ :=
  if children ≠ [] then
    (if payload ≠ [] then payload.length + 1 else payload.length) +
      (children.map List.length).sum
  else payload.length

def lenLenOf (size : ℕ) : ℕ := if size < 256 then 1 else if size < 65536 then 2 else 3

def bufLength (size : ℕ) : Bytes :=
  if lenLenOf size = 1 then bufInt8 size
  else if lenLenOf size = 2 then bufInt16 size
  else bufInt24 size

def controlByte (hasChildren : Bool) (lenLen nameLen : ℕ) : ℕ :=
  let cb := (if hasChildren then 4 else 0) ||| (lenLen <<< 6) ||| ((nameLen - 1) <<< 3)
  if cb = 0 then cb + 4 else cb

-- The packet of a payload and of children that are encoded
def framed (name : Bytes) (children : List Bytes) (payload : Bytes) : Bytes :=
  let size := bodySize children payload
  let cb := controlByte (children ≠ []) (lenLenOf size) name.length
  bufInt8 cb ++ (bufLength size ++ (name ++ body children payload))

mutual

def g2Encode : Packet → Option Bytes
  | ⟨children, payload⟩ => do
    let children ← g2EncodeAll children
    let (name, payload) ← encodePayload payload
    return framed name.text children payload

def g2EncodeAll : List Packet → Option (List Bytes)
  | [] => some []
  | c :: l => do return (← g2Encode c) :: (← g2EncodeAll l)

end

end Encoding

section Parsing

def lenLenIn (cb : ℕ) : ℕ := (cb >>> 6) &&& 3

def nameLenIn (cb : ℕ) : ℕ := ((cb >>> 3) &&& 7) + 1

def bigEndianIn (cb : ℕ) : Bool := (cb &&& 2) ≠ 0

def hasChildrenIn (cb : ℕ) : Bool := (cb &&& 4) ≠ 0

-- The length that the header at a position gives, and where the name begins
def lengthAt (s : Bytes) (pos lenLen : ℕ) (be : Bool) : Option (ℕ × ℕ) :=
  match lenLen, be with
  | 1, true => (getInt8 s (pos + 1)).map (·.toNat, 2)
  | 2, true => (BigEndian.getInt16 s (pos + 1)).map (·.toNat, 3)
  | 3, true => (getInt24Be s (pos + 1)).map (·.toNat, 4)
  | 1, false => (getInt8 s (pos + 1)).map (·.toNat, 2)
  | 2, false => (getInt16 s (pos + 1)).map (·.toNat, 3)
  | 3, false => (getInt24 s (pos + 1)).map (·.toNat, 4)
  | _, _ => some (0, 1)

def controlAt (s : Bytes) (pos : ℕ) : Option ℕ := (getInt8 s pos).map Int.toNat

-- A packet without a size among its children has the sizes in their names.
def isSize (c : Packet) : Bool :=
  match c.payload with
  | .qh2HSz _ => true
  | _ => false

def sizedName (be : Bool) (c : Packet) : Packet :=
  match c.payload with
  | .qh2HDn s =>
    if 4 ≤ s.length then
      match (if be then BigEndian.getInt s 0 else getInt s 0) with
      | some sz => ⟨c.children, .qh2HSzdn sz (s.drop 4)⟩
      | none => c
    else c
  | _ => c

def hitChildren (be : Bool) (p : Payload) (children : List Packet) : List Packet :=
  match p with
  | .qh2H => if children.any isSize then children else children.map (sizedName be)
  | _ => children

section Recursion

variable (parse : List Bytes → Bool → Bool → Bytes → Option Packet)

def g2ExtractPacket (rootName : List Bytes) (cb : ℕ) (s : Bytes) (be : Bool) (pos : ℕ) :
    Option (Packet × ℕ) := do
  let (pktLen, pktPos) ← lengthAt s pos (lenLenIn cb) be
  let msgLen := 1 + lenLenIn cb + nameLenIn cb + pktLen
  if s.length < pos + msgLen then none
  else do
    let name ← sub s (pos + pktPos) (nameLenIn cb)
    let packet ← sub s (pos + pktPos + nameLenIn cb) pktLen
    let p ← parse (name :: rootName) (hasChildrenIn cb) be packet
    return (p, pos + msgLen)

-- Each round but the last one takes a packet of at least two bytes.
def iterChild (name : List Bytes) (s : Bytes) : ℕ → ℕ → List Packet → Option (List Packet × ℕ)
  | 0, _, _ => none
  | fuel + 1, pos, children =>
    if s.length ≤ pos then some (children, s.length)
    else do
      let cb ← controlAt s pos
      if cb = 0 then return (children, pos + 1)
      else if s.length < pos + 1 + lenLenIn cb then none
      else do
        let (packet, pos) ← g2ExtractPacket parse name cb s (bigEndianIn cb) pos
        iterChild name s fuel pos (packet :: children)

end Recursion

-- The packets in a packet are shorter than it is.
def g2ParseDepth : ℕ → List Bytes → Bool → Bool → Bytes → Option Packet
  | 0, _, _, _, _ => none
  | fuel + 1, name, hasChildren, be, s => do
    let (children, pos) ←
      if hasChildren then iterChild (g2ParseDepth fuel) name s (s.length + 1) 0 []
      else some ([], 0)
    let p := decodePayload name be (← sub s pos (s.length - pos))
    return ⟨(hitChildren be p children).reverse, p⟩

def g2Parse (name : List Bytes) (hasChildren be : Bool) (s : Bytes) : Option Packet :=
  g2ParseDepth (s.length + 1) name hasChildren be s

-- The packet at a position, its bytes and where it ends
def parse (s : Bytes) (pos : ℕ) : Option (Packet × Bytes × ℕ) := do
  let cb ← controlAt s pos
  if s.length - pos < 1 + lenLenIn cb then none
  else do
    let (len, namePos) ← lengthAt s pos (lenLenIn cb) (bigEndianIn cb)
    let msgLen := 1 + lenLenIn cb + nameLenIn cb + len
    if s.length - pos < msgLen then none
    else do
      let name ← sub s (pos + namePos) (nameLenIn cb)
      let packet ← sub s (pos + namePos + nameLenIn cb) len
      let p ← g2Parse [name] (hasChildrenIn cb) (bigEndianIn cb) packet
      return (p, ← sub s pos msgLen, pos + msgLen)

end Parsing

end Mldonkey.Gnutella2
