import Mathlib.Data.List.Basic
import Mathlib.Tactic

-- MD4 as md4.c computes it, on strings.
namespace Mldonkey.Donkey

abbrev Bytes := List UInt8

-- Md4.t, a string of 16 bytes.
structure Md4 where
  bytes : Bytes
  length_bytes : bytes.length = 16

instance : DecidableEq Md4 := fun x y =>
  decidable_of_iff (x.bytes = y.bytes)
    ⟨fun h => by cases x; cases y; cases h; rfl, fun h => h ▸ rfl⟩

namespace Md4

def F (x y z : UInt32) : UInt32 := (x &&& y) ||| (~~~x &&& z)

def G (x y z : UInt32) : UInt32 := (x &&& y) ||| (x &&& z) ||| (y &&& z)

def H (x y z : UInt32) : UInt32 := x ^^^ y ^^^ z

def rotateLeft (x n : UInt32) : UInt32 := (x <<< n) ||| (x >>> (32 - n))

structure State where
  a : UInt32
  b : UInt32
  c : UInt32
  d : UInt32

def State.init : State := ⟨0x67452301, 0xefcdab89, 0x98badcfe, 0x10325476⟩

-- FF, GG and HH differ in their function and in a constant. The words take each
-- other's places from one operation to the next.
def State.operation (f : UInt32 → UInt32 → UInt32 → UInt32) (constant : UInt32) (s : State)
    (x n : UInt32) : State :=
  ⟨s.d, rotateLeft (s.a + (f s.b s.c s.d + x + constant)) n, s.b, s.c⟩

-- The words of the block in the order in which a round reads them.
def State.round (f : UInt32 → UInt32 → UInt32 → UInt32) (constant : UInt32) (order : List Nat)
    (rotations : List UInt32) (x : List UInt32) (s : State) : State :=
  (order.zip (rotations ++ rotations ++ rotations ++ rotations)).foldl
    (fun s p => s.operation f constant (x.getD p.1 0) p.2) s

def round1 : List Nat := [0, 1, 2, 3, 4, 5, 6, 7, 8, 9, 10, 11, 12, 13, 14, 15]

def round2 : List Nat := [0, 4, 8, 12, 1, 5, 9, 13, 2, 6, 10, 14, 3, 7, 11, 15]

def round3 : List Nat := [0, 8, 4, 12, 2, 10, 6, 14, 1, 9, 5, 13, 3, 11, 7, 15]

def State.add (s t : State) : State := ⟨s.a + t.a, s.b + t.b, s.c + t.c, s.d + t.d⟩

-- MD4Transform.
def State.transform (s : State) (x : List UInt32) : State :=
  let t := s.round F 0 round1 [3, 7, 11, 19] x
  let t := t.round G 0x5a827999 round2 [3, 5, 9, 13] x
  let t := t.round H 0x6ed9eba1 round3 [3, 9, 11, 15] x
  s.add t

def decode : Bytes → List UInt32
  | b0 :: b1 :: b2 :: b3 :: s =>
      (b0.toUInt32 ||| (b1.toUInt32 <<< 8) ||| (b2.toUInt32 <<< 16) ||| (b3.toUInt32 <<< 24))
        :: decode s
  | _ => []

def encodeWord (w : UInt32) : Bytes :=
  [w.toUInt8, (w >>> 8).toUInt8, (w >>> 16).toUInt8, (w >>> 24).toUInt8]

-- The input, then 0x80 and zeros up to 56 mod 64, then its number of bits.
def padded (s : Bytes) : Bytes :=
  let index := s.length % 64
  let padLen := if index < 56 then 56 - index else 120 - index
  let bits := 8 * s.length % 2 ^ 64
  s ++ 0x80 :: List.replicate (padLen - 1) 0
    ++ encodeWord (.ofNat bits) ++ encodeWord (.ofNat (bits / 2 ^ 32))

def transformAll (s : State) : Nat → List UInt32 → State
  | 0, _ => s
  | blocks + 1, x => transformAll (s.transform (x.take 16)) blocks (x.drop 16)

-- Md4.string.
def string (s : Bytes) : Md4 :=
  let x := decode (padded s)
  let t := transformAll .init (x.length / 16) x
  ⟨encodeWord t.a ++ encodeWord t.b ++ encodeWord t.c ++ encodeWord t.d, rfl⟩

end Md4

end Mldonkey.Donkey
