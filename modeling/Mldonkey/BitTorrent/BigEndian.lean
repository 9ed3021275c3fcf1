import Mathlib.Data.List.Basic
import Mathlib.Tactic

-- Numbers in network order. An int has 63 bits, of which only the low ones are
-- written.
namespace Mldonkey.BigEndian

abbrev Bytes := List UInt8

def bufInt8 (i : Int) : Bytes := [UInt8.ofNat (i % 256).toNat]

def bufInt16 (i : Int) : Bytes := bufInt8 (i / 2 ^ 8) ++ bufInt8 i

-- buf_int and str_int; buf_int64_32 writes the same bytes of an int64.
def bufInt (i : Int) : Bytes :=
  bufInt8 (i / 2 ^ 24) ++ bufInt8 (i / 2 ^ 16) ++ bufInt8 (i / 2 ^ 8) ++ bufInt8 i

-- None stands for the exception that an access past the end raises.
def getInt8 (s : Bytes) (pos : Nat) : Option Int := s[pos]?.map fun c => (c.toNat : Int)

def getInt16 (s : Bytes) (pos : Nat) : Option Int := do
  let c1 ← getInt8 s (pos + 1)
  let c2 ← getInt8 s pos
  return c1 + c2 * 2 ^ 8

-- get_int, and get_uint64_32 for an int64.
def getInt (s : Bytes) (pos : Nat) : Option Int := do
  let c4 ← getInt8 s pos
  let c3 ← getInt8 s (pos + 1)
  let c2 ← getInt8 s (pos + 2)
  let c1 ← getInt8 s (pos + 3)
  return c1 + c2 * 2 ^ 8 + c3 * 2 ^ 16 + c4 * 2 ^ 24

@[simp] theorem length_bufInt8 (i : Int) : (bufInt8 i).length = 1 := rfl

@[simp] theorem length_bufInt (i : Int) : (bufInt i).length = 4 := rfl

theorem getInt8_append (s t : Bytes) (pos : Nat) : getInt8 (s ++ t) (s.length + pos) = getInt8 t pos := by
  rw [getInt8, getInt8, List.getElem?_append_right (by omega), Nat.add_sub_cancel_left]

theorem getInt_append (s t : Bytes) (pos : Nat) : getInt (s ++ t) (s.length + pos) = getInt t pos := by
  simp only [getInt, Nat.add_assoc, getInt8_append]

theorem toNat_byte (i : Int) : ((UInt8.ofNat (i % 256).toNat).toNat : Int) = i % 256 := by
  rw [UInt8.toNat_ofNat']
  omega

theorem getInt8_bufInt8 {i : Int} (h : 0 ≤ i ∧ i < 2 ^ 8) (t : Bytes) :
    getInt8 (bufInt8 i ++ t) 0 = some i := by
  show some ((UInt8.ofNat (i % 256).toNat).toNat : Int) = some i
  rw [toNat_byte]
  congr 1
  omega

theorem getInt16_bufInt16 {i : Int} (h : 0 ≤ i ∧ i < 2 ^ 16) (t : Bytes) :
    getInt16 (bufInt16 i ++ t) 0 = some i := by
  show some (((UInt8.ofNat (i % 256).toNat).toNat : Int) +
    ((UInt8.ofNat (i / 2 ^ 8 % 256).toNat).toNat : Int) * 2 ^ 8) = some i
  rw [toNat_byte, toNat_byte]
  congr 1
  omega

theorem getInt_bufInt {i : Int} (h : 0 ≤ i ∧ i < 2 ^ 32) (t : Bytes) :
    getInt (bufInt i ++ t) 0 = some i := by
  show some (((UInt8.ofNat (i % 256).toNat).toNat : Int) +
    ((UInt8.ofNat (i / 2 ^ 8 % 256).toNat).toNat : Int) * 2 ^ 8 +
    ((UInt8.ofNat (i / 2 ^ 16 % 256).toNat).toNat : Int) * 2 ^ 16 +
    ((UInt8.ofNat (i / 2 ^ 24 % 256).toNat).toNat : Int) * 2 ^ 24) = some i
  rw [toNat_byte, toNat_byte, toNat_byte, toNat_byte]
  congr 1
  omega

theorem getInt_range {s : Bytes} {pos : Nat} {i : Int} (h : getInt s pos = some i) :
    0 ≤ i ∧ i < 2 ^ 32 ∧ pos + 4 ≤ s.length := by
  simp only [getInt, getInt8, Option.bind_eq_bind, Option.bind_eq_some_iff, Option.map_eq_some_iff,
    Option.pure_def, Option.some.injEq] at h
  obtain ⟨_, ⟨c4, -, rfl⟩, _, ⟨c3, -, rfl⟩, _, ⟨c2, -, rfl⟩, _, ⟨c1, h1, rfl⟩, rfl⟩ := h
  have := c1.toNat_lt
  have := c2.toNat_lt
  have := c3.toNat_lt
  have := c4.toNat_lt
  have := (List.getElem?_eq_some_iff.mp h1).1
  omega

end Mldonkey.BigEndian
