import Mldonkey.Lib.Loops
import Mathlib.Data.List.Basic
import Mathlib.Tactic

-- Hashes as hexadecimal texts. None stands for an exception.
namespace Mldonkey.Base16

open Lib (mapM_range_of_forall)

abbrev Bytes := List UInt8

def hexaDigitCase (upper : Bool) (x : ℕ) : UInt8 :=
  if 10 ≤ x then UInt8.ofNat ((if upper then 65 else 97) + x - 10) else UInt8.ofNat (48 + x)

def digits (upper : Bool) (c : UInt8) : Bytes :=
  let n := c.toNat
  let i0 := (n / 16) &&& 15
  let i1 := n &&& 15
  [hexaDigitCase upper i0, hexaDigitCase upper i1]

def toStringCase (upper : Bool) (hashLength : ℕ) (s : Bytes) : Option Bytes := do
  let p ← (List.range hashLength).mapM fun i => s[i]?.map (digits upper)
  return p.flatten

-- to_string has the same body with the upper digits.
def toString (hashLength : ℕ) (s : Bytes) : Option Bytes := toStringCase true hashLength s

def digitHexa (c : UInt8) : Option ℕ :=
  let i := c.toNat
  if 97 ≤ i ∧ i ≤ 102 then some (i - 97 + 10)
  else if 65 ≤ i ∧ i ≤ 70 then some (i - 65 + 10)
  else if 48 ≤ i ∧ i ≤ 57 then some (i - 48)
  else none

def ofString (hashLength : ℕ) (s : Bytes) : Option Bytes :=
  if s.length = hashLength * 2 then
    (List.range hashLength).mapM fun i => do
      let c0 ← s[2 * i]?
      let c1 ← s[2 * i + 1]?
      return UInt8.ofNat (16 * (← digitHexa c0) + (← digitHexa c1))
  else none

lemma digitHexa_hexaDigitCase (upper : Bool) {x : ℕ} (hx : x < 16) :
    digitHexa (hexaDigitCase upper x) = some x := by
  cases upper <;> interval_cases x <;> rfl

lemma toStringCase_eq (upper : Bool) (h : Bytes) :
    toStringCase upper h.length h = some (h.flatMap (digits upper)) := by
  have hmap : (List.range h.length).mapM (fun i => h[i]?.map (digits upper)) =
      some (h.map (digits upper)) := by
    rw [← List.length_map (f := digits upper)]
    exact mapM_range_of_forall fun i a ha => by rw [← ha, List.getElem?_map]
  rw [toStringCase, hmap]
  rfl

-- The two digits of a byte in the text of a hash
lemma getElem?_digits (upper : Bool) {h : Bytes} {i : ℕ} {c : UInt8} (hc : h[i]? = some c) :
    (h.flatMap (digits upper))[2 * i]? = (digits upper c)[0]? ∧
      (h.flatMap (digits upper))[2 * i + 1]? = (digits upper c)[1]? := by
  induction h generalizing i with
  | nil => simp at hc
  | cons d h ih =>
    cases i with
    | zero =>
      obtain rfl : d = c := by simpa using hc
      exact ⟨rfl, rfl⟩
    | succ i =>
      obtain ⟨h0, h1⟩ := ih (i := i) (by simpa using hc)
      have hnext : 2 * (i + 1) = 2 * i + 2 := by omega
      rw [List.flatMap_cons, hnext, ← h0, ← h1]
      exact ⟨rfl, rfl⟩

-- A hash is read back from its text in either case.
theorem ofString_toStringCase (upper : Bool) (h : Bytes) :
    (toStringCase upper h.length h).bind (ofString h.length) = some h := by
  have hlength : (h.flatMap (digits upper)).length = h.length * 2 := by
    induction h with
    | nil => rfl
    | cons c h ih =>
      rw [List.flatMap_cons, List.length_append, ih, List.length_cons]
      simp only [digits, List.length_cons, List.length_nil]
      omega
  rw [toStringCase_eq, Option.bind_some, ofString, if_pos hlength]
  refine mapM_range_of_forall fun i c hc => ?_
  obtain ⟨h0, h1⟩ := getElem?_digits upper hc
  have hlt := c.toNat_lt
  have hand (n : ℕ) : n &&& 15 = n % 16 := Nat.and_two_pow_sub_one_eq_mod n 4
  have hvalue : UInt8.ofNat (16 * (c.toNat / 16 % 16) + c.toNat % 16) = c := by
    rw [Nat.mod_eq_of_lt (a := c.toNat / 16) (by omega), Nat.div_add_mod]
    exact UInt8.ofNat_toNat
  simp only [h0, h1, digits, List.getElem?_cons_zero, List.getElem?_cons_succ, hand,
    Option.bind_eq_bind, Option.bind_some, Option.pure_def,
    digitHexa_hexaDigitCase upper (Nat.mod_lt _ (by norm_num : 0 < 16)), hvalue]

end Mldonkey.Base16
