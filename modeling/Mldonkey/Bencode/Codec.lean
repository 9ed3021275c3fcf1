import Mathlib.Data.List.Basic
import Mathlib.Tactic

-- Bencoded values: strings with their length in front, numbers, lists and
-- dictionaries.
namespace Mldonkey.Bencode

abbrev Bytes := List UInt8

inductive Exn
  | assertFailure
  | failure
  | invalidArgument
  deriving DecidableEq, Repr

inductive Value
  | string (s : Bytes)
  | int (i : Int64)
  | list (l : List Value)
  | dictionary (l : List (Bytes × Value))

def chr (c : Char) : UInt8 := UInt8.ofNat c.toNat

def ofString (s : String) : Bytes := s.toList.map chr

-- sprintf "%d"
def decimal (n : Nat) : Bytes := (Nat.toDigits 10 n).map chr

-- sprintf "%Ld"
def printInt (i : Int64) : Bytes :=
  if i.toInt < 0 then chr '-' :: decimal i.toInt.natAbs else decimal i.toInt.natAbs

def isDigit (c : UInt8) : Bool := chr '0' ≤ c && c ≤ chr '9'

-- int_of_string for a string of digits. One that does not fit an int is the
-- length of no substring either.
def number (digits : Bytes) : Nat := digits.foldl (fun n c => 10 * n + (c.toNat - 48)) 0

section Int64OfString

-- The sign, then the base; only decimal numbers without 0u are signed.
def signAndBase (s : Bytes) : Bool × Nat × Bool × Bytes :=
  let (negative, s) :=
    match s with
    | c :: t => if c = chr '-' then (true, t) else if c = chr '+' then (false, t) else (false, s)
    | [] => (false, s)
  match s with
  | z :: x :: t =>
      if z = chr '0' then
        if x = chr 'x' ∨ x = chr 'X' then (negative, 16, false, t)
        else if x = chr 'o' ∨ x = chr 'O' then (negative, 8, false, t)
        else if x = chr 'b' ∨ x = chr 'B' then (negative, 2, false, t)
        else if x = chr 'u' ∨ x = chr 'U' then (negative, 10, false, t)
        else (negative, 10, true, s)
      else (negative, 10, true, s)
  | _ => (negative, 10, true, s)

def digitValue (base : Nat) (c : UInt8) : Option Nat :=
  let d :=
    if chr '0' ≤ c ∧ c ≤ chr '9' then c.toNat - 48
    else if chr 'A' ≤ c ∧ c ≤ chr 'Z' then c.toNat - 55
    else if chr 'a' ≤ c ∧ c ≤ chr 'z' then c.toNat - 87
    else base
  if d < base then some d else none

-- The digits behind the first one; an underscore is ignored.
def restOfDigits (base : Nat) : Nat → Bytes → Option Nat
  | n, [] => some n
  | n, c :: s =>
      if c = chr '_' then restOfDigits base n s
      else
        match digitValue base c with
        | none => none
        | some d => if base * n + d < 2 ^ 64 then restOfDigits base (base * n + d) s else none

-- Int64.of_string; none stands for its Failure.
def int64OfString (s : Bytes) : Option Int64 :=
  let (negative, base, signed, s) := signAndBase s
  match s with
  | [] => none
  | c :: s => do
      let d ← digitValue base c
      let n ← restOfDigits base d s
      if signed ∧ (if negative then 2 ^ 63 < n else 2 ^ 63 ≤ n) then none
      else some (Int64.ofInt (if negative then -n else n))

end Int64OfString

-- The end of the length in front of a string: a colon, or the end of s.
def scanLength : Bytes → Except Exn (Bytes × Bytes)
  | [] => .ok ([], [])
  | c :: s =>
      if isDigit c then do
        let (digits, rest) ← scanLength s
        return (c :: digits, rest)
      else if c = chr ':' then .ok ([], c :: s)
      else .error .assertFailure

def scanInt : Bytes → Except Exn (Bytes × Bytes)
  | [] => .error .assertFailure
  | c :: s =>
      if c = chr 'e' then .ok ([], s)
      else do
        let (number, rest) ← scanInt s
        return (c :: number, rest)

section Decode

-- `ofFloat` is Int64.of_float of float_of_string; none stands for a Failure. The
-- position in s is the rest of s from there, and every second call takes a byte.
variable (ofFloat : Bytes → Option Int64)

mutual

def decodeFrom : Nat → Bytes → Except Exn (Value × Bytes)
  | 0, _ | _, [] => .error .assertFailure
  | fuel + 1, c :: s =>
      if isDigit c then do
        let (digits, rest) ← scanLength s
        match rest with
        | [] => .error .invalidArgument
        | _ :: rest =>
            let size := number (c :: digits)
            if size ≤ rest.length then .ok (.string (rest.take size), rest.drop size)
            else .error .invalidArgument
      else if c = chr 'i' then do
        let (number, rest) ← scanInt s
        match int64OfString number with
        | some i => .ok (.int i, rest)
        | none =>
            match ofFloat number with
            | some i => .ok (.int i, rest)
            | none => .error .failure
      else if c = chr 'l' then decodeList fuel s []
      else if c = chr 'd' then decodeDictionary fuel s []
      else .error .assertFailure

def decodeList : Nat → Bytes → List Value → Except Exn (Value × Bytes)
  | 0, _, _ | _, [], _ => .error .assertFailure
  | fuel + 1, c :: s, list =>
      if c = chr 'e' then .ok (.list list.reverse, s)
      else do
        let (v, rest) ← decodeFrom fuel (c :: s)
        decodeList fuel rest (v :: list)

def decodeDictionary : Nat → Bytes → List (Bytes × Value) → Except Exn (Value × Bytes)
  | 0, _, _ | _, [], _ => .error .assertFailure
  | fuel + 1, c :: s, list =>
      if c = chr 'e' then .ok (.dictionary list.reverse, s)
      else do
        let (k, rest) ← decodeFrom fuel (c :: s)
        match k with
        | .string key => do
            let (v, rest) ← decodeFrom fuel rest
            decodeDictionary fuel rest ((key, v) :: list)
        | _ => .error .assertFailure

end

def decode (s : Bytes) : Except Exn Value := do
  let (v, _) ← decodeFrom ofFloat (2 * s.length) s
  return v

end Decode

-- compare on strings.
def keyLe : Bytes → Bytes → Bool
  | [], _ => true
  | _ :: _, [] => false
  | a :: s, b :: t => a < b || (a = b && keyLe s t)

def sortByKey {α : Type} (l : List (Bytes × α)) : List (Bytes × α) :=
  l.mergeSort fun x y => keyLe x.1 y.1

def encodeString (s : Bytes) : Bytes := decimal s.length ++ chr ':' :: s

-- The entries of a dictionary are sorted by their keys, encoded or not.
mutual

def encode (strict : Bool) : Value → Bytes
  | .string s => encodeString s
  | .int i => chr 'i' :: (printInt i ++ [chr 'e'])
  | .list l => chr 'l' :: (encodeList strict l ++ [chr 'e'])
  | .dictionary l =>
      let l := encodeEntries strict l
      let l := if strict then sortByKey l else l
      chr 'd' :: ((l.flatMap fun (k, v) => encodeString k ++ v) ++ [chr 'e'])

def encodeList (strict : Bool) : List Value → Bytes
  | [] => []
  | v :: l => encode strict v ++ encodeList strict l

def encodeEntries (strict : Bool) : List (Bytes × Value) → List (Bytes × Bytes)
  | [] => []
  | (k, v) :: l => (k, encode strict v) :: encodeEntries strict l

end

-- A value with all its dictionaries sorted.
mutual

def Value.sortKeys : Value → Value
  | .string s => .string s
  | .int i => .int i
  | .list l => .list (sortKeysList l)
  | .dictionary l => .dictionary (sortByKey (sortKeysEntries l))

def sortKeysList : List Value → List Value
  | [] => []
  | v :: l => v.sortKeys :: sortKeysList l

def sortKeysEntries : List (Bytes × Value) → List (Bytes × Value)
  | [] => []
  | (k, v) :: l => (k, v.sortKeys) :: sortKeysEntries l

end

lemma decodeFrom_list (ofFloat : Bytes → Option Int64) (fuel : ℕ) (s : Bytes) :
    decodeFrom ofFloat (fuel + 1) (chr 'l' :: s) = decodeList ofFloat fuel s [] := by
  have hl : isDigit (chr 'l') = false := by decide
  have hi : chr 'l' ≠ chr 'i' := by decide
  rw [decodeFrom, if_neg (by simp [hl]), if_neg hi, if_pos rfl]

lemma decodeFrom_dictionary (ofFloat : Bytes → Option Int64) (fuel : ℕ) (s : Bytes) :
    decodeFrom ofFloat (fuel + 1) (chr 'd' :: s) = decodeDictionary ofFloat fuel s [] := by
  have hd : isDigit (chr 'd') = false := by decide
  have hi : chr 'd' ≠ chr 'i' := by decide
  have hl : chr 'd' ≠ chr 'l' := by decide
  rw [decodeFrom, if_neg (by simp [hd]), if_neg hi, if_neg hl, if_pos rfl]

lemma encodeEntries_eq_map (strict : Bool) (l : List (Bytes × Value)) :
    encodeEntries strict l = l.map fun (k, v) => (k, encode strict v) := by
  induction l with
  | nil => simp [encodeEntries]
  | cons e l ih => simp [encodeEntries, ih]

end Mldonkey.Bencode
