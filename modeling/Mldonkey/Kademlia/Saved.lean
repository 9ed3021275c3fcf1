import Mldonkey.Kademlia.Table
import Mathlib.Tactic.IntervalCases
import Mathlib.Tactic.Ring

-- Tables as option values, which are saved in a file and parsed from it.
namespace Mldonkey.Kademlia

-- The option values that tables are made of. A DelayedValue prints a list.
inductive Value
  | string (s : List Char)
  | int (i : Int)
  | list (l : List Value)
  | module (props : List (List Char × Value))
  | delayed (l : List Value)

-- What the parser makes of a value that was printed: strings and numbers come
-- back as they were, and what a DelayedValue printed comes back as a List.
mutual

def Value.reparse : Value → Value
  | .string s => .string s
  | .int i => .int i
  | .list l => .list (reparseList l)
  | .module props => .module (reparseProps props)
  | .delayed l => .list (reparseList l)

def reparseList : List Value → List Value
  | [] => []
  | v :: l => v.reparse :: reparseList l

def reparseProps : List (List Char × Value) → List (List Char × Value)
  | [] => []
  | (name, v) :: props => (name, v.reparse) :: reparseProps props

end

def Value.get (v : Value) (name : List Char) : Option Value :=
  match v with
  | .module props => props.lookup name
  | _ => none

def hexaDigit (x : Nat) : Char :=
  if 10 ≤ x then Char.ofNat ('A'.toNat + x - 10) else Char.ofNat ('0'.toNat + x)

def digitHexa (c : Char) : Option Nat :=
  let i := c.toNat
  if 'a'.toNat ≤ i ∧ i ≤ 'f'.toNat then some (i - 'a'.toNat + 10)
  else if 'A'.toNat ≤ i ∧ i ≤ 'F'.toNat then some (i - 'A'.toNat + 10)
  else if '0'.toNat ≤ i ∧ i ≤ '9'.toNat then some (i - '0'.toNat)
  else none

-- The last `k` hexadecimal digits of a number, the highest first.
def hexaDigits : Nat → Nat → List Char
  | 0, _ => []
  | k + 1, n => hexaDigits k (n / 16) ++ [hexaDigit (n % 16)]

def toHexa (id : Id) : List Char := hexaDigits 40 id.toNat

def ofHexa (s : List Char) : Option Id :=
  if s.length = 40 then
    (s.foldlM (fun n c => (digitHexa c).map (16 * n + ·)) 0).map (BitVec.ofNat 160)
  else none

-- The four bytes of an address.
def toInts (ip : BitVec 32) : Nat × Nat × Nat × Nat :=
  (ip.toNat / 0x1000000, ip.toNat / 0x10000 % 256, ip.toNat / 0x100 % 256, ip.toNat % 256)

def ofInts (a4 a3 a2 a1 : Nat) : BitVec 32 :=
  BitVec.ofNat 32 (a4 * 0x1000000 + a3 * 0x10000 + a2 * 0x100 + a1)

def ipToString (ip : BitVec 32) : List Char :=
  let (a4, a3, a2, a1) := toInts ip
  Nat.toDigits 10 a4 ++ '.' :: (Nat.toDigits 10 a3 ++ '.' :: (Nat.toDigits 10 a2 ++
    '.' :: Nat.toDigits 10 a1))

def atoi (s : List Char) : Nat := s.foldl (fun n c => 10 * n + (c.toNat - '0'.toNat)) 0

-- One number of ml_ints_of_string, of up to three digits, and what follows it.
def byteOfString (s : List Char) : Option (Nat × List Char) :=
  let digits := s.takeWhile (·.isDigit)
  if digits = [] ∨ 3 < digits.length then none else some (atoi digits, s.dropWhile (·.isDigit))

def dotOfString : List Char → Option (List Char)
  | '.' :: s => some s
  | _ => none

def ipOfString (s : List Char) : Option (BitVec 32) := do
  let (a4, s) ← byteOfString (s.dropWhile (· = ' '))
  let (a3, s) ← byteOfString (← dotOfString s)
  let (a2, s) ← byteOfString (← dotOfString s)
  let (a1, _) ← byteOfString (← dotOfString s)
  return ofInts a4 a3 a2 a1

def valueToString : Value → Option (List Char)
  | .string s => some s
  | .int i => some (toString i).toList
  | _ => none

def valueToInt : Value → Option Int
  | .string s => (String.ofList s).toInt?
  | .int i => some i
  | _ => none

-- `random` is what 2000 + Random.int 40000 gives.
def valueToPort (random : Value → Int) (v : Value) : Option Int :=
  (valueToInt v).map fun i => if i < 0 ∨ 65535 < i then random v else i

def valueToList {α : Type} (f : Value → Option α) : Value → Option (List α)
  | .list l => l.mapM f
  | _ => none

def valueToStatus : Value → Option Status
  | .string s =>
      if s = "good".toList then some .good
      else if s = "bad".toList then some .bad
      else if s = "pinged".toList then some .pinged
      else if s = "unknown".toList then some .unknown
      else none
  | _ => none

def statusToValue : Status → Value
  | .good => .string "good".toList
  | .bad => .string "bad".toList
  | .pinged => .string "pinged".toList
  | .unknown => .string "unknown".toList

-- The node as a record of its own; `ref` is given where it is put into a table.
def valueToNode (random : Value → Int) (v : Value) : Option Node := do
  let id ← ofHexa (← valueToString (← v.get "id".toList))
  let ip ← ipOfString (← valueToString (← v.get "ip".toList))
  let port ← valueToPort random (← v.get "port".toList)
  let last ← valueToInt (← v.get "last".toList)
  let status ← valueToStatus (← v.get "status".toList)
  return { ref := 0, id := id, addr := ⟨ip, port⟩, last := last, status := status }

def nodeToValue (n : Node) : Value :=
  .module [("id".toList, .string (toHexa n.id)), ("ip".toList, .string (ipToString n.addr.ip)),
    ("port".toList, .int n.addr.port), ("last".toList, .int n.last),
    ("status".toList, statusToValue n.status)]

def Table.empty (self : Id) (fresh : Nat) : Table :=
  { root := .leaf { lo := 0, hi := BitVec.allOnes 160, lastChange := 0, nodes := [] },
    self := self, fresh := fresh }

def valueToTable (random : Value → Int) (v : Value) : Option Table := do
  let nodes ← valueToList (valueToNode random) (← v.get "nodes".toList)
  let self ← ofHexa (← valueToString (← v.get "self".toList))
  let nodes := nodes.mapIdx fun i n => { n with ref := i }
  return nodes.foldl Table.insertNode (.empty self nodes.length)

def tableToValue (t : Table) : Value :=
  .module [("self".toList, .string (toHexa t.self)),
    ("nodes".toList, .delayed (t.allNodes.map nodeToValue))]

-- A table is read back from the file that it was saved in.
def Table.reload (random : Value → Int) (t : Table) : Option Table :=
  valueToTable random (tableToValue t).reparse

theorem digitHexa_hexaDigit {x : Nat} (hx : x < 16) : digitHexa (hexaDigit x) = some x := by
  interval_cases x <;> decide

@[simp] theorem length_hexaDigits (k n : Nat) : (hexaDigits k n).length = k := by
  induction k generalizing n with
  | zero => rfl
  | succ k ih => simp [hexaDigits, ih]

theorem foldlM_hexaDigits (k n : Nat) :
    (hexaDigits k n).foldlM (fun n c => (digitHexa c).map (16 * n + ·)) 0 =
      some (n % 16 ^ k) := by
  induction k generalizing n with
  | zero => simp [hexaDigits, Nat.mod_one]
  | succ k ih =>
      rw [hexaDigits, List.foldlM_append, ih]
      have hx : n % 16 < 16 := Nat.mod_lt n (by decide)
      have : n % 16 ^ (k + 1) = 16 * (n / 16 % 16 ^ k) + n % 16 := by
        rw [pow_succ', Nat.mod_mul]
        ring
      simp [digitHexa_hexaDigit hx, this]

@[simp] theorem ofHexa_toHexa (id : Id) : ofHexa (toHexa id) = some id := by
  have hlt : id.toNat < 16 ^ 40 := id.isLt
  rw [ofHexa, toHexa, if_pos (length_hexaDigits 40 _), foldlM_hexaDigits, Nat.mod_eq_of_lt hlt]
  simp

theorem toDigits_byte : ∀ n < 256, (Nat.toDigits 10 n).all Char.isDigit = true ∧
    Nat.toDigits 10 n ≠ [] ∧ (Nat.toDigits 10 n).length ≤ 3 ∧ atoi (Nat.toDigits 10 n) = n := by
  have hall : ∀ i < 16, ∀ j < 16, (Nat.toDigits 10 (16 * i + j)).all Char.isDigit = true ∧
      Nat.toDigits 10 (16 * i + j) ≠ [] ∧ (Nat.toDigits 10 (16 * i + j)).length ≤ 3 ∧
      atoi (Nat.toDigits 10 (16 * i + j)) = 16 * i + j := by
    decide
  intro n hn
  have hdigits := hall (n / 16) (by omega) (n % 16) (by omega)
  rwa [Nat.div_add_mod] at hdigits

theorem byteOfString_append {n : Nat} (hn : n < 256) {s : List Char}
    (hs : s.head?.all (fun c => !c.isDigit) = true) :
    byteOfString (Nat.toDigits 10 n ++ s) = some (n, s) := by
  obtain ⟨hd, hne, hlen, hval⟩ := toDigits_byte n hn
  have hall : ∀ c ∈ Nat.toDigits 10 n, c.isDigit = true := by simpa using hd
  have hs' : s.takeWhile (·.isDigit) = [] ∧ s.dropWhile (·.isDigit) = s := by
    cases s with
    | nil => simp
    | cons c s => simp_all
  rw [byteOfString, List.takeWhile_append_of_pos hall, List.dropWhile_append_of_pos hall, hs'.1,
    hs'.2, List.append_nil]
  simp [hne, hval, Nat.not_lt.mpr hlen]

theorem ofInts_toInts (ip : BitVec 32) :
    ofInts (ip.toNat / 0x1000000) (ip.toNat / 0x10000 % 256) (ip.toNat / 0x100 % 256)
      (ip.toNat % 256) = ip := by
  have := ip.isLt
  rw [ofInts, ← BitVec.toNat_inj, BitVec.toNat_ofNat, Nat.mod_eq_of_lt] <;> omega

@[simp] theorem ipOfString_ipToString (ip : BitVec 32) :
    ipOfString (ipToString ip) = some ip := by
  have h4 : ip.toNat / 0x1000000 < 256 := by
    have := ip.isLt
    omega
  have hb (n : Nat) : n % 256 < 256 := Nat.mod_lt n (by decide)
  have hspace : (ipToString ip).dropWhile (· = ' ') = ipToString ip := by
    obtain ⟨hd, hne, -, -⟩ := toDigits_byte _ h4
    obtain ⟨c, cs, hc⟩ := List.exists_cons_of_ne_nil hne
    have hspace : c ≠ ' ' := by
      rintro rfl
      rw [hc] at hd
      simp at hd
    rw [ipToString, toInts]
    dsimp only
    rw [hc, List.cons_append, List.dropWhile_cons_of_neg (by simpa using hspace)]
  have hlast := byteOfString_append (hb ip.toNat) (s := []) rfl
  rw [List.append_nil] at hlast
  rw [ipOfString, hspace, ipToString, toInts]
  simp [byteOfString_append h4, byteOfString_append (hb _), hlast, dotOfString, ofInts_toInts]

@[simp] theorem valueToStatus_statusToValue (st : Status) :
    valueToStatus (statusToValue st) = some st := by
  cases st <;> rfl

theorem reparse_statusToValue (st : Status) : (statusToValue st).reparse = statusToValue st := by
  cases st <;> rfl

theorem reparse_nodeToValue (n : Node) : (nodeToValue n).reparse = nodeToValue n := by
  simp [nodeToValue, Value.reparse, reparseProps, reparse_statusToValue]

theorem valueToNode_nodeToValue {random : Value → Int} {n : Node}
    (hport : 0 ≤ n.addr.port ∧ n.addr.port ≤ 65535) :
    valueToNode random (nodeToValue n) = some { n with ref := 0 } := by
  have hp : ¬ (n.addr.port < 0 ∨ 65535 < n.addr.port) := by omega
  simp [valueToNode, nodeToValue, Value.get, List.lookup_cons, valueToString, valueToInt, valueToPort, hp]

end Mldonkey.Kademlia
