import Mathlib
import Mldonkey.Indexing.Form
import Mldonkey.Lib.BitString
import Mldonkey.Lib.Loops

-- Bit vectors as arrays of integers, of which the sign bit is not used.
namespace Mldonkey

structure Bitv where
  length : ℕ
  bits : List ℕ

namespace Bitv

-- The word size of a 64-bit machine, less two
def bpi : ℕ := 62

def maxInt : ℕ := 2 ^ 62 - 1

def bitJ (j : ℕ) : ℕ := 1 <<< j

def bitNotJ (j : ℕ) : ℕ := maxInt - bitJ j

def lowMask : ℕ → ℕ
  | 0 => 0
  | i + 1 => lowMask i ||| bitJ i

def create (n : ℕ) (b : Bool) : Bitv :=
  let initv := if b then maxInt else 0
  let r := n % bpi
  if r = 0 then ⟨n, List.replicate (n / bpi) initv⟩
  else
    let s := n / bpi
    let b := List.replicate (s + 1) initv
    ⟨n, b.modify s (· &&& lowMask r)⟩

-- none stands for invalid_arg. The position is never negative here.
def set (v : Bitv) (n : ℕ) (b : Bool) : Option Bitv :=
  if v.length ≤ n then none
  else if b then some { v with bits := v.bits.modify (n / bpi) (· ||| bitJ (n % bpi)) }
  else some { v with bits := v.bits.modify (n / bpi) (· &&& bitNotJ (n % bpi)) }

-- The calls of the function in their order
def iteriTrue (v : Bitv) : List ℕ :=
  v.bits.zipIdx.flatMap fun (n, i) =>
    if n ≠ 0 then
      let iBpi := i * bpi
      ((List.range bpi).filter fun j => 0 < n &&& bitJ j).map (iBpi + ·)
    else []

-- The bit at a position, false behind the last word
def bit (v : Bitv) (n : ℕ) : Bool := (v.bits.getD (n / bpi) 0).testBit (n % bpi)

lemma testBit_bitJ (j k : ℕ) : (bitJ j).testBit k = decide (j = k) := by
  rw [bitJ, Nat.one_shiftLeft, Nat.testBit_two_pow]

lemma testBit_maxInt (k : ℕ) : maxInt.testBit k = decide (k < bpi) :=
  Nat.testBit_two_pow_sub_one 62 k

lemma testBit_bitNotJ {j k : ℕ} (hj : j < bpi) :
    (bitNotJ j).testBit k = (decide (k < bpi) && decide (j ≠ k)) := by
  have hlt : 2 ^ j < 2 ^ 62 := Nat.pow_lt_pow_right (by norm_num) hj
  have hsub : bitNotJ j = 2 ^ 62 - (2 ^ j + 1) := by
    rw [bitNotJ, maxInt, bitJ, Nat.one_shiftLeft]
    omega
  rw [hsub, Nat.testBit_two_pow_sub_succ hlt, Nat.testBit_two_pow]
  rw [decide_not]
  rfl

lemma testBit_lowMask (r k : ℕ) : (lowMask r).testBit k = decide (k < r) := by
  induction r with
  | zero => simp [lowMask]
  | succ r ih =>
    rw [lowMask, Nat.testBit_or, ih, testBit_bitJ]
    by_cases hk : k < r
    · simp [hk, Nat.lt_succ_of_lt hk]
    · simp only [hk, decide_false, Bool.false_or, decide_eq_decide]
      omega

lemma div_eq_and_mod_eq {n m : ℕ} : n / bpi = m / bpi ∧ n % bpi = m % bpi ↔ n = m := by
  constructor
  · rintro ⟨hdiv, hmod⟩
    rw [← Nat.div_add_mod n bpi, ← Nat.div_add_mod m bpi, hdiv, hmod]
  · rintro rfl
    exact ⟨rfl, rfl⟩

lemma getD_modify (l : List ℕ) (f : ℕ → ℕ) (hf : f 0 = 0) (i j : ℕ) :
    (l.modify i f).getD j 0 = if i = j then f (l.getD j 0) else l.getD j 0 := by
  rw [List.getD_eq_getElem?_getD, List.getD_eq_getElem?_getD, List.getElem?_modify]
  split_ifs with h
  · cases l[j]? <;> simp [hf]
  · simp

@[simp] lemma length_create (n : ℕ) (b : Bool) : (create n b).length = n := by
  simp only [create]
  split_ifs <;> rfl

lemma bit_create (n k : ℕ) : (create n true).bit k = decide (k < n) := by
  have hbpi : 0 < bpi := by decide
  have hmod : k % bpi < bpi := Nat.mod_lt _ hbpi
  have hreplicate (s : ℕ) : ((List.replicate s maxInt).getD (k / bpi) 0).testBit (k % bpi) =
      decide (k / bpi < s) := by
    by_cases hs : k / bpi < s
    · rw [List.getD_replicate _ hs, testBit_maxInt]
      simp [hs, hmod]
    · rw [List.getD_eq_default _ _ (by rw [List.length_replicate]; omega)]
      simp [hs]
  simp only [create, if_true]
  split_ifs with hr
  · have hn : n / bpi * bpi = n := Nat.div_mul_cancel (Nat.dvd_of_mod_eq_zero hr)
    rw [bit, hreplicate, decide_eq_decide, Nat.div_lt_iff_lt_mul hbpi, hn]
  · rw [bit, getD_modify _ (· &&& lowMask (n % bpi)) (Nat.zero_and _)]
    have hn := Nat.div_add_mod n bpi
    have hk := Nat.div_add_mod k bpi
    split_ifs with hlast
    · rw [Nat.testBit_and, hreplicate, testBit_lowMask, hlast, ← Bool.decide_and,
        decide_eq_decide]
      rw [hlast] at hn
      omega
    · rw [hreplicate, decide_eq_decide]
      constructor
      · intro hle
        have hdiv : k / bpi < n / bpi := by omega
        exact ((Nat.div_lt_iff_lt_mul hbpi).mp hdiv).trans_le (Nat.div_mul_le_self n bpi)
      · intro hlt
        exact Nat.lt_succ_of_le (Nat.div_le_div_right hlt.le)

lemma set_false {v : Bitv} {n : ℕ} (hn : n < v.length) :
    ∃ v', set v n false = some v' ∧ v'.length = v.length ∧
      ∀ k, v'.bit k = (v.bit k && decide (n ≠ k)) := by
  refine ⟨{ v with bits := v.bits.modify (n / bpi) (· &&& bitNotJ (n % bpi)) }, ?_, rfl,
    fun k => ?_⟩
  · rw [set, if_neg (Nat.not_le.mpr hn), if_neg Bool.false_ne_true]
  have hmod (m : ℕ) : m % bpi < bpi := Nat.mod_lt _ (by decide)
  rw [bit, getD_modify _ (· &&& bitNotJ (n % bpi)) (Nat.zero_and _)]
  split_ifs with hdiv
  · rw [Nat.testBit_and, testBit_bitNotJ (hmod n), bit]
    simp only [hmod, decide_true, Bool.true_and, ne_eq, ← div_eq_and_mod_eq (n := n), hdiv, true_and]
  · have hne : n ≠ k := fun h => hdiv (h ▸ rfl)
    simp [bit, hne]

lemma mem_iteriTrue {v : Bitv} {k : ℕ} : k ∈ iteriTrue v ↔ v.bit k = true := by
  have hmod : k % bpi < bpi := Nat.mod_lt _ (by decide)
  have hpos (n j : ℕ) : 0 < n &&& bitJ j ↔ n.testBit j = true := by
    rw [bitJ, Nat.one_shiftLeft, Nat.and_two_pow]
    cases n.testBit j <;> simp
  have hword (n i : ℕ) : (k ∈ if n ≠ 0 then
        ((List.range bpi).filter fun j => 0 < n &&& bitJ j).map (i * bpi + ·) else []) ↔
      i = k / bpi ∧ n.testBit (k % bpi) = true := by
    split_ifs with hn
    · simp only [List.mem_map, List.mem_filter, List.mem_range, decide_eq_true_eq, hpos]
      constructor
      · rintro ⟨j, ⟨hj, hbit⟩, rfl⟩
        rw [Nat.mul_comm, Nat.mul_add_div (by decide), Nat.mul_add_mod, Nat.div_eq_of_lt hj,
          Nat.mod_eq_of_lt hj]
        exact ⟨rfl, hbit⟩
      · rintro ⟨rfl, hbit⟩
        exact ⟨k % bpi, ⟨hmod, hbit⟩, Nat.div_add_mod' k bpi⟩
    · rw [not_not.mp hn]
      simp
  simp only [iteriTrue, List.mem_flatMap, Prod.exists]
  rw [bit, List.getD_eq_getElem?_getD]
  constructor
  · rintro ⟨n, i, hmem, hk⟩
    obtain ⟨rfl, hbit⟩ := (hword n i).mp hk
    rw [List.mem_zipIdx_iff_getElem?] at hmem
    rw [hmem]
    exact hbit
  · intro hbit
    cases hword' : v.bits[k / bpi]? with
    | none => simp [hword'] at hbit
    | some n =>
      rw [hword'] at hbit
      exact ⟨n, k / bpi, List.mem_zipIdx_iff_getElem?.mpr hword', (hword n _).mpr ⟨rfl, hbit⟩⟩

end Bitv

end Mldonkey

-- The query routing tables of Gnutella and Gnutella2, which tell the words of the shared files.
-- None stands for an exception.
namespace Mldonkey.QueryRouting

open BitString (bitAt bitAt_replicate bitAt_set_or)
open Indexing (lowercase)

abbrev Bytes := List UInt8

section Hash

-- Int64.of_int32 keeps the sign.
def int64OfUint32 (v : BitVec 32) : BitVec 64 := v.signExtend 64 &&& 0xffffffff#64

def bloomHashMagic : BitVec 32 := 0x4F1BBCDC#32

def bloomHashMagicInt64 : BitVec 64 := int64OfUint32 bloomHashMagic

-- `>>>` is the logical shift.
def bloomHashFast (x : BitVec 32) (bits : ℕ) : BitVec 64 :=
  let xx := int64OfUint32 x
  let prod := xx * bloomHashMagicInt64
  let ret := prod <<< 32
  ret >>> (32 + (32 - bits))

-- A turn of the loop over the bytes of a word
def xorByte (acc : BitVec 32 × ℕ) (c : UInt8) : BitVec 32 × ℕ :=
  (acc.1 ^^^ (BitVec.ofNat 32 (lowercase c).toNat <<< (acc.2 * 8)), (acc.2 + 1) % 4)

def bloomHashFull (s : Bytes) (pos len bits : ℕ) : BitVec 64 :=
  bloomHashFast (((s.take len).drop pos).foldl xorByte (0, 0)).1 bits

def bloomHash (s : Bytes) (bits : ℕ) : BitVec 64 := bloomHashFull s 0 s.length bits

lemma toNat_bloomHash_lt (s : Bytes) {bits : ℕ} (h : bits ≤ 32) :
    (bloomHash s bits).toNat < 2 ^ bits := by
  have hshift := BitVec.toNat_ushiftRight_lt
    ((int64OfUint32 ((s.take s.length).drop 0 |>.foldl xorByte (0, 0)).1 * bloomHashMagicInt64)
      <<< 32) (32 + (32 - bits)) (by omega)
  have hwidth : 64 - (32 + (32 - bits)) = bits := by omega
  rwa [hwidth] at hshift

-- The hash is not negative, so that Int64.to_int gives the same number.
lemma toInt_bloomHash (s : Bytes) {bits : ℕ} (h : bits ≤ 32) :
    (bloomHash s bits).toInt = (bloomHash s bits).toNat := by
  have hlt := toNat_bloomHash_lt s h
  have hpow : 2 ^ bits ≤ 2 ^ 32 := Nat.pow_le_pow_right (by norm_num) h
  exact BitVec.toInt_eq_toNat_of_lt (by omega)

-- The position of a word in a table
def pos (tableSize : ℕ) (w : Bytes) : ℕ := (bloomHash w tableSize).toInt.toNat

lemma pos_lt (w : Bytes) {bits : ℕ} (h : bits ≤ 32) : pos bits w < 2 ^ bits := by
  rw [pos, toInt_bloomHash w h, Int.toNat_natCast]
  exact toNat_bloomHash_lt w h

end Hash

namespace Gnutella2

-- A turn of bitv_to_string: the bits of a byte are counted from the highest one.
def orBit (s : Bytes) (i : ℕ) : Option Bytes := do
  let pos := i / 8
  let bit := 7 - i % 8
  let x := 1 <<< bit
  let c ← s[pos]?
  return s.set pos (UInt8.ofNat (c.toNat ||| x))

def bitvToString (bitv : Bitv) : Option Bytes :=
  (Bitv.iteriTrue bitv).foldlM orBit (List.replicate (bitv.length / 8) 0)

def createQrtTable (words : List Bytes) (tableSize : ℕ) : Option Bytes := do
  let tableLength := 1 <<< tableSize
  let bitv := Bitv.create tableLength true
  let bitv ← words.foldlM (fun bitv w => Bitv.set bitv (pos tableSize w) false) bitv
  bitvToString bitv

-- The bits are inverted: zero tells that some word has the position.
def Present (table : Bytes) (i : ℕ) : Prop := bitAt table i = false

lemma orBit_spec {s : Bytes} {i : ℕ} (hi : i < 8 * s.length) :
    ∃ s', orBit s i = some s' ∧ s'.length = s.length ∧
      ∀ k, bitAt s' k = (bitAt s k || decide (i = k)) := by
  have hpos : i / 8 < s.length := by omega
  refine ⟨s.set (i / 8) (UInt8.ofNat (s[i / 8].toNat ||| (1 <<< (7 - i % 8)))), ?_,
    List.length_set, fun k => ?_⟩
  · simp [orBit, List.getElem?_eq_getElem hpos]
  · have hx : 1 <<< (7 - i % 8) < 2 ^ 8 := by
      rw [Nat.one_shiftLeft]
      exact Nat.pow_lt_pow_right (by norm_num) (by omega)
    rw [bitAt_set_or hpos hx, Nat.one_shiftLeft, Nat.testBit_two_pow, ← Bool.decide_and]
    congr 1
    rw [decide_eq_decide]
    omega

lemma foldlM_orBit {s : Bytes} {is : List ℕ} (his : ∀ i ∈ is, i < 8 * s.length) :
    ∃ s', is.foldlM orBit s = some s' ∧ s'.length = s.length ∧
      ∀ k, bitAt s' k = (bitAt s k || decide (k ∈ is)) := by
  induction is generalizing s with
  | nil => exact ⟨s, rfl, rfl, by simp⟩
  | cons i is ih =>
    obtain ⟨s₁, heq₁, hlen₁, hbit₁⟩ := orBit_spec (his i (by simp))
    obtain ⟨s₂, heq₂, hlen₂, hbit₂⟩ := ih (s := s₁) fun j hj => by
      rw [hlen₁]
      exact his j (by simp [hj])
    refine ⟨s₂, ?_, hlen₂.trans hlen₁, fun k => ?_⟩
    · rw [List.foldlM_cons, heq₁]
      exact heq₂
    · rw [hbit₂, hbit₁, Bool.or_assoc, ← Bool.decide_or]
      simp only [List.mem_cons, eq_comm]

lemma foldlM_set {bitv : Bitv} {positions : List ℕ} (h : ∀ p ∈ positions, p < bitv.length) :
    ∃ bitv', positions.foldlM (fun bitv p => Bitv.set bitv p false) bitv = some bitv' ∧
      bitv'.length = bitv.length ∧
      ∀ k, bitv'.bit k = (bitv.bit k && decide (k ∉ positions)) := by
  induction positions generalizing bitv with
  | nil => exact ⟨bitv, rfl, rfl, by simp⟩
  | cons p positions ih =>
    obtain ⟨v₁, heq₁, hlen₁, hbit₁⟩ := Bitv.set_false (h p (by simp))
    obtain ⟨v₂, heq₂, hlen₂, hbit₂⟩ := @ih v₁ fun q hq => by
      rw [hlen₁]
      exact h q (by simp [hq])
    refine ⟨v₂, ?_, hlen₂.trans hlen₁, fun k => ?_⟩
    · rw [List.foldlM_cons, heq₁]
      exact heq₂
    · rw [hbit₂, hbit₁, Bool.and_assoc, ← Bool.decide_and]
      simp only [List.mem_cons, not_or, ne_eq, eq_comm]

lemma createQrtTable_spec (words : List Bytes) {bits : ℕ} (h3 : 3 ≤ bits) (h32 : bits ≤ 32) :
    ∃ table, createQrtTable words bits = some table ∧ 8 * table.length = 2 ^ bits ∧
      ∀ i < 2 ^ bits, Present table i ↔ i ∈ words.map (pos bits) := by
  have hlen : (Bitv.create (1 <<< bits) true).length = 2 ^ bits := by
    rw [Bitv.length_create, Nat.one_shiftLeft]
  obtain ⟨v, hv, hvlen, hvbit⟩ := @foldlM_set (Bitv.create (1 <<< bits) true)
    (words.map (pos bits)) (by
      rw [hlen]
      simpa using fun w _ => pos_lt w h32)
  have height : 8 * (v.length / 8) = 2 ^ bits := by
    have hsplit : 2 ^ bits = 8 * 2 ^ (bits - 3) := by
      conv_lhs => rw [show bits = 3 + (bits - 3) by omega, pow_add]
      norm_num
    rw [hvlen, hlen, hsplit, Nat.mul_div_cancel_left _ (by norm_num)]
  have hbit (i : ℕ) : v.bit i = true ↔ i < 2 ^ bits ∧ i ∉ words.map (pos bits) := by
    rw [hvbit, Bitv.bit_create, Nat.one_shiftLeft, ← Bool.decide_and, decide_eq_true_iff]
  obtain ⟨s, hs, hslen, hsbit⟩ := @foldlM_orBit (List.replicate (v.length / 8) 0)
    (Bitv.iteriTrue v) fun i hi => by
      rw [List.length_replicate, height]
      exact ((hbit i).mp (Bitv.mem_iteriTrue.mp hi)).1
  refine ⟨s, ?_, ?_, fun i hi => ?_⟩
  · rw [List.foldlM_map] at hv
    simp only [createQrtTable]
    rw [hv]
    exact hs
  · rw [hslen, List.length_replicate, height]
  · rw [Present, hsbit, bitAt_replicate, Bool.false_or, decide_eq_false_iff_not,
      Bitv.mem_iteriTrue, hbit]
    simp [hi]

end Gnutella2

namespace Gnutella

def infinity : ℤ := 7

-- `land 15` of a difference that may be negative
def land15 (d : ℤ) : ℤ := d % 16

def setAt (array : List ℤ) (i : ℕ) (v : ℤ) : Option (List ℤ) :=
  if i < array.length then some (array.set i v) else none

def createQrtTable (words : List Bytes) (tableSize : ℕ) : Option Bytes := do
  let tableLength := 1 <<< tableSize
  let oldArray := List.replicate tableLength infinity
  let array := List.replicate tableLength infinity
  let array ← words.foldlM (fun array w => setAt array (pos tableSize w) 1) array
  let stringSize := tableLength / 2
  (List.range stringSize).mapM fun i => do
    let high := land15 ((← array[i * 2]?) - (← oldArray[i * 2]?))
    let low := land15 ((← array[i * 2 + 1]?) - (← oldArray[i * 2 + 1]?))
    return UInt8.ofNat (high * 16 + low).toNat

-- What the receiver of a patch does: the entries of a byte are signed numbers of four bits, the
-- high one first, that are added to a table whose entries are all `infinity`.
def patched (table : Bytes) (i : ℕ) : ℤ :=
  let c := (table.getD (i / 2) 0).toNat
  let nibble : ℤ := if i % 2 = 0 then c / 16 else c % 16
  infinity + if nibble < 8 then nibble else nibble - 16

def Present (table : Bytes) (i : ℕ) : Prop := patched table i < infinity

lemma foldlM_setAt {array : List ℤ} {positions : List ℕ}
    (h : ∀ p ∈ positions, p < array.length) :
    ∃ array', positions.foldlM (fun array p => setAt array p 1) array = some array' ∧
      array'.length = array.length ∧
      ∀ k < array.length, array'[k]? = if k ∈ positions then some 1 else array[k]? := by
  induction positions generalizing array with
  | nil => exact ⟨array, rfl, rfl, by simp⟩
  | cons p positions ih =>
    have hp := h p (by simp)
    obtain ⟨a, heq, hlen, hget⟩ := @ih (array.set p 1) fun q hq => by
      rw [List.length_set]
      exact h q (by simp [hq])
    rw [List.length_set] at hlen hget
    refine ⟨a, ?_, hlen, fun k hk => ?_⟩
    · rw [List.foldlM_cons, setAt, if_pos hp]
      exact heq
    · rw [hget k hk, List.getElem?_set]
      by_cases hkp : p = k
      · subst hkp
        simp [hp]
      · have hkp' : ¬ k = p := fun h => hkp h.symm
        simp [hkp, hkp']

-- The differences 10 and 0 are -6 and 0 in four bits.
lemma patched_packed {d : ℕ → ℤ} (hd : ∀ j, d j = 10 ∨ d j = 0) {n i : ℕ} (hi : i / 2 < n) :
    patched ((List.range n).map fun i => UInt8.ofNat (d (i * 2) * 16 + d (i * 2 + 1)).toNat) i =
      if d i = 10 then 1 else infinity := by
  rw [patched, List.getD_eq_getElem?_getD, List.getElem?_map, List.getElem?_range hi]
  simp only [Option.map_some, Option.getD_some]
  rcases Nat.mod_two_eq_zero_or_one i with hmod | hmod
  · have hpos : i / 2 * 2 = i := by omega
    rw [if_pos hmod, hpos]
    rcases hd i with h | h <;> rcases hd (i + 1) with h' | h' <;> rw [h, h'] <;> decide
  · have hpos : i / 2 * 2 + 1 = i := by omega
    have hodd : ¬ i % 2 = 0 := by omega
    rw [if_neg hodd, hpos]
    rcases hd (i / 2 * 2) with h | h <;> rcases hd i with h' | h' <;> rw [h, h'] <;> decide

lemma createQrtTable_spec (words : List Bytes) {bits : ℕ} (h3 : 3 ≤ bits) (h32 : bits ≤ 32) :
    ∃ table, createQrtTable words bits = some table ∧ 2 * table.length = 2 ^ bits ∧
      ∀ i < 2 ^ bits, patched table i = if i ∈ words.map (pos bits) then 1 else infinity := by
  have hlen : (List.replicate (1 <<< bits) infinity).length = 2 ^ bits := by
    rw [List.length_replicate, Nat.one_shiftLeft]
  obtain ⟨a, ha, halen, haget⟩ := @foldlM_setAt (List.replicate (1 <<< bits) infinity)
    (words.map (pos bits)) (by
      rw [hlen]
      simpa using fun w _ => pos_lt w h32)
  rw [hlen] at halen haget
  have hhalf : 2 * (2 ^ bits / 2) = 2 ^ bits := by
    have hsplit : 2 ^ bits = 2 * 2 ^ (bits - 1) := by
      conv_lhs => rw [show bits = 1 + (bits - 1) by omega, pow_add]
      norm_num
    rw [hsplit, Nat.mul_div_cancel_left _ (by norm_num)]
  -- the difference at a position, in four bits
  set d : ℕ → ℤ := fun i => if i ∈ words.map (pos bits) then 10 else 0 with hd
  have hdiff {i : ℕ} (hi : i < 2 ^ bits) : ∃ v, a[i]? = some v ∧ land15 (v - infinity) = d i := by
    have hi' : i < 1 <<< bits := by rwa [Nat.one_shiftLeft]
    rw [haget i hi, List.getElem?_replicate, if_pos hi']
    simp only [hd]
    split_ifs
    · exact ⟨1, rfl, by decide⟩
    · exact ⟨infinity, rfl, by decide⟩
  have hold {i : ℕ} (hi : i < 2 ^ bits) :
      (List.replicate (2 ^ bits) infinity)[i]? = some infinity := by
    rw [List.getElem?_replicate, if_pos hi]
  refine ⟨(List.range (2 ^ bits / 2)).map fun i => UInt8.ofNat (d (i * 2) * 16 + d (i * 2 + 1)).toNat,
    ?_, by rw [List.length_map, List.length_range, hhalf], fun i hi => ?_⟩
  · rw [List.foldlM_map] at ha
    simp only [createQrtTable]
    rw [ha, Nat.one_shiftLeft]
    refine Lib.mapM_range_eq fun i hi => ?_
    obtain ⟨high, hhigh, hdhigh⟩ := hdiff (i := i * 2) (by omega)
    obtain ⟨low, hlow, hdlow⟩ := hdiff (i := i * 2 + 1) (by omega)
    simp only [hhigh, hlow, hold (i := i * 2) (by omega), hold (i := i * 2 + 1) (by omega),
      Option.bind_eq_bind, Option.bind_some, Option.pure_def, hdhigh, hdlow]
  · rw [patched_packed (fun j => by simp only [hd]; split_ifs <;> simp) (by omega)]
    simp only [hd]
    split_ifs <;> first | rfl | contradiction

end Gnutella

-- Both tables tell exactly the positions of the words.
theorem qrt_tables_exact (words : List Bytes) (bits : ℕ) (h3 : 3 ≤ bits) (h32 : bits ≤ 32) :
    (∀ w, 0 ≤ (bloomHash w bits).toInt ∧ (bloomHash w bits).toInt < 2 ^ bits) ∧
      (∃ table, Gnutella2.createQrtTable words bits = some table ∧
        8 * table.length = 2 ^ bits ∧
        ∀ i < 2 ^ bits, Gnutella2.Present table i ↔
          ∃ w ∈ words, (bloomHash w bits).toInt = i) ∧
      ∃ table, Gnutella.createQrtTable words bits = some table ∧
        2 * table.length = 2 ^ bits ∧
        ∀ i < 2 ^ bits, Gnutella.Present table i ↔
          ∃ w ∈ words, (bloomHash w bits).toInt = i := by
  have hmem (i : ℕ) : i ∈ words.map (pos bits) ↔ ∃ w ∈ words, (bloomHash w bits).toInt = i := by
    rw [List.mem_map]
    refine exists_congr fun w => and_congr_right fun _ => ?_
    rw [pos, toInt_bloomHash w h32]
    omega
  refine ⟨fun w => ?_, ?_, ?_⟩
  · have hlt := toNat_bloomHash_lt w h32
    rw [toInt_bloomHash w h32]
    exact ⟨Int.natCast_nonneg _, by exact_mod_cast hlt⟩
  · obtain ⟨table, heq, hlen, hpresent⟩ := Gnutella2.createQrtTable_spec words h3 h32
    exact ⟨table, heq, hlen, fun i hi => (hpresent i hi).trans (hmem i)⟩
  · obtain ⟨table, heq, hlen, hpatched⟩ := Gnutella.createQrtTable_spec words h3 h32
    refine ⟨table, heq, hlen, fun i hi => ?_⟩
    rw [← hmem, Gnutella.Present, hpatched i hi]
    split_ifs with h
    · exact ⟨fun _ => h, fun _ => by decide⟩
    · exact ⟨fun hlt => absurd hlt (lt_irrefl _), fun h' => absurd h' h⟩

-- A table of eight positions for the words "a" and "bc"
theorem qrt_tables_exact_two :
    Gnutella2.createQrtTable [[97], [98, 99]] 3 = some [126] ∧
      ∃ table, Gnutella2.createQrtTable [[97], [98, 99]] 3 = some table ∧
        8 * table.length = 2 ^ 3 ∧
        ∀ i < 2 ^ 3, Gnutella2.Present table i ↔
          ∃ w ∈ [[97], [98, 99]], (bloomHash w 3).toInt = (i : ℕ) :=
  ⟨by decide, (qrt_tables_exact [[97], [98, 99]] 3 (by decide) (by decide)).2.1⟩

end Mldonkey.QueryRouting
