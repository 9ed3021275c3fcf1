import Mathlib.Data.Nat.Bitwise
import Mldonkey.BitTorrent.BigEndian
import Mldonkey.Donkey.Md4

-- Numbers with the weakest byte first, addresses, hashes, strings and bitmaps at a
-- position of a packet. None stands for an exception.
namespace Mldonkey.Donkey

open BigEndian (bufInt8 getInt8 toNat_byte)

structure Ip where
  hi : UInt16
  lo : UInt16
  deriving DecidableEq, Repr

def Ip.null : Ip := ⟨0, 0⟩

namespace LittleEndian

def bufInt16 (i : Int) : Bytes := bufInt8 i ++ bufInt8 (i / 2 ^ 8)

def bufInt24 (i : Int) : Bytes := bufInt8 i ++ (bufInt8 (i / 2 ^ 8) ++ bufInt8 (i / 2 ^ 16))

-- The last byte of buf_int has bit 7 set also when bit 6 is.
def signByte (x : Nat) : Nat := x ||| ((x <<< 1) &&& 0x80)

def bufInt (i : Int) : Bytes :=
  bufInt8 i ++ (bufInt8 (i / 2 ^ 8) ++
    (bufInt8 (i / 2 ^ 16) ++ bufInt8 (signByte (i / 2 ^ 24 % 256).toNat)))

def bufInt64_32 (i : Int) : Bytes :=
  bufInt8 i ++ (bufInt8 (i / 2 ^ 8) ++ (bufInt8 (i / 2 ^ 16) ++ bufInt8 (i / 2 ^ 24)))

def bufInt64 (i : Int) : Bytes := bufInt64_32 i ++ bufInt64_32 (i / 2 ^ 32)

def bufIp (ip : Ip) : Bytes :=
  bufInt8 (ip.hi.toNat / 256) ++ (bufInt8 (ip.hi.toNat % 256) ++
    (bufInt8 (ip.lo.toNat / 256) ++ bufInt8 (ip.lo.toNat % 256)))

def bufString (s : Bytes) : Bytes := bufInt16 s.length ++ s

def bufEstring (s : Bytes) : Bytes := bufInt8 s.length ++ s

def getInt16 (s : Bytes) (pos : Nat) : Option Int := do
  let c1 ← getInt8 s pos
  let c2 ← getInt8 s (pos + 1)
  return c1 + c2 * 2 ^ 8

def getInt24 (s : Bytes) (pos : Nat) : Option Int := do
  let c1 ← getInt8 s pos
  let c2 ← getInt8 s (pos + 1)
  let c3 ← getInt8 s (pos + 2)
  return c1 + c2 * 2 ^ 8 + c3 * 2 ^ 16

-- get_int, and get_uint64_32 for an int64.
def getInt (s : Bytes) (pos : Nat) : Option Int := do
  let c1 ← getInt8 s pos
  let c2 ← getInt8 s (pos + 1)
  let c3 ← getInt8 s (pos + 2)
  let c4 ← getInt8 s (pos + 3)
  return c1 + c2 * 2 ^ 8 + c3 * 2 ^ 16 + c4 * 2 ^ 24

def getInt64 (s : Bytes) (pos : Nat) : Option Int := do
  let i1 ← getInt s pos
  let i2 ← getInt s (pos + 4)
  return (i1 + i2 * 2 ^ 32).bmod (2 ^ 64)

-- String.sub.
def sub (s : Bytes) (pos len : Nat) : Option Bytes :=
  if pos + len ≤ s.length then some ((s.drop pos).take len) else none

def getIp (s : Bytes) (pos : Nat) : Option Ip := do
  let c1 ← getInt8 s pos
  let c2 ← getInt8 s (pos + 1)
  let c3 ← getInt8 s (pos + 2)
  let c4 ← getInt8 s (pos + 3)
  return ⟨.ofNat (c1 * 256 + c2).toNat, .ofNat (c3 * 256 + c4).toNat⟩

def getMd4 (s : Bytes) (pos : Nat) : Option Md4 :=
  if h : ((s.drop pos).take 16).length = 16 then some ⟨_, h⟩ else none

def getString16 (s : Bytes) (pos : Nat) : Option (Bytes × Nat) := do
  let len ← getInt16 s pos
  return (← sub s (pos + 2) len.toNat, pos + 2 + len.toNat)

def getString32 (s : Bytes) (pos : Nat) : Option (Bytes × Nat) := do
  let len ← getInt s pos
  return (← sub s (pos + 4) len.toNat, pos + 4 + len.toNat)

-- The bits of a byte of a bitmap.
def octet (bit : Nat → Bool) : Nat :=
  (List.range 8).foldl (fun m j => if bit j then m ||| (1 <<< j) else m) 0

def bitmapBit (chunks : List Bool) (i j : Nat) : Bool :=
  i * 8 + j < chunks.length && chunks.getD (i * 8 + j) false

def bitmapByte (chunks : List Bool) (i : Nat) : Int := octet (bitmapBit chunks i)

def writeBitmap (chunks : List Bool) : Bytes :=
  bufInt16 chunks.length ++
    if 0 < chunks.length then
      (List.range ((chunks.length - 1) / 8 + 1)).flatMap fun i =>
        bufInt8 (bitmapByte chunks i)
    else []

def getBitmap (s : Bytes) (pos : Nat) : Option (List Bool × Nat) := do
  let nchunks := (← getInt16 s pos).toNat
  if nchunks = 0 then return ([], pos + 2)
  else
    let ms ← (List.range ((nchunks - 1) / 8 + 1)).mapM fun i => getInt8 s (pos + 2 + i)
    return ((List.range nchunks).map fun n => (ms.getD (n / 8) 0).toNat &&& (1 <<< (n % 8)) != 0,
      pos + 2 + (nchunks - 1) / 8 + 1)

theorem drop_next {s a r : Bytes} {pos : Nat} (h : s.drop pos = a ++ r) (n : Nat)
    (ha : a.length = n) : s.drop (pos + n) = r := by
  rw [← List.drop_drop, h, ← ha, List.drop_left]

theorem getElem?_of_drop {s r : Bytes} {pos : Nat} {c : UInt8} (h : s.drop pos = c :: r) :
    s[pos]? = some c := by
  rw [← List.head?_drop, h]
  rfl

@[simp] theorem length_bufInt8 (i : Int) : (bufInt8 i).length = 1 := rfl

@[simp] theorem length_bufInt16 (i : Int) : (bufInt16 i).length = 2 := rfl

@[simp] theorem length_bufInt (i : Int) : (bufInt i).length = 4 := rfl

@[simp] theorem length_bufInt64_32 (i : Int) : (bufInt64_32 i).length = 4 := rfl

@[simp] theorem length_bufInt64 (i : Int) : (bufInt64 i).length = 8 := rfl

@[simp] theorem length_bufIp (ip : Ip) : (bufIp ip).length = 4 := rfl

variable {s r : Bytes} {pos : Nat} {i : Int}

theorem getInt8_mod (h : s.drop pos = bufInt8 i ++ r) : getInt8 s pos = some (i % 256) := by
  rw [getInt8, getElem?_of_drop h]
  exact congrArg some (toNat_byte i)

theorem getInt8_drop (h : s.drop pos = bufInt8 i ++ r) (hi : 0 ≤ i ∧ i < 2 ^ 8) :
    getInt8 s pos = some i := by
  rw [getInt8_mod h, Int.emod_eq_of_lt hi.1 (by omega)]

theorem getInt16_drop (h : s.drop pos = bufInt16 i ++ r) (hi : 0 ≤ i ∧ i < 2 ^ 16) :
    getInt16 s pos = some i := by
  rw [bufInt16, List.append_assoc] at h
  have h2 := drop_next h 1 rfl
  rw [getInt16, getInt8_mod h, getInt8_mod h2]
  show some _ = some _
  congr 1
  omega

theorem getInt24_drop (h : s.drop pos = bufInt24 i ++ r) (hi : 0 ≤ i ∧ i < 2 ^ 24) :
    getInt24 s pos = some i := by
  rw [bufInt24, List.append_assoc, List.append_assoc] at h
  have h2 := drop_next h 1 rfl
  have h3 := drop_next h2 1 rfl
  rw [getInt24, getInt8_mod h, getInt8_mod h2, getInt8_mod h3]
  show some _ = some _
  congr 1
  omega

theorem getInt_bytes {a b c d : Int}
    (h : s.drop pos = (bufInt8 a ++ (bufInt8 b ++ (bufInt8 c ++ bufInt8 d))) ++ r) :
    getInt s pos =
      some (a % 256 + b % 256 * 2 ^ 8 + c % 256 * 2 ^ 16 + d % 256 * 2 ^ 24) := by
  rw [List.append_assoc, List.append_assoc, List.append_assoc] at h
  have h2 := drop_next h 1 rfl
  have h3 := drop_next h2 1 rfl
  have h4 := drop_next h3 1 rfl
  rw [getInt, getInt8_mod h, getInt8_mod h2, getInt8_mod h3, getInt8_mod h4]
  rfl

theorem getInt_bufInt64_32 (h : s.drop pos = bufInt64_32 i ++ r) :
    getInt s pos = some (i % 2 ^ 32) := by
  rw [getInt_bytes h]
  congr 1
  omega

theorem getInt64_32_drop (h : s.drop pos = bufInt64_32 i ++ r) (hi : 0 ≤ i ∧ i < 2 ^ 32) :
    getInt s pos = some i := by
  rw [getInt_bufInt64_32 h, Int.emod_eq_of_lt hi.1 hi.2]

theorem getInt64_drop (h : s.drop pos = bufInt64 i ++ r) (hi : -2 ^ 63 ≤ i ∧ i < 2 ^ 63) :
    getInt64 s pos = some i := by
  rw [bufInt64, List.append_assoc] at h
  have h2 := drop_next h 4 rfl
  rw [getInt64, getInt_bufInt64_32 h, getInt_bufInt64_32 h2]
  show some _ = some _
  congr 1
  rw [Int.bmod_def]
  omega

theorem signByte_eq : ∀ x < 256, signByte x = if 64 ≤ x ∧ x < 128 then x + 128 else x := by
  intro x hx
  have hbit : ((x <<< 1) &&& 0x80) = if x / 64 % 2 = 1 then 128 else 0 := by
    rw [show 0x80 = 2 ^ 7 from rfl, Nat.and_two_pow, Nat.testBit_eq_decide_div_mod_eq,
      Nat.shiftLeft_eq]
    have hdiv : x * 2 ^ 1 / 2 ^ 7 = x / 64 := by omega
    rw [hdiv]
    split_ifs with h <;> simp [h]
  rw [signByte, hbit]
  split_ifs with hodd hin hin
  · exact Nat.or_two_pow_eq_add_of_lt (n := 7) hin.2
  · -- the highest bit is there already
    have hor := Nat.two_pow_add_eq_or_of_lt (i := 7) (b := x - 128) (by omega) 1
    rw [show x = 2 ^ 7 * 1 + (x - 128) by omega, hor, Nat.or_right_comm, Nat.mul_one]
    simp
  · omega
  · exact Nat.or_zero x

theorem getInt_bufInt (h : s.drop pos = bufInt i ++ r) (hi : 0 ≤ i ∧ i < 2 ^ 32) :
    getInt s pos = some (if 2 ^ 30 ≤ i ∧ i < 2 ^ 31 then i + 2 ^ 31 else i) := by
  rw [getInt_bytes h, signByte_eq _ (by omega)]
  congr 1
  split <;> split <;> omega

theorem getInt_drop (h : s.drop pos = bufInt i ++ r) (hi : 0 ≤ i ∧ i < 2 ^ 32)
    (hbit : i < 2 ^ 30 ∨ 2 ^ 31 ≤ i) : getInt s pos = some i := by
  rw [getInt_bufInt h hi, if_neg (by omega)]

-- On 64 bits, what has been written is read again, apart from the ints with bit 30
-- and without bit 31.
theorem integers_survive_iff (s r : Bytes) (i : Int) :
    (0 ≤ i ∧ i < 2 ^ 32 →
      (getInt (s ++ (bufInt i ++ r)) s.length = some i ↔ ¬ (2 ^ 30 ≤ i ∧ i < 2 ^ 31))) ∧
    (-2 ^ 63 ≤ i ∧ i < 2 ^ 63 → getInt64 (s ++ (bufInt64 i ++ r)) s.length = some i) ∧
    (0 ≤ i ∧ i < 2 ^ 32 → getInt (s ++ (bufInt64_32 i ++ r)) s.length = some i) := by
  refine ⟨fun hi => ?_, fun hi => getInt64_drop List.drop_left hi,
    fun hi => getInt64_32_drop List.drop_left hi⟩
  rw [getInt_bufInt List.drop_left hi]
  by_cases hbit : 2 ^ 30 ≤ i ∧ i < 2 ^ 31
  · rw [if_pos hbit]
    refine iff_of_false (fun h => ?_) (not_not_intro hbit)
    have := Option.some.inj h
    omega
  · rw [if_neg hbit]
    exact iff_of_true rfl hbit

-- 2^30 comes back as 3 * 2^30
theorem integers_survive_false :
    ¬ ∀ i : Int, 0 ≤ i → i < 2 ^ 32 → getInt (bufInt i) 0 = some i := by
  intro h
  have hread := h (2 ^ 30) (by decide) (by decide)
  rw [show getInt (bufInt (2 ^ 30)) 0 = some (3 * 2 ^ 30) from rfl] at hread
  exact absurd (Option.some.inj hread) (by decide)

theorem sub_drop {a : Bytes} {n : Nat} (h : s.drop pos = a ++ r) (hn : a.length = n)
    (hpos : pos ≤ s.length) : sub s pos n = some a := by
  have hlen := congrArg List.length h
  rw [List.length_drop, List.length_append] at hlen
  rw [sub, if_pos (by omega), h, ← hn, List.take_left]

theorem ofNat_bytes (x : UInt16) :
    UInt16.ofNat (((x.toNat : Int) / 256) % 256 * 256 + ((x.toNat : Int) % 256) % 256).toNat = x := by
  have hx := x.toNat_lt
  rw [← UInt16.toNat_inj, UInt16.toNat_ofNat']
  omega

theorem getIp_drop {ip : Ip} (h : s.drop pos = bufIp ip ++ r) : getIp s pos = some ip := by
  rw [bufIp, List.append_assoc, List.append_assoc, List.append_assoc] at h
  have h2 := drop_next h 1 rfl
  have h3 := drop_next h2 1 rfl
  have h4 := drop_next h3 1 rfl
  rw [getIp, getInt8_mod h, getInt8_mod h2, getInt8_mod h3, getInt8_mod h4]
  show some (Ip.mk _ _) = some ip
  rw [ofNat_bytes, ofNat_bytes]

theorem getMd4_drop {md4 : Md4} (h : s.drop pos = md4.bytes ++ r) : getMd4 s pos = some md4 := by
  have htake : (s.drop pos).take 16 = md4.bytes := by
    rw [h, ← md4.length_bytes, List.take_left]
  rw [getMd4, dif_pos (by rw [htake, md4.length_bytes])]
  congr 1
  cases md4
  simp only [Md4.mk.injEq]
  exact htake

theorem getString16_drop {a : Bytes} (h : s.drop pos = bufString a ++ r)
    (ha : a.length < 2 ^ 16) : getString16 s pos = some (a, pos + 2 + a.length) := by
  rw [bufString, List.append_assoc] at h
  have h2 := drop_next h 2 rfl
  have hlen := congrArg List.length h
  rw [List.length_drop, List.length_append, List.length_append, length_bufInt16] at hlen
  rw [getString16, getInt16_drop h ⟨by omega, by omega⟩]
  show (do let t ← sub s (pos + 2) ((a.length : Int).toNat); pure (t, _)) = _
  rw [Int.toNat_natCast, sub_drop h2 rfl (by omega)]
  rfl

-- Each turn of the loop raises the bit of its number or leaves it.
theorem testBit_foldl (f : Nat → Bool) (l : List Nat) (m i : Nat) :
    (l.foldl (fun m j => if f j then m ||| (1 <<< j) else m) m).testBit i =
      (m.testBit i || (decide (i ∈ l) && f i)) := by
  induction l generalizing m with
  | nil => simp
  | cons j l ih =>
      rw [List.foldl_cons, ih]
      by_cases hf : f j
      · rw [if_pos hf, Nat.testBit_or, Nat.one_shiftLeft, Nat.testBit_two_pow]
        by_cases hij : j = i
        · subst hij
          simp [hf]
        · simp [hij, Ne.symm hij]
      · rw [if_neg hf]
        by_cases hij : i = j
        · subst hij
          simp [hf]
        · simp [hij]

theorem testBit_octet (f : Nat → Bool) (i : Nat) :
    (octet f).testBit i = (decide (i < 8) && f i) := by
  rw [octet, testBit_foldl, Nat.zero_testBit, Bool.false_or]
  simp only [List.mem_range]

theorem octet_get (f : Nat → Bool) {j : Nat} (hj : j < 8) :
    (octet f &&& (1 <<< j) != 0) = f j := by
  rw [Nat.one_shiftLeft, Nat.and_two_pow, testBit_octet]
  cases f j <;> simp [hj]

theorem octet_lt (f : Nat → Bool) : octet f < 256 := by
  apply Nat.lt_pow_two_of_testBit (n := 8)
  intro i hi
  rw [testBit_octet, decide_eq_false (by omega), Bool.false_and]

theorem bitmapByte_range (chunks : List Bool) (k : Nat) :
    0 ≤ bitmapByte chunks k ∧ bitmapByte chunks k < 2 ^ 8 := by
  have hlt := octet_lt (bitmapBit chunks k)
  rw [bitmapByte]
  omega

theorem mapM_getInt8 {f : Nat → Int} (hf : ∀ k, 0 ≤ f k ∧ f k < 2 ^ 8) (n k : Nat)
    (h : s.drop (pos + k) = (List.range' k n).flatMap (fun i => bufInt8 (f i)) ++ r) :
    (List.range' k n).mapM (fun i => getInt8 s (pos + i)) = some ((List.range' k n).map f) := by
  induction n generalizing k with
  | zero => rfl
  | succ n ih =>
      rw [List.range'_succ, List.flatMap_cons, List.append_assoc] at h
      rw [List.range'_succ, List.mapM_cons, getInt8_drop h (hf k), ih (k + 1) (drop_next h 1 rfl)]
      rfl

def bitmapLength (n : Nat) : Nat := if 0 < n then 2 + (n - 1) / 8 + 1 else 2

@[simp] theorem length_writeBitmap (chunks : List Bool) :
    (writeBitmap chunks).length = bitmapLength chunks.length := by
  rw [writeBitmap, bitmapLength, List.length_append, length_bufInt16]
  split
  · rw [List.length_flatMap]
    simp
    omega
  · rfl

theorem getBitmap_drop {chunks : List Bool} (h : s.drop pos = writeBitmap chunks ++ r)
    (hc : chunks.length < 2 ^ 16) :
    getBitmap s pos = some (chunks, pos + bitmapLength chunks.length) := by
  rw [writeBitmap, List.append_assoc] at h
  have h2 := drop_next h 2 rfl
  rw [getBitmap, getInt16_drop h ⟨by omega, by omega⟩, bitmapLength]
  show (if ((chunks.length : Int)).toNat = 0 then _ else _) = _
  rw [Int.toNat_natCast]
  by_cases hz : chunks.length = 0
  · rw [if_pos hz, if_neg (by omega), List.length_eq_zero_iff.mp hz]
    rfl
  · rw [if_pos (by omega), List.range_eq_range'] at h2
    rw [← Nat.add_zero (pos + 2)] at h2
    have hread := mapM_getInt8 (bitmapByte_range chunks) _ 0 h2
    rw [if_neg hz, if_pos (by omega), List.range_eq_range', hread]
    show some (_, _) = some (_, _)
    refine congrArg some (Prod.ext ?_ (by simp only; omega))
    apply List.ext_getElem (by simp)
    intro n hn hn'
    have hlt : n < chunks.length := hn'
    have hk : n / 8 < (chunks.length - 1) / 8 + 1 := by omega
    simp only [List.getElem_map, List.getElem_range, List.getD_eq_getElem?_getD, List.getElem?_map]
    rw [List.getElem?_range' hk, Option.map_some, Option.getD_some]
    rw [bitmapByte, Int.toNat_natCast, octet_get _ (Nat.mod_lt n (by omega)), bitmapBit]
    rw [show (0 + 1 * (n / 8)) * 8 + n % 8 = n by omega]
    simp [hlt]

end LittleEndian

end Mldonkey.Donkey
