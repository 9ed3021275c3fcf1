import Mldonkey.Lib.BitString
import Mldonkey.Lib.Loops
import Mathlib

-- Hashes as texts with five bits in a character. None stands for an exception.
namespace Mldonkey.Base32

open BitString (bitAt bitAt_of_le bitAt_replicate bitAt_set_or eq_of_testBit forall_byte)

abbrev Bytes := List UInt8

-- The integers of a 64-bit machine
abbrev Int63 := BitVec 63

def intOfChar (c : UInt8) : Int63 := BitVec.ofNat 63 c.toNat

-- none stands for Invalid_argument.
def charOfInt (n : Int63) : Option UInt8 :=
  if 0 ≤ n.toInt ∧ n.toInt ≤ 255 then some (UInt8.ofNat n.toNat) else none

def charOfInt5 (upper : Bool) (n : ℕ) : UInt8 :=
  UInt8.ofNat (if n < 26 then (if upper then 65 else 97) + n else 50 + (n - 26))

def int5OfChar (n : UInt8) : Int63 :=
  if 65 ≤ n ∧ n ≤ 90 then intOfChar n - 65
  else if 97 ≤ n ∧ n ≤ 122 then intOfChar n - 97
  else intOfChar n + 26 - 50

def textLength (hashLength : ℕ) : ℕ := (hashLength * 8 + 4) / 5

-- s.[byte] <- char_of_int (int_of_char s.[byte] lor x)
def orByte (s : Bytes) (byte : ℕ) (x : Int63) : Option Bytes := do
  let c ← s[byte]?
  return s.set byte (← charOfInt (intOfChar c ||| x))

-- A turn of the loop of of_string
def ofStringTurn (hashLength : ℕ) (r s : Bytes) (i : ℕ) : Option Bytes := do
  let pos := i * 5
  let byte := pos / 8
  let bit := pos % 8
  let c := int5OfChar (← r[i]?)
  if bit < 3 then orByte s byte (c <<< (3 - bit))
  else
    let s ← orByte s byte ((c >>> (bit - 3)) &&& 0xff)
    if byte + 1 < hashLength then orByte s (byte + 1) ((c <<< (11 - bit)) &&& 0xff) else return s

def ofString (hashLength : ℕ) (r : Bytes) : Option Bytes :=
  let len := r.length
  if len = textLength hashLength then
    (List.range len).foldlM (ofStringTurn hashLength r) (List.replicate hashLength 0)
  else none

-- The five bits for a character of the text
def quintet (hashLength : ℕ) (s : Bytes) (i : ℕ) : Option ℕ := do
  let pos := i * 5
  let byte := pos / 8
  let bit := pos % 8
  if bit < 3 then
    let x ← s[byte]?
    return (x.toNat >>> (3 - bit)) &&& 0x1f
  else
    let x ← s[byte]?
    let y ← if byte + 1 = hashLength then some 0 else s[byte + 1]?
    let x := (x.toNat <<< 8) + y.toNat
    return (x >>> (11 - bit)) &&& 0x1f

def toStringCase (upper : Bool) (hashLength : ℕ) (s : Bytes) : Option Bytes :=
  if s.length = hashLength then
    (List.range (textLength hashLength)).mapM fun i => (quintet hashLength s i).map (charOfInt5 upper)
  else none

-- to_string has the same body with the upper letters.
def toString (hashLength : ℕ) (s : Bytes) : Option Bytes := toStringCase true hashLength s

section Values

lemma toNat_intOfChar (c : UInt8) : (intOfChar c).toNat = c.toNat := by
  have := c.toNat_lt
  rw [intOfChar, BitVec.toNat_ofNat, Nat.mod_eq_of_lt (by omega)]

lemma charOfInt_eq (n : Int63) :
    charOfInt n = if n.toNat < 256 then some (UInt8.ofNat n.toNat) else none := by
  have hn := n.isLt
  have hiff : (0 ≤ n.toInt ∧ n.toInt ≤ 255) ↔ n.toNat < 256 := by
    rw [BitVec.toInt_eq_toNat_cond]
    split_ifs <;> omega
  rw [charOfInt]
  exact if_congr hiff rfl rfl

lemma orByte_eq {s : Bytes} {byte : ℕ} (hbyte : byte < s.length) (x : Int63) :
    orByte s byte x =
      if x.toNat < 256 then some (s.set byte (UInt8.ofNat (s[byte].toNat ||| x.toNat)))
      else none := by
  have hor : (intOfChar s[byte] ||| x).toNat = s[byte].toNat ||| x.toNat := by
    rw [BitVec.toNat_or, toNat_intOfChar]
  have hiff : s[byte].toNat ||| x.toNat < 256 ↔ x.toNat < 256 :=
    ⟨fun h => Nat.right_le_or.trans_lt h, fun h => Nat.or_lt_two_pow (n := 8) s[byte].toNat_lt h⟩
  simp only [orByte, List.getElem?_eq_getElem hbyte, Option.bind_eq_bind, Option.bind_some,
    charOfInt_eq, hor, hiff]
  split_ifs <;> rfl

-- A character of the alphabet, in either case
def inAlphabet (c : UInt8) : Bool :=
  65 ≤ c && c ≤ 90 || 97 ≤ c && c ≤ 122 || 50 ≤ c && c ≤ 55

-- Char.uppercase, in Latin-1
def uppercase (c : UInt8) : UInt8 :=
  if 97 ≤ c ∧ c ≤ 122 ∨ 224 ≤ c ∧ c ≤ 246 ∨ 248 ≤ c ∧ c ≤ 254 then c - 32 else c

lemma int5OfChar_alphabet {c : UInt8} (h : inAlphabet c = true) :
    (int5OfChar c).toNat < 32 ∧ charOfInt5 true (int5OfChar c).toNat = uppercase c := by
  have hall : ∀ c, inAlphabet c = true →
      (int5OfChar c).toNat < 32 ∧ charOfInt5 true (int5OfChar c).toNat = uppercase c :=
    forall_byte (by decide)
  exact hall c h

lemma int5OfChar_charOfInt5 (upper : Bool) {n : ℕ} (h : n < 32) :
    (int5OfChar (charOfInt5 upper n)).toNat = n ∧ inAlphabet (charOfInt5 upper n) = true := by
  have : ∀ upper, ∀ n < 32, (int5OfChar (charOfInt5 upper n)).toNat = n ∧
      inAlphabet (charOfInt5 upper n) = true := by decide
  exact this upper n h

lemma inAlphabet_of_uppercase {c : UInt8} {n : ℕ} (hn : n < 32)
    (h : charOfInt5 true n = uppercase c) : inAlphabet c = true := by
  have hup : inAlphabet (uppercase c) = true := h ▸ (int5OfChar_charOfInt5 true hn).2
  have hall : ∀ c, inAlphabet (uppercase c) = true → inAlphabet c = true :=
    forall_byte (by decide)
  exact hall c hup

-- The only characters that are refused stand where their bits end in the same byte.
lemma shift_fits_iff (c : UInt8) {bit : ℕ} (hbit : bit < 3) :
    (int5OfChar c <<< (3 - bit)).toNat < 256 ↔ (int5OfChar c).toNat < 2 ^ (5 + bit) := by
  have hall : ∀ c, ∀ bit < 3, (int5OfChar c <<< (3 - bit)).toNat < 256 ↔
      (int5OfChar c).toNat < 2 ^ (5 + bit) := forall_byte (by decide)
  exact hall c bit hbit

end Values

section Reading

variable {n i : ℕ} {r s h : Bytes} {ch : UInt8}

-- The value of a character does not fit the byte in which its bits end.
def Refuses (i : ℕ) (ch : UInt8) : Prop :=
  i * 5 % 8 < 3 ∧ 2 ^ (5 + i * 5 % 8) ≤ (int5OfChar ch).toNat

lemma lt_textLength (hi : i < textLength n) : i * 5 < 8 * n := by
  rw [textLength] at hi
  omega

-- The five bits of a character, counted from the end of its part of the text
lemma testBit_place {c p : ℕ} (hc : c < 32) :
    (decide (p ≤ i * 5 + 4) && c.testBit (i * 5 + 4 - p)) =
      (decide (p / 5 = i) && c.testBit (4 - p % 5)) := by
  by_cases hp : p / 5 = i
  · have hle : p ≤ i * 5 + 4 := by omega
    have hsub : i * 5 + 4 - p = 4 - p % 5 := by omega
    simp [hp, hle, hsub]
  · by_cases hle : p ≤ i * 5 + 4
    · have hpow : 2 ^ 5 ≤ 2 ^ (i * 5 + 4 - p) := Nat.pow_le_pow_right (by norm_num) (by omega)
      have hfalse : c.testBit (i * 5 + 4 - p) = false :=
        Nat.testBit_lt_two_pow (lt_of_lt_of_le hc hpow)
      simp [hp, hfalse]
    · simp [hp, hle]

-- The bits that a character raises in the bytes
def raised (n i : ℕ) (ch : UInt8) (p : ℕ) : Bool :=
  decide (p < 8 * n) && decide (p / 5 = i) && (int5OfChar ch).toNat.testBit (4 - p % 5)

lemma turn_one (hs : s.length = n) (hi : i < textLength n) (hc : r[i]? = some ch)
    (hbit : i * 5 % 8 < 3) (hfits : (int5OfChar ch).toNat < 2 ^ (5 + i * 5 % 8)) :
    ∃ s', ofStringTurn n r s i = some s' ∧ s'.length = n ∧
      ((int5OfChar ch).toNat < 32 →
        ∀ p < 8 * n, bitAt s' p = (bitAt s p || raised n i ch p)) := by
  have hpos := lt_textLength hi
  have hbyte : i * 5 / 8 < s.length := by omega
  have hx := (shift_fits_iff ch hbit).mpr hfits
  refine ⟨s.set (i * 5 / 8) (UInt8.ofNat (s[i * 5 / 8].toNat |||
    (int5OfChar ch <<< (3 - i * 5 % 8)).toNat)), ?_, ?_, fun hvalue p hp => ?_⟩
  · simp only [ofStringTurn, hc, Option.bind_eq_bind, Option.bind_some, if_pos hbit,
      orByte_eq hbyte, if_pos hx]
  · rw [List.length_set, hs]
  · have hshift : (int5OfChar ch <<< (3 - i * 5 % 8)).toNat =
        (int5OfChar ch).toNat <<< (3 - i * 5 % 8) := by
      have hpow : 2 ^ (3 - i * 5 % 8) ≤ 2 ^ 3 := Nat.pow_le_pow_right (by norm_num) (by omega)
      rw [BitVec.toNat_shiftLeft, Nat.mod_eq_of_lt]
      rw [Nat.shiftLeft_eq]
      calc (int5OfChar ch).toNat * 2 ^ (3 - i * 5 % 8) ≤ 31 * 2 ^ 3 :=
            Nat.mul_le_mul (by omega) hpow
        _ < 2 ^ 63 := by norm_num
    rw [bitAt_set_or hbyte hx, raised, hshift, Nat.testBit_shiftLeft, decide_eq_true hp,
      Bool.true_and, ← testBit_place hvalue]
    congr 1
    by_cases hp8 : i * 5 / 8 = p / 8
    · have hsub : 7 - p % 8 - (3 - i * 5 % 8) = i * 5 + 4 - p ∨ i * 5 + 4 < p := by omega
      by_cases hle : p ≤ i * 5 + 4
      · have hge : 7 - p % 8 ≥ 3 - i * 5 % 8 := by omega
        simp [hp8, hle, hge, hsub.resolve_right (by omega)]
      · have hge : ¬ 7 - p % 8 ≥ 3 - i * 5 % 8 := by omega
        simp [hle, hge]
    · by_cases hle : p ≤ i * 5 + 4
      · rw [testBit_place hvalue]
        have hne : ¬ p / 5 = i := by omega
        simp [hp8, hne]
      · simp [hp8, hle]

lemma turn_two (hs : s.length = n) (hi : i < textLength n) (hc : r[i]? = some ch)
    (hbit : ¬ i * 5 % 8 < 3) :
    ∃ s', ofStringTurn n r s i = some s' ∧ s'.length = n ∧
      ((int5OfChar ch).toNat < 32 →
        ∀ p < 8 * n, bitAt s' p = (bitAt s p || raised n i ch p)) := by
  have hpos := lt_textLength hi
  have hbyte : i * 5 / 8 < s.length := by omega
  have hmod (m : ℕ) : m &&& 0xff = m % 2 ^ 8 := Nat.and_two_pow_sub_one_eq_mod m 8
  set x := (int5OfChar ch >>> (i * 5 % 8 - 3)) &&& 0xff with hxdef
  set y := (int5OfChar ch <<< (11 - i * 5 % 8)) &&& 0xff with hydef
  have hxNat : x.toNat = ((int5OfChar ch).toNat >>> (i * 5 % 8 - 3)) % 2 ^ 8 := by
    rw [hxdef, BitVec.toNat_and, BitVec.toNat_ushiftRight, ← hmod]
    rfl
  have hyNat : y.toNat = ((int5OfChar ch).toNat <<< (11 - i * 5 % 8) % 2 ^ 63) % 2 ^ 8 := by
    rw [hydef, BitVec.toNat_and, BitVec.toNat_shiftLeft, ← hmod]
    rfl
  have hx : x.toNat < 256 := by rw [hxNat]; exact Nat.mod_lt _ (by norm_num)
  have hy : y.toNat < 256 := by rw [hyNat]; exact Nat.mod_lt _ (by norm_num)
  set s₁ := s.set (i * 5 / 8) (UInt8.ofNat (s[i * 5 / 8].toNat ||| x.toNat)) with hs₁
  have hlen₁ : s₁.length = n := by rw [hs₁, List.length_set, hs]
  have hfirst : orByte s (i * 5 / 8) x = some s₁ := by rw [orByte_eq hbyte, if_pos hx]
  -- what the first byte gets
  have hbits₁ : (int5OfChar ch).toNat < 32 → ∀ p, bitAt s₁ p = (bitAt s p ||
      (decide (i * 5 / 8 = p / 8) && (decide (p / 5 = i) &&
        (int5OfChar ch).toNat.testBit (4 - p % 5)))) := by
    intro hvalue p
    rw [hs₁, bitAt_set_or hbyte hx, hxNat, Nat.testBit_mod_two_pow, Nat.testBit_shiftRight,
      ← testBit_place hvalue]
    congr 1
    by_cases hp8 : i * 5 / 8 = p / 8
    · have hle : p ≤ i * 5 + 4 := by omega
      have hlt : 7 - p % 8 < 8 := by omega
      have hsub : i * 5 % 8 - 3 + (7 - p % 8) = i * 5 + 4 - p := by omega
      simp [hp8, hle, hlt, hsub]
    · simp [hp8]
  by_cases hnext : i * 5 / 8 + 1 < n
  · have hbyte₂ : i * 5 / 8 + 1 < s₁.length := by omega
    refine ⟨s₁.set (i * 5 / 8 + 1) (UInt8.ofNat (s₁[i * 5 / 8 + 1].toNat ||| y.toNat)), ?_, ?_,
      fun hvalue p hp => ?_⟩
    · simp only [ofStringTurn, hc, Option.bind_eq_bind, Option.bind_some, if_neg hbit, ← hxdef,
        ← hydef, hfirst, if_pos hnext, orByte_eq hbyte₂, if_pos hy]
    · rw [List.length_set, hlen₁]
    · rw [bitAt_set_or hbyte₂ hy, hbits₁ hvalue, raised, decide_eq_true hp, Bool.true_and,
        Bool.or_assoc]
      congr 1
      rw [hyNat, Nat.testBit_mod_two_pow, Nat.testBit_mod_two_pow, Nat.testBit_shiftLeft,
        ← testBit_place hvalue]
      have hlt : 7 - p % 8 < 8 := by omega
      have hlt' : 7 - p % 8 < 63 := by omega
      by_cases hp8 : i * 5 / 8 + 1 = p / 8
      · have hp8' : ¬ i * 5 / 8 = p / 8 := by omega
        by_cases hle : p ≤ i * 5 + 4
        · have hge : 7 - p % 8 ≥ 11 - i * 5 % 8 := by omega
          have hsub : 7 - p % 8 - (11 - i * 5 % 8) = i * 5 + 4 - p := by omega
          simp [hp8, hp8', hle, hge, hsub, hlt, hlt']
        · have hge : ¬ 7 - p % 8 ≥ 11 - i * 5 % 8 := by omega
          simp [hp8', hle, hge]
      · by_cases hp8' : i * 5 / 8 = p / 8
        · simp [hp8']
        · have hne : ¬ p / 5 = i := by omega
          rw [testBit_place hvalue]
          simp [hp8, hp8', hne]
  · refine ⟨s₁, ?_, hlen₁, fun hvalue p hp => ?_⟩
    · simp only [ofStringTurn, hc, Option.bind_eq_bind, Option.bind_some, if_neg hbit, ← hxdef,
        hfirst, if_neg hnext, Option.pure_def]
    · rw [hbits₁ hvalue, raised, decide_eq_true hp, Bool.true_and]
      congr 1
      by_cases hp8 : i * 5 / 8 = p / 8
      · simp [hp8]
      · have hne : ¬ p / 5 = i := by omega
        simp [hp8, hne]

lemma turn_refuses (hs : s.length = n) (hi : i < textLength n) (hc : r[i]? = some ch)
    (h : Refuses i ch) : ofStringTurn n r s i = none := by
  have hpos := lt_textLength hi
  have hbyte : i * 5 / 8 < s.length := by omega
  have hx : ¬ (int5OfChar ch <<< (3 - i * 5 % 8)).toNat < 256 := fun hlt =>
    absurd ((shift_fits_iff ch h.1).mp hlt) (Nat.not_lt.mpr h.2)
  simp only [ofStringTurn, hc, Option.bind_eq_bind, Option.bind_some, if_pos h.1,
    orByte_eq hbyte, if_neg hx]

lemma turn_accepts (hs : s.length = n) (hi : i < textLength n) (hc : r[i]? = some ch)
    (h : ¬ Refuses i ch) :
    ∃ s', ofStringTurn n r s i = some s' ∧ s'.length = n ∧
      ((int5OfChar ch).toNat < 32 →
        ∀ p < 8 * n, bitAt s' p = (bitAt s p || raised n i ch p)) := by
  by_cases hbit : i * 5 % 8 < 3
  · exact turn_one hs hi hc hbit (Nat.not_le.mp fun hle => h ⟨hbit, hle⟩)
  · exact turn_two hs hi hc hbit

-- Some character of a text is refused at its place.
def Refused (r : Bytes) : Prop := ∃ i ch, r[i]? = some ch ∧ Refuses i ch

lemma turns_spec (hr : r.length = textLength n) (k : ℕ) (hk : k ≤ r.length) :
    ((∃ i < k, ∃ ch, r[i]? = some ch ∧ Refuses i ch) ∧
        (List.range k).foldlM (ofStringTurn n r) (List.replicate n 0) = none) ∨
      (¬ ∃ i < k, ∃ ch, r[i]? = some ch ∧ Refuses i ch) ∧
        ∃ s, (List.range k).foldlM (ofStringTurn n r) (List.replicate n 0) = some s ∧
          s.length = n ∧ ((∀ ch ∈ r, (int5OfChar ch).toNat < 32) → ∀ p < 8 * n,
            bitAt s p = (decide (p / 5 < k) &&
              (int5OfChar (r.getD (p / 5) 0)).toNat.testBit (4 - p % 5))) := by
  induction k with
  | zero =>
    refine .inr ⟨by simp, List.replicate n 0, rfl, List.length_replicate, fun _ p _ => ?_⟩
    rw [bitAt_replicate]
    simp
  | succ k ih =>
    have hc : r[k]? = some r[k] := List.getElem?_eq_getElem _
    have hsplit (P : ℕ → Prop) : (∃ i < k + 1, P i) ↔ (∃ i < k, P i) ∨ P k := by
      simp only [Nat.lt_succ_iff_lt_or_eq, or_and_right, exists_or, exists_eq_left]
    rw [hsplit, List.range_succ, List.foldlM_append]
    rcases ih (by omega) with ⟨hex, hnone⟩ | ⟨hnot, s, heq, hlen, hbits⟩
    · exact .inl ⟨.inl hex, by rw [hnone]; rfl⟩
    · rw [heq]
      by_cases href : Refuses k r[k]
      · refine .inl ⟨.inr ⟨r[k], hc, href⟩, ?_⟩
        simp [turn_refuses hlen (by omega) hc href]
      · obtain ⟨s', hturn, hlen', hbits'⟩ := turn_accepts hlen (by omega) hc href
        refine .inr ⟨?_, s', by simp [hturn], hlen', fun hvalues p hp => ?_⟩
        · rintro (h | ⟨ch, hch, h⟩)
          · exact hnot h
          · rw [hc] at hch
            exact href (Option.some.inj hch ▸ h)
        · rw [hbits' (hvalues _ (List.getElem_mem _)) p hp, hbits hvalues p hp, raised,
            decide_eq_true hp, Bool.true_and]
          by_cases hpk : p / 5 = k
          · have hget : r.getD k 0 = r[k] := List.getD_eq_getElem _ _ _
            rw [hpk, hget]
            simp
          · have hiff : p / 5 < k + 1 ↔ p / 5 < k := by omega
            simp [hpk, hiff]

-- The reader refuses a text of the right length exactly for one of its characters.
lemma ofString_eq_none_iff (hr : r.length = textLength n) : ofString n r = none ↔ Refused r := by
  have hex : Refused r ↔ ∃ i < r.length, ∃ ch, r[i]? = some ch ∧ Refuses i ch := by
    constructor
    · rintro ⟨i, ch, hch, h⟩
      exact ⟨i, (List.getElem?_eq_some_iff.mp hch).1, ch, hch, h⟩
    · rintro ⟨i, -, ch, hch, h⟩
      exact ⟨i, ch, hch, h⟩
  rw [ofString, hex]
  simp only [if_pos hr]
  rcases turns_spec hr r.length le_rfl with ⟨hrefused, hnone⟩ | ⟨hnot, s, heq, -⟩
  · simp [hnone, hrefused]
  · simp [heq, hnot]

lemma bitAt_ofString (hr : r.length = textLength n)
    (halphabet : ∀ ch ∈ r, (int5OfChar ch).toNat < 32) :
    ∃ h, ofString n r = some h ∧ h.length = n ∧ ∀ p < 8 * n,
      bitAt h p = (int5OfChar (r.getD (p / 5) 0)).toNat.testBit (4 - p % 5) := by
  rcases turns_spec hr r.length le_rfl with ⟨⟨i, -, ch, hch, hrefuses⟩, -⟩ | ⟨-, s, heq, hlen, hbits⟩
  · have hvalue := halphabet ch (List.mem_of_getElem? hch)
    have hpow : 2 ^ 5 ≤ 2 ^ (5 + i * 5 % 8) := Nat.pow_le_pow_right (by norm_num) (by omega)
    exact absurd (hpow.trans hrefuses.2) (by omega)
  · refine ⟨s, ?_, hlen, fun p hp => ?_⟩
    · simp only [ofString, if_pos hr, heq]
    · have hlt : p / 5 < r.length := by
        rw [hr, textLength]
        omega
      rw [hbits halphabet p hp, decide_eq_true hlt, Bool.true_and]

end Reading

section Writing

variable {n i : ℕ} {r s h : Bytes}

lemma quintet_spec (hs : s.length = n) (hi : i < textLength n) :
    ∃ q, quintet n s i = some q ∧ q < 32 ∧ ∀ k < 5, q.testBit k = bitAt s (i * 5 + 4 - k) := by
  have hpos := lt_textLength hi
  have hbyte : i * 5 / 8 < s.length := by omega
  have hmod (m : ℕ) : m &&& 0x1f = m % 2 ^ 5 := Nat.and_two_pow_sub_one_eq_mod m 5
  have hlt (m : ℕ) : m % 2 ^ 5 < 32 := Nat.mod_lt _ (by norm_num)
  by_cases hbit : i * 5 % 8 < 3
  · refine ⟨(s[i * 5 / 8].toNat >>> (3 - i * 5 % 8)) % 2 ^ 5, ?_, hlt _, fun k hk => ?_⟩
    · simp only [quintet, if_pos hbit, List.getElem?_eq_getElem hbyte, Option.bind_eq_bind,
        Option.bind_some, Option.pure_def, hmod]
    · have hdiv : (i * 5 + 4 - k) / 8 = i * 5 / 8 := by omega
      have hsub : 3 - i * 5 % 8 + k = 7 - (i * 5 + 4 - k) % 8 := by omega
      rw [Nat.testBit_mod_two_pow, decide_eq_true hk, Bool.true_and, Nat.testBit_shiftRight, hsub,
        bitAt, hdiv, List.getD_eq_getElem _ _ hbyte]
  · refine ⟨((s[i * 5 / 8].toNat <<< 8 + (s.getD (i * 5 / 8 + 1) 0).toNat) >>>
      (11 - i * 5 % 8)) % 2 ^ 5, ?_, hlt _, fun k hk => ?_⟩
    · simp only [quintet, if_neg hbit, List.getElem?_eq_getElem hbyte, Option.bind_eq_bind,
        Option.bind_some, Option.pure_def, hmod]
      split_ifs with hlast
      · -- there is no byte behind the last one
        rw [List.getD_eq_default _ _ (by omega)]
      · have hnext : i * 5 / 8 + 1 < s.length := by omega
        rw [List.getElem?_eq_getElem hnext, List.getD_eq_getElem _ _ hnext, Option.bind_some]
    · rw [Nat.testBit_mod_two_pow, decide_eq_true hk, Bool.true_and, Nat.testBit_shiftRight,
        Nat.shiftLeft_eq, Nat.mul_comm,
        Nat.testBit_two_pow_mul_add _ (s.getD (i * 5 / 8 + 1) 0).toNat_lt]
      split_ifs with hlow
      · have hdiv : (i * 5 + 4 - k) / 8 = i * 5 / 8 + 1 := by omega
        have hsub : 11 - i * 5 % 8 + k = 7 - (i * 5 + 4 - k) % 8 := by omega
        rw [hsub, bitAt, hdiv]
      · have hdiv : (i * 5 + 4 - k) / 8 = i * 5 / 8 := by omega
        have hsub : 11 - i * 5 % 8 + k - 8 = 7 - (i * 5 + 4 - k) % 8 := by omega
        rw [hsub, bitAt, hdiv, List.getD_eq_getElem _ _ hbyte]

lemma toStringCase_spec (upper : Bool) (hs : s.length = n) :
    ∃ r, toStringCase upper n s = some r ∧ r.length = textLength n ∧
      ∀ i < textLength n, ∃ q < 32, r[i]? = some (charOfInt5 upper q) ∧
        ∀ k < 5, q.testBit k = bitAt s (i * 5 + 4 - k) := by
  choose! q hq hlt hbits using fun i (hi : i < textLength n) => quintet_spec hs hi
  refine ⟨(List.range (textLength n)).map fun i => charOfInt5 upper (q i), ?_, by simp,
    fun i hi => ⟨q i, hlt i hi, ?_, hbits i hi⟩⟩
  · rw [toStringCase, if_pos hs]
    exact Lib.mapM_range_eq fun i hi => by rw [hq i hi]; rfl
  · rw [List.getElem?_map, List.getElem?_range hi]
    rfl

theorem ofString_toStringCase (upper : Bool) (h : Bytes) :
    (toStringCase upper h.length h).bind (ofString h.length) = some h := by
  obtain ⟨r, hr, hlen, hchars⟩ := toStringCase_spec upper (s := h) rfl
  have hvalue {i : ℕ} (hi : i < textLength h.length) :
      (int5OfChar (r.getD i 0)).toNat < 32 ∧
        ∀ k < 5, (int5OfChar (r.getD i 0)).toNat.testBit k = bitAt h (i * 5 + 4 - k) := by
    obtain ⟨q, hq, hget, hbits⟩ := hchars i hi
    rw [List.getD_eq_getElem?_getD, hget, Option.getD_some, (int5OfChar_charOfInt5 upper hq).1]
    exact ⟨hq, hbits⟩
  have halphabet : ∀ ch ∈ r, (int5OfChar ch).toNat < 32 := by
    intro ch hch
    obtain ⟨i, hi, rfl⟩ := List.getElem_of_mem hch
    have := (hvalue (i := i) (by omega)).1
    rwa [List.getD_eq_getElem _ _ hi] at this
  obtain ⟨h', heq, hlen', hbits'⟩ := bitAt_ofString hlen halphabet
  rw [hr, Option.bind_some, heq, Option.some_inj]
  refine BitString.ext hlen' fun p hp => ?_
  rw [hlen'] at hp
  have hi : p / 5 < textLength h.length := by
    rw [textLength]
    omega
  rw [hbits' p hp, (hvalue hi).2 (4 - p % 5) (by omega)]
  congr 1
  omega

-- The text is one of the alphabet, and the bits behind the end of the hash are zero.
def Canonical (n : ℕ) (r : Bytes) : Prop :=
  (∀ c ∈ r, inAlphabet c = true) ∧
    ∀ c, r.getLast? = some c → 2 ^ (5 * textLength n - 8 * n) ∣ (int5OfChar c).toNat

lemma two_pow_dvd_iff {d c : ℕ} : 2 ^ d ∣ c ↔ ∀ k < d, c.testBit k = false := by
  rw [Nat.dvd_iff_mod_eq_zero]
  constructor
  · intro h k hk
    have := congrArg (fun m => m.testBit k) h
    simpa [Nat.testBit_mod_two_pow, hk] using this
  · intro h
    refine eq_of_testBit (n := d) (Nat.mod_lt _ (by positivity)) (by positivity) fun k hk => ?_
    simp [Nat.testBit_mod_two_pow, hk, h k hk]

-- The last character stands where some bits may be behind the end of the hash.
lemma canonical_iff (hr : r.length = textLength n) : Canonical n r ↔
    (∀ c ∈ r, inAlphabet c = true) ∧ ∀ i c, r[i]? = some c →
      ∀ k < 5, 8 * n ≤ i * 5 + 4 - k → (int5OfChar c).toNat.testBit k = false := by
  have hbound : 8 * n ≤ 5 * textLength n ∧ 5 * textLength n < 8 * n + 5 := by
    rw [textLength]
    omega
  refine and_congr_right fun _ => ?_
  simp only [two_pow_dvd_iff, List.getLast?_eq_getElem?, hr]
  constructor
  · intro h i c hc k hk hle
    have hi := (List.getElem?_eq_some_iff.mp hc).1
    have hlast : i = textLength n - 1 := by omega
    rw [hlast] at hc
    exact h c hc k (by omega)
  · intro h c hc k hk
    have hi := (List.getElem?_eq_some_iff.mp hc).1
    exact h (textLength n - 1) c hc k (by omega) (by omega)

lemma toString_of_canonical (hr : r.length = textLength n) (h : Canonical n r) :
    ∃ hash, ofString n r = some hash ∧ toString n hash = some (r.map uppercase) := by
  obtain ⟨halphabet, hzero⟩ := (canonical_iff hr).mp h
  obtain ⟨hash, heq, hlen, hbits⟩ := bitAt_ofString hr fun ch hch =>
    (int5OfChar_alphabet (halphabet ch hch)).1
  obtain ⟨r', hr', hlen', hchars⟩ := toStringCase_spec true hlen
  refine ⟨hash, heq, hr'.trans (congrArg some (List.ext_getElem? fun i => ?_))⟩
  by_cases hi : i < textLength n
  · have hc : r[i]? = some r[i] := List.getElem?_eq_getElem _
    have hmem : r[i] ∈ r := List.getElem_mem _
    obtain ⟨hvalue, hchar⟩ := int5OfChar_alphabet (halphabet _ hmem)
    obtain ⟨q, hq, hget, hqbits⟩ := hchars i hi
    have hqc : q = (int5OfChar r[i]).toNat := by
      refine eq_of_testBit (n := 5) hq hvalue fun k hk => ?_
      rw [hqbits k hk]
      by_cases hp : i * 5 + 4 - k < 8 * n
      · have hdiv : (i * 5 + 4 - k) / 5 = i := by omega
        have hmod : 4 - (i * 5 + 4 - k) % 5 = k := by omega
        rw [hbits _ hp, hdiv, hmod, List.getD_eq_getElem _ _ (by omega)]
      · rw [bitAt_of_le (by omega), hzero i _ hc k hk (by omega)]
    rw [hget, List.getElem?_map, hc, hqc, hchar]
    rfl
  · rw [List.getElem?_eq_none (by omega), List.getElem?_eq_none (by rw [List.length_map]; omega)]

lemma length_of_toString (h : toString n s = some r) : s.length = n := by
  by_contra hne
  rw [toString, toStringCase, if_neg hne] at h
  cases h

lemma canonical_of_toString (hr : r.length = textLength n)
    (h : toString n s = some (r.map uppercase)) : Canonical n r := by
  have hs := length_of_toString h
  obtain ⟨r', hr', -, hchars⟩ := toStringCase_spec true hs
  obtain rfl : r' = r.map uppercase := Option.some.inj (hr'.symm.trans h)
  have hchar {i : ℕ} {c : UInt8} (hc : r[i]? = some c) : ∃ q < 32,
      charOfInt5 true q = uppercase c ∧ ∀ k < 5, q.testBit k = bitAt s (i * 5 + 4 - k) := by
    have hi := (List.getElem?_eq_some_iff.mp hc).1
    obtain ⟨q, hq, hget, hbits⟩ := hchars i (by omega)
    rw [List.getElem?_map, hc] at hget
    exact ⟨q, hq, (Option.some.inj hget).symm, hbits⟩
  have halphabet : ∀ c ∈ r, inAlphabet c = true := by
    intro c hc
    obtain ⟨i, hi⟩ := List.getElem?_of_mem hc
    obtain ⟨q, hq, heq, -⟩ := hchar hi
    exact inAlphabet_of_uppercase hq heq
  refine (canonical_iff hr).mpr ⟨halphabet, fun i c hc k hk hle => ?_⟩
  obtain ⟨q, hq, heq, hbits⟩ := hchar hc
  have hvalue : (int5OfChar c).toNat = q := by
    obtain ⟨hlt, hup⟩ := int5OfChar_alphabet (halphabet c (List.mem_of_getElem? hc))
    rw [← (int5OfChar_charOfInt5 true hlt).1, hup, ← heq, (int5OfChar_charOfInt5 true hq).1]
  rw [hvalue, hbits k hk, bitAt_of_le (by omega)]

-- What the reader accepts is written again as it was, or the text is not a canonical one.
lemma accepted_iff (hr : r.length = textLength n) :
    (ofString n r = none ∨
        ∃ hash, ofString n r = some hash ∧ toString n hash = some (r.map uppercase)) ↔
      Refused r ∨ Canonical n r := by
  constructor
  · rintro (h | ⟨hash, -, h⟩)
    · exact .inl ((ofString_eq_none_iff hr).mp h)
    · exact .inr (canonical_of_toString hr h)
  · rintro (h | h)
    · exact .inl ((ofString_eq_none_iff hr).mpr h)
    · exact .inr (toString_of_canonical hr h)

end Writing

end Mldonkey.Base32
