import Mathlib.Data.Nat.Bitwise
import Mathlib.Tactic

-- Strings of bytes as strings of bits, the highest bit of a byte first.
namespace Mldonkey.BitString

lemma forall_byte {P : UInt8 → Prop} (h : ∀ i < 16, ∀ j < 16, P (UInt8.ofNat (16 * i + j)))
    (c : UInt8) : P c := by
  have hlt := c.toNat_lt
  have hbyte := h (c.toNat / 16) (by omega) (c.toNat % 16) (by omega)
  rwa [Nat.div_add_mod, UInt8.ofNat_toNat] at hbyte

-- false behind the end
def bitAt (s : List UInt8) (i : ℕ) : Bool := (s.getD (i / 8) 0).toNat.testBit (7 - i % 8)

variable {s t : List UInt8}

lemma bitAt_of_le {i : ℕ} (h : 8 * s.length ≤ i) : bitAt s i = false := by
  rw [bitAt, List.getD_eq_default _ _ (by omega)]
  simp

lemma bitAt_replicate (n i : ℕ) : bitAt (List.replicate n 0) i = false := by
  rw [bitAt, List.getD_eq_getElem?_getD, List.getElem?_replicate]
  split_ifs <;> simp

lemma bitAt_set_or {pos x : ℕ} (hpos : pos < s.length) (hx : x < 2 ^ 8) (k : ℕ) :
    bitAt (s.set pos (UInt8.ofNat (s[pos].toNat ||| x))) k =
      (bitAt s k || (decide (pos = k / 8) && x.testBit (7 - k % 8))) := by
  have hor : s[pos].toNat ||| x < 2 ^ 8 := Nat.or_lt_two_pow s[pos].toNat_lt hx
  rw [bitAt, List.getD_eq_getElem?_getD, List.getElem?_set]
  split_ifs with hdiv
  · have hget : s.getD (k / 8) 0 = s[pos] := by
      simp [List.getD_eq_getElem?_getD, ← hdiv, List.getElem?_eq_getElem hpos]
    rw [Option.getD_some, UInt8.toNat_ofNat', Nat.mod_eq_of_lt hor, Nat.testBit_or, bitAt, hget]
    simp [hdiv]
  · simp [bitAt, List.getD_eq_getElem?_getD, hdiv]

lemma eq_of_testBit {n a b : ℕ} (ha : a < 2 ^ n) (hb : b < 2 ^ n)
    (h : ∀ k < n, a.testBit k = b.testBit k) : a = b := by
  refine Nat.eq_of_testBit_eq fun k => ?_
  by_cases hk : k < n
  · exact h k hk
  · have hpow : 2 ^ n ≤ 2 ^ k := Nat.pow_le_pow_right (by norm_num) (by omega)
    rw [Nat.testBit_lt_two_pow (ha.trans_le hpow), Nat.testBit_lt_two_pow (hb.trans_le hpow)]

theorem ext (hlen : s.length = t.length) (h : ∀ i < 8 * s.length, bitAt s i = bitAt t i) :
    s = t := by
  refine List.ext_getElem hlen fun n hs ht => ?_
  refine UInt8.toNat_inj.mp (eq_of_testBit s[n].toNat_lt t[n].toNat_lt fun k hk => ?_)
  have hbit := h (8 * n + (7 - k)) (by omega)
  have hdiv : (8 * n + (7 - k)) / 8 = n := by omega
  have hmod : 7 - (8 * n + (7 - k)) % 8 = k := by omega
  rwa [bitAt, bitAt, hdiv, hmod, List.getD_eq_getElem _ _ hs, List.getD_eq_getElem _ _ ht] at hbit

end Mldonkey.BitString
