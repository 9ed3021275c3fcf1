import Mldonkey.Hashes.Base16
import Mldonkey.Hashes.Base32
import Mldonkey.Indexing.Form

-- Hashes of a fixed length, and their texts in lower case.
namespace Mldonkey.Hashes

open Indexing (lowercase)

-- The t of Md4.Make, a string of hash_length bytes
structure Hash (n : ℕ) where
  bytes : List UInt8
  length_bytes : bytes.length = n

instance {n : ℕ} : DecidableEq (Hash n) := fun x y =>
  decidable_of_iff (x.bytes = y.bytes)
    ⟨fun h => by cases x; cases y; cases h; rfl, fun h => h ▸ rfl⟩

section Base16

variable {n : ℕ} {s : List UInt8}

lemma length_ofString16 {h : List UInt8} (hs : Base16.ofString n s = some h) : h.length = n := by
  rw [Base16.ofString] at hs
  split_ifs at hs
  rw [Lib.length_mapM hs, List.length_range]

lemma isSome_toString16 (h : Hash n) : (Base16.toString n h.bytes).isSome := by
  have heq := Base16.toStringCase_eq true h.bytes
  rw [h.length_bytes] at heq
  exact Option.isSome_iff_exists.mpr ⟨_, heq⟩

def Hash.toBase16 (h : Hash n) : List UInt8 := (Base16.toString n h.bytes).get (isSome_toString16 h)

def Hash.ofBase16 (n : ℕ) (s : List UInt8) : Option (Hash n) :=
  (Base16.ofString n s).pmap (fun b hb => ⟨b, hb⟩) fun _ hs => length_ofString16 hs

end Base16

section Base32

variable {n : ℕ} {s : List UInt8}

lemma length_ofString32 {h : List UInt8} (hs : Base32.ofString n s = some h) : h.length = n := by
  by_cases hr : s.length = Base32.textLength n
  · simp only [Base32.ofString, if_pos hr] at hs
    rcases Base32.turns_spec hr s.length le_rfl with ⟨-, hnone⟩ | ⟨-, h', heq, hlen, -⟩
    · rw [hnone] at hs
      cases hs
    · rw [heq] at hs
      exact Option.some.inj hs ▸ hlen
  · simp only [Base32.ofString, if_neg hr] at hs
    cases hs

lemma isSome_toString32 (h : Hash n) : (Base32.toString n h.bytes).isSome := by
  obtain ⟨r, hr, -⟩ := Base32.toStringCase_spec true h.length_bytes
  exact Option.isSome_iff_exists.mpr ⟨r, hr⟩

def Hash.toBase32 (h : Hash n) : List UInt8 := (Base32.toString n h.bytes).get (isSome_toString32 h)

def Hash.ofBase32 (n : ℕ) (s : List UInt8) : Option (Hash n) :=
  (Base32.ofString n s).pmap (fun b hb => ⟨b, hb⟩) fun _ hs => length_ofString32 hs

end Base32

section Lowercase

variable {n : ℕ}

lemma pmap_bytes {o : Option (List UInt8)} {p : ∀ b, o = some b → b.length = n} {h : Hash n}
    (ho : o = some h.bytes) : o.pmap (fun b hb => (⟨b, hb⟩ : Hash n)) p = some h := by
  subst ho
  rfl

lemma digits_lowercase (c : UInt8) :
    (Base16.digits true c).map lowercase = Base16.digits false c := by
  have hall : ∀ c, (Base16.digits true c).map lowercase = Base16.digits false c :=
    BitString.forall_byte (by decide)
  exact hall c

lemma ofBase16_toBase16 (h : Hash n) : Hash.ofBase16 n (h.toBase16.map lowercase) = some h := by
  refine pmap_bytes ?_
  have hround := Base16.ofString_toStringCase false h.bytes
  have htext : h.toBase16.map lowercase = h.bytes.flatMap (Base16.digits false) := by
    have heq := Base16.toStringCase_eq true h.bytes
    rw [h.length_bytes] at heq
    have hget : h.toBase16 = h.bytes.flatMap (Base16.digits true) :=
      Option.get_of_eq_some _ heq
    rw [hget, List.map_flatMap]
    simp only [digits_lowercase]
  rw [Base16.toStringCase_eq, Option.bind_some, h.length_bytes] at hround
  rw [htext, hround]

lemma charOfInt5_lowercase {q : ℕ} (hq : q < 32) :
    lowercase (Base32.charOfInt5 true q) = Base32.charOfInt5 false q := by
  have hall : ∀ q < 32, lowercase (Base32.charOfInt5 true q) = Base32.charOfInt5 false q := by
    decide
  exact hall q hq

lemma toBase32_lowercase (h : Hash n) :
    Base32.toStringCase false n h.bytes = some (h.toBase32.map lowercase) := by
  obtain ⟨r, hr, hlen, hchars⟩ := Base32.toStringCase_spec true h.length_bytes
  obtain ⟨r', hr', hlen', hchars'⟩ := Base32.toStringCase_spec false h.length_bytes
  have hget : h.toBase32 = r := Option.get_of_eq_some _ hr
  rw [hr', hget, Option.some_inj]
  refine List.ext_getElem? fun i => ?_
  by_cases hi : i < Base32.textLength n
  · obtain ⟨q, hq, hc, hbits⟩ := hchars i hi
    obtain ⟨q', hq', hc', hbits'⟩ := hchars' i hi
    have hsame : q' = q := BitString.eq_of_testBit (n := 5) hq' hq fun k hk =>
      (hbits' k hk).trans (hbits k hk).symm
    rw [hc', List.getElem?_map, hc, Option.map_some, charOfInt5_lowercase hq, hsame]
  · rw [List.getElem?_eq_none (by omega), List.getElem?_eq_none (by rw [List.length_map]; omega)]

lemma ofBase32_toBase32 (h : Hash n) : Hash.ofBase32 n (h.toBase32.map lowercase) = some h := by
  refine pmap_bytes ?_
  have hround := Base32.ofString_toStringCase false h.bytes
  rw [h.length_bytes, toBase32_lowercase, Option.bind_some] at hround
  exact hround

lemma length_toBase32 (h : Hash n) : h.toBase32.length = Base32.textLength n := by
  obtain ⟨r, hr, hlen, -⟩ := Base32.toStringCase_spec true h.length_bytes
  have hget : h.toBase32 = r := Option.get_of_eq_some _ hr
  rw [hget, hlen]

lemma toBase32_alphabet (h : Hash n) {c : UInt8} (hc : c ∈ h.toBase32.map lowercase) :
    Base32.inAlphabet c = true := by
  obtain ⟨r, hr, hlen, hchars⟩ := Base32.toStringCase_spec false h.length_bytes
  rw [toBase32_lowercase, Option.some_inj] at hr
  rw [hr] at hc
  obtain ⟨i, hi⟩ := List.getElem?_of_mem hc
  have hlt := (List.getElem?_eq_some_iff.mp hi).1
  obtain ⟨q, hq, hget, -⟩ := hchars i (by omega)
  rw [hi, Option.some_inj] at hget
  rw [hget]
  exact (Base32.int5OfChar_charOfInt5 false hq).2

end Lowercase

end Mldonkey.Hashes
