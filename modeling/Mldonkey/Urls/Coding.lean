import Mldonkey.Http.WgetBody
import Mldonkey.Lib.BitString
import Mldonkey.Indexing.FormMeaning
import Mldonkey.Bencode.RoundTrip
import Mldonkey.Gnutella.Codecs

-- The texts of URLs: percent signs and arguments. None stands for an exception.
namespace Mldonkey.Urls

open Bencode (Bytes chr ofString signAndBase digitValue restOfDigits)
open BitString (forall_byte)
open FileTP (intOfString)
open Indexing (split split_append)
open Wget (signAndBase_hex)

-- String2.cut_at
def cutAt (s : Bytes) (c : UInt8) : Bytes × Bytes :=
  match s.idxOf? c with
  | some pos => (s.take pos, s.drop (pos + 1))
  | none => (s, [])

def hexaDigit (x : ℕ) : UInt8 := if 10 ≤ x then UInt8.ofNat (65 + x - 10) else UInt8.ofNat (48 + x)

-- a-z A-Z 0-9 . - * _ ' ( )
def plain (c : UInt8) : Bool :=
  97 ≤ c && c ≤ 122 || 65 ≤ c && c ≤ 90 || 48 ≤ c && c ≤ 57 ||
    (c = 46 || c = 45 || c = 42 || c = 95 || c = 39 || c = 40 || c = 41)

def encode (s : Bytes) : Bytes :=
  s.flatMap fun c =>
    if plain c then [c] else [37, hexaDigit (c.toNat / 16), hexaDigit (c.toNat % 16)]

def charOfInt (n : ℤ) : Option UInt8 :=
  if 0 ≤ n ∧ n ≤ 255 then some (UInt8.ofNat n.toNat) else none

-- char_of_int (int_of_string ("0x" ^ String.sub s 0 2))
def hexaChar (s : Bytes) : Option UInt8 := do
  let two ← if 2 ≤ s.length then some (s.take 2) else none
  charOfInt (← intOfString (ofString "0x" ++ two))

def decode (raw : Bool) (s : Bytes) : Bytes :=
  match s with
  | [] => []
  | c :: s =>
      if c = 37 then
        match hexaChar s with
        | some x => x :: decode raw (s.drop 2)
        | none => 37 :: decode raw s
      else if c = 43 then (if raw then 43 else 32) :: decode raw s
      else c :: decode raw s
termination_by s.length
decreasing_by all_goals simp only [List.length_cons, List.length_drop]; omega

-- An empty string has no arguments.
def cutArgs (urlEnd : Bytes) : List (Bytes × Bytes) :=
  if urlEnd = [] then []
  else
    (split 38 urlEnd).map fun s =>
      let (name, value) := cutAt s 61
      (decode false name, decode false value)

-- The last argument has no equal sign if its value is empty.
def manageArgs (arg : Bytes × Bytes) : List (Bytes × Bytes) → Bytes
  | [] => if arg.2 = [] then encode arg.1 else encode arg.1 ++ 61 :: encode arg.2
  | next :: l => encode arg.1 ++ 61 :: encode arg.2 ++ 38 :: manageArgs next l

def putArgs (s : Bytes) : List (Bytes × Bytes) → Bytes
  | [] => s
  | arg :: l => s ++ (if 63 ∈ s then 38 else 63) :: manageArgs arg l

section Decode

variable {raw : Bool} {s r : Bytes} {a b c : UInt8}

def hexValue (c : UInt8) : Option ℕ :=
  if 48 ≤ c ∧ c ≤ 57 then some (c.toNat - 48)
  else if 65 ≤ c ∧ c ≤ 70 then some (c.toNat - 55)
  else if 97 ≤ c ∧ c ≤ 102 then some (c.toNat - 87)
  else none

-- What decoding is to do with a percent sign: two hexadecimal digits behind it stand for a byte.
def hexPair : Bytes → Option UInt8
  | a :: b :: _ => do
      let x ← hexValue a
      let y ← hexValue b
      return UInt8.ofNat (16 * x + y)
  | _ => none

-- What decoding is to do
def decoded (raw : Bool) (s : Bytes) : Bytes :=
  match s with
  | [] => []
  | c :: s =>
      if c = 37 then
        match hexPair s with
        | some x => x :: decoded raw (s.drop 2)
        | none => c :: decoded raw s
      else (if c = 43 ∧ raw = false then 32 else c) :: decoded raw s
termination_by s.length
decreasing_by all_goals simp only [List.length_cons, List.length_drop]; omega

lemma digitValue_sixteen (c : UInt8) : digitValue 16 c = hexValue c := by
  have hall : ∀ c, digitValue 16 c = hexValue c := forall_byte (by decide)
  exact hall c

lemma hexValue_spec {x : ℕ} (h : hexValue c = some x) : x < 16 ∧ c ≠ 37 ∧ c ≠ 43 ∧ c ≠ 95 := by
  have hall : ∀ c, ∀ x ∈ hexValue c, x < 16 ∧ c ≠ 37 ∧ c ≠ 43 ∧ c ≠ 95 :=
    forall_byte (by decide)
  exact hall c x h

lemma intOfString_hexa (a : UInt8) (s : Bytes) : intOfString (ofString "0x" ++ a :: s) =
    (hexValue a).bind fun x => (restOfDigits 16 x s).bind fun n =>
      if 2 ^ 63 ≤ n then none else some (Int.bmod n (2 ^ 63)) := by
  simp only [intOfString, signAndBase_hex, digitValue_sixteen, Bool.false_eq_true, if_false]
  rfl

lemma charOfInt_bmod {n : ℕ} (hn : n < 256) :
    charOfInt (Int.bmod n (2 ^ 63)) = some (UInt8.ofNat n) := by
  have hmod : Int.bmod n (2 ^ 63) = n := Int.bmod_eq_of_le (by omega) (by omega)
  rw [hmod, charOfInt, if_pos ⟨by omega, by omega⟩, Int.toNat_natCast]

lemma restOfDigits_one {x : ℕ} (hx : x < 16) (b : UInt8) : restOfDigits 16 x [b] =
    if b = 95 then some x else (hexValue b).map fun y => 16 * x + y := by
  have hunderscore : chr '_' = 95 := rfl
  rw [restOfDigits, hunderscore, digitValue_sixteen]
  split_ifs
  · rfl
  · cases hy : hexValue b with
    | none => rfl
    | some y =>
      have hylt := (hexValue_spec hy).1
      simp only [restOfDigits]
      rw [if_pos (by omega), Option.map_some]

-- One digit with an underscore behind it is read as well.
lemma hexaChar_cons (a b : UInt8) (s : Bytes) : hexaChar (a :: b :: s) =
    (hexValue a).bind fun x =>
      if b = 95 then some (UInt8.ofNat x) else (hexValue b).map fun y => UInt8.ofNat (16 * x + y) := by
  have htwo : 2 ≤ (a :: b :: s).length := Nat.le_add_left 2 s.length
  have hunfold : hexaChar (a :: b :: s) = (intOfString (ofString "0x" ++ [a, b])).bind charOfInt := by
    rw [hexaChar, if_pos htwo]
    rfl
  rw [hunfold, intOfString_hexa]
  have hread {n : ℕ} (hn : n < 256) :
      ((if 2 ^ 63 ≤ n then none else some (Int.bmod n (2 ^ 63))).bind charOfInt) =
        some (UInt8.ofNat n) := by
    rw [if_neg (by omega), Option.bind_some, charOfInt_bmod hn]
  cases ha : hexValue a with
  | none => rfl
  | some x =>
    have hx := (hexValue_spec ha).1
    rw [Option.bind_some, Option.bind_some, restOfDigits_one hx]
    by_cases hb : b = 95
    · rw [if_pos hb, if_pos hb]
      exact hread (by omega)
    · rw [if_neg hb, if_neg hb]
      cases hy : hexValue b with
      | none => rfl
      | some y =>
        have hylt := (hexValue_spec hy).1
        have hlt : 16 * x + y < 256 := by omega
        exact hread hlt

lemma hexaChar_short (h : s.length < 2) : hexaChar s = none ∧ hexPair s = none := by
  have hnot : ¬ 2 ≤ s.length := by omega
  refine ⟨by simp only [hexaChar, if_neg hnot]; rfl, ?_⟩
  match s, h with
  | [], _ => rfl
  | [_], _ => rfl

lemma hexPair_cons (a b : UInt8) (s : Bytes) : hexPair (a :: b :: s) =
    (hexValue a).bind fun x => (hexValue b).map fun y => UInt8.ofNat (16 * x + y) := by
  rw [hexPair]
  cases hexValue a <;> cases hexValue b <;> rfl

lemma hexaChar_cases (s : Bytes) :
    (hexaChar s = none ∧ hexPair s = none ∧ ∀ a, (hexValue a).isSome → ¬ [a, 95] <+: s) ∨
    (∃ a b r x, s = a :: b :: r ∧ hexaChar s = some x ∧ hexPair s = some x ∧
      a ≠ 37 ∧ b ≠ 37 ∧ b ≠ 95) ∨
    ∃ a r x, s = a :: 95 :: r ∧ (hexValue a).isSome ∧ hexaChar s = some x ∧ x ≠ 37 ∧
      hexPair s = none := by
  match s with
  | [] =>
    obtain ⟨hchar, hpair⟩ := hexaChar_short (s := []) (by simp)
    exact .inl ⟨hchar, hpair, fun a _ h => absurd h.length_le (by simp)⟩
  | [a] =>
    obtain ⟨hchar, hpair⟩ := hexaChar_short (s := [a]) (by simp)
    exact .inl ⟨hchar, hpair, fun a _ h => absurd h.length_le (by simp)⟩
  | a :: b :: r =>
    rw [hexaChar_cons, hexPair_cons]
    have hpair (d : UInt8) : [d, 95] <+: a :: b :: r ↔ d = a ∧ 95 = b := by
      simp [List.cons_prefix_cons]
    cases ha : hexValue a with
    | none =>
      refine .inl ⟨rfl, rfl, fun d hd h => ?_⟩
      rw [((hpair d).mp h).1, ha] at hd
      cases hd
    | some x =>
      obtain ⟨hx, ha37, -⟩ := hexValue_spec ha
      simp only [Option.bind_some]
      by_cases hb : b = 95
      · subst hb
        have hnone : hexValue 95 = none := by decide
        refine .inr (.inr ⟨a, r, UInt8.ofNat x, rfl, by simp [ha], if_pos rfl, ?_, by rw [hnone]; rfl⟩)
        intro heq
        have hval := congrArg UInt8.toNat heq
        rw [UInt8.toNat_ofNat', Nat.mod_eq_of_lt (by omega)] at hval
        have h37 : (37 : UInt8).toNat = 37 := rfl
        omega
      · rw [if_neg hb]
        cases hy : hexValue b with
        | none => exact .inl ⟨rfl, rfl, fun d _ h => hb ((hpair d).mp h).2.symm⟩
        | some y =>
          obtain ⟨-, hb37, -⟩ := hexValue_spec hy
          exact .inr (.inl ⟨a, b, r, _, rfl, rfl, rfl, ha37, hb37, hb⟩)

-- No percent sign is followed by a hexadecimal digit and an underscore.
def Digits (s : Bytes) : Prop := ∀ a, (hexValue a).isSome → ¬ [37, a, 95] <:+: s

lemma infix_percent (a b : UInt8) : [37, a, b] <:+: 37 :: s ↔ [a, b] <+: s ∨ [37, a, b] <:+: s := by
  rw [List.infix_cons_iff, List.cons_prefix_cons, and_iff_right rfl]

lemma infix_cons_of_ne (hc : c ≠ 37) (a b : UInt8) :
    [37, a, b] <:+: c :: s ↔ [37, a, b] <:+: s := by
  rw [List.infix_cons_iff, or_iff_right]
  exact fun h => hc (List.cons_prefix_cons.mp h).1.symm

lemma digits_percent : Digits (37 :: s) ↔
    (∀ a, (hexValue a).isSome → ¬ [a, 95] <+: s) ∧ Digits s := by
  simp only [Digits, infix_percent, not_or, ← forall_and]

lemma digits_cons_of_ne (hc : c ≠ 37) : Digits (c :: s) ↔ Digits s := by
  simp only [Digits, infix_cons_of_ne hc]

lemma decode_of_ne (hc : c ≠ 37) :
    decode raw (c :: s) = (if c = 43 ∧ raw = false then 32 else c) :: decode raw s := by
  rw [decode, if_neg hc]
  by_cases hplus : c = 43 <;> cases raw <;> simp [hplus]

lemma decoded_of_ne (hc : c ≠ 37) :
    decoded raw (c :: s) = (if c = 43 ∧ raw = false then 32 else c) :: decoded raw s := by
  rw [decoded, if_neg hc]

lemma decode_percent : decode raw (37 :: s) =
    match hexaChar s with
    | some x => x :: decode raw (s.drop 2)
    | none => 37 :: decode raw s := by
  rw [decode, if_pos rfl]

lemma decoded_percent : decoded raw (37 :: s) =
    match hexPair s with
    | some x => x :: decoded raw (s.drop 2)
    | none => 37 :: decoded raw s := by
  rw [decoded, if_pos rfl]

-- Decoding replaces what it is to replace exactly if no digit has an underscore behind it.
lemma decode_eq_iff (raw : Bool) (s : Bytes) : decode raw s = decoded raw s ↔ Digits s := by
  induction hn : s.length using Nat.strong_induction_on generalizing s with
  | _ n ih =>
    match s, hn with
    | [], _ =>
      refine iff_of_true (by rw [decode, decoded]) fun a _ h => ?_
      exact absurd h.length_le (by simp)
    | c :: s, hn =>
      rw [List.length_cons] at hn
      by_cases hc : c = 37
      · subst hc
        rw [decode_percent, decoded_percent]
        rcases hexaChar_cases s with ⟨hchar, hpair, hprefix⟩ |
          ⟨a, b, r, x, rfl, hchar, hpair, ha, hb, hb'⟩ | ⟨a, r, x, rfl, ha, hchar, hx, hpair⟩
        · rw [hchar, hpair, List.cons_inj_right, digits_percent, and_iff_right hprefix]
          exact ih _ (by omega) s rfl
        · have hnot (d : UInt8) : ¬ [d, 95] <+: a :: b :: r := fun h =>
            hb' (List.cons_prefix_cons.mp (List.cons_prefix_cons.mp h).2).1.symm
          rw [hchar, hpair, List.cons_inj_right, digits_percent, and_iff_right fun d _ => hnot d,
            digits_cons_of_ne ha, digits_cons_of_ne hb]
          simp only [List.length_cons] at hn
          exact ih _ (by omega) r rfl
        · rw [hchar, hpair, digits_percent]
          refine iff_of_false (fun h => hx (List.head_eq_of_cons_eq h)) fun h => h.1 a ha ?_
          exact ⟨r, rfl⟩
      · rw [decode_of_ne hc, decoded_of_ne hc, digits_cons_of_ne hc, List.cons_inj_right]
        exact ih _ (by omega) s rfl

end Decode

section Encode

variable {raw : Bool} {s t : Bytes} {c : UInt8}

lemma plain_spec (h : plain c = true) : c ≠ 37 ∧ c ≠ 43 := by
  have hall : ∀ c, plain c = true → c ≠ 37 ∧ c ≠ 43 := forall_byte (by decide)
  exact hall c h

lemma hexaDigit_spec {x : ℕ} (hx : x < 16) :
    hexValue (hexaDigit x) = some x ∧ plain (hexaDigit x) = true := by
  have hall : ∀ x < 16, hexValue (hexaDigit x) = some x ∧ plain (hexaDigit x) = true := by decide
  exact hall x hx

lemma mem_encode (h : c ∈ encode s) : c = 37 ∨ plain c = true := by
  obtain ⟨d, -, hc⟩ := List.mem_flatMap.mp h
  have hlt := d.toNat_lt
  split_ifs at hc with hd
  · exact .inr (List.mem_singleton.mp hc ▸ hd)
  · rcases List.mem_cons.mp hc with rfl | hc
    · exact .inl rfl
    · rcases List.mem_cons.mp hc with rfl | hc
      · exact .inr (hexaDigit_spec (by omega)).2
      · exact .inr (List.mem_singleton.mp hc ▸ (hexaDigit_spec (Nat.mod_lt _ (by norm_num))).2)

lemma notMem_encode (hc : ¬ (c = 37 ∨ plain c = true)) (s : Bytes) : c ∉ encode s :=
  fun h => hc (mem_encode h)

-- What is encoded is decoded, whatever a plus sign stands for.
lemma decode_encode (raw : Bool) (s : Bytes) : decode raw (encode s) = s := by
  induction s with
  | nil => rw [encode, List.flatMap_nil, decode]
  | cons c s ih =>
    rw [encode, List.flatMap_cons]
    split_ifs with hc
    · obtain ⟨h37, h43⟩ := plain_spec hc
      rw [List.cons_append, List.nil_append, decode_of_ne h37, if_neg fun h => h43 h.1, ← encode, ih]
    · have hlt := c.toNat_lt
      have hlow : c.toNat % 16 < 16 := Nat.mod_lt _ (by norm_num)
      obtain ⟨hx, -⟩ := hexaDigit_spec (by omega : c.toNat / 16 < 16)
      obtain ⟨hy, -⟩ := hexaDigit_spec hlow
      have hchar : hexaChar (hexaDigit (c.toNat / 16) :: hexaDigit (c.toNat % 16) :: encode s) =
          some c := by
        have hne := (hexValue_spec hy).2.2.2
        rw [hexaChar_cons, hx, hy, Option.bind_some, if_neg hne, Option.map_some, Nat.div_add_mod,
          UInt8.ofNat_toNat]
      rw [List.cons_append, List.cons_append, List.cons_append, List.nil_append, ← encode,
        decode_percent, hchar]
      simp only [List.drop_succ_cons, List.drop_zero, ih]

lemma cutAt_cons_self (c : UInt8) (s : Bytes) : cutAt (c :: s) c = ([], s) := by
  simp [cutAt, List.idxOf?_cons]

lemma cutAt_cons_of_ne {x : UInt8} (h : x ≠ c) (s : Bytes) :
    cutAt (x :: s) c = (x :: (cutAt s c).1, (cutAt s c).2) := by
  have hidx : (x :: s).idxOf? c = (s.idxOf? c).map (· + 1) := by simp [List.idxOf?_cons, h]
  rw [cutAt, hidx, cutAt]
  cases s.idxOf? c <;> simp

lemma cutAt_append (h : c ∉ s) (t : Bytes) : cutAt (s ++ c :: t) c = (s, t) := by
  induction s with
  | nil => exact cutAt_cons_self c t
  | cons x s ih =>
    rw [List.mem_cons, not_or] at h
    rw [List.cons_append, cutAt_cons_of_ne (Ne.symm h.1), ih h.2]

lemma cutAt_of_notMem (h : c ∉ s) : cutAt s c = (s, []) := by
  rw [cutAt, List.idxOf?_eq_none_iff.mpr h]

-- The arguments that a piece between two & stands for
def readArg (s : Bytes) : Bytes × Bytes :=
  (decode false (cutAt s 61).1, decode false (cutAt s 61).2)

lemma cutArgs_of_ne (h : s ≠ []) : cutArgs s = (split 38 s).map readArg := if_neg h

lemma notMem_encode_separator {c : UInt8} (h : c = 38 ∨ c = 61 ∨ c = 63 ∨ c = 47 ∨ c = 58 ∨ c = 64)
    (s : Bytes) : c ∉ encode s := by
  refine notMem_encode ?_ s
  rcases h with rfl | rfl | rfl | rfl | rfl | rfl <;> decide

lemma readArg_pair (a b : Bytes) : readArg (encode a ++ 61 :: encode b) = (a, b) := by
  rw [readArg, cutAt_append (notMem_encode_separator (.inr (.inl rfl)) a), decode_encode,
    decode_encode]

lemma readArg_name (a : Bytes) : readArg (encode a) = (a, []) := by
  rw [readArg, cutAt_of_notMem (notMem_encode_separator (.inr (.inl rfl)) a), decode_encode, decode]

lemma notMem_pair (a b : Bytes) : 38 ∉ encode a ++ 61 :: encode b := by
  rw [List.mem_append, List.mem_cons, not_or, not_or]
  exact ⟨notMem_encode_separator (.inl rfl) a, by decide, notMem_encode_separator (.inl rfl) b⟩

-- The arguments are read back; an empty name at the end, with an empty value, is not seen.
lemma split_manageArgs (arg : Bytes × Bytes) (l : List (Bytes × Bytes)) :
    (split 38 (manageArgs arg l)).map readArg = arg :: l := by
  induction l generalizing arg with
  | nil =>
    rw [manageArgs]
    split_ifs with hvalue
    · rw [Gnutella.split_of_notMem (notMem_encode_separator (.inl rfl) arg.1), List.map_singleton,
        readArg_name, ← hvalue]
    · rw [Gnutella.split_of_notMem (notMem_pair arg.1 arg.2), List.map_singleton, readArg_pair]
  | cons next l ih =>
    rw [manageArgs, split_append, Gnutella.split_of_notMem (notMem_pair arg.1 arg.2),
      List.map_append, List.map_singleton, readArg_pair, ih next]
    rfl

lemma encode_eq_nil_iff : encode s = [] ↔ s = [] := by
  constructor
  · intro h
    rw [← decode_encode true s, h, decode]
  · rintro rfl
    rfl

lemma manageArgs_ne_nil (arg : Bytes × Bytes) (l : List (Bytes × Bytes))
    (h : ∀ a ∈ arg :: l, a.1 ≠ []) : manageArgs arg l ≠ [] := by
  have harg : encode arg.1 ≠ [] := fun hnil => h arg List.mem_cons_self (encode_eq_nil_iff.mp hnil)
  cases l with
  | nil =>
    rw [manageArgs]
    split_ifs
    · exact harg
    · simp [harg]
  | cons next l => simp [manageArgs]

lemma notMem_manageArgs {c : UInt8} (h : c = 63 ∨ c = 47 ∨ c = 58 ∨ c = 64)
    (arg : Bytes × Bytes) (l : List (Bytes × Bytes)) : c ∉ manageArgs arg l := by
  have hsep (s : Bytes) : c ∉ encode s := notMem_encode_separator (.inr (.inr h)) s
  have hc : c ≠ 61 ∧ c ≠ 38 := by
    rcases h with rfl | rfl | rfl | rfl <;> decide
  induction l generalizing arg with
  | nil =>
    rw [manageArgs]
    split_ifs
    · exact hsep arg.1
    · simp [hsep, hc.1]
  | cons next l ih => simp [manageArgs, hsep, hc, ih]

end Encode

end Mldonkey.Urls
