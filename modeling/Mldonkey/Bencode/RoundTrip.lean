import Mldonkey.Bencode.Codec

-- What decode makes of the output of encode.
namespace Mldonkey.Bencode

section Numbers

lemma chr_toNat_of_isDigit {c : Char} (h : c.isDigit) : (chr c).toNat = c.toNat := by
  simp only [Char.isDigit, Bool.and_eq_true, decide_eq_true_eq] at h
  have hc : c.toNat ≤ 57 := h.2
  simp only [chr, UInt8.toNat_ofNat']
  omega

lemma isDigit_chr {c : Char} (h : c.isDigit) : isDigit (chr c) := by
  have hc := chr_toNat_of_isDigit h
  simp only [Char.isDigit, Bool.and_eq_true, decide_eq_true_eq] at h
  have h0 : 48 ≤ c.toNat := h.1
  have h9 : c.toNat ≤ 57 := h.2
  have e0 : (chr '0').toNat = 48 := by decide
  have e9 : (chr '9').toNat = 57 := by decide
  simp only [isDigit, Bool.and_eq_true, decide_eq_true_eq, UInt8.le_iff_toNat_le, hc, e0, e9]
  omega

lemma isDigit_of_mem_decimal {n : ℕ} {c : UInt8} (h : c ∈ decimal n) : isDigit c := by
  obtain ⟨d, hd, rfl⟩ := List.mem_map.mp h
  apply isDigit_chr
  exact Nat.isDigit_of_mem_toDigits (by norm_num) (by norm_num) hd

lemma isDigit_iff (c : UInt8) : isDigit c = true ↔ 48 ≤ c.toNat ∧ c.toNat ≤ 57 := by
  have e0 : (chr '0').toNat = 48 := by decide
  have e9 : (chr '9').toNat = 57 := by decide
  simp [isDigit, UInt8.le_iff_toNat_le, e0, e9]

lemma decimal_eq_cons (n : ℕ) : ∃ c digits, decimal n = c :: digits := by
  cases h : decimal n with
  | nil => simp [decimal, Nat.toDigits_ne_nil] at h
  | cons c digits => exact ⟨c, digits, rfl⟩

-- Both read the digits from the left.
lemma foldl_map_chr (l : List Char) (h : ∀ c ∈ l, c.isDigit) (n : ℕ) :
    (l.map chr).foldl (fun n c => 10 * n + (c.toNat - 48)) n = Nat.ofDigitChars 10 l n := by
  induction l generalizing n with
  | nil => simp
  | cons c l ih =>
    have hc := chr_toNat_of_isDigit (h c (by simp))
    have e0 : '0'.toNat = 48 := by decide
    rw [List.map_cons, List.foldl_cons, Nat.ofDigitChars_cons, hc, e0]
    exact ih (fun d hd => h d (by simp [hd])) _

lemma number_decimal (n : ℕ) : number (decimal n) = n := by
  rw [number, decimal, foldl_map_chr _ fun c hc =>
    Nat.isDigit_of_mem_toDigits (by norm_num) (by norm_num) hc]
  exact Nat.ofDigitChars_ten_toDigits

lemma digitValue_ten {c : UInt8} (h : isDigit c) : digitValue 10 c = some (c.toNat - 48) := by
  have hc := (isDigit_iff c).mp h
  simp only [isDigit, Bool.and_eq_true, decide_eq_true_eq] at h
  simp only [digitValue, if_pos h]
  rw [if_pos (by omega)]

lemma le_foldl (l : Bytes) (n : ℕ) : n ≤ l.foldl (fun n c => 10 * n + (c.toNat - 48)) n := by
  induction l generalizing n with
  | nil => simp
  | cons c l ih =>
    rw [List.foldl_cons]
    calc n ≤ 10 * n + (c.toNat - 48) := by omega
      _ ≤ _ := ih _

-- Digits are read up to 64 bits.
lemma restOfDigits_ten (l : Bytes) (h : ∀ c ∈ l, isDigit c) (n : ℕ)
    (hn : l.foldl (fun n c => 10 * n + (c.toNat - 48)) n < 2 ^ 64) :
    restOfDigits 10 n l = some (l.foldl (fun n c => 10 * n + (c.toNat - 48)) n) := by
  induction l generalizing n with
  | nil => rfl
  | cons c l ih =>
    have hd := h c (by simp)
    have hu : c ≠ chr '_' := by
      rintro rfl
      exact absurd hd (by decide)
    rw [List.foldl_cons] at hn ⊢
    have hlt := (le_foldl l _).trans_lt hn
    rw [restOfDigits, if_neg hu, digitValue_ten hd]
    simp only [if_pos hlt]
    exact ih (fun d hd => h d (by simp [hd])) _ hn

lemma ne_of_isDigit {c : UInt8} (h : isDigit c) {d : Char} (hd : isDigit (chr d) = false) :
    c ≠ chr d := by
  rintro rfl
  rw [h] at hd
  cases hd

lemma ne_baseLetter_of_isDigit {c : UInt8} (h : isDigit c) :
    c ≠ chr 'x' ∧ c ≠ chr 'X' ∧ c ≠ chr 'o' ∧ c ≠ chr 'O' ∧ c ≠ chr 'b' ∧ c ≠ chr 'B' ∧
      c ≠ chr 'u' ∧ c ≠ chr 'U' := by
  refine ⟨?_, ?_, ?_, ?_, ?_, ?_, ?_, ?_⟩ <;>
    exact ne_of_isDigit h (by decide)

-- A number that starts with digits has base 10, whatever its first digit is.
lemma signAndBase_digits {c : UInt8} {l : Bytes} (h : ∀ d ∈ c :: l, isDigit d) :
    signAndBase (c :: l) = (false, 10, true, c :: l) := by
  have hc := h c (by simp)
  have hm := ne_of_isDigit hc (d := '-') (by decide)
  have hp := ne_of_isDigit hc (d := '+') (by decide)
  cases l with
  | nil => simp [signAndBase, hm, hp]
  | cons x l =>
    have hx := h x (by simp)
    obtain ⟨h1, h2, h3, h4, h5, h6, h7, h8⟩ := ne_baseLetter_of_isDigit hx
    simp [signAndBase, hm, hp, h1, h2, h3, h4, h5, h6, h7, h8]

lemma signAndBase_minus {c : UInt8} {l : Bytes} (h : ∀ d ∈ c :: l, isDigit d) :
    signAndBase (chr '-' :: c :: l) = (true, 10, true, c :: l) := by
  cases l with
  | nil => simp [signAndBase]
  | cons x l =>
    have hx := h x (by simp)
    obtain ⟨h1, h2, h3, h4, h5, h6, h7, h8⟩ := ne_baseLetter_of_isDigit hx
    simp [signAndBase, h1, h2, h3, h4, h5, h6, h7, h8]

-- The two steps that int64OfString makes behind the sign.
lemma digits_of_decimal {n : ℕ} (hn : n < 2 ^ 64) {c : UInt8} {l : Bytes}
    (h : decimal n = c :: l) :
    digitValue 10 c = some (c.toNat - 48) ∧ restOfDigits 10 (c.toNat - 48) l = some n := by
  have hd : ∀ d ∈ c :: l, isDigit d := fun d hd => isDigit_of_mem_decimal (h ▸ hd)
  have hnum : l.foldl (fun n c => 10 * n + (c.toNat - 48)) (c.toNat - 48) = n := by
    have := number_decimal n
    rwa [h, number, List.foldl_cons, Nat.mul_zero, Nat.zero_add] at this
  constructor
  · exact digitValue_ten (hd c (by simp))
  · rw [restOfDigits_ten l (fun d hd' => hd d (by simp [hd'])) _ (by omega), hnum]

lemma int64OfString_printInt (i : Int64) : int64OfString (printInt i) = some i := by
  have hlo : -2 ^ 63 ≤ i.toInt := i.le_toInt
  have hhi : i.toInt < 2 ^ 63 := i.toInt_lt
  obtain ⟨c, l, hcl⟩ := decimal_eq_cons i.toInt.natAbs
  have hd : ∀ d ∈ c :: l, isDigit d := fun d hd => isDigit_of_mem_decimal (hcl ▸ hd)
  obtain ⟨hc, hl⟩ := digits_of_decimal (by omega) hcl
  by_cases hneg : i.toInt < 0
  · have habs : -(i.toInt.natAbs : ℤ) = i.toInt := by omega
    rw [printInt, if_pos hneg, hcl, int64OfString, signAndBase_minus hd]
    simp only [hc, hl, Option.bind_eq_bind, Option.bind_some, if_true]
    rw [if_neg (by omega), habs, Int64.ofInt_toInt]
  · have habs : (i.toInt.natAbs : ℤ) = i.toInt := by omega
    rw [printInt, if_neg hneg, hcl, int64OfString, signAndBase_digits hd]
    simp only [hc, hl, Option.bind_eq_bind, Option.bind_some, Bool.false_eq_true, if_false]
    rw [if_neg (by omega), habs, Int64.ofInt_toInt]

end Numbers

lemma scanLength_digits (digits s : Bytes) (h : ∀ d ∈ digits, isDigit d) :
    scanLength (digits ++ chr ':' :: s) = .ok (digits, chr ':' :: s) := by
  induction digits with
  | nil =>
    have hcolon : isDigit (chr ':') = false := by decide
    simp [scanLength, hcolon]
  | cons c digits ih =>
    have hc := h c (by simp)
    rw [List.cons_append, scanLength, if_pos hc, ih fun d hd => h d (by simp [hd])]
    rfl

lemma ne_e_of_isDigit {c : UInt8} (h : isDigit c) : c ≠ chr 'e' := ne_of_isDigit h (by decide)

lemma scanInt_of_ne_e (number s : Bytes) (h : ∀ d ∈ number, d ≠ chr 'e') :
    scanInt (number ++ chr 'e' :: s) = .ok (number, s) := by
  induction number with
  | nil => simp [scanInt]
  | cons c number ih =>
    have hc := h c (by simp)
    rw [List.cons_append, scanInt, if_neg hc, ih fun d hd => h d (by simp [hd])]
    rfl

lemma ne_e_of_mem_printInt {i : Int64} {c : UInt8} (h : c ∈ printInt i) : c ≠ chr 'e' := by
  have hdec : ∀ n, c ∈ decimal n → c ≠ chr 'e' := fun n hc =>
    ne_e_of_isDigit (isDigit_of_mem_decimal hc)
  unfold printInt at h
  split at h
  · rcases List.mem_cons.mp h with rfl | h
    · decide
    · exact hdec _ h
  · exact hdec _ h

section Decode

variable (ofFloat : Bytes → Option Int64)

lemma decodeFrom_encodeString (fuel : ℕ) (s rest : Bytes) :
    decodeFrom ofFloat (fuel + 1) (encodeString s ++ rest) = .ok (.string s, rest) := by
  obtain ⟨c, l, hcl⟩ := decimal_eq_cons s.length
  have hd : ∀ d ∈ c :: l, isDigit d := fun d hd => isDigit_of_mem_decimal (hcl ▸ hd)
  have hnum : number (c :: l) = s.length := hcl ▸ number_decimal s.length
  have hscan := scanLength_digits l (s ++ rest) fun d hd' => hd d (by simp [hd'])
  rw [encodeString, hcl, List.append_assoc, List.cons_append, List.cons_append, decodeFrom,
    if_pos (hd c (by simp)), hscan]
  simp [hnum, bind, Except.bind]

lemma decodeFrom_int (fuel : ℕ) (i : Int64) (rest : Bytes) :
    decodeFrom ofFloat (fuel + 1) (chr 'i' :: (printInt i ++ [chr 'e']) ++ rest)
      = .ok (.int i, rest) := by
  have hi : isDigit (chr 'i') = false := by decide
  have hscan := scanInt_of_ne_e (printInt i) rest fun d hd => ne_e_of_mem_printInt hd
  simp [decodeFrom, hi, hscan, int64OfString_printInt, bind, Except.bind]

-- An encoded value starts with a digit or with one of the letters i, l and d.
lemma encode_eq_cons (strict : Bool) (v : Value) :
    ∃ c s, encode strict v = c :: s ∧ c ≠ chr 'e' := by
  cases v with
  | string s =>
    obtain ⟨c, l, hcl⟩ := decimal_eq_cons s.length
    refine ⟨c, l ++ chr ':' :: s, ?_, ?_⟩
    · simp [encode, encodeString, hcl]
    · exact ne_e_of_isDigit (isDigit_of_mem_decimal (n := s.length) (by simp [hcl]))
  | int i => exact ⟨_, _, by rw [encode], by decide⟩
  | list l => exact ⟨_, _, by rw [encode], by decide⟩
  | dictionary l => exact ⟨_, _, by rw [encode], by decide⟩

-- The entries of a dictionary as they follow each other in the encoding.
def joinEntries (l : List (Bytes × Bytes)) : Bytes := l.flatMap fun (k, v) => encodeString k ++ v

lemma encode_dictionary (l : List (Bytes × Value)) :
    encode false (.dictionary l)
      = chr 'd' :: (joinEntries (encodeEntries false l) ++ [chr 'e']) := by
  simp [encode, joinEntries]

-- By induction on the value: the fuel is twice the length of what is left to
-- read, since a list takes one step for itself and one for each of its elements.
mutual

theorem decodeFrom_encode : ∀ (v : Value) (fuel : ℕ) (rest : Bytes),
    2 * (encode false v).length ≤ fuel →
    decodeFrom ofFloat fuel (encode false v ++ rest) = .ok (v, rest)
  | .string s, fuel, rest, h => by
    obtain ⟨c, l, hcl, -⟩ := encode_eq_cons false (.string s)
    rw [hcl, List.length_cons] at h
    obtain ⟨fuel, rfl⟩ := Nat.exists_eq_add_of_le' (show 1 ≤ fuel by omega)
    rw [encode]
    exact decodeFrom_encodeString ofFloat fuel s rest
  | .int i, fuel, rest, h => by
    rw [encode] at h ⊢
    rw [List.length_cons] at h
    obtain ⟨fuel, rfl⟩ := Nat.exists_eq_add_of_le' (show 1 ≤ fuel by omega)
    exact decodeFrom_int ofFloat fuel i rest
  | .list l, fuel, rest, h => by
    rw [encode] at h ⊢
    rw [List.length_cons, List.length_append, List.length_singleton] at h
    obtain ⟨fuel, rfl⟩ := Nat.exists_eq_add_of_le' (show 1 ≤ fuel by omega)
    have := decodeList_encodeList l fuel [] rest (by omega)
    rw [List.cons_append, List.append_assoc, decodeFrom_list]
    exact this
  | .dictionary l, fuel, rest, h => by
    rw [encode_dictionary] at h ⊢
    rw [List.length_cons, List.length_append, List.length_singleton] at h
    obtain ⟨fuel, rfl⟩ := Nat.exists_eq_add_of_le' (show 1 ≤ fuel by omega)
    have := decodeDictionary_encodeEntries l fuel [] rest (by omega)
    rw [List.cons_append, List.append_assoc, decodeFrom_dictionary]
    exact this

theorem decodeList_encodeList : ∀ (l : List Value) (fuel : ℕ) (acc : List Value) (rest : Bytes),
    2 * (encodeList false l).length + 1 ≤ fuel →
    decodeList ofFloat fuel (encodeList false l ++ chr 'e' :: rest) acc
      = .ok (.list (acc.reverse ++ l), rest)
  | [], fuel, acc, rest, h => by
    obtain ⟨fuel, rfl⟩ := Nat.exists_eq_add_of_le' (show 1 ≤ fuel by omega)
    simp [encodeList, decodeList]
  | v :: l, fuel, acc, rest, h => by
    obtain ⟨fuel, rfl⟩ := Nat.exists_eq_add_of_le' (show 1 ≤ fuel by omega)
    obtain ⟨c, s, hcs, hc⟩ := encode_eq_cons false v
    rw [encodeList, List.length_append] at h
    have hpos : 1 ≤ (encode false v).length := by simp [hcs]
    have hv := decodeFrom_encode v fuel (encodeList false l ++ chr 'e' :: rest) (by omega)
    have hl := decodeList_encodeList l fuel (v :: acc) rest (by omega)
    rw [hcs, List.cons_append] at hv
    rw [encodeList, List.append_assoc, hcs, List.cons_append, decodeList, if_neg hc, hv]
    simpa [bind, Except.bind] using hl

theorem decodeDictionary_encodeEntries : ∀ (l : List (Bytes × Value)) (fuel : ℕ)
    (acc : List (Bytes × Value)) (rest : Bytes),
    2 * (joinEntries (encodeEntries false l)).length + 1 ≤ fuel →
    decodeDictionary ofFloat fuel (joinEntries (encodeEntries false l) ++ chr 'e' :: rest) acc
      = .ok (.dictionary (acc.reverse ++ l), rest)
  | [], fuel, acc, rest, h => by
    obtain ⟨fuel, rfl⟩ := Nat.exists_eq_add_of_le' (show 1 ≤ fuel by omega)
    simp [encodeEntries, joinEntries, decodeDictionary]
  | (k, v) :: l, fuel, acc, rest, h => by
    obtain ⟨fuel, rfl⟩ := Nat.exists_eq_add_of_le' (show 1 ≤ fuel by omega)
    obtain ⟨c, s, hcs, hc⟩ := encode_eq_cons false (.string k)
    rw [encode] at hcs
    have hjoin : joinEntries (encodeEntries false ((k, v) :: l))
        = encodeString k ++ (encode false v ++ joinEntries (encodeEntries false l)) := by
      simp [joinEntries, encodeEntries]
    have hlen : 1 ≤ (encodeString k).length := by simp [hcs]
    rw [hjoin, List.length_append, List.length_append] at h
    obtain ⟨fuel, rfl⟩ := Nat.exists_eq_add_of_le' (show 1 ≤ fuel by omega)
    have hk := decodeFrom_encodeString ofFloat fuel k
      (encode false v ++ (joinEntries (encodeEntries false l) ++ chr 'e' :: rest))
    have hv := decodeFrom_encode v (fuel + 1)
      (joinEntries (encodeEntries false l) ++ chr 'e' :: rest) (by omega)
    have hl := decodeDictionary_encodeEntries l (fuel + 1) ((k, v) :: acc) rest (by omega)
    rw [hcs, List.cons_append] at hk
    rw [hjoin, List.append_assoc, List.append_assoc, hcs, List.cons_append, decodeDictionary,
      if_neg hc, hk]
    simp only [bind, Except.bind, hv]
    simpa using hl

end

end Decode

-- The keys alone decide, so that sorting does not see whether the values are
-- encoded.
lemma map_sortByKey {α β : Type} (f : α → β) (l : List (Bytes × α)) :
    (sortByKey l).map (fun (k, v) => (k, f v)) = sortByKey (l.map fun (k, v) => (k, f v)) := by
  apply List.map_mergeSort
  intro a _ b _
  rfl

mutual

theorem encode_strict : ∀ v : Value, encode true v = encode false v.sortKeys
  | .string s => by simp [encode, Value.sortKeys]
  | .int i => by simp [encode, Value.sortKeys]
  | .list l => by
    have := encodeList_strict l
    simp [encode, Value.sortKeys, this]
  | .dictionary l => by
    have hl := encodeEntries_strict l
    have hsort : sortByKey (encodeEntries true l)
        = encodeEntries false (sortByKey (sortKeysEntries l)) := by
      rw [hl, encodeEntries_eq_map, encodeEntries_eq_map]
      exact (map_sortByKey _ _).symm
    rw [Value.sortKeys, encode_dictionary, ← hsort]
    simp [encode, joinEntries]

theorem encodeList_strict : ∀ l : List Value, encodeList true l = encodeList false (sortKeysList l)
  | [] => by simp [encodeList, sortKeysList]
  | v :: l => by simp [encodeList, sortKeysList, encode_strict v, encodeList_strict l]

theorem encodeEntries_strict : ∀ l : List (Bytes × Value),
    encodeEntries true l = encodeEntries false (sortKeysEntries l)
  | [] => by simp [encodeEntries, sortKeysEntries]
  | (k, v) :: l => by simp [encodeEntries, sortKeysEntries, encode_strict v, encodeEntries_strict l]

end

section Sorted

lemma keyLe_trans : ∀ a b c : Bytes, keyLe a b → keyLe b c → keyLe a c
  | [], _, _, _, _ => by simp [keyLe]
  | x :: s, y :: t, z :: u, hab, hbc => by
    simp only [keyLe, Bool.or_eq_true, decide_eq_true_eq, Bool.and_eq_true] at hab hbc ⊢
    rcases hab with hxy | ⟨rfl, hst⟩ <;> rcases hbc with hyz | ⟨rfl, htu⟩
    · exact .inl (UInt8.lt_trans hxy hyz)
    · exact .inl hxy
    · exact .inl hyz
    · exact .inr ⟨rfl, keyLe_trans s t u hst htu⟩
  | _ :: _, [], _, hab, _ => by simp [keyLe] at hab
  | _ :: _, _ :: _, [], _, hbc => by simp [keyLe] at hbc

lemma keyLe_total : ∀ a b : Bytes, keyLe a b || keyLe b a
  | [], _ => by simp [keyLe]
  | _ :: _, [] => by simp [keyLe]
  | x :: s, y :: t => by
    have ih := keyLe_total s t
    simp only [keyLe, Bool.or_eq_true, decide_eq_true_eq, Bool.and_eq_true] at ih ⊢
    rcases lt_trichotomy x.toNat y.toNat with h | h | h
    · exact .inl (.inl h)
    · have := UInt8.toNat_inj.mp h
      subst this
      exact ih.imp (fun h => .inr ⟨rfl, h⟩) fun h => .inr ⟨rfl, h⟩
    · exact .inr (.inl h)

lemma sortByKey_pairwise {α : Type} (l : List (Bytes × α)) :
    (sortByKey l).Pairwise fun x y => keyLe x.1 y.1 := by
  apply List.pairwise_mergeSort
  · exact fun a b c => keyLe_trans a.1 b.1 c.1
  · exact fun a b => keyLe_total a.1 b.1

lemma sortByKey_perm {α : Type} (l : List (Bytes × α)) : (sortByKey l).Perm l :=
  List.mergeSort_perm _ _

-- Each dictionary of a value has its keys in increasing order.
mutual

def Value.KeysSorted : Value → Prop
  | .string _ => True
  | .int _ => True
  | .list l => listSorted l
  | .dictionary l => l.Pairwise (fun x y => keyLe x.1 y.1) ∧ entriesSorted l

def listSorted : List Value → Prop
  | [] => True
  | v :: l => v.KeysSorted ∧ listSorted l

def entriesSorted : List (Bytes × Value) → Prop
  | [] => True
  | (_, v) :: l => v.KeysSorted ∧ entriesSorted l

end

lemma entriesSorted_iff (l : List (Bytes × Value)) :
    entriesSorted l ↔ ∀ e ∈ l, e.2.KeysSorted := by
  induction l with
  | nil => simp [entriesSorted]
  | cons e l ih => simp [entriesSorted, ih]

mutual

theorem keysSorted_sortKeys : ∀ v : Value, v.sortKeys.KeysSorted
  | .string s => by simp [Value.sortKeys, Value.KeysSorted]
  | .int i => by simp [Value.sortKeys, Value.KeysSorted]
  | .list l => by
    rw [Value.sortKeys, Value.KeysSorted]
    exact listSorted_sortKeysList l
  | .dictionary l => by
    have hl := entriesSorted_sortKeysEntries l
    rw [Value.sortKeys, Value.KeysSorted]
    refine ⟨sortByKey_pairwise _, (entriesSorted_iff _).mpr fun e he => ?_⟩
    exact (entriesSorted_iff _).mp hl e ((sortByKey_perm _).mem_iff.mp he)

theorem listSorted_sortKeysList : ∀ l : List Value, listSorted (sortKeysList l)
  | [] => by simp [sortKeysList, listSorted]
  | v :: l => by
    rw [sortKeysList, listSorted]
    exact ⟨keysSorted_sortKeys v, listSorted_sortKeysList l⟩

theorem entriesSorted_sortKeysEntries : ∀ l : List (Bytes × Value),
    entriesSorted (sortKeysEntries l)
  | [] => by simp [sortKeysEntries, entriesSorted]
  | (k, v) :: l => by
    rw [sortKeysEntries, entriesSorted]
    exact ⟨keysSorted_sortKeys v, entriesSorted_sortKeysEntries l⟩

end

-- Sorting leaves a value that is sorted.
mutual

theorem sortKeys_of_keysSorted : ∀ v : Value, v.KeysSorted → v.sortKeys = v
  | .string s, _ => by rw [Value.sortKeys]
  | .int i, _ => by rw [Value.sortKeys]
  | .list l, h => by
    rw [Value.KeysSorted] at h
    rw [Value.sortKeys, sortKeysList_of_listSorted l h]
  | .dictionary l, h => by
    rw [Value.KeysSorted] at h
    rw [Value.sortKeys, sortKeysEntries_of_entriesSorted l h.2, sortByKey,
      List.mergeSort_of_pairwise h.1]

theorem sortKeysList_of_listSorted : ∀ l : List Value, listSorted l → sortKeysList l = l
  | [], _ => by rw [sortKeysList]
  | v :: l, h => by
    rw [listSorted] at h
    rw [sortKeysList, sortKeys_of_keysSorted v h.1, sortKeysList_of_listSorted l h.2]

theorem sortKeysEntries_of_entriesSorted : ∀ l : List (Bytes × Value),
    entriesSorted l → sortKeysEntries l = l
  | [], _ => by rw [sortKeysEntries]
  | (k, v) :: l, h => by
    rw [entriesSorted] at h
    rw [sortKeysEntries, sortKeys_of_keysSorted v h.1, sortKeysEntries_of_entriesSorted l h.2]

end

end Sorted

lemma decode_encode (ofFloat : Bytes → Option Int64) (v : Value) :
    decode ofFloat (encode false v) = .ok v := by
  have h := decodeFrom_encode ofFloat v (2 * (encode false v).length) [] le_rfl
  rw [List.append_nil] at h
  simp [decode, h, bind, Except.bind, pure, Except.pure]

lemma decode_encode_strict (ofFloat : Bytes → Option Int64) (v : Value) :
    decode ofFloat (encode true v) = .ok v.sortKeys := by
  rw [encode_strict]
  exact decode_encode ofFloat v.sortKeys

-- The same bytes come back out of what decode makes of them, and a strict
-- encoding is read as the value with sorted keys.
theorem bencode_round_trip (ofFloat : Bytes → Option Int64) (v : Value) :
    decode ofFloat (encode false v) = .ok v ∧
    (decode ofFloat (encode false v)).map (encode false) = .ok (encode false v) ∧
    decode ofFloat (encode true v) = .ok v.sortKeys ∧ v.sortKeys.KeysSorted := by
  refine ⟨decode_encode ofFloat v, ?_, decode_encode_strict ofFloat v, keysSorted_sortKeys v⟩
  rw [decode_encode]
  rfl

end Mldonkey.Bencode
