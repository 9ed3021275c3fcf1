import Mldonkey.Options.Parser
import Mldonkey.Bencode.RoundTrip
import Mldonkey.Lib.BitString

-- The tokens that are read from what save_value prints.
namespace Mldonkey.Options

open Bencode (Bytes chr ofString isDigit int64OfString printInt decimal)
open BitString (forall_byte)

-- A text at which a name or a number ends.
def Ends : Bytes → Prop
  | [] => True
  | c :: _ => c = 10 ∨ c = 32 ∨ c = chr ';' ∨ c = chr ',' ∨ c = chr ']' ∨ c = chr ')'

theorem takeWhile_dropWhile {p : UInt8 → Bool} {a s : Bytes} (ha : ∀ c ∈ a, p c)
    (hs : ∀ c ∈ s.head?, p c = false) : (a ++ s).takeWhile p = a ∧ (a ++ s).dropWhile p = s := by
  induction a with
  | nil =>
      cases s with
      | nil => exact ⟨rfl, rfl⟩
      | cons c s =>
          have hc : p c = false := hs c rfl
          simp [hc]
  | cons c a ih =>
      obtain ⟨hc, ha⟩ := List.forall_mem_cons.mp ha
      obtain ⟨h1, h2⟩ := ih ha
      exact ⟨by simp [hc, h1], by simp [hc, h2]⟩

theorem Ends.not {p : UInt8 → Bool} {s : Bytes} (h : Ends s)
    (hp : p 10 = false ∧ p 32 = false ∧ p (chr ';') = false ∧ p (chr ',') = false ∧
      p (chr ']') = false ∧ p (chr ')') = false) : ∀ c ∈ s.head?, p c = false := by
  intro c hc
  cases s with
  | nil => cases hc
  | cons d s =>
      obtain rfl : d = c := Option.some.inj hc
      obtain ⟨h1, h2, h3, h4, h5, h6⟩ := hp
      rcases h with rfl | rfl | rfl | rfl | rfl | rfl <;> assumption

variable {F : Type} {floatOfString : Bytes → Option F} {s rest : Bytes}

theorem nextToken_cons (c : UInt8) (s : Bytes) : nextToken floatOfString (c :: s) =
    if isBlank c then nextTokenFrom floatOfString (s.length + 1) s
    else if startsIdent c then identWith inIdent [c] s
    else if c = chr '(' then
      match s with
      | [] => keywordOrError (chr '(') []
      | d :: t =>
          if d = chr '*' then
            match comment 0 t with
            | some s' => nextTokenFrom floatOfString (s.length + 1) s'
            | none => .failure
          else keywordOrError (chr '(') (d :: t)
    else if startsIdent2 c then identWith inIdent2 [c] s
    else if isDigit c then number floatOfString [c] s
    else if c = 39 then
      match char s with
      | .ok c (39 :: s) => .ok (some (.char c)) s
      | _ => .error
    else if c = chr '"' then
      match string [] (s.length + 1) s with
      | .ok a s => .ok (some (.string a)) s
      | .failure => .failure
      | .error => .error
    else if c = chr '-' then negNumber floatOfString s
    else keywordOrError c s := rfl

theorem nextToken_blank {c : UInt8} (hc : isBlank c) :
    nextToken floatOfString (c :: s) = nextToken floatOfString s := by
  rw [nextToken_cons, if_pos hc, nextToken]

theorem nextToken_indent {indent : Bytes} (h : ∀ c ∈ indent, isBlank c) :
    nextToken floatOfString (indent ++ s) = nextToken floatOfString s := by
  induction indent with
  | nil => rfl
  | cons c indent ih =>
      obtain ⟨hc, hindent⟩ := List.forall_mem_cons.mp h
      rw [List.cons_append, nextToken_blank hc, ih hindent]

-- How the classes of characters lie to each other.
theorem letter_classes : ∀ c : UInt8,
    (isLetter c → isBlank c = false ∧ startsIdent c = true ∧ c ≠ chr '*' ∧ isWord c) ∧
      (isWord c → c ≠ 8) :=
  forall_byte (by decide)

theorem digit_classes : ∀ c : UInt8,
    (isDigit c →
      isBlank c = false ∧ startsIdent c = false ∧ c ≠ chr '(' ∧ startsIdent2 c = false) ∧
      (isDigit c → c ≠ chr 'n' ∧ c ≠ chr 'r' ∧ c ≠ chr 't') ∧
      (c = chr '-' ∨ isDigit c → isLetter c = false ∧ c ≠ chr '*' ∧ c ≠ 8) := by
  refine fun c => ⟨?_, ?_, ?_⟩
  all_goals
    revert c
    exact forall_byte (by decide)

theorem letter_starts (c : UInt8) (hc : isLetter c) :
    isBlank c = false ∧ startsIdent c = true ∧ c ≠ chr '*' := by
  obtain ⟨hblank, hstart, hstar, -⟩ := (letter_classes c).1 hc
  exact ⟨hblank, hstart, hstar⟩

theorem nextToken_ident {c : UInt8} {a : Bytes} (hc : isLetter c) (ha : ∀ d ∈ a, isWord d)
    (hrest : Ends rest) :
    nextToken floatOfString (c :: (a ++ rest)) = .ok (some (.ident (c :: a))) rest := by
  obtain ⟨hblank, hstart, -⟩ := letter_starts c hc
  have hin : ∀ d ∈ a, inIdent d := by
    intro d hd
    have hword := ha d hd
    simp only [isWord, Bool.or_eq_true] at hword
    simp only [inIdent, startsIdent, Bool.or_eq_true]
    tauto
  obtain ⟨htake, hdrop⟩ := takeWhile_dropWhile hin (hrest.not (by decide))
  have hkeyword : c :: a ∉ keywords := by
    intro hmem
    have hall : keywords.all (fun k => k.head?.all (!isLetter ·)) = true := by decide
    have hhead := List.all_eq_true.mp hall _ hmem
    simp [hc] at hhead
  have hident : (identWith inIdent [c] (a ++ rest) : Res (Option (Token F))) =
      .ok (some (.ident (c :: a))) rest := by
    have hword : (identOrKeyword (c :: a) : Token F) = .ident (c :: a) := if_neg hkeyword
    rw [identWith, htake, hdrop, List.singleton_append, hword]
  have hnot : ¬ isBlank c = true := by
    rw [hblank]
    exact Bool.false_ne_true
  rw [nextToken_cons, if_neg hnot, if_pos hstart]
  exact hident

-- A keyword of one character that no other character continues.
theorem nextToken_kwd {c : UInt8} (hc : c ∈ [chr '\x7b', chr '\x7d', chr '[', chr ']', chr ')',
    chr ';', chr ',']) :
    nextToken floatOfString (c :: s) = .ok (some (.kwd [c])) s := by
  rw [nextToken_cons]
  simp only [List.mem_cons, List.not_mem_nil, or_false] at hc
  rcases hc with rfl | rfl | rfl | rfl | rfl | rfl | rfl <;> rfl

theorem nextToken_equal :
    nextToken floatOfString (chr '=' :: 32 :: s) = .ok (some (.kwd [chr '='])) (32 :: s) := by
  rw [nextToken_cons]
  rfl

theorem nextToken_paren (hs : ∀ c ∈ s.head?, c ≠ chr '*') :
    nextToken floatOfString (chr '(' :: s) = .ok (some (.kwd [chr '('])) s := by
  rw [nextToken_cons]
  cases s with
  | nil => rfl
  | cons d s =>
      have hd : d ≠ chr '*' := hs d rfl
      show (if d = chr '*' then _ else _) = _
      rw [if_neg hd]
      rfl

theorem number_digits {a store : Bytes} (ha : ∀ c ∈ a, isDigit c) (hrest : Ends rest) :
    number floatOfString store (a ++ rest) = intToken (store ++ a) rest := by
  induction a generalizing store with
  | nil =>
      rw [List.nil_append, List.append_nil]
      cases rest with
      | nil => rfl
      | cons c rest => rcases hrest with rfl | rfl | rfl | rfl | rfl | rfl <;> rfl
  | cons c a ih =>
      obtain ⟨hc, ha⟩ := List.forall_mem_cons.mp ha
      rw [List.cons_append, number, if_pos hc, ih ha, List.append_assoc]
      rfl

theorem digit_starts (c : UInt8) : isDigit c →
    isBlank c = false ∧ startsIdent c = false ∧ c ≠ chr '(' ∧ startsIdent2 c = false :=
  (digit_classes c).1

theorem intToken_eq {store : Bytes} {i : Int64} (h : int64OfString store = some i) :
    (intToken store s : Res (Option (Token F))) = .ok (some (.int i)) s := by
  rw [intToken, h]

theorem nextToken_int (i : Int64) (hrest : Ends rest) :
    nextToken floatOfString (printInt i ++ rest) = .ok (some (.int i)) rest := by
  have hback := Bencode.int64OfString_printInt i
  have hall : ∀ c ∈ decimal i.toInt.natAbs, isDigit c := fun _ hc =>
    Bencode.isDigit_of_mem_decimal hc
  obtain ⟨c, digits, hdigits⟩ := Bencode.decimal_eq_cons i.toInt.natAbs
  rw [printInt] at hback ⊢
  rw [hdigits] at hall hback ⊢
  obtain ⟨hc, hall⟩ := List.forall_mem_cons.mp hall
  by_cases hneg : i.toInt < 0
  · rw [if_pos hneg] at hback ⊢
    rw [List.cons_append, nextToken_cons]
    show negNumber floatOfString (c :: (digits ++ rest)) = _
    rw [negNumber, if_pos hc, number_digits hall hrest]
    exact intToken_eq hback
  · rw [if_neg hneg] at hback ⊢
    obtain ⟨h1, h2, h3, h4⟩ := digit_starts c hc
    rw [List.cons_append, nextToken_cons, h1, h2, if_neg Bool.false_ne_true,
      if_neg Bool.false_ne_true, if_neg h3, h4, if_neg Bool.false_ne_true, if_pos hc,
      number_digits hall hrest]
    exact intToken_eq hback

-- The backspace is written \b, which the lexer reads as the letter.
def garbled (c : UInt8) : UInt8 := if c = 8 then chr 'b' else c

theorem string_cons (store : Bytes) (n : Nat) (c : UInt8) (s : Bytes) :
    string store (n + 1) (c :: s) =
      if c = chr '"' then .ok store s
      else if c = chr '\\' then
        match escape s with
        | .ok c s => string (store ++ [c]) n s
        | _ => .error
      else string (store ++ [c]) n s :=
  string.eq_def store (n + 1) (c :: s)

theorem decimalEscape_digits : ∀ c : UInt8,
    isDigit (48 + c / 100) ∧ isDigit (48 + c / 10 % 10) ∧ isDigit (48 + c % 10) ∧
      digit (48 + c / 100) * 100 + digit (48 + c / 10 % 10) * 10 + digit (48 + c % 10) =
        c.toNat :=
  forall_byte (by decide)

theorem digit_escape (c : UInt8) : isDigit c → c ≠ chr 'n' ∧ c ≠ chr 'r' ∧ c ≠ chr 't' :=
  (digit_classes c).2.1

theorem escape_digits (c : UInt8) (s : Bytes) :
    escape ((48 + c / 100) :: (48 + c / 10 % 10) :: (48 + c % 10) :: s) = .ok c s := by
  obtain ⟨h1, h2, h3, hcode⟩ := decimalEscape_digits c
  obtain ⟨hn, hr, ht⟩ := digit_escape _ h1
  rw [escape, if_neg hn, if_neg hr, if_neg ht, if_pos h1]
  simp only [hcode, UInt8.ofNat_toNat]
  exact if_pos ⟨h2, h3, c.toNat_lt⟩

theorem string_escapedChar (store : Bytes) (n : Nat) (c : UInt8) (s : Bytes) :
    string store (n + 1) (escapedChar c ++ s) = string (store ++ [garbled c]) n s := by
  rw [escapedChar]
  split
  · next hc => rcases hc with rfl | rfl <;> exact string_cons _ _ _ _
  · next hc =>
      obtain ⟨hquote, hslash⟩ := not_or.mp hc
      split
      · next hc => subst hc; exact string_cons _ _ _ _
      · split
        · next hc => subst hc; exact string_cons _ _ _ _
        · split
          · next hc => subst hc; exact string_cons _ _ _ _
          · split
            · next hc => subst hc; exact string_cons _ _ _ _
            · next h8 =>
                rw [garbled, if_neg h8]
                split
                · exact (string_cons _ _ _ _).trans ((if_neg hquote).trans (if_neg hslash))
                · have hback : chr '\\' ≠ chr '"' := by decide
                  show string store (n + 1) (chr '\\' :: _) = _
                  rw [string_cons, if_neg hback, if_pos rfl]
                  show (match escape ((48 + c / 100) :: (48 + c / 10 % 10) :: (48 + c % 10) :: s) with
                    | .ok c s => string (store ++ [c]) n s
                    | _ => .error) = _
                  rw [escape_digits]

theorem string_escaped (a store : Bytes) {n : Nat} (hn : a.length < n) :
    string store n (escaped a ++ chr '"' :: rest) = .ok (store ++ a.map garbled) rest := by
  induction a generalizing store n with
  | nil =>
      obtain ⟨n, rfl⟩ := Nat.exists_eq_succ_of_ne_zero (Nat.ne_of_gt hn)
      rw [List.map_nil, List.append_nil]
      exact (string_cons _ _ _ _).trans (if_pos rfl)
  | cons c a ih =>
      obtain ⟨n, rfl⟩ := Nat.exists_eq_succ_of_ne_zero (Nat.ne_of_gt (Nat.zero_lt_of_lt hn))
      rw [escaped, List.flatMap_cons, List.append_assoc, string_escapedChar]
      rw [List.length_cons] at hn
      rw [← escaped, ih _ (by omega), List.map_cons, List.append_assoc]
      rfl

theorem length_escapedChar (c : UInt8) : 1 ≤ (escapedChar c).length := by
  rw [escapedChar]
  repeat' split
  all_goals simp [decimalEscape]

theorem length_escaped (a : Bytes) : a.length ≤ (escaped a).length := by
  induction a with
  | nil => exact Nat.le_refl 0
  | cons c a ih =>
      have hc := length_escapedChar c
      rw [escaped, List.flatMap_cons, List.length_append, List.length_cons, ← escaped]
      omega

theorem nextToken_quoted (a : Bytes) :
    nextToken floatOfString (quoted a ++ rest) = .ok (some (.string (a.map garbled))) rest := by
  have hlen := length_escaped a
  have hstring : string [] ((escaped a ++ chr '"' :: rest).length + 1)
      (escaped a ++ chr '"' :: rest) = .ok (a.map garbled) rest :=
    string_escaped a [] (by rw [List.length_append]; omega)
  rw [quoted, List.cons_append, List.append_assoc, nextToken_cons]
  show (match string [] ((escaped a ++ chr '"' :: rest).length + 1)
      (escaped a ++ chr '"' :: rest) with
    | .ok a s => Res.ok (some (Token.string a)) s
    | .failure => .failure
    | .error => .error) = _
  rw [hstring]

-- The number that a string is the decimal form of.
def canonical (s : Bytes) : Option Int64 :=
  match int64OfString s with
  | some i => if printInt i = s then some i else none
  | none => none

theorem canonical_eq {i : Int64} (h : canonical s = some i) : printInt i = s := by
  rw [canonical] at h
  split at h
  · split at h
    · next heq => cases h; exact heq
    · cases h
  · cases h

theorem canonical_printInt (i : Int64) : canonical (printInt i) = some i := by
  rw [canonical, Bencode.int64OfString_printInt]
  exact if_pos rfl

theorem head_printInt (i : Int64) : ∃ c a, printInt i = c :: a ∧ (c = chr '-' ∨ isDigit c) := by
  obtain ⟨c, digits, hdigits⟩ := Bencode.decimal_eq_cons i.toInt.natAbs
  have hc : isDigit c := Bencode.isDigit_of_mem_decimal (hdigits ▸ List.mem_cons_self)
  rw [printInt]
  split
  · exact ⟨_, _, rfl, .inl rfl⟩
  · exact ⟨c, digits, hdigits, .inr hc⟩

theorem not_letter_of_digit (c : UInt8) :
    c = chr '-' ∨ isDigit c → isLetter c = false ∧ c ≠ chr '*' ∧ c ≠ 8 :=
  (digit_classes c).2.2

theorem mem_printInt {i : Int64} {c : UInt8} (h : c ∈ printInt i) : c = chr '-' ∨ isDigit c := by
  rw [printInt] at h
  split at h
  · exact (List.mem_cons.mp h).imp id Bencode.isDigit_of_mem_decimal
  · exact .inr (Bencode.isDigit_of_mem_decimal h)

theorem map_garbled (a : Bytes) : a.map garbled = a ↔ 8 ∉ a := by
  induction a with
  | nil => simp
  | cons c a ih =>
      rw [List.map_cons, List.cons.injEq, ih, List.mem_cons, not_or]
      have hc : garbled c = c ↔ ¬ 8 = c := by
        rw [garbled]
        split
        · next h => subst h; decide
        · next h => exact ⟨fun _ => Ne.symm h, fun _ => rfl⟩
      rw [hc]

theorem word_ne_backspace (c : UInt8) : isWord c → c ≠ 8 := (letter_classes c).2

theorem letter_word (c : UInt8) (hc : isLetter c) : isWord c := ((letter_classes c).1 hc).2.2.2

section SafeString

variable (floatOfString) {stringOfFloat : F → Bytes}

-- string_of_float prints a dot, an exponent or a name, but never an integer.
def NotIntegers (stringOfFloat : F → Bytes) : Prop :=
  ∀ f, int64OfString (stringOfFloat f) = none

-- safe_string prints a string as it is when it is a word or a number.
theorem safeString_cases (hf : NotIntegers stringOfFloat) (a : Bytes) :
    (∃ c t, a = c :: t ∧ isLetter c ∧ (∀ d ∈ t, isWord d) ∧
        safeString floatOfString stringOfFloat a = a ∧ canonical a = none) ∨
      (∃ i, canonical a = some i ∧ safeString floatOfString stringOfFloat a = a) ∨
      (canonical a = none ∧ safeString floatOfString stringOfFloat a = quoted a) := by
  cases a with
  | nil => exact .inr (.inr ⟨rfl, rfl⟩)
  | cons c t =>
      rw [safeString]
      by_cases hc : isLetter c
      · have hnone : canonical (c :: t) = none := by
          cases hi : canonical (c :: t) with
          | none => rfl
          | some i =>
              obtain ⟨d, digits, hdigits, hd⟩ := head_printInt i
              rw [canonical_eq hi] at hdigits
              obtain ⟨rfl, -⟩ := List.cons.inj hdigits
              rw [(not_letter_of_digit _ hd).1] at hc
              cases hc
        rw [if_pos hc]
        by_cases ht : t.all isWord
        · rw [if_pos ht]
          exact .inl ⟨c, t, rfl, hc, fun d hd => List.all_eq_true.mp ht d hd, rfl, hnone⟩
        · rw [if_neg ht]
          exact .inr (.inr ⟨hnone, rfl⟩)
      · rw [if_neg hc, canonical]
        cases hint : int64OfString (c :: t) with
        | none => exact .inr (.inr ⟨rfl, rfl⟩)
        | some i =>
            dsimp only
            by_cases hi : printInt i = c :: t
            · rw [if_pos hi, if_pos hi]
              exact .inr (.inl ⟨i, rfl, rfl⟩)
            · rw [if_neg hi, if_neg hi]
              cases hfloat : floatOfString (c :: t) with
              | none => exact .inr (.inr ⟨rfl, rfl⟩)
              | some f =>
                  have hne : stringOfFloat f ≠ c :: t := fun heq => by
                    have hno := hf f
                    rw [heq, hint] at hno
                    cases hno
                  exact .inr (.inr ⟨rfl, if_neg hne⟩)

theorem nextToken_safeString (hf : NotIntegers stringOfFloat) (a : Bytes) (hrest : Ends rest) :
    (∃ i, canonical a = some i ∧
        nextToken floatOfString (safeString floatOfString stringOfFloat a ++ rest) =
          .ok (some (.int i)) rest) ∨
      canonical a = none ∧
        (nextToken floatOfString (safeString floatOfString stringOfFloat a ++ rest) =
            .ok (some (.ident (a.map garbled))) rest ∨
          nextToken floatOfString (safeString floatOfString stringOfFloat a ++ rest) =
            .ok (some (.string (a.map garbled))) rest) := by
  rcases safeString_cases floatOfString hf a with
    ⟨c, t, rfl, hc, ht, hsafe, hnone⟩ | ⟨i, hi, hsafe⟩ | ⟨hnone, hsafe⟩
  · have hword : 8 ∉ c :: t := fun h8 => by
      rcases List.mem_cons.mp h8 with rfl | h8
      · exact word_ne_backspace _ (letter_word _ hc) rfl
      · exact word_ne_backspace _ (ht 8 h8) rfl
    rw [hsafe, (map_garbled _).mpr hword]
    exact .inr ⟨hnone, .inl (nextToken_ident hc ht hrest)⟩
  · rw [hsafe, ← canonical_eq hi]
    exact .inl ⟨i, canonical_printInt i, nextToken_int i hrest⟩
  · rw [hsafe]
    exact .inr ⟨hnone, .inr (nextToken_quoted a)⟩

theorem head_safeString (hf : NotIntegers stringOfFloat) (a : Bytes) :
    ∃ c t, safeString floatOfString stringOfFloat a = c :: t ∧ c ≠ chr '*' := by
  rcases safeString_cases floatOfString hf a with
    ⟨c, t, rfl, hc, -, hsafe, -⟩ | ⟨i, hi, hsafe⟩ | ⟨-, hsafe⟩
  · exact ⟨c, t, hsafe, (letter_starts c hc).2.2⟩
  · obtain ⟨c, t, hint, hc⟩ := head_printInt i
    exact ⟨c, t, hsafe.trans ((canonical_eq hi).symm.trans hint), (not_letter_of_digit c hc).2.1⟩
  · exact ⟨chr '"', _, hsafe, by decide⟩

end SafeString

end Mldonkey.Options
