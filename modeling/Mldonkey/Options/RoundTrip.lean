import Mldonkey.Options.Tokens

-- What the parser makes of a saved value.
namespace Mldonkey.Options

open Bencode (Bytes chr ofString isDigit int64OfString printInt)

section Values

variable {F : Type}

-- The values that are made of strings and integers alone.
mutual

def Value.Plain : Value F → Prop
  | .module m => plainFields m
  | .list l | .smallList l => plainList l
  | .string _ | .int _ => True
  | .float _ | .once _ => False

def plainList : List (Value F) → Prop
  | [] => True
  | v :: l => v.Plain ∧ plainList l

def plainFields : List (Bytes × Value F) → Prop
  | [] => True
  | (_, v) :: m => v.Plain ∧ plainFields m

end

-- A name of a field in it is the decimal form of an integer.
mutual

def Value.numbered : Value F → Bool
  | .module m => numberedFields m
  | .list l | .smallList l => numberedList l
  | .once v => v.numbered
  | .string _ | .int _ | .float _ => false

def numberedList : List (Value F) → Bool
  | [] => false
  | v :: l => v.numbered || numberedList l

def numberedFields : List (Bytes × Value F) → Bool
  | [] => false
  | (name, v) :: m => (canonical name).isSome || (v.numbered || numberedFields m)

end

-- No string and no name of a field has a backspace.
mutual

def Value.NoBackspace : Value F → Prop
  | .module m => noBackspaceFields m
  | .list l | .smallList l => noBackspaceList l
  | .string s => 8 ∉ s
  | .once v => v.NoBackspace
  | .int _ | .float _ => True

def noBackspaceList : List (Value F) → Prop
  | [] => True
  | v :: l => v.NoBackspace ∧ noBackspaceList l

def noBackspaceFields : List (Bytes × Value F) → Prop
  | [] => True
  | (name, v) :: m => 8 ∉ name ∧ v.NoBackspace ∧ noBackspaceFields m

end

-- value_to_string of every leaf, and one kind of list.
mutual

def Value.shape : Value F → Value F
  | .module m => .module (shapeFields m)
  | .list l | .smallList l => .list (shapeList l)
  | .string s => .string s
  | .int i => .string (printInt i)
  | .float f => .float f
  | .once v => .once v.shape

def shapeList : List (Value F) → List (Value F)
  | [] => []
  | v :: l => v.shape :: shapeList l

def shapeFields : List (Bytes × Value F) → List (Bytes × Value F)
  | [] => []
  | (name, v) :: m => (name, v.shape) :: shapeFields m

end

def readString (s : Bytes) : Value F :=
  match canonical s with
  | some i => .int i
  | none => .string (s.map garbled)

-- What is read for a value.
mutual

def Value.read : Value F → Value F
  | .module m => .module (readFields m)
  | .list l | .smallList l => .list (readList l)
  | .string s => readString s
  | .int i => .int i
  | .float f => .float f
  | .once v => .once v.read

def readList : List (Value F) → List (Value F)
  | [] => []
  | v :: l => v.read :: readList l

def readFields : List (Bytes × Value F) → List (Bytes × Value F)
  | [] => []
  | (name, v) :: m => (name.map garbled, v.read) :: readFields m

end

theorem shape_readString (s : Bytes) :
    (readString s : Value F).shape = .string (s.map garbled) := by
  rw [readString]
  cases hi : canonical s with
  | none => rfl
  | some i =>
      have hs := canonical_eq hi
      have h8 : 8 ∉ printInt i := fun hmem => absurd (mem_printInt hmem) (by decide)
      rw [Value.shape, ← hs, (map_garbled _).mpr h8]

mutual

theorem shape_read : ∀ v : Value F, v.Plain → (v.read.shape = v.shape ↔ v.NoBackspace)
  | .module m, h => by
      rw [Value.read, Value.shape, Value.shape, Value.NoBackspace, Value.module.injEq]
      exact shape_readFields m h
  | .list l, h => by
      rw [Value.read, Value.shape, Value.shape, Value.NoBackspace, Value.list.injEq]
      exact shape_readList l h
  | .smallList l, h => by
      rw [Value.read, Value.shape, Value.shape, Value.NoBackspace, Value.list.injEq]
      exact shape_readList l h
  | .string s, _ => by
      rw [Value.read, shape_readString, Value.shape, Value.NoBackspace, Value.string.injEq]
      exact map_garbled s
  | .int i, _ => by
      rw [Value.read, Value.NoBackspace]
      exact iff_of_true rfl trivial

theorem shape_readList : ∀ l : List (Value F), plainList l →
    (shapeList (readList l) = shapeList l ↔ noBackspaceList l)
  | [], _ => iff_of_true rfl trivial
  | v :: l, h => by
      rw [readList, shapeList, shapeList, noBackspaceList, List.cons.injEq, shape_read v h.1,
        shape_readList l h.2]

theorem shape_readFields : ∀ m : List (Bytes × Value F), plainFields m →
    (shapeFields (readFields m) = shapeFields m ↔ noBackspaceFields m)
  | [], _ => iff_of_true rfl trivial
  | (name, v) :: m, h => by
      rw [readFields, shapeFields, shapeFields, noBackspaceFields, List.cons.injEq,
        Prod.mk.injEq, map_garbled, shape_read v h.1, shape_readFields m h.2, and_assoc]

end

end Values

variable {F : Type} {floatOfString : Bytes → Option F} {stringOfFloat : F → Bytes}
  {printFloat : F → Bytes} {saveOnce : Bytes → Value F → Bytes} {n : Nat}
  {once : List (Int64 × Value F)} {s s' rest : Bytes} {list : List (Value F)}

theorem parseOption_kwd {k : UInt8}
    (hk : k = chr ';' ∨ k = chr ',' ∨ k = chr '.' ∨ k = chr ']' ∨ k = chr ')')
    (h : nextToken floatOfString s = .ok (some (.kwd [k])) rest) :
    parseOption floatOfString (n + 1) once s = .failure := by
  rw [parseOption, h]
  rcases hk with rfl | rfl | rfl | rfl | rfl <;> rfl

theorem isKwd_mem {ks : List UInt8} {token : Option (Token F)} (h : isKwd ks token) :
    ∃ k ∈ ks, token = some (.kwd [k]) := by
  cases token with
  | none => cases h
  | some token =>
      cases token with
      | kwd a =>
          cases a with
          | nil => cases h
          | cons k a =>
              cases a with
              | nil =>
                  obtain ⟨c, hc, heq⟩ := List.any_eq_true.mp h
                  obtain rfl : c = k := by simpa using heq
                  exact ⟨c, hc, rfl⟩
              | cons c a => cases h
      | ident a => cases h
      | int i => cases h
      | float f => cases h
      | string a => cases h
      | char c => cases h

theorem parseList_value (hne : parseOption floatOfString (n + 1) once s ≠ .failure) :
    parseList floatOfString (n + 2) once list s =
      (parseOption floatOfString (n + 1) once s).bind fun v s =>
        parseList floatOfString (n + 1) v.2 (v.1 :: list) s := by
  rw [parseList]
  cases htoken : nextToken floatOfString s with
  | failure =>
      rw [parseOption, htoken] at hne
      exact absurd rfl hne
  | error =>
      rw [parseOption, htoken]
      rfl
  | ok token rest =>
      have hsep : isKwd [chr ';', chr ',', chr '.'] token = false := by
        by_contra hkwd
        obtain ⟨k, hk, rfl⟩ := isKwd_mem (eq_true_of_ne_false hkwd)
        simp only [List.mem_cons, List.not_mem_nil, or_false] at hk
        exact hne (parseOption_kwd (by tauto) htoken)
      show (if isKwd [chr ';', chr ',', chr '.'] token then _ else _) = _
      rw [if_neg (by rw [hsep]; exact Bool.false_ne_true)]
      cases hv : parseOption floatOfString (n + 1) once s with
      | ok v s => rfl
      | failure => exact absurd hv hne
      | error => rfl

theorem parseList_sep {k : UInt8} (hk : k = chr ';' ∨ k = chr ',') :
    parseList floatOfString (n + 1) once list (k :: s) = parseList floatOfString n once list s := by
  have htoken : nextToken floatOfString (k :: s) = .ok (some (.kwd [k])) s :=
    nextToken_kwd (by rcases hk with rfl | rfl <;> simp)
  rw [parseList, htoken]
  rcases hk with rfl | rfl <;> rfl

theorem parseList_end {k : UInt8} (hk : k = chr ']' ∨ k = chr ')') :
    parseList floatOfString (n + 2) once list (k :: s) = .ok (list.reverse, once) s := by
  have htoken : nextToken floatOfString (k :: s) = .ok (some (.kwd [k])) s :=
    nextToken_kwd (by rcases hk with rfl | rfl <;> simp)
  rw [parseList, htoken]
  show (if isKwd _ (some (Token.kwd [k])) then _ else _) = _
  rw [parseOption_kwd (by tauto) htoken]
  rcases hk with rfl | rfl <;> rfl

-- What is read, or an exception.
def outcome {α : Type} (bad : Bool) (a : α) (once : List (Int64 × Value F)) (rest : Bytes) :
    Res (α × List (Int64 × Value F)) :=
  if bad then .error else .ok (a, once) rest

theorem outcome_ne_failure {α : Type} (bad : Bool) (a : α) :
    outcome bad a once rest ≠ .failure := by
  cases bad <;> exact fun h => by cases h

theorem outcome_cons (v : Value F) (l : List (Value F)) :
    (if v.numbered then Res.error
      else outcome (numberedList l) ((v.read :: list).reverse ++ readList l) once rest) =
        outcome (numberedList (v :: l)) (list.reverse ++ readList (v :: l)) once rest := by
  rw [numberedList, readList, List.reverse_cons, List.append_assoc]
  cases v.numbered <;> rfl

theorem parseList_outcome {v : Value F}
    (hv : parseOption floatOfString (n + 1) once s = outcome v.numbered v.read once rest) :
    parseList floatOfString (n + 2) once list s =
      if v.numbered then .error else parseList floatOfString (n + 1) once (v.read :: list) rest := by
  rw [parseList_value (hv ▸ outcome_ne_failure _ _), hv]
  cases v.numbered <;> rfl

-- The last value of a list, and one behind which others stand.
theorem parseList_last {v : Value F} {k : UInt8} (hk : k = chr ']' ∨ k = chr ')')
    (hv : parseOption floatOfString (n + 2) once s =
      outcome v.numbered v.read once (k :: rest)) :
    parseList floatOfString (n + 3) once list s =
      outcome (numberedList [v]) (list.reverse ++ readList [v]) once rest := by
  rw [parseList_outcome hv, parseList_end hk]
  simp only [numberedList, Bool.or_false, readList, List.reverse_cons]
  rfl

theorem parseList_next {v : Value F} {l : List (Value F)} {k : UInt8}
    (hk : k = chr ';' ∨ k = chr ',')
    (hv : parseOption floatOfString (n + 2) once s = outcome v.numbered v.read once (k :: s'))
    (hl : parseList floatOfString (n + 1) once (v.read :: list) s' =
      outcome (numberedList l) ((v.read :: list).reverse ++ readList l) once rest) :
    parseList floatOfString (n + 3) once list s =
      outcome (numberedList (v :: l)) (list.reverse ++ readList (v :: l)) once rest := by
  rw [parseList_outcome hv, parseList_sep hk, hl]
  exact outcome_cons v l

-- What parse_gwmlrc leaves to be read: the brace, or the number that is no name.
def FieldsRead (floatOfString : Bytes → Option F) (m : List (Bytes × Value F))
    (once : List (Int64 × Value F)) (rest : Bytes)
    (r : Res (List (Bytes × Value F) × List (Int64 × Value F))) : Prop :=
  if numberedFields m then
    r = .error ∨ ∃ a s i r', r = .ok a s ∧ nextToken floatOfString s = .ok (some (.int i)) r'
  else
    ∃ s, r = .ok (readFields m, once) s ∧
      nextToken floatOfString s = .ok (some (.kwd [chr '\x7d'])) rest

theorem FieldsRead.expect {m : List (Bytes × Value F)}
    {r : Res (List (Bytes × Value F) × List (Int64 × Value F))}
    (h : FieldsRead floatOfString m once rest r) :
    (r.required.bind fun m s =>
      expect floatOfString (chr '\x7d') s fun s => .ok (Value.module m.1, m.2) s) =
        outcome (numberedFields m) (.module (readFields m)) once rest := by
  rw [FieldsRead] at h
  rw [outcome]
  split at h
  · next hbad =>
      rw [if_pos hbad]
      rcases h with rfl | ⟨a, s, i, r', rfl, htoken⟩
      · rfl
      · show Options.expect _ _ _ _ = _
        rw [Options.expect, htoken]
        rfl
  · next hbad =>
      rw [if_neg hbad]
      obtain ⟨s, rfl, htoken⟩ := h
      show Options.expect _ _ _ _ = _
      rw [Options.expect, htoken]
      rfl

-- A field in front of the others.
theorem FieldsRead.cons {m : List (Bytes × Value F)} {name : Bytes} {v : Value F}
    {r : Res (List (Bytes × Value F) × List (Int64 × Value F))}
    (h : FieldsRead floatOfString m once rest r) (hname : canonical name = none)
    (hv : v.numbered = false) :
    FieldsRead floatOfString ((name, v) :: m) once rest
      (r.required.bind fun m s => .ok ((name.map garbled, v.read) :: m.1, m.2) s) := by
  rw [FieldsRead] at h ⊢
  have hbad : numberedFields ((name, v) :: m) = numberedFields m := by
    rw [numberedFields, hname, hv]
    rfl
  rw [hbad]
  split at h
  · next hm =>
      rw [if_pos hm]
      rcases h with rfl | ⟨a, s, i, r', rfl, htoken⟩
      · exact .inl rfl
      · exact .inr ⟨_, s, i, r', rfl, htoken⟩
  · next hm =>
      rw [if_neg hm]
      obtain ⟨s, rfl, htoken⟩ := h
      exact ⟨s, rfl, htoken⟩

section

variable (floatOfString printFloat saveOnce)

-- The text behind a parenthesis begins no comment.
theorem head_saveValue (hf : NotIntegers stringOfFloat) (indent : Bytes) :
    ∀ v : Value F, v.Plain →
      ∃ c t, saveValue floatOfString stringOfFloat printFloat saveOnce indent v = c :: t ∧
        c ≠ chr '*'
  | .string a, _ => head_safeString floatOfString hf a
  | .int i, _ => by
      obtain ⟨c, t, hint, hc⟩ := head_printInt i
      exact ⟨c, t, hint, (not_letter_of_digit c hc).2.1⟩
  | .list l, _ => ⟨_, _, rfl, by decide⟩
  | .smallList l, _ => ⟨_, _, rfl, by decide⟩
  | .module m, _ => ⟨_, _, rfl, by decide⟩

theorem head_saveList (hf : NotIntegers stringOfFloat) (indent : Bytes) {l : List (Value F)}
    (hl : plainList l) :
    ∀ c ∈ (saveList floatOfString stringOfFloat printFloat saveOnce indent l ++
      chr ')' :: rest).head?, c ≠ chr '*' := by
  intro c hc
  cases l with
  | nil =>
      obtain rfl : chr ')' = c := Option.some.inj hc
      decide
  | cons v l =>
      obtain ⟨d, t, htext, hd⟩ := head_saveValue floatOfString printFloat saveOnce hf indent v hl.1
      cases l with
      | nil =>
          rw [saveList, htext] at hc
          obtain rfl : d = c := Option.some.inj hc
          exact hd
      | cons w l =>
          rw [saveList, htext] at hc
          obtain rfl : d = c := Option.some.inj hc
          exact hd
          exact List.cons_ne_nil _ _

end

def AllBlank (indent : Bytes) : Prop := ∀ c ∈ indent, isBlank c

theorem AllBlank.deeper {indent : Bytes} (h : AllBlank indent) : AllBlank (indent ++ [32, 32]) := by
  intro c hc
  rcases List.mem_append.mp hc with hc | hc
  · exact h c hc
  · obtain rfl : c = 32 := by simpa using hc
    decide

-- An end of line and the indent.
theorem nextToken_line {indent : Bytes} (h : AllBlank indent) :
    nextToken floatOfString (10 :: (indent ++ s)) = nextToken floatOfString s := by
  rw [nextToken_blank (by decide), nextToken_indent h]

theorem parseOption_string (hf : NotIntegers stringOfFloat) (a : Bytes) (hrest : Ends rest) :
    parseOption floatOfString (n + 1) once
      (safeString floatOfString stringOfFloat a ++ rest) = .ok (readString a, once) rest := by
  rw [parseOption, readString]
  rcases nextToken_safeString floatOfString hf a hrest with
    ⟨i, hi, htoken⟩ | ⟨hnone, htoken | htoken⟩
  · rw [htoken, hi]
    rfl
  · rw [htoken, hnone]
    rfl
  · rw [htoken, hnone]
    rfl

mutual

theorem parseOption_saveValue (hf : NotIntegers stringOfFloat) : ∀ v : Value F, v.Plain →
    ∃ N, ∀ n, N ≤ n → ∀ indent once rest, AllBlank indent → Ends rest →
      parseOption floatOfString n once
        (saveValue floatOfString stringOfFloat printFloat saveOnce indent v ++ rest) =
          outcome v.numbered v.read once rest
  | .string a, _ => by
      refine ⟨1, fun n hn indent once rest _ hrest => ?_⟩
      obtain ⟨n, rfl⟩ := Nat.exists_eq_add_of_le' hn
      exact parseOption_string hf a hrest
  | .int i, _ => by
      refine ⟨1, fun n hn indent once rest _ hrest => ?_⟩
      obtain ⟨n, rfl⟩ := Nat.exists_eq_add_of_le' hn
      rw [parseOption, saveValue, nextToken_int i hrest]
      rfl
  | .list l, h => by
      obtain ⟨N, hN⟩ := parseList_saveListNl hf l h
      refine ⟨N + 1, fun n hn indent once rest hindent _ => ?_⟩
      obtain ⟨n, rfl⟩ := Nat.exists_eq_add_of_le' (Nat.le_of_add_left_le hn)
      have hlist := hN n (by omega) _ once [] rest hindent.deeper
      rw [parseOption, saveValue, List.cons_append, List.append_assoc, nextToken_kwd (by simp)]
      show ((parseList floatOfString n once [] (_ ++ chr ']' :: rest)).required.bind
        fun l s => Res.ok (Value.list l.1, l.2) s) = _
      rw [hlist, Value.numbered, Value.read]
      cases numberedList l <;> rfl
  | .smallList l, h => by
      obtain ⟨N, hN⟩ := parseList_saveList hf l h
      refine ⟨N + 1, fun n hn indent once rest hindent _ => ?_⟩
      obtain ⟨n, rfl⟩ := Nat.exists_eq_add_of_le' (Nat.le_of_add_left_le hn)
      have hlist := hN n (by omega) _ once [] rest hindent.deeper
      rw [parseOption, saveValue, List.cons_append, List.append_assoc, List.singleton_append,
        nextToken_paren (head_saveList floatOfString printFloat saveOnce hf _ h)]
      show ((parseList floatOfString n once [] (_ ++ chr ')' :: rest)).required.bind
        fun l s => Res.ok (Value.list l.1, l.2) s) = _
      rw [hlist, Value.numbered, Value.read]
      cases numberedList l <;> rfl
  | .module m, h => by
      obtain ⟨N, hN⟩ := parseGwmlrc_saveModuleFields hf m h
      refine ⟨N + 1, fun n hn indent once rest hindent _ => ?_⟩
      obtain ⟨n, rfl⟩ := Nat.exists_eq_add_of_le' (Nat.le_of_add_left_le hn)
      have hfields := hN n (by omega) _ once rest _ hindent.deeper rfl
      rw [parseOption, saveValue, List.cons_append, List.append_assoc, nextToken_kwd (by simp)]
      exact hfields.expect

theorem parseList_saveListNl (hf : NotIntegers stringOfFloat) : ∀ l : List (Value F), plainList l →
    ∃ N, ∀ n, N ≤ n → ∀ indent once list rest, AllBlank indent →
      parseList floatOfString n once list
        (saveListNl floatOfString stringOfFloat printFloat saveOnce indent l ++ chr ']' :: rest) =
          outcome (numberedList l) (list.reverse ++ readList l) once rest
  | [], _ => by
      refine ⟨2, fun n hn indent once list rest _ => ?_⟩
      obtain ⟨n, rfl⟩ := Nat.exists_eq_add_of_le' hn
      rw [saveListNl, List.nil_append, parseList_end (.inl rfl), readList, List.append_nil]
      rfl
  | [v], h => by
      obtain ⟨N, hN⟩ := parseOption_saveValue hf v h.1
      refine ⟨N + 3, fun n hn indent once list rest hindent => ?_⟩
      obtain ⟨n, rfl⟩ := Nat.exists_eq_add_of_le' (Nat.le_of_add_left_le hn)
      have hv := hN (n + 2) (by omega) indent once (chr ']' :: rest) hindent (by simp [Ends])
      rw [saveListNl, List.cons_append, List.append_assoc,
        parseList_congr (nextToken_line hindent)]
      exact parseList_last (.inl rfl) hv
  | v :: w :: l, h => by
      obtain ⟨N, hN⟩ := parseOption_saveValue hf v h.1
      obtain ⟨M, hM⟩ := parseList_saveListNl hf (w :: l) h.2
      refine ⟨N + M + 3, fun n hn indent once list rest hindent => ?_⟩
      obtain ⟨n, rfl⟩ := Nat.exists_eq_add_of_le' (Nat.le_of_add_left_le hn)
      have hv := hN (n + 2) (by omega) indent once (chr ';' ::
        (saveListNl floatOfString stringOfFloat printFloat saveOnce indent (w :: l) ++
          chr ']' :: rest)) hindent (by simp [Ends])
      have hl := hM (n + 1) (by omega) indent once (v.read :: list) rest hindent
      rw [saveListNl, List.cons_append, List.append_assoc, List.append_assoc, List.cons_append,
        parseList_congr (nextToken_line hindent)]
      · exact parseList_next (.inl rfl) hv hl
      · exact List.cons_ne_nil _ _

theorem parseList_saveList (hf : NotIntegers stringOfFloat) : ∀ l : List (Value F), plainList l →
    ∃ N, ∀ n, N ≤ n → ∀ indent once list rest, AllBlank indent →
      parseList floatOfString n once list
        (saveList floatOfString stringOfFloat printFloat saveOnce indent l ++ chr ')' :: rest) =
          outcome (numberedList l) (list.reverse ++ readList l) once rest
  | [], _ => by
      refine ⟨2, fun n hn indent once list rest _ => ?_⟩
      obtain ⟨n, rfl⟩ := Nat.exists_eq_add_of_le' hn
      rw [saveList, List.nil_append, parseList_end (.inr rfl), readList, List.append_nil]
      rfl
  | [v], h => by
      obtain ⟨N, hN⟩ := parseOption_saveValue hf v h.1
      refine ⟨N + 3, fun n hn indent once list rest hindent => ?_⟩
      obtain ⟨n, rfl⟩ := Nat.exists_eq_add_of_le' (Nat.le_of_add_left_le hn)
      have hv := hN (n + 2) (by omega) indent once (chr ')' :: rest) hindent (by simp [Ends])
      rw [saveList]
      exact parseList_last (.inr rfl) hv
  | v :: w :: l, h => by
      obtain ⟨N, hN⟩ := parseOption_saveValue hf v h.1
      obtain ⟨M, hM⟩ := parseList_saveList hf (w :: l) h.2
      refine ⟨N + M + 3, fun n hn indent once list rest hindent => ?_⟩
      obtain ⟨n, rfl⟩ := Nat.exists_eq_add_of_le' (Nat.le_of_add_left_le hn)
      have hv := hN (n + 2) (by omega) indent once (chr ',' :: 32 ::
        (saveList floatOfString stringOfFloat printFloat saveOnce indent (w :: l) ++
          chr ')' :: rest)) hindent (by simp [Ends])
      have hl := hM (n + 1) (by omega) indent once (v.read :: list) rest hindent
      rw [saveList, List.append_assoc, List.cons_append, List.cons_append]
      · exact parseList_next (.inr rfl) hv
          ((parseList_congr (nextToken_blank (by decide))).trans hl)
      · exact List.cons_ne_nil _ _

theorem parseGwmlrc_saveModuleFields (hf : NotIntegers stringOfFloat) :
    ∀ m : List (Bytes × Value F), plainFields m →
      ∃ N, ∀ n, N ≤ n → ∀ indent once rest s, AllBlank indent →
        nextToken floatOfString s = nextToken floatOfString
          (saveModuleFields floatOfString stringOfFloat printFloat saveOnce indent m ++
            chr '\x7d' :: rest) →
        FieldsRead floatOfString m once rest (parseGwmlrc floatOfString n once s)
  | [], _ => by
      refine ⟨1, fun n hn indent once rest s _ hs => ?_⟩
      obtain ⟨n, rfl⟩ := Nat.exists_eq_add_of_le' hn
      rw [saveModuleFields, List.nil_append, nextToken_kwd (by simp)] at hs
      refine ⟨s, ?_, hs⟩
      rw [parseGwmlrc, parseId, hs]
      rfl
  | (name, v) :: m, h => by
      obtain ⟨N, hN⟩ := parseOption_saveValue hf v h.1
      obtain ⟨M, hM⟩ := parseGwmlrc_saveModuleFields hf m h.2
      refine ⟨N + M + 1, fun n hn indent once rest s hindent hs => ?_⟩
      obtain ⟨n, rfl⟩ := Nat.exists_eq_add_of_le' (Nat.le_of_add_left_le hn)
      generalize htail : saveModuleFields floatOfString stringOfFloat printFloat saveOnce indent m ++
        chr '\x7d' :: rest = tail
      generalize hvalue : saveValue floatOfString stringOfFloat printFloat saveOnce indent v ++
        10 :: tail = value
      have htext : saveModuleFields floatOfString stringOfFloat printFloat saveOnce indent
          ((name, v) :: m) ++ chr '\x7d' :: rest =
            indent ++ (32 :: (safeString floatOfString stringOfFloat name ++
              (32 :: chr '=' :: 32 :: value))) := by
        rw [saveModuleFields, ← hvalue, ← htail]
        simp only [List.append_assoc, List.cons_append]
      rw [htext, nextToken_indent hindent, nextToken_blank (by decide)] at hs
      have hends : Ends (32 :: chr '=' :: 32 :: value) := by simp [Ends]
      rcases nextToken_safeString floatOfString hf name hends with
        ⟨i, hi, htoken⟩ | ⟨hnone, htoken⟩
      · have hbad : numberedFields ((name, v) :: m) = true := by
          rw [numberedFields, hi]
          rfl
        rw [FieldsRead, if_pos hbad]
        refine .inr ⟨([], once), s, i, _, ?_, hs.trans htoken⟩
        rw [parseGwmlrc, parseId, hs, htoken]
        rfl
      · have hid : parseId floatOfString s =
            .ok (name.map garbled) (32 :: chr '=' :: 32 :: value) := by
          rw [parseId, hs]
          rcases htoken with htoken | htoken <;> rw [htoken] <;> rfl
        have hequal : nextToken floatOfString (32 :: chr '=' :: 32 :: value) =
            .ok (some (.kwd [chr '='])) (32 :: value) :=
          (nextToken_blank (by decide)).trans nextToken_equal
        have hv := hN n (by omega) indent once (10 :: tail) hindent (by simp [Ends])
        rw [hvalue] at hv
        rw [parseGwmlrc, hid]
        show FieldsRead floatOfString _ once rest (Options.expect _ _ _ _)
        rw [Options.expect, hequal]
        show FieldsRead floatOfString _ once rest
          ((parseOption floatOfString n once (32 :: value)).required.bind _)
        rw [parseOption_congr (nextToken_blank (by decide)), hv]
        cases hbad : v.numbered with
        | false =>
            exact (hM n (by omega) indent once rest (10 :: tail) hindent
              (by rw [htail, nextToken_blank (by decide)])).cons hnone hbad
        | true =>
            rw [FieldsRead, if_pos (by rw [numberedFields, hnone, hbad]; rfl)]
            exact .inl rfl

end

def Value.Kept (v : Value F) : Prop := v.numbered = false ∧ v.NoBackspace

-- A saved value is read back just when none of its strings and names has a backspace, and
-- none of its names is a number.
theorem parse_option_save_value (hf : NotIntegers stringOfFloat)
    (printFloat : F → Bytes) (saveOnce : Bytes → Value F → Bytes) {v : Value F} (hv : v.Plain) :
    ∃ N, ∀ n, N ≤ n → ∀ indent once rest, AllBlank indent → Ends rest →
      ((∃ w, parseOption floatOfString n once
          (saveValue floatOfString stringOfFloat printFloat saveOnce indent v ++ rest) =
            .ok (w, once) rest ∧ w.shape = v.shape) ↔ v.Kept) := by
  obtain ⟨N, hN⟩ := @parseOption_saveValue F floatOfString stringOfFloat printFloat saveOnce hf v hv
  refine ⟨N, fun n hn indent once rest hindent hrest => ?_⟩
  rw [hN n hn indent once rest hindent hrest, Value.Kept, ← shape_read v hv, outcome]
  cases v.numbered with
  | false =>
      constructor
      · rintro ⟨w, hw, hshape⟩
        cases hw
        exact ⟨rfl, hshape⟩
      · exact fun h => ⟨v.read, rfl, h.2⟩
  | true =>
      constructor
      · rintro ⟨w, hw, -⟩
        cases hw
      · exact fun h => absurd h.1 (by decide)

-- A module with a number, a string that needs quotes and a list.
def exampleModule : Value Unit :=
  .module [(ofString "port", .int 4662), (ofString "client name", .string (ofString "a\"b")),
    (ofString "ips", .list [.string (ofString "12"), .smallList [.string []]])]

theorem int64OfString_zero : int64OfString (ofString "0.") = none := by decide

-- Of the floats there is only zero here.
theorem parse_option_save_value_module : ∃ N, ∀ n, N ≤ n → ∃ w,
    parseOption (fun s => if s = ofString "0." then some () else none) n []
      (saveValue (fun s => if s = ofString "0." then some () else none) (fun _ => ofString "0.")
        (fun _ => ofString "0.") (fun _ _ => []) [] exampleModule ++ []) = .ok (w, []) [] ∧
      w.shape = exampleModule.shape := by
  have hplain : exampleModule.Plain := by
    simp [exampleModule, Value.Plain, plainFields, plainList]
  have hkept : exampleModule.Kept := by
    refine ⟨by decide, ?_⟩
    rw [exampleModule]
    simp only [Value.NoBackspace, noBackspaceFields, noBackspaceList]
    decide
  have hf : NotIntegers fun _ : Unit => ofString "0." :=
    fun _ => int64OfString_zero
  obtain ⟨N, hN⟩ := @parse_option_save_value Unit
    (fun s => if s = ofString "0." then some () else none) (fun _ => ofString "0.") hf
    (fun _ => ofString "0.") (fun _ _ => []) _ hplain
  exact ⟨N, fun n hn => (hN n hn [] [] [] (fun _ h => absurd h List.not_mem_nil) trivial).mpr hkept⟩

-- The name of a field is a number, which parse_id does not take.
theorem parse_option_save_value_false : ¬ ∀ v : Value Unit, v.Plain → ∃ N, ∀ n, N ≤ n → ∃ w,
    parseOption (fun _ => none) n [] (saveValue (fun _ => none) (fun _ => ofString "0.")
      (fun _ => ofString "0.") (fun _ _ => []) [] v ++ []) = .ok (w, []) [] ∧
      w.shape = v.shape := by
  intro hall
  have hplain : (Value.module [(ofString "1", .string (ofString "a"))] : Value Unit).Plain := by
    simp [Value.Plain, plainFields]
  obtain ⟨N, hN⟩ := hall _ hplain
  obtain ⟨M, hM⟩ := @parseOption_saveValue Unit (fun _ => none) (fun _ => ofString "0.")
    (fun _ => ofString "0.") (fun _ _ => []) (fun _ => int64OfString_zero) _ hplain
  obtain ⟨w, hw, -⟩ := hN (N + M) (Nat.le_add_right _ _)
  have hindent : AllBlank [] := fun _ h => absurd h List.not_mem_nil
  rw [hM (N + M) (Nat.le_add_left _ _) [] [] [] hindent trivial] at hw
  have hbad : (Value.module [(ofString "1", .string (ofString "a"))] : Value Unit).numbered =
      true := by decide
  rw [outcome, if_pos hbad] at hw
  cases hw

end Mldonkey.Options
