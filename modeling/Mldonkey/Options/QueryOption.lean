import Mldonkey.Gui.Query
import Mldonkey.Options.RoundTrip

-- Search forms as values of the option file searches.ini.
namespace Mldonkey.Options

open Bencode (Bytes chr ofString printInt)
open Gui (QueryEntry)

namespace QueryOption

variable {F : Type}

-- A keyword, a label and a text
def fieldValue (keyword : String) (label s : Bytes) : Value F :=
  .smallList [.string (ofString keyword), .string label, .string s]

mutual

-- none stands for assert false
def queryToValue : QueryEntry → Option (Value F)
  | .qAnd list => do return .list (.string (ofString "AND") :: (← queriesToValues list))
  | .qOr list => do return .list (.string (ofString "OR") :: (← queriesToValues list))
  | .qHidden list => do return .list (.string (ofString "HIDDEN") :: (← queriesToValues list))
  | .qAndnot q1 q2 => do
      return .smallList [.string (ofString "ANDNOT"), ← queryToValue q1, ← queryToValue q2]
  | .qModule s q => do
      return .smallList [.string (ofString "MODULE"), .string s, ← queryToValue q]
  | .qKeywords label s => some (fieldValue "KEYWORDS" label s)
  | .qMinsize label s => some (fieldValue "MINSIZE" label s)
  | .qMaxsize label s => some (fieldValue "MAXSIZE" label s)
  | .qFormat label s => some (fieldValue "FORMAT" label s)
  | .qMedia label s => some (fieldValue "MEDIA" label s)
  | .qMp3Artist label s => some (fieldValue "MP3_ARTIST" label s)
  | .qMp3Title label s => some (fieldValue "MP3_TITLE" label s)
  | .qMp3Album label s => some (fieldValue "MP3_ALBUM" label s)
  | .qMp3Bitrate label s => some (fieldValue "MP3_BITRATE" label s)
  | .qCombo _ _ _ => none

def queriesToValues : List QueryEntry → Option (List (Value F))
  | [] => some []
  | q :: list => do return (← queryToValue q) :: (← queriesToValues list)

end

-- The constructors of a label and a text
def fields : List (Bytes × (Bytes → Bytes → QueryEntry)) :=
  [(ofString "KEYWORDS", .qKeywords), (ofString "MINSIZE", .qMinsize),
    (ofString "MAXSIZE", .qMaxsize), (ofString "FORMAT", .qFormat), (ofString "MEDIA", .qMedia),
    (ofString "MP3_ARTIST", .qMp3Artist), (ofString "MP3_TITLE", .qMp3Title),
    (ofString "MP3_ALBUM", .qMp3Album), (ofString "MP3_BITRATE", .qMp3Bitrate)]

-- Those whose text may also be an integer
def numberFields : List (Bytes × (Bytes → Bytes → QueryEntry)) :=
  [(ofString "MINSIZE", .qMinsize), (ofString "MAXSIZE", .qMaxsize),
    (ofString "MP3_BITRATE", .qMp3Bitrate)]

mutual

-- none stands for failwith
def valueToQuery : Value F → Option QueryEntry
  | .smallList l | .list l => entryToQuery l
  | _ => none

def entryToQuery : List (Value F) → Option QueryEntry
  | .string k :: list =>
      if k = ofString "AND" then .qAnd <$> valuesToQueries list
      else if k = ofString "OR" then .qOr <$> valuesToQueries list
      else if k = ofString "HIDDEN" then .qHidden <$> valuesToQueries list
      else if k = ofString "ANDNOT" then
        match list with
        | [v1, v2] => do return .qAndnot (← valueToQuery v1) (← valueToQuery v2)
        | _ => none
      else if k = ofString "MODULE" then
        match list with
        | [.string label, v2] => .qModule label <$> valueToQuery v2
        | _ => none
      else
        match list with
        | [.string label, .string s] => (fields.lookup k).map fun make => make label s
        | [.string label, .int i] => (numberFields.lookup k).map fun make => make label (printInt i)
        | _ => none
  | _ => none

def valuesToQueries : List (Value F) → Option (List QueryEntry)
  | [] => some []
  | v :: list => do return (← valueToQuery v) :: (← valuesToQueries list)

end

-- A text that is read as the string it was.
def Readable (s : Bytes) : Prop := canonical s = none ∧ 8 ∉ s

mutual

-- The forms of which each label and each text comes back, where a text of a size or a
-- bitrate may also come back as an integer.
def Kept : QueryEntry → Prop
  | .qAnd list | .qOr list | .qHidden list => allKept list
  | .qAndnot q1 q2 => Kept q1 ∧ Kept q2
  | .qModule s q => Readable s ∧ Kept q
  | .qMinsize label s | .qMaxsize label s | .qMp3Bitrate label s => Readable label ∧ 8 ∉ s
  | .qKeywords label s | .qFormat label s | .qMedia label s | .qMp3Artist label s
  | .qMp3Title label s | .qMp3Album label s => Readable label ∧ Readable s
  | .qCombo _ _ _ => False

def allKept : List QueryEntry → Prop
  | [] => True
  | q :: list => Kept q ∧ allKept list

end

theorem readString_cases (s : Bytes) :
    (∃ i, canonical s = some i ∧ (readString s : Value F) = .int i) ∨
      canonical s = none ∧ (readString s : Value F) = .string (s.map garbled) := by
  rw [readString]
  cases hi : canonical s with
  | none => exact .inr ⟨rfl, rfl⟩
  | some i => exact .inl ⟨i, rfl, rfl⟩

theorem readString_readable {s : Bytes} (h : Readable s) : (readString s : Value F) = .string s := by
  rw [readString, h.1, (map_garbled s).mpr h.2]

theorem no_backspace_of_canonical {s : Bytes} {i : Int64} (h : canonical s = some i) : 8 ∉ s := by
  intro hmem
  rw [← canonical_eq h] at hmem
  exact absurd (mem_printInt hmem) (by decide)

-- What is read for an entry of a keyword
theorem read_entry {keyword : Bytes} (hk : Readable keyword) (list : List (Value F)) :
    readList (.string keyword :: list) = .string keyword :: readList list := by
  rw [readList, Value.read, readString_readable hk]

-- A field whose keyword is none of the others
theorem entryToQuery_field {k : Bytes} (hk : k ∉ [ofString "AND", ofString "OR",
    ofString "HIDDEN", ofString "ANDNOT", ofString "MODULE"]) (v1 v2 : Value F) :
    entryToQuery [.string k, v1, v2] =
      match v1, v2 with
      | .string label, .string s => (fields.lookup k).map fun make => make label s
      | .string label, .int i =>
          (numberFields.lookup k).map fun make => make label (printInt i)
      | _, _ => none := by
  simp only [List.mem_cons, List.not_mem_nil, or_false, not_or] at hk
  obtain ⟨h1, h2, h3, h4, h5⟩ := hk
  rw [entryToQuery, if_neg h1, if_neg h2, if_neg h3, if_neg h4, if_neg h5]
  cases v1 <;> cases v2 <;> rfl

-- A keyword, the constructor that belongs to it, and whether its text may be an integer
structure Field (keyword : String) (make : Bytes → Bytes → QueryEntry) (numeric : Bool) : Prop where
  readable : Readable (ofString keyword)
  other : ofString keyword ∉ [ofString "AND", ofString "OR", ofString "HIDDEN",
    ofString "ANDNOT", ofString "MODULE"]
  lookup : fields.lookup (ofString keyword) = some make
  number : numberFields.lookup (ofString keyword) = if numeric then some make else none
  inj : ∀ {a b c d}, make a b = make c d ↔ a = c ∧ b = d

section Fields

variable {keyword : String} {make : Bytes → Bytes → QueryEntry} {numeric : Bool}

theorem Field.read_iff (h : Field keyword make numeric) (label s : Bytes) :
    valueToQuery (fieldValue keyword label s : Value F).read = some (make label s) ↔
      Readable label ∧ 8 ∉ s ∧ (numeric = false → canonical s = none) := by
  have hread : valueToQuery (fieldValue keyword label s : Value F).read =
      entryToQuery [(.string (ofString keyword) : Value F), readString label, readString s] := by
    rw [fieldValue, Value.read, valueToQuery, read_entry h.readable]
    rfl
  rw [hread, entryToQuery_field h.other, Readable]
  rcases @readString_cases F label with ⟨i, hi, hlabel⟩ | ⟨hlabel', hlabel⟩
  · rw [hlabel, hi]
    exact iff_of_false (fun heq => by cases heq) fun hno => by cases hno.1.1
  rw [hlabel]
  rcases @readString_cases F s with ⟨i, hi, hs⟩ | ⟨hs', hs⟩
  · -- the text is read as an integer, which is written as the text again
    simp only [hs, h.number, hi, reduceCtorEq, imp_false, Bool.not_eq_false]
    cases numeric with
    | false => exact iff_of_false (fun heq => by cases heq) fun hno => by cases hno.2.2
    | true =>
      have h8 := no_backspace_of_canonical hi
      rw [if_pos rfl, Option.map_some, Option.some.injEq, h.inj, map_garbled, canonical_eq hi]
      tauto
  · simp only [hs, h.lookup, Option.map_some, Option.some.injEq, h.inj, map_garbled]
    tauto

theorem readable_keyword : ∀ k ∈ ["AND", "OR", "HIDDEN", "ANDNOT", "MODULE", "KEYWORDS", "MINSIZE",
    "MAXSIZE", "FORMAT", "MEDIA", "MP3_ARTIST", "MP3_TITLE", "MP3_ALBUM", "MP3_BITRATE"],
    canonical (ofString k) = none ∧ 8 ∉ ofString k := by
  decide

-- What a field with a text comes back as, read after it has been written.
def Comes (F : Type) (q : QueryEntry) : Prop :=
  ∀ v : Value F, queryToValue q = some v →
    v.Plain ∧ v.numbered = false ∧ (valueToQuery v.read = some q ↔ Kept q)

theorem Field.text (h : Field keyword make false) {label s : Bytes}
    (hvalue : queryToValue (make label s) = some (fieldValue keyword label s : Value F))
    (hkept : Kept (make label s) ↔ Readable label ∧ Readable s) : Comes F (make label s) := by
  intro v hv
  obtain rfl := Option.some.inj (hvalue.symm.trans hv)
  refine ⟨⟨trivial, trivial, trivial, trivial⟩, rfl, ?_⟩
  rw [h.read_iff, hkept, Readable, Readable]
  tauto

theorem Field.number_text (h : Field keyword make true) {label s : Bytes}
    (hvalue : queryToValue (make label s) = some (fieldValue keyword label s : Value F))
    (hkept : Kept (make label s) ↔ Readable label ∧ 8 ∉ s) : Comes F (make label s) := by
  intro v hv
  obtain rfl := Option.some.inj (hvalue.symm.trans hv)
  refine ⟨⟨trivial, trivial, trivial, trivial⟩, rfl, ?_⟩
  rw [h.read_iff, hkept]
  tauto

end Fields

def ComesAll (F : Type) (list : List QueryEntry) : Prop :=
  ∀ l : List (Value F), queriesToValues list = some l →
    plainList l ∧ numberedList l = false ∧
      (valuesToQueries (readList l) = some list ↔ allKept list)

-- A keyword in front of any number of forms
theorem ComesAll.entry {list : List QueryEntry} (h : ComesAll F list) {k : Bytes}
    {make : List QueryEntry → QueryEntry} (hk : Readable k)
    (hwrite : queryToValue (make list) =
      (queriesToValues list).map fun l => (.list (.string k :: l) : Value F))
    (hread : ∀ l : List (Value F), entryToQuery (.string k :: l) = make <$> valuesToQueries l)
    (hinj : ∀ {a b}, make a = make b ↔ a = b) (hkept : Kept (make list) ↔ allKept list) :
    Comes F (make list) := by
  intro v hv
  rw [hwrite] at hv
  obtain ⟨l, hl, rfl⟩ := Option.map_eq_some_iff.mp hv
  obtain ⟨hplain, hnumbered, hiff⟩ := h l hl
  refine ⟨⟨trivial, hplain⟩, hnumbered, ?_⟩
  rw [Value.read, valueToQuery, read_entry hk, hread, hkept, ← hiff, Option.map_eq_map,
    Option.map_eq_some_iff]
  simp only [hinj, exists_eq_right]

theorem Comes.andnot {q1 q2 : QueryEntry} (h1 : Comes F q1) (h2 : Comes F q2) :
    Comes F (.qAndnot q1 q2) := by
  intro v hv
  simp only [queryToValue, Option.bind_eq_bind, Option.bind_eq_some_iff, Option.pure_def,
    Option.some.injEq] at hv
  obtain ⟨v1, hv1, v2, hv2, rfl⟩ := hv
  obtain ⟨hplain1, hnumbered1, hiff1⟩ := h1 v1 hv1
  obtain ⟨hplain2, hnumbered2, hiff2⟩ := h2 v2 hv2
  refine ⟨⟨trivial, hplain1, hplain2, trivial⟩, ?_, ?_⟩
  · simp only [Value.numbered, numberedList, hnumbered1, hnumbered2, Bool.or_false]
  · rw [Value.read, valueToQuery, read_entry (readable_keyword _ (by simp)), readList, readList,
      readList, entryToQuery, if_neg (by decide), if_neg (by decide), if_neg (by decide),
      if_pos rfl, Kept, ← hiff1, ← hiff2]
    cases valueToQuery v1.read with
    | none => simp
    | some q1' => cases valueToQuery v2.read <;> simp

theorem Comes.module {s : Bytes} {q : QueryEntry} (h : Comes F q) : Comes F (.qModule s q) := by
  intro v hv
  simp only [queryToValue, Option.bind_eq_bind, Option.bind_eq_some_iff, Option.pure_def,
    Option.some.injEq] at hv
  obtain ⟨v2, hv2, rfl⟩ := hv
  obtain ⟨hplain, hnumbered, hiff⟩ := h v2 hv2
  refine ⟨⟨trivial, trivial, hplain, trivial⟩, ?_, ?_⟩
  · simp only [Value.numbered, numberedList, hnumbered, Bool.or_false]
  · rw [Value.read, valueToQuery, read_entry (readable_keyword _ (by simp)), readList, readList,
      readList, Value.read, entryToQuery, if_neg (by decide), if_neg (by decide),
      if_neg (by decide), if_neg (by decide), if_pos rfl, Kept, ← hiff, Readable]
    rcases @readString_cases F s with ⟨i, hi, hs⟩ | ⟨hnone, hs⟩
    · rw [hs, hi]
      exact iff_of_false (fun heq => by cases heq) fun hno => by cases hno.1.1
    · rw [hs, ← map_garbled]
      cases hq : valueToQuery v2.read <;> simp [hq, hnone, and_comm]

-- A form comes back just when it is kept, by the structure of forms and lists of forms.
mutual

theorem comes : ∀ q : QueryEntry, Comes F q
  | .qAnd list => (comesAll list).entry (readable_keyword "AND" (by simp))
      (by rw [queryToValue]; cases queriesToValues list <;> rfl) (fun _ => rfl)
      (by simp) (by rw [Kept])
  | .qOr list => (comesAll list).entry (readable_keyword "OR" (by simp))
      (by rw [queryToValue]; cases queriesToValues list <;> rfl) (fun _ => rfl)
      (by simp) (by rw [Kept])
  | .qHidden list => (comesAll list).entry (readable_keyword "HIDDEN" (by simp))
      (by rw [queryToValue]; cases queriesToValues list <;> rfl) (fun _ => rfl)
      (by simp) (by rw [Kept])
  | .qAndnot q1 q2 => (comes q1).andnot (comes q2)
  | .qModule _ q => (comes q).module
  | .qKeywords _ _ => Field.text
      ⟨readable_keyword _ (by simp), by decide, rfl, rfl, by simp⟩ rfl Iff.rfl
  | .qMinsize _ _ => Field.number_text
      ⟨readable_keyword _ (by simp), by decide, rfl, rfl, by simp⟩ rfl Iff.rfl
  | .qMaxsize _ _ => Field.number_text
      ⟨readable_keyword _ (by simp), by decide, rfl, rfl, by simp⟩ rfl Iff.rfl
  | .qFormat _ _ => Field.text
      ⟨readable_keyword _ (by simp), by decide, rfl, rfl, by simp⟩ rfl Iff.rfl
  | .qMedia _ _ => Field.text
      ⟨readable_keyword _ (by simp), by decide, rfl, rfl, by simp⟩ rfl Iff.rfl
  | .qMp3Artist _ _ => Field.text
      ⟨readable_keyword _ (by simp), by decide, rfl, rfl, by simp⟩ rfl Iff.rfl
  | .qMp3Title _ _ => Field.text
      ⟨readable_keyword _ (by simp), by decide, rfl, rfl, by simp⟩ rfl Iff.rfl
  | .qMp3Album _ _ => Field.text
      ⟨readable_keyword _ (by simp), by decide, rfl, rfl, by simp⟩ rfl Iff.rfl
  | .qMp3Bitrate _ _ => Field.number_text
      ⟨readable_keyword _ (by simp), by decide, rfl, rfl, by simp⟩ rfl Iff.rfl
  | .qCombo _ _ _ => fun _ h => by cases h

theorem comesAll : ∀ list : List QueryEntry, ComesAll F list
  | [] => fun _ h => by
      obtain rfl := Option.some.inj h
      exact ⟨trivial, rfl, iff_of_true rfl trivial⟩
  | q :: list => fun _ h => by
      simp only [queriesToValues, Option.bind_eq_bind, Option.bind_eq_some_iff, Option.pure_def,
        Option.some.injEq] at h
      obtain ⟨v, hv, l, hl, rfl⟩ := h
      obtain ⟨hplain1, hnumbered1, hiff1⟩ := comes q v hv
      obtain ⟨hplain2, hnumbered2, hiff2⟩ := comesAll list l hl
      refine ⟨⟨hplain1, hplain2⟩, ?_, ?_⟩
      · rw [numberedList, hnumbered1, hnumbered2, Bool.or_false]
      · rw [readList, valuesToQueries, allKept, ← hiff1, ← hiff2]
        cases valueToQuery v.read with
        | none => simp
        | some q' => cases valuesToQueries (readList l) <;> simp

end

mutual

theorem exists_value : ∀ q : QueryEntry, Kept q → ∃ v : Value F, queryToValue q = some v
  | .qAnd list, h | .qOr list, h | .qHidden list, h => by
      obtain ⟨l, hl⟩ := @exists_values list h
      rw [queryToValue, hl]
      exact ⟨_, rfl⟩
  | .qAndnot q1 q2, h => by
      obtain ⟨v1, hv1⟩ := exists_value q1 h.1
      obtain ⟨v2, hv2⟩ := exists_value q2 h.2
      rw [queryToValue, hv1, hv2]
      exact ⟨_, rfl⟩
  | .qModule s q, h => by
      obtain ⟨v, hv⟩ := exists_value q h.2
      rw [queryToValue, hv]
      exact ⟨_, rfl⟩
  | .qKeywords _ _, _ | .qMinsize _ _, _ | .qMaxsize _ _, _ | .qFormat _ _, _ | .qMedia _ _, _
  | .qMp3Artist _ _, _ | .qMp3Title _ _, _ | .qMp3Album _ _, _ | .qMp3Bitrate _ _, _ => ⟨_, rfl⟩

theorem exists_values : ∀ list : List QueryEntry, allKept list →
    ∃ l : List (Value F), queriesToValues list = some l
  | [], _ => ⟨[], rfl⟩
  | q :: list, h => by
      obtain ⟨v, hv⟩ := exists_value q h.1
      obtain ⟨l, hl⟩ := exists_values list h.2
      rw [queriesToValues, hv, hl]
      exact ⟨_, rfl⟩

end

section Restart

variable (floatOfString : Bytes → Option F) (stringOfFloat printFloat : F → Bytes)
  (saveOnce : Bytes → Value F → Bytes)

-- The form after a save and a restart. none stands for an exception on the way.
def restart (n : Nat) (indent : Bytes) (once : List (Int64 × Value F)) (rest : Bytes)
    (q : QueryEntry) : Option QueryEntry := do
  let v ← queryToValue q
  match parseOption floatOfString n once
    (saveValue floatOfString stringOfFloat printFloat saveOnce indent v ++ rest) with
  | .ok (v, _) _ => valueToQuery v
  | _ => none

variable {floatOfString stringOfFloat printFloat saveOnce}

theorem restart_eq (hf : NotIntegers stringOfFloat) {q : QueryEntry} {v : Value F}
    (hv : queryToValue q = some v) :
    ∃ N, ∀ n, N ≤ n → ∀ indent once rest, AllBlank indent → Ends rest →
      restart floatOfString stringOfFloat printFloat saveOnce n indent once rest q =
        valueToQuery v.read := by
  obtain ⟨hplain, hnumbered, -⟩ := comes q v hv
  obtain ⟨N, hN⟩ := @parseOption_saveValue F floatOfString stringOfFloat printFloat saveOnce hf v
    hplain
  refine ⟨N, fun n hn indent once rest hindent hrest => ?_⟩
  have hparse := hN n hn indent once rest hindent hrest
  rw [outcome, hnumbered, if_neg Bool.false_ne_true] at hparse
  rw [restart, hv]
  simp only [Option.bind_eq_bind, Option.bind_some, hparse]

-- A form comes back just when its labels and texts are read as the strings that they
-- were, apart from the integers that are sizes and bitrates.
theorem query_survives_iff (floatOfString : Bytes → Option F) (hf : NotIntegers stringOfFloat)
    (printFloat : F → Bytes) (saveOnce : Bytes → Value F → Bytes) (q : QueryEntry) :
    ∃ N, ∀ n, N ≤ n → ∀ indent once rest, AllBlank indent → Ends rest →
      (restart floatOfString stringOfFloat printFloat saveOnce n indent once rest q = some q ↔
        Kept q) := by
  cases hv : (queryToValue q : Option (Value F)) with
  | none =>
    refine ⟨0, fun n _ indent once rest _ _ => iff_of_false ?_ fun hkept => ?_⟩
    · rw [restart, hv]
      exact fun h => by cases h
    · obtain ⟨v, hv'⟩ := exists_value (F := F) q hkept
      cases hv.symm.trans hv'
  | some v =>
    obtain ⟨N, hN⟩ :=
      @restart_eq F floatOfString stringOfFloat printFloat saveOnce hf q v hv
    refine ⟨N, fun n hn indent once rest hindent hrest => ?_⟩
    rw [hN n hn indent once rest hindent hrest]
    exact (comes q v hv).2.2

-- A size that looks like an integer comes back, with a nested list and an empty text.
def exampleForm : QueryEntry :=
  .qAnd [.qKeywords (ofString "keywords") [], .qModule (ofString "Simple Options")
    (.qOr [.qMinsize (ofString "Min Size") (ofString "700"), .qAnd []])]

theorem query_survives_iff_form : ∃ N, ∀ n, N ≤ n →
    restart (fun _ : Bytes => (none : Option Unit)) (fun _ => ofString "0.")
      (fun _ => ofString "0.") (fun _ _ => []) n [] [] [] exampleForm = some exampleForm := by
  have hkept : Kept exampleForm := by
    rw [exampleForm]
    simp only [Kept, allKept, Readable]
    decide
  obtain ⟨N, hN⟩ := @query_survives_iff Unit (fun _ => ofString "0.") (fun _ => none)
    (fun _ => int64OfString_zero) (fun _ => ofString "0.") (fun _ _ => []) exampleForm
  exact ⟨N, fun n hn => (hN n hn [] [] [] (fun _ h => absurd h List.not_mem_nil) trivial).mpr hkept⟩

-- The default text of keywords is a year.
theorem query_survives_false : ¬ ∀ q : QueryEntry, queryToValue q ≠ (none : Option (Value Unit)) →
    ∃ N, ∀ n, N ≤ n →
      restart (fun _ : Bytes => (none : Option Unit)) (fun _ => ofString "0.")
        (fun _ => ofString "0.") (fun _ _ => []) n [] [] [] q = some q := by
  intro hall
  obtain ⟨N, hN⟩ := hall (.qKeywords (ofString "keywords") (ofString "2008")) nofun
  obtain ⟨M, hM⟩ := @restart_eq Unit (fun _ => none) (fun _ => ofString "0.")
    (fun _ => ofString "0.") (fun _ _ => []) (fun _ => int64OfString_zero)
    (.qKeywords (ofString "keywords") (ofString "2008")) _ rfl
  have hback := hN (N + M) (Nat.le_add_right _ _)
  rw [hM (N + M) (Nat.le_add_left _ _) [] [] [] (fun _ h => absurd h List.not_mem_nil) trivial]
    at hback
  cases hback

end Restart

end QueryOption

end Mldonkey.Options
