import Mldonkey.Gui.Query
import Mldonkey.Bencode.Codec
import Mldonkey.Indexing.Meaning

-- The search form of the user interfaces, and the query that is built from it.
namespace Mldonkey.Indexing

open Gui (QueryEntry Bytes)
open Bencode (ofString int64OfString)

-- String2.split
def split (c : UInt8) : Bytes → List Bytes
  | [] => [[]]
  | x :: s =>
      if x = c then [] :: split c s
      else
        match split c s with
        | [] => [[x]]
        | w :: ws => (x :: w) :: ws

-- String2.split_simplify
def splitSimplify (s : Bytes) (c : UInt8) : List Bytes := (split c s).filter (· ≠ [])

-- String.lowercase, in Latin-1
def lowercase (c : UInt8) : UInt8 :=
  if 65 ≤ c ∧ c ≤ 90 ∨ 192 ≤ c ∧ c ≤ 214 ∨ 216 ≤ c ∧ c ≤ 222 then c + 32 else c

-- String2.stem: the runs of letters and digits
def stem (s : Bytes) : List Bytes :=
  splitSimplify ((s.map lowercase).map fun c =>
    if 97 ≤ c ∧ c ≤ 122 ∨ 48 ≤ c ∧ c ≤ 57 then c else 32) 32

def negated (w : Bytes) : Bool := 1 < w.length && w.head? == some 45

def joinWord (s w : Bytes) : Bytes := if s = [] then w else s ++ 32 :: w

-- none stands for Not_found
def wantAndNot (andnot : Query → Query → Query) (f : Bytes → Query)
    (nothing : Query) (value : Bytes) : Option Query :=
  let ws := splitSimplify value 32
  if ws = [] then none
  else
    let (wanted, notWanted) := ws.foldl (fun (wanted, notWanted) w =>
      if negated w then (wanted, joinWord notWanted w.tail)
      else (joinWord wanted w, notWanted)) ([], [])
    let wanted := if wanted ≠ [] then f wanted else nothing
    some (if notWanted = [] then wanted else andnot wanted (f notWanted))

def wantCombNot (andnot comb : Query → Query → Query) (f : Bytes → Query)
    (nothing : Query) (value : Bytes) : Query :=
  let ws := splitSimplify value 32
  let (wanted, notWanted) := ws.foldl (fun (wanted, notWanted) w =>
    if negated w then (wanted, w.tail :: notWanted) else (w :: wanted, notWanted)) ([], [])
  let wanted :=
    match wanted with
    | [] => nothing
    | w :: tail => tail.foldl (fun q w => comb q (f w)) (f w)
  match notWanted with
  | [] => wanted
  | w :: tail => andnot wanted (tail.foldl (fun q w => comb q (f w)) (f w))

def searchMediaList : List (Bytes × Bytes) :=
  [(ofString "Program", ofString "Pro"), (ofString "Documentation", ofString "Doc"),
    (ofString "Collection", ofString "Col")]

def numberOr (node : ℤ → Query) (s : Bytes) : Query :=
  match int64OfString s with
  | some v => node v.toInt
  | none => .none

def mediaQuery (s : Bytes) : Query :=
  match searchMediaList.lookup s with
  | some media => .hasField .type media
  | none => if splitSimplify s 32 = [] then .none else .hasField .type s

mutual

-- none stands for assert false
def mftpQueryOfQueryEntry : QueryEntry → Option Query
  | .qAnd [] => some .none
  | .qAnd [_] => some .none
  | .qCombo _ _ _ => none
  | .qAnd (h :: q) => do return (← mftpQueries q).foldl .and (← mftpQueryOfQueryEntry h)
  | .qOr [_] => some .none
  | .qOr [] => some .none
  | .qOr (h :: q) => do return (← mftpQueries q).foldl .or (← mftpQueryOfQueryEntry h)
  | .qAndnot q1 q2 => do return .andNot (← mftpQueryOfQueryEntry q1) (← mftpQueryOfQueryEntry q2)
  | .qModule _ q => mftpQueryOfQueryEntry q
  | .qKeywords _ s => some ((wantAndNot .andNot .hasWord .none s).getD .none)
  | .qMinsize _ s => some (numberOr (.hasMinVal .size) s)
  | .qMaxsize _ s => some (numberOr (.hasMaxVal .size) s)
  | .qFormat _ s => some (wantCombNot .andNot .or (.hasField .format) .none s)
  | .qMedia _ s => some (mediaQuery s)
  | .qMp3Artist _ s => some (wantCombNot .andNot .and (.hasField .artist) .none s)
  | .qMp3Title _ s => some (wantCombNot .andNot .and (.hasField .title) .none s)
  | .qMp3Album _ s => some (wantCombNot .andNot .and (.hasField .album) .none s)
  | .qMp3Bitrate _ s => some (numberOr (.hasMinVal (.known (ofString "bitrate"))) s)
  | .qHidden [q] => mftpQueryOfQueryEntry q
  | .qHidden [] => some .none
  | .qHidden (h :: q) => do return (← mftpQueries q).foldl .and (← mftpQueryOfQueryEntry h)

def mftpQueries : List QueryEntry → Option (List Query)
  | [] => some []
  | h :: q => do return (← mftpQueryOfQueryEntry h) :: (← mftpQueries q)

end

-- What a form asks for. The words of a field are the plain ones and those with a
-- leading '-'.
section Asked

def plain (s : Bytes) : List Bytes := (splitSimplify s 32).filter fun w => !negated w

def unwanted (s : Bytes) : List Bytes := ((splitSimplify s 32).filter negated).map List.tail

-- A document: the words that it has been indexed under, and its fields. What is
-- answered to a word without letters or digits is left open.
structure Indexed where
  words : Bytes → Bool
  other : Bytes → Bool
  hasField : Field → Bytes → Bool
  hasMinVal : Field → ℤ → Bool
  hasMaxVal : Field → ℤ → Bool

-- has_word asks for all the stems of a word
def Indexed.document (d : Indexed) : Query.Document where
  hasWord s := if stem s = [] then d.other s else (stem s).all d.words
  hasField := d.hasField
  hasMinVal := d.hasMinVal
  hasMaxVal := d.hasMaxVal

-- All the plain words and none of the others; `none` is no constraint
def allWords (has : Bytes → Bool) (s : Bytes) : Option Bool :=
  if splitSimplify s 32 = [] then none
  else some ((plain s).all has && (unwanted s).all fun w => !has w)

def oneWord (has : Bytes → Bool) (s : Bytes) : Option Bool :=
  if splitSimplify s 32 = [] then none
  else some ((plain s = [] || (plain s).any has) && (unwanted s).all fun w => !has w)

def bound (has : ℤ → Bool) (s : Bytes) : Option Bool := (int64OfString s).map fun v => has v.toInt

def media (has : Bytes → Bool) (s : Bytes) : Option Bool :=
  match searchMediaList.lookup s with
  | some media => some (has media)
  | none => if splitSimplify s 32 = [] then none else some (has s)

-- The first and not the second, where each may be no constraint
def butNot : Option Bool → Option Bool → Option Bool
  | a, none => a
  | none, some b => some !b
  | some a, some b => some (a && !b)

-- The answers of the members that are constraints, put together
def together (op : Bool → Bool → Bool) (answers : List (Option Bool)) : Option Bool :=
  answers.foldl (Option.merge op) none

variable (d : Indexed)

mutual

def asked : QueryEntry → Option Bool
  | .qAnd l | .qHidden l => together (· && ·) (askedAll l)
  | .qOr l => together (· || ·) (askedAll l)
  | .qAndnot q1 q2 => butNot (asked q1) (asked q2)
  | .qModule _ q => asked q
  | .qKeywords _ s => allWords (fun w => (stem w).all d.words) s
  | .qMinsize _ s => bound (d.hasMinVal .size) s
  | .qMaxsize _ s => bound (d.hasMaxVal .size) s
  | .qFormat _ s => oneWord (d.hasField .format) s
  | .qMedia _ s => media (d.hasField .type) s
  | .qMp3Artist _ s => allWords (d.hasField .artist) s
  | .qMp3Title _ s => allWords (d.hasField .title) s
  | .qMp3Album _ s => allWords (d.hasField .album) s
  | .qMp3Bitrate _ s => bound (d.hasMinVal (.known (ofString "bitrate"))) s
  | .qCombo _ _ _ => none

def askedAll : List QueryEntry → List (Option Bool)
  | [] => []
  | h :: q => asked h :: askedAll q

end

end Asked

end Mldonkey.Indexing
