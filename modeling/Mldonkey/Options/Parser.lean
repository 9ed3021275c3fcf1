import Mldonkey.Bencode.Codec

-- The lexer of Genlex2, with the keywords of Options.
namespace Mldonkey.Options

open Bencode (Bytes chr ofString isDigit int64OfString)

inductive Token (F : Type)
  | kwd (s : Bytes)
  | ident (s : Bytes)
  | int (i : Int64)
  | float (f : F)
  | string (s : Bytes)
  | char (c : UInt8)
  deriving DecidableEq

-- A read from a stream, which raises Stream.Failure or another exception instead.
inductive Res (α : Type)
  | ok (a : α) (rest : Bytes)
  | failure
  | error
  deriving DecidableEq

def keywords : List Bytes :=
  [[chr '='], [chr '\x7b'], [chr '\x7d'], [chr '['], [chr ']'], [chr ';'], [chr '('], [chr ')'],
    [chr ','], [chr '.'], [chr '@']]

def isBlank (c : UInt8) : Bool := c = chr ' ' || c = 10 || c = 13 || c = 9 || c = 26 || c = 12

def isLetter (c : UInt8) : Bool := (65 ≤ c && c ≤ 90) || (97 ≤ c && c ≤ 122)

def startsIdent (c : UInt8) : Bool := isLetter c || 192 ≤ c

def inIdent (c : UInt8) : Bool := startsIdent c || isDigit c || c = chr '_' || c = 39

def startsIdent2 (c : UInt8) : Bool := c ∈ ofString "!%&$#+/:<=>?@\\~^|*"

def inIdent2 (c : UInt8) : Bool := startsIdent2 c || c = chr '-'

section

variable {F : Type}

def identOrKeyword (id : Bytes) : Token F := if id ∈ keywords then .kwd id else .ident id

def keywordOrError (c : UInt8) (s : Bytes) : Res (Option (Token F)) :=
  if [c] ∈ keywords then .ok (some (.kwd [c])) s else .error

def identWith (p : UInt8 → Bool) (store s : Bytes) : Res (Option (Token F)) :=
  .ok (some (identOrKeyword (store ++ s.takeWhile p))) (s.dropWhile p)

-- Int64.of_string and float_of_string raise a Failure.
def intToken (store s : Bytes) : Res (Option (Token F)) :=
  match int64OfString store with
  | some i => .ok (some (.int i)) s
  | none => .error

variable (floatOfString : Bytes → Option F)

def floatToken (store s : Bytes) : Res (Option (Token F)) :=
  match floatOfString store with
  | some f => .ok (some (.float f)) s
  | none => .error

def endExponentPart (store s : Bytes) : Res (Option (Token F)) :=
  floatToken floatOfString (store ++ s.takeWhile isDigit) (s.dropWhile isDigit)

def exponentPart (store : Bytes) : Bytes → Res (Option (Token F))
  | c :: s =>
      if c = chr '+' ∨ c = chr '-' then endExponentPart floatOfString (store ++ [c]) s
      else endExponentPart floatOfString store (c :: s)
  | [] => endExponentPart floatOfString store []

def decimalPart (store : Bytes) : Bytes → Res (Option (Token F))
  | c :: s =>
      if isDigit c then decimalPart (store ++ [c]) s
      else if c = chr 'e' ∨ c = chr 'E' then exponentPart floatOfString (store ++ [chr 'E']) s
      else floatToken floatOfString store (c :: s)
  | [] => floatToken floatOfString store []

def number (store : Bytes) : Bytes → Res (Option (Token F))
  | c :: s =>
      if isDigit c then number (store ++ [c]) s
      else if c = chr '.' then decimalPart floatOfString (store ++ [c]) s
      else if c = chr 'e' ∨ c = chr 'E' then exponentPart floatOfString (store ++ [chr 'E']) s
      else intToken store (c :: s)
  | [] => intToken store []

def negNumber : Bytes → Res (Option (Token F))
  | c :: s =>
      if isDigit c then number floatOfString [chr '-', c] s
      else identWith inIdent2 [chr '-'] (c :: s)
  | [] => identWith inIdent2 [chr '-'] []

end

def digit (c : UInt8) : Nat := c.toNat - 48

-- What stands behind a backslash. Char.chr raises an exception above 255.
def escape : Bytes → Res UInt8
  | [] => .failure
  | c :: s =>
      if c = chr 'n' then .ok 10 s
      else if c = chr 'r' then .ok 13 s
      else if c = chr 't' then .ok 9 s
      else if isDigit c then
        match s with
        | c2 :: c3 :: s =>
            let code := digit c * 100 + digit c2 * 10 + digit c3
            if isDigit c2 ∧ isDigit c3 ∧ code < 256 then .ok (UInt8.ofNat code) s else .error
        | _ => .error
      else .ok c s

-- The end of a string; one that does not end raises Stream.Failure. It is read
-- within a number of bytes.
def string (store : Bytes) : Nat → Bytes → Res Bytes
  | 0, _ | _, [] => .failure
  | n + 1, c :: s =>
      if c = chr '"' then .ok store s
      else if c = chr '\\' then
        match escape s with
        | .ok c s => string (store ++ [c]) n s
        | _ => .error
      else string (store ++ [c]) n s

def char : Bytes → Res UInt8
  | [] => .failure
  | c :: s =>
      if c = chr '\\' then
        match escape s with
        | .ok c s => .ok c s
        | _ => .error
      else .ok c s

-- A comment at a depth, and behind a parenthesis or a star of it. None stands for
-- Stream.Failure.
mutual

def comment : Nat → Bytes → Option Bytes
  | _, [] => none
  | depth, c :: s =>
      if c = chr '(' then maybeNestedComment depth s
      else if c = chr '*' then maybeEndComment depth s
      else comment depth s

def maybeNestedComment : Nat → Bytes → Option Bytes
  | _, [] => none
  | depth, c :: s => if c = chr '*' then comment (depth + 1) s else comment depth s

def maybeEndComment : Nat → Bytes → Option Bytes
  | _, [] => none
  | depth, c :: s =>
      if c = chr ')' then
        match depth with
        | 0 => some s
        | depth + 1 => comment depth s
      else if c = chr '*' then maybeEndComment depth s
      else comment depth s

end

section

variable {F : Type} (floatOfString : Bytes → Option F)

def nextTokenFrom : Nat → Bytes → Res (Option (Token F))
  | 0, s => .ok none s
  | _, [] => .ok none []
  | n + 1, c :: s =>
      if isBlank c then nextTokenFrom n s
      else if startsIdent c then identWith inIdent [c] s
      else if c = chr '(' then
        match s with
        | [] => keywordOrError (chr '(') []
        | d :: t =>
            if d = chr '*' then
              match comment 0 t with
              | some s => nextTokenFrom n s
              | none => .failure
            else keywordOrError (chr '(') (d :: t)
      else if startsIdent2 c then identWith inIdent2 [c] s
      else if isDigit c then number floatOfString [c] s
      else if c = 39 then
        match char s with
        | .ok c (39 :: s) => .ok (some (.char c)) s
        | _ => .error
      else if c = chr '"' then
        match string [] (s.length + 1) s with
        | .ok a s => .ok (some (.string a)) s
        | .failure => .failure
        | .error => .error
      else if c = chr '-' then negNumber floatOfString s
      else keywordOrError c s

-- The next token, or none at the end.
def nextToken (s : Bytes) : Res (Option (Token F)) := nextTokenFrom floatOfString (s.length + 1) s

end

-- The values of an option file, as Options saves and parses them.

open Bencode (printInt)

-- Without the delayed values, which are functions that print themselves.
inductive Value (F : Type)
  | module (m : List (Bytes × Value F))
  | string (s : Bytes)
  | int (i : Int64)
  | float (f : F)
  | list (l : List (Value F))
  | smallList (l : List (Value F))
  | once (v : Value F)

section Parse

variable {F : Type} (floatOfString : Bytes → Option F)

-- A part of a rule behind its first one, where Stream.Failure becomes Stream.Error.
def Res.required {α : Type} : Res α → Res α
  | .failure => .error
  | r => r

def Res.bind {α β : Type} : Res α → (α → Bytes → Res β) → Res β
  | .ok a s, f => f a s
  | .failure, _ => .failure
  | .error, _ => .error

-- A keyword behind the first part of a rule.
def expect {α : Type} (k : UInt8) (s : Bytes) (next : Bytes → Res α) : Res α :=
  (nextToken floatOfString s).bind fun token s =>
    match token with
    | some (.kwd k') => if k' = [k] then next s else .error
    | _ => .error

def isKwd (ks : List UInt8) : Option (Token F) → Bool
  | some (.kwd [k]) => ks.any fun c => c == k
  | _ => false

def parseId (s : Bytes) : Res Bytes :=
  (nextToken floatOfString s).bind fun token s =>
    match token with
    | some (.ident a) => .ok a s
    | some (.string a) => .ok a s
    | _ => .failure

-- The parsers give the table of once_values beside what they have read. None stands for
-- the parser's failure to take the first token, which it leaves there.
mutual

def parseGwmlrc : Nat → List (Int64 × Value F) → Bytes →
    Res (List (Bytes × Value F) × List (Int64 × Value F))
  | 0, _, _ => .error
  | n + 1, once, s =>
      match parseId floatOfString s with
      | .failure => .ok ([], once) s
      | .error => .error
      | .ok id s =>
          expect floatOfString (chr '=') s fun s =>
            (parseOption n once s).required.bind fun v s =>
              (parseGwmlrc n v.2 s).required.bind fun m s => .ok ((id, v.1) :: m.1, m.2) s

def parseOption : Nat → List (Int64 × Value F) → Bytes → Res (Value F × List (Int64 × Value F))
  | 0, _, _ => .error
  | n + 1, once, s =>
      (nextToken floatOfString s).bind fun token s =>
        match token with
        | some (.kwd k) =>
            if k = [chr '\x7b'] then
              (parseGwmlrc n once s).required.bind fun m s =>
                expect floatOfString (chr '\x7d') s fun s => .ok (.module m.1, m.2) s
            else if k = [chr '@'] then
              (nextToken floatOfString s).bind fun token s =>
                match token with
                | some (.int i) =>
                    (parseOnceValue n i once s).required.bind fun v s => .ok (.once v.1, v.2) s
                | _ => .error
            else if k = [chr '['] ∨ k = [chr '('] then
              (parseList n once [] s).required.bind fun l s => .ok (.list l.1, l.2) s
            else .failure
        | some (.ident a) => .ok (.string a, once) s
        | some (.string a) => .ok (.string a, once) s
        | some (.int i) => .ok (.int i, once) s
        | some (.float f) => .ok (.float f, once) s
        | some (.char c) => .ok (.string [c], once) s
        | none => .failure

-- The program exits at a number that is not in the table.
def parseOnceValue : Nat → Int64 → List (Int64 × Value F) → Bytes →
    Res (Value F × List (Int64 × Value F))
  | 0, _, _, _ => .error
  | n + 1, i, once, s =>
      (nextToken floatOfString s).bind fun token s =>
        match token with
        | some (.kwd k) =>
            if k = [chr '@'] then
              match once.lookup i with
              | some v => .ok (v, once) s
              | none => .error
            else if k = [chr '='] then
              (parseOption n once s).required.bind fun v s => .ok (v.1, (i, v.1) :: v.2) s
            else .failure
        | _ => .failure

def parseList : Nat → List (Int64 × Value F) → List (Value F) → Bytes →
    Res (List (Value F) × List (Int64 × Value F))
  | 0, _, _, _ => .error
  | n + 1, once, list, s =>
      (nextToken floatOfString s).bind fun token rest =>
        if isKwd [chr ';', chr ',', chr '.'] token then
          parseList n once list rest
        else
          match parseOption n once s with
          | .ok v s => parseList n v.2 (v.1 :: list) s
          | .error => .error
          | .failure =>
              if isKwd [chr ']', chr ')'] token then
                .ok (list.reverse, once) rest
              else .failure

end

end Parse

section Save

variable {F : Type} (floatOfString : Bytes → Option F) (stringOfFloat : F → Bytes)

-- The digits of \ddd.
def decimalEscape (c : UInt8) : Bytes :=
  [chr '\\', 48 + c / 100, 48 + c / 10 % 10, 48 + c % 10]

-- String.escaped.
def escapedChar (c : UInt8) : Bytes :=
  if c = chr '"' ∨ c = chr '\\' then [chr '\\', c]
  else if c = 10 then [chr '\\', chr 'n']
  else if c = 9 then [chr '\\', chr 't']
  else if c = 13 then [chr '\\', chr 'r']
  else if c = 8 then [chr '\\', chr 'b']
  else if 32 ≤ c ∧ c ≤ 126 then [c]
  else decimalEscape c

def escaped (s : Bytes) : Bytes := s.flatMap escapedChar

def quoted (s : Bytes) : Bytes := chr '"' :: (escaped s ++ [chr '"'])

def isWord (c : UInt8) : Bool := isLetter c || c = chr '_' || isDigit c

def safeString : Bytes → Bytes
  | [] => [chr '"', chr '"']
  | c :: s =>
      if isLetter c then
        if s.all isWord then c :: s else quoted (c :: s)
      else
        match int64OfString (c :: s) with
        | none => quoted (c :: s)
        | some i =>
            if printInt i = c :: s then c :: s
            else
              match floatOfString (c :: s) with
              | none => quoted (c :: s)
              | some f => if stringOfFloat f = c :: s then c :: s else quoted (c :: s)

-- What is printed for a float, and for a once value, which depends on those that have
-- been printed before.
variable (printFloat : F → Bytes) (saveOnce : Bytes → Value F → Bytes)

mutual

def saveValue (indent : Bytes) : Value F → Bytes
  | .string s => safeString floatOfString stringOfFloat s
  | .int i => printInt i
  | .float f => printFloat f
  | .list l => chr '[' :: (saveListNl (indent ++ [32, 32]) l ++ [chr ']'])
  | .smallList l => chr '(' :: (saveList (indent ++ [32, 32]) l ++ [chr ')'])
  | .module m => chr '\x7b' :: (saveModuleFields (indent ++ [32, 32]) m ++ [chr '\x7d'])
  | .once v => saveOnce indent v

def saveList (indent : Bytes) : List (Value F) → Bytes
  | [] => []
  | [v] => saveValue indent v
  | v :: tail => saveValue indent v ++ (chr ',' :: 32 :: saveList indent tail)

def saveListNl (indent : Bytes) : List (Value F) → Bytes
  | [] => []
  | [v] => 10 :: (indent ++ saveValue indent v)
  | v :: tail => 10 :: (indent ++ (saveValue indent v ++ (chr ';' :: saveListNl indent tail)))

def saveModuleFields (indent : Bytes) : List (Bytes × Value F) → Bytes
  | [] => []
  | (name, v) :: tail =>
      indent ++ (32 :: (safeString floatOfString stringOfFloat name ++ (32 :: chr '=' :: 32 ::
        (saveValue indent v ++ (10 :: saveModuleFields indent tail)))))

end

end Save

section Tokens

variable {F : Type} {floatOfString : Bytes → Option F} {n : Nat} {once : List (Int64 × Value F)}
  {s s' : Bytes} {list : List (Value F)}

-- The parsers see no more of a text than its tokens.
theorem parseOption_congr (h : nextToken floatOfString s = nextToken floatOfString s') :
    parseOption floatOfString n once s = parseOption floatOfString n once s' := by
  cases n with
  | zero => rw [parseOption, parseOption]
  | succ n => rw [parseOption, parseOption, h]

theorem parseList_congr (h : nextToken floatOfString s = nextToken floatOfString s') :
    parseList floatOfString n once list s = parseList floatOfString n once list s' := by
  cases n with
  | zero => rw [parseList, parseList]
  | succ n => rw [parseList, parseList, h, parseOption_congr h]

end Tokens

end Mldonkey.Options
