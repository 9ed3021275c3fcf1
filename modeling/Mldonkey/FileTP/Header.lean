import Mldonkey.Bencode.Codec
import Mldonkey.Indexing.Form

-- The reply of an HTTP mirror: client_parse_header up to the range it selects.
namespace Mldonkey.FileTP

open Bencode (Bytes chr ofString int64OfString signAndBase digitValue restOfDigits)
open Indexing (split splitSimplify lowercase)

-- int_of_string, on integers of 63 bits
def intOfString (s : Bytes) : Option Int :=
  let (negative, base, signed, s) := signAndBase s
  match s with
  | [] => none
  | c :: s => do
      let d ← digitValue base c
      let n ← restOfDigits base d s
      if signed then
        if (if negative then 2 ^ 62 < n else 2 ^ 62 ≤ n) then none
        else some (if negative then -n else n)
      else if 2 ^ 63 ≤ n then none
      else some (Int.bmod (if negative then -n else n) (2 ^ 63))

-- String.index; none stands for Not_found
def index (s : Bytes) (c : Char) : Option Int := (s.idxOf? (chr c)).map Int.ofNat

-- String.sub; none stands for Invalid_argument
def subString (s : Bytes) (pos len : Int) : Option Bytes :=
  if 0 ≤ pos ∧ 0 ≤ len ∧ pos + len ≤ s.length then some ((s.drop pos.toNat).take len.toNat)
  else none

def parseLine (header : Bytes) : Option Int := do
  let endlinePos ← index header '\n'
  match split (chr ' ') (← subString header 0 endlinePos) with
  | http :: code :: _ :: _ => do
      let code ← intOfString code
      if (http.map lowercase).take 4 = ofString "http" then some code else none
  | _ => none

-- The second loop of split_header, which goes backwards: a line that begins with a
-- blank or a comma continues the one before.
def joinLines : Bytes → Bytes
  | [] => []
  | c :: s =>
      match joinLines s with
      | [] => [c]
      | c' :: s' =>
          if c = chr '\n' ∧ (c' = chr ' ' ∨ c' = chr ',') then chr ',' :: chr ',' :: s'
          else c :: c' :: s'

def splitHeader (header : Bytes) : List Bytes :=
  splitSimplify (joinLines (header.map fun c => if c = chr '\r' then chr '\n' else c)) (chr '\n')

def cutHeader (s : Bytes) : Option (Bytes × Bytes × Bytes) := do
  let pos ← index s ':'
  let key ← subString s 0 pos
  let skip := if s[pos.toNat + 1]? = some (chr ' ') then pos + 2 else pos + 1
  some (key.map lowercase, ← subString s skip (s.length - skip), key)

-- The code and the headers of a reply.
def parseReply (header : Bytes) : Option (Int × List (Bytes × Bytes × Bytes)) := do
  let code ← parseLine header
  match splitHeader header with
  | [] => none
  | _ :: headers => do
      let headers ← headers.mapM cutHeader
      if code < 200 ∨ code > 299 then none else some (code, headers)

-- What a Content-Range names: no range, a range of a file of unknown size, or
-- a range and the size.
inductive Named where
  | star
  | upTo (x y : Int64)
  | full (x y z : Int64)

def contentRange (range : Bytes) : Option Named := do
  let npos := (← index range 'b') + 6
  let dashPos := (index range '-').getD (-10)
  let slashPos := (index range '/').getD (-20)
  let starPos := (index range '*').getD (-30)
  if starPos = slashPos - 1 then some .star
  else
    let x ← int64OfString (← subString range npos (dashPos - npos))
    let y ← int64OfString (← subString range (dashPos + 1) (slashPos - dashPos - 1))
    if slashPos = starPos - 1 then some (.upTo x y)
    else
      let z ← int64OfString (← subString range (slashPos + 1) (range.length - slashPos - 1))
      some (.full x y z)

-- Servers that count from one are told by an end that is the size.
def Named.select (size : Int64) : Named → Int64 × Int64
  | .star => (0, size)
  | .upTo x y => (x, y + 1)
  | .full x y z => if y = z then (x - 1, size) else (x, y + 1)

def findHeader (headers : List (Bytes × Bytes × Bytes)) (key : String) : Option Bytes :=
  (headers.lookup (ofString key)).map Prod.fst

-- Without a range in the reply, the range that was requested first is taken where
-- the length is its length.
def requestedRange (code : Int) (headers : List (Bytes × Bytes × Bytes))
    (ranges : List (Int64 × Int64)) : Option (Int64 × Int64) := do
  if code ≠ 206 ∧ code ≠ 200 then none
  else
    let len ← int64OfString (← findHeader headers "content-length")
    match ranges with
    | [] => none
    | (startPos, endPos) :: _ => if len ≠ endPos - startPos then none else some (startPos, endPos)

def namedRange (headers : List (Bytes × Bytes × Bytes)) : Option Named := do
  contentRange (← findHeader headers "content-range")

-- The range that client_parse_header selects for the first request, of which
-- `ranges` are to come; none stands for an exception, which disconnects. A
-- Content-Length that does not fit the range only gives a warning.
def clientParseHeader (header : Bytes) (request : Option (List (Int64 × Int64))) (size : Int64) :
    Option (Int64 × Int64) := do
  let ranges ← request
  let (code, headers) ← parseReply header
  match namedRange headers with
  | some named => some (named.select size)
  | none => requestedRange code headers ranges

end Mldonkey.FileTP
