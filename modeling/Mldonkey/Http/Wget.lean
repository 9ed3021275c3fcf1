import Mldonkey.FileTP.Header

-- The content that wget_string hands over: the chain of answers before it, the headers
-- of the last one, and its body.
namespace Mldonkey.Wget

open Bencode (Bytes chr ofString int64OfString digitValue restOfDigits signAndBase)
open FileTP (intOfString)
open Indexing (lowercase)

-- A request record: its mutable fields, and those that decide what follows an answer
structure Request where
  reqGzip : Bool
  reqChunk : Bool
  reqRetry : ℕ
  reqMaxRetry : ℕ

-- An answer that leads to another request, with a copy of the record of this one; the records
-- are kept in the order in which they were made. A Location is taken to be understood.
def follow (records : List Request) (ansCode : ℤ) : Option (List Request) := do
  let r ← records.getLast?
  if ansCode ∈ [301, 302, 304, 502, 503, 504] ∧ r.reqRetry < r.reqMaxRetry then
    some (records ++ [{ r with reqRetry := r.reqRetry + 1 }])
  else none

-- The headers of an answer 200: the codings are noted in the record, the length is returned.
def onHeader : Request × Int64 → Bytes × Bytes → Request × Int64
  | (r, contentLength), (name, content) =>
    let name := name.map lowercase
    if name = ofString "content-length" then (r, (int64OfString content).getD contentLength)
    else if name = ofString "content-encoding" then
      (if content.map lowercase = ofString "gzip" then { r with reqGzip := true } else r,
        contentLength)
    else if name = ofString "transfer-encoding" then
      (if content.map lowercase = ofString "chunked" then { r with reqChunk := true } else r,
        contentLength)
    else (r, contentLength)

-- A read of the body: what has been kept before, and whether the socket has been closed.
def onContent (maxlen : ℤ) (st : Bytes × Bool) (data : Bytes) : Bytes × Bool :=
  if st.2 = false ∧ 0 < data.length then
    let left := if 0 ≤ maxlen then min (maxlen - st.1.length) data.length else data.length
    (st.1 ++ data.take left.toNat, decide (left < data.length))
  else st

def crlf : Bytes := [13, 10]

-- Str.search_forward for a line end
def searchCrlf : Bytes → Option ℕ
  | [] => none
  | c :: s => if crlf <+: c :: s then some 0 else (searchCrlf s).map (· + 1)

-- `none` stands for an exception: no line end, or a size that is no number. Where nothing
-- matches, a message is all that happens.
def chunked (stng s2 : Bytes) : Option Bytes :=
  match searchCrlf stng with
  | none => none
  | some crlfindex =>
    let start := stng.take crlfindex
    if 0 < crlfindex ∧ start ≠ ofString "0" then
      match intOfString (ofString "0x" ++ start) with
      | none => none
      | some n =>
        let rest := stng.drop (crlfindex + 2)
        if 0 ≤ n ∧ n.toNat + 2 ≤ rest.length then
          chunked (rest.drop (n.toNat + 2)) (s2 ++ rest.take n.toNat)
        else some s2
    else some s2
termination_by stng.length
decreasing_by
  rw [List.length_drop] at *
  simp only [List.length_drop]
  omega

-- The closure that get_page calls at the end, with the record it was made for. wget writes what
-- wget_string hands over.
def finish (gunzip : Bytes → Option Bytes) (r : Request) (fileBuf : Bytes) : Option Bytes := do
  let s ← if r.reqChunk then chunked fileBuf [] else some fileBuf
  if r.reqGzip then gunzip s else some s

-- wget_string: the answers before the last one, and the headers and reads of that.
def wgetString (gunzip : Bytes → Option Bytes) (r : Request) (codes : List ℤ)
    (headers : List (Bytes × Bytes)) (reads : List Bytes) : Option Bytes := do
  let records ← codes.foldlM follow [r]
  let (last, contentLength) := headers.foldl onHeader (← records.getLast?, -1)
  let records := records.dropLast ++ [last]
  let fileBuf := (reads.foldl (onContent contentLength.toInt) ([], false)).1
  finish gunzip (← records.head?) fileBuf

-- What is assumed of compression.
structure Gzip where
  compress : Bytes → Bytes
  gunzip : Bytes → Option Bytes
  exact : ∀ s, gunzip (compress s) = some s

def Gzip.content (gz : Gzip) (gzip : Bool) (body : Bytes) : Bytes :=
  if gzip then gz.compress body else body

def hexValue (s : Bytes) : Option ℕ :=
  s.foldlM (fun n c => (digitValue 16 c).map fun d => 16 * n + d) 0

-- A chunk on the wire: its size in hexadecimal digits, perhaps an extension, and its data.
structure Chunk where
  size : Bytes
  ext : Bytes
  data : Bytes
  nonempty : data ≠ []
  size_eq : hexValue size = some data.length
  length_lt : data.length < 2 ^ 62
  ext_eq : ext = [] ∨ ∃ e, ext = chr ';' :: e ∧ 13 ∉ e

def Chunk.text (c : Chunk) : Bytes := c.size ++ c.ext ++ crlf ++ c.data ++ crlf

-- A chunked body: after the chunks comes an empty one, then perhaps a trailer.
structure Chunks where
  list : List Chunk
  lastExt : Bytes
  trailer : Bytes
  lastExt_eq : lastExt = [] ∨ ∃ e, lastExt = chr ';' :: e ∧ 13 ∉ e

def Chunks.text (c : Chunks) : Bytes :=
  (c.list.map Chunk.text).flatten ++ (ofString "0" ++ c.lastExt ++ crlf ++ c.trailer)

def Chunks.data (c : Chunks) : Bytes := (c.list.map Chunk.data).flatten

def NamesGzip (h : Bytes × Bytes) : Prop :=
  h.1.map lowercase = ofString "content-encoding" ∧ h.2.map lowercase = ofString "gzip"

def NamesChunked (h : Bytes × Bytes) : Prop :=
  h.1.map lowercase = ofString "transfer-encoding" ∧ h.2.map lowercase = ofString "chunked"

-- An answer 200 with this body. The length in its headers, if there is one, is the number
-- of bytes that follow them.
structure Answer (gz : Gzip) (body : Bytes) where
  headers : List (Bytes × Bytes)
  gzip : Bool
  chunks : Option Chunks
  reads : List Bytes
  data_eq : ∀ c, chunks = some c → c.data = gz.content gzip body
  reads_eq : reads.flatten = (chunks.map Chunks.text).getD (gz.content gzip body)
  gzip_iff : gzip = true ↔ ∃ h ∈ headers, NamesGzip h
  chunks_iff : chunks.isSome = true ↔ ∃ h ∈ headers, NamesChunked h
  length_eq : ∀ h ∈ headers, h.1.map lowercase = ofString "content-length" →
    ∃ n, int64OfString h.2 = some n ∧ n.toInt = reads.flatten.length

-- A redirection, or an error after which the request is made again
def IsHop (code : ℤ) : Prop := code ∈ ([301, 302, 304, 502, 503, 504] : List ℤ)

-- No chunk has an extension.
def Answer.Plain {gz : Gzip} {body : Bytes} (a : Answer gz body) : Prop :=
  ∀ c, a.chunks = some c → (∀ k ∈ c.list, k.ext = []) ∧ c.lastExt = []

end Mldonkey.Wget
