import Mldonkey.Bencode.RoundTrip

-- Torrent files, as bTTorrent.ml writes and reads them.
namespace Mldonkey.TorrentFile

open Bencode (Bytes Value Exn ofString chr)

def Sha1 : Type := { s : Bytes // s.length = 20 }

structure Torrent where
  name : Bytes
  nameUtf8 : Bytes
  filename : Bytes
  length : Int64
  announce : Bytes
  announceList : List Bytes
  pieceSize : Int64
  files : List (Bytes × Int64)
  pieces : List Sha1
  comment : Bytes
  createdBy : Bytes
  creationDate : Int64
  modifiedBy : Bytes
  encoding : Bytes
  isPrivate : Bool

section Filepath

-- Filepath.string_to_path with '/'. The first argument is the component that is
-- being read; an empty one is left out.
def stringToPathFrom : Bytes → Bytes → List Bytes
  | start, [] => if start = [] then [] else [start]
  | start, c :: s =>
      if c = chr '/' then
        if start = [] then stringToPathFrom [] s else start :: stringToPathFrom [] s
      else stringToPathFrom (start ++ [c]) s

def stringToPath (s : Bytes) : List Bytes := stringToPathFrom [] s

def pathToString (path : List Bytes) : Bytes :=
  (path.foldl (fun s dir => s ++ chr '/' :: dir) []).tail

end Filepath

-- The references of decode_torrent.
structure Decoding where
  announce : Bytes
  announceList : List Bytes
  info : Value
  name : Bytes
  filename : Bytes
  nameUtf8 : Option Bytes
  pieceSize : Int64
  pieces : Bytes
  comment : Bytes
  createdBy : Bytes
  creationDate : Int64
  modifiedBy : Bytes
  encoding : Bytes
  codepage : Int64
  isPrivate : Bool
  length : Int64
  files : List (Bytes × Int64)
  filesUtf8 : List (Bytes × Int64)

def Decoding.start : Decoding :=
  ⟨[], [], .list [], [], [], none, 0, [], [], [], 0, [], [], 0, false, 0, [], []⟩

section ParseFiles

structure FileDecoding where
  length : Int64
  currentFile : Bytes
  currentFileUtf8 : Bytes
  currentLength : Int64
  lengthSet : Bool

def str : Value → Except Exn Bytes
  | .string s => .ok s
  | _ => .error .assertFailure

def pathListToString (l : List Value) : Except Exn Bytes := do
  return pathToString (← l.mapM str)

-- `length` is the length of all files.
def fileField (x : FileDecoding) (e : Bytes × Value) : Except Exn FileDecoding :=
  match e.2 with
  | .list path =>
      if e.1 = ofString "path" then do return { x with currentFile := ← pathListToString path }
      else if e.1 = ofString "path.utf-8" then do
        return { x with currentFileUtf8 := ← pathListToString path }
      else .ok x
  | .int n =>
      if e.1 = ofString "length" then
        .ok { x with length := x.length + n, currentLength := n, lengthSet := true }
      else .ok x
  | _ => .ok x

def parseFile (d : Decoding) : Value → Except Exn Decoding
  | .dictionary list => do
      let x ← list.foldlM fileField ⟨d.length, [], [], 0, false⟩
      if ¬x.lengthSet ∨ (x.currentFile = [] ∧ x.currentFileUtf8 = []) then .error .assertFailure
      else
        return { d with
          length := x.length
          files := (x.currentFile, x.currentLength) :: d.files
          filesUtf8 :=
            if x.currentFileUtf8 = [] then d.filesUtf8
            else (x.currentFileUtf8, x.currentLength) :: d.filesUtf8 }
  | _ => .error .assertFailure

def parseFiles (d : Decoding) (files : List Value) : Except Exn Decoding := files.foldlM parseFile d

end ParseFiles

def publisherUrl (d : Decoding) (url : Bytes) : Decoding :=
  { d with createdBy := d.createdBy ++ ofString " @ " ++ url }

-- Keys that only concern other networks, and those that nothing is read from, are
-- left as they are.
def infoField (d : Decoding) (e : Bytes × Value) : Except Exn Decoding :=
  match e.2 with
  | .list files => if e.1 = ofString "files" then parseFiles d files else .ok d
  | .int n =>
      if e.1 = ofString "length" then .ok { d with length := n }
      else if e.1 = ofString "piece length" then .ok { d with pieceSize := n }
      else if e.1 = ofString "private" then .ok { d with isPrivate := n ≠ 0 }
      else .ok d
  | .string s =>
      if e.1 = ofString "name" then .ok { d with name := s }
      else if e.1 = ofString "pieces" then .ok { d with pieces := s }
      else if e.1 = ofString "publisher" then .ok { d with createdBy := s }
      else if e.1 = ofString "publisher-url" then .ok (publisherUrl d s)
      else if e.1 = ofString "name.utf-8" then .ok { d with nameUtf8 := some s }
      else .ok d
  | .dictionary _ => .ok d

section Decode

-- List2.shuffle, Charset.convert with its try, Sha1.string and, for numbers,
-- Int64.of_float of float_of_string.
variable (shuffle : List Bytes → List Bytes) (convert : Bytes → Bytes → Bytes)
variable (sha1 : Bytes → Sha1) (ofFloat : Bytes → Option Int64)

def safeConvert (encoding s : Bytes) : Bytes := if encoding = [] then s else convert encoding s

-- The urls of a tier, the last one first.
def urlsOf (l : List Value) : List Bytes :=
  (l.filterMap fun v => match v with
    | .string s => some s
    | _ => none).reverse

def announceTier (announceList : List Bytes) : Value → List Bytes
  | .list l =>
      let nextUrls := urlsOf l
      if 1 < nextUrls.length then shuffle nextUrls ++ announceList
      else nextUrls.headD [] :: announceList
  | _ => announceList

def torrentField (d : Decoding) (e : Bytes × Value) : Except Exn Decoding :=
  match e.2 with
  | .string s =>
      if e.1 = ofString "announce" then .ok { d with announce := s }
      else if e.1 = ofString "comment" ∨ e.1 = ofString "comment.utf-8" then
        .ok { d with comment := s }
      else if e.1 = ofString "publisher" ∨ e.1 = ofString "created by" then
        .ok { d with createdBy := s }
      else if e.1 = ofString "publisher-url" then .ok (publisherUrl d s)
      else if e.1 = ofString "modified-by" then .ok { d with modifiedBy := s }
      else if e.1 = ofString "encoding" then .ok { d with encoding := s }
      else if e.1 = ofString "torrent filename" then .ok { d with filename := s }
      else .ok d
  | .list l =>
      if e.1 = ofString "announce-list" then
        .ok { d with announceList := (l.foldl (announceTier shuffle) d.announceList).reverse }
      else .ok d
  | .dictionary l =>
      if e.1 = ofString "info" then l.foldlM infoField { d with info := .dictionary l } else .ok d
  | .int n =>
      if e.1 = ofString "creation date" then .ok { d with creationDate := n }
      else if e.1 = ofString "codepage" then .ok { d with codepage := n }
      else .ok d

-- Array.init of the pieces that String.sub cuts out.
def cutPieces (pieces : Bytes) : Nat → Except Exn (List Sha1)
  | 0 => .ok []
  | n + 1 =>
      if h : (pieces.take 20).length = 20 then do
        let rest ← cutPieces (pieces.drop 20) n
        return ⟨pieces.take 20, h⟩ :: rest
      else .error .invalidArgument

-- Int64.to_int drops the highest bit.
def npieces (length pieceSize : Int64) : Int :=
  1 + ((length - 1) / pieceSize).toInt.bmod (2 ^ 63)

def filesOf (d : Decoding) (encoding : Bytes) : List (Bytes × Int64) :=
  let files :=
    if d.filesUtf8 ≠ [] then d.filesUtf8
    else if encoding ≠ [] then d.files.map fun f => (safeConvert convert encoding f.1, f.2)
    else d.files
  -- A list of one file is a single file.
  if files.length = 1 then [] else files.reverse

def finish (d : Decoding) : Except Exn (Sha1 × Torrent) := do
  let encoding :=
    if d.codepage ≠ 0 ∧ d.encoding = [] then ofString "CP" ++ Bencode.printInt d.codepage
    else d.encoding
  let realFileName :=
    match d.nameUtf8 with
    | none => safeConvert convert encoding d.name
    | some name => name
  if realFileName = [] ∨ d.pieceSize = 0 ∨ d.pieces = [] then .error .assertFailure
  else
    -- The last assertion compares two values; they are equal when their encodings are.
    let again ← Bencode.decode ofFloat (Bencode.encode false d.info)
    if Bencode.encode false again ≠ Bencode.encode false d.info then .error .assertFailure
    else
      let n := npieces d.length d.pieceSize
      if n < 0 then .error .invalidArgument
      else
        let pieces ← cutPieces d.pieces n.toNat
        return (sha1 (Bencode.encode false d.info),
          { name := realFileName
            nameUtf8 := realFileName
            filename := d.filename
            length := d.length
            announce := d.announce
            announceList := d.announceList
            pieceSize := d.pieceSize
            files := filesOf convert d encoding
            pieces := pieces
            comment := safeConvert convert encoding d.comment
            createdBy := safeConvert convert encoding d.createdBy
            creationDate := d.creationDate
            modifiedBy := safeConvert convert encoding d.modifiedBy
            encoding := encoding
            isPrivate := d.isPrivate })

def decodeTorrent (s : Bytes) : Except Exn (Sha1 × Torrent) := do
  match ← Bencode.decode ofFloat s with
  | .dictionary list =>
      finish convert sha1 ofFloat (← list.foldlM (torrentField shuffle) Decoding.start)
  | _ => .error .assertFailure

end Decode

section Encode

def encodeFile (f : Bytes × Int64) : Value :=
  .dictionary [(ofString "length", .int f.2),
    (ofString "path", .list ((stringToPath f.1).map .string))]

def filesEntry (t : Torrent) : Bytes × Value :=
  match t.files with
  | [] => (ofString "length", .int t.length)
  | files => (ofString "files", .list (files.map encodeFile))

def infoEntries (t : Torrent) : List (Bytes × Value) :=
  [filesEntry t, (ofString "name", .string t.name), (ofString "name.utf-8", .string t.nameUtf8),
    (ofString "piece length", .int t.pieceSize),
    (ofString "pieces", .string (t.pieces.flatMap fun p => p.1)),
    (ofString "private", .int (if t.isPrivate then 1 else 0))]

-- The identifier, and the value to be encoded.
def encodeTorrent (sha1 : Bytes → Sha1) (t : Torrent) : Sha1 × Value :=
  let info := .dictionary (infoEntries t)
  (sha1 (Bencode.encode true info),
    .dictionary
      [(ofString "announce", .string t.announce), (ofString "comment", .string t.comment),
        (ofString "created by", .string t.createdBy),
        (ofString "creation date", .int t.creationDate),
        (ofString "encoding", .string t.encoding), (ofString "info", info),
        (ofString "modified-by", .string t.modifiedBy)])

end Encode

end Mldonkey.TorrentFile
