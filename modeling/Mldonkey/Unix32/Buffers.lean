import Mldonkey.Unix32.SparseRuns

-- Writes that are kept in memory and written together.
namespace Mldonkey.Unix32

open Patch

inductive FileKind
  | multiFile (t : MultiFile)
  | diskFile (t : FdCache)
  | sparseFile (t : SparseFile)
  | destroyed

structure File where
  kind : FileKind
  filename : String
  writable : Bool
  error : Option Exn
  buffers : List WriteCall

def maxBuffered : Int := 1024 * 1024

-- All files, which are referred to by their place.
structure Files where
  files : List File
  bufferedBytes : Int
  modifiedFiles : List Nat

namespace FileKind

def write (kind : FileKind) (filePos : Nat) (string : Bytes) (stringPos len : Nat) :
    Except Exn FileKind :=
  if len > 0 then
    match kind with
    | diskFile t => do return diskFile (← t.write filePos string stringPos len)
    | multiFile t => do return multiFile (← t.write filePos string stringPos len)
    | sparseFile t => do return sparseFile (← t.write filePos string stringPos len)
    | destroyed => .error (.failure "Unix32.write on destroyed FD")
  else .ok kind

def read (kind : FileKind) (filePos : Nat) (string : Bytes) (stringPos len : Nat) :
    Except Exn Bytes :=
  match kind with
  | diskFile t => t.read filePos string stringPos len
  | multiFile t => t.read filePos string stringPos len
  | sparseFile t => t.read filePos string stringPos len
  | destroyed => .error (.failure "Unix32.read on destroyed FD")

def applyOnChunk (kind : FileKind) (pos len : Nat) : Except Exn (FdCache × Int) :=
  match kind with
  | diskFile t => .ok (t, pos)
  | multiFile t => t.applyOnChunk pos len
  | sparseFile t => t.applyOnChunk pos len
  | destroyed => .error (.failure "Unix32.apply_on_chunk on destroyed FD")

def isMultiFile : FileKind → Bool
  | multiFile _ => true
  | _ => false

end FileKind

-- What a flush leaves: the kind, the number of buffered bytes, the pending
-- writes, and the exception that ended it. What a write that failed did before
-- it failed is left out.
structure Flushed where
  kind : FileKind
  bufferedBytes : Int
  buffers : List WriteCall
  error : Option Exn

def flushBuffer (kind : FileKind) (bufferedBytes : Int) (s : Bytes) (offset : Nat)
    (buffers : List WriteCall) : Flushed :=
  match (if s.length > 0 then kind.write offset s 0 s.length else .ok kind) with
  | .ok kind => ⟨kind, bufferedBytes - s.length, buffers, none⟩
  | .error e => ⟨kind, bufferedBytes, ⟨offset, s, 0, s.length⟩ :: buffers, some e⟩

-- iter_in, with the bytes gathered so far; iter_out is its next call after a
-- gap.
def iterIn (kind : FileKind) (bufferedBytes : Int) (buffer : Bytes) (offset len : Nat) :
    List WriteCall → Flushed
  | [] => flushBuffer kind bufferedBytes buffer offset []
  | w :: tail =>
      let inOffset : Int := (offset + len : Nat) - w.pos
      if inOffset = 0 then
        iterIn kind bufferedBytes (buffer ++ w.bytes) offset (len + w.len) tail
      else if inOffset < 0 then
        let r := flushBuffer kind bufferedBytes buffer offset (w :: tail)
        match r.error with
        | some _ => r
        | none => iterIn r.kind r.bufferedBytes w.bytes w.pos w.len tail
      else
        let keepLen : Int := w.len - inOffset
        if keepLen ≤ 0 then iterIn kind (bufferedBytes - w.len) buffer offset len tail
        else
          let newPos : Int := w.len - keepLen
          iterIn kind (bufferedBytes - newPos)
            (buffer ++ region w.string (w.stringPos + newPos.toNat) keepLen.toNat) offset
            (len + keepLen.toNat) tail

-- Ordered by offset, and the longer ones first.
def WriteCall.Le (w w' : WriteCall) : Prop := w.pos < w'.pos ∨ w.pos = w'.pos ∧ w'.len ≤ w.len

instance : DecidableRel WriteCall.Le := fun w w' =>
  inferInstanceAs (Decidable (w.pos < w'.pos ∨ w.pos = w'.pos ∧ w'.len ≤ w.len))

-- String.sub
def WriteCall.copy (w : WriteCall) : WriteCall := ⟨w.pos, w.bytes, 0, w.len⟩

-- List.sort is stable.
def sorted (buffers : List WriteCall) : List WriteCall := buffers.insertionSort WriteCall.Le

namespace Files

def findWritable (s : Files) (i : Nat) : Option Nat :=
  match s.files[i]? with
  | none => none
  | some f =>
      if f.writable then some i
      else s.files.findIdx? fun g => g.filename = f.filename && g.writable

def setFile (s : Files) (i : Nat) (f : File) : Files := { s with files := s.files.set i f }

-- The state after flush_fd, and the exception that it raises.
def flushFd (s : Files) (i : Nat) : Files × Option Exn :=
  match s.findWritable i with
  | none => (s, none)
  | some j =>
      match s.files[j]? with
      | none => (s, none)
      | some f =>
          match sorted f.buffers with
          | [] => (s, none)
          | w :: tail =>
              let r := iterIn f.kind s.bufferedBytes w.bytes w.pos w.len tail
              ({ s.setFile j { f with kind := r.kind, buffers := r.buffers } with
                  bufferedBytes := r.bufferedBytes }, r.error)

def setError (s : Files) (i : Nat) (error : Option Exn) : Files :=
  { s with files := s.files.modify i fun f => { f with error := error } }

-- The state after the files of the list were flushed, and those that failed.
def flushAll : List Nat → Files → Files × List Nat
  | [], s => (s, [])
  | i :: tail, s =>
      match s.flushFd i with
      | (s, none) => flushAll tail (s.setError i none)
      | (s, some e) =>
          let (s, failed) := flushAll tail (s.setError i (some e))
          (s, i :: failed)

def flush (s : Files) : Files :=
  let (s', modified) := flushAll s.modifiedFiles s
  { s' with modifiedFiles := modified }

-- The pending write is noted.
def push (s : Files) (i : Nat) (w : WriteCall) : Files :=
  { files := s.files.modify i fun f => { f with buffers := w :: f.buffers }
    bufferedBytes := s.bufferedBytes + w.len
    modifiedFiles := if i ∈ s.modifiedFiles then s.modifiedFiles else i :: s.modifiedFiles }

def bufferedWrite (s : Files) (i : Nat) (w : WriteCall) : Except Exn Files :=
  match s.files[i]? with
  | none => .ok s
  | some f =>
      match f.error with
      | some e => .error e
      | none =>
          if w.len > 0 then
            let s := s.push i w
            .ok (if s.bufferedBytes > maxBuffered then s.flush else s)
          else .ok s

def bufferedWriteCopy (s : Files) (i : Nat) (w : WriteCall) : Except Exn Files :=
  s.bufferedWrite i w.copy

-- The state that a read leaves, and what it returns.
def read (s : Files) (i : Nat) (filePos : Nat) (string : Bytes) (stringPos len : Nat) :
    Files × Except Exn Bytes :=
  match s.flushFd i with
  | (s, some e) => (s, .error e)
  | (s, none) =>
      match s.files[i]? with
      | none => (s, .error .invalidArgument)
      | some f => (s, f.kind.read filePos string stringPos len)

-- Only a multi-file is flushed.
def applyOnChunk (s : Files) (i : Nat) (pos len : Nat) : Files × Except Exn (FdCache × Int) :=
  match s.files[i]? with
  | none => (s, .error .invalidArgument)
  | some f =>
      if f.kind.isMultiFile then
        match s.flushFd i with
        | (s, some e) => (s, .error e)
        | (s, none) =>
            match s.files[i]? with
            | none => (s, .error .invalidArgument)
            | some f => (s, f.kind.applyOnChunk pos len)
      else (s, f.kind.applyOnChunk pos len)

end Files

end Mldonkey.Unix32
