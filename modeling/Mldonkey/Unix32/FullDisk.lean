import Mldonkey.Lib.Runs
import Mldonkey.Unix32.Flush

-- Flushes of which some writes fail, as they do on a full disk.
namespace Mldonkey.Unix32

open Patch

-- The writes that the disk refuses: what such a write leaves of the file, which
-- may be anything, and its exception.
abbrev FullDisk := Nat → Bytes → Option (FileKind × Exn)

namespace WriteCall

def whole (offset : Nat) (s : Bytes) : WriteCall := ⟨offset, s, 0, s.length⟩

-- The first write ends before the second one begins.
def Before (w w' : WriteCall) : Prop := w.pos + w.len ≤ w'.pos

@[simp] theorem bytes_whole (offset : Nat) (s : Bytes) : (whole offset s).bytes = s :=
  region_all s

end WriteCall

-- What a flush leaves, with the writes that were done.
structure FlushedOn extends Flushed where
  written : List WriteCall

def writeOn (disk : FullDisk) (kind : FileKind) (offset : Nat) (s : Bytes) :
    FileKind × Option Exn :=
  match disk offset s with
  | some (kind, e) => (kind, some e)
  | none =>
      match kind.write offset s 0 s.length with
      | .ok kind => (kind, none)
      | .error e => (kind, some e)

def flushBufferOn (disk : FullDisk) (kind : FileKind) (bufferedBytes : Int) (s : Bytes)
    (offset : Nat) (buffers : List WriteCall) : FlushedOn :=
  match (if s.length > 0 then writeOn disk kind offset s else (kind, none)) with
  | (kind, none) => ⟨⟨kind, bufferedBytes - s.length, buffers, none⟩, [.whole offset s]⟩
  | (kind, some e) => ⟨⟨kind, bufferedBytes, .whole offset s :: buffers, some e⟩, []⟩

def iterInOn (disk : FullDisk) (kind : FileKind) (bufferedBytes : Int) (buffer : Bytes)
    (offset len : Nat) : List WriteCall → FlushedOn
  | [] => flushBufferOn disk kind bufferedBytes buffer offset []
  | w :: tail =>
      let inOffset : Int := (offset + len : Nat) - w.pos
      if inOffset = 0 then
        iterInOn disk kind bufferedBytes (buffer ++ w.bytes) offset (len + w.len) tail
      else if inOffset < 0 then
        let r := flushBufferOn disk kind bufferedBytes buffer offset (w :: tail)
        match r.error with
        | some _ => r
        | none =>
            let r' := iterInOn disk r.kind r.bufferedBytes w.bytes w.pos w.len tail
            { r' with written := r.written ++ r'.written }
      else
        let keepLen : Int := w.len - inOffset
        if keepLen ≤ 0 then iterInOn disk kind (bufferedBytes - w.len) buffer offset len tail
        else
          let newPos : Int := w.len - keepLen
          iterInOn disk kind (bufferedBytes - newPos)
            (buffer ++ region w.string (w.stringPos + newPos.toNat) keepLen.toNat) offset
            (len + keepLen.toNat) tail

-- The writes done for each file.
abbrev Written := Nat → List WriteCall

namespace Files

-- find_writable. A file that was destroyed is not in the table.
def findOpenWritable (s : Files) (i : Nat) : Option Nat :=
  match s.files[i]? with
  | none => none
  | some f =>
      if f.writable then some i
      else s.files.findIdx? fun g =>
        g.filename = f.filename && g.writable && !(g.kind matches .destroyed)

def flushFdOn (disk : FullDisk) (s : Files) (i : Nat) : Files × Option Exn × Written :=
  match s.findOpenWritable i with
  | none => (s, none, fun _ => [])
  | some j =>
      match s.files[j]? with
      | none => (s, none, fun _ => [])
      | some f =>
          match sorted f.buffers with
          | [] => (s, none, fun _ => [])
          | w :: tail =>
              let r := iterInOn disk f.kind s.bufferedBytes w.bytes w.pos w.len tail
              ({ s.setFile j { f with kind := r.kind, buffers := r.buffers } with
                  bufferedBytes := r.bufferedBytes }, r.error,
                fun k => if k = j then r.written else [])

-- The state after the files of the list were flushed, those that failed, and the
-- writes that were done.
def flushAllOn (disk : Nat → FullDisk) : List Nat → Files → Files × List Nat × Written
  | [], s => (s, [], fun _ => [])
  | i :: tail, s =>
      match s.flushFdOn (disk i) i with
      | (s, error, written) =>
          let (s, failed, written') := flushAllOn disk tail (s.setError i error)
          (s, (if error.isSome then i :: failed else failed), fun k => written k ++ written' k)

def flushOn (disk : Nat → FullDisk) (s : Files) : Files × Written :=
  let (s', modified, written) := flushAllOn disk s.modifiedFiles s
  ({ s' with modifiedFiles := modified }, written)

def bufferedWriteOn (disk : Nat → FullDisk) (s : Files) (i : Nat) (w : WriteCall) : Files :=
  match s.files[i]? with
  | none => s
  | some f =>
      match f.error with
      | some _ => s
      | none =>
          if w.len > 0 then
            let s := s.push i w
            if s.bufferedBytes > maxBuffered then (s.flushOn disk).1 else s
          else s

end Files

-- What is done with the files. A file is opened, its contents change otherwise than by a
-- flush or it is destroyed, a write is buffered, and pending writes are flushed; read, close,
-- exists and remove begin with flush_fd.
inductive BufferOp
  | openFile (kind : FileKind) (filename : String) (writable : Bool)
  | changeKind (i : Nat) (kind : FileKind)
  | bufferedWrite (disk : Nat → FullDisk) (i : Nat) (w : WriteCall)
  | bufferedWriteCopy (disk : Nat → FullDisk) (i : Nat) (w : WriteCall)
  | flushFd (disk : FullDisk) (i : Nat)
  | flush (disk : Nat → FullDisk)

namespace BufferOp

def next : BufferOp → Files → Files
  | openFile kind filename writable, s =>
      { s with files := s.files ++ [⟨kind, filename, writable, none, []⟩] }
  | changeKind i kind, s => { s with files := s.files.modify i fun f => { f with kind := kind } }
  | bufferedWrite disk i w, s => s.bufferedWriteOn disk i w
  | bufferedWriteCopy disk i w, s => s.bufferedWriteOn disk i w.copy
  | flushFd disk i, s => (s.flushFdOn disk i).1
  | flush disk, s => (s.flushOn disk).1

-- A write has its bytes in the string.
def Valid : BufferOp → Prop
  | bufferedWrite _ _ w | bufferedWriteCopy _ _ w => w.stringPos + w.len ≤ w.string.length
  | _ => True

end BufferOp

-- The states that files reach, whatever the disk refuses.
def Buffering : Files → Prop :=
  Runs.Reach BufferOp.next (fun s => s = ⟨[], 0, []⟩) fun _ op => op.Valid

-- The writes of `L` that are pending are done by `W`, but for those that stay pending in `L'`:
-- nothing is left out, and no position is written twice.
structure Kept (L W L' : List WriteCall) : Prop where
  bytes : ∀ F, under F (W ++ sorted L') = under F (sorted L)
  apart : W.Pairwise WriteCall.Before
  pending : ∀ w ∈ W, ∀ w' ∈ L', w.Before w'
  starts : ∀ w ∈ W ++ L', ∃ v ∈ L, v.pos ≤ w.pos

variable {kind : FileKind} {disk : FullDisk} {F buf : Bytes} {b len : Nat} {g : Int}
  {w : WriteCall} {L L' L'' W W' tail : List WriteCall}

-- On a disk that refuses nothing the flush is the one without failures.
theorem flushBufferOn_none (kind : FileKind) (g : Int) (s : Bytes) (b : Nat)
    (L : List WriteCall) :
    (flushBufferOn (fun _ _ => none) kind g s b L).toFlushed = flushBuffer kind g s b L := by
  unfold flushBufferOn flushBuffer writeOn
  by_cases hs : s.length > 0
  · rw [if_pos hs, if_pos hs]
    cases kind.write b s 0 s.length with
    | ok kind => rfl
    | error e => rfl
  · rw [if_neg hs, if_neg hs]

theorem iterInOn_none (kind : FileKind) (g : Int) (buf : Bytes) (b len : Nat)
    (L : List WriteCall) :
    (iterInOn (fun _ _ => none) kind g buf b len L).toFlushed = iterIn kind g buf b len L := by
  induction L generalizing kind g buf b len with
  | nil => exact flushBufferOn_none kind g buf b []
  | cons w L ih =>
      have hflush := flushBufferOn_none kind g buf b (w :: L)
      rw [iterInOn, iterIn]
      simp only
      split
      · exact ih ..
      split
      · rw [← hflush]
        cases (flushBufferOn (fun _ _ => none) kind g buf b (w :: L)).error with
        | some e => rfl
        | none => exact ih ..
      split
      · exact ih ..
      · exact ih ..

theorem Files.flushFdOn_none {s : Files} {i : Nat} (h : s.findOpenWritable i = s.findWritable i) :
    ((s.flushFdOn (fun _ _ => none) i).1, (s.flushFdOn (fun _ _ => none) i).2.1) =
      s.flushFd i := by
  unfold flushFdOn flushFd
  rw [h]
  cases s.findWritable i with
  | none => rfl
  | some j =>
  cases hf : s.files[j]? with
  | none => simp only [hf]
  | some f =>
  cases hL : sorted f.buffers with
  | nil => simp only [hf, hL]
  | cons w tail => simp only [hf, hL, ← iterInOn_none]

theorem under_append (F : Bytes) (L L' : List WriteCall) :
    under F (L ++ L') = under (under F L') L := List.foldr_append

-- Writes that do not meet may be done in either order.
theorem writeFlat_eq_under (h : W.Pairwise WriteCall.Before) (F : Bytes) :
    writeFlat F W = under F W := by
  induction W generalizing F with
  | nil => rfl
  | cons w W ih =>
      obtain ⟨hw, hW⟩ := List.pairwise_cons.mp h
      refine (ih hW (patch F w.pos w.bytes)).trans (under_patch fun w' hw' => ?_)
      rw [w.length_bytes]
      exact hw w' hw'

namespace Kept

theorem refl (L : List WriteCall) : Kept L [] L :=
  ⟨fun _ => rfl, .nil, by simp, fun w hw => ⟨w, hw, le_rfl⟩⟩

theorem trans (h : Kept L W L') (h' : Kept L' W' L'') : Kept L (W ++ W') L'' where
  bytes F := by rw [List.append_assoc, under_append, h'.bytes, ← under_append, h.bytes]
  apart := by
    refine List.pairwise_append.mpr ⟨h.apart, h'.apart, fun w hw w' hw' => ?_⟩
    obtain ⟨v, hv, hle⟩ := h'.starts w' (List.mem_append_left _ hw')
    exact (h.pending w hw v hv).trans hle
  pending w hw w' hw' := by
    rcases List.mem_append.mp hw with hw | hw
    · obtain ⟨v, hv, hle⟩ := h'.starts w' (List.mem_append_right _ hw')
      exact (h.pending w hw v hv).trans hle
    · exact h'.pending w hw w' hw'
  starts w hw := by
    rw [List.append_assoc] at hw
    rcases List.mem_append.mp hw with hw | hw
    · exact h.starts w (List.mem_append_left _ hw)
    · obtain ⟨v, hv, hle⟩ := h'.starts w hw
      obtain ⟨u, hu, hle'⟩ := h.starts v (List.mem_append_right _ hv)
      exact ⟨u, hu, hle'.trans hle⟩

-- When nothing is pending any more, the writes made the array that they were to make.
theorem writeFlat_eq (h : Kept L W []) (F : Bytes) : writeFlat F W = under F (sorted L) := by
  rw [writeFlat_eq_under h.apart, ← h.bytes, show sorted [] = [] from rfl, List.append_nil]

end Kept

def pendingBytes (L : List WriteCall) : Int := (L.map fun w => (w.len : Int)).sum

@[simp] theorem pendingBytes_cons (w : WriteCall) (L : List WriteCall) :
    pendingBytes (w :: L) = w.len + pendingBytes L := rfl

-- What the loop does with the bytes gathered from `b` on and the rest of the sorted writes.
structure Loop (g : Int) (b : Nat) (buf : Bytes) (tail : List WriteCall) (r : FlushedOn) :
    Prop where
  count : r.bufferedBytes - pendingBytes r.buffers = g - (buf.length + pendingBytes tail)
  bytes : ∀ F, under F (r.written ++ r.buffers) = patch (under F tail) b buf
  apart : r.written.Pairwise WriteCall.Before
  pending : ∀ w ∈ r.written, ∀ w' ∈ r.buffers, w.Before w'
  starts : ∀ w ∈ r.written ++ r.buffers, b ≤ w.pos
  sorted : r.buffers.Pairwise WriteCall.Le
  emptied : r.error = none → r.buffers = []
  refused : r.error ≠ none → ∃ w L, r.buffers = w :: L ∧ ∀ w' ∈ L, w.Before w'

theorem under_cons (F : Bytes) (w : WriteCall) (L : List WriteCall) :
    under F (w :: L) = patch (under F L) w.pos w.bytes := rfl

theorem under_whole (F : Bytes) (b : Nat) (buf : Bytes) (L : List WriteCall) :
    under F (.whole b buf :: L) = patch (under F L) b buf := by
  rw [under_cons, WriteCall.bytes_whole]
  rfl

-- Either everything gathered is written, or it is all pending again.
theorem flushBufferOn_cases (kind : FileKind) (g : Int) (b : Nat) (buf : Bytes)
    (tail : List WriteCall) :
    (∃ kind', flushBufferOn disk kind g buf b tail =
      ⟨⟨kind', g - buf.length, tail, none⟩, [.whole b buf]⟩) ∨
    ∃ kind' e, flushBufferOn disk kind g buf b tail =
      ⟨⟨kind', g, .whole b buf :: tail, some e⟩, []⟩ := by
  unfold flushBufferOn
  rcases (if buf.length > 0 then writeOn disk kind b buf else (kind, none)) with ⟨kind', _ | e⟩
  · exact .inl ⟨kind', rfl⟩
  · exact .inr ⟨kind', e, rfl⟩

-- The bytes are pending again, in front of writes that begin behind them.
theorem Loop.failed {e : Exn} (hsorted : tail.Pairwise WriteCall.Le)
    (hbehind : ∀ w ∈ tail, b + buf.length < w.pos) :
    Loop g b buf tail ⟨⟨kind, g, .whole b buf :: tail, some e⟩, []⟩ where
  count := by simp [WriteCall.whole]
  bytes F := under_whole F b buf tail
  apart := .nil
  pending := by simp
  starts := List.forall_mem_cons.mpr
    ⟨le_rfl, fun w hw => (Nat.le_add_right b _).trans (hbehind w hw).le⟩
  sorted := List.pairwise_cons.mpr
    ⟨fun w hw => .inl ((Nat.le_add_right b _).trans_lt (hbehind w hw)), hsorted⟩
  emptied h := by cases h
  refused _ := ⟨_, _, rfl, fun w hw => (hbehind w hw).le⟩

-- The bytes are written, and the loop goes on behind a gap.
theorem Loop.written {r : FlushedOn} (hgap : b + buf.length ≤ w.pos)
    (hr : Loop (g - buf.length) w.pos w.bytes tail r) :
    Loop g b buf (w :: tail) { r with written := [.whole b buf] ++ r.written } where
  count := by
    have := hr.count
    rw [w.length_bytes] at this
    rw [pendingBytes_cons]
    show r.bufferedBytes - pendingBytes r.buffers = _
    omega
  bytes F := by
    show under F (.whole b buf :: (r.written ++ r.buffers)) = _
    rw [under_whole, hr.bytes]
    rfl
  apart := List.pairwise_cons.mpr
    ⟨fun v hv => hgap.trans (hr.starts v (List.mem_append_left _ hv)), hr.apart⟩
  pending v hv v' hv' := by
    rcases List.mem_cons.mp hv with rfl | hv
    · exact hgap.trans (hr.starts v' (List.mem_append_right _ hv'))
    · exact hr.pending v hv v' hv'
  starts v hv := by
    rcases List.mem_cons.mp hv with rfl | hv
    · exact le_rfl
    · exact (Nat.le_add_right b _).trans (hgap.trans (hr.starts v hv))
  sorted := hr.sorted
  emptied := hr.emptied
  refused := hr.refused

theorem iterInOn_loop (hlen : buf.length = len) (hsorted : tail.Pairwise WriteCall.Le)
    (hfirst : ∀ w ∈ tail, b ≤ w.pos) :
    Loop g b buf tail (iterInOn disk kind g buf b len tail) := by
  induction tail generalizing kind g buf b len with
  | nil =>
      rw [iterInOn]
      rcases @flushBufferOn_cases disk kind g b buf [] with ⟨kind', h⟩ | ⟨kind', e, h⟩
      · rw [h]
        exact ⟨by simp [pendingBytes], fun F => under_whole F b buf [], List.pairwise_singleton _ _,
          by simp, List.forall_mem_cons.mpr ⟨le_rfl, by simp⟩, .nil, fun _ => rfl,
          fun h => absurd rfl h⟩
      · rw [h]
        exact .failed .nil (by simp)
  | cons w tail ih =>
      obtain ⟨hle, hfirst⟩ := List.forall_mem_cons.mp hfirst
      have hcons := hsorted
      obtain ⟨hbehind, hsorted⟩ := List.pairwise_cons.mp hsorted
      have hbehind : ∀ w' ∈ tail, w.pos ≤ w'.pos := fun w' hw' =>
        (hbehind w' hw').elim Nat.le_of_lt fun h => Nat.le_of_eq h.1
      rw [iterInOn]
      by_cases hgap : b + len < w.pos
      · -- a gap: what was gathered is written, or stays
        simp only
        rw [if_neg (by omega), if_pos (by omega)]
        rcases @flushBufferOn_cases disk kind g b buf (w :: tail) with ⟨kind', h⟩ | ⟨kind', e, h⟩
        · rw [h]
          exact .written (by omega) (@ih kind' w.bytes w.pos w.len _ w.length_bytes hsorted hbehind)
        · rw [h]
          exact .failed hcons (List.forall_mem_cons.mpr ⟨by omega, fun w' hw' =>
            (show b + buf.length < w.pos by omega).trans_le (hbehind w' hw')⟩)
      · -- the write touches what was gathered, or overlaps it
        have hmerge : ∀ F, patch (under F tail) b (buf ++ w.bytes.drop (b + len - w.pos)) =
            patch (under F (w :: tail)) b buf := fun F => by
          rw [under_cons, ← hlen]
          exact (patch_merge _ hle (by omega)).symm
        -- what the rest of the loop does with more bytes and a smaller count
        have hrest : ∀ {buf' : Bytes} {g' : Int} {r : FlushedOn},
            buf' = buf ++ w.bytes.drop (b + len - w.pos) →
            g' - buf'.length = g - (buf.length + w.len) → Loop g' b buf' tail r →
            Loop g b buf (w :: tail) r := fun hbuf hg hr =>
          ⟨by have := hr.count; rw [pendingBytes_cons]; omega,
            fun F => by rw [hr.bytes, hbuf, hmerge], hr.apart, hr.pending, hr.starts, hr.sorted,
            hr.emptied, hr.refused⟩
        simp only
        by_cases htouch : w.pos = b + len
        · rw [if_pos (by omega)]
          have hdrop : w.bytes.drop (b + len - w.pos) = w.bytes := by
            rw [htouch, Nat.sub_self, List.drop_zero]
          refine hrest (by rw [hdrop]) ?_
            (ih (by rw [List.length_append, hlen, w.length_bytes]) hsorted hfirst)
          rw [List.length_append, w.length_bytes]
          omega
        rw [if_neg (by omega), if_neg (by omega)]
        by_cases hkeep : (w.len : Int) - ((b + len : Nat) - w.pos) ≤ 0
        · rw [if_pos hkeep]
          have hdrop : w.bytes.drop (b + len - w.pos) = [] :=
            List.drop_of_length_le (by rw [w.length_bytes]; omega)
          exact hrest (by rw [hdrop, List.append_nil]) (by omega) (ih hlen hsorted hfirst)
        · rw [if_neg hkeep]
          have hnew : ((w.len : Int) - ((w.len : Int) - ((b + len : Nat) - w.pos))).toNat =
              b + len - w.pos := by omega
          have hlast : ((w.len : Int) - ((b + len : Nat) - w.pos)).toNat =
              w.len - (b + len - w.pos) := by omega
          have hdrop : w.bytes.drop (b + len - w.pos) =
              region w.string (w.stringPos + (b + len - w.pos)) (w.len - (b + len - w.pos)) :=
            drop_region _ _ (by omega)
          rw [hnew, hlast]
          refine hrest (by rw [hdrop]) ?_
            (ih (by rw [List.length_append, hlen, length_region]) hsorted hfirst)
          rw [List.length_append, length_region]
          omega

theorem pendingBytes_perm (h : L.Perm L') : pendingBytes L = pendingBytes L' :=
  (h.map _).sum_eq

-- The pending writes of a file are flushed, as far as the disk has room.
structure FlushedFrom (g : Int) (L : List WriteCall) (r : FlushedOn) : Prop where
  kept : Kept L r.written r.buffers
  count : r.bufferedBytes - pendingBytes r.buffers = g - pendingBytes L
  emptied : r.error = none → r.buffers = []
  sorted : r.buffers.Pairwise WriteCall.Le
  refused : r.error ≠ none → ∃ w L, r.buffers = w :: L ∧ ∀ w' ∈ L, w.Before w'

-- The first write that is pending was refused, and may have put its first bytes in the file:
-- when everything is written, nothing is left of them.
theorem Kept.writeFlat_refused (h : Kept (w :: L) W []) (hs : (w :: L).Pairwise WriteCall.Le)
    (hbehind : ∀ w' ∈ L, w.Before w') (k : Nat) (F : Bytes) :
    writeFlat (patch F w.pos (w.bytes.take k)) W = writeFlat F W := by
  have hsorted : sorted (w :: L) = w :: L := hs.insertionSort_eq
  have hpatch : under (patch F w.pos (w.bytes.take k)) L =
      patch (under F L) w.pos (w.bytes.take k) := by
    refine under_patch fun w' hw' => ?_
    have hle : w.pos + w.len ≤ w'.pos := hbehind w' hw'
    rw [List.length_take, w.length_bytes]
    omega
  rw [h.writeFlat_eq, h.writeFlat_eq, hsorted, under_cons, under_cons, hpatch,
    patch_patch _ _ (by rw [List.length_take]; omega)]

theorem iterInOn_flushed (h : sorted L = w :: tail) :
    FlushedFrom g L (iterInOn disk kind g w.bytes w.pos w.len tail) := by
  have hpair := pairwise_le_sorted L
  rw [h] at hpair
  obtain ⟨hbehind, hsorted⟩ := List.pairwise_cons.mp hpair
  have hr := @iterInOn_loop kind disk w.bytes w.pos w.len g tail w.length_bytes hsorted
    fun w' hw' => (hbehind w' hw').elim Nat.le_of_lt fun h => Nat.le_of_eq h.1
  have hmem : w ∈ L := (sorted_perm L).mem_iff.mp (h ▸ List.mem_cons_self)
  refine ⟨⟨fun F => ?_, hr.apart, hr.pending, fun v hv => ⟨w, hmem, hr.starts v hv⟩⟩, ?_,
    hr.emptied, hr.sorted, hr.refused⟩
  · rw [show sorted _ = _ from hr.sorted.insertionSort_eq, hr.bytes, h]
    rfl
  · rw [hr.count, ← pendingBytes_perm (sorted_perm L), h, w.length_bytes, pendingBytes_cons]

namespace Files

variable {s s' s'' : Files} {f f' : File} {i j : Nat} {V V' : Written}

-- The bytes that are pending for all files.
def pendingTotal (s : Files) : Int := (s.files.map fun f => pendingBytes f.buffers).sum

-- What flushes do: each file keeps what they did not write, and the count goes with it.
structure Flushing (s s' : Files) (V : Written) : Prop where
  kept : ∀ (j : Nat) (f : File), s.files[j]? = some f →
    ∃ f', s'.files[j]? = some f' ∧ Kept f.buffers (V j) f'.buffers
  count : s'.bufferedBytes - s'.pendingTotal = s.bufferedBytes - s.pendingTotal

namespace Flushing

theorem refl (s : Files) : s.Flushing s fun _ => [] := ⟨fun _ f hf => ⟨f, hf, .refl _⟩, rfl⟩

theorem trans (h : s.Flushing s' V) (h' : s'.Flushing s'' V') :
    s.Flushing s'' fun k => V k ++ V' k where
  kept j f hf := by
    obtain ⟨f', hf', hk⟩ := h.kept j f hf
    obtain ⟨f'', hf'', hk'⟩ := h'.kept j f' hf'
    exact ⟨f'', hf'', hk.trans hk'⟩
  count := h'.count.trans h.count

end Flushing

theorem sum_set {l : List File} {p : File → Int} (h : l[j]? = some f) :
    ((l.set j f').map p).sum = (l.map p).sum - p f + p f' := by
  induction l generalizing j with
  | nil => cases h
  | cons x l ih =>
      cases j with
      | zero =>
          cases h
          simp only [List.set_cons_zero, List.map_cons, List.sum_cons]
          omega
      | succ j =>
          have := ih (j := j) h
          simp only [List.set_cons_succ, List.map_cons, List.sum_cons]
          omega

theorem modify_eq_set {l : List File} {p : File → File} (h : l[j]? = some f) :
    l.modify j p = l.set j (p f) := by
  obtain ⟨hj, hget⟩ := List.getElem?_eq_some_iff.mp h
  rw [List.modify_eq_set_getElem? , h]
  rfl

-- A file whose pending writes stay counts as before.
theorem pendingTotal_modify {p : File → File} (hp : ∀ f, (p f).buffers = f.buffers) :
    ((s.files.modify i p).map fun f => pendingBytes f.buffers).sum = s.pendingTotal := by
  cases hf : s.files[i]? with
  | none => rw [List.modify_eq_self (by simpa using hf)]; rfl
  | some f =>
      rw [modify_eq_set hf, sum_set hf, hp, pendingTotal]
      omega

theorem flushing_setError (s : Files) (i : Nat) (error : Option Exn) :
    s.Flushing (s.setError i error) fun _ => [] where
  kept j f hf := by
    refine ⟨if i = j then { f with error := error } else f, ?_, ?_⟩
    · show (s.files.modify i _)[j]? = _
      rw [List.getElem?_modify, hf]
      split <;> rfl
    · split <;> exact .refl _
  count := by
    have hsum := pendingTotal_modify (s := s) (i := i)
      (p := fun f => { f with error := error }) fun _ => rfl
    rw [← hsum]
    rfl

theorem flushFdOn_flushing (disk : FullDisk) (s : Files) (i : Nat) :
    s.Flushing (s.flushFdOn disk i).1 (s.flushFdOn disk i).2.2 := by
  unfold flushFdOn
  cases hi : s.findOpenWritable i with
  | none => exact .refl s
  | some j =>
  cases hf : s.files[j]? with
  | none => simpa only [hf] using Flushing.refl s
  | some f =>
  cases hL : sorted f.buffers with
  | nil => simpa only [hf, hL] using Flushing.refl s
  | cons w tail =>
      have hr := @iterInOn_flushed f.kind disk s.bufferedBytes w f.buffers tail hL
      have hj := (List.getElem?_eq_some_iff.mp hf).1
      simp only [hf, hL, setFile]
      refine ⟨fun k x hx => ?_, ?_⟩
      · by_cases hk : k = j
        · subst hk
          rw [hf] at hx
          cases hx
          exact ⟨_, List.getElem?_set_self hj, by rw [if_pos rfl]; exact hr.kept⟩
        · rw [if_neg hk, List.getElem?_set_ne (Ne.symm hk)]
          exact ⟨x, hx, .refl _⟩
      · have hcount := hr.count
        rw [pendingTotal, sum_set hf, pendingTotal]
        dsimp only
        omega

-- After flush_fd without an exception nothing is pending.
theorem flushFdOn_emptied (hj : s.findOpenWritable i = some j) (hf : s.files[j]? = some f)
    (h : (s.flushFdOn disk i).2.1 = none) :
    ∃ f', (s.flushFdOn disk i).1.files[j]? = some f' ∧ f'.buffers = [] := by
  unfold flushFdOn at h ⊢
  simp only [hj, hf] at h ⊢
  cases hL : sorted f.buffers with
  | nil => exact ⟨f, hf, List.perm_nil.mp (hL ▸ (sorted_perm f.buffers).symm)⟩
  | cons w tail =>
      simp only [hL] at h ⊢
      exact ⟨_, List.getElem?_set_self (List.getElem?_eq_some_iff.mp hf).1,
        (iterInOn_flushed hL).emptied h⟩

-- After flush_fd with an exception the first pending write is the one that was refused.
theorem flushFdOn_refused (hj : s.findOpenWritable i = some j) (hf : s.files[j]? = some f)
    (h : (s.flushFdOn disk i).2.1 ≠ none) :
    ∃ f' w L, (s.flushFdOn disk i).1.files[j]? = some f' ∧ f'.buffers = w :: L ∧
      (w :: L).Pairwise WriteCall.Le ∧ ∀ w' ∈ L, w.Before w' := by
  unfold flushFdOn at h ⊢
  simp only [hj, hf] at h ⊢
  cases hL : sorted f.buffers with
  | nil => simp [hL] at h
  | cons w tail =>
      simp only [hL] at h ⊢
      have hr := @iterInOn_flushed f.kind disk s.bufferedBytes w f.buffers tail hL
      obtain ⟨v, L, hv, hbehind⟩ := hr.refused h
      exact ⟨_, v, L, List.getElem?_set_self (List.getElem?_eq_some_iff.mp hf).1, hv,
        hv ▸ hr.sorted, hbehind⟩

theorem flushAllOn_flushing (disk : Nat → FullDisk) (l : List Nat) (s : Files) :
    s.Flushing (flushAllOn disk l s).1 (flushAllOn disk l s).2.2 := by
  induction l generalizing s with
  | nil => exact .refl s
  | cons i l ih =>
      have h := (flushFdOn_flushing (disk i) s i).trans
        (flushing_setError _ i (s.flushFdOn (disk i) i).2.1)
      simp only [List.append_nil] at h
      exact h.trans (ih _)

theorem flushOn_flushing (disk : Nat → FullDisk) (s : Files) :
    s.Flushing (s.flushOn disk).1 (s.flushOn disk).2 :=
  have h := flushAllOn_flushing disk s.modifiedFiles s
  ⟨h.kept, h.count⟩

-- The buffered bytes are those that are pending.
def Accounted (s : Files) : Prop := s.bufferedBytes = s.pendingTotal

theorem Flushing.accounted (h : s.Flushing s' V) (hs : s.Accounted) : s'.Accounted := by
  have := h.count
  simp only [Accounted] at hs ⊢
  omega

theorem accounted_push {w : WriteCall} (hs : s.Accounted) (hf : s.files[i]? = some f) :
    (s.push i w).Accounted := by
  have hfiles : (s.push i w).pendingTotal = s.pendingTotal + w.len := by
    rw [pendingTotal, push, modify_eq_set hf, sum_set hf, pendingTotal]
    simp only [pendingBytes_cons]
    omega
  rw [Accounted, hfiles, ← hs]
  rfl

theorem accounted_bufferedWriteOn (disk : Nat → FullDisk) {w : WriteCall} (hs : s.Accounted) :
    (s.bufferedWriteOn disk i w).Accounted := by
  unfold bufferedWriteOn
  cases hf : s.files[i]? with
  | none => exact hs
  | some f =>
      dsimp only
      split
      · exact hs
      split
      · have hpush := accounted_push (w := w) hs hf
        split
        · exact (flushOn_flushing disk _).accounted hpush
        · exact hpush
      · exact hs

-- Without an exception everything that was pending is written.
theorem flushFdOn_kept_nil (hj : s.findOpenWritable i = some j) (hf : s.files[j]? = some f)
    (h : (s.flushFdOn disk i).2.1 = none) : Kept f.buffers ((s.flushFdOn disk i).2.2 j) [] := by
  obtain ⟨g, hg, hkept⟩ := (flushFdOn_flushing disk s i).kept j f hf
  obtain ⟨g', hg', hnil⟩ := flushFdOn_emptied hj hf h
  obtain rfl : g = g' := Option.some.inj (hg.symm.trans hg')
  rwa [hnil] at hkept

end Files

open Files

theorem BufferOp.accounted {s : Files} {op : BufferOp} (hs : s.Accounted) :
    (op.next s).Accounted := by
  cases op with
  | openFile kind filename writable =>
      have htotal : (next (.openFile kind filename writable) s).pendingTotal = s.pendingTotal := by
        simp [next, pendingTotal, pendingBytes]
      exact hs.trans htotal.symm
  | changeKind i kind =>
      have htotal := pendingTotal_modify (s := s) (i := i)
        (p := fun f => { f with kind := kind }) fun _ => rfl
      exact hs.trans htotal.symm
  | bufferedWrite disk i w => exact accounted_bufferedWriteOn disk hs
  | bufferedWriteCopy disk i w => exact accounted_bufferedWriteOn disk hs
  | flushFd disk i => exact (flushFdOn_flushing disk s i).accounted hs
  | flush disk => exact (flushOn_flushing disk s).accounted hs

theorem Buffering.accounted {s : Files} (h : Buffering s) : s.Accounted :=
  h.inv (fun s hs => by rw [hs]; rfl) fun _ _ hs _ => BufferOp.accounted hs

-- A call of flush_fd or of flush, and what the disk refuses meanwhile.
inductive FlushCall
  | flushFd (disk : FullDisk) (i : Nat)
  | flush (disk : Nat → FullDisk)

-- The state after the calls, and the writes that they did.
def flushes : List FlushCall → Files → Files × Written
  | [], s => (s, fun _ => [])
  | .flushFd disk i :: calls, s =>
      let (s', written) := flushes calls (s.flushFdOn disk i).1
      (s', fun k => (s.flushFdOn disk i).2.2 k ++ written k)
  | .flush disk :: calls, s =>
      let (s', written) := flushes calls (s.flushOn disk).1
      (s', fun k => (s.flushOn disk).2 k ++ written k)

theorem flushes_flushing (calls : List FlushCall) (s : Files) :
    s.Flushing (flushes calls s).1 (flushes calls s).2 := by
  induction calls generalizing s with
  | nil => exact .refl s
  | cons call calls ih =>
      cases call with
      | flushFd disk i => exact (flushFdOn_flushing disk s i).trans (ih _)
      | flush disk => exact (flushOn_flushing disk s).trans (ih _)

-- In every state that is reached the buffered bytes are counted, and whatever the disk refuses,
-- flushes keep what they do not write; when flush_fd succeeds at last, the writes of all of them
-- meet nowhere and give the array that one successful flush gives, also when the write that was
-- refused had put some of its bytes in the file.
theorem flushes_keep_pending {s : Files} (h : Buffering s) :
    s.bufferedBytes = s.pendingTotal ∧
    (∀ (calls : List FlushCall) (j : Nat) (f : File), s.files[j]? = some f →
      (∃ f', (flushes calls s).1.files[j]? = some f' ∧
        Kept f.buffers ((flushes calls s).2 j) f'.buffers) ∧
      ∀ (disk : FullDisk) (i : Nat), (flushes calls s).1.findOpenWritable i = some j →
        ((flushes calls s).1.flushFdOn disk i).2.1 = none →
        let written := (flushes calls s).2 j ++ ((flushes calls s).1.flushFdOn disk i).2.2 j
        written.Pairwise WriteCall.Before ∧
          ∀ F, writeFlat F written = under F (sorted f.buffers)) ∧
    ∀ (disk disk' : FullDisk) (i i' j : Nat) (f : File), s.findOpenWritable i = some j →
      s.files[j]? = some f → (s.flushFdOn disk i).2.1 ≠ none →
      (s.flushFdOn disk i).1.findOpenWritable i' = some j →
      ((s.flushFdOn disk i).1.flushFdOn disk' i').2.1 = none →
      ∃ f' w L, (s.flushFdOn disk i).1.files[j]? = some f' ∧ f'.buffers = w :: L ∧
        ∀ k F, writeFlat (patch (writeFlat F ((s.flushFdOn disk i).2.2 j)) w.pos (w.bytes.take k))
          (((s.flushFdOn disk i).1.flushFdOn disk' i').2.2 j) = under F (sorted f.buffers) := by
  refine ⟨h.accounted, fun calls j f hf => ?_, fun disk disk' i i' j f hj hf hsome hj' hnone => ?_⟩
  · obtain ⟨f', hf', hkept⟩ := (flushes_flushing calls s).kept j f hf
    refine ⟨⟨f', hf', hkept⟩, fun disk i hj hnone => ?_⟩
    have hall := hkept.trans (flushFdOn_kept_nil hj hf' hnone)
    exact ⟨hall.apart, hall.writeFlat_eq⟩
  · obtain ⟨f', w, L, hf', hbuf, hsorted, hbehind⟩ := flushFdOn_refused hj hf hsome
    obtain ⟨g, hg, hkept⟩ := (flushFdOn_flushing disk s i).kept j f hf
    obtain rfl : f' = g := Option.some.inj (hf'.symm.trans hg)
    have hkept' := flushFdOn_kept_nil hj' hf' hnone
    refine ⟨f', w, L, hf', hbuf, fun k F => ?_⟩
    have hall := (hkept.trans hkept').writeFlat_eq F
    rw [hbuf] at hkept'
    rw [hkept'.writeFlat_refused hsorted hbehind, ← hall]
    exact List.foldl_append.symm

-- Of three writes two join.
def buffered : Files :=
  [BufferOp.openFile (.diskFile ⟨true, []⟩) "f" true,
    .bufferedWrite (fun _ _ _ => none) 0 ⟨8, [5, 6], 0, 2⟩,
    .bufferedWrite (fun _ _ _ => none) 0 ⟨0, [1, 2, 3, 4], 0, 4⟩,
    .bufferedWrite (fun _ _ _ => none) 0 ⟨4, [7, 8], 0, 2⟩].foldl
      (fun s op => op.next s) ⟨[], 0, []⟩

-- The disk is full in the middle of the write at 8.
def refusing : FullDisk := fun offset _ =>
  if offset < 8 then none
  else some (.diskFile ⟨true, [1, 2, 3, 4, 7, 8, 0, 0, 5]⟩, .failure "ENOSPC")

def refused : Files × Option Exn × Written := buffered.flushFdOn refusing 0

-- Two bytes stay pending, and a flush with room gives what the three writes give.
theorem flushes_keep_pending_refused :
    refused.1.bufferedBytes = refused.1.pendingTotal ∧
    (refused.1.bufferedBytes, refused.1.files.map File.buffers) = (2, [[.whole 8 [5, 6]]]) ∧
    refused.2.2 0 = [.whole 0 [1, 2, 3, 4, 7, 8]] ∧
    ∀ F, writeFlat (patch (writeFlat F (refused.2.2 0)) 8 [5])
      ((refused.1.flushFdOn (fun _ _ => none) 0).2.2 0) =
        under F [⟨0, [1, 2, 3, 4], 0, 4⟩, ⟨4, [7, 8], 0, 2⟩, ⟨8, [5, 6], 0, 2⟩] := by
  have hempty : Buffering ⟨[], 0, []⟩ := .start rfl
  have h : Buffering buffered :=
    Runs.Reach.run hempty ⟨trivial, Nat.le_refl 2, Nat.le_refl 4, Nat.le_refl 2, trivial⟩
  have hrefused : Buffering (BufferOp.next (.flushFd refusing 0) buffered) := .step h trivial
  refine ⟨(flushes_keep_pending hrefused).1, rfl, rfl, fun F => ?_⟩
  obtain ⟨f', w, L, hf', hbuf, hall⟩ := (flushes_keep_pending h).2.2 refusing (fun _ _ => none)
    0 0 0 _ rfl rfl (by decide) rfl rfl
  cases hf'
  cases hbuf
  exact hall 1 F

end Mldonkey.Unix32
