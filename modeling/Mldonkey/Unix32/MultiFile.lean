import Mldonkey.Lib.Patch

-- Files on disk, as the cache of file descriptors reads and writes them.
namespace Mldonkey.Unix32

open Patch

abbrev Bytes := List UInt8

inductive Exn
  | endOfFile
  | assertFailure
  | invalidArgument
  -- lseek to a negative offset
  | einval
  | failure (message : String)
  deriving DecidableEq, Repr

-- A file: what it holds, and whether it was opened for writing.
structure FdCache where
  writable : Bool
  bytes : Bytes
  deriving DecidableEq, Repr

theorem bind_eq_ok {α β : Type} {x : Except Exn α} {f : α → Except Exn β} {b : β} :
    (x >>= f) = .ok b ↔ ∃ a, x = .ok a ∧ f a = .ok b := by
  cases x with
  | error e => exact ⟨fun h => (nomatch h), fun ⟨_, h, _⟩ => nomatch h⟩
  | ok a => exact ⟨fun h => ⟨a, rfl, h⟩, fun ⟨_, h, h'⟩ => Except.ok.inj h ▸ h'⟩

theorem ok_bind {α β : Type} (a : α) (f : α → Except Exn β) :
    ((.ok a : Except Exn α) >>= f) = f a := rfl

theorem error_bind {α β : Type} (e : Exn) (f : α → Except Exn β) :
    ((.error e : Except Exn α) >>= f) = .error e := rfl

namespace FdCache

def getsize64 (t : FdCache) : Nat := t.bytes.length

-- Unix2.really_read puts `len` bytes of the file at `string_pos` of the string.
-- It raises End_of_file when the file ends before, and also when `len` is 0.
def read (file : FdCache) (filePos : Int) (string : Bytes) (stringPos : Nat) (len : Int) :
    Except Exn Bytes :=
  if filePos < 0 then .error .einval
  else if len < 0 ∨ string.length < stringPos + len.toNat then .error .invalidArgument
  else if len = 0 ∨ file.bytes.length < filePos.toNat + len.toNat then .error .endOfFile
  else .ok (patch string stringPos (region file.bytes filePos.toNat len.toNat))

-- Unix2.really_write raises End_of_file when there is nothing to write.
def write (file : FdCache) (filePos : Int) (string : Bytes) (stringPos : Nat) (len : Int) :
    Except Exn FdCache :=
  if file.writable = false then .error .assertFailure
  else if filePos < 0 then .error .einval
  else if len = 0 then .error .endOfFile
  else if len < 0 ∨ string.length < stringPos + len.toNat then .error .invalidArgument
  else .ok { file with
    bytes := patch file.bytes filePos.toNat (region string stringPos len.toNat) }

def bufferLen : Nat := 128 * 1024

-- The loop of copy_chunk; `fuel` bounds its rounds.
def copyLoop (t1 : FdCache) : Nat → FdCache → Int → Int → Int → Except Exn FdCache
  | 0, t2, _, _, _ => .ok t2
  | fuel + 1, t2, pos1, pos2, remaining => do
      let len := min remaining bufferLen
      if len > 0 then
        let buffer ← t1.read pos1 (List.replicate bufferLen 1) 0 len
        let t2 ← t2.write pos2 buffer 0 len
        copyLoop t1 fuel t2 (pos1 + len) (pos2 + len) (remaining - len)
      else return t2

def copyChunk (t1 t2 : FdCache) (pos1 pos2 len : Int) : Except Exn FdCache :=
  copyLoop t1 (len.toNat + 1) t2 pos1 pos2 len

variable {file t1 t2 : FdCache} {string : Bytes} {stringPos pos n : Nat}

theorem read_of_le (hn : 0 < n) (hs : stringPos + n ≤ string.length)
    (hf : pos + n ≤ file.bytes.length) :
    file.read pos string stringPos n = .ok (patch string stringPos (region file.bytes pos n)) := by
  rw [read, if_neg (by omega), if_neg (by omega), if_neg (by omega)]
  rfl

theorem read_zero (hs : stringPos ≤ string.length) :
    file.read pos string stringPos 0 = .error .endOfFile := by
  rw [read, if_neg (by omega), if_neg (by simp; omega), if_pos (.inl rfl)]

theorem write_of_lt (hw : file.writable = true) (hn : 0 < n)
    (hs : stringPos + n ≤ string.length) :
    file.write pos string stringPos n =
      .ok { file with bytes := patch file.bytes pos (region string stringPos n) } := by
  rw [write, if_neg (by simp [hw]), if_neg (by omega), if_neg (by omega), if_neg (by omega)]
  rfl

theorem copyLoop_of_le {fuel p q : Nat} (hw : t2.writable = true) (hfuel : n < fuel)
    (h : p + n ≤ t1.bytes.length) :
    copyLoop t1 fuel t2 p q n =
      .ok { t2 with bytes := patch t2.bytes q (region t1.bytes p n) } := by
  induction fuel generalizing t2 p q n with
  | zero => omega
  | succ fuel ih =>
      rw [copyLoop]
      by_cases hn : n = 0
      · subst hn
        rfl
      have hlen : min (n : Int) bufferLen = (min n bufferLen : Nat) := by omega
      have hbuf : 0 < bufferLen := by decide
      simp only [hlen]
      generalize hm : min n bufferLen = m
      have hread : t1.read p (List.replicate bufferLen 1) 0 m =
          .ok (patch (List.replicate bufferLen 1) 0 (region t1.bytes p m)) :=
        read_of_le (by omega) (by rw [List.length_replicate]; omega) (by omega)
      have hback : region (patch (List.replicate bufferLen 1) 0 (region t1.bytes p m)) 0 m =
          region t1.bytes p m := by
        have := region_patch_self (List.replicate bufferLen (1 : UInt8)) 0 (region t1.bytes p m)
        rwa [length_region] at this
      have hwrite : t2.write q (patch (List.replicate bufferLen 1) 0 (region t1.bytes p m)) 0 m =
          .ok { t2 with bytes := patch t2.bytes q (region t1.bytes p m) } := by
        refine (write_of_lt hw (by omega) ?_).trans (by rw [hback])
        rw [length_patch_of_le (by rw [length_region, List.length_replicate]; omega),
          List.length_replicate]
        omega
      have hrest : copyLoop t1 fuel { t2 with bytes := patch t2.bytes q (region t1.bytes p m) }
          (p + m : Nat) (q + m : Nat) (n - m : Nat) = _ := ih hw (by omega) (by omega)
      rw [if_pos (by omega), hread]
      show (do
        let t2 ← t2.write q (patch (List.replicate bufferLen 1) 0 (region t1.bytes p m)) 0 m
        copyLoop t1 fuel t2 (p + m) (q + m) (n - m)) = _
      rw [hwrite]
      show copyLoop t1 fuel _ (p + m) (q + m) (n - m) = _
      rw [← Nat.cast_add, ← Nat.cast_add, ← Nat.cast_sub (by omega), hrest]
      have hcut : region t1.bytes p n =
          region t1.bytes p m ++ region t1.bytes (p + m) (n - m) := by
        rw [← region_append, Nat.add_sub_cancel' (by omega)]
      rw [hcut, ← patch_append, length_region]

-- The chunk is copied when the source has all of it.
theorem copyChunk_of_le {p q : Nat} (hw : t2.writable = true) (h : p + n ≤ t1.bytes.length) :
    copyChunk t1 t2 p q n = .ok { t2 with bytes := patch t2.bytes q (region t1.bytes p n) } :=
  copyLoop_of_le hw (Nat.lt_succ_self _) h

theorem copyChunk_of_nonpos {pos1 pos2 len : Int} (h : len ≤ 0) :
    copyChunk t1 t2 pos1 pos2 len = .ok t2 := by
  have hlen : ¬ min len (bufferLen : Int) > 0 := by omega
  rw [copyChunk, copyLoop]
  simp only [if_neg hlen]
  rfl

theorem copyChunk_neg {p : Nat} {pos2 : Int} (hw : t2.writable = true) (hpos : pos2 < 0)
    (hn : 0 < n) (h : p + n ≤ t1.bytes.length) :
    copyChunk t1 t2 p pos2 n = .error .einval := by
  have hlen : min (n : Int) bufferLen = (min n bufferLen : Nat) := by omega
  have hbuf : 0 < bufferLen := by decide
  rw [copyChunk, copyLoop]
  simp only [hlen]
  generalize hm : min n bufferLen = m
  have hread : t1.read p (List.replicate bufferLen 1) 0 m =
      .ok (patch (List.replicate bufferLen 1) 0 (region t1.bytes p m)) :=
    read_of_le (by omega) (by rw [List.length_replicate]; omega) (by omega)
  rw [if_pos (by omega), hread, ok_bind, write, if_neg (by simp [hw]), if_pos hpos]
  rfl

end FdCache

-- A file that is kept as a sequence of sub-files.

structure SubFile where
  pos : Nat
  len : Nat
  currentLen : Nat
  fd : FdCache
  deriving DecidableEq, Repr

-- The tree refers to the sub-files by their place in the list of files.
inductive Btree
  | leaf (file : Nat)
  | node (pos : Nat) (tree1 tree2 : Btree)
  deriving Repr

structure MultiFile where
  size : Nat
  files : List SubFile
  tree : Btree
  deriving Repr

namespace Btree

def findFile : Btree → Nat → Nat
  | leaf file, _ => file
  | node pos tree1 tree2, filePos =>
      if filePos < pos then tree1.findFile filePos else tree2.findFile filePos

-- `files` are places with the positions of the sub-files there. The halves of
-- an array with two files or more are shorter, `fuel` is at least its length.
def makeTree : Nat → List (Nat × Nat) → Except Exn Btree
  | _, [] => .error (.failure "make_tree: no files")
  | _, [(file, _)] => .ok (leaf file)
  | 0, _ => .error .assertFailure
  | fuel + 1, files => do
      let middle := files.length / 2
      let tree1 ← makeTree fuel (files.take middle)
      let tree2 ← makeTree fuel (files.drop middle)
      return node ((files.getD middle (0, 0)).2) tree1 tree2

end Btree

-- The sub-files that the tree is made of, those that are not empty.
def cuts : Nat → List SubFile → List (Nat × Nat)
  | _, [] => []
  | i, file :: files =>
      if 0 < file.len then (i, file.pos) :: cuts (i + 1) files else cuts (i + 1) files

-- List.iter over the list that file.tail holds. The function returns the file
-- as it left it, and the argument for the next one.
def doOnRemaining {α : Type} (f : SubFile → α → Int → Except Exn (SubFile × α)) :
    List SubFile → α → Int → Except Exn (List SubFile × α)
  | [], _, _ => .error .assertFailure
  | file :: tail, arg, remaining => do
      let len := min remaining file.len
      let (file, arg) ← f file arg len
      let remaining := remaining - len
      if remaining > 0 then
        let (tail, arg) ← doOnRemaining f tail arg remaining
        return (file :: tail, arg)
      else return (file :: tail, arg)

namespace MultiFile

-- The name of a file stands for what it holds on disk when it is opened.
def openFiles (writable : Bool) : List (Nat × Bytes) → Nat → List SubFile
  | [], _ => []
  | (size, bytes) :: tail, pos =>
      let fd : FdCache := ⟨writable, bytes⟩
      { pos := pos, len := size, currentLen := fd.getsize64, fd := fd } ::
        openFiles writable tail (pos + size)

def create (writable : Bool) (files : List (Nat × Bytes)) : Except Exn MultiFile := do
  let subFiles := openFiles writable files 0
  let cuts := cuts 0 subFiles
  let tree ← Btree.makeTree cuts.length cuts
  return { size := (files.map Prod.fst).sum, files := subFiles, tree := tree }

def fileWrite (file : SubFile) (inFilePos : Int) (s : Bytes) (inStringPos : Nat) (len : Int) :
    Except Exn (SubFile × Bytes) :=
  if len ≠ 0 then do
    let fd ← file.fd.write inFilePos s inStringPos len
    return ({ file with
      fd := fd, currentLen := (max (file.currentLen : Int) (inFilePos + len)).toNat }, s)
  else return (file, s)

-- String.fill
def fill (s : Bytes) (pos : Nat) (len : Int) : Except Exn Bytes :=
  if len < 0 ∨ s.length < pos + len.toNat then .error .invalidArgument
  else .ok (patch s pos (List.replicate len.toNat 0))

def fileRead (file : SubFile) (inFilePos : Int) (s : Bytes) (inStringPos : Nat) (len : Int) :
    Except Exn (SubFile × Bytes) :=
  if inFilePos + len ≤ file.currentLen then do
    let s ← file.fd.read inFilePos s inStringPos len
    return (file, s)
  else do
    let possibleLen := max 0 (file.currentLen - inFilePos)
    let s ← (if possibleLen > 0 then file.fd.read inFilePos s inStringPos possibleLen else .ok s :
      Except Exn Bytes)
    let s ← fill s (inStringPos + possibleLen.toNat) (len - possibleLen)
    return (file, s)

-- What io does with each of the other files.
def next (f : SubFile → Int → Bytes → Nat → Int → Except Exn (SubFile × Bytes)) (file : SubFile)
    (arg : Bytes × Nat) (len : Int) : Except Exn (SubFile × Bytes × Nat) := do
  let (file, string) ← f file 0 arg.1 arg.2 len
  return (file, string, arg.2 + len.toNat)

def io (f : SubFile → Int → Bytes → Nat → Int → Except Exn (SubFile × Bytes)) (t : MultiFile)
    (chunkBegin : Nat) (string : Bytes) (stringPos len : Nat) : Except Exn (MultiFile × Bytes) :=
  let i := t.tree.findFile chunkBegin
  match t.files.drop i with
  | [] => .error .assertFailure
  | file :: tail => do
      let chunkEnd := chunkBegin + len
      let fileEnd := file.pos + file.len
      if fileEnd ≥ chunkEnd then
        let (file, string) ← f file (chunkBegin - file.pos : Int) string stringPos len
        return ({ t with files := t.files.take i ++ file :: tail }, string)
      else
        let firstRead : Int := fileEnd - chunkBegin
        let (file, string) ← f file (chunkBegin - file.pos : Int) string stringPos firstRead
        let (tail, string, _) ← doOnRemaining (next f) tail (string, stringPos + firstRead.toNat)
          (len - firstRead)
        return ({ t with files := t.files.take i ++ file :: tail }, string)

def read (t : MultiFile) (chunkBegin : Nat) (string : Bytes) (stringPos len : Nat) :
    Except Exn Bytes := do
  let (_, string) ← io fileRead t chunkBegin string stringPos len
  return string

def write (t : MultiFile) (chunkBegin : Nat) (string : Bytes) (stringPos len : Nat) :
    Except Exn MultiFile := do
  let (t, _) ← io fileWrite t chunkBegin string stringPos len
  return { t with size := max t.size (chunkBegin + len) }

end MultiFile

-- A multi-file as one flat array.

-- The positions are the sums of the sizes before.
def Layout : Nat → List SubFile → Prop
  | _, [] => True
  | p, file :: files => file.pos = p ∧ Layout (p + file.len) files

def total (files : List SubFile) : Nat := (files.map SubFile.len).sum

-- What the sub-files hold, each cut or filled up with zeros to its size.
def flat (files : List SubFile) : Bytes := files.flatMap fun f => region f.fd.bytes 0 f.len

-- The current length is the physical one.
structure SubFile.Ok (w : Bool) (f : SubFile) : Prop where
  writable : f.fd.writable = w
  currentLen : f.currentLen = f.fd.bytes.length

structure MultiFile.Wf (w : Bool) (t : MultiFile) : Prop where
  layout : Layout 0 t.files
  ok : ∀ f ∈ t.files, f.Ok w
  tree : Btree.makeTree (cuts 0 t.files).length (cuts 0 t.files) = .ok t.tree

section Layout

variable {files files' A B : List SubFile} {f : SubFile} {p b i k : Nat}

@[simp] theorem total_nil : total [] = 0 := rfl

@[simp] theorem total_cons (f : SubFile) (files : List SubFile) :
    total (f :: files) = f.len + total files := by
  simp [total]

@[simp] theorem flat_nil : flat [] = [] := rfl

@[simp] theorem flat_cons (f : SubFile) (files : List SubFile) :
    flat (f :: files) = region f.fd.bytes 0 f.len ++ flat files := rfl

@[simp] theorem length_flat (files : List SubFile) : (flat files).length = total files := by
  induction files with
  | nil => rfl
  | cons f files ih => rw [flat_cons, List.length_append, length_region, ih, total_cons]

theorem flat_append (A B : List SubFile) : flat (A ++ B) = flat A ++ flat B :=
  List.flatMap_append

theorem total_append (A B : List SubFile) : total (A ++ B) = total A + total B := by
  simp [total]

theorem Layout.split (h : Layout p (A ++ B)) : Layout p A ∧ Layout (p + total A) B := by
  induction A generalizing p with
  | nil => exact ⟨trivial, h⟩
  | cons f A ih =>
      obtain ⟨hA, hB⟩ := ih h.2
      refine ⟨⟨h.1, hA⟩, ?_⟩
      rwa [total_cons, ← Nat.add_assoc]

theorem Layout.append (hA : Layout p A) (hB : Layout (p + total A) B) : Layout p (A ++ B) := by
  induction A generalizing p with
  | nil => exact hB
  | cons f A ih =>
      refine ⟨hA.1, ih hA.2 ?_⟩
      rwa [total_cons, ← Nat.add_assoc] at hB

theorem Layout.pos_eq (h : Layout p (A ++ f :: B)) : f.pos = p + total A := h.split.2.1

theorem Btree.findFile_spec {fuel : Nat} {l : List (Nat × Nat)} {tree : Btree}
    (h : makeTree fuel l = .ok tree) (hfuel : l.length ≤ fuel) (x : Nat) :
    ∃ pre q post, l = pre ++ q :: post ∧ tree.findFile x = q.1 ∧ (pre ≠ [] → q.2 ≤ x) ∧
      ∀ q' ∈ post.head?, x < q'.2 := by
  induction fuel generalizing l tree with
  | zero =>
      rw [List.length_eq_zero_iff.mp (Nat.le_zero.mp hfuel)] at h
      exact nomatch h
  | succ fuel ih =>
      match l, h with
      | [q], h =>
          obtain rfl := Except.ok.inj h
          exact ⟨[], q, [], rfl, rfl, by simp, by simp⟩
      | q₁ :: q₂ :: l', h =>
          generalize hl : q₁ :: q₂ :: l' = l at *
          have hlen : 2 ≤ l.length := by simp [← hl]
          have hmake : makeTree (fuel + 1) l = (do
              let tree1 ← makeTree fuel (l.take (l.length / 2))
              let tree2 ← makeTree fuel (l.drop (l.length / 2))
              return node ((l.getD (l.length / 2) (0, 0)).2) tree1 tree2) := by
            rw [← hl]
            rfl
          rw [hmake] at h
          obtain ⟨tree1, h1, h⟩ := bind_eq_ok.mp h
          obtain ⟨tree2, h2, h⟩ := bind_eq_ok.mp h
          obtain rfl := Except.ok.inj h
          have hmid : l.drop (l.length / 2) =
              l.getD (l.length / 2) (0, 0) :: l.drop (l.length / 2 + 1) := by
            rw [List.getD_eq_getElem _ _ (by omega), List.drop_eq_getElem_cons (by omega)]
          generalize l.getD (l.length / 2) (0, 0) = m at hmid
          by_cases hx : x < m.2
          · obtain ⟨pre, q, post, hsplit, hfind, hle, hlt⟩ := ih h1 (by simp; omega)
            refine ⟨pre, q, post ++ l.drop (l.length / 2), ?_, ?_, hle, ?_⟩
            · rw [← List.cons_append, ← List.append_assoc, ← hsplit, List.take_append_drop]
            · rw [findFile, if_pos hx, hfind]
            · cases post with
              | nil => simpa [hmid] using hx
              | cons q' post => simpa using hlt
          · obtain ⟨pre, q, post, hsplit, hfind, hle, hlt⟩ := ih h2 (by simp; omega)
            refine ⟨l.take (l.length / 2) ++ pre, q, post, ?_, ?_, ?_, hlt⟩
            · rw [List.append_assoc, ← hsplit, List.take_append_drop]
            · rw [findFile, if_neg hx, hfind]
            · intro _
              cases pre with
              | nil =>
                  rw [hmid, List.nil_append, List.cons.injEq] at hsplit
                  rw [← hsplit.1]
                  omega
              | cons q' pre => exact hle (by simp)

theorem cuts_head (h : Layout p files) : ∀ c ∈ (cuts k files).head?, c.2 = p := by
  induction files generalizing p k with
  | nil => simp [cuts]
  | cons f files ih =>
      rw [cuts]
      split
      case isTrue => simp [h.1]
      case isFalse hlen =>
          have hp := ih (k := k + 1) h.2
          rwa [Nat.eq_zero_of_not_pos hlen] at hp

theorem total_of_cuts (h : cuts k files = []) : total files = 0 := by
  induction files generalizing k with
  | nil => rfl
  | cons f files ih =>
      rw [cuts] at h
      split at h
      case isTrue => exact absurd h (by simp)
      case isFalse hlen => rw [total_cons, ih h, Nat.eq_zero_of_not_pos hlen]

-- A cut belongs to a file; the next one stands where the file ends.
theorem cuts_spec {pre post : List (Nat × Nat)} {q : Nat × Nat} (h : Layout p files)
    (hcuts : cuts k files = pre ++ q :: post) :
    ∃ A f B, files = A ++ f :: B ∧ q.1 = k + A.length ∧ q.2 = f.pos ∧ 0 < f.len ∧
      (pre = [] → f.pos = p) ∧ (∀ q' ∈ post.head?, q'.2 = f.pos + f.len) ∧
      (post = [] → total B = 0) := by
  induction files generalizing p k pre with
  | nil => simp [cuts] at hcuts
  | cons f files ih =>
      rw [cuts] at hcuts
      split at hcuts
      case isTrue hlen =>
          cases pre with
          | nil =>
              obtain ⟨rfl, rfl⟩ := List.cons.inj hcuts
              refine ⟨[], f, files, rfl, rfl, rfl, hlen, fun _ => h.1, ?_, total_of_cuts⟩
              rw [h.1]
              exact cuts_head h.2
          | cons c pre =>
              obtain ⟨A, f', B, hfiles, hi, hp, hlen', -, hhead, hlast⟩ :=
                ih h.2 (List.cons.inj hcuts).2
              exact ⟨f :: A, f', B, by rw [hfiles]; rfl, by rw [hi, List.length_cons]; omega, hp,
                hlen', nofun, hhead, hlast⟩
      case isFalse hlen =>
          obtain ⟨A, f', B, hfiles, hi, hp, hlen', hfirst, hhead, hlast⟩ := ih h.2 hcuts
          refine ⟨f :: A, f', B, by rw [hfiles]; rfl, by rw [hi, List.length_cons]; omega, hp,
            hlen', fun hnil => ?_, hhead, hlast⟩
          have := hfirst hnil
          omega

end Layout

namespace MultiFile

variable {t : MultiFile} {b : Nat} {w : Bool}

theorem Wf.findFile (h : t.Wf w) (hb : b ≤ total t.files) :
    ∃ A f B, t.files = A ++ f :: B ∧ t.tree.findFile b = A.length ∧ f.pos = total A ∧
      f.pos ≤ b ∧ b ≤ f.pos + f.len ∧ (b < total t.files → b < f.pos + f.len) ∧ 0 < f.len := by
  obtain ⟨pre, q, post, hcuts, hfind, hle, hlt⟩ := Btree.findFile_spec h.tree (Nat.le_refl _) b
  obtain ⟨A, f, B, hfiles, hi, hp, hlen, hfirst, hhead, hlast⟩ := cuts_spec h.layout hcuts
  have hpos : f.pos = 0 + total A := (hfiles ▸ h.layout).pos_eq
  have htotal : total t.files = total A + (f.len + total B) := by
    rw [hfiles, total_append, total_cons]
  have hbelow : f.pos ≤ b := by
    by_cases hpre : pre = []
    · rw [hfirst hpre]
      omega
    · rw [← hp]
      exact hle hpre
  have habove : b < f.pos + f.len ∨ total B = 0 := by
    cases post with
    | nil => exact .inr (hlast rfl)
    | cons q' post =>
        have h1 := hhead q' rfl
        have h2 := hlt q' rfl
        omega
  exact ⟨A, f, B, hfiles, by rw [hfind, hi, Nat.zero_add], by omega, hbelow, by omega,
    fun _ => by omega, hlen⟩

end MultiFile

end Mldonkey.Unix32
