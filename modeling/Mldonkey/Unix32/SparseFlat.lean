import Mldonkey.Unix32.MultiChunk

-- A file that is kept as chunks, with gaps between them that read as zero.
namespace Mldonkey.Unix32

open Patch

structure Chunk where
  pos : Nat
  len : Nat
  fd : FdCache
  deriving DecidableEq, Repr

structure SparseFile where
  size : Nat
  chunks : List Chunk
  writable : Bool
  deriving DecidableEq, Repr

namespace SparseFile

def create (writable : Bool) : SparseFile := { size := 0, chunks := [], writable := writable }

def ftruncate64 (t : SparseFile) (size : Nat) : SparseFile := { t with size := size }

-- The binary search of find_read_pos and find_write_pos, which differ in the
-- test that a chunk holds the position. `fuel` is at least `len`.
def searchPos (chunks : List Chunk) (inside : Chunk → Bool) (pos : Nat) : Nat → Nat → Nat → Nat
  | 0, start, _ => start
  | fuel + 1, start, len =>
      if len = 0 then start
      else
        let milen := len / 2
        let med := start + milen
        match chunks[med]? with
        | none => start
        | some chunk =>
            if inside chunk then med
            else if chunk.pos > pos then
              if med = start then start else searchPos chunks inside pos fuel start milen
            else searchPos chunks inside pos fuel (med + 1) (start + len - (med + 1))

def findReadPos (t : SparseFile) (pos : Nat) : Nat :=
  searchPos t.chunks (fun chunk => chunk.pos ≤ pos && pos - chunk.pos < chunk.len) pos
    t.chunks.length 0 t.chunks.length

def findWritePos (t : SparseFile) (pos : Nat) : Nat :=
  searchPos t.chunks (fun chunk => chunk.pos ≤ pos && pos - chunk.pos ≤ chunk.len) pos
    t.chunks.length 0 t.chunks.length

-- The same recursion with nothing assumed: none stands for an access outside of the
-- array, or for calls that are not over after `fuel` of them.
def runSearchPos (chunks : List Chunk) (inside : Chunk → Bool) (pos : Nat) :
    Nat → Nat → Nat → Option Nat
  | 0, _, _ => none
  | fuel + 1, start, len =>
      if len = 0 then some start
      else do
        let milen := len / 2
        let med := start + milen
        let chunk ← chunks[med]?
        if inside chunk then some med
        else if chunk.pos > pos then
          if med = start then some start else runSearchPos chunks inside pos fuel start milen
        else runSearchPos chunks inside pos fuel (med + 1) (start + len - (med + 1))

def runFindReadPos (t : SparseFile) (pos fuel : Nat) : Option Nat :=
  runSearchPos t.chunks (fun chunk => chunk.pos ≤ pos && pos - chunk.pos < chunk.len) pos fuel 0
    t.chunks.length

-- The recursion of find_read_pos2, the linear search that the source has as a
-- reference; `left` counts the chunks from `i` to the end.
def linearPos (chunks : List Chunk) (pos : Nat) : Nat → Nat → Nat
  | 0, i => i
  | left + 1, i =>
      match chunks[i]? with
      | none => i
      | some chunk => if chunk.pos + chunk.len > pos then i else linearPos chunks pos left (i + 1)

def findReadPos2 (t : SparseFile) (pos : Nat) : Nat := linearPos t.chunks pos t.chunks.length 0

-- Where the next bytes come from: a position, a length and a file. It is a piece
-- of zeros behind the last chunk, and before a chunk that begins later.
def piece (t : SparseFile) (index : Nat) (chunkBegin : Int) : Int × Int × FdCache :=
  match t.chunks[index]? with
  | none => (chunkBegin, zeroChunkLen, zeroChunk)
  | some chunk =>
      if (chunk.pos : Int) > chunkBegin then
        (chunkBegin, min zeroChunkLen (chunk.pos - chunkBegin), zeroChunk)
      else (chunk.pos, chunk.len, chunk.fd)

-- The recursion of read; `fuel` bounds its rounds.
def readLoop (t : SparseFile) : Nat → Bytes → Nat → Nat → Int → Int → Except Exn Bytes
  | 0, string, _, _, _, _ => .ok string
  | fuel + 1, string, stringPos, index, chunkBegin, chunkLen =>
      if chunkLen > 0 then do
        let (pos, len, fd) := t.piece index chunkBegin
        let inChunkPos := chunkBegin - pos
        let maxLen := min chunkLen (len - inChunkPos)
        let string ← fd.read inChunkPos string stringPos maxLen
        readLoop t fuel string (stringPos + maxLen.toNat) (index + 1) (chunkBegin + maxLen)
          (chunkLen - maxLen)
      else .ok string

-- The rounds: each passes a chunk or reads a byte.
def rounds (t : SparseFile) (chunkBegin chunkLen : Nat) : Nat :=
  t.chunks.length + chunkBegin + chunkLen + 1

def read (t : SparseFile) (chunkBegin : Nat) (string : Bytes) (stringPos chunkLen : Nat) :
    Except Exn Bytes :=
  t.readLoop (t.rounds chunkBegin chunkLen) string stringPos (t.findReadPos chunkBegin) chunkBegin
    chunkLen

-- The recursion that apply_on_chunk and rename have in common.
def copyLoop (t : SparseFile) : Nat → FdCache → Int → Nat → Int → Int → Except Exn FdCache
  | 0, fileOut, _, _, _, _ => .ok fileOut
  | fuel + 1, fileOut, outPos, index, chunkBegin, chunkLen =>
      if chunkLen > 0 then do
        let (pos, len, fd) := t.piece index chunkBegin
        let inChunkPos := chunkBegin - pos
        let maxLen := min chunkLen (len - inChunkPos)
        let fileOut ← fd.copyChunk fileOut inChunkPos outPos maxLen
        copyLoop t fuel fileOut (outPos + maxLen) (index + 1) (chunkBegin + maxLen)
          (chunkLen - maxLen)
      else .ok fileOut

-- The file and the position that the callback gets.
def applyOnChunk (t : SparseFile) (chunkBegin chunkLen : Nat) : Except Exn (FdCache × Int) :=
  let copied : Except Exn (FdCache × Int) := do
    let fileOut ← t.copyLoop (t.rounds chunkBegin chunkLen) ⟨t.writable, []⟩ 0
      (t.findReadPos chunkBegin) chunkBegin chunkLen
    return (fileOut, 0)
  match t.chunks[t.findReadPos chunkBegin]? with
  | none => copied
  | some chunk =>
      if chunk.pos ≤ chunkBegin ∧
          (chunk.len : Int) ≥ chunkLen - ((chunkBegin : Int) - chunk.pos) then
        .ok (chunk.fd, (chunkBegin : Int) - chunk.pos)
      else copied

-- What the file under the new name holds.
def rename (t : SparseFile) : Except Exn Bytes := do
  let fileOut ← t.copyLoop (t.rounds 0 t.size) ⟨true, []⟩ 0 0 0 t.size
  return fileOut.bytes

-- A new chunk, without any byte.
def newChunk (t : SparseFile) (chunkBegin : Nat) : Chunk := ⟨chunkBegin, 0, ⟨t.writable, []⟩⟩

-- The chunks with one in which the write can begin at `index`.
def makeRoom (t : SparseFile) (index chunkBegin : Nat) : List Chunk :=
  match t.chunks[index]? with
  | none => t.chunks ++ [t.newChunk chunkBegin]
  | some chunk =>
      if chunk.pos > chunkBegin then
        t.chunks.take index ++ t.newChunk chunkBegin :: t.chunks.drop index
      else t.chunks

-- The recursion of write; `fuel` bounds its rounds.
def writeLoop : Nat → List Chunk → Nat → Int → Bytes → Nat → Int → Except Exn (List Chunk)
  | 0, chunks, _, _, _, _, _ => .ok chunks
  | fuel + 1, chunks, index, chunkBegin, string, stringPos, len =>
      if len > 0 then do
        let (nextIndex, maxLen) :=
          match chunks[index + 1]? with
          | none => (index, len)
          | some next =>
              let maxPossibleLen := (next.pos : Int) - chunkBegin
              let maxLen := min maxPossibleLen len
              if maxLen = maxPossibleLen then (index + 1, maxLen) else (index, maxLen)
        match chunks[index]? with
        | none => .error .invalidArgument
        | some chunk =>
            let beginPos := chunkBegin - chunk.pos
            let fd ← chunk.fd.write beginPos string stringPos maxLen
            let chunk := { chunk with fd := fd, len := (chunk.len + maxLen).toNat }
            writeLoop fuel (chunks.set index chunk) nextIndex (chunkBegin + maxLen) string
              (stringPos + maxLen.toNat) (len - maxLen)
      else .ok chunks

def write (t : SparseFile) (chunkBegin : Nat) (string : Bytes) (stringPos len : Nat) :
    Except Exn SparseFile := do
  let index := t.findWritePos chunkBegin
  let chunks ← writeLoop (len + 1) (t.makeRoom index chunkBegin) index chunkBegin string stringPos len
  return { t with chunks := chunks, size := max t.size (chunkBegin + len) }

end SparseFile

-- The chunks of a sparse file against the flat array of what was written.

structure Chunk.Ok (c : Chunk) : Prop where
  pos_len : 0 < c.len
  len : c.len = c.fd.bytes.length
  writable : c.fd.writable = true

def Chunk.Covers (c : Chunk) (x : Nat) : Prop := c.pos ≤ x ∧ x < c.pos + c.len

namespace SparseFile

variable {t : SparseFile} {F s bs : Bytes} {b n m q idx : Nat} {c : Chunk}

-- No chunk has the byte at x.
def Absent (t : SparseFile) (x : Nat) : Prop := ∀ c ∈ t.chunks, ¬ c.Covers x

-- F is the flat array: the chunks are sorted and disjoint, each is as long on
-- disk as its length field says and holds its part of F, which is zero elsewhere.
structure Inv (t : SparseFile) (F : Bytes) : Prop where
  writable : t.writable = true
  ok : ∀ c ∈ t.chunks, c.Ok
  sorted : t.chunks.Pairwise fun c c' => c.pos + c.len ≤ c'.pos
  held : ∀ c ∈ t.chunks, ∀ x, c.Covers x → elemAt c.fd.bytes (x - c.pos) = elemAt F x
  zero : ∀ x, t.Absent x → elemAt F x = 0

-- Each chunk ends before the next one begins.
def Sorted (chunks : List Chunk) : Prop := chunks.Pairwise fun c c' => c.pos + c.len ≤ c'.pos

instance (chunks : List Chunk) : Decidable (Sorted chunks) :=
  inferInstanceAs (Decidable (chunks.Pairwise _))

theorem Sorted.le {chunks : List Chunk} (h : Sorted chunks) {i j : Nat} {c c' : Chunk}
    (hi : chunks[i]? = some c) (hj : chunks[j]? = some c') (hij : i < j) :
    c.pos + c.len ≤ c'.pos := by
  obtain ⟨hi', rfl⟩ := List.getElem?_eq_some_iff.mp hi
  obtain ⟨hj', rfl⟩ := List.getElem?_eq_some_iff.mp hj
  exact List.pairwise_iff_getElem.mp h i j hi' hj' hij

theorem Inv.le (h : t.Inv F) {i j : Nat} {c c' : Chunk} (hi : t.chunks[i]? = some c)
    (hj : t.chunks[j]? = some c') (hij : i < j) : c.pos + c.len ≤ c'.pos :=
  Sorted.le h.sorted hi hj hij

theorem exists_of_le {chunks : List Chunk} {i j : Nat} (hi : chunks[i]? = some c) (hij : j ≤ i) :
    ∃ c', chunks[j]? = some c' := by
  have := (List.getElem?_eq_some_iff.mp hi).1
  exact ⟨_, List.getElem?_eq_getElem (show j < chunks.length by omega)⟩

-- The search finds the first chunk with Q, when the test and the comparison
-- tell on which side of it a chunk lies.
theorem searchPos_spec {chunks : List Chunk} {inside : Chunk → Bool} {pos : Nat} {Q : Nat → Prop}
    (hin : ∀ i c, chunks[i]? = some c → inside c = true → Q i ∧ ∀ j < i, ¬ Q j)
    (hafter : ∀ i c, chunks[i]? = some c → inside c = false → pos < c.pos → Q i)
    (hbefore : ∀ i c, chunks[i]? = some c → inside c = false → c.pos ≤ pos → ∀ j ≤ i, ¬ Q j)
    {fuel start len : Nat} (hfuel : len ≤ fuel) (hlen : start + len ≤ chunks.length)
    (hlow : ∀ j < start, ¬ Q j) (hhigh : start + len < chunks.length → Q (start + len)) :
    searchPos chunks inside pos fuel start len ≤ chunks.length ∧
      (∀ j < searchPos chunks inside pos fuel start len, ¬ Q j) ∧
      (searchPos chunks inside pos fuel start len < chunks.length →
        Q (searchPos chunks inside pos fuel start len)) := by
  induction fuel generalizing start len with
  | zero =>
      obtain rfl := Nat.le_zero.mp hfuel
      exact ⟨hlen, hlow, hhigh⟩
  | succ fuel ih =>
      rw [searchPos]
      by_cases hzero : len = 0
      · subst hzero
        exact ⟨hlen, hlow, hhigh⟩
      rw [if_neg hzero]
      have hmed : start + len / 2 < chunks.length := by omega
      obtain ⟨c, hc⟩ : ∃ c, chunks[start + len / 2]? = some c :=
        ⟨_, List.getElem?_eq_getElem hmed⟩
      simp only [hc]
      by_cases hi : inside c = true
      · rw [if_pos hi]
        exact ⟨Nat.le_of_lt hmed, (hin _ c hc hi).2, fun _ => (hin _ c hc hi).1⟩
      have hi' : inside c = false := Bool.eq_false_iff.mpr hi
      rw [if_neg hi]
      by_cases hpos : c.pos > pos
      · have hQ := hafter _ c hc hi' hpos
        rw [if_pos hpos]
        split
        case isTrue hstart => exact ⟨by omega, hlow, fun _ => hstart ▸ hQ⟩
        case isFalse => exact ih (by omega) (by omega) hlow fun _ => hQ
      · rw [if_neg hpos]
        have hnot := hbefore _ c hc hi' (by omega)
        have hsum : start + len / 2 + 1 + (start + len - (start + len / 2 + 1)) = start + len := by
          omega
        exact ih (by omega) (by omega) (fun j hj => hnot j (by omega)) (by rwa [hsum])

-- The chunks before an index end at or before the position, and the one there
-- ends behind it.
structure Aligned (t : SparseFile) (idx b : Nat) : Prop where
  before : ∀ j < idx, ∀ c, t.chunks[j]? = some c → c.pos + c.len ≤ b
  here : ∀ c, t.chunks[idx]? = some c → b < c.pos + c.len

-- The search by the ends of the chunks: it finds the first one that ends at e
-- or behind it.
theorem Sorted.searchPos_ends (h : Sorted t.chunks) {inside : Chunk → Bool} {pos e : Nat}
    (hin : ∀ c ∈ t.chunks, inside c = true → c.pos < e ∧ e ≤ c.pos + c.len)
    (hafter : ∀ c ∈ t.chunks, pos < c.pos → e ≤ c.pos + c.len)
    (hbefore : ∀ c ∈ t.chunks, inside c = false → c.pos ≤ pos → c.pos + c.len < e)
    (hidx : searchPos t.chunks inside pos t.chunks.length 0 t.chunks.length = idx) :
    idx ≤ t.chunks.length ∧ (∀ j < idx, ∀ c, t.chunks[j]? = some c → c.pos + c.len < e) ∧
      ∀ c, t.chunks[idx]? = some c → e ≤ c.pos + c.len := by
  let Q : Nat → Prop := fun i => ∀ c, t.chunks[i]? = some c → e ≤ c.pos + c.len
  have hsame : ∀ {i : Nat} {c : Chunk}, t.chunks[i]? = some c → e ≤ c.pos + c.len → Q i :=
    fun hc hle c' hc' => Option.some.inj (hc.symm.trans hc') ▸ hle
  -- the chunks before one that ends before e do so too
  have hnot : ∀ {i j : Nat} {c : Chunk}, t.chunks[i]? = some c → c.pos + c.len < e → j ≤ i →
      ¬ Q j := by
    intro i j c hc hlt hj hQ
    obtain ⟨c', hc'⟩ := exists_of_le hc hj
    have := hQ c' hc'
    rcases Nat.lt_or_eq_of_le hj with hji | rfl
    · have := h.le hc' hc hji
      omega
    · obtain rfl := Option.some.inj (hc.symm.trans hc')
      omega
  have hspec : idx ≤ t.chunks.length ∧ (∀ j < idx, ¬ Q j) ∧ (idx < t.chunks.length → Q idx) := by
    rw [← hidx]
    refine searchPos_spec ?_ ?_ ?_ (Nat.le_refl _) (by omega) (by omega) (by omega)
    · intro i c hc hi
      obtain ⟨hpos, hend⟩ := hin c (List.mem_of_getElem? hc) hi
      refine ⟨hsame hc hend, fun j hj hQ => ?_⟩
      obtain ⟨c', hc'⟩ := exists_of_le hc (Nat.le_of_lt hj)
      have := h.le hc' hc hj
      have := hQ c' hc'
      omega
    · intro i c hc _ hpos
      exact hsame hc (hafter c (List.mem_of_getElem? hc) hpos)
    · intro i c hc hi hpos j hj
      exact hnot hc (hbefore c (List.mem_of_getElem? hc) hi hpos) hj
  refine ⟨hspec.1, fun j hj c hc => ?_,
    fun c hc => hspec.2.2 (List.getElem?_eq_some_iff.mp hc).1 c hc⟩
  by_contra hle
  exact hspec.2.1 j hj (hsame hc (by omega))

theorem Sorted.findReadPos (h : Sorted t.chunks) (b : Nat) :
    t.findReadPos b ≤ t.chunks.length ∧ t.Aligned (t.findReadPos b) b := by
  have hspec : t.findReadPos b ≤ t.chunks.length ∧
      (∀ j < t.findReadPos b, ∀ c, t.chunks[j]? = some c → c.pos + c.len < b + 1) ∧
      ∀ c, t.chunks[t.findReadPos b]? = some c → b + 1 ≤ c.pos + c.len := by
    refine h.searchPos_ends ?_ ?_ ?_ rfl
    · intro c _ hin
      simp only [Bool.and_eq_true, decide_eq_true_eq] at hin
      omega
    · intro c _ hpos
      omega
    · intro c _ hin hpos
      simp only [Bool.and_eq_false_iff, decide_eq_false_iff_not] at hin
      omega
  exact ⟨hspec.1, fun j hj c hc => Nat.le_of_lt_succ (hspec.2.1 j hj c hc), hspec.2.2⟩

theorem Inv.findReadPos (h : t.Inv F) (b : Nat) : t.Aligned (t.findReadPos b) b :=
  (Sorted.findReadPos h.sorted b).2

-- The linear search goes on to the first chunk that ends behind the position.
theorem linearPos_eq {chunks : List Chunk} (hle : idx ≤ chunks.length)
    (hbefore : ∀ j < idx, ∀ c, chunks[j]? = some c → c.pos + c.len ≤ b)
    (hhere : ∀ c, chunks[idx]? = some c → b < c.pos + c.len) :
    ∀ {left i : Nat}, i + left = chunks.length → i ≤ idx → linearPos chunks b left i = idx
  | 0, i, hi, hidx => by
    rw [linearPos]
    omega
  | left + 1, i, hi, hidx => by
    have hc := List.getElem?_eq_getElem (l := chunks) (i := i) (by omega)
    rw [linearPos, hc]
    simp only
    by_cases heq : i = idx
    · rw [if_pos (hhere _ (heq ▸ hc)), heq]
    · have hlt := hbefore i (by omega) _ hc
      rw [if_neg (by omega)]
      exact linearPos_eq hle hbefore hhere (by omega) (by omega)

-- With fuel for each element and one call more, the recursion comes to its end, and
-- inside of the array.
theorem runSearchPos_eq {chunks : List Chunk} {inside : Chunk → Bool} {pos : Nat}
    {fuel fuel' start len : Nat} (hfuel : len ≤ fuel) (hfuel' : len < fuel')
    (hlen : start + len ≤ chunks.length) :
    runSearchPos chunks inside pos fuel' start len =
      some (searchPos chunks inside pos fuel start len) := by
  induction fuel' generalizing fuel start len with
  | zero => omega
  | succ fuel' ih =>
    rw [runSearchPos]
    cases fuel with
    | zero => rw [if_pos (by omega), searchPos]
    | succ fuel =>
      rw [searchPos]
      by_cases hzero : len = 0
      · rw [if_pos hzero, if_pos hzero]
      rw [if_neg hzero, if_neg hzero]
      have hc := List.getElem?_eq_getElem (l := chunks) (i := start + len / 2) (by omega)
      simp only [hc, Option.bind_eq_bind, Option.bind_some]
      -- each call leaves out the middle
      have hleft := @ih fuel start (len / 2) (by omega) (by omega) (by omega)
      have hright := @ih fuel (start + len / 2 + 1) (start + len - (start + len / 2 + 1))
        (by omega) (by omega) (by omega)
      rw [hleft, hright]
      split_ifs <;> rfl

-- The bisection finds what the linear search finds, and ends.
theorem find_read_pos_linear (h : Sorted t.chunks) (pos : Nat) :
    (∀ fuel, t.chunks.length < fuel →
      t.runFindReadPos pos fuel = some (t.findReadPos2 pos)) ∧
    t.findReadPos pos = t.findReadPos2 pos := by
  obtain ⟨hle, haligned⟩ := h.findReadPos pos
  have heq : t.findReadPos2 pos = t.findReadPos pos :=
    linearPos_eq hle haligned.before haligned.here (Nat.zero_add _) (Nat.zero_le _)
  refine ⟨fun fuel hfuel => ?_, heq.symm⟩
  rw [heq]
  exact runSearchPos_eq le_rfl hfuel (Nat.zero_add _).le

-- The first byte behind the first of two chunks
theorem find_read_pos_linear_gap :
    let t : SparseFile := ⟨12, [⟨2, 3, ⟨true, []⟩⟩, ⟨8, 4, ⟨true, []⟩⟩], true⟩
    t.findReadPos 5 = t.findReadPos2 5 :=
  (find_read_pos_linear (by decide) 5).2

-- No chunk has a byte of the region.
def Untouched (t : SparseFile) (b n : Nat) : Prop :=
  ∀ c ∈ t.chunks, b + n ≤ c.pos ∨ c.pos + c.len ≤ b

instance (t : SparseFile) (b n : Nat) : Decidable (t.Untouched b n) :=
  inferInstanceAs (Decidable (∀ c ∈ t.chunks, _))

-- Where a write into a gap begins: the chunks before end before it.
theorem Inv.findWritePos (h : t.Inv F) (hn : 0 < n) (hu : t.Untouched b n) :
    t.findWritePos b ≤ t.chunks.length ∧
      (∀ j < t.findWritePos b, ∀ c, t.chunks[j]? = some c → c.pos + c.len < b) ∧
      ∀ c, t.chunks[t.findWritePos b]? = some c → b ≤ c.pos + c.len := by
  refine Sorted.searchPos_ends h.sorted ?_ ?_ ?_ rfl
  · intro c hc hin
    simp only [Bool.and_eq_true, decide_eq_true_eq] at hin
    have := hu c hc
    have := (h.ok c hc).pos_len
    omega
  · intro c _ hpos
    omega
  · intro c hc hin hpos
    simp only [Bool.and_eq_false_iff, decide_eq_false_iff_not] at hin
    omega

-- The index is past the next chunk: that one begins behind the position.
def Lost (t : SparseFile) (idx b : Nat) : Prop :=
  ∀ c, t.chunks[idx]? = some c → b < c.pos

-- The bytes that the rounds of a loop take, one piece after the other.
inductive Pieces (t : SparseFile) : Nat → Nat → Nat → Bytes → Prop
  | done (idx b : Nat) : Pieces t idx b 0 []
  | step {idx b n p m : Nat} {pos len : Int} {fd : FdCache} {bs : Bytes}
      (hpiece : t.piece idx b = (pos, len, fd)) (hp : (b : Int) - pos = p)
      (hm : min (n : Int) (len - p) = m) (hpos : 0 < m) (hle : m ≤ n)
      (hfd : p + m ≤ fd.bytes.length) (rest : Pieces t (idx + 1) (b + m) (n - m) bs) :
      Pieces t idx b n (region fd.bytes p m ++ bs)

theorem Pieces.length (h : Pieces t idx b n bs) : bs.length = n := by
  induction h with
  | done => rfl
  | step hpiece hp hm hpos hle hfd rest ih =>
      rw [List.length_append, length_region, ih]
      omega

theorem Pieces.readLoop (h : Pieces t idx b n bs) {fuel : Nat} (hfuel : n < fuel)
    (hs : q + n ≤ s.length) :
    t.readLoop fuel s q idx b n = .ok (patch s q bs) := by
  induction h generalizing fuel s q with
  | done idx b =>
      cases fuel with
      | zero => rfl
      | succ fuel => rfl
  | @step idx b n p m pos len fd bs hpiece hp hm hpos hle hfd rest ih =>
      obtain ⟨k, rfl⟩ := Nat.exists_eq_add_one_of_ne_zero (Nat.ne_zero_of_lt hfuel)
      have hsub : (n : Int) - m = (n - m : Nat) := by omega
      have hlen : (patch s q (region fd.bytes p m)).length = s.length :=
        length_patch_of_le (by rw [length_region]; omega)
      rw [SparseFile.readLoop, if_pos (by omega)]
      simp only [hpiece, hp, hm]
      rw [FdCache.read_of_le hpos (by omega) hfd, ok_bind, Int.toNat_natCast, ← Nat.cast_add, hsub,
        ih (by omega) (by omega), ← patch_append, length_region]

theorem Pieces.copyLoop (h : Pieces t idx b n bs) {fuel : Nat} {out : FdCache}
    (hfuel : n < fuel) (hw : out.writable = true) :
    t.copyLoop fuel out q idx b n = .ok { out with bytes := patch out.bytes q bs } := by
  induction h generalizing fuel out q with
  | done idx b =>
      cases fuel with
      | zero => rfl
      | succ fuel => rfl
  | @step idx b n p m pos len fd bs hpiece hp hm hpos hle hfd rest ih =>
      obtain ⟨k, rfl⟩ := Nat.exists_eq_add_one_of_ne_zero (Nat.ne_zero_of_lt hfuel)
      have hsub : (n : Int) - m = (n - m : Nat) := by omega
      have hrest := @ih (q + m) k { out with bytes := patch out.bytes q (region fd.bytes p m) }
        (by omega) hw
      rw [SparseFile.copyLoop, if_pos (by omega)]
      simp only [hpiece, hp, hm]
      rw [FdCache.copyChunk_of_le hw hfd, ok_bind, ← Nat.cast_add, ← Nat.cast_add, hsub, hrest,
        ← patch_append, length_region]

-- A piece of zeros.
theorem Lost.zeros (hsort : ∀ j c c', t.chunks[j]? = some c → t.chunks[j + 1]? = some c' →
      c.pos < c'.pos) (h : t.Lost idx b) : Pieces t idx b n (List.replicate n 0) := by
  induction n using Nat.strong_induction_on generalizing idx b with
  | _ n ih =>
      by_cases hn : n = 0
      · subst hn
        exact .done idx b
      have hzlen : zeroChunk.bytes.length = zeroChunkLen := List.length_replicate
      have hzpos : 0 < zeroChunkLen := by decide
      obtain ⟨len, hpiece, hlen, hnext⟩ : ∃ len : Nat,
          t.piece idx b = ((b : Int), (len : Int), zeroChunk) ∧ (0 < len ∧ len ≤ zeroChunkLen) ∧
            t.Lost (idx + 1) (b + min n len) := by
        rw [piece]
        cases hc : t.chunks[idx]? with
        | none =>
            refine ⟨zeroChunkLen, rfl, by omega, fun c' hc' => ?_⟩
            obtain ⟨c, hc''⟩ := exists_of_le hc' (Nat.le_succ idx)
            rw [hc] at hc''
            exact nomatch hc''
        | some c =>
            have hlt := h c hc
            refine ⟨min zeroChunkLen (c.pos - b), ?_, by omega, fun c' hc' => ?_⟩
            · simp only
              rw [if_pos (by omega)]
              congr 2
              omega
            · have := hsort idx c c' hc hc'
              omega
      generalize hm : min n len = m at hnext
      have hregion : region zeroChunk.bytes 0 m = List.replicate m 0 := by
        rw [zeroChunk, MultiFile.region_replicate]
      have hstep := Pieces.step hpiece (show (b : Int) - b = (0 : Nat) by omega)
        (show min (n : Int) (len - (0 : Nat)) = m by omega) (by omega) (by omega) (by omega)
        (ih (n - m) (by omega) hnext)
      rwa [hregion, ← List.replicate_add, Nat.add_sub_cancel' (by omega)] at hstep

-- What the loops deliver: up to the first absent byte the bytes of F, and zeros
-- from there on.
structure Shown (t : SparseFile) (F : Bytes) (b n : Nat) (bs : Bytes) : Prop where
  length : bs.length = n
  gap : ∀ i j, j ≤ i → t.Absent (b + j) → elemAt bs i = 0
  data : ∀ i < n, (∀ j ≤ i, ¬ t.Absent (b + j)) → elemAt bs i = elemAt F (b + i)

theorem Shown.zeros (h : t.Absent b) : Shown t F b n (List.replicate n 0) :=
  ⟨List.length_replicate, fun i _ _ _ => elemAt_replicate n i,
    fun i _ hd => absurd h (hd 0 (Nat.zero_le i))⟩

theorem Shown.cons {xs : Bytes} (hlen : xs.length = m) (hle : m ≤ n)
    (hxs : ∀ i < m, ¬ t.Absent (b + i) ∧ elemAt xs i = elemAt F (b + i))
    (h : Shown t F (b + m) (n - m) bs) : Shown t F b n (xs ++ bs) := by
  refine ⟨?_, fun i j hj ha => ?_, fun i hi hd => ?_⟩
  · rw [List.length_append, hlen, h.length]
    omega
  · have hjm : m ≤ j := by
      by_contra hlt
      exact (hxs j (by omega)).1 ha
    rw [elemAt_append, if_neg (by omega)]
    refine h.gap _ (j - m) (by omega) ?_
    rwa [Nat.add_assoc, Nat.add_sub_cancel' hjm]
  · rw [elemAt_append]
    split
    case isTrue hlt => exact (hxs i (by omega)).2
    case isFalse hge =>
        rw [h.data _ (by omega) fun j hj => by
          have := hd (m + j) (by omega)
          rwa [← Nat.add_assoc] at this]
        congr 1
        omega

-- No byte but zero lies behind an absent one.
def GapFree (t : SparseFile) (F : Bytes) (b n : Nat) : Prop :=
  ∀ x y, b ≤ x → x ≤ y → y < b + n → t.Absent x → elemAt F y = 0

theorem Shown.eq_iff (h : Shown t F b n bs) : bs = region F b n ↔ t.GapFree F b n := by
  rw [region_eq_iff h.length]
  constructor
  · intro hat x y hx hxy hy ha
    have hy' := hat (y - b) (by omega)
    rw [Nat.add_sub_cancel' (by omega)] at hy'
    rw [← hy']
    refine h.gap _ (x - b) (by omega) ?_
    rwa [Nat.add_sub_cancel' hx]
  · intro hfree i hi
    by_cases hd : ∀ j ≤ i, ¬ t.Absent (b + j)
    · exact h.data i hi hd
    · simp only [not_forall, not_not] at hd
      obtain ⟨j, hj, ha⟩ := hd
      rw [h.gap i j hj ha, hfree (b + j) (b + i) (by omega) (by omega) (by omega) ha]

theorem Inv.pos_lt (h : t.Inv F) (j : Nat) (c c' : Chunk) (hc : t.chunks[j]? = some c)
    (hc' : t.chunks[j + 1]? = some c') : c.pos < c'.pos := by
  have := h.le hc hc' (Nat.lt_succ_self j)
  have := (h.ok c (List.mem_of_getElem? hc)).pos_len
  omega

-- From an index that fits the position the loops deliver F up to the first gap.
theorem Inv.pieces (h : t.Inv F) (ha : t.Aligned idx b) :
    ∃ bs, Pieces t idx b n bs ∧ Shown t F b n bs := by
  induction n using Nat.strong_induction_on generalizing idx b with
  | _ n ih =>
      by_cases hn : n = 0
      · subst hn
        exact ⟨[], .done idx b, rfl, fun i _ _ _ => elemAt_of_length_le (by simp), by omega⟩
      -- either the chunk at the index has the byte at b, or no chunk has it
      by_cases hlost : t.Lost idx b
      · refine ⟨_, hlost.zeros h.pos_lt, .zeros fun c hc hcov => ?_⟩
        obtain ⟨j, hj⟩ := List.getElem?_of_mem hc
        rcases Nat.lt_trichotomy j idx with hlt | rfl | hgt
        · have := ha.before j hlt c hj
          exact absurd hcov.2 (by omega)
        · have := hlost c hj
          exact absurd hcov.1 (by omega)
        · obtain ⟨c', hc'⟩ := exists_of_le hj (Nat.le_of_lt hgt)
          have := h.le hc' hj hgt
          have := hlost c' hc'
          exact absurd hcov.1 (by omega)
      · simp only [Lost, not_forall] at hlost
        obtain ⟨c, hc, hle⟩ := hlost
        have hend := ha.here c hc
        have hmem := List.mem_of_getElem? hc
        have hok := h.ok c hmem
        have hlen := hok.len
        generalize hm : min n (c.pos + c.len - b) = m
        have hnext : m = n ∨ t.Aligned (idx + 1) (b + m) := by
          by_cases hmn : m = n
          · exact .inl hmn
          · refine .inr ⟨fun j hj c' hc' => ?_, fun c' hc' => ?_⟩
            · rcases Nat.lt_or_eq_of_le (Nat.le_of_lt_succ hj) with hlt | rfl
              · have := ha.before j hlt c' hc'
                omega
              · obtain rfl := Option.some.inj (hc.symm.trans hc')
                omega
            · have := h.le hc hc' (Nat.lt_succ_self idx)
              have := (h.ok c' (List.mem_of_getElem? hc')).pos_len
              omega
        obtain ⟨bs, hpieces, hshown⟩ : ∃ bs, Pieces t (idx + 1) (b + m) (n - m) bs ∧
            Shown t F (b + m) (n - m) bs := by
          rcases hnext with hmn | hnext
          · rw [hmn, Nat.sub_self]
            exact ⟨[], .done _ _, rfl, fun i _ _ _ => elemAt_of_length_le (by simp), by omega⟩
          · exact ih (n - m) (by omega) hnext
        have hpiece : t.piece idx b = ((c.pos : Int), (c.len : Int), c.fd) := by
          rw [piece, hc]
          simp only
          rw [if_neg (by omega)]
        refine ⟨_, .step hpiece (show (b : Int) - c.pos = (b - c.pos : Nat) by omega)
          (show min (n : Int) (c.len - (b - c.pos : Nat)) = m by omega) (by omega) (by omega)
          (by omega) hpieces, .cons (length_region _ _ _) (by omega) (fun i hi => ?_) hshown⟩
        have hcov : c.Covers (b + i) := ⟨by omega, by omega⟩
        refine ⟨fun habs => habs c hmem hcov, ?_⟩
        rw [elemAt_region, if_pos hi, ← h.held c hmem _ hcov]
        congr 1
        omega

end SparseFile

end Mldonkey.Unix32
