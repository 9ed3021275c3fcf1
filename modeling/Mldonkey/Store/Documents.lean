import Mldonkey.Lib.FreeList
import Mldonkey.Lib.Patch

-- The files of the result store. One file holds the values of one size class, in
-- slots of equal size.
namespace Mldonkey.Store

open Patch FreeList

-- The marshaller of the values. To read a value back needs only the bytes that
-- were written, whatever stands behind them.
structure Marshal (α : Type) where
  toString : α → List UInt8
  fromString : List UInt8 → Option α
  exact : ∀ v rest, fromString (toString v ++ rest) = some v

structure File (α : Type) where
  entrySize : Nat
  -- what stands in the file on disk
  data : List UInt8
  allPos : List Nat
  -- the weak cache: the collector may empty a cell at any moment
  cache : List (Option α)
  nextPos : Nat

variable {α : Type}

def createFile (entrySize : Nat) : File α :=
  { entrySize, data := [], allPos := [], cache := [none], nextPos := 0 }

def ftruncate (data : List UInt8) (len : Nat) : List UInt8 :=
  data.take len ++ List.replicate (len - data.length) 0

-- A larger free list: the cells below `pos` are copied, those from it on are
-- numbered afresh. To copy more cells than there are is an error.
def newTab (tab : List Nat) (pos newSize : Nat) : Option (List Nat) :=
  if pos ≤ tab.length then some (tab.take pos ++ List.range' (pos + 1) (newSize - pos)) else none

def newWeak (cache : List (Option α)) (pos newSize : Nat) : Option (List (Option α)) :=
  if pos ≤ cache.length then some (cache.take pos ++ List.replicate (newSize - pos) none) else none

-- An assignment to a cell of an array, or of a weak array.
def setCell {β : Type} (tab : List β) (i : Nat) (x : β) : Option (List β) :=
  if i < tab.length then some (tab.set i x) else none

def fileGrow (file : File α) : Option (File α) :=
  let pos := file.nextPos
  let newSize := (file.allPos.length + 10) * 2
  if file.allPos.length ≤ pos then do
    let allPos ← newTab file.allPos pos newSize
    let cache ← newWeak file.cache pos newSize
    some { file with data := ftruncate file.data (newSize * file.entrySize), allPos, cache }
  else some file

def fileStore (file : File α) (str : List UInt8) : Option (Nat × File α) := do
  let pos := file.nextPos
  let file ← fileGrow file
  let nextPos ← file.allPos[pos]?
  some (pos, { file with nextPos, data := patch file.data (pos * file.entrySize) str })

-- Behind the end of the file nothing is read, and the loop never ends.
def fileRetrieve (file : File α) (pos : Nat) : Option (List UInt8) :=
  if pos * file.entrySize + file.entrySize ≤ file.data.length then
    some (region file.data (pos * file.entrySize) file.entrySize)
  else none

def fileRemove (file : File α) (pos : Nat) : Option (File α) := do
  let allPos ← setCell file.allPos pos file.nextPos
  some { file with allPos, nextPos := pos }

-- What the collector leaves of the cache.
def File.collect (file : File α) (kept : Nat → Bool) : File α :=
  { file with cache := file.cache.mapIdx fun i v => if kept i then v else none }

-- The file holds the values S in its slots, of which those below `mark` have
-- been given out.
structure Holds (M : Marshal α) (file : File α) (S : Nat → Option α) (mark : Nat) : Prop where
  free : Free file.allPos file.nextPos (fun p => S p ≠ none) mark
  cache_length : file.allPos.length ≤ file.cache.length
  data_length : file.data.length = file.allPos.length * file.entrySize
  cached : ∀ p v, file.cache[p]? = some (some v) → S p = some v
  stored : ∀ p v, S p = some v →
    ∃ rest, region file.data (p * file.entrySize) file.entrySize = M.toString v ++ rest

variable {M : Marshal α} {file : File α} {S : Nat → Option α} {mark pos : Nat} {v : α}

theorem holds_createFile (entrySize : Nat) :
    Holds M (createFile entrySize) (fun _ => none) 0 where
  free := free_nil.congr (by simp)
  cache_length := by simp [createFile]
  data_length := by simp [createFile]
  cached := fun p v h => by simp [createFile, List.getElem?_singleton] at h
  stored := by simp

theorem setCell_eq {β : Type} {tab : List β} {i : Nat} (h : i < tab.length) (x : β) :
    setCell tab i x = some (tab.set i x) := if_pos h

-- A slot may be read wherever it is one of the file's.
theorem slot_le {p n : Nat} (size : Nat) (h : p < n) : p * size + size ≤ n * size := by
  rw [← Nat.succ_mul]
  exact Nat.mul_le_mul_right size h

theorem Holds.retrieve (h : Holds M file S mark) (hv : S pos = some v) :
    ∃ str, fileRetrieve file pos = some str ∧ M.fromString str = some v := by
  obtain ⟨rest, hrest⟩ := h.stored pos v hv
  have hlt : pos < file.allPos.length := h.free.lt_length (by simp [hv])
  refine ⟨_, if_pos ?_, by rw [hrest, M.exact]⟩
  rw [h.data_length]
  exact slot_le _ hlt

theorem Holds.collect (h : Holds M file S mark) (kept : Nat → Bool) :
    Holds M (file.collect kept) S mark where
  free := h.free
  cache_length := by simpa [File.collect] using h.cache_length
  data_length := h.data_length
  stored := h.stored
  cached := by
    intro p v hp
    simp only [File.collect, List.getElem?_mapIdx, Option.map_eq_some_iff] at hp
    obtain ⟨w, hw, hk⟩ := hp
    split at hk
    · exact h.cached p v (hk ▸ hw)
    · cases hk

theorem Holds.cacheSet (h : Holds M file S mark) (hv : S pos = some v) :
    Holds M { file with cache := file.cache.set pos (some v) } S mark where
  free := h.free
  cache_length := by simpa using h.cache_length
  data_length := h.data_length
  stored := h.stored
  cached := by
    intro p w hp
    rw [List.getElem?_set] at hp
    split at hp
    · next heq =>
        subst heq
        split at hp <;> simp_all
    · exact h.cached p w hp

-- The slots that are there keep what they hold when the file grows.
theorem Holds.grow (h : Holds M file S mark) : ∃ file', fileGrow file = some file' ∧
    Holds M file' S mark ∧ file'.nextPos = file.nextPos ∧ file'.entrySize = file.entrySize ∧
    file.nextPos < file'.allPos.length := by
  by_cases hge : file.allPos.length ≤ file.nextPos
  · obtain ⟨hnext, hfree⟩ := h.free.grow hge ((file.allPos.length + 10) * 2 - file.allPos.length)
    have hcache : file.nextPos ≤ file.cache.length := hnext ▸ h.cache_length
    have hsize : file.allPos.length * file.entrySize ≤
        (file.allPos.length + 10) * 2 * file.entrySize := Nat.mul_le_mul_right _ (by omega)
    rw [fileGrow, if_pos hge, newTab, if_pos hnext.le, newWeak, if_pos hcache]
    refine ⟨_, rfl, ⟨?_, ?_, ?_, ?_, ?_⟩, rfl, rfl, ?_⟩
    · simpa [hnext] using hfree
    · simp only [List.length_append, List.length_take, List.length_range', List.length_replicate]
      omega
    · have hd := h.data_length
      simp only [ftruncate, List.length_append, List.length_take, List.length_range',
        List.length_replicate, hnext, min_self]
      rw [hd, Nat.min_eq_right hsize, Nat.add_sub_cancel' hsize,
        Nat.add_sub_cancel' (by omega)]
    · intro p w hp
      rw [List.getElem?_append, List.getElem?_take] at hp
      refine h.cached p w ?_
      split at hp
      · split at hp
        · exact hp
        · cases hp
      · simp [List.getElem?_replicate] at hp
    · intro p w hp
      obtain ⟨rest, hrest⟩ := h.stored p w hp
      refine ⟨rest, ?_⟩
      rw [← hrest]
      have hd := h.data_length
      rw [ftruncate, List.take_of_length_le (by omega)]
      refine region_append_left _ ?_
      rw [hd]
      exact slot_le _ (h.free.lt_length (by simp [hp]))
    · simp only [List.length_append, List.length_take, List.length_range']
      omega
  · exact ⟨file, if_neg hge, h, rfl, rfl, by omega⟩

-- What stands in the other slots is not touched by a write that fits in its own.
theorem region_patch_slot {data str : List UInt8} {p q size : Nat} (hpq : p ≠ q)
    (hlen : str.length ≤ size) :
    region (patch data (q * size) str) (p * size) size = region data (p * size) size := by
  refine region_congr fun i hi => ?_
  rw [elemAt_patch, if_neg ?_]
  rintro ⟨hle, hlt⟩
  rcases Nat.lt_or_gt_of_ne hpq with hlt' | hlt'
  · have := slot_le size hlt'
    omega
  · have := slot_le size hlt'
    omega

theorem Holds.store (h : Holds M file S mark) (hlen : (M.toString v).length ≤ file.entrySize) :
    ∃ pos file' mark', fileStore file (M.toString v) = some (pos, file') ∧ S pos = none ∧
      file'.entrySize = file.entrySize ∧ pos < file'.cache.length ∧
      Holds M file' (Function.update S pos (some v)) mark' ∧
      (mark' = mark ∨ mark' = mark + 1 ∧ ∀ p < mark, S p ≠ none) := by
  obtain ⟨file₁, hgrow, h₁, hnext, hsize, hlt⟩ := h.grow
  obtain ⟨hfree, n, mark', hn, hpop, hmark⟩ := h₁.free.pop (hnext ▸ hlt)
  rw [hnext] at hfree hn hpop
  have hpos : S file.nextPos = none := by simpa using hfree
  have hroom : file.nextPos * file₁.entrySize + (M.toString v).length ≤ file₁.data.length := by
    rw [h₁.data_length]
    have := slot_le file₁.entrySize hlt
    omega
  refine ⟨file.nextPos, { file₁ with
      nextPos := n, data := patch file₁.data (file.nextPos * file₁.entrySize) (M.toString v) },
    mark', by simp [fileStore, hgrow, hn], hpos, hsize, lt_of_lt_of_le hlt h₁.cache_length,
    ⟨hpop.congr fun i => ?_, h₁.cache_length, ?_, ?_, ?_⟩, hmark⟩
  · by_cases hi : i = file.nextPos
    · simp [hi]
    · simp [hi]
  · exact (length_patch_of_le hroom).trans h₁.data_length
  · intro p w hp
    have := h₁.cached p w hp
    rw [Function.update_of_ne (by rintro rfl; simp [hpos] at this), this]
  · intro p w hp
    by_cases hpp : p = file.nextPos
    · subst hpp
      rw [Function.update_self, Option.some.injEq] at hp
      subst hp
      refine ⟨region (patch file₁.data (file.nextPos * file₁.entrySize) (M.toString v))
        (file.nextPos * file₁.entrySize + (M.toString v).length)
        (file₁.entrySize - (M.toString v).length), ?_⟩
      have := region_append (patch file₁.data (file.nextPos * file₁.entrySize) (M.toString v))
        (file.nextPos * file₁.entrySize) (M.toString v).length
        (file₁.entrySize - (M.toString v).length)
      rw [region_patch_self, Nat.add_sub_cancel' (hsize ▸ hlen)] at this
      exact this
    · rw [Function.update_of_ne hpp] at hp
      obtain ⟨rest, hrest⟩ := h₁.stored p w hp
      exact ⟨rest, by rw [region_patch_slot hpp (hsize ▸ hlen), hrest]⟩

-- The slot is given back, and its cell of the cache is emptied.
theorem Holds.remove (h : Holds M file S mark) (hv : S pos ≠ none) :
    ∃ file', fileRemove file pos = some file' ∧ file'.entrySize = file.entrySize ∧
      pos < file'.cache.length ∧
      Holds M { file' with cache := file'.cache.set pos none } (Function.update S pos none) mark := by
  have hlt := h.free.lt_length hv
  refine ⟨{ file with allPos := file.allPos.set pos file.nextPos, nextPos := pos },
    by simp [fileRemove, setCell_eq hlt], rfl, lt_of_lt_of_le hlt h.cache_length,
    ⟨(h.free.push hv).congr fun i => ?_, ?_, ?_, ?_, ?_⟩⟩
  · by_cases hi : i = pos
    · simp [hi]
    · simp [hi]
  · simpa using h.cache_length
  · simpa using h.data_length
  · intro p w hp
    simp only [List.getElem?_set] at hp
    split at hp
    · split at hp <;> simp at hp
    · next hne => rw [Function.update_of_ne (Ne.symm hne), h.cached p w hp]
  · intro p w hp
    by_cases hpp : p = pos
    · simp [hpp] at hp
    · exact h.stored p w (by rwa [Function.update_of_ne hpp] at hp)

end Mldonkey.Store

-- The documents of the result store: each is one cell, with the slot of the value,
-- its size class and an attribute packed into a number.
namespace Mldonkey.Store

open FreeList

-- Store.t: an index of storeAllDoc is a document, or else a free one.
structure T (α : Type) where
  storeFiles : List (Nat × File α)
  storeNextDoc : Nat
  storeAllDoc : List Nat

variable {α : Type}

def create : T α := { storeFiles := [], storeNextDoc := 0, storeAllDoc := [] }

def attrib : Nat := 1 <<< 30

-- The complement of an integer of 63 bits.
def lnot (x : Nat) : Nat := x ^^^ (2 ^ 63 - 1)

def chunkSize (n : Nat) : Nat := if n < 128 then 0 else 1 + chunkSize (n / 2)

def combine (pos chunkSize : Nat) (attr : Bool) : Nat :=
  let v := (pos <<< 6) + chunkSize
  if attr then v ||| attrib else v

def uncombine (comb : Nat) : Nat × Nat × Bool :=
  ((comb &&& lnot attrib) >>> 6, comb &&& 31, comb &&& attrib != 0)

-- The file of a size class, created where there is none.
def fileOf (t : T α) (chunkSize : Nat) : List (Nat × File α) × File α :=
  match t.storeFiles.lookup chunkSize with
  | some file => (t.storeFiles, file)
  | none =>
      let file := createFile (128 <<< chunkSize)
      (t.storeFiles ++ [(chunkSize, file)], file)

-- The file of a size class has changed.
def setFile (files : List (Nat × File α)) (chunkSize : Nat) (file : File α) :
    List (Nat × File α) :=
  files.map fun f => if f.1 = chunkSize then (chunkSize, file) else f

-- None stands for an exception, or for a loop that does not end.
def save (M : Marshal α) (t : T α) (doc : Nat) (v : α) (attr : Bool) : Option (T α) := do
  let str := M.toString v
  let chunkSize := chunkSize str.length
  let (files, file) := fileOf t chunkSize
  let (pos, file) ← fileStore file str
  let cache ← setCell file.cache pos (some v)
  let allDoc ← setCell t.storeAllDoc doc (combine pos chunkSize attr)
  some { t with storeFiles := setFile files chunkSize { file with cache }, storeAllDoc := allDoc }

def docsGrow (t : T α) : Option (List Nat) :=
  let doc := t.storeNextDoc
  let lenAllDoc := t.storeAllDoc.length
  if lenAllDoc ≤ doc then newTab t.storeAllDoc doc ((lenAllDoc + 10) * 2) else some t.storeAllDoc

def add (M : Marshal α) (t : T α) (v : α) : Option (Nat × T α) := do
  let doc := t.storeNextDoc
  let allDoc ← docsGrow t
  let nextDoc ← allDoc[doc]?
  let t ← save M { t with storeAllDoc := allDoc, storeNextDoc := nextDoc } doc v false
  some (doc, t)

def get (M : Marshal α) (t : T α) (doc : Nat) : Option α := do
  let (pos, chunkSize, _) := uncombine (← t.storeAllDoc[doc]?)
  let file ← t.storeFiles.lookup chunkSize
  match ← file.cache[pos]? with
  | none => M.fromString (← fileRetrieve file pos)
  | some v => some v

-- The first of the two functions with the name remove.
def removeSlot (t : T α) (doc : Nat) : Option (T α) := do
  let (pos, chunkSize, _) := uncombine (← t.storeAllDoc[doc]?)
  let file ← t.storeFiles.lookup chunkSize
  let file ← fileRemove file pos
  let cache ← setCell file.cache pos none
  some { t with storeFiles := setFile t.storeFiles chunkSize { file with cache } }

def setAttrib (t : T α) (doc : Nat) (bool : Bool) : Option (T α) := do
  let bin ← t.storeAllDoc[doc]?
  let allDoc ← setCell t.storeAllDoc doc (if bool then bin ||| attrib else bin &&& lnot attrib)
  some { t with storeAllDoc := allDoc }

def getAttrib (t : T α) (doc : Nat) : Option Bool := do
  some ((← t.storeAllDoc[doc]?) &&& attrib != 0)

def update (M : Marshal α) (t : T α) (doc : Nat) (v : α) : Option (T α) := do
  let (_, _, attr) := uncombine (← t.storeAllDoc[doc]?)
  save M (← removeSlot t doc) doc v attr

def remove (t : T α) (doc : Nat) : Option (T α) := do
  let t ← removeSlot t doc
  let allDoc ← setCell t.storeAllDoc doc t.storeNextDoc
  some { t with storeAllDoc := allDoc, storeNextDoc := doc }

-- The collector empties cells of the caches.
def T.collect (t : T α) (kept : Nat → Nat → Bool) : T α :=
  { t with storeFiles := t.storeFiles.map fun f => (f.1, f.2.collect (kept f.1)) }

theorem chunkSize_le {n k : Nat} (h : n < 128 * 2 ^ k) : chunkSize n ≤ k := by
  induction k generalizing n with
  | zero =>
      rw [chunkSize, if_pos (by omega)]
  | succ k ih =>
      rw [chunkSize]
      split
      · omega
      · have := ih (n := n / 2) (by rw [pow_succ] at h; omega)
        omega

theorem lt_entrySize (n : Nat) : n < 128 <<< chunkSize n := by
  rw [Nat.shiftLeft_eq]
  induction n using chunkSize.induct with
  | case1 n h =>
      rw [chunkSize, if_pos h]
      omega
  | case2 n h ih =>
      rw [chunkSize, if_neg h, Nat.add_comm, pow_succ]
      omega

section Bits

variable {v pos size : Nat} {attr : Bool}

theorem testBit_attrib (i : Nat) : attrib.testBit i = decide (i = 30) := by
  rw [attrib, Nat.one_shiftLeft, Nat.testBit_two_pow]
  exact decide_eq_decide.2 eq_comm

theorem testBit_lnot (x i : Nat) : (lnot x).testBit i = (x.testBit i ^^ decide (i < 63)) := by
  rw [lnot, Nat.testBit_xor, Nat.testBit_two_pow_sub_one]

theorem testBit_of_lt (h : v < 2 ^ 30) {i : Nat} (hi : 30 ≤ i) : v.testBit i = false :=
  Nat.testBit_lt_two_pow (lt_of_lt_of_le h (Nat.pow_le_pow_right (by omega) hi))

theorem land_lnot_attrib (h : v < 2 ^ 30) : v &&& lnot attrib = v := by
  refine Nat.eq_of_testBit_eq fun i => ?_
  rw [Nat.testBit_and, testBit_lnot, testBit_attrib]
  by_cases hi : 30 ≤ i
  · simp [testBit_of_lt h hi]
  · simp [show i ≠ 30 by omega, show i < 63 by omega]

theorem lor_land_lnot_attrib (h : v < 2 ^ 30) : (v ||| attrib) &&& lnot attrib = v := by
  refine Nat.eq_of_testBit_eq fun i => ?_
  rw [Nat.testBit_and, Nat.testBit_or, testBit_lnot, testBit_attrib]
  by_cases hi : 30 ≤ i
  · by_cases h30 : i = 30
    · simp [h30, testBit_of_lt h]
    · simp [testBit_of_lt h hi, h30]
  · simp [show i ≠ 30 by omega, show i < 63 by omega]

theorem land_attrib (h : v < 2 ^ 30) : v &&& attrib = 0 := by
  refine Nat.eq_of_testBit_eq fun i => ?_
  rw [Nat.testBit_and, testBit_attrib, Nat.zero_testBit]
  by_cases hi : i = 30
  · simp [hi, testBit_of_lt h]
  · simp [hi]

theorem lor_land_attrib (v : Nat) : (v ||| attrib) &&& attrib = attrib := by
  refine Nat.eq_of_testBit_eq fun i => ?_
  rw [Nat.testBit_and, Nat.testBit_or]
  cases attrib.testBit i <;> simp

theorem packed_lt (hpos : pos < 2 ^ 24) (hsize : size < 32) : (pos <<< 6) + size < 2 ^ 30 := by
  rw [Nat.shiftLeft_eq]
  omega

theorem combine_land_attrib (hpos : pos < 2 ^ 24) (hsize : size < 32) :
    (combine pos size attr &&& attrib != 0) = attr := by
  cases attr with
  | false => simp [combine, land_attrib (packed_lt hpos hsize)]
  | true =>
      simp only [combine, if_true, lor_land_attrib]
      rfl

theorem uncombine_combine (hpos : pos < 2 ^ 24) (hsize : size < 32) :
    uncombine (combine pos size attr) = (pos, size, attr) := by
  have hv := packed_lt hpos hsize
  have hshift : ((pos <<< 6) + size) >>> 6 = pos := by
    rw [Nat.shiftLeft_eq, Nat.shiftRight_eq_div_pow]
    omega
  have hland : ((pos <<< 6) + size) &&& 31 = size := by
    rw [Nat.shiftLeft_eq, Nat.and_two_pow_sub_one_eq_mod _ 5]
    omega
  rw [uncombine, combine_land_attrib hpos hsize]
  cases attr with
  | false => simp [combine, land_lnot_attrib hv, hshift, hland]
  | true =>
      have hbits : attrib &&& 31 = 0 := by decide
      simp [combine, lor_land_lnot_attrib hv, hshift, Nat.and_or_distrib_right, hland, hbits]

theorem combine_set (hpos : pos < 2 ^ 24) (hsize : size < 32) (bool : Bool) :
    (if bool then combine pos size attr ||| attrib else combine pos size attr &&& lnot attrib) =
      combine pos size bool := by
  have hv := packed_lt hpos hsize
  cases bool with
  | false =>
      cases attr with
      | false => simp [combine, land_lnot_attrib hv]
      | true => simp [combine, lor_land_lnot_attrib hv]
  | true =>
      cases attr with
      | false => simp [combine]
      | true => simp [combine]

end Bits

end Mldonkey.Store
