import Mldonkey.Store.Documents

-- The documents that are in use and the slots they hold.
namespace Mldonkey.Store

open FreeList

-- Where a document is kept, and what the callers last put there.
structure Entry (α : Type) where
  pos : Nat
  chunkSize : Nat
  value : α
  attr : Bool

variable {α : Type} {M : Marshal α} {t : T α} {G : Nat → Option (Entry α)}
  {F : Nat → Nat → Option (Nat × α)} {mark : Nat → Nat} {doc size : Nat} {e : Entry α} {v : α}
  {files : List (Nat × File α)} {file file' : File α}

-- The documents in use number fewer than n.
def Fewer {β : Type} (G : Nat → Option β) (n : Nat) : Prop :=
  ∃ live : Finset Nat, (∀ i, G i ≠ none → i ∈ live) ∧ live.card < n

-- The documents G are in use, and F tells which document holds a slot: the files
-- hold the values, and every document in use has a slot of its own.
structure Slots (M : Marshal α) (t : T α) (G : Nat → Option (Entry α))
    (F : Nat → Nat → Option (Nat × α)) (mark : Nat → Nat) : Prop where
  file : ∀ size file, t.storeFiles.lookup size = some file → file.entrySize = 128 <<< size ∧
    Holds M file (fun p => (F size p).map Prod.snd) (mark size) ∧ mark size ≤ 2 ^ 24
  nofile : ∀ size, t.storeFiles.lookup size = none → ∀ p, F size p = none
  entry : ∀ doc e, G doc = some e → e.chunkSize < 32 ∧
    t.storeAllDoc[doc]? = some (combine e.pos e.chunkSize e.attr) ∧
    F e.chunkSize e.pos = some (doc, e.value)
  owner : ∀ size p doc v, F size p = some (doc, v) → ∃ a, G doc = some ⟨p, size, v, a⟩

theorem lookup_setFile_of_ne {n : Nat} (hn : n ≠ size) :
    (setFile files size file').lookup n = files.lookup n := by
  induction files with
  | nil => rfl
  | cons f files ih =>
      obtain ⟨m, g⟩ := f
      simp only [setFile, List.map_cons] at ih ⊢
      by_cases hm : m = size
      · subst hm
        have hne : (n == m) = false := by simpa using hn
        simp only [if_true, List.lookup_cons, hne, ih]
      · simp only [hm, if_false, List.lookup_cons, ih]

theorem lookup_setFile (h : files.lookup size = some file) (n : Nat) :
    (setFile files size file').lookup n = if n = size then some file' else files.lookup n := by
  by_cases hn : n = size
  · subst hn
    rw [if_pos rfl]
    induction files with
    | nil => cases h
    | cons f files ih =>
        obtain ⟨m, g⟩ := f
        simp only [setFile, List.map_cons] at ih ⊢
        by_cases hm : m = n
        · simp [hm]
        · have hne : (n == m) = false := by simpa using Ne.symm hm
          rw [List.lookup_cons, hne] at h
          simp only [hm, if_false, List.lookup_cons, hne, ih h]
  · rw [if_neg hn, lookup_setFile_of_ne hn]

-- The file that holds the slot of a document in use.
theorem Slots.fileOfEntry (h : Slots M t G F mark) (he : G doc = some e) :
    ∃ file, t.storeFiles.lookup e.chunkSize = some file ∧
      Holds M file (fun p => (F e.chunkSize p).map Prod.snd) (mark e.chunkSize) ∧
      e.pos < 2 ^ 24 := by
  obtain ⟨-, -, hF⟩ := h.entry doc e he
  cases hf : t.storeFiles.lookup e.chunkSize with
  | none => simp [h.nofile _ hf] at hF
  | some file =>
      obtain ⟨-, hholds, hmark⟩ := h.file _ _ hf
      exact ⟨file, rfl, hholds, lt_of_lt_of_le (hholds.free.lt_mark (by simp [hF])) hmark⟩

theorem Slots.uncombine (h : Slots M t G F mark) (he : G doc = some e) :
    t.storeAllDoc[doc]? = some (combine e.pos e.chunkSize e.attr) ∧
      uncombine (combine e.pos e.chunkSize e.attr) = (e.pos, e.chunkSize, e.attr) := by
  obtain ⟨hsize, hcell, -⟩ := h.entry doc e he
  obtain ⟨-, -, -, hpos⟩ := h.fileOfEntry he
  exact ⟨hcell, uncombine_combine hpos hsize⟩

theorem Slots.get (h : Slots M t G F mark) (he : G doc = some e) :
    get M t doc = some e.value := by
  obtain ⟨hcell, huncomb⟩ := h.uncombine he
  obtain ⟨file, hf, hholds, -⟩ := h.fileOfEntry he
  have hv : (F e.chunkSize e.pos).map Prod.snd = some e.value := by
    rw [(h.entry doc e he).2.2]
    rfl
  have hlt : e.pos < file.cache.length :=
    lt_of_lt_of_le (hholds.free.lt_length (by simp [hv])) hholds.cache_length
  have hc := List.getElem?_eq_getElem hlt
  cases hw : file.cache[e.pos] with
  | none =>
      obtain ⟨str, hstr, hfrom⟩ := hholds.retrieve hv
      simp [Store.get, hcell, huncomb, hf, hc, hw, hstr, hfrom]
  | some w =>
      have := hholds.cached e.pos w (by rw [hc, hw])
      rw [hv, Option.some.injEq] at this
      simp [Store.get, hcell, huncomb, hf, hc, hw, this]

theorem Slots.getAttrib (h : Slots M t G F mark) (he : G doc = some e) :
    getAttrib t doc = some e.attr := by
  obtain ⟨hsize, hcell, -⟩ := h.entry doc e he
  obtain ⟨-, -, -, hpos⟩ := h.fileOfEntry he
  simp only [Store.getAttrib, hcell, Option.bind_eq_bind, Option.bind_some,
    combine_land_attrib hpos hsize]

theorem Slots.apart (h : Slots M t G F mark) {doc' : Nat} {e' : Entry α} (he : G doc = some e)
    (he' : G doc' = some e') (hpos : e.pos = e'.pos) (hsize : e.chunkSize = e'.chunkSize) :
    doc = doc' := by
  have hF := (h.entry doc e he).2.2
  have hF' := (h.entry doc' e' he').2.2
  rw [hpos, hsize, hF', Option.some.injEq, Prod.mk.injEq] at hF
  exact hF.1.symm

theorem Slots.of_cells (h : Slots M t G F mark) {t' : T α} (hfiles : t'.storeFiles = t.storeFiles)
    (hcells : ∀ d, G d ≠ none → t'.storeAllDoc[d]? = t.storeAllDoc[d]?) :
    Slots M t' G F mark where
  file := by simpa [hfiles] using h.file
  nofile := by simpa [hfiles] using h.nofile
  owner := h.owner
  entry := by
    intro d e he
    rw [hcells d (by simp [he])]
    exact h.entry d e he

-- The files when one of them is put back: its slots are others, those of the rest the same.
theorem Slots.setFile (h : Slots M t G F mark) (hf : t.storeFiles.lookup size = some file)
    {f : Nat → Option (Nat × α)} {m : Nat}
    (hholds : Holds M file' (fun p => (f p).map Prod.snd) m)
    (hentry : file'.entrySize = file.entrySize) (hm : m ≤ 2 ^ 24) :
    (∀ n g, (setFile t.storeFiles size file').lookup n = some g → g.entrySize = 128 <<< n ∧
      Holds M g (fun p => (Function.update F size f n p).map Prod.snd)
        (Function.update mark size m n) ∧ Function.update mark size m n ≤ 2 ^ 24) ∧
    ∀ n, (setFile t.storeFiles size file').lookup n = none →
      ∀ p, Function.update F size f n p = none := by
  constructor
  · intro n g hg
    rw [lookup_setFile hf] at hg
    by_cases hn : n = size
    · subst hn
      rw [if_pos rfl, Option.some.injEq] at hg
      subst hg
      rw [Function.update_self, Function.update_self]
      exact ⟨hentry.trans (h.file _ _ hf).1, hholds, hm⟩
    · rw [if_neg hn] at hg
      simpa [Function.update_of_ne hn] using h.file n g hg
  · intro n hn p
    rw [lookup_setFile hf] at hn
    split at hn
    · cases hn
    · next hne => simpa [Function.update_of_ne hne] using h.nofile n hn p

theorem Slots.removeSlot (h : Slots M t G F mark) (he : G doc = some e) :
    ∃ t' F', removeSlot t doc = some t' ∧ t'.storeAllDoc = t.storeAllDoc ∧
      t'.storeNextDoc = t.storeNextDoc ∧ Slots M t' (Function.update G doc none) F' mark := by
  obtain ⟨hcell, huncomb⟩ := h.uncombine he
  obtain ⟨file, hf, hholds, -⟩ := h.fileOfEntry he
  have hused : (F e.chunkSize e.pos).map Prod.snd ≠ none := by
    simp [(h.entry doc e he).2.2]
  obtain ⟨file', hrem, hsize, hlt, hholds'⟩ := hholds.remove hused
  have hslots : Holds M { file' with cache := file'.cache.set e.pos none }
      (fun p => (Function.update (F e.chunkSize) e.pos none p).map Prod.snd)
      (mark e.chunkSize) := by
    convert hholds' using 1
    funext p
    by_cases hp : p = e.pos <;> simp [hp]
  have hfiles := h.setFile hf hslots hsize (h.file _ _ hf).2.2
  rw [Function.update_eq_self] at hfiles
  refine ⟨{ t with
      storeFiles := Store.setFile t.storeFiles e.chunkSize
        { file' with cache := file'.cache.set e.pos none } },
    Function.update F e.chunkSize (Function.update (F e.chunkSize) e.pos none),
    by simp [Store.removeSlot, hcell, huncomb, hf, hrem, setCell_eq hlt], rfl, rfl,
    ⟨hfiles.1, hfiles.2, ?_, ?_⟩⟩
  · intro d e' he'
    have hne : d ≠ doc := by
      rintro rfl
      simp at he'
    rw [Function.update_of_ne hne] at he'
    obtain ⟨hlt', hcell', hF'⟩ := h.entry d e' he'
    refine ⟨hlt', hcell', ?_⟩
    by_cases hn : e'.chunkSize = e.chunkSize
    · have hp : e'.pos ≠ e.pos := fun hp => hne (h.apart he' he hp hn)
      rw [hn, Function.update_self, Function.update_of_ne hp, ← hn, hF']
    · rw [Function.update_of_ne hn, hF']
  · intro n p d v hv
    have hv' : F n p = some (d, v) ∧ ¬ (n = e.chunkSize ∧ p = e.pos) := by
      by_cases hn : n = e.chunkSize
      · subst hn
        by_cases hp : p = e.pos
        · simp [hp] at hv
        · simpa [hp] using hv
      · simpa [hn] using hv
    obtain ⟨a, ha⟩ := h.owner n p d v hv'.1
    refine ⟨a, ?_⟩
    rw [Function.update_of_ne, ha]
    rintro rfl
    rw [he, Option.some.injEq] at ha
    exact hv'.2 ⟨by rw [ha], by rw [ha]⟩

theorem lookup_append_new (h : files.lookup size = none) (n : Nat) :
    (files ++ [(size, file)]).lookup n = if n = size then some file else files.lookup n := by
  rw [List.lookup_append]
  by_cases hn : n = size
  · subst hn
    simp [h]
  · have hne : (n == size) = false := by simpa using hn
    simp [List.lookup_cons, hne, hn]

-- The file of a size class is there, or is made.
theorem Slots.fileOf (h : Slots M t G F mark) (size : Nat) :
    ∃ files file mark', fileOf t size = (files, file) ∧ files.lookup size = some file ∧
      Slots M { t with storeFiles := files } G F mark' := by
  cases hf : t.storeFiles.lookup size with
  | some file => exact ⟨t.storeFiles, file, mark, by simp [Store.fileOf, hf], hf, h⟩
  | none =>
      refine ⟨t.storeFiles ++ [(size, createFile (128 <<< size))], createFile (128 <<< size),
        Function.update mark size 0, by simp only [Store.fileOf, hf], ?_,
        ⟨?_, ?_, h.entry, h.owner⟩⟩
      · simp [lookup_append_new hf]
      · intro n g hg
        rw [lookup_append_new hf] at hg
        by_cases hn : n = size
        · subst hn
          rw [if_pos rfl, Option.some.injEq] at hg
          subst hg
          refine ⟨rfl, ?_, by simp⟩
          rw [Function.update_self]
          convert holds_createFile (M := M) (128 <<< n) using 2
          simp [h.nofile n hf]
        · rw [if_neg hn] at hg
          simpa [Function.update_of_ne hn] using h.file n g hg
      · intro n hn
        rw [lookup_append_new hf] at hn
        split at hn
        · cases hn
        · exact h.nofile n hn

-- A new slot is taken only where all below it hold documents, so it is not
-- behind their number.
theorem Slots.mark_lt (h : Slots M t G F mark) (hfew : Fewer G (2 ^ 24))
    (hall : ∀ p < mark size, (F size p).map Prod.snd ≠ none) : mark size < 2 ^ 24 := by
  obtain ⟨live, hlive, hcard⟩ := hfew
  refine lt_of_le_of_lt ?_ hcard
  have hown : ∀ p ∈ Finset.range (mark size), ∃ e ∈ live, ∃ a v, G e = some ⟨p, size, v, a⟩ := by
    intro p hp
    obtain ⟨⟨d, v⟩, hd⟩ : ∃ dv, F size p = some dv := by
      simpa [Option.ne_none_iff_exists'] using hall p (Finset.mem_range.1 hp)
    obtain ⟨a, ha⟩ := h.owner size p d v hd
    exact ⟨d, hlive d (by simp [ha]), a, v, ha⟩
  choose! d hd a v hG using hown
  have := Finset.card_le_card_of_injOn d hd fun p hp q hq hpq => by
    have := hG p hp
    rw [hpq, hG q hq] at this
    simp only [Option.some.injEq, Entry.mk.injEq] at this
    exact this.1.symm
  simpa using this

-- A document that has no slot is saved.
theorem Slots.save (h : Slots M t G F mark) (hdoc : G doc = none)
    (hlt : doc < t.storeAllDoc.length) (hfew : Fewer G (2 ^ 24))
    (hlen : (M.toString v).length < 2 ^ 38) (attr : Bool) :
    ∃ t' e F' mark', save M t doc v attr = some t' ∧ e.value = v ∧ e.attr = attr ∧
      t'.storeNextDoc = t.storeNextDoc ∧ (∃ x, t'.storeAllDoc = t.storeAllDoc.set doc x) ∧
      Slots M t' (Function.update G doc (some e)) F' mark' := by
  obtain ⟨files, file, mark, hfile, hf, h⟩ := h.fileOf (chunkSize (M.toString v).length)
  have hsize : chunkSize (M.toString v).length < 32 :=
    Nat.lt_succ_of_le (chunkSize_le (k := 31) (by omega))
  generalize hcs : chunkSize (M.toString v).length = size at hfile hf hsize
  obtain ⟨hentry, hholds, hmark⟩ := h.file _ _ hf
  have hroom : (M.toString v).length ≤ file.entrySize := by
    rw [hentry, ← hcs]
    exact (lt_entrySize _).le
  obtain ⟨pos, file', m, hstore, hfree, hsame, hcache, hholds', hm⟩ := hholds.store hroom
  have hF : F size pos = none := by simpa using hfree
  have hm' : m ≤ 2 ^ 24 := by
    rcases hm with rfl | ⟨rfl, hall⟩
    · exact hmark
    · exact h.mark_lt hfew hall
  have hslots : Holds M { file' with cache := file'.cache.set pos (some v) }
      (fun p => (Function.update (F size) pos (some (doc, v)) p).map Prod.snd) m := by
    convert hholds'.cacheSet (Function.update_self pos (some v) _) using 1
    funext p
    by_cases hp : p = pos <;> simp [hp]
  have hfiles := h.setFile hf hslots hsame hm'
  refine ⟨{ t with
      storeFiles := Store.setFile files size { file' with cache := file'.cache.set pos (some v) }
      storeAllDoc := t.storeAllDoc.set doc (combine pos size attr) },
    ⟨pos, size, v, attr⟩, Function.update F size (Function.update (F size) pos (some (doc, v))),
    Function.update mark size m,
    by simp [Store.save, hcs, hfile, hstore, setCell_eq hcache, setCell_eq hlt], rfl, rfl, rfl,
    ⟨_, rfl⟩, ⟨hfiles.1, hfiles.2, ?_, ?_⟩⟩
  · intro d e he
    by_cases hd : d = doc
    · subst hd
      rw [Function.update_self, Option.some.injEq] at he
      subst he
      exact ⟨hsize, List.getElem?_set_self hlt, by simp⟩
    · rw [Function.update_of_ne hd] at he
      obtain ⟨hlt', hcell', hF'⟩ := h.entry d e he
      refine ⟨hlt', (List.getElem?_set_ne (Ne.symm hd)).trans hcell', ?_⟩
      by_cases hn : e.chunkSize = size
      · have hp : e.pos ≠ pos := by
          rintro rfl
          rw [hn, hF] at hF'
          cases hF'
        rw [hn, Function.update_self, Function.update_of_ne hp, ← hn, hF']
      · rw [Function.update_of_ne hn, hF']
  · intro n p d w hw
    by_cases hslot : n = size ∧ p = pos
    · obtain ⟨rfl, rfl⟩ := hslot
      simp only [Function.update_self, Option.some.injEq, Prod.mk.injEq] at hw
      obtain ⟨rfl, rfl⟩ := hw
      exact ⟨attr, by simp⟩
    · have hw' : F n p = some (d, w) := by
        by_cases hn : n = size
        · subst hn
          simpa [show p ≠ pos from fun hp => hslot ⟨rfl, hp⟩] using hw
        · simpa [hn] using hw
      obtain ⟨a, ha⟩ := h.owner n p d w hw'
      exact ⟨a, by rw [Function.update_of_ne (by rintro rfl; simp [hdoc] at ha), ha]⟩

theorem Slots.setAttrib (h : Slots M t G F mark) (he : G doc = some e) (bool : Bool) :
    ∃ t', setAttrib t doc bool = some t' ∧ t'.storeNextDoc = t.storeNextDoc ∧
      (∃ x, t'.storeAllDoc = t.storeAllDoc.set doc x) ∧
      Slots M t' (Function.update G doc (some { e with attr := bool })) F mark := by
  obtain ⟨hsize, hcell, hF⟩ := h.entry doc e he
  obtain ⟨-, -, -, hpos⟩ := h.fileOfEntry he
  have hlt : doc < t.storeAllDoc.length := (List.getElem?_eq_some_iff.1 hcell).1
  refine ⟨{ t with storeAllDoc := t.storeAllDoc.set doc (combine e.pos e.chunkSize bool) },
    by simp only [Store.setAttrib, hcell, Option.bind_eq_bind, Option.bind_some,
      combine_set hpos hsize, setCell_eq hlt], rfl, ⟨_, rfl⟩, ⟨h.file, h.nofile, ?_, ?_⟩⟩
  · intro d e' he'
    by_cases hd : d = doc
    · subst hd
      rw [Function.update_self, Option.some.injEq] at he'
      subst he'
      exact ⟨hsize, List.getElem?_set_self hlt, hF⟩
    · rw [Function.update_of_ne hd] at he'
      obtain ⟨hsize', hcell', hF'⟩ := h.entry d e' he'
      exact ⟨hsize', (List.getElem?_set_ne (Ne.symm hd)).trans hcell', hF'⟩
  · intro n p d w hw
    obtain ⟨a, ha⟩ := h.owner n p d w hw
    by_cases hd : d = doc
    · subst hd
      rw [he, Option.some.injEq] at ha
      exact ⟨bool, by simp [ha]⟩
    · exact ⟨a, by rw [Function.update_of_ne hd, ha]⟩

theorem Slots.collect (h : Slots M t G F mark) (kept : Nat → Nat → Bool) :
    Slots M (t.collect kept) G F mark := by
  have hlookup : ∀ n, (t.collect kept).storeFiles.lookup n =
      (t.storeFiles.lookup n).map fun file => file.collect (kept n) := by
    intro n
    simp only [T.collect]
    induction t.storeFiles with
    | nil => rfl
    | cons f files ih =>
        rw [List.map_cons, List.lookup_cons, List.lookup_cons, ih]
        cases hn : n == f.1 with
        | true => simp [eq_of_beq hn]
        | false => rfl
  refine ⟨fun n g hg => ?_, fun n hn => h.nofile n ?_, h.entry, h.owner⟩
  · rw [hlookup, Option.map_eq_some_iff] at hg
    obtain ⟨file, hf, rfl⟩ := hg
    obtain ⟨hentry, hholds, hmark⟩ := h.file n file hf
    exact ⟨hentry, hholds.collect _, hmark⟩
  · simpa [hlookup] using hn

end Mldonkey.Store
