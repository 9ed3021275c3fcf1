import Mldonkey.Lib.Runs
import Mathlib

-- The cache of open file descriptors: which files are open, and which of them is
-- closed for another one.
namespace Mldonkey.Unix32.Descriptors

open Runs

def maxCacheSizeDefault : Nat := 50

-- A record of FDCache, with its descriptor while it is open.
structure CachedFile where
  fd : Option Nat
  writable : Bool
  destroyed : Bool

-- The records made so far and the variables of FDCache. A record stands in the
-- queue by its index.
structure State where
  files : List CachedFile
  cacheSize : Int
  cache : List Nat
  maxCacheSize : Int

def CachedFile.isOpen (t : CachedFile) : Bool := t.fd.isSome

namespace State

def start : State :=
  { files := [], cacheSize := 0, cache := [], maxCacheSize := maxCacheSizeDefault }

def file (s : State) (i : Nat) : CachedFile := s.files.getD i ⟨none, false, true⟩

-- Unix.close succeeds.
def close (s : State) (i : Nat) : State :=
  if (s.file i).destroyed then s
  else
    match (s.file i).fd with
    | some _ =>
        { s with
          files := s.files.set i { s.file i with fd := none }
          cacheSize := s.cacheSize - 1 }
    | none => s

-- close_one, on a queue; the entries of files that are not open are dropped.
def closeOneOf (s : State) : List Nat → State
  | [] => { s with cache := [] }
  | t :: cache =>
      match (s.file t).fd with
      | none => s.closeOneOf cache
      | some _ => State.close { s with cache := cache } t

def closeOne (s : State) : State := s.closeOneOf s.cache

def destroy (s : State) (i : Nat) : State :=
  if (s.file i).destroyed then s
  else
    let s := s.close i
    { s with files := s.files.set i { s.file i with destroyed := true } }

-- What openfile answers; none stands for an exception.
abbrev Opened := Option Nat

-- local_force_fd, with the descriptor that it returns.
def forceFd (s : State) (i : Nat) (opened : Opened) : State × Option Nat :=
  if (s.file i).destroyed then (s, none)
  else
    match (s.file i).fd with
    | some fd => (s, some fd)
    | none =>
        let s := if s.maxCacheSize ≤ s.cacheSize then s.closeOne else s
        match opened with
        | none => (s, none)
        | some fd =>
            ({ s with
              files := s.files.set i { s.file i with fd := some fd }
              cacheSize := s.cacheSize + 1
              cache := s.cache ++ [i] }, some fd)

-- The record is made, also for a directory that cannot be opened.
def create (s : State) (writable : Bool) (opened : Opened) : State :=
  (State.forceFd { s with files := s.files ++ [⟨none, writable, false⟩] } s.files.length opened).1

-- rename and multi_rename: an exception of the renaming leaves the record as it is.
def rename (s : State) (i : Nat) (renamed : Bool) : State :=
  if (s.file i).destroyed then s
  else if renamed then (s.close i).destroy i else s.close i

def remove (s : State) (i : Nat) (removed : Bool) : State :=
  if (s.file i).destroyed then s else if removed then s.destroy i else s

theorem length_closeOneOf (s : State) (cache : List Nat) :
    (s.closeOneOf cache).cache.length ≤ cache.length - 1 := by
  induction cache with
  | nil => rfl
  | cons t cache ih =>
      rw [closeOneOf]
      split
      · rw [List.length_cons]
        omega
      · rw [State.close]
        split
        · exact Nat.le_refl _
        · split <;> exact Nat.le_refl _

theorem length_closeOne {s : State} (h : s.cache ≠ []) :
    s.closeOne.cache.length < s.cache.length := by
  have hpos := List.length_pos_of_ne_nil h
  have hle := s.length_closeOneOf s.cache
  rw [closeOne]
  omega

def closeAll (s : State) : State :=
  if _h : s.cache = [] then s else closeAll s.closeOne
termination_by s.cache.length
decreasing_by exact length_closeOne ‹_›

-- The loop of set_max_cache_size. It does not end when there is no file left to
-- close.
def shrink (s : State) : Option State :=
  if s.cacheSize ≤ s.maxCacheSize then some s
  else if _h : s.cache = [] then none
  else shrink s.closeOne
termination_by s.cache.length
decreasing_by exact length_closeOne ‹_›

-- set_max_cache_size, as the hook of max_opened_connections calls it with the
-- descriptors that are left.
def setMaxCacheSize (s : State) (unusedFds : Nat) : Option State :=
  shrink { s with maxCacheSize := maxCacheSizeDefault + unusedFds * 75 / 100 }

end State

inductive Op
  | create (writable : Bool) (opened : Option Nat)
  | use (i : Nat) (opened : Option Nat)
  | close (i : Nat)
  | rename (i : Nat) (renamed : Bool)
  | remove (i : Nat) (removed : Bool)
  | destroy (i : Nat)
  | closeAll
  | setMaxCacheSize (unusedFds : Nat)

def Op.next : Op → State → State
  | create writable opened, s => s.create writable opened
  | use i opened, s => (s.forceFd i opened).1
  | close i, s => s.close i
  | rename i renamed, s => s.rename i renamed
  | remove i removed, s => s.remove i removed
  | destroy i, s => s.destroy i
  | closeAll, s => s.closeAll
  | setMaxCacheSize unusedFds, s => (s.setMaxCacheSize unusedFds).getD s

-- The states after any operations in any order.
def Reachable : State → Prop := Reach Op.next (fun s => s = .start) fun _ _ => True

-- The counter counts the open files, none of which was destroyed.
structure Tally (s : State) : Prop where
  count : s.cacheSize = s.files.countP CachedFile.isOpen
  alive : ∀ i, (s.file i).isOpen = true → (s.file i).destroyed = false

-- Each open file stands in a queue.
def Queued (s : State) (cache : List Nat) : Prop := ∀ i, (s.file i).isOpen = true → i ∈ cache

-- What holds between two operations.
structure Counted (s : State) : Prop where
  tally : Tally s
  queued : Queued s s.cache
  le_max : s.cacheSize ≤ s.maxCacheSize
  max_pos : 1 ≤ s.maxCacheSize

variable {s s' : State} {i j : Nat}

theorem file_set (t : CachedFile) (j : Nat) :
    (s.files.set i t).getD j ⟨none, false, true⟩ =
      if j = i ∧ i < s.files.length then t else s.file j := by
  rw [State.file, List.getD_eq_getElem?_getD, List.getD_eq_getElem?_getD, List.getElem?_set]
  by_cases hj : i = j
  · subst hj
    by_cases hi : i < s.files.length
    · simp [hi]
    · simp [hi]
  · rw [if_neg hj, if_neg fun h => hj h.1.symm]

theorem lt_of_isOpen (h : (s.file i).isOpen = true) : i < s.files.length := by
  by_contra hge
  rw [State.file, List.getD_eq_getElem?_getD, List.getElem?_eq_none (by omega)] at h
  cases h

theorem lt_of_alive (h : (s.file i).destroyed = false) : i < s.files.length := by
  by_contra hge
  rw [State.file, List.getD_eq_getElem?_getD, List.getElem?_eq_none (by omega)] at h
  cases h

theorem getElem_eq_file (hi : i < s.files.length) : s.files[i] = s.file i := by
  rw [State.file, List.getD_eq_getElem?_getD, List.getElem?_eq_getElem hi]
  rfl

theorem Tally.pos (h : Tally s) (hi : (s.file i).isOpen = true) : 0 < s.cacheSize := by
  have hpos : 0 < s.files.countP CachedFile.isOpen := by
    rw [List.countP_pos_iff]
    exact ⟨s.file i, getElem_eq_file (lt_of_isOpen hi) ▸ List.getElem_mem _, hi⟩
  rw [h.count]
  exact_mod_cast hpos

theorem Tally.zero (h : Tally s) (hnone : ∀ i, (s.file i).isOpen = false) : s.cacheSize = 0 := by
  have hzero : s.files.countP CachedFile.isOpen = 0 := by
    rw [List.countP_eq_zero]
    intro t ht
    obtain ⟨i, hi, rfl⟩ := List.getElem_of_mem ht
    rw [getElem_eq_file hi, hnone i]
    exact Bool.false_ne_true
  rw [h.count, hzero]
  rfl

-- One record is put in the place of another.
theorem Tally.set (h : Tally s) {t : CachedFile} (hi : i < s.files.length)
    (halive : t.isOpen = true → t.destroyed = false) {cache : List Nat} {n max : Int}
    (hn : n = s.cacheSize - (if (s.file i).isOpen then 1 else 0) + if t.isOpen then 1 else 0) :
    Tally { files := s.files.set i t, cacheSize := n, cache := cache, maxCacheSize := max } := by
  refine ⟨?_, fun j hj => ?_⟩
  · have hle := List.boole_getElem_le_countP (p := CachedFile.isOpen) hi
    rw [getElem_eq_file hi] at hle
    show n = _
    rw [hn, h.count, List.countP_set hi, getElem_eq_file hi]
    split <;> split <;> simp_all
  · rw [State.file] at hj ⊢
    dsimp only at hj ⊢
    rw [file_set] at hj ⊢
    split at hj
    · next hji => rw [if_pos hji]; exact halive hj
    · next hji => rw [if_neg hji]; exact h.alive j hj

-- What close does to a state with such a counter.
structure Closed (s : State) (i : Nat) (s' : State) : Prop where
  tally : Tally s'
  isOpen : ∀ j, (s'.file j).isOpen = true ↔ j ≠ i ∧ (s.file j).isOpen = true
  destroyed : ∀ j, (s'.file j).destroyed = (s.file j).destroyed
  cacheSize : s'.cacheSize = s.cacheSize - if (s.file i).isOpen then 1 else 0
  cache : s'.cache = s.cache
  max : s'.maxCacheSize = s.maxCacheSize

theorem Tally.close (h : Tally s) (i : Nat) : Closed s i (s.close i) := by
  have hsame : (s.file i).isOpen = false → Closed s i s := fun hi =>
    ⟨h, fun j => ⟨fun hj => ⟨fun heq => Bool.false_ne_true (hi.symm.trans (heq ▸ hj)), hj⟩,
      fun hj => hj.2⟩, fun _ => rfl, by rw [hi]; exact (Int.sub_zero _).symm, rfl, rfl⟩
  rw [State.close]
  by_cases hdestroyed : (s.file i).destroyed
  · rw [if_pos hdestroyed]
    refine hsame (eq_false_of_ne_true fun hopen => ?_)
    rw [h.alive i hopen] at hdestroyed
    cases hdestroyed
  · rw [if_neg hdestroyed]
    cases hfd : (s.file i).fd with
    | none => exact hsame (by rw [CachedFile.isOpen, hfd]; rfl)
    | some fd =>
        have hopen : (s.file i).isOpen = true := by rw [CachedFile.isOpen, hfd]; rfl
        have hlt := lt_of_isOpen hopen
        have hclosed : ({ s.file i with fd := none } : CachedFile).isOpen = true → False :=
          Bool.false_ne_true
        refine ⟨h.set hlt (fun hf => (hclosed hf).elim) ?_, fun j => ?_, fun j => ?_, ?_, rfl, rfl⟩
        · rw [hopen]
          simp [CachedFile.isOpen]
        · have heq := @file_set s i { s.file i with fd := none } j
          rw [State.file]
          dsimp only
          rw [heq]
          by_cases hj : j = i
          · rw [if_pos ⟨hj, hlt⟩]
            exact ⟨fun hf => (hclosed hf).elim, fun hf => absurd hj hf.1⟩
          · rw [if_neg fun hf => hj hf.1]
            exact ⟨fun hf => ⟨hj, hf⟩, fun hf => hf.2⟩
        · rw [State.file]
          dsimp only
          rw [file_set]
          split
          · next hj => rw [hj.1]
          · rfl
        · rw [hopen]
          rfl

theorem closeOneOf_spec (h : Tally s) {cache : List Nat} (hqueued : Queued s cache) :
    Tally (s.closeOneOf cache) ∧ Queued (s.closeOneOf cache) (s.closeOneOf cache).cache ∧
      (s.closeOneOf cache).cacheSize = s.cacheSize - (if 0 < s.cacheSize then 1 else 0) ∧
      (s.closeOneOf cache).maxCacheSize = s.maxCacheSize ∧
      (∀ j, ((s.closeOneOf cache).file j).isOpen = true → (s.file j).isOpen = true) ∧
      ∀ j, ((s.closeOneOf cache).file j).destroyed = (s.file j).destroyed := by
  induction cache with
  | nil =>
      have hnone : ∀ i, (s.file i).isOpen = false := fun i =>
        eq_false_of_ne_true fun hi => absurd (hqueued i hi) List.not_mem_nil
      have hzero := h.zero hnone
      refine ⟨⟨h.count, h.alive⟩, hqueued, ?_, rfl, fun j hj => hj, fun j => rfl⟩
      show s.cacheSize = _
      rw [hzero]
      rfl
  | cons t cache ih =>
      rw [State.closeOneOf]
      cases hfd : (s.file t).fd with
      | none =>
          refine ih fun i hi => ?_
          rcases List.mem_cons.mp (hqueued i hi) with rfl | hmem
          · rw [CachedFile.isOpen, hfd] at hi
            cases hi
          · exact hmem
      | some fd =>
          have hopen : (s.file t).isOpen = true := by rw [CachedFile.isOpen, hfd]; rfl
          have hpos := h.pos hopen
          have hrest : Tally { s with cache := cache } := ⟨h.count, h.alive⟩
          have hclosed := hrest.close t
          refine ⟨hclosed.tally, fun i hi => ?_, ?_, hclosed.max,
            fun j hj => ((hclosed.isOpen j).mp hj).2, hclosed.destroyed⟩
          · rw [hclosed.cache]
            obtain ⟨hne, hi⟩ := (hclosed.isOpen i).mp hi
            exact (List.mem_cons.mp (hqueued i hi)).resolve_left hne
          · have hsize : (State.close { s with cache := cache } t).cacheSize =
                s.cacheSize - if (s.file t).isOpen then 1 else 0 := hclosed.cacheSize
            rw [hopen] at hsize
            rw [if_pos hpos]
            exact hsize

theorem Counted.close (h : Counted s) (i : Nat) : Counted (s.close i) := by
  have hclosed := h.tally.close i
  refine ⟨hclosed.tally, fun j hj => ?_, ?_, ?_⟩
  · rw [hclosed.cache]
    exact h.queued j ((hclosed.isOpen j).mp hj).2
  · have hle := h.le_max
    rw [hclosed.cacheSize, hclosed.max]
    split <;> omega
  · rw [hclosed.max]
    exact h.max_pos

theorem Counted.closeOne (h : Counted s) : Counted s.closeOne ∧
    s.closeOne.cacheSize = s.cacheSize - if 0 < s.cacheSize then 1 else 0 := by
  obtain ⟨htally, hqueued, hsize, hmax, -, -⟩ := closeOneOf_spec h.tally h.queued
  have hle := h.le_max
  refine ⟨⟨htally, hqueued, ?_, ?_⟩, hsize⟩
  · rw [State.closeOne, hsize, hmax]
    split <;> omega
  · rw [State.closeOne, hmax]
    exact h.max_pos

-- A record that is not open is changed in what does not concern its descriptor.
theorem Counted.replace (h : Counted s) (hi : i < s.files.length)
    (hclosed : (s.file i).isOpen = false) {t : CachedFile} (ht : t.isOpen = false) :
    Counted { s with files := s.files.set i t } := by
  refine ⟨h.tally.set hi (fun hf => ?_) ?_, fun j hj => h.queued j ?_, h.le_max, h.max_pos⟩
  · rw [ht] at hf
    cases hf
  · rw [hclosed, ht]
    simp
  · rw [State.file] at hj
    dsimp only at hj
    rw [file_set] at hj
    split at hj
    · rw [ht] at hj
      cases hj
    · exact hj

theorem Counted.destroy (h : Counted s) (i : Nat) : Counted (s.destroy i) := by
  rw [State.destroy]
  split
  · exact h
  · have hnot : ((s.close i).file i).isOpen = false :=
      eq_false_of_ne_true fun hi => (((h.tally.close i).isOpen i).mp hi).1 rfl
    by_cases hlt : i < (s.close i).files.length
    · exact (h.close i).replace hlt hnot hnot
    · dsimp only
      rw [List.set_eq_of_length_le (Nat.le_of_not_lt hlt)]
      exact h.close i

theorem Counted.closeAll (h : Counted s) : Counted s.closeAll := by
  fun_induction State.closeAll s with
  | case1 s hcache => exact h
  | case2 s hcache ih => exact ih h.closeOne.1

theorem Counted.opened (h : Counted s) (hlt : s.cacheSize < s.maxCacheSize)
    (hi : i < s.files.length) (hclosed : (s.file i).isOpen = false) {t : CachedFile}
    (hopen : t.isOpen = true) (halive : t.destroyed = false) :
    Counted
      { s with
        files := s.files.set i t
        cacheSize := s.cacheSize + 1
        cache := s.cache ++ [i] } := by
  refine ⟨h.tally.set hi (fun _ => halive) ?_, fun j hj => ?_, hlt, h.max_pos⟩
  · rw [hclosed, hopen]
    simp
  · rw [State.file] at hj
    dsimp only at hj
    rw [file_set] at hj
    split at hj
    · next hji => exact List.mem_append_right _ (List.mem_singleton.mpr hji.1)
    · exact List.mem_append_left _ (h.queued j hj)

-- Room is made for a file that is not open.
theorem Counted.room (h : Counted s) {s' : State}
    (hs' : s' = if s.maxCacheSize ≤ s.cacheSize then s.closeOne else s) :
    Counted s' ∧ s'.cacheSize < s'.maxCacheSize ∧
      (∀ j, (s'.file j).isOpen = true → (s.file j).isOpen = true) ∧
      ∀ j, (s'.file j).destroyed = (s.file j).destroyed := by
  have hle := h.le_max
  have hpos := h.max_pos
  obtain ⟨-, -, hsize, hmax, hopen, halive⟩ := closeOneOf_spec h.tally h.queued
  by_cases hfull : s.maxCacheSize ≤ s.cacheSize
  · rw [if_pos hfull] at hs'
    subst hs'
    refine ⟨h.closeOne.1, ?_, hopen, halive⟩
    rw [State.closeOne, hsize, hmax, if_pos (by omega)]
    omega
  · rw [if_neg hfull] at hs'
    subst hs'
    exact ⟨h, by omega, fun j hj => hj, fun j => rfl⟩

theorem Counted.forceFd (h : Counted s) (i : Nat) (opened : Option Nat) :
    Counted (s.forceFd i opened).1 := by
  rw [State.forceFd]
  by_cases hdestroyed : (s.file i).destroyed
  · rw [if_pos hdestroyed]
    exact h
  · rw [if_neg hdestroyed]
    cases hfd : (s.file i).fd with
    | some fd => exact h
    | none =>
        dsimp only
        obtain ⟨hroom, hlt, hopen, halive⟩ := h.room rfl
        cases opened with
        | none => exact hroom
        | some fd =>
            have hdead := (halive i).trans (eq_false_of_ne_true hdestroyed)
            refine hroom.opened hlt (lt_of_alive hdead) (eq_false_of_ne_true fun hi => ?_) rfl hdead
            have hsome := hopen i hi
            rw [CachedFile.isOpen, hfd] at hsome
            cases hsome

theorem Counted.create (h : Counted s) (writable : Bool) (opened : Option Nat) :
    Counted (s.create writable opened) := by
  have hfile : ∀ j, State.file { s with files := s.files ++ [⟨none, writable, false⟩] } j =
      if j = s.files.length then ⟨none, writable, false⟩ else s.file j := by
    intro j
    rw [State.file, State.file, List.getD_eq_getElem?_getD, List.getD_eq_getElem?_getD,
      List.getElem?_append]
    split
    · rw [if_neg (by omega)]
    · next hge =>
        split
        · next heq =>
            rw [heq, Nat.sub_self]
            rfl
        · rw [List.getElem?_eq_none (l := s.files) (by omega), List.getElem?_eq_none]
          rw [List.length_singleton]
          omega
  have hopen : ∀ j, (State.file { s with files := s.files ++ [⟨none, writable, false⟩] } j).isOpen =
      true → (s.file j).isOpen = true := by
    intro j hj
    rw [hfile] at hj
    split at hj
    · cases hj
    · exact hj
  have hnew : Counted { s with files := s.files ++ [⟨none, writable, false⟩] } := by
    refine ⟨⟨?_, fun j hj => ?_⟩, fun j hj => h.queued j (hopen j hj), h.le_max, h.max_pos⟩
    · show s.cacheSize = _
      rw [h.tally.count]
      simp [CachedFile.isOpen]
    · have hj' := hopen j hj
      have hne : j ≠ s.files.length := Nat.ne_of_lt (lt_of_isOpen hj')
      rw [hfile, if_neg hne]
      exact h.tally.alive j hj'
  exact hnew.forceFd _ _

theorem Counted.rename (h : Counted s) (i : Nat) (renamed : Bool) :
    Counted (s.rename i renamed) := by
  rw [State.rename]
  split
  · exact h
  · split
    · exact (h.close i).destroy i
    · exact h.close i

theorem Counted.remove (h : Counted s) (i : Nat) (removed : Bool) :
    Counted (s.remove i removed) := by
  rw [State.remove]
  split
  · exact h
  · split
    · exact h.destroy i
    · exact h

-- The loop of set_max_cache_size ends, since what is counted is queued.
theorem shrink_counted (htally : Tally s) (hqueued : Queued s s.cache)
    (hmax : 1 ≤ s.maxCacheSize) : ∃ s', s.shrink = some s' ∧ Counted s' ∧
      s'.maxCacheSize = s.maxCacheSize := by
  fun_induction State.shrink s with
  | case1 s hle => exact ⟨s, rfl, ⟨htally, hqueued, hle, hmax⟩, rfl⟩
  | case2 s hgt hcache =>
      have hzero := htally.zero fun i => eq_false_of_ne_true fun hi =>
        absurd (hcache ▸ hqueued i hi) List.not_mem_nil
      omega
  | case3 s hgt hcache ih =>
      obtain ⟨htally', hqueued', -, hmax', -⟩ := closeOneOf_spec htally hqueued
      obtain ⟨s', heq, hcounted, hs'⟩ := ih htally' hqueued' (hmax'.symm ▸ hmax)
      exact ⟨s', heq, hcounted, hs'.trans hmax'⟩

theorem Counted.setMaxCacheSize (h : Counted s) (unusedFds : Nat) :
    ∃ s', s.setMaxCacheSize unusedFds = some s' ∧ Counted s' := by
  have hpos : (1 : Int) ≤ (maxCacheSizeDefault + unusedFds * 75 / 100 : Nat) := by
    rw [maxCacheSizeDefault]
    omega
  obtain ⟨s', heq, hcounted, -⟩ := @shrink_counted
    { s with maxCacheSize := (maxCacheSizeDefault + unusedFds * 75 / 100 : Nat) }
    ⟨h.tally.count, h.tally.alive⟩ h.queued hpos
  exact ⟨s', heq, hcounted⟩

theorem counted_start : Counted .start := by
  refine ⟨⟨rfl, fun i hi => ?_⟩, fun i hi => ?_, by decide, by decide⟩
  · exact absurd hi Bool.false_ne_true
  · exact absurd hi Bool.false_ne_true

theorem Counted.next (h : Counted s) (op : Op) : Counted (op.next s) := by
  cases op with
  | create writable opened => exact h.create writable opened
  | use i opened => exact h.forceFd i opened
  | close i => exact h.close i
  | rename i renamed => exact h.rename i renamed
  | remove i removed => exact h.remove i removed
  | destroy i => exact h.destroy i
  | closeAll => exact h.closeAll
  | setMaxCacheSize unusedFds =>
      obtain ⟨s', heq, hcounted⟩ := h.setMaxCacheSize unusedFds
      rw [Op.next, heq]
      exact hcounted

-- In every state reached the counter is right and within its bound, each open
-- file can be found in the queue, and as long as there is one close_one closes one.
theorem cache_counted (hs : Reachable s) :
    s.cacheSize = s.files.countP CachedFile.isOpen ∧
      s.cacheSize ≤ s.maxCacheSize ∧
      (∀ i opened, (s.forceFd i opened).1.cacheSize ≤ (s.forceFd i opened).1.maxCacheSize) ∧
      (∀ i, (s.file i).isOpen = true → i ∈ s.cache) ∧
      (0 < s.cacheSize → s.closeOne.cacheSize = s.cacheSize - 1) ∧
      ∀ unusedFds, (s.setMaxCacheSize unusedFds).isSome = true := by
  have h : Counted s := by
    refine Reach.inv ?_ (fun s op h _ => h.next op) hs
    rintro s rfl
    exact counted_start
  refine ⟨h.tally.count, h.le_max, fun i opened => (h.forceFd i opened).le_max, h.queued,
    fun hpos => ?_, fun unusedFds => ?_⟩
  · rw [h.closeOne.2, if_pos hpos]
  · obtain ⟨s', heq, -⟩ := h.setMaxCacheSize unusedFds
    rw [heq]
    rfl

-- Fifty files are open, one is closed, and of two others one cannot be opened at first.
def crowding : List Op :=
  (List.range 50).map (fun fd => Op.create true (some fd)) ++
    [.close 0, .create false none, .use 50 (some 50), .create true (some 51)]

def crowded : State := crowding.foldl (fun s op => op.next s) .start

-- For the last file the entry of the closed one is dropped and the next file is closed.
theorem cache_counted_crowded : crowded.cacheSize = crowded.files.countP CachedFile.isOpen ∧
    crowded.cacheSize ≤ crowded.maxCacheSize ∧ crowded.cacheSize = 50 ∧
    (crowded.file 1).isOpen = false ∧ crowded.cache = List.range' 2 50 := by
  have hstart : Reachable .start := .start rfl
  have hrun : Reachable crowded := Reach.foldl hstart crowding fun _ _ _ => trivial
  obtain ⟨hcount, hle, -⟩ := cache_counted hrun
  exact ⟨hcount, hle, by decide +kernel⟩

end Mldonkey.Unix32.Descriptors
