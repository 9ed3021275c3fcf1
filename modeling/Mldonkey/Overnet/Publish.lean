import Mathlib.Data.List.Perm.Basic
import Mathlib.Data.List.Sublists
import Mldonkey.Overnet.Search
import Mldonkey.Overnet.BucketRuns

-- The store of what other nodes have published at an Overnet node.
namespace Mldonkey.Overnet.PublishStore

open Donkey (Md4)

variable {α : Type}

abbrev Key := Md4 × Md4

-- A record is shared by three containers. Its time changes, so the record has the number of the
-- cell with the time.
structure Publish (α : Type) where
  publishLastRecv : ℕ
  publishKey : Key
  publishValue : α

-- Both tables have their newest binding first.
structure State (α : Type) where
  overnetMd4 : Md4
  cells : ℕ → ℤ
  nextCell : ℕ
  keywordToFilesBuckets : ℕ → List (Publish α)
  keywordToFilesTable : List (Key × Publish α)
  keywordsTable : List (Md4 × Publish α)
  nFilesStored : ℕ

def maxSoftStoredFiles : ℕ := 1000

def maxHardStoredFiles : ℕ := 2000

namespace State

def initial (overnetMd4 : Md4) : State α where
  overnetMd4 := overnetMd4
  cells _ := 0
  nextCell := 0
  keywordToFilesBuckets _ := []
  keywordToFilesTable := []
  keywordsTable := []
  nFilesStored := 0

variable (now : ℤ) (s : State α)

def bucketNumber (md4 : Md4) : ℕ := commonBits md4 s.overnetMd4

def publish (md4 rMd4 : Md4) (rTags : α) : State α :=
  let key := (md4, rMd4)
  match s.keywordToFilesTable.lookup key with
  | some p => { s with cells := Function.update s.cells p.publishLastRecv now }
  | none =>
    if s.nFilesStored < maxHardStoredFiles then
      let p : Publish α := ⟨s.nextCell, key, rTags⟩
      let bucket := s.bucketNumber md4
      { s with
        cells := Function.update s.cells s.nextCell now
        nextCell := s.nextCell + 1
        keywordToFilesTable := (key, p) :: s.keywordToFilesTable
        keywordsTable := (md4, p) :: s.keywordsTable
        keywordToFilesBuckets :=
          Function.update s.keywordToFilesBuckets bucket (s.keywordToFilesBuckets bucket ++ [p])
        nFilesStored := s.nFilesStored + 1 }
    else s

-- A turn of the loop over a bucket, whose new queue is already in place
def keep (maxtime : ℤ) (bucket : ℕ) (s : State α) (p : Publish α) : State α :=
  if maxtime < s.cells p.publishLastRecv ∧ s.nFilesStored < maxSoftStoredFiles then
    { s with
      keywordToFilesBuckets :=
        Function.update s.keywordToFilesBuckets bucket (s.keywordToFilesBuckets bucket ++ [p])
      keywordToFilesTable := (p.publishKey, p) :: s.keywordToFilesTable
      keywordsTable := (p.publishKey.1, p) :: s.keywordsTable
      nFilesStored := s.nFilesStored + 1 }
  else s

def refreshBucket (maxtime : ℤ) (s : State α) (bucket : ℕ) : State α :=
  let b := s.keywordToFilesBuckets bucket
  if 0 < b.length then
    b.foldl (keep maxtime bucket)
      { s with keywordToFilesBuckets := Function.update s.keywordToFilesBuckets bucket [] }
  else s

def refresh : State α :=
  let s := { s with keywordsTable := [], keywordToFilesTable := [], nFilesStored := 0 }
  (List.range 129).reverse.foldl (refreshBucket (now - 3600)) s

-- find_all gives all the bindings of the key.
def get (md4 : Md4) : List α :=
  (s.keywordsTable.filter fun e => e.1 = md4).map fun e => e.2.publishValue

-- All that is in the 129 queues, from the closest bucket on
def contents : List (Publish α) := (List.range 129).reverse.flatMap s.keywordToFilesBuckets

end State

inductive Op (α : Type)
  | publish (now : ℤ) (md4 rMd4 : Md4) (rTags : α)
  | refresh (now : ℤ)

def Op.time : Op α → ℤ
  | .publish now _ _ _ => now
  | .refresh now => now

def step (s : State α) : Op α → State α
  | .publish now md4 rMd4 rTags => s.publish now md4 rMd4 rTags
  | .refresh now => s.refresh now

def run (overnetMd4 : Md4) (ops : List (Op α)) : State α := ops.foldl step (.initial overnetMd4)

-- What refresh keeps is a part of the contents, and the parts of the containers agree.
section Refresh

variable {s : State α} {maxtime : ℤ}

def State.fresh (s : State α) (maxtime : ℤ) (p : Publish α) : Bool :=
  maxtime < s.cells p.publishLastRecv

-- The entries of a list are put into a bucket and into the tables.
def State.store (s : State α) (bucket : ℕ) (ps : List (Publish α)) : State α :=
  { s with
    keywordToFilesBuckets :=
      Function.update s.keywordToFilesBuckets bucket (s.keywordToFilesBuckets bucket ++ ps)
    keywordToFilesTable :=
      (ps.map fun p => (p.publishKey, p)).reverse ++ s.keywordToFilesTable
    keywordsTable := (ps.map fun p => (p.publishKey.1, p)).reverse ++ s.keywordsTable
    nFilesStored := s.nFilesStored + ps.length }

lemma foldl_keep (bucket : ℕ) (b : List (Publish α)) (s : State α) :
    b.foldl (State.keep maxtime bucket) s =
      s.store bucket ((b.filter (s.fresh maxtime)).take (maxSoftStoredFiles - s.nFilesStored)) := by
  induction b generalizing s with
  | nil => simp [State.store]
  | cons p b ih =>
    rw [List.foldl_cons, ih]
    by_cases hfresh : maxtime < s.cells p.publishLastRecv
    · by_cases hroom : s.nFilesStored < maxSoftStoredFiles
      · have hkeep : s.keep maxtime bucket p = s.store bucket [p] := by
          rw [State.keep, if_pos ⟨hfresh, hroom⟩]
          rfl
        have hsub : maxSoftStoredFiles - s.nFilesStored =
            maxSoftStoredFiles - (s.nFilesStored + 1) + 1 := by omega
        have hfilter : (s.store bucket [p]).fresh maxtime = s.fresh maxtime := rfl
        rw [hkeep, hfilter, List.filter_cons_of_pos (by simpa [State.fresh] using hfresh), hsub,
          List.take_succ_cons]
        simp only [State.store, Function.update_self, Function.update_idem, List.map_cons,
          List.map_nil, List.reverse_cons, List.reverse_nil, List.nil_append, List.append_assoc,
          List.singleton_append, List.length_cons, List.length_nil, Nat.zero_add, Nat.add_assoc,
          Nat.add_comm 1]
      · have hzero : maxSoftStoredFiles - s.nFilesStored = 0 := by omega
        rw [State.keep, if_neg fun h => hroom h.2, hzero, List.take_zero, List.take_zero]
    · rw [State.keep, if_neg fun h => hfresh h.1,
        List.filter_cons_of_neg (by simpa [State.fresh] using hfresh)]

lemma refreshBucket_eq (s : State α) (bucket : ℕ) :
    s.refreshBucket maxtime bucket =
      { s with keywordToFilesBuckets :=
          Function.update s.keywordToFilesBuckets bucket [] }.store bucket
        (((s.keywordToFilesBuckets bucket).filter (s.fresh maxtime)).take
          (maxSoftStoredFiles - s.nFilesStored)) := by
  simp only [State.refreshBucket]
  split_ifs with h
  · exact foldl_keep _ _ _
  · have hnil : s.keywordToFilesBuckets bucket = [] := by
      rw [← List.length_eq_zero_iff]
      omega
    simp only [hnil, List.filter_nil, List.take_nil, State.store, List.append_nil,
      Function.update_self, List.map_nil, List.reverse_nil, List.nil_append, List.length_nil,
      Nat.add_zero]
    conv_rhs => rw [Function.update_idem, ← hnil, Function.update_eq_self]

-- The loop over the buckets keeps the fresh entries up to the soft limit.
lemma foldl_refreshBucket (is : List ℕ) (his : is.Nodup) (s : State α) (kept : List (Publish α))
    (hkept : kept = ((is.flatMap s.keywordToFilesBuckets).filter (s.fresh maxtime)).take
      (maxSoftStoredFiles - s.nFilesStored)) :
    ∃ buckets : ℕ → List (Publish α), is.flatMap buckets = kept ∧
      (∀ i, (buckets i).Sublist (s.keywordToFilesBuckets i)) ∧
      (∀ i ∉ is, buckets i = s.keywordToFilesBuckets i) ∧
      is.foldl (State.refreshBucket maxtime) s =
        { s with
          keywordToFilesBuckets := buckets
          keywordToFilesTable :=
            (kept.map fun p => (p.publishKey, p)).reverse ++ s.keywordToFilesTable
          keywordsTable := (kept.map fun p => (p.publishKey.1, p)).reverse ++ s.keywordsTable
          nFilesStored := s.nFilesStored + kept.length } := by
  induction is generalizing s kept with
  | nil =>
    refine ⟨s.keywordToFilesBuckets, ?_, fun _ => List.Sublist.refl _, fun _ _ => rfl, ?_⟩
    · simp [hkept]
    · simp [hkept]
  | cons i is ih =>
    obtain ⟨hi, his⟩ := List.nodup_cons.mp his
    set first := ((s.keywordToFilesBuckets i).filter (s.fresh maxtime)).take
      (maxSoftStoredFiles - s.nFilesStored) with hfirst
    set t : State α := s.refreshBucket maxtime i with ht
    have hstep : State.refreshBucket maxtime s i = t := rfl
    rw [refreshBucket_eq, ← hfirst] at ht
    have hbuckets : t.keywordToFilesBuckets = Function.update s.keywordToFilesBuckets i first := by
      rw [ht]
      simp only [State.store, Function.update_self, List.nil_append, Function.update_idem]
    have hother : is.flatMap t.keywordToFilesBuckets = is.flatMap s.keywordToFilesBuckets := by
      refine List.flatMap_congr fun j hj => ?_
      rw [hbuckets, Function.update_of_ne (ne_of_mem_of_not_mem hj hi)]
    have hcount : t.nFilesStored = s.nFilesStored + first.length := by rw [ht]; rfl
    have hcells : t.fresh maxtime = s.fresh maxtime := by rw [ht]; rfl
    obtain ⟨buckets, hflat, hsub, hrest, heq⟩ := ih his t _ rfl
    rw [hother, hcells, hcount] at hflat
    have hall : kept = first ++ ((is.flatMap s.keywordToFilesBuckets).filter
        (s.fresh maxtime)).take (maxSoftStoredFiles - (s.nFilesStored + first.length)) := by
      rw [hkept, List.flatMap_cons, List.filter_append, List.take_append, ← hfirst]
      congr 2
      rw [hfirst, List.length_take]
      omega
    have hbi : buckets i = first := by rw [hrest i hi, hbuckets, Function.update_self]
    refine ⟨buckets, ?_, fun j => (hsub j).trans ?_, fun j hj => ?_, ?_⟩
    · rw [List.flatMap_cons, hflat, hbi, hall]
    · by_cases hj : j = i
      · rw [hj, hbuckets, Function.update_self]
        exact (List.take_sublist _ _).trans List.filter_sublist
      · rw [hbuckets, Function.update_of_ne hj]
    · rw [List.mem_cons, not_or] at hj
      rw [hrest j hj.2, hbuckets, Function.update_of_ne hj.1]
    · rw [List.foldl_cons, hstep, heq, hother, hcells, hcount, hall]
      simp only [ht, State.store, List.map_append, List.reverse_append, List.append_assoc,
        List.length_append, Nat.add_assoc]

end Refresh

end Mldonkey.Overnet.PublishStore

-- What the store of publications keeps over its runs.
namespace Mldonkey.Overnet.PublishStore

open Donkey (Md4)
open Peers (commonBits_le)

variable {α : Type} {s : State α} {past ops : List (Op α)} {key : Key} {now t : ℤ}

-- The three containers have the same entries, and the tables are indexed by their keys.
structure InStep (s : State α) : Prop where
  table : (s.keywordToFilesTable.map Prod.snd).Perm s.contents
  words : (s.keywordsTable.map Prod.snd).Perm s.contents
  table_length : s.keywordToFilesTable.length = s.nFilesStored
  words_length : s.keywordsTable.length = s.nFilesStored
  buckets_length : s.contents.length = s.nFilesStored
  once : (s.keywordToFilesTable.map Prod.fst).Nodup
  bounded : s.nFilesStored ≤ maxHardStoredFiles
  get : ∀ md4, (s.get md4).Perm
    ((s.keywordToFilesTable.filter fun e => e.1.1 = md4).map fun e => e.2.publishValue)

-- The key was published after the time.
def PublishedAfter (ops : List (Op α)) (key : Key) (t : ℤ) : Prop :=
  ∃ now rTags, Op.publish now key.1 key.2 rTags ∈ ops ∧ t < now

-- What refresh does with the entries that are stored before it
structure Refreshed (ops : List (Op α)) (now : ℤ) (s s' : State α) : Prop where
  soft : s'.nFilesStored ≤ maxSoftStoredFiles
  kept : ∀ e ∈ s'.keywordToFilesTable,
    e ∈ s.keywordToFilesTable ∧ PublishedAfter ops e.1 (now - 3600)
  dropped : ∀ e ∈ s.keywordToFilesTable, PublishedAfter ops e.1 (now - 3600) →
    e ∉ s'.keywordToFilesTable →
      1000 ≤ s'.keywordToFilesTable.countP fun e' => s.bucketNumber e.1.1 ≤ s.bucketNumber e'.1.1

def publishTime (key : Key) : Op α → Option ℤ
  | .publish now md4 rMd4 _ => if (md4, rMd4) = key then some now else none
  | .refresh _ => none

def lastPublish (ops : List (Op α)) (key : Key) : Option ℤ :=
  (ops.filterMap (publishTime key)).getLast?

lemma lastPublish_append (past : List (Op α)) (op : Op α) (key : Key) :
    lastPublish (past ++ [op]) key = (publishTime key op).or (lastPublish past key) := by
  rw [lastPublish, List.filterMap_append]
  cases h : publishTime key op with
  | none => simp [h, lastPublish]
  | some t => simp [h]

lemma publishTime_eq_some {op : Op α} :
    publishTime key op = some t ↔ ∃ rTags, op = .publish t key.1 key.2 rTags := by
  cases op with
  | publish now md4 rMd4 rTags =>
    rw [publishTime]
    constructor
    · intro h
      obtain ⟨rfl, rfl⟩ : (md4, rMd4) = key ∧ now = t := by simpa using h
      exact ⟨rTags, rfl⟩
    · rintro ⟨rTags', h⟩
      obtain ⟨rfl, rfl, rfl, -⟩ := Op.publish.inj h
      exact if_pos rfl
  | refresh now => simp [publishTime]

-- At non-decreasing times the last publication tells whether there is one after a time.
lemma publishedAfter_iff (htimes : ops.Pairwise fun op op' => op.time ≤ op'.time) {last : ℤ}
    (hlast : lastPublish ops key = some last) : PublishedAfter ops key t ↔ t < last := by
  have hmem (now : ℤ) : now ∈ ops.filterMap (publishTime key) ↔
      ∃ rTags, Op.publish now key.1 key.2 rTags ∈ ops := by
    simp only [List.mem_filterMap, publishTime_eq_some]
    constructor
    · rintro ⟨op, hop, rTags, rfl⟩
      exact ⟨rTags, hop⟩
    · rintro ⟨rTags, hop⟩
      exact ⟨_, hop, rTags, rfl⟩
  have hsorted : (ops.filterMap (publishTime key)).Pairwise (· ≤ ·) := by
    rw [List.pairwise_filterMap]
    refine htimes.imp fun {op op'} hle a ha b hb => ?_
    obtain ⟨_, rfl⟩ := publishTime_eq_some.mp ha
    obtain ⟨_, rfl⟩ := publishTime_eq_some.mp hb
    exact hle
  obtain ⟨front, hfront⟩ := List.getLast?_eq_some_iff.mp hlast
  constructor
  · rintro ⟨now, rTags, hop, hlt⟩
    have hnow := (hmem now).mpr ⟨rTags, hop⟩
    rw [hfront] at hnow hsorted
    rcases List.mem_append.mp hnow with h | h
    · exact hlt.trans_le ((List.pairwise_append.mp hsorted).2.2 now h last (by simp))
    · rwa [← List.mem_singleton.mp h]
  · intro hlt
    obtain ⟨rTags, hop⟩ := (hmem last).mp (by rw [hfront]; simp)
    exact ⟨last, rTags, hop, hlt⟩

section Contents

variable {is : List ℕ} {f : ℕ → List (Publish α)} {i : ℕ}

lemma flatMap_put (his : is.Nodup) (hi : i ∈ is) (p : Publish α) :
    (is.flatMap (Function.update f i (f i ++ [p]))).Perm (p :: is.flatMap f) := by
  induction is with
  | nil => cases hi
  | cons j is ih =>
    obtain ⟨hj, his⟩ := List.nodup_cons.mp his
    rw [List.flatMap_cons, List.flatMap_cons]
    by_cases hij : i = j
    · have hrest : is.flatMap (Function.update f i (f i ++ [p])) = is.flatMap f :=
        List.flatMap_congr fun k hk => Function.update_of_ne
          (by rintro rfl; exact hj (hij ▸ hk)) _ _
      rw [hrest, ← hij, Function.update_self, List.append_assoc, List.singleton_append]
      exact List.perm_middle
    · rw [Function.update_of_ne (Ne.symm hij)]
      have hi' := (List.mem_cons.mp hi).resolve_left hij
      exact ((ih his hi').append_left (f j)).trans List.perm_middle

lemma nodup_buckets : (List.range 129).reverse.Nodup := List.nodup_reverse.mpr List.nodup_range

end Contents

-- What holds after the operations of `past`
structure Inv (past : List (Op α)) (s : State α) : Prop where
  table : (s.keywordToFilesTable.map Prod.snd).Perm s.contents
  tableKeys : ∀ e ∈ s.keywordToFilesTable, e.1 = e.2.publishKey
  words : (s.keywordsTable.map Prod.snd).Perm s.contents
  wordKeys : ∀ e ∈ s.keywordsTable, e.1 = e.2.publishKey.1
  count : s.contents.length = s.nFilesStored
  bounded : s.nFilesStored ≤ maxHardStoredFiles
  once : (s.contents.map Publish.publishKey).Nodup
  cells : (s.contents.map Publish.publishLastRecv).Nodup
  cell_lt : ∀ p ∈ s.contents, p.publishLastRecv < s.nextCell
  placed : ∀ i, ∀ p ∈ s.keywordToFilesBuckets i, s.bucketNumber p.publishKey.1 = i
  received : ∀ p ∈ s.contents,
    lastPublish past p.publishKey = some (s.cells p.publishLastRecv)

lemma Inv.key_mem (h : Inv past s) {e : Key × Publish α} (he : e ∈ s.keywordToFilesTable) :
    e.2 ∈ s.contents ∧ e.2.publishKey = e.1 :=
  ⟨h.table.mem_iff.mp (List.mem_map_of_mem he), (h.tableKeys e he).symm⟩

lemma Inv.mem_table (h : Inv past s) {p : Publish α} (hp : p ∈ s.contents) :
    (p.publishKey, p) ∈ s.keywordToFilesTable := by
  obtain ⟨e, he, rfl⟩ := List.mem_map.mp (h.table.mem_iff.mpr hp)
  rw [← h.tableKeys e he]
  exact he

lemma Inv.keys_perm (h : Inv past s) :
    (s.keywordToFilesTable.map Prod.fst).Perm (s.contents.map Publish.publishKey) := by
  have hfst : s.keywordToFilesTable.map Prod.fst =
      (s.keywordToFilesTable.map Prod.snd).map Publish.publishKey := by
    rw [List.map_map]
    exact List.map_congr_left h.tableKeys
  rw [hfst]
  exact h.table.map _

lemma inv_initial (overnetMd4 : Md4) : Inv [] (.initial overnetMd4 : State α) := by
  have hcontents : (State.initial overnetMd4 : State α).contents = [] := by
    simp [State.contents, State.initial]
  refine ⟨?_, by simp [State.initial], ?_, by simp [State.initial], ?_, Nat.zero_le _, ?_, ?_, ?_,
    by simp [State.initial], ?_⟩ <;> rw [hcontents] <;> simp [State.initial]

-- An entry that is known already
lemma Inv.again (h : Inv past s) {md4 rMd4 : Md4} {rTags : α} {p : Publish α}
    (hp : p ∈ s.contents) (hkey : p.publishKey = (md4, rMd4)) :
    Inv (past ++ [.publish now md4 rMd4 rTags])
      { s with cells := Function.update s.cells p.publishLastRecv now } where
  __ := h
  received q hq := by
    have hq : q ∈ s.contents := hq
    rw [lastPublish_append, publishTime]
    by_cases hqp : q = p
    · simp only [hqp, if_pos hkey.symm, Function.update_self]
      rfl
    · have hne : (md4, rMd4) ≠ q.publishKey := fun heq =>
        hqp (List.inj_on_of_nodup_map h.once hq hp (heq.symm.trans hkey.symm))
      have hcell : q.publishLastRecv ≠ p.publishLastRecv := fun heq =>
        hqp (List.inj_on_of_nodup_map h.cells hq hp heq)
      simp only [if_neg hne, Function.update_of_ne hcell]
      exact h.received q hq

-- A publication that is not stored
lemma Inv.refused (h : Inv past s) {md4 rMd4 : Md4} {rTags : α}
    (hnone : (md4, rMd4) ∉ s.contents.map Publish.publishKey) :
    Inv (past ++ [.publish now md4 rMd4 rTags]) s where
  __ := h
  received q hq := by
    have hne : (md4, rMd4) ≠ q.publishKey := fun heq =>
      hnone (heq ▸ List.mem_map_of_mem hq)
    rw [lastPublish_append, publishTime, if_neg hne]
    exact h.received q hq

lemma Inv.publish (h : Inv past s) (now : ℤ) (md4 rMd4 : Md4) (rTags : α) :
    Inv (past ++ [.publish now md4 rMd4 rTags]) (s.publish now md4 rMd4 rTags) := by
  rw [State.publish]
  cases hfind : s.keywordToFilesTable.lookup (md4, rMd4) with
  | some p =>
    obtain ⟨l₁, l₂, heq, -⟩ := List.lookup_eq_some_iff.mp hfind
    obtain ⟨hp, hkey⟩ := h.key_mem (e := ((md4, rMd4), p)) (by rw [heq]; simp)
    exact h.again hp hkey
  | none =>
    have hnone : (md4, rMd4) ∉ s.contents.map Publish.publishKey := by
      intro hmem
      obtain ⟨e, he, hkey⟩ := List.mem_map.mp (h.keys_perm.mem_iff.mpr hmem)
      have := List.lookup_eq_none_iff.mp hfind e he
      simp [hkey] at this
    dsimp only
    split_ifs with hroom
    · set p : Publish α := ⟨s.nextCell, (md4, rMd4), rTags⟩ with hp
      set s' : State α := { s with
        cells := Function.update s.cells s.nextCell now
        nextCell := s.nextCell + 1
        keywordToFilesTable := ((md4, rMd4), p) :: s.keywordToFilesTable
        keywordsTable := (md4, p) :: s.keywordsTable
        keywordToFilesBuckets := Function.update s.keywordToFilesBuckets (s.bucketNumber md4)
          (s.keywordToFilesBuckets (s.bucketNumber md4) ++ [p])
        nFilesStored := s.nFilesStored + 1 } with hs'
      have hcontents : s'.contents.Perm (p :: s.contents) := by
        refine flatMap_put nodup_buckets ?_ p
        have := commonBits_le md4 s.overnetMd4
        rw [List.mem_reverse, List.mem_range, State.bucketNumber]
        omega
      refine ⟨?_, ?_, ?_, ?_, ?_, ?_, ?_, ?_, ?_, ?_, ?_⟩
      · exact (h.table.cons p).trans hcontents.symm
      · intro e he
        rcases List.mem_cons.mp he with rfl | he
        · rfl
        · exact h.tableKeys e he
      · exact (h.words.cons p).trans hcontents.symm
      · intro e he
        rcases List.mem_cons.mp he with rfl | he
        · rfl
        · exact h.wordKeys e he
      · rw [hcontents.length_eq, List.length_cons, h.count]
      · exact Nat.succ_le_of_lt hroom
      · rw [(hcontents.map _).nodup_iff, List.map_cons, List.nodup_cons]
        exact ⟨hnone, h.once⟩
      · rw [(hcontents.map _).nodup_iff, List.map_cons, List.nodup_cons]
        refine ⟨fun hmem => ?_, h.cells⟩
        obtain ⟨q, hq, hcell⟩ := List.mem_map.mp hmem
        exact (h.cell_lt q hq).ne hcell
      · intro q hq
        rcases List.mem_cons.mp (hcontents.mem_iff.mp hq) with rfl | hq
        · exact Nat.lt_succ_self _
        · exact (h.cell_lt q hq).trans (Nat.lt_succ_self _)
      · intro i q hq
        simp only [hs', Function.update_apply] at hq
        split_ifs at hq with hi
        · rcases List.mem_append.mp hq with hq | hq
          · rw [hi]
            exact h.placed _ q hq
          · rw [List.mem_singleton.mp hq, hi]
            rfl
        · exact h.placed i q hq
      · intro q hq
        rw [lastPublish_append, publishTime]
        rcases List.mem_cons.mp (hcontents.mem_iff.mp hq) with rfl | hq
        · simp [hs', hp]
        · have hne : (md4, rMd4) ≠ q.publishKey := fun heq =>
            hnone (heq ▸ List.mem_map_of_mem hq)
          have hcell : q.publishLastRecv ≠ s.nextCell := (h.cell_lt q hq).ne
          simp only [if_neg hne, Option.none_or, hs', Function.update_of_ne hcell]
          exact h.received q hq
    · exact h.refused hnone

-- The entries that refresh keeps, the closest first
def State.kept (s : State α) (now : ℤ) : List (Publish α) :=
  (s.contents.filter (s.fresh (now - 3600))).take maxSoftStoredFiles

lemma State.kept_sublist (s : State α) (now : ℤ) : (s.kept now).Sublist s.contents :=
  (List.take_sublist _ _).trans List.filter_sublist

lemma refresh_eq (s : State α) (now : ℤ) :
    ∃ buckets : ℕ → List (Publish α),
      (∀ i, (buckets i).Sublist (s.keywordToFilesBuckets i)) ∧
      (s.refresh now).contents = s.kept now ∧
      s.refresh now =
        { s with
          keywordToFilesBuckets := buckets
          keywordToFilesTable := ((s.kept now).map fun p => (p.publishKey, p)).reverse
          keywordsTable := ((s.kept now).map fun p => (p.publishKey.1, p)).reverse
          nFilesStored := (s.kept now).length } := by
  obtain ⟨buckets, hflat, hsub, -, heq⟩ := @foldl_refreshBucket α (now - 3600)
    (List.range 129).reverse nodup_buckets
    { s with keywordsTable := [], keywordToFilesTable := [], nFilesStored := 0 } (s.kept now) rfl
  have hrefresh : s.refresh now = _ := heq
  simp only [List.append_nil, Nat.zero_add] at hrefresh
  exact ⟨buckets, hsub, by rw [hrefresh]; exact hflat, hrefresh⟩

lemma Inv.refresh (h : Inv past s) (now : ℤ) :
    Inv (past ++ [.refresh now]) (s.refresh now) := by
  obtain ⟨buckets, hsub, hcontents, heq⟩ := refresh_eq s now
  have hkept := s.kept_sublist now
  refine ⟨?_, ?_, ?_, ?_, ?_, ?_, ?_, ?_, ?_, ?_, ?_⟩
  · rw [hcontents, heq, List.map_reverse, List.map_map]
    exact (List.reverse_perm _).trans (List.Perm.of_eq (List.map_id _))
  · rw [heq]
    intro e he
    obtain ⟨p, -, rfl⟩ := List.mem_map.mp (List.mem_reverse.mp he)
    rfl
  · rw [hcontents, heq, List.map_reverse, List.map_map]
    exact (List.reverse_perm _).trans (List.Perm.of_eq (List.map_id _))
  · rw [heq]
    intro e he
    obtain ⟨p, -, rfl⟩ := List.mem_map.mp (List.mem_reverse.mp he)
    rfl
  · rw [hcontents, heq]
  · rw [heq]
    exact (List.length_take_le _ _).trans (by decide)
  · rw [hcontents]
    exact h.once.sublist (hkept.map _)
  · rw [hcontents]
    exact h.cells.sublist (hkept.map _)
  · rw [hcontents, heq]
    exact fun p hp => h.cell_lt p (hkept.mem hp)
  · rw [heq]
    exact fun i p hp => h.placed i p ((hsub i).mem hp)
  · rw [hcontents, heq]
    intro p hp
    rw [lastPublish_append]
    exact h.received p (hkept.mem hp)

lemma Inv.step (h : Inv past s) (op : Op α) : Inv (past ++ [op]) (step s op) := by
  cases op with
  | publish now md4 rMd4 rTags => exact h.publish now md4 rMd4 rTags
  | refresh now => exact h.refresh now

lemma inv_run (overnetMd4 : Md4) (ops : List (Op α)) : Inv ops (run overnetMd4 ops) := by
  induction ops using List.reverseRecOn with
  | nil => exact inv_initial overnetMd4
  | append_singleton ops op ih =>
    rw [run, List.foldl_append]
    exact ih.step op

lemma Inv.inStep (h : Inv past s) : InStep s where
  table := h.table
  words := h.words
  table_length := by
    rw [← h.count, ← h.table.length_eq, List.length_map]
  words_length := by
    rw [← h.count, ← h.words.length_eq, List.length_map]
  buckets_length := h.count
  once := h.keys_perm.nodup_iff.mpr h.once
  bounded := h.bounded
  get md4 := by
    -- both tables show the contents with the same first part of the key
    have hword : s.keywordsTable.filter (fun e => e.1 = md4) =
        s.keywordsTable.filter ((fun p => decide (p.publishKey.1 = md4)) ∘ Prod.snd) :=
      List.filter_congr fun e he => by rw [Function.comp_apply, h.wordKeys e he]
    have htable : s.keywordToFilesTable.filter (fun e => e.1.1 = md4) =
        s.keywordToFilesTable.filter ((fun p => decide (p.publishKey.1 = md4)) ∘ Prod.snd) :=
      List.filter_congr fun e he => by rw [Function.comp_apply, h.tableKeys e he]
    have hperm := (h.words.trans h.table.symm).filter fun p => decide (p.publishKey.1 = md4)
    rw [State.get, hword, htable]
    have := hperm.map Publish.publishValue
    rwa [List.filter_map, List.filter_map, List.map_map, List.map_map] at this

-- Where an entry stands, only closer ones stand in front of it.
lemma Inv.closest_first (h : Inv past s) :
    s.contents.Pairwise fun p q =>
      s.bucketNumber q.publishKey.1 ≤ s.bucketNumber p.publishKey.1 := by
  rw [State.contents, List.pairwise_flatMap]
  constructor
  · intro i _
    refine List.pairwise_of_forall_mem_list fun p hp q hq => ?_
    rw [h.placed i p hp, h.placed i q hq]
  · rw [List.pairwise_reverse]
    refine List.pairwise_lt_range.imp fun {i j} hij p hp q hq => ?_
    rw [h.placed j p hp, h.placed i q hq]
    exact hij.le

lemma mem_refresh {p : Publish α} :
    (p.publishKey, p) ∈ (s.refresh now).keywordToFilesTable ↔ p ∈ s.kept now := by
  obtain ⟨buckets, -, -, heq⟩ := refresh_eq s now
  rw [heq, List.mem_reverse, List.mem_map]
  constructor
  · rintro ⟨q, hq, heq⟩
    rwa [← (Prod.mk.inj heq).2]
  · exact fun hp => ⟨p, hp, rfl⟩

lemma Inv.refreshed (h : Inv ops s) (htimes : ops.Pairwise fun op op' => op.time ≤ op'.time)
    (now : ℤ) : Refreshed ops now s (s.refresh now) := by
  have hfresh {p : Publish α} (hp : p ∈ s.contents) :
      PublishedAfter ops p.publishKey (now - 3600) ↔ s.fresh (now - 3600) p = true := by
    rw [publishedAfter_iff htimes (h.received p hp), State.fresh, decide_eq_true_iff]
  obtain ⟨buckets, -, -, heq⟩ := refresh_eq s now
  refine ⟨?_, fun e he => ?_, fun e he hpublished hnot => ?_⟩
  · rw [heq]
    exact List.length_take_le _ _
  · rw [heq, List.mem_reverse] at he
    obtain ⟨p, hp, rfl⟩ := List.mem_map.mp he
    have hmem := (s.kept_sublist now).mem hp
    exact ⟨h.mem_table hmem, (hfresh hmem).mpr (List.mem_filter.mp (List.mem_of_mem_take hp)).2⟩
  · obtain ⟨k, p⟩ := e
    obtain ⟨hp, rfl⟩ : p ∈ s.contents ∧ p.publishKey = k := h.key_mem he
    rw [mem_refresh] at hnot
    -- the entry stands behind the first 1000 fresh ones
    set l := s.contents.filter (s.fresh (now - 3600)) with hl
    have hpl : p ∈ l := List.mem_filter.mpr ⟨hp, (hfresh hp).mp hpublished⟩
    have hdrop : p ∈ l.drop maxSoftStoredFiles := by
      rw [← List.take_append_drop maxSoftStoredFiles l, List.mem_append] at hpl
      exact hpl.resolve_left hnot
    have hsorted := h.closest_first.sublist (List.filter_sublist (p := s.fresh (now - 3600)))
    rw [← hl, ← List.take_append_drop maxSoftStoredFiles l, List.pairwise_append] at hsorted
    have hlength : (s.kept now).length = 1000 := by
      have := List.length_pos_of_mem hdrop
      rw [List.length_drop] at this
      rw [State.kept, ← hl, List.length_take, maxSoftStoredFiles] at *
      omega
    rw [heq, List.countP_reverse, List.countP_map, ← hlength]
    refine le_of_eq (List.countP_eq_length.mpr fun q hq => ?_).symm
    simpa using hsorted.2.2 q hq p hdrop

-- The indexes stay in step, and refresh drops what is old or too far away.
theorem publish_in_step (overnetMd4 : Md4) (ops : List (Op α))
    (htimes : ops.Pairwise fun op op' => op.time ≤ op'.time) :
    InStep (run overnetMd4 ops) ∧
      ∀ now, (∀ op ∈ ops, op.time ≤ now) →
        Refreshed ops now (run overnetMd4 ops) ((run overnetMd4 ops).refresh now) :=
  ⟨(inv_run overnetMd4 ops).inStep, fun now _ => (inv_run overnetMd4 ops).refreshed htimes now⟩

lemma length_oneBytes : (List.replicate 16 (1 : UInt8)).length = 16 := rfl

-- Two publications under one keyword, of which the second is in time for the refresh
def twoPublications : List (Op ℕ) :=
  [.publish 100 nullMd4 nullMd4 7, .publish 200 nullMd4 ⟨List.replicate 16 1, length_oneBytes⟩ 8,
    .refresh 3750]

theorem publish_in_step_two : (run nullMd4 twoPublications).get nullMd4 = [8] ∧
    InStep (run nullMd4 twoPublications) ∧
    Refreshed twoPublications 3800 (run nullMd4 twoPublications)
      ((run nullMd4 twoPublications).refresh 3800) :=
  ⟨by decide +kernel, (publish_in_step nullMd4 twoPublications (by decide)).1,
    (publish_in_step nullMd4 twoPublications (by decide)).2 3800 (by decide)⟩

end Mldonkey.Overnet.PublishStore
