import Mldonkey.Indexer.Trie

-- QueryMake of Indexer, over the index of Indexer2.
namespace Mldonkey.Indexer

-- The documents of a search; the number tells them apart
structure Doc (D : Type) where
  num : D → ℤ
  filtered : D → Bool
  num_injective : Function.Injective num

variable {D : Type}

-- An Intmap of documents, each under its number
structure Intmap (doc : Doc D) where
  map : Std.TreeMap ℤ D
  keyed : ∀ k d, map[k]? = some d → doc.num d = k

namespace Intmap

variable {doc : Doc D}

def empty : Intmap doc := ⟨∅, fun _ _ h => by simp at h⟩

def add (d : D) (m : Intmap doc) : Intmap doc where
  map := m.map.insert (doc.num d) d
  keyed k d' h := by
    rw [Std.TreeMap.getElem?_insert] at h
    split_ifs at h with hk
    · rw [← Option.some_inj.mp h]
      exact Std.LawfulEqOrd.eq_of_compare hk
    · exact m.keyed k d' h

def contains (m : Intmap doc) (d : D) : Bool := m.map.contains (doc.num d)

def isEmpty (m : Intmap doc) : Bool := m.map.isEmpty

-- The documents in the order of their numbers
def docs (m : Intmap doc) : List D := m.map.toList.map Prod.snd

instance : Membership D (Intmap doc) := ⟨fun m d => m.map[doc.num d]? = some d⟩

end Intmap

inductive Query (D : Type) where
  | and (q1 q2 : Query D)
  | or (q1 q2 : Query D)
  | andNot (q1 q2 : Query D)
  | hasWord (s : List UInt8)
  | hasField (fields : Fields) (s : List UInt8)
  | predicate (f : D → Bool)

def Query.isPredicate : Query D → Bool
  | .predicate _ => true
  | _ => false

variable (doc : Doc D)

def addNew (m : Intmap doc) (d : D) : Intmap doc := if m.contains d then m else m.add d

def orGetFields (map : Intmap doc) (node : Node D) (fields : Fields) : Intmap doc :=
  node.entries.foldl
    (fun map e =>
      if e.2 &&& fields ≠ 0 then
        if doc.filtered e.1 then map else addNew doc map e.1
      else map) map

def andGetFields (node : Node D) (fields : Fields) (andMap : Intmap doc) : Intmap doc :=
  node.entries.foldl
    (fun map e =>
      if e.2 &&& fields ≠ 0 then
        if andMap.contains e.1 then addNew doc map e.1 else map
      else map) .empty

def getFields (node : Node D) (fields : Fields) : Intmap doc := orGetFields doc .empty node fields

def purgeMap (f : D → Bool) (map : Intmap doc) : Intmap doc :=
  map.docs.foldl (fun m d => if f d then m.add d else m) .empty

def mergeMaps (map1 map2 : Intmap doc) : Intmap doc :=
  if map1.isEmpty then map2 else map2.docs.foldl (addNew doc) map1

def substractMap (map mapNot : Intmap doc) : Intmap doc :=
  if mapNot.isEmpty then map
  else map.docs.foldl (fun m d => if mapNot.contains d then m else m.add d) .empty

variable (idx : Node D)

mutual

def queryMap : Query D → Intmap doc
  | .hasWord s => getFields doc (find idx s) (-1)
  | .hasField fields s => getFields doc (find idx s) fields
  | .and q1 q2 =>
    if q1.isPredicate then andQuery q1 (queryMap q2) else andQuery q2 (queryMap q1)
  | .or q1 q2 => orQuery q2 (queryMap q1)
  | .andNot q1 q2 => andnotQuery q2 (queryMap q1)
  | .predicate _ => .empty

def andQuery : Query D → Intmap doc → Intmap doc
  | .hasWord s, map =>
    if map.isEmpty then map else andGetFields doc (find idx s) (-1) map
  | .hasField fields s, map =>
    if map.isEmpty then map else andGetFields doc (find idx s) fields map
  | .and q1 q2, map => if map.isEmpty then map else andQuery q2 (andQuery q1 map)
  | .or q1 q2, map =>
    if map.isEmpty then map else mergeMaps doc (andQuery q1 map) (andQuery q2 map)
  | .andNot q1 q2, map => if map.isEmpty then map else andnotQuery q2 (andQuery q1 map)
  | .predicate f, map => if map.isEmpty then map else purgeMap doc f map

def orQuery : Query D → Intmap doc → Intmap doc
  | .hasWord s, map => orGetFields doc map (find idx s) (-1)
  | .hasField fields s, map => orGetFields doc map (find idx s) fields
  | .and q1 q2, map =>
    mergeMaps doc map
      (if q1.isPredicate then andQuery q1 (queryMap q2) else andQuery q2 (queryMap q1))
  | .or q1 q2, map => orQuery q2 (orQuery q1 map)
  | .andNot q1 q2, map => mergeMaps doc map (andnotQuery q2 (queryMap q1))
  | .predicate _, map => map

-- The third branch purges with the predicate itself, the last one with its negation
def andnotQuery : Query D → Intmap doc → Intmap doc
  | .hasWord s, map => substractMap doc map (getFields doc (find idx s) (-1))
  | .hasField fields s, map => substractMap doc map (getFields doc (find idx s) fields)
  | .and q1 q2, map =>
    substractMap doc map
      (if q1.isPredicate then andQuery q1 (queryMap q2) else andQuery q2 (queryMap q1))
  | .or q1 q2, map =>
    match q2 with
    | .predicate f => andnotQuery q1 (purgeMap doc f map)
    | q2 =>
      match q1 with
      | .predicate f => andnotQuery q2 (purgeMap doc f map)
      | q1 => substractMap doc (substractMap doc map (queryMap q1)) (queryMap q2)
  | .andNot q1 q2, map => substractMap doc map (andnotQuery q2 (queryMap q1))
  | .predicate f, map => purgeMap doc (fun x => !f x) map

end

-- simplify1 for each constructor
def simplifyOr (q1 : Query D) : Query D → Query D
  | .or q2 q3 => simplifyOr (simplifyOr q1 q2) q3
  | q2 => .or q1 q2

def simplifyAndNot : Query D → Query D → Query D
  | .predicate f1, .predicate f2 => .predicate fun x => f1 x && !f2 x
  | q1, q2 => .andNot q1 q2

def simplifyAnd : Query D → Query D → Query D
  | .predicate f1, .predicate f2 => .predicate fun x => f1 x && f2 x
  | .andNot q1 q2, q3 => simplifyAndNot (simplifyAnd q1 q3) q2
  | .predicate f, q => .and q (.predicate f)
  | q1, .and q2 q3 => simplifyAnd (simplifyAnd q1 q2) q3
  | .or q1 q2, q3 => simplifyOr (simplifyAnd q1 q3) (simplifyAnd q2 q3)
  | q1, q2 => .and q1 q2
termination_by q1 q2 => (sizeOf q2, sizeOf q1)

def simplify : Query D → Query D
  | .and q1 q2 => simplifyAnd (simplify q1) (simplify q2)
  | .or q1 q2 => simplifyOr (simplify q1) (simplify q2)
  | .andNot q1 q2 => simplifyAndNot (simplify q1) (simplify q2)
  | q => q

def maxSearchResults : ℕ := 1000

def query (q : Query D) : List D :=
  let docs := (queryMap doc idx (simplify q)).docs
  docs.take (min docs.length maxSearchResults)

end Mldonkey.Indexer

-- The documents in the maps that the evaluation of a query builds.
namespace Mldonkey.Indexer

variable {D : Type} {doc : Doc D}

namespace Intmap

lemma mem_def {m : Intmap doc} {d : D} : d ∈ m ↔ m.map[doc.num d]? = some d := Iff.rfl

@[simp] lemma not_mem_empty (d : D) : d ∉ (empty : Intmap doc) := by
  simp [mem_def, empty]

@[simp] lemma mem_add {m : Intmap doc} {d d' : D} : d' ∈ m.add d ↔ d' = d ∨ d' ∈ m := by
  rw [mem_def, add, Std.TreeMap.getElem?_insert]
  split_ifs with h
  · have : d = d' := doc.num_injective (Std.LawfulEqOrd.eq_of_compare h)
    simp [this]
  · have : d' ≠ d := by
      rintro rfl
      exact h Std.ReflOrd.compare_self
    simp [this, mem_def]

@[simp] lemma contains_iff {m : Intmap doc} {d : D} : m.contains d = true ↔ d ∈ m := by
  rw [contains, Std.TreeMap.contains_eq_isSome_getElem?, Option.isSome_iff_exists, mem_def]
  constructor
  · rintro ⟨d', h⟩
    obtain rfl := doc.num_injective (m.keyed _ _ h)
    exact h
  · exact fun h => ⟨d, h⟩

@[simp] lemma mem_docs {m : Intmap doc} {d : D} : d ∈ m.docs ↔ d ∈ m := by
  simp only [docs, List.mem_map, Prod.exists, exists_eq_right,
    Std.TreeMap.mem_toList_iff_getElem?_eq_some]
  constructor
  · rintro ⟨k, h⟩
    rwa [mem_def, m.keyed k d h]
  · exact fun h => ⟨_, h⟩

lemma nodup_docs (m : Intmap doc) : m.docs.Nodup := by
  have h := Std.TreeMap.distinct_keys_toList (t := m.map)
  rw [docs, List.Nodup, List.pairwise_map]
  refine h.imp_of_mem fun {a b} ha hb hne heq => hne ?_
  rw [Std.TreeMap.mem_toList_iff_getElem?_eq_some] at ha hb
  rw [← m.keyed _ _ ha, ← m.keyed _ _ hb, heq]
  exact Std.ReflOrd.compare_self

lemma not_mem_of_isEmpty {m : Intmap doc} (h : m.isEmpty = true) (d : D) : d ∉ m := by
  rw [← contains_iff, contains, Std.TreeMap.contains_of_isEmpty h]
  exact Bool.false_ne_true

end Intmap

@[simp] lemma mem_addNew {m : Intmap doc} {d d' : D} : d' ∈ addNew doc m d ↔ d' = d ∨ d' ∈ m := by
  rw [addNew]
  split_ifs with h
  · rw [Intmap.contains_iff] at h
    constructor
    · exact .inr
    · rintro (rfl | h')
      · exact h
      · exact h'
  · exact Intmap.mem_add

lemma mem_foldl {α : Type} {step : Intmap doc → α → Intmap doc} {P : α → D → Prop}
    (hstep : ∀ m a d, d ∈ step m a ↔ d ∈ m ∨ P a d) (l : List α) (m : Intmap doc) (d : D) :
    d ∈ l.foldl step m ↔ d ∈ m ∨ ∃ a ∈ l, P a d := by
  induction l generalizing m with
  | nil => simp
  | cons a l ih =>
    rw [List.foldl_cons, ih, hstep]
    simp only [List.mem_cons, exists_eq_or_imp, or_assoc]

lemma mem_orGetFields (hf : ∀ d, doc.filtered d = false) {m : Intmap doc} {node : Node D}
    {fields : Fields} {d : D} :
    d ∈ orGetFields doc m node fields ↔ d ∈ m ∨ Hit node.entries d fields := by
  rw [orGetFields, mem_foldl (P := fun e d => e.1 = d ∧ e.2 &&& fields ≠ 0)]
  · refine or_congr Iff.rfl ⟨?_, ?_⟩
    · rintro ⟨⟨d', f⟩, he, rfl, h⟩
      exact ⟨f, he, h⟩
    · rintro ⟨f, he, h⟩
      exact ⟨(d, f), he, rfl, h⟩
  · intro m e d
    split_ifs with h hfiltered
    · simp [hf] at hfiltered
    · rw [mem_addNew, eq_comm]
      tauto
    · tauto

lemma mem_getFields (hf : ∀ d, doc.filtered d = false) {node : Node D} {fields : Fields} {d : D} :
    d ∈ getFields doc node fields ↔ Hit node.entries d fields := by
  rw [getFields, mem_orGetFields hf]
  simp

lemma mem_andGetFields {m : Intmap doc} {node : Node D} {fields : Fields} {d : D} :
    d ∈ andGetFields doc node fields m ↔ d ∈ m ∧ Hit node.entries d fields := by
  rw [andGetFields, mem_foldl (P := fun e d => e.1 = d ∧ d ∈ m ∧ e.2 &&& fields ≠ 0)]
  · constructor
    · rintro (h | ⟨⟨d', f⟩, he, rfl, hm, h⟩)
      · simp at h
      · exact ⟨hm, f, he, h⟩
    · rintro ⟨hm, f, he, h⟩
      exact .inr ⟨(d, f), he, rfl, hm, h⟩
  · intro m' e d
    by_cases he : e.1 = d
    · subst he
      split_ifs with h hm
      · rw [Intmap.contains_iff] at hm
        rw [mem_addNew]
        tauto
      · rw [Intmap.contains_iff] at hm
        tauto
      · tauto
    · split_ifs <;> simp [he, Ne.symm he]

lemma mem_purgeMap {f : D → Bool} {m : Intmap doc} {d : D} :
    d ∈ purgeMap doc f m ↔ d ∈ m ∧ f d = true := by
  rw [purgeMap, mem_foldl (P := fun d' d => d' = d ∧ f d = true)]
  · simp
  · intro m d' d
    by_cases hd : d' = d
    · subst hd
      split_ifs with h <;> simp [h]
    · split_ifs <;> simp [hd, Ne.symm hd]

lemma mem_mergeMaps {m1 m2 : Intmap doc} {d : D} :
    d ∈ mergeMaps doc m1 m2 ↔ d ∈ m1 ∨ d ∈ m2 := by
  rw [mergeMaps]
  split_ifs with h
  · simp [Intmap.not_mem_of_isEmpty h]
  · rw [mem_foldl (P := fun d' d => d' = d)]
    · simp
    · intro m d' d
      rw [mem_addNew, eq_comm, or_comm]

lemma mem_substractMap {m mNot : Intmap doc} {d : D} :
    d ∈ substractMap doc m mNot ↔ d ∈ m ∧ d ∉ mNot := by
  rw [substractMap]
  split_ifs with h
  · simp [Intmap.not_mem_of_isEmpty h]
  · rw [mem_foldl (P := fun d' d => d' = d ∧ d ∉ mNot)]
    · simp
    · intro m d' d
      by_cases hd : d' = d
      · subst hd
        split_ifs with hc
        · rw [Intmap.contains_iff] at hc
          simp [hc]
        · rw [Intmap.contains_iff] at hc
          simp [hc]
      · split_ifs <;> simp [hd, Ne.symm hd]

end Mldonkey.Indexer
