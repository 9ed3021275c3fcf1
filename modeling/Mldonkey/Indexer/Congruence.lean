import Mldonkey.Indexer.Query

-- Two indexes with the same documents under every word answer every query alike.
namespace Mldonkey.Indexer

variable {D : Type} {doc : Doc D}

def SameHits (idx idx' : Node D) : Prop := ∀ p d g, Hit (docsAt p idx) d g ↔ Hit (docsAt p idx') d g

lemma SameHits.find {idx idx' : Node D} (h : SameHits idx idx') (s : List UInt8) (d : D)
    (g : Fields) : Hit (find idx s).entries d g ↔ Hit (Indexer.find idx' s).entries d g := by
  rw [hit_entries, hit_entries]
  simp only [docsAt_find]
  cases path s with
  | none => exact Iff.rfl
  | some q => exact exists_congr fun p => h (q ++ p) d g

namespace Intmap

def Alike (m m' : Intmap doc) : Prop := ∀ d, d ∈ m ↔ d ∈ m'

section Alike

variable {m m' : Intmap doc}

lemma Alike.equiv (h : Alike m m') : m.map.Equiv m'.map := by
  have hle {m m' : Intmap doc} (h : Alike m m') (k : ℤ) (d : D) (hd : m.map[k]? = some d) :
      m'.map[k]? = some d := by
    have hk := m.keyed k d hd
    subst hk
    exact (h d).mp hd
  refine Std.TreeMap.Equiv.of_forall_constGet?_eq fun k => ?_
  cases hd : m.map[k]? with
  | some d => exact (hle h k d hd).symm
  | none =>
    cases hd' : m'.map[k]? with
    | none => rfl
    | some d =>
      rw [hle (fun d => (h d).symm) k d hd'] at hd
      cases hd

lemma Alike.isEmpty (h : Alike m m') : m.isEmpty = m'.isEmpty := h.equiv.isEmpty_eq

lemma Alike.docs (h : Alike m m') : m.docs = m'.docs := by
  rw [Intmap.docs, h.equiv.toList_eq, Intmap.docs]

lemma alike_empty : Alike (Intmap.empty : Intmap doc) Intmap.empty := fun _ => Iff.rfl

-- and_query leaves an empty map alone.
lemma Alike.unless_empty {m1 m1' : Intmap doc} (h : Alike m m') (h1 : Alike m1 m1') :
    Alike (if m.isEmpty then m else m1) (if m'.isEmpty then m' else m1') := by
  rw [h.isEmpty]
  split_ifs
  · exact h
  · exact h1

lemma Alike.purge (h : Alike m m') (f : D → Bool) : Alike (purgeMap doc f m) (purgeMap doc f m') :=
  fun d => by rw [mem_purgeMap, mem_purgeMap, h d]

lemma Alike.merge {m1 m1' : Intmap doc} (h : Alike m m') (h1 : Alike m1 m1') :
    Alike (mergeMaps doc m m1) (mergeMaps doc m' m1') :=
  fun d => by rw [mem_mergeMaps, mem_mergeMaps, h d, h1 d]

lemma Alike.substract {m1 m1' : Intmap doc} (h : Alike m m') (h1 : Alike m1 m1') :
    Alike (substractMap doc m m1) (substractMap doc m' m1') :=
  fun d => by rw [mem_substractMap, mem_substractMap, h d, h1 d]

end Alike

end Intmap

namespace Query

open Intmap (Alike)

variable {idx idx' : Node D} {q q1 q2 : Query D}

-- What each evaluation of a query keeps
structure EvaluatedAlike (doc : Doc D) (idx idx' : Node D) (q : Query D) : Prop where
  map : Alike (queryMap doc idx q) (queryMap doc idx' q)
  and : ∀ m m', Alike m m' → Alike (andQuery doc idx q m) (andQuery doc idx' q m')
  or : ∀ m m', Alike m m' → Alike (orQuery doc idx q m) (orQuery doc idx' q m')
  andNot : ∀ m m', Alike m m' → Alike (andnotQuery doc idx q m) (andnotQuery doc idx' q m')

-- A word is looked for in the same way in some fields and in all of them.
lemma alike_search (hf : ∀ d, doc.filtered d = false) (h : SameHits idx idx') {fields : Fields}
    {s : List UInt8}
    (hmap : ∀ idx, queryMap doc idx q = getFields doc (find idx s) fields)
    (hand : ∀ idx m, andQuery doc idx q m =
      if m.isEmpty then m else andGetFields doc (find idx s) fields m)
    (hor : ∀ idx m, orQuery doc idx q m = orGetFields doc m (find idx s) fields)
    (hnot : ∀ idx m, andnotQuery doc idx q m =
      substractMap doc m (getFields doc (find idx s) fields)) :
    EvaluatedAlike doc idx idx' q := by
  have hget : Alike (getFields doc (find idx s) fields) (getFields doc (find idx' s) fields) :=
    fun d => by rw [mem_getFields hf, mem_getFields hf, h.find]
  refine ⟨?_, fun m m' hm => ?_, fun m m' hm => ?_, fun m m' hm => ?_⟩
  · rw [hmap, hmap]
    exact hget
  · rw [hand, hand]
    exact hm.unless_empty fun d => by rw [mem_andGetFields, mem_andGetFields, hm d, h.find]
  · rw [hor, hor]
    exact fun d => by rw [mem_orGetFields hf, mem_orGetFields hf, hm d, h.find]
  · rw [hnot, hnot]
    exact hm.substract hget

lemma alike_predicate (f : D → Bool) : EvaluatedAlike doc idx idx' (.predicate f) := by
  refine ⟨?_, fun m m' hm => ?_, fun m m' hm => ?_, fun m m' hm => ?_⟩
  · rw [queryMap, queryMap]
    exact Intmap.alike_empty
  · rw [andQuery, andQuery]
    exact hm.unless_empty (hm.purge f)
  · rw [orQuery, orQuery]
    exact hm
  · rw [andnotQuery, andnotQuery]
    exact hm.purge _

lemma alike_and (h1 : EvaluatedAlike doc idx idx' q1) (h2 : EvaluatedAlike doc idx idx' q2) :
    EvaluatedAlike doc idx idx' (.and q1 q2) := by
  have hboth : Alike
      (if q1.isPredicate then andQuery doc idx q1 (queryMap doc idx q2)
        else andQuery doc idx q2 (queryMap doc idx q1))
      (if q1.isPredicate then andQuery doc idx' q1 (queryMap doc idx' q2)
        else andQuery doc idx' q2 (queryMap doc idx' q1)) := by
    split_ifs
    · exact h1.and _ _ h2.map
    · exact h2.and _ _ h1.map
  refine ⟨?_, fun m m' hm => ?_, fun m m' hm => ?_, fun m m' hm => ?_⟩
  · rw [queryMap, queryMap]
    exact hboth
  · rw [andQuery, andQuery]
    exact hm.unless_empty (h2.and _ _ (h1.and _ _ hm))
  · rw [orQuery, orQuery]
    exact hm.merge hboth
  · rw [andnotQuery, andnotQuery]
    exact hm.substract hboth

lemma alike_or (h1 : EvaluatedAlike doc idx idx' q1) (h2 : EvaluatedAlike doc idx idx' q2) :
    EvaluatedAlike doc idx idx' (.or q1 q2) := by
  refine ⟨?_, fun m m' hm => ?_, fun m m' hm => ?_, fun m m' hm => ?_⟩
  · rw [queryMap, queryMap]
    exact h2.or _ _ h1.map
  · rw [andQuery, andQuery]
    exact hm.unless_empty ((h1.and _ _ hm).merge (h2.and _ _ hm))
  · rw [orQuery, orQuery]
    exact h2.or _ _ (h1.or _ _ hm)
  · -- a predicate among the two is taken out first, the right one before the left one
    have hkind (q : Query D) : (∃ f, q = .predicate f) ∨ ∀ f, q = .predicate f → False := by
      cases q <;> simp
    have hright (q : Query D) (f : D → Bool) (idx : Node D) (m : Intmap doc) :
        andnotQuery doc idx (.or q (.predicate f)) m = andnotQuery doc idx q (purgeMap doc f m) := by
      rw [andnotQuery]
    obtain ⟨f, rfl⟩ | hq2 := hkind q2
    · rw [hright, hright]
      exact h1.andNot _ _ (hm.purge f)
    · obtain ⟨f, rfl⟩ | hq1 := hkind q1
      · have hleft (idx : Node D) (m : Intmap doc) : andnotQuery doc idx (.or (.predicate f) q2) m =
            andnotQuery doc idx q2 (purgeMap doc f m) := by
          rw [andnotQuery]
          exact hq2
        rw [hleft, hleft]
        exact h2.andNot _ _ (hm.purge f)
      · have hboth (idx : Node D) (m : Intmap doc) : andnotQuery doc idx (.or q1 q2) m =
            substractMap doc (substractMap doc m (queryMap doc idx q1)) (queryMap doc idx q2) := by
          rw [andnotQuery]
          · exact hq2
          · exact hq1
        rw [hboth, hboth]
        exact (hm.substract h1.map).substract h2.map

lemma alike_andNot (h1 : EvaluatedAlike doc idx idx' q1) (h2 : EvaluatedAlike doc idx idx' q2) :
    EvaluatedAlike doc idx idx' (.andNot q1 q2) := by
  refine ⟨?_, fun m m' hm => ?_, fun m m' hm => ?_, fun m m' hm => ?_⟩
  · rw [queryMap, queryMap]
    exact h2.andNot _ _ h1.map
  · rw [andQuery, andQuery]
    exact hm.unless_empty (h2.andNot _ _ (h1.and _ _ hm))
  · rw [orQuery, orQuery]
    exact hm.merge (h2.andNot _ _ h1.map)
  · rw [andnotQuery, andnotQuery]
    exact hm.substract (h2.andNot _ _ h1.map)

lemma alike (hf : ∀ d, doc.filtered d = false) (h : SameHits idx idx') (q : Query D) :
    EvaluatedAlike doc idx idx' q := by
  induction q with
  | and q1 q2 ih1 ih2 => exact alike_and ih1 ih2
  | or q1 q2 ih1 ih2 => exact alike_or ih1 ih2
  | andNot q1 q2 ih1 ih2 => exact alike_andNot ih1 ih2
  | hasWord s =>
    exact alike_search hf h (fun _ => by rw [queryMap]) (fun _ _ => by rw [andQuery])
      (fun _ _ => by rw [orQuery]) fun _ _ => by rw [andnotQuery]
  | hasField fields s =>
    exact alike_search hf h (fun _ => by rw [queryMap]) (fun _ _ => by rw [andQuery])
      (fun _ _ => by rw [orQuery]) fun _ _ => by rw [andnotQuery]
  | predicate f => exact alike_predicate f

-- The answers come in the order of the numbers, and are cut at the same length.
theorem query_congr (hf : ∀ d, doc.filtered d = false) (h : SameHits idx idx') (q : Query D) :
    query doc idx q = query doc idx' q := by
  rw [query, query, ((alike hf h (simplify q)).map).docs]

end Query

end Mldonkey.Indexer
