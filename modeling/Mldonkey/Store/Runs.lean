import Mldonkey.Store.Slots

-- The store as a map from its documents to values and attributes.
namespace Mldonkey.Store

open FreeList

variable {α : Type}

-- The slot of a document, as the store reads it.
def slot (t : T α) (doc : Nat) : Option (Nat × Nat) :=
  (t.storeAllDoc[doc]?).map fun comb => ((uncombine comb).1, (uncombine comb).2.1)

-- What the callers may do: the values they store are those of `ok`, an index is used
-- only while it is live, and fewer than 2^24 are. Beside the store stands the map
-- they have made of it. A call of get or of get_attrib changes nothing, and the
-- collector comes whenever it likes: an operation reads a cache at most once.
inductive Run (M : Marshal α) (ok : α → Prop) : T α → (Nat → Option (α × Bool)) → Prop
  | create : Run M ok create fun _ => none
  | add {t t' : T α} {S : Nat → Option (α × Bool)} {v : α} {doc : Nat} (h : Run M ok t S)
      (hv : ok v) (hfew : Fewer S (2 ^ 24)) (hadd : add M t v = some (doc, t')) :
      Run M ok t' (Function.update S doc (some (v, false)))
  | update {t t' : T α} {S : Nat → Option (α × Bool)} {v w : α} {a : Bool} {doc : Nat}
      (h : Run M ok t S) (hv : ok v) (hfew : Fewer S (2 ^ 24)) (hdoc : S doc = some (w, a))
      (hupdate : update M t doc v = some t') :
      Run M ok t' (Function.update S doc (some (v, a)))
  | remove {t t' : T α} {S : Nat → Option (α × Bool)} {doc : Nat} (h : Run M ok t S)
      (hdoc : S doc ≠ none) (hremove : remove t doc = some t') :
      Run M ok t' (Function.update S doc none)
  | setAttrib {t t' : T α} {S : Nat → Option (α × Bool)} {w : α} {a bool : Bool} {doc : Nat}
      (h : Run M ok t S) (hdoc : S doc = some (w, a)) (hset : setAttrib t doc bool = some t') :
      Run M ok t' (Function.update S doc (some (w, bool)))
  | collect {t : T α} {S : Nat → Option (α × Bool)} (kept : Nat → Nat → Bool)
      (h : Run M ok t S) : Run M ok (t.collect kept) S

-- The store t is the map S: every operation that is allowed succeeds, and its
-- answer is that of the map.
structure IsMap (M : Marshal α) (ok : α → Prop) (t : T α) (S : Nat → Option (α × Bool)) :
    Prop where
  get : ∀ i v a, S i = some (v, a) → get M t i = some v ∧ getAttrib t i = some a
  add : ∀ v, ok v → Fewer S (2 ^ 24) → ∃ doc t', add M t v = some (doc, t') ∧ S doc = none
  update : ∀ i v, ok v → Fewer S (2 ^ 24) → S i ≠ none → ∃ t', update M t i v = some t'
  remove : ∀ i, S i ≠ none → ∃ t', remove t i = some t'
  setAttrib : ∀ i bool, S i ≠ none → ∃ t', setAttrib t i bool = some t'
  apart : ∀ i j, S i ≠ none → S j ≠ none → slot t i = slot t j → i = j

-- The documents in use have their slots, and the others are the free list.
def Inv (M : Marshal α) (t : T α) (G : Nat → Option (Entry α)) : Prop :=
  (∃ F mark, Slots M t G F mark) ∧
    ∃ m, Free t.storeAllDoc t.storeNextDoc (fun i => G i ≠ none) m

def contents (G : Nat → Option (Entry α)) (i : Nat) : Option (α × Bool) :=
  (G i).map fun e => (e.value, e.attr)

variable {M : Marshal α} {ok : α → Prop} {t t' : T α} {G : Nat → Option (Entry α)}
  {S : Nat → Option (α × Bool)} {doc : Nat} {e : Entry α} {v : α}

@[simp] theorem contents_eq_none : contents G doc = none ↔ G doc = none := by simp [contents]

theorem contents_update (e : Option (Entry α)) :
    contents (Function.update G doc e) =
      Function.update (contents G) doc (e.map fun e => (e.value, e.attr)) := by
  funext i
  by_cases hi : i = doc
  · simp [contents, hi]
  · simp [contents, hi]

theorem Fewer.of_contents {n : Nat} (h : Fewer (contents G) n) : Fewer G n := by
  obtain ⟨live, hlive, hcard⟩ := h
  exact ⟨live, fun i hi => hlive i (by simpa using hi), hcard⟩

theorem inv_create (M : Marshal α) : Inv M create (fun _ => none) :=
  ⟨⟨fun _ _ => none, fun _ => 0, by simp [create], by simp, by simp, by simp⟩, 0,
    free_nil.congr (by simp)⟩

-- The free list of the documents grows where it is at its end.
theorem Inv.docsGrow (h : Inv M t G) : ∃ allDoc m, docsGrow t = some allDoc ∧
    t.storeNextDoc < allDoc.length ∧ Free allDoc t.storeNextDoc (fun i => G i ≠ none) m ∧
    ∀ i < t.storeAllDoc.length, allDoc[i]? = t.storeAllDoc[i]? := by
  obtain ⟨-, m, hfree⟩ := h
  by_cases hge : t.storeAllDoc.length ≤ t.storeNextDoc
  · obtain ⟨hnext, hfree'⟩ :=
      hfree.grow hge ((t.storeAllDoc.length + 10) * 2 - t.storeAllDoc.length)
    refine ⟨_, m, by rw [Store.docsGrow, if_pos hge, newTab, if_pos hnext.le, hnext,
      List.take_length], ?_, hfree', fun i hi => List.getElem?_append_left hi⟩
    simp only [hnext, List.length_append, List.length_range']
    omega
  · exact ⟨t.storeAllDoc, m, if_neg hge, by omega, hfree, fun _ _ => rfl⟩

-- What one operation does.
theorem Inv.add (h : Inv M t G) (hfew : Fewer G (2 ^ 24)) (hlen : (M.toString v).length < 2 ^ 38) :
    ∃ doc t' e, add M t v = some (doc, t') ∧ G doc = none ∧ e.value = v ∧ e.attr = false ∧
      Inv M t' (Function.update G doc (some e)) := by
  obtain ⟨allDoc, m, hgrow, hlt, hfree, hcells⟩ := h.docsGrow
  obtain ⟨⟨F, mark, hslots⟩, _, hfree₀⟩ := h
  obtain ⟨hnot, n, m', hn, hpop, -⟩ := hfree.pop hlt
  have hdoc : G t.storeNextDoc = none := by simpa using hnot
  have hslots₁ : Slots M { t with storeAllDoc := allDoc, storeNextDoc := n } G F mark :=
    hslots.of_cells rfl fun d hd => hcells d (hfree₀.lt_length hd)
  obtain ⟨t', e, F', mark', hsave, hvalue, hattr, hnext, ⟨x, hall⟩, hslots'⟩ :=
    hslots₁.save hdoc hlt hfew hlen false
  refine ⟨t.storeNextDoc, t', e, by simp [Store.add, hgrow, hn, hsave], hdoc, hvalue, hattr,
    ⟨F', mark', hslots'⟩, m', ?_⟩
  rw [hall, hnext]
  refine (hpop.set (.inl rfl) x).congr fun i => ?_
  by_cases hd : i = t.storeNextDoc <;> simp [hd]

theorem Inv.update (h : Inv M t G) (he : G doc = some e) (hfew : Fewer G (2 ^ 24))
    (hlen : (M.toString v).length < 2 ^ 38) :
    ∃ t' e', update M t doc v = some t' ∧ e'.value = v ∧ e'.attr = e.attr ∧
      Inv M t' (Function.update G doc (some e')) := by
  obtain ⟨⟨F, mark, hslots⟩, m, hfree⟩ := h
  obtain ⟨hcell, huncomb⟩ := hslots.uncombine he
  obtain ⟨t₁, F₁, hremove, hall, hnext, hslots₁⟩ := hslots.removeSlot he
  have hlt : doc < t₁.storeAllDoc.length := by
    rw [hall]
    exact hfree.lt_length (by simp [he])
  have hfew₁ : Fewer (Function.update G doc none) (2 ^ 24) := by
    obtain ⟨live, hlive, hcard⟩ := hfew
    refine ⟨live, fun i hi => hlive i fun hG => hi ?_, hcard⟩
    by_cases hd : i = doc <;> simp [hd, hG]
  obtain ⟨t', e', F', mark', hsave, hvalue, hattr, hnext', ⟨x, hall'⟩, hslots'⟩ :=
    hslots₁.save (by simp) hlt hfew₁ hlen e.attr
  rw [Function.update_idem] at hslots'
  refine ⟨t', e', by simp [Store.update, hcell, huncomb, hremove, hsave], hvalue, hattr,
    ⟨F', mark', hslots'⟩, m, ?_⟩
  rw [hall', hall, hnext', hnext]
  refine (hfree.set (by simp [he]) x).congr fun i => ?_
  by_cases hd : i = doc <;> simp [hd, he]

theorem Inv.remove (h : Inv M t G) (he : G doc = some e) :
    ∃ t', remove t doc = some t' ∧ Inv M t' (Function.update G doc none) := by
  obtain ⟨⟨F, mark, hslots⟩, m, hfree⟩ := h
  obtain ⟨t₁, F₁, hremove, hall, hnext, hslots₁⟩ := hslots.removeSlot he
  have hlt : doc < t₁.storeAllDoc.length := by
    rw [hall]
    exact hfree.lt_length (by simp [he])
  refine ⟨{ t₁ with
      storeAllDoc := t₁.storeAllDoc.set doc t₁.storeNextDoc
      storeNextDoc := doc },
    by simp [Store.remove, hremove, setCell_eq hlt],
    ⟨F₁, mark, hslots₁.of_cells rfl fun d hd => List.getElem?_set_ne ?_⟩, m, ?_⟩
  · rintro rfl
    simp at hd
  simp only [hall, hnext]
  refine (hfree.push (by simp [he])).congr fun i => ?_
  by_cases hd : i = doc <;> simp [hd]

theorem Inv.setAttrib (h : Inv M t G) (he : G doc = some e) (bool : Bool) :
    ∃ t', setAttrib t doc bool = some t' ∧
      Inv M t' (Function.update G doc (some { e with attr := bool })) := by
  obtain ⟨⟨F, mark, hslots⟩, m, hfree⟩ := h
  obtain ⟨t', hset, hnext, ⟨x, hall⟩, hslots'⟩ := hslots.setAttrib he bool
  refine ⟨t', hset, ⟨F, mark, hslots'⟩, m, ?_⟩
  rw [hall, hnext]
  refine (hfree.set (by simp [he]) x).congr fun i => ?_
  by_cases hd : i = doc <;> simp [hd, he]

theorem Inv.collect (h : Inv M t G) (kept : Nat → Nat → Bool) : Inv M (t.collect kept) G := by
  obtain ⟨⟨F, mark, hslots⟩, hfree⟩ := h
  exact ⟨⟨F, mark, hslots.collect kept⟩, hfree⟩

theorem Inv.isMap (h : Inv M t G) : IsMap M (fun v => (M.toString v).length < 2 ^ 38) t
    (contents G) where
  get := by
    intro i v a hi
    obtain ⟨e, he, heq⟩ := Option.map_eq_some_iff.1 hi
    obtain ⟨⟨F, mark, hslots⟩, -⟩ := h
    rw [Prod.mk.injEq] at heq
    rw [← heq.1, ← heq.2]
    exact ⟨hslots.get he, hslots.getAttrib he⟩
  add := by
    intro v hv hfew
    obtain ⟨doc, t', -, hadd, hdoc, -⟩ := h.add hfew.of_contents hv
    exact ⟨doc, t', hadd, contents_eq_none.2 hdoc⟩
  update := by
    intro i v hv hfew hi
    obtain ⟨e, he⟩ := Option.ne_none_iff_exists'.1 (mt contents_eq_none.2 hi)
    obtain ⟨t', -, hupdate, -⟩ := h.update he hfew.of_contents hv
    exact ⟨t', hupdate⟩
  remove := by
    intro i hi
    obtain ⟨e, he⟩ := Option.ne_none_iff_exists'.1 (mt contents_eq_none.2 hi)
    obtain ⟨t', hremove, -⟩ := h.remove he
    exact ⟨t', hremove⟩
  setAttrib := by
    intro i bool hi
    obtain ⟨e, he⟩ := Option.ne_none_iff_exists'.1 (mt contents_eq_none.2 hi)
    obtain ⟨t', hset, -⟩ := h.setAttrib he bool
    exact ⟨t', hset⟩
  apart := by
    intro i j hi hj hslot
    obtain ⟨e, he⟩ := Option.ne_none_iff_exists'.1 (mt contents_eq_none.2 hi)
    obtain ⟨e', he'⟩ := Option.ne_none_iff_exists'.1 (mt contents_eq_none.2 hj)
    obtain ⟨⟨F, mark, hslots⟩, -⟩ := h
    obtain ⟨hcell, huncomb⟩ := hslots.uncombine he
    obtain ⟨hcell', huncomb'⟩ := hslots.uncombine he'
    simp only [slot, hcell, hcell', Option.map_some, huncomb, huncomb', Option.some.injEq,
      Prod.mk.injEq] at hslot
    exact hslots.apart he he' hslot.1 hslot.2

-- Runs of values that fit keep the invariant, with the map of the callers as
-- its contents.
theorem Run.inv (h : Run M (fun v => (M.toString v).length < 2 ^ 38) t S) :
    ∃ G, Inv M t G ∧ S = contents G := by
  induction h with
  | create => exact ⟨_, inv_create M, by funext i; rfl⟩
  | add h hv hfew hadd ih =>
      obtain ⟨G, hinv, rfl⟩ := ih
      obtain ⟨doc, t', e, hadd', -, hvalue, hattr, hinv'⟩ := hinv.add hfew.of_contents hv
      rw [hadd, Option.some.injEq, Prod.mk.injEq] at hadd'
      obtain ⟨rfl, rfl⟩ := hadd'
      exact ⟨_, hinv', by rw [contents_update, Option.map_some, hvalue, hattr]⟩
  | update h hv hfew hdoc hupdate ih =>
      obtain ⟨G, hinv, rfl⟩ := ih
      obtain ⟨e, he, heq⟩ := Option.map_eq_some_iff.1 hdoc
      obtain ⟨t', e', hupdate', hvalue, hattr, hinv'⟩ := hinv.update he hfew.of_contents hv
      rw [hupdate, Option.some.injEq] at hupdate'
      obtain rfl := hupdate'
      rw [Prod.mk.injEq] at heq
      exact ⟨_, hinv', by rw [contents_update, Option.map_some, hvalue, hattr, heq.2]⟩
  | remove h hdoc hremove ih =>
      obtain ⟨G, hinv, rfl⟩ := ih
      obtain ⟨e, he⟩ := Option.ne_none_iff_exists'.1 (mt contents_eq_none.2 hdoc)
      obtain ⟨t', hremove', hinv'⟩ := hinv.remove he
      rw [hremove, Option.some.injEq] at hremove'
      obtain rfl := hremove'
      exact ⟨_, hinv', by rw [contents_update, Option.map_none]⟩
  | setAttrib h hdoc hset ih =>
      obtain ⟨G, hinv, rfl⟩ := ih
      obtain ⟨e, he, heq⟩ := Option.map_eq_some_iff.1 hdoc
      obtain ⟨t', hset', hinv'⟩ := hinv.setAttrib he _
      rw [hset, Option.some.injEq] at hset'
      obtain rfl := hset'
      rw [Prod.mk.injEq] at heq
      exact ⟨_, hinv', by rw [contents_update, Option.map_some, heq.1]⟩
  | collect kept h ih =>
      obtain ⟨G, hinv, rfl⟩ := ih
      exact ⟨G, hinv.collect kept, rfl⟩

-- The store is the map its callers have made, in every run that stores values
-- whose size class fits into the five bits kept for it.
theorem store_is_map {M : Marshal α} {t : T α} {S : Nat → Option (α × Bool)}
    (h : Run M (fun v => (M.toString v).length < 2 ^ 38) t S) :
    IsMap M (fun v => (M.toString v).length < 2 ^ 38) t S := by
  obtain ⟨G, hinv, rfl⟩ := h.inv
  exact hinv.isMap

-- Two kinds of values: the forms of the second kind are longer than a slot of the first.
def twoSizes : Marshal (Bool × UInt8) where
  toString v := [if v.1 then 1 else 0, v.2] ++ List.replicate (if v.1 then 200 else 0) 0
  fromString
    | kind :: byte :: _ => some (kind == 1, byte)
    | _ => none
  exact := by
    rintro ⟨_ | _, byte⟩ rest
    · rfl
    · rfl

def Small (v : Bool × UInt8) : Prop := (twoSizes.toString v).length < 2 ^ 38

theorem small (v : Bool × UInt8) : Small v := by
  have h : (twoSizes.toString v).length ≤ 202 := by
    simp only [twoSizes, List.length_append, List.length_replicate, List.length_cons,
      List.length_nil]
    split <;> omega
  exact lt_of_le_of_lt h (by norm_num)

-- The store after an operation that succeeds
def after (t' : Option (T α)) : T α := t'.getD create

theorem after_eq {t' : Option (T α)} (h : t'.isSome = true) : t' = some (after t') := by
  obtain ⟨t, rfl⟩ := Option.isSome_iff_exists.mp h
  rfl

def added (t : T (Bool × UInt8)) (v : Bool × UInt8) : T (Bool × UInt8) :=
  after ((add twoSizes t v).map Prod.snd)

theorem added_eq {t : T (Bool × UInt8)} {v : Bool × UInt8} {doc : Nat}
    (h : (add twoSizes t v).map Prod.fst = some doc) :
    add twoSizes t v = some (doc, added t v) := by
  obtain ⟨⟨doc', t'⟩, heq, rfl⟩ := Option.map_eq_some_iff.mp h
  rw [added, heq]
  rfl

def oneDoc : T (Bool × UInt8) := added create (false, 7)

def twoDocs : T (Bool × UInt8) := added oneDoc (false, 8)

def marked : T (Bool × UInt8) := after (setAttrib twoDocs 0 true)

-- To the file of the larger size class
def moved : T (Bool × UInt8) := after (update twoSizes marked 0 (true, 9))

def removed : T (Bool × UInt8) := (after (remove moved 1)).collect fun _ _ => false

-- The cell and the slot of the document that was removed are used again.
def reused : T (Bool × UInt8) := added removed (false, 5)

def pair (x y : Option ((Bool × UInt8) × Bool)) : Nat → Option ((Bool × UInt8) × Bool)
  | 0 => x
  | 1 => y
  | _ => none

variable {x y z : Option ((Bool × UInt8) × Bool)}

theorem fewer_pair : Fewer (pair x y) (2 ^ 24) := by
  refine ⟨Finset.range 2, fun i hi => ?_, by simp⟩
  obtain _ | _ | i := i
  · simp
  · simp
  · exact absurd rfl hi

theorem update_pair_zero : Function.update (pair x y) 0 z = pair z y := by
  funext i
  obtain _ | _ | i := i <;> rfl

theorem update_pair_one : Function.update (pair x y) 1 z = pair x z := by
  funext i
  obtain _ | _ | i := i <;> rfl

theorem run_reused : Run twoSizes Small reused
    (pair (some ((true, 9), true)) (some ((false, 5), false))) := by
  have hcreate : Run twoSizes Small create (pair none none) := by
    have hnone : pair none none = fun _ => none := by
      funext i
      obtain _ | _ | i := i <;> rfl
    rw [hnone]
    exact .create
  have hone : Run twoSizes Small oneDoc (pair (some ((false, 7), false)) none) := by
    rw [← update_pair_zero]
    exact hcreate.add (small _) fewer_pair (added_eq (by decide +kernel))
  have htwo : Run twoSizes Small twoDocs
      (pair (some ((false, 7), false)) (some ((false, 8), false))) := by
    rw [← update_pair_one]
    exact hone.add (small _) fewer_pair (added_eq (by decide +kernel))
  have hmarked : Run twoSizes Small marked
      (pair (some ((false, 7), true)) (some ((false, 8), false))) := by
    rw [← update_pair_zero]
    exact htwo.setAttrib rfl (after_eq (by decide +kernel))
  have hmoved : Run twoSizes Small moved
      (pair (some ((true, 9), true)) (some ((false, 8), false))) := by
    rw [← update_pair_zero]
    exact hmarked.update (small _) fewer_pair rfl (after_eq (by decide +kernel))
  have hremoved : Run twoSizes Small removed (pair (some ((true, 9), true)) none) := by
    rw [← update_pair_one]
    exact (hmoved.remove (by simp [pair]) (after_eq (by decide +kernel))).collect _
  rw [← update_pair_one]
  exact hremoved.add (small _) fewer_pair (added_eq (by decide +kernel))

theorem store_is_map_reused :
    IsMap twoSizes Small reused (pair (some ((true, 9), true)) (some ((false, 5), false))) ∧
    (slot moved 0, slot moved 1, slot reused 1) = (some (0, 1), some (1, 0), some (1, 0)) :=
  ⟨store_is_map run_reused, by decide +kernel⟩

-- A value with a marshalled form of 2 ^ 38 bytes: its size class is 32, and the
-- five bits that are read back say 0.
def largeMarshal : Marshal Unit :=
  { toString := fun _ => List.replicate (2 ^ 38) 0, fromString := fun _ => some ()
    exact := fun _ _ => rfl }

theorem get_large {M : Marshal α} {v : α} (h : chunkSize (M.toString v).length = 32) :
    ∃ t, add M create v = some (0, t) ∧ get M t 0 = none := by
  obtain ⟨t, hadd, hcell, hfile⟩ : ∃ t, add M create v = some (0, t) ∧
      t.storeAllDoc[0]? = some 32 ∧ t.storeFiles.lookup 0 = none := by
    simp only [add, save, h]
    exact ⟨_, rfl, rfl, rfl⟩
  have huncomb : uncombine 32 = (0, 0, false) := rfl
  exact ⟨t, hadd, by simp [get, hcell, huncomb, hfile]⟩

theorem store_large_lost : ¬ ∀ (t : T Unit) (S : Nat → Option (Unit × Bool)),
    Run largeMarshal (fun _ => True) t S → IsMap largeMarshal (fun _ => True) t S := by
  intro hall
  have hsize : chunkSize (largeMarshal.toString ()).length = 32 := by
    rw [show (largeMarshal.toString ()).length = 2 ^ 38 from List.length_replicate]
    simp [chunkSize]
  obtain ⟨t, hadd, hget⟩ := get_large hsize
  have hmap := hall _ _ (.add .create trivial ⟨∅, by simp, by simp⟩ hadd)
  simpa [hget] using (hmap.get 0 () false (Function.update_self ..)).1

end Mldonkey.Store
