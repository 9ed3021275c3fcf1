import Mldonkey.Indexer.Congruence
import Mldonkey.Indexer.Filter

-- Runs of add, filter_words and clear_filter: which documents are flagged, and what is found when
-- the filters are gone.
namespace Mldonkey.Indexer.Filter

inductive Request (D : Type) where
  | add (a : Add D)
  | filterWords (list : List (List UInt8))
  | clearFilter

variable {D : Type}

def State.query (num : D → ℤ) (hnum : Function.Injective num) (x : State D) (q : Query D) : List D :=
  Indexer.query ⟨num, x.filtered, hnum⟩ x.index.visible q

-- The calls of add
def adds (requests : List (Request D)) : List (Add D) :=
  requests.filterMap fun
    | .add a => some a
    | _ => none

-- The words in force after some requests
def wordsAfter (words : List (List UInt8)) : Request D → List (List UInt8)
  | .add _ => words
  | .filterWords list => words ++ list
  | .clearFilter => []

def words (requests : List (Request D)) : List (List UInt8) := requests.foldl wordsAfter []

-- The document stands under its word with its fields, perhaps below a filtered word.
def Indexed (index : Node D) (a : Add D) : Prop :=
  ∃ p f, path a.word = some p ∧ (a.doc, f) ∈ docsAt p index ∧ a.fields &&& f = a.fields

-- The words are stemmed, and no empty word is filtered.
def Request.Proper : Request D → Prop
  | .add a => Stemmed a.word
  | .filterWords list => ∀ s ∈ list, Stemmed s ∧ s ≠ []
  | .clearFilter => True

-- What the index, the filtered words and the flags say of the words that were added
structure Inv (adds : List (Add D)) (words : List (List UInt8)) (x : State D) : Prop where
  listed : ∀ p d f, (d, f) ∈ docsAt p x.index → ∃ a ∈ adds, a.doc = d ∧ path a.word = some p
  hits : ∀ p d g, Hit (docsAt p x.index) d g →
    ∃ a ∈ adds, a.doc = d ∧ a.fields &&& g ≠ 0 ∧ path a.word = some p
  covered : ∀ p, Covered p x.index ↔ ∃ s ∈ words, ∃ q, path s = some q ∧ q <+: p
  indexed : ∀ a ∈ adds, ∀ p, path a.word = some p → Covered p x.index ∨ Indexed x.index a
  flagged : ∀ d, x.filtered d = true ↔
    ∃ a ∈ adds, a.doc = d ∧ ∃ p, path a.word = some p ∧ Covered p x.index

lemma inv_create : Inv [] [] (create : State D) where
  listed p d f h := by
    rw [create, docsAt_newNode] at h
    cases h
  hits p d g h := by
    rw [create, docsAt_newNode] at h
    obtain ⟨f, h, -⟩ := h
    cases h
  covered p := iff_of_false (not_covered_newNode p) fun ⟨_, h, _⟩ => List.not_mem_nil h
  indexed a h := (List.not_mem_nil h).elim
  flagged d := iff_of_false Bool.false_ne_true fun ⟨_, h, _⟩ => List.not_mem_nil h

lemma words_append (requests : List (Request D)) (r : Request D) :
    words (requests ++ [r]) = wordsAfter (words requests) r := by
  rw [words, List.foldl_append]
  rfl

lemma mem_adds {requests : List (Request D)} {a : Add D} :
    a ∈ adds requests ↔ .add a ∈ requests := by
  rw [adds, List.mem_filterMap]
  constructor
  · rintro ⟨r, hr, hra⟩
    cases r with
    | add b =>
      obtain rfl := Option.some.inj hra
      exact hr
    | filterWords => cases hra
    | clearFilter => cases hra
  · exact fun h => ⟨.add a, h, rfl⟩

lemma mem_words {requests : List (Request D)} {s : List UInt8} (h : s ∈ words requests) :
    ∃ list, .filterWords list ∈ requests ∧ s ∈ list := by
  induction requests using List.reverseRecOn with
  | nil => cases h
  | append_singleton requests r ih =>
    have hold (h : s ∈ words requests) : ∃ list, .filterWords list ∈ requests ++ [r] ∧ s ∈ list := by
      obtain ⟨list, hlist, hs⟩ := ih h
      exact ⟨list, List.mem_append_left [r] hlist, hs⟩
    rw [words_append] at h
    cases r with
    | add a => exact hold h
    | filterWords list =>
      rcases List.mem_append.mp h with h | h
      · exact hold h
      · exact ⟨list, List.mem_append_right requests List.mem_cons_self, h⟩
    | clearFilter => cases h

variable [DecidableEq D]

def step (x : State D) : Request D → State D
  | .add a => add x a
  | .filterWords list => filterWords x list
  | .clearFilter => clearFilter x

def run (requests : List (Request D)) : State D := requests.foldl step create

-- Whenever the filters are cleared every document that was added is in the index.
structure Complete (requests : List (Request D)) : Prop where
  proper : ∀ r ∈ requests, r.Proper
  indexed : ∀ before, before ++ [.clearFilter] <+: requests →
    ∀ a ∈ adds before, Indexed (run before).index a

section AddDoc

variable {doc d : D} {fields f : Fields} {docs : List (D × Fields)}

lemma mem_addDoc (h : (d, f) ∈ addDoc doc fields docs) : d = doc ∨ ∃ f', (d, f') ∈ docs := by
  induction docs with
  | nil => exact .inl (Prod.mk.inj (List.mem_singleton.mp h)).1
  | cons e docs ih =>
    obtain ⟨d', f'⟩ := e
    rw [addDoc] at h
    split_ifs at h with hd
    · rcases List.mem_cons.mp h with h | h
      · exact .inl ((Prod.mk.inj h).1.trans hd)
      · exact .inr ⟨f, List.mem_cons_of_mem _ h⟩
    · rcases List.mem_cons.mp h with h | h
      · exact .inr ⟨f', (Prod.mk.inj h).1 ▸ List.mem_cons_self⟩
      · obtain hdoc | ⟨f'', h⟩ := ih h
        · exact .inl hdoc
        · exact .inr ⟨f'', List.mem_cons_of_mem _ h⟩

lemma addDoc_self (doc : D) (fields : Fields) (docs : List (D × Fields)) :
    ∃ f, (doc, f) ∈ addDoc doc fields docs ∧ fields &&& f = fields := by
  induction docs with
  | nil => exact ⟨fields, List.mem_singleton_self _, BitVec.and_self⟩
  | cons e docs ih =>
    obtain ⟨d, f⟩ := e
    rw [addDoc]
    split_ifs with hd
    · subst hd
      refine ⟨f ||| fields, List.mem_cons_self, ?_⟩
      ext i hi
      simp only [BitVec.getElem_and, BitVec.getElem_or]
      cases fields[i] <;> simp
    · obtain ⟨f', hmem, hf⟩ := ih
      exact ⟨f', List.mem_cons_of_mem _ hmem, hf⟩

lemma addDoc_keeps (h : (d, f) ∈ docs) :
    ∃ f', (d, f') ∈ addDoc doc fields docs ∧ f &&& f' = f := by
  induction docs with
  | nil => cases h
  | cons e docs ih =>
    obtain ⟨d', f'⟩ := e
    rw [addDoc]
    rcases List.mem_cons.mp h with h | h
    · obtain ⟨rfl, rfl⟩ := Prod.mk.inj h
      split_ifs with hd
      · refine ⟨f ||| fields, List.mem_cons_self, ?_⟩
        ext i hi
        simp only [BitVec.getElem_and, BitVec.getElem_or]
        cases f[i] <;> simp
      · exact ⟨f, List.mem_cons_self, BitVec.and_self⟩
    · split_ifs with hd
      · exact ⟨f, List.mem_cons_of_mem _ h, BitVec.and_self⟩
      · obtain ⟨f'', hmem, hf⟩ := ih h
        exact ⟨f'', List.mem_cons_of_mem _ hmem, hf⟩

end AddDoc

section Steps

variable {adds : List (Add D)} {words : List (List UInt8)} {x : State D}

lemma path_of_stemmed {s : List UInt8} (h : Stemmed s) : ∃ p, path s = some p := by
  obtain ⟨q, p, -, hp⟩ := (path_prefix_iff h h).mpr List.prefix_rfl
  exact ⟨_, hp⟩

-- Below a filtered word the document is flagged and the index stays as it is.
lemma Inv.addFlagged (h : Inv adds words x) {a : Add D} {p : List ℕ} (hp : path a.word = some p)
    {index : Node D} (hcov : Covered p x.index) (hdocs : ∀ q, docsAt q index = docsAt q x.index)
    (hsame : ∀ q, Covered q index ↔ Covered q x.index) :
    Inv (adds ++ [a]) words ⟨index, setFilter a.doc true x.filtered⟩ := by
  have hold {b : Add D} (hb : b ∈ adds) : b ∈ adds ++ [a] := List.mem_append_left [a] hb
  refine ⟨fun q d f hd => ?_, fun q d g hd => ?_, fun q => ?_, fun b hb q hq => ?_, fun d => ?_⟩
  · rw [hdocs] at hd
    obtain ⟨b, hb, hdoc⟩ := h.listed q d f hd
    exact ⟨b, hold hb, hdoc⟩
  · rw [hdocs] at hd
    obtain ⟨b, hb, hdoc⟩ := h.hits q d g hd
    exact ⟨b, hold hb, hdoc⟩
  · rw [hsame, h.covered]
  · rw [hsame, Indexed]
    simp only [hdocs]
    rcases List.mem_append.mp hb with hb | hb
    · exact h.indexed b hb q hq
    · obtain rfl := List.mem_singleton.mp hb
      obtain rfl := Option.some.inj (hp.symm.trans hq)
      exact .inl hcov
  · simp only [hsame, setFilter, Function.update_apply]
    constructor
    · intro hd
      split_ifs at hd with hdoc
      · exact ⟨a, List.mem_append_right adds List.mem_cons_self, hdoc.symm, p, hp, hcov⟩
      · obtain ⟨b, hb, hrest⟩ := (h.flagged d).mp hd
        exact ⟨b, hold hb, hrest⟩
    · rintro ⟨b, hb, hdoc, hrest⟩
      split_ifs with hda
      · rfl
      · rcases List.mem_append.mp hb with hb | hb
        · exact (h.flagged d).mpr ⟨b, hb, hdoc, hrest⟩
        · obtain rfl := List.mem_singleton.mp hb
          exact absurd hdoc.symm hda

-- Elsewhere the document is added at the end of its word and keeps its flag.
lemma Inv.addIndexed (h : Inv adds words x) {a : Add D} {p : List ℕ} (hp : path a.word = some p)
    {index : Node D} (hcov : ¬ Covered p x.index)
    (hdocs : ∀ q, docsAt q index =
      if q = p then addDoc a.doc a.fields (docsAt q x.index) else docsAt q x.index)
    (hsame : ∀ q, Covered q index ↔ Covered q x.index) :
    Inv (adds ++ [a]) words ⟨index, x.filtered⟩ := by
  have hold {b : Add D} (hb : b ∈ adds) : b ∈ adds ++ [a] := List.mem_append_left [a] hb
  have hnew : a ∈ adds ++ [a] := List.mem_append_right adds List.mem_cons_self
  refine ⟨fun q d f hd => ?_, fun q d g hd => ?_, fun q => ?_, fun b hb q hq => ?_, fun d => ?_⟩
  · rw [hdocs] at hd
    split_ifs at hd with hqp
    · rcases mem_addDoc hd with hd | ⟨f', hd⟩
      · exact ⟨a, hnew, hd.symm, hqp ▸ hp⟩
      · obtain ⟨b, hb, hdoc⟩ := h.listed q d f' hd
        exact ⟨b, hold hb, hdoc⟩
    · obtain ⟨b, hb, hdoc⟩ := h.listed q d f hd
      exact ⟨b, hold hb, hdoc⟩
  · rw [hdocs] at hd
    split_ifs at hd with hqp
    · rcases (hit_addDoc _ _ _ _ _).mp hd with hd | ⟨hd, hfields⟩
      · obtain ⟨b, hb, hdoc⟩ := h.hits q d g hd
        exact ⟨b, hold hb, hdoc⟩
      · exact ⟨a, hnew, hd.symm, hfields, hqp ▸ hp⟩
    · obtain ⟨b, hb, hdoc⟩ := h.hits q d g hd
      exact ⟨b, hold hb, hdoc⟩
  · rw [hsame, h.covered]
  · rw [hsame]
    rcases List.mem_append.mp hb with hb | hb
    · refine (h.indexed b hb q hq).imp id ?_
      rintro ⟨q', f, hq', hmem, hf⟩
      by_cases hqp : q' = p
      · obtain ⟨f', hmem', hff⟩ := @addDoc_keeps D _ a.doc b.doc a.fields f _ hmem
        refine ⟨q', f', hq', by rwa [hdocs, if_pos hqp], ?_⟩
        rw [← hf, BitVec.and_assoc, hff]
      · exact ⟨q', f, hq', by rwa [hdocs, if_neg hqp], hf⟩
    · obtain rfl := List.mem_singleton.mp hb
      obtain ⟨f, hmem, hf⟩ := addDoc_self b.doc b.fields (docsAt p x.index)
      exact .inr ⟨p, f, hp, by rwa [hdocs, if_pos rfl], hf⟩
  · simp only [hsame]
    rw [h.flagged]
    constructor
    · rintro ⟨b, hb, hrest⟩
      exact ⟨b, hold hb, hrest⟩
    · rintro ⟨b, hb, hdoc, q, hq, hrest⟩
      rcases List.mem_append.mp hb with hb | hb
      · exact ⟨b, hb, hdoc, q, hq, hrest⟩
      · obtain rfl := List.mem_singleton.mp hb
        obtain rfl := Option.some.inj (hp.symm.trans hq)
        exact absurd hrest hcov

lemma Inv.add (h : Inv adds words x) {a : Add D} (ha : Stemmed a.word) :
    Inv (adds ++ [a]) words (add x a) := by
  obtain ⟨p, hp⟩ := path_of_stemmed ha
  obtain ⟨hmet, hsame, hin, hout⟩ := @addIter_spec D _ a.doc a.fields p a.word x.index hp
  have hadd : Filter.add x a = ⟨(addIter a.doc a.fields a.word x.index).1,
      if (addIter a.doc a.fields a.word x.index).2 then setFilter a.doc true x.filtered
      else x.filtered⟩ := rfl
  rw [hadd]
  by_cases hcov : Covered p x.index
  · rw [if_pos (hmet.mpr hcov)]
    exact h.addFlagged hp hcov (hin hcov) hsame
  · rw [if_neg fun hm => hcov (hmet.mp hm)]
    exact h.addIndexed hp hcov (hout hcov) hsame

lemma Inv.addFilter (h : Inv adds words x) {s : List UInt8} (hs : Stemmed s) (hne : s ≠ []) :
    Inv adds (words ++ [s]) (addFilter x s) := by
  obtain ⟨p, hp⟩ := path_of_stemmed hs
  obtain ⟨hdocs, hcov, hflag⟩ := @addFilterIter_spec D _ x.filtered p s x.index hp hne
  have hindex : (Filter.addFilter x s).index = (addFilterIter s x.index x.filtered).1 := rfl
  have hflags : (Filter.addFilter x s).filtered = (addFilterIter s x.index x.filtered).2 := rfl
  refine ⟨fun q d f hd => ?_, fun q d g hd => ?_, fun q => ?_, fun a ha q hq => ?_, fun d => ?_⟩
  · rw [hindex, hdocs] at hd
    exact h.listed q d f hd
  · rw [hindex, hdocs] at hd
    exact h.hits q d g hd
  · rw [hindex, hcov, h.covered]
    simp only [List.mem_append, List.mem_singleton, or_and_right, exists_or, exists_eq_left, hp,
      Option.some.injEq, exists_eq_left']
  · rw [hindex, hcov, Indexed]
    simp only [hdocs]
    exact (h.indexed a ha q hq).imp .inl id
  · rw [hflags, hflag, hindex]
    simp only [hcov]
    constructor
    · rintro (hd | ⟨-, q, f, hd⟩)
      · obtain ⟨a, ha, hdoc, q, hq, hrest⟩ := (h.flagged d).mp hd
        exact ⟨a, ha, hdoc, q, hq, .inl hrest⟩
      · obtain ⟨a, ha, hdoc, hq⟩ := h.listed (p ++ q) d f hd
        exact ⟨a, ha, hdoc, p ++ q, hq, .inr (List.prefix_append p q)⟩
    · rintro ⟨a, ha, hdoc, q, hq, hrest | hpre⟩
      · exact .inl ((h.flagged d).mpr ⟨a, ha, hdoc, q, hq, hrest⟩)
      · by_cases hq' : Covered q x.index
        · exact .inl ((h.flagged d).mpr ⟨a, ha, hdoc, q, hq, hq'⟩)
        · -- what is not covered yet is in the index, below the word
          obtain ⟨r, rfl⟩ := hpre
          obtain ⟨q, f, hpath, hmem, -⟩ := (h.indexed a ha (p ++ r) hq).resolve_left hq'
          obtain rfl := Option.some.inj (hpath.symm.trans hq)
          rw [hdoc] at hmem
          exact .inr ⟨fun hc => hq' (hc.append r), r, f, hmem⟩

lemma Inv.filterWords (h : Inv adds words x) {list : List (List UInt8)}
    (hlist : ∀ s ∈ list, Stemmed s ∧ s ≠ []) : Inv adds (words ++ list) (filterWords x list) := by
  induction list generalizing words x with
  | nil =>
    rw [List.append_nil]
    exact h
  | cons s list ih =>
    obtain ⟨⟨hs, hne⟩, hlist⟩ := List.forall_mem_cons.mp hlist
    have hrest := ih (h.addFilter hs hne) hlist
    rw [List.append_assoc] at hrest
    exact hrest

lemma Inv.clearFilter (h : Inv adds words x) (hall : ∀ a ∈ adds, Indexed x.index a) :
    Inv adds [] (clearFilter x) := by
  have hclear : Filter.clearFilter x =
      ⟨x.index.clear, filterNode x.index.hidden false x.filtered⟩ := by
    rw [Filter.clearFilter, Node.iter_eq]
  have hdocs (p : List ℕ) : docsAt p (Filter.clearFilter x).index = docsAt p x.index := by
    rw [hclear, docsAt_clear]
  have hopen (p : List ℕ) : ¬ Covered p (Filter.clearFilter x).index := by
    rw [hclear]
    exact not_covered_clear p x.index
  refine ⟨fun q d f hd => ?_, fun q d g hd => ?_, fun q => ?_, fun a ha q hq => ?_, fun d => ?_⟩
  · rw [hdocs] at hd
    exact h.listed q d f hd
  · rw [hdocs] at hd
    exact h.hits q d g hd
  · exact iff_of_false (hopen q) fun ⟨_, h, _⟩ => List.not_mem_nil h
  · obtain ⟨p, f, hp, hmem, hf⟩ := hall a ha
    exact .inr ⟨p, f, hp, by rwa [hdocs], hf⟩
  · refine iff_of_false (fun hd => ?_) fun ⟨_, _, _, p, _, hc⟩ => hopen p hc
    rw [hclear] at hd
    simp only [filterNode_apply] at hd
    split_ifs at hd with hhid
    -- a document that is still flagged was added below a filtered word, and stands there
    obtain ⟨a, ha, rfl, p, hp, hc⟩ := (h.flagged d).mp hd
    obtain ⟨q, f, hq, hmem, -⟩ := hall a ha
    obtain rfl := Option.some.inj (hp.symm.trans hq)
    exact hhid (List.mem_map.mpr ⟨(a.doc, f), Node.mem_hidden _ |>.mpr ⟨p, hc, hmem⟩, rfl⟩)

-- Without filtered words the index answers as one that has never known filters.
lemma Inv.query_eq (h : Inv adds [] x) (num : D → ℤ) (hnum : Function.Injective num)
    (q : Query D) :
    x.query num hnum q = Indexer.query ⟨num, fun _ => false, hnum⟩ (indexOf adds) q := by
  have hopen (p : List ℕ) : ¬ Covered p x.index := fun hc => by
    obtain ⟨s, hs, -⟩ := (h.covered p).mp hc
    cases hs
  have hflags : x.filtered = fun _ => false := by
    funext d
    rw [← Bool.not_eq_true, h.flagged]
    rintro ⟨-, -, -, p, -, hc⟩
    exact hopen p hc
  rw [State.query, hflags]
  refine Query.query_congr (fun _ => rfl) (fun p d g => ?_) q
  rw [docsAt_visible p _ (hopen p), hit_indexOf]
  refine ⟨h.hits p d g, ?_⟩
  rintro ⟨a, ha, rfl, hfields, hp⟩
  obtain ⟨q, f, hq, hmem, hf⟩ := (h.indexed a ha p hp).resolve_left (hopen p)
  obtain rfl := Option.some.inj (hp.symm.trans hq)
  refine ⟨f, hmem, fun hzero => hfields ?_⟩
  rw [← hf, BitVec.and_assoc, hzero]
  exact BitVec.and_zero

end Steps

lemma run_append (requests : List (Request D)) (r : Request D) :
    run (requests ++ [r]) = step (run requests) r := by
  rw [run, List.foldl_append]
  rfl

lemma inv_run {requests : List (Request D)} (h : Complete requests) :
    Inv (adds requests) (words requests) (run requests) := by
  induction requests using List.reverseRecOn with
  | nil => exact inv_create
  | append_singleton requests r ih =>
    have hbefore : Inv (adds requests) (words requests) (run requests) := by
      refine ih ⟨fun r' hr' => h.proper r' (List.mem_append_left [r] hr'), fun before hpre => ?_⟩
      exact h.indexed before (hpre.trans (List.prefix_append requests [r]))
    have hr := h.proper r (List.mem_append_right requests List.mem_cons_self)
    rw [run_append, words_append, adds, List.filterMap_append]
    cases r with
    | add a => exact hbefore.add hr
    | filterWords list =>
      rw [List.filterMap_cons_none rfl, List.filterMap_nil, List.append_nil]
      exact hbefore.filterWords hr
    | clearFilter =>
      rw [List.filterMap_cons_none rfl, List.filterMap_nil, List.append_nil]
      exact hbefore.clearFilter (h.indexed requests List.prefix_rfl)

lemma inv_adds {requests : List (Request D)} (h : Complete requests) :
    Inv (adds requests) [] (run ((adds requests).map .add)) := by
  have hadds : adds ((adds requests).map .add) = adds requests := by
    rw [adds, List.filterMap_map]
    exact List.filterMap_some
  have hwords (l : List (Add D)) : words (l.map .add) = [] := by
    induction l with
    | nil => rfl
    | cons a l ih => exact ih
  have hcomplete : Complete ((adds requests).map .add) := by
    refine ⟨fun r hr => ?_, fun before hpre => ?_⟩
    · obtain ⟨a, ha, rfl⟩ := List.mem_map.mp hr
      exact h.proper _ (mem_adds.mp ha)
    · have hclear := hpre.subset (List.mem_append_right before List.mem_cons_self)
      obtain ⟨a, -, ha⟩ := List.mem_map.mp hclear
      cases ha
  have hinv := inv_run hcomplete
  rw [hadds, hwords] at hinv
  exact hinv

-- A document is flagged exactly if a word that was added for it begins with a filtered word, and
-- without filtered words every query has the answer of an index that never had a filter, in every
-- run in which each document that was added is in the index whenever the filters are cleared.
theorem filters_reversible (num : D → ℤ) (hnum : Function.Injective num)
    (requests : List (Request D)) (h : Complete requests) :
    (∀ d, (run requests).filtered d = true ↔
      ∃ a ∈ adds requests, a.doc = d ∧ ∃ s ∈ words requests, s <+: a.word) ∧
    (words requests = [] → ∀ q, (run requests).query num hnum q =
      (run ((adds requests).map .add)).query num hnum q) := by
  have hinv := inv_run h
  refine ⟨fun d => ?_, fun hnone q => ?_⟩
  · rw [hinv.flagged]
    refine exists_congr fun a => and_congr_right fun ha => and_congr_right fun _ => ?_
    have hword : Stemmed a.word := h.proper _ (mem_adds.mp ha)
    have hstem {s : List UInt8} (hs : s ∈ words requests) : Stemmed s := by
      obtain ⟨list, hlist, hs⟩ := mem_words hs
      exact (h.proper _ hlist s hs).1
    constructor
    · rintro ⟨p, hp, hcov⟩
      obtain ⟨s, hs, q, hq, r, rfl⟩ := (hinv.covered p).mp hcov
      exact ⟨s, hs, (path_prefix_iff (hstem hs) hword).mp ⟨q, r, hq, hp⟩⟩
    · rintro ⟨s, hs, hpre⟩
      obtain ⟨q, r, hq, hp⟩ := (path_prefix_iff (hstem hs) hword).mpr hpre
      exact ⟨q ++ r, hp, (hinv.covered _).mpr ⟨s, hs, q, hq, List.prefix_append q r⟩⟩
  · rw [hnone] at hinv
    rw [hinv.query_eq, (inv_adds h).query_eq]

-- The document 0 has the word "ab", and "a" is filtered and cleared.
def abRequests : List (Request ℤ) := [.add ⟨[97, 98], 0, 1⟩, .filterWords [[97]], .clearFilter]

theorem filters_reversible_ab :
    (∀ d, (run abRequests).filtered d = false) ∧
      ∀ q, (run abRequests).query id Function.injective_id q =
        (run ((adds abRequests).map .add)).query id Function.injective_id q := by
  have hcomplete : Complete abRequests := by
    refine ⟨?_, ?_⟩
    · simp [abRequests, Request.Proper, Stemmed]
    · intro before hpre a ha
      obtain rfl : before = [.add ⟨[97, 98], 0, 1⟩, .filterWords [[97]]] := by
        rcases before with _ | ⟨r1, _ | ⟨r2, _ | ⟨r3, before⟩⟩⟩ <;>
          simp [abRequests, List.cons_prefix_cons] at hpre
        rw [hpre.1, hpre.2]
        rfl
      obtain rfl := List.mem_singleton.mp ha
      exact ⟨[0, 1], 1, rfl, List.mem_singleton_self _, BitVec.and_self⟩
  have hall := filters_reversible id Function.injective_id abRequests hcomplete
  refine ⟨fun d => ?_, hall.2 rfl⟩
  rw [← Bool.not_eq_true, hall.1]
  rintro ⟨a, -, -, s, hs, -⟩
  cases hs

-- Added while "a" is filtered, the document stays flagged, and is not found under its word.
theorem filters_lose :
    let requests : List (Request ℤ) :=
      [.filterWords [[97]], .add ⟨[97, 98], 0, 1⟩, .clearFilter]
    words requests = [] ∧ (run requests).filtered 0 = true ∧
      (run requests).query id Function.injective_id (.hasField 1 [97, 98]) = [] ∧
      (run ((adds requests).map .add)).query id Function.injective_id (.hasField 1 [97, 98]) =
        [0] := by
  refine ⟨rfl, rfl, ?_, ?_⟩
  · decide
  · decide

end Mldonkey.Indexer.Filter
