import Mathlib

-- The index of Indexer2: the documents of a word hang below the letters of the word.
namespace Mldonkey.Indexer

-- The fields of a word, one bit each; -1 has all of them
abbrev Fields := BitVec 63

mutual

-- A node has its documents with their fields, and the nodes below it
inductive Node (D : Type) where
  | mk (docs : List (D × Fields)) (nodes : Nodes D)

-- The array of a node, in which a place can be empty
inductive Nodes (D : Type) where
  | nil
  | none (rest : Nodes D)
  | some (node : Node D) (rest : Nodes D)

end

variable {D : Type}

def newNode : Node D := .mk [] .nil

namespace Nodes

def get : Nodes D → ℕ → Option (Node D)
  | nil, _ => Option.none
  | none _, 0 => Option.none
  | some node _, 0 => Option.some node
  | none rest, c + 1 => get rest c
  | some _ rest, c + 1 => get rest c

-- The array grows up to the place that is set
def set : Nodes D → ℕ → Node D → Nodes D
  | nil, 0, n => some n nil
  | none rest, 0, n => some n rest
  | some _ rest, 0, n => some n rest
  | nil, c + 1, n => none (set nil c n)
  | none rest, c + 1, n => none (set rest c n)
  | some node rest, c + 1, n => some node (set rest c n)

end Nodes

-- `none` stands for the assertion that fails
def convertChar (c : UInt8) : Option ℕ :=
  if 97 ≤ c ∧ c ≤ 122 then some (c.toNat - 97)
  else if 65 ≤ c ∧ c ≤ 90 then some (c.toNat - 65)
  else if 48 ≤ c ∧ c ≤ 57 then some (26 + (c.toNat - 48))
  else none

def addDoc [DecidableEq D] (doc : D) (fields : Fields) :
    List (D × Fields) → List (D × Fields)
  | [] => [(doc, fields)]
  | (d, f) :: docs =>
    if d = doc then (d, f ||| fields) :: docs else (d, f) :: addDoc doc fields docs

-- The loop of add. Where a letter cannot be converted the nodes made so far stay
def addIter [DecidableEq D] (doc : D) (fields : Fields) : List UInt8 → Node D → Node D
  | [], .mk docs nodes => .mk (addDoc doc fields docs) nodes
  | c :: s, .mk docs nodes =>
    match convertChar c with
    | none => .mk docs nodes
    | some c => .mk docs (nodes.set c (addIter doc fields s ((nodes.get c).getD newNode)))

-- A call of add: the word, the document and the fields
structure Add (D : Type) where
  word : List UInt8
  doc : D
  fields : Fields

def add [DecidableEq D] (index : Node D) (a : Add D) : Node D :=
  addIter a.doc a.fields a.word index

def indexOf [DecidableEq D] (adds : List (Add D)) : Node D := adds.foldl add newNode

def findIter : List UInt8 → Node D → Option (Node D)
  | [], node => some node
  | c :: s, .mk _ nodes => do
    let c ← convertChar c
    let node ← nodes.get c
    findIter s node

-- Any exception gives the node `empty`
def find (index : Node D) (s : List UInt8) : Node D := (findIter s index).getD newNode

mutual

-- The documents of a node and of those below it, in the order of the loops
def Node.entries : Node D → List (D × Fields)
  | .mk docs nodes => docs ++ nodes.entries

def Nodes.entries : Nodes D → List (D × Fields)
  | .nil => []
  | .none rest => rest.entries
  | .some node rest => node.entries ++ rest.entries

end

-- The numbers of the letters of a word
def path (s : List UInt8) : Option (List ℕ) := s.mapM convertChar

-- The documents at the end of a path
def docsAt : List ℕ → Node D → List (D × Fields)
  | [], .mk docs _ => docs
  | c :: p, .mk _ nodes =>
    match nodes.get c with
    | none => []
    | some node => docsAt p node

-- The document is listed with one of these fields
def Hit (docs : List (D × Fields)) (d : D) (fields : Fields) : Prop :=
  ∃ f, (d, f) ∈ docs ∧ f &&& fields ≠ 0

lemma get_set (nodes : Nodes D) (c c' : ℕ) (n : Node D) :
    (nodes.set c n).get c' = if c' = c then some n else nodes.get c' := by
  fun_induction Nodes.set nodes c n generalizing c' with
  | case1 n => cases c' <;> simp [Nodes.get]
  | case2 rest n => cases c' <;> simp [Nodes.get]
  | case3 _ rest n => cases c' <;> simp [Nodes.get]
  | case4 c n ih =>
    cases c' with
    | zero => simp [Nodes.get]
    | succ c' => simp [Nodes.get, ih]
  | case5 rest c n ih =>
    cases c' with
    | zero => simp [Nodes.get]
    | succ c' => simp [Nodes.get, ih]
  | case6 node rest c n ih =>
    cases c' with
    | zero => simp [Nodes.get]
    | succ c' => simp [Nodes.get, ih]

@[simp] lemma docsAt_newNode (p : List ℕ) : docsAt p (newNode : Node D) = [] := by
  cases p <;> rfl

lemma docsAt_getD (p : List ℕ) (docs : List (D × Fields)) (nodes : Nodes D) (c : ℕ) :
    docsAt p ((nodes.get c).getD newNode) = docsAt (c :: p) (.mk docs nodes) := by
  rw [docsAt]
  cases nodes.get c with
  | none => exact docsAt_newNode p
  | some node => rfl

lemma path_cons (c : UInt8) (s : List UInt8) :
    path (c :: s) = (convertChar c).bind fun c => (path s).map (c :: ·) := by
  simp only [path, List.mapM_cons, Option.bind_eq_bind, Option.pure_def]
  cases convertChar c with
  | none => rfl
  | some c =>
    cases s.mapM convertChar with
    | none => rfl
    | some p => rfl

section Adding

variable [DecidableEq D]

lemma hit_addDoc (doc d : D) (fields g : Fields) (docs : List (D × Fields)) :
    Hit (addDoc doc fields docs) d g ↔ Hit docs d g ∨ d = doc ∧ fields &&& g ≠ 0 := by
  induction docs with
  | nil => simp [addDoc, Hit]
  | cons e docs ih =>
    obtain ⟨d', f⟩ := e
    have hcons (f' : Fields) (l : List (D × Fields)) :
        Hit ((d', f') :: l) d g ↔ d = d' ∧ f' &&& g ≠ 0 ∨ Hit l d g := by
      simp only [Hit, List.mem_cons, Prod.mk.injEq, or_and_right, exists_or]
      refine or_congr ⟨?_, ?_⟩ Iff.rfl
      · rintro ⟨f1, ⟨rfl, rfl⟩, h⟩
        exact ⟨rfl, h⟩
      · rintro ⟨rfl, h⟩
        exact ⟨f', ⟨rfl, rfl⟩, h⟩
    rw [addDoc]
    split_ifs with hd
    · have hor : (f ||| fields) &&& g ≠ 0 ↔ f &&& g ≠ 0 ∨ fields &&& g ≠ 0 := by
        have : (f ||| fields) &&& g = (f &&& g) ||| (fields &&& g) := by
          ext i hi
          simp [Bool.and_or_distrib_right]
        have hzero : (f &&& g) ||| (fields &&& g) = 0 ↔ f &&& g = 0 ∧ fields &&& g = 0 :=
          BitVec.or_eq_zero_iff
        rw [this, ne_eq, hzero]
        tauto
      rw [hcons, hcons, hor, ← hd]
      tauto
    · rw [hcons, hcons, ih]
      tauto

lemma docsAt_addIter (doc : D) (fields : Fields) (s : List UInt8) (node : Node D) (p : List ℕ) :
    docsAt p (addIter doc fields s node) =
      if path s = some p then addDoc doc fields (docsAt p node) else docsAt p node := by
  induction s generalizing node p with
  | nil =>
    obtain ⟨docs, nodes⟩ := node
    cases p with
    | nil => rfl
    | cons c p => simp [addIter, docsAt, path]
  | cons c s ih =>
    obtain ⟨docs, nodes⟩ := node
    rw [addIter, path_cons]
    cases hc : convertChar c with
    | none => simp
    | some c =>
      cases p with
      | nil => simp [docsAt]
      | cons c' p =>
        by_cases h : c' = c
        · subst h
          simp only [docsAt, get_set, if_true, ih, docsAt_getD p docs nodes c']
          cases path s with
          | none => simp
          | some q => simp
        · rw [docsAt, get_set, if_neg h, docsAt]
          have : ¬ ((some c).bind fun c => (path s).map (c :: ·)) = some (c' :: p) := by
            simp only [Option.bind_some, Option.map_eq_some_iff, List.cons.injEq]
            rintro ⟨q, -, rfl, -⟩
            exact h rfl
          rw [if_neg this]

lemma hit_indexOf (adds : List (Add D)) (p : List ℕ) (d : D) (g : Fields) :
    Hit (docsAt p (indexOf adds)) d g ↔
      ∃ a ∈ adds, a.doc = d ∧ a.fields &&& g ≠ 0 ∧ path a.word = some p := by
  induction adds using List.reverseRecOn with
  | nil => simp [indexOf, Hit]
  | append_singleton adds a ih =>
    have happend : indexOf (adds ++ [a]) = addIter a.doc a.fields a.word (indexOf adds) := by
      simp [indexOf, add]
    rw [happend, docsAt_addIter]
    have hmem : (∃ b ∈ adds ++ [a], b.doc = d ∧ b.fields &&& g ≠ 0 ∧ path b.word = some p) ↔
        (∃ b ∈ adds, b.doc = d ∧ b.fields &&& g ≠ 0 ∧ path b.word = some p) ∨
          a.doc = d ∧ a.fields &&& g ≠ 0 ∧ path a.word = some p := by
      simp only [List.mem_append, List.mem_singleton, or_and_right, exists_or,
        exists_eq_left]
    rw [hmem, ← ih]
    split_ifs with hp
    · rw [hit_addDoc]
      tauto
    · tauto

end Adding

lemma docsAt_find (index : Node D) (s : List UInt8) (p : List ℕ) :
    docsAt p (find index s) =
      match path s with
      | none => []
      | some q => docsAt (q ++ p) index := by
  induction s generalizing index with
  | nil => rfl
  | cons c s ih =>
    obtain ⟨docs, nodes⟩ := index
    rw [path_cons]
    cases hc : convertChar c with
    | none => simp [find, findIter, hc]
    | some c =>
      cases hn : nodes.get c with
      | none =>
        have : docsAt p (find (.mk docs nodes) (‹UInt8› :: s)) = [] := by
          simp [find, findIter, hc, hn]
        rw [this]
        cases path s with
        | none => rfl
        | some q => simp [docsAt, hn]
      | some node =>
        have : find (.mk docs nodes) (‹UInt8› :: s) = find node s := by
          simp [find, findIter, hc, hn]
        rw [this, ih node]
        cases path s with
        | none => rfl
        | some q => simp [docsAt, hn]

mutual

lemma hit_entries : ∀ (node : Node D) (d : D) (g : Fields),
    Hit node.entries d g ↔ ∃ p, Hit (docsAt p node) d g
  | .mk docs nodes, d, g => by
    have happend : Hit (Node.mk docs nodes).entries d g ↔ Hit docs d g ∨ Hit nodes.entries d g := by
      simp only [Hit, Node.entries, List.mem_append, or_and_right, exists_or]
    rw [happend, hit_nodes_entries nodes d g]
    constructor
    · rintro (h | ⟨c, node, p, hc, h⟩)
      · exact ⟨[], h⟩
      · exact ⟨c :: p, by rwa [docsAt, hc]⟩
    · rintro ⟨p, h⟩
      cases p with
      | nil => exact .inl h
      | cons c p =>
        rw [docsAt] at h
        cases hc : nodes.get c with
        | none => simp [hc, Hit] at h
        | some node => exact .inr ⟨c, node, p, hc, by simpa [hc] using h⟩

lemma hit_nodes_entries : ∀ (nodes : Nodes D) (d : D) (g : Fields),
    Hit nodes.entries d g ↔ ∃ c node p, nodes.get c = some node ∧ Hit (docsAt p node) d g
  | .nil, d, g => by simp [Nodes.entries, Nodes.get, Hit]
  | .none rest, d, g => by
    rw [Nodes.entries, hit_nodes_entries rest d g]
    constructor
    · rintro ⟨c, h⟩
      exact ⟨c + 1, h⟩
    · rintro ⟨c, node, p, hc, h⟩
      cases c with
      | zero => cases hc
      | succ c => exact ⟨c, node, p, hc, h⟩
  | .some node rest, d, g => by
    have happend : Hit (Nodes.some node rest).entries d g ↔
        Hit node.entries d g ∨ Hit rest.entries d g := by
      simp only [Hit, Nodes.entries, List.mem_append, or_and_right, exists_or]
    rw [happend, hit_entries node d g, hit_nodes_entries rest d g]
    constructor
    · rintro (⟨p, h⟩ | ⟨c, h⟩)
      · exact ⟨0, node, p, rfl, h⟩
      · exact ⟨c + 1, h⟩
    · rintro ⟨c, n, p, hc, h⟩
      cases c with
      | zero =>
        cases hc
        exact .inl ⟨p, h⟩
      | succ c => exact .inr ⟨c, n, p, hc, h⟩

end

-- What lies below the end of a word: the words that go on from it
theorem hit_find [DecidableEq D] (adds : List (Add D)) (s : List UInt8) (d : D) (g : Fields) :
    Hit (find (indexOf adds) s).entries d g ↔
      ∃ a ∈ adds, a.doc = d ∧ a.fields &&& g ≠ 0 ∧
        ∃ q p, path s = some q ∧ path a.word = some (q ++ p) := by
  rw [hit_entries]
  simp only [docsAt_find]
  cases path s with
  | none => simp [Hit]
  | some q =>
    simp only [hit_indexOf]
    constructor
    · rintro ⟨p, a, ha, hd, hf, hp⟩
      exact ⟨a, ha, hd, hf, q, p, rfl, hp⟩
    · rintro ⟨a, ha, hd, hf, q, p, ⟨⟩, hp⟩
      exact ⟨p, a, ha, hd, hf, hp⟩

-- The words that stem makes: small letters and digits
def Stemmed (s : List UInt8) : Prop := ∀ c ∈ s, 97 ≤ c ∧ c ≤ 122 ∨ 48 ≤ c ∧ c ≤ 57

lemma convertChar_eq {c : UInt8} (hc : 97 ≤ c ∧ c ≤ 122 ∨ 48 ≤ c ∧ c ≤ 57) :
    convertChar c = some (if 97 ≤ c.toNat then c.toNat - 97 else c.toNat - 22) := by
  simp only [convertChar, UInt8.le_iff_toNat_le, UInt8.toNat_ofNat] at *
  rcases hc with hc | hc
  · rw [if_pos hc, if_pos hc.1]
  · rw [if_neg (by omega), if_neg (by omega), if_pos hc, if_neg (by omega)]
    congr 1
    omega

lemma convertChar_stemmed {c c' : UInt8} (hc : 97 ≤ c ∧ c ≤ 122 ∨ 48 ≤ c ∧ c ≤ 57)
    (hc' : 97 ≤ c' ∧ c' ≤ 122 ∨ 48 ≤ c' ∧ c' ≤ 57) :
    (convertChar c).isSome ∧ (convertChar c = convertChar c' → c = c') := by
  rw [convertChar_eq hc, convertChar_eq hc']
  refine ⟨rfl, fun h => UInt8.toNat_inj.mp ?_⟩
  have h := Option.some_inj.mp h
  simp only [UInt8.le_iff_toNat_le, UInt8.toNat_ofNat] at hc hc'
  split_ifs at h <;> omega

-- For such words the paths go on exactly where the words do
theorem path_prefix_iff {s w : List UInt8} (hs : Stemmed s) (hw : Stemmed w) :
    (∃ q p, path s = some q ∧ path w = some (q ++ p)) ↔ s <+: w := by
  induction s generalizing w with
  | nil =>
    have : ∃ p, path w = some p := by
      induction w with
      | nil => exact ⟨[], rfl⟩
      | cons c w ih =>
        obtain ⟨hc, hw⟩ := List.forall_mem_cons.mp hw
        obtain ⟨p, hp⟩ := ih hw
        obtain ⟨k, hk⟩ := Option.isSome_iff_exists.mp (convertChar_stemmed hc hc).1
        exact ⟨k :: p, by simp [path_cons, hk, hp]⟩
    obtain ⟨p, hp⟩ := this
    exact ⟨fun _ => List.nil_prefix, fun _ => ⟨[], p, rfl, hp⟩⟩
  | cons c s ih =>
    obtain ⟨hc, hs⟩ := List.forall_mem_cons.mp hs
    obtain ⟨k, hk⟩ := Option.isSome_iff_exists.mp (convertChar_stemmed hc hc).1
    cases w with
    | nil =>
      constructor
      · rintro ⟨q, p, hq, hp⟩
        simp only [path_cons, hk, Option.bind_some, Option.map_eq_some_iff] at hq
        obtain ⟨q, -, rfl⟩ := hq
        simp [path] at hp
      · intro h
        simp at h
    | cons c' w =>
      obtain ⟨hc', hw⟩ := List.forall_mem_cons.mp hw
      obtain ⟨k', hk'⟩ := Option.isSome_iff_exists.mp (convertChar_stemmed hc' hc').1
      rw [List.cons_prefix_cons, ← ih hs hw]
      simp only [path_cons, hk, hk', Option.bind_some, Option.map_eq_some_iff]
      constructor
      · rintro ⟨_, p, ⟨q, hq, rfl⟩, ⟨p', hp', he⟩⟩
        obtain ⟨rfl, rfl⟩ := List.cons.inj he
        exact ⟨(convertChar_stemmed hc hc').2 (hk.trans hk'.symm), q, p, hq, hp'⟩
      · rintro ⟨rfl, q, p, hq, hp⟩
        obtain rfl : k = k' := Option.some_inj.mp (hk.symm.trans hk')
        exact ⟨k :: q, p, ⟨q, hq, rfl⟩, ⟨q ++ p, hp, rfl⟩⟩

end Mldonkey.Indexer
