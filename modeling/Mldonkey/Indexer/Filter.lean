import Mldonkey.Indexer.Query

-- The index of Indexer2 with its word filters. A document carries a flag, which a filter sets.
namespace Mldonkey.Indexer.Filter

mutual

inductive Node (D : Type) where
  | mk (docs : List (D × Fields)) (nodes : Nodes D)

inductive Nodes (D : Type) where
  | nil
  | cons (place : FilteredNode D) (rest : Nodes D)

inductive FilteredNode (D : Type) where
  | none
  | some (node : Node D)
  | filtered (node : Node D)

end

variable {D : Type}

def newNode : Node D := .mk [] .nil

namespace Nodes

-- Behind the end of the array is nothing.
def get : Nodes D → ℕ → FilteredNode D
  | nil, _ => .none
  | cons place _, 0 => place
  | cons _ rest, c + 1 => get rest c

-- The array grows up to the place that is set.
def set : Nodes D → ℕ → FilteredNode D → Nodes D
  | nil, 0, n => cons n nil
  | cons _ rest, 0, n => cons n rest
  | nil, c + 1, n => cons .none (set nil c n)
  | cons place rest, c + 1, n => cons place (set rest c n)

end Nodes

-- The index and the flags of the documents
structure State (D : Type) where
  index : Node D
  filtered : D → Bool

def create : State D := ⟨newNode, fun _ => false⟩

section Operations

variable [DecidableEq D]

-- Doc.filter
def setFilter (doc : D) (bool : Bool) (flags : D → Bool) : D → Bool := Function.update flags doc bool

-- The loop of add; the boolean tells that a filtered word was met, where the document is flagged
-- and not added.
def addIter (doc : D) (fields : Fields) : List UInt8 → Node D → Node D × Bool
  | [], .mk docs nodes => (.mk (addDoc doc fields docs) nodes, false)
  | c :: s, .mk docs nodes =>
    match convertChar c with
    | none => (.mk docs nodes, false)
    | some c =>
      match nodes.get c with
      | .none =>
        let (n, met) := addIter doc fields s newNode
        (.mk docs (nodes.set c (.some n)), met)
      | .some node =>
        let (n, met) := addIter doc fields s node
        (.mk docs (nodes.set c (.some n)), met)
      | .filtered _ => (.mk docs nodes, true)

def add (x : State D) (a : Add D) : State D :=
  let (index, met) := addIter a.doc a.fields a.word x.index
  ⟨index, if met then setFilter a.doc true x.filtered else x.filtered⟩

def filterNode (docs : List (D × Fields)) (bool : Bool) (flags : D → Bool) : D → Bool :=
  docs.foldl (fun flags e => setFilter e.1 bool flags) flags

mutual

def Node.filterNodes (bool : Bool) : Node D → (D → Bool) → D → Bool
  | .mk docs nodes, flags => nodes.filterNodes bool (filterNode docs bool flags)

def Nodes.filterNodes (bool : Bool) : Nodes D → (D → Bool) → D → Bool
  | .nil, flags => flags
  | .cons place rest, flags => rest.filterNodes bool (place.filterNodes bool flags)

def FilteredNode.filterNodes (bool : Bool) : FilteredNode D → (D → Bool) → D → Bool
  | .none, flags => flags
  | .some n, flags => n.filterNodes bool flags
  | .filtered n, flags => n.filterNodes bool flags

end

-- The loop of add_filter. The empty word has no first letter.
def addFilterIter : List UInt8 → Node D → (D → Bool) → Node D × (D → Bool)
  | [], node, flags => (node, flags)
  | c :: s, .mk docs nodes, flags =>
    match convertChar c with
    | none => (.mk docs nodes, flags)
    | some c =>
      let descend (n : Node D) :=
        if s = [] then (.mk docs (nodes.set c (.filtered n)), n.filterNodes true flags)
        else
          let (n, flags) := addFilterIter s n flags
          (.mk docs (nodes.set c (.some n)), flags)
      match nodes.get c with
      | .none => descend newNode
      | .some node => descend node
      | .filtered _ => (.mk docs nodes, flags)

def addFilter (x : State D) (s : List UInt8) : State D :=
  let (index, flags) := addFilterIter s x.index x.filtered
  ⟨index, flags⟩

def filterWords (x : State D) (list : List (List UInt8)) : State D := list.foldl addFilter x

mutual

-- iter_in, below a filtered word
def Nodes.iterIn : Nodes D → (D → Bool) → Nodes D × (D → Bool)
  | .nil, flags => (.nil, flags)
  | .cons place rest, flags =>
    let (place, flags) := place.iterIn flags
    let (rest, flags) := rest.iterIn flags
    (.cons place rest, flags)

def FilteredNode.iterIn : FilteredNode D → (D → Bool) → FilteredNode D × (D → Bool)
  | .none, flags => (.none, flags)
  | .some n, flags =>
    let (n, flags) := n.iterIn flags
    (.some n, flags)
  | .filtered n, flags =>
    let (n, flags) := n.iterIn flags
    (.some n, flags)

-- filter_node on the node, and iter_in
def Node.iterIn : Node D → (D → Bool) → Node D × (D → Bool)
  | .mk docs nodes, flags =>
    let (nodes, flags) := nodes.iterIn (filterNode docs false flags)
    (.mk docs nodes, flags)

end

mutual

def Node.iter : Node D → (D → Bool) → Node D × (D → Bool)
  | .mk docs nodes, flags =>
    let (nodes, flags) := nodes.iter flags
    (.mk docs nodes, flags)

def Nodes.iter : Nodes D → (D → Bool) → Nodes D × (D → Bool)
  | .nil, flags => (.nil, flags)
  | .cons place rest, flags =>
    let (place, flags) := place.iter flags
    let (rest, flags) := rest.iter flags
    (.cons place rest, flags)

def FilteredNode.iter : FilteredNode D → (D → Bool) → FilteredNode D × (D → Bool)
  | .none, flags => (.none, flags)
  | .some n, flags =>
    let (n, flags) := n.iter flags
    (.some n, flags)
  | .filtered n, flags =>
    let (n, flags) := n.iterIn flags
    (.some n, flags)

end

def clearFilter (x : State D) : State D :=
  let (index, flags) := x.index.iter x.filtered
  ⟨index, flags⟩

end Operations

def findIter : List UInt8 → Node D → Option (Node D)
  | [], node => some node
  | c :: s, .mk _ nodes => do
    let c ← convertChar c
    match nodes.get c with
    | .some node => findIter s node
    | .none => none
    | .filtered _ => none

-- Any exception gives the node empty.
def find (index : Node D) (s : List UInt8) : Node D := (findIter s index).getD newNode

mutual

-- The documents that the loops of or_get_fields and and_get_fields run through
def Node.entries : Node D → List (D × Fields)
  | .mk docs nodes => docs ++ nodes.entries

def Nodes.entries : Nodes D → List (D × Fields)
  | .nil => []
  | .cons place rest => place.entries ++ rest.entries

def FilteredNode.entries : FilteredNode D → List (D × Fields)
  | .none => []
  | .some node => node.entries
  | .filtered _ => []

end

namespace FilteredNode

def node : FilteredNode D → Node D
  | none => newNode
  | some node => node
  | filtered node => node

def isFiltered : FilteredNode D → Bool
  | filtered _ => true
  | _ => false

end FilteredNode

-- The documents at the end of a path, below filtered words too
def docsAt : List ℕ → Node D → List (D × Fields)
  | [], .mk docs _ => docs
  | c :: p, .mk _ nodes => docsAt p (nodes.get c).node

-- The path goes through a filtered word.
def Covered : List ℕ → Node D → Prop
  | [], _ => False
  | c :: p, .mk _ nodes => (nodes.get c).isFiltered = true ∨ Covered p (nodes.get c).node

mutual

-- All documents of a node and of those below it
def Node.all : Node D → List (D × Fields)
  | .mk docs nodes => docs ++ nodes.all

def Nodes.all : Nodes D → List (D × Fields)
  | .nil => []
  | .cons place rest => place.all ++ rest.all

def FilteredNode.all : FilteredNode D → List (D × Fields)
  | .none => []
  | .some node => node.all
  | .filtered node => node.all

end

mutual

-- The documents below filtered words
def Node.hidden : Node D → List (D × Fields)
  | .mk _ nodes => nodes.hidden

def Nodes.hidden : Nodes D → List (D × Fields)
  | .nil => []
  | .cons place rest => place.hidden ++ rest.hidden

def FilteredNode.hidden : FilteredNode D → List (D × Fields)
  | .none => []
  | .some node => node.hidden
  | .filtered node => node.all

end

mutual

-- The index when no word is filtered any more
def Node.clear : Node D → Node D
  | .mk docs nodes => .mk docs nodes.clear

def Nodes.clear : Nodes D → Nodes D
  | .nil => .nil
  | .cons place rest => .cons place.clear rest.clear

def FilteredNode.clear : FilteredNode D → FilteredNode D
  | .none => .none
  | .some node => .some node.clear
  | .filtered node => .some node.clear

end

mutual

-- What a query sees: an index without filters
def Node.visible : Node D → Indexer.Node D
  | .mk docs nodes => .mk docs nodes.visible

def Nodes.visible : Nodes D → Indexer.Nodes D
  | .nil => .nil
  | .cons .none rest => .none rest.visible
  | .cons (.some node) rest => .some node.visible rest.visible
  | .cons (.filtered _) rest => .none rest.visible

end

section Views

variable {docs : List (D × Fields)} {nodes : Nodes D} {c : ℕ} {p : List ℕ} {e : D × Fields}

lemma get_set (nodes : Nodes D) (c c' : ℕ) (n : FilteredNode D) :
    (nodes.set c n).get c' = if c' = c then n else nodes.get c' := by
  fun_induction Nodes.set nodes c n generalizing c' with
  | case1 n => cases c' <;> simp [Nodes.get]
  | case2 _ rest n => cases c' <;> simp [Nodes.get]
  | case3 c n ih =>
    cases c' with
    | zero => simp [Nodes.get]
    | succ c' => simp [Nodes.get, ih]
  | case4 place rest c n ih =>
    cases c' with
    | zero => simp [Nodes.get]
    | succ c' => simp [Nodes.get, ih]

-- A place that is set changes what stands on the paths through it only.
lemma docsAt_set (docs : List (D × Fields)) (nodes : Nodes D) (k c : ℕ) (place : FilteredNode D)
    (q : List ℕ) : docsAt (c :: q) (.mk docs (nodes.set k place)) =
      if c = k then docsAt q place.node else docsAt (c :: q) (.mk docs nodes) := by
  rw [docsAt, get_set, docsAt]
  split_ifs <;> rfl

lemma covered_set (docs : List (D × Fields)) (nodes : Nodes D) (k c : ℕ) (place : FilteredNode D)
    (q : List ℕ) : Covered (c :: q) (.mk docs (nodes.set k place)) ↔
      if c = k then place.isFiltered = true ∨ Covered q place.node
      else Covered (c :: q) (.mk docs nodes) := by
  rw [Covered, get_set, Covered]
  split_ifs <;> rfl

lemma covered_some (n : Node D) :
    ((FilteredNode.some n).isFiltered = true ∨ Covered p (FilteredNode.some n).node) ↔ Covered p n :=
  or_iff_right Bool.false_ne_true

lemma docsAt_newNode (p : List ℕ) : docsAt p (newNode : Node D) = [] := by
  induction p with
  | nil => rfl
  | cons c p ih => exact ih

lemma not_covered_newNode (p : List ℕ) : ¬ Covered p (newNode : Node D) := by
  induction p with
  | nil => exact id
  | cons c p ih => exact fun h => h.elim (fun h => Bool.false_ne_true h) ih

-- What stands below a filtered word goes on being below it.
lemma Covered.append {n : Node D} (h : Covered p n) (q : List ℕ) : Covered (p ++ q) n := by
  induction p generalizing n with
  | nil => exact h.elim
  | cons c p ih =>
    obtain ⟨docs, nodes⟩ := n
    exact h.imp id ih

mutual

lemma Node.mem_all : ∀ n : Node D, e ∈ n.all ↔ ∃ p, e ∈ docsAt p n
  | .mk docs nodes => by
    rw [Node.all, List.mem_append, Nodes.mem_all nodes]
    constructor
    · rintro (h | ⟨c, p, h⟩)
      · exact ⟨[], h⟩
      · exact ⟨c :: p, h⟩
    · rintro ⟨p, h⟩
      cases p with
      | nil => exact .inl h
      | cons c p => exact .inr ⟨c, p, h⟩

lemma Nodes.mem_all : ∀ nodes : Nodes D,
    e ∈ nodes.all ↔ ∃ c p, e ∈ docsAt p (nodes.get c).node
  | .nil => by simp [Nodes.all, Nodes.get, FilteredNode.node, docsAt_newNode]
  | .cons place rest => by
    rw [Nodes.all, List.mem_append, FilteredNode.mem_all place, Nodes.mem_all rest]
    constructor
    · rintro (⟨p, h⟩ | ⟨c, p, h⟩)
      · exact ⟨0, p, h⟩
      · exact ⟨c + 1, p, h⟩
    · rintro ⟨c, p, h⟩
      cases c with
      | zero => exact .inl ⟨p, h⟩
      | succ c => exact .inr ⟨c, p, h⟩

lemma FilteredNode.mem_all : ∀ place : FilteredNode D,
    e ∈ place.all ↔ ∃ p, e ∈ docsAt p place.node
  | .none => by simp [FilteredNode.all, FilteredNode.node, docsAt_newNode]
  | .some n => Node.mem_all n
  | .filtered n => Node.mem_all n

end

mutual

lemma Node.mem_hidden : ∀ n : Node D, e ∈ n.hidden ↔ ∃ p, Covered p n ∧ e ∈ docsAt p n
  | .mk docs nodes => by
    rw [Node.hidden, Nodes.mem_hidden nodes]
    constructor
    · rintro ⟨c, p, h⟩
      exact ⟨c :: p, h⟩
    · rintro ⟨p, h⟩
      cases p with
      | nil => exact h.1.elim
      | cons c p => exact ⟨c, p, h⟩

lemma Nodes.mem_hidden : ∀ nodes : Nodes D, e ∈ nodes.hidden ↔ ∃ c p,
    ((nodes.get c).isFiltered = true ∨ Covered p (nodes.get c).node) ∧
      e ∈ docsAt p (nodes.get c).node
  | .nil => by simp [Nodes.hidden, Nodes.get, FilteredNode.node, docsAt_newNode]
  | .cons place rest => by
    rw [Nodes.hidden, List.mem_append, FilteredNode.mem_hidden place, Nodes.mem_hidden rest]
    constructor
    · rintro (⟨p, h⟩ | ⟨c, p, h⟩)
      · exact ⟨0, p, h⟩
      · exact ⟨c + 1, p, h⟩
    · rintro ⟨c, p, h⟩
      cases c with
      | zero => exact .inl ⟨p, h⟩
      | succ c => exact .inr ⟨c, p, h⟩

lemma FilteredNode.mem_hidden : ∀ place : FilteredNode D, e ∈ place.hidden ↔ ∃ p,
    (place.isFiltered = true ∨ Covered p place.node) ∧ e ∈ docsAt p place.node
  | .none => by simp [FilteredNode.hidden, FilteredNode.node, docsAt_newNode]
  | .some n => by
    rw [FilteredNode.hidden, Node.mem_hidden n]
    simp [FilteredNode.isFiltered, FilteredNode.node]
  | .filtered n => by
    rw [FilteredNode.hidden, Node.mem_all n]
    simp [FilteredNode.isFiltered, FilteredNode.node]

end

lemma get_clear : ∀ (nodes : Nodes D) (c : ℕ), nodes.clear.get c = (nodes.get c).clear
  | .nil, _ => by simp [Nodes.clear, Nodes.get, FilteredNode.clear]
  | .cons _ _, 0 => rfl
  | .cons _ rest, c + 1 => get_clear rest c

lemma node_clear (place : FilteredNode D) :
    place.clear.node = place.node.clear ∧ place.clear.isFiltered = false := by
  cases place <;> exact ⟨rfl, rfl⟩

lemma docsAt_clear (p : List ℕ) (n : Node D) : docsAt p n.clear = docsAt p n := by
  induction p generalizing n with
  | nil =>
    obtain ⟨docs, nodes⟩ := n
    rfl
  | cons c p ih =>
    obtain ⟨docs, nodes⟩ := n
    rw [Node.clear, docsAt, get_clear, (node_clear _).1, ih, docsAt]

lemma not_covered_clear (p : List ℕ) (n : Node D) : ¬ Covered p n.clear := by
  induction p generalizing n with
  | nil => exact id
  | cons c p ih =>
    obtain ⟨docs, nodes⟩ := n
    rw [Node.clear, Covered, get_clear, (node_clear _).1, (node_clear _).2]
    exact fun h => h.elim (fun h => Bool.false_ne_true h) (ih _)

lemma get_visible : ∀ (nodes : Nodes D) (c : ℕ), nodes.visible.get c =
    match nodes.get c with
    | .none => none
    | .some n => some n.visible
    | .filtered _ => none
  | .nil, _ => rfl
  | .cons .none _, 0 => rfl
  | .cons (.some _) _, 0 => rfl
  | .cons (.filtered _) _, 0 => rfl
  | .cons .none rest, c + 1 => get_visible rest c
  | .cons (.some _) rest, c + 1 => get_visible rest c
  | .cons (.filtered _) rest, c + 1 => get_visible rest c

lemma findIter_visible (s : List UInt8) (n : Node D) :
    (findIter s n).map Node.visible = Indexer.findIter s n.visible := by
  induction s generalizing n with
  | nil =>
    obtain ⟨docs, nodes⟩ := n
    rfl
  | cons c s ih =>
    obtain ⟨docs, nodes⟩ := n
    rw [findIter, Node.visible, Indexer.findIter]
    cases convertChar c with
    | none => rfl
    | some c =>
      simp only [Option.bind_eq_bind, Option.bind_some, get_visible]
      cases nodes.get c with
      | none => rfl
      | some n => exact ih n
      | filtered n => rfl

mutual

lemma Node.entries_visible : ∀ n : Node D, n.visible.entries = n.entries
  | .mk docs nodes => by
    rw [Node.visible, Indexer.Node.entries, Nodes.entries_visible nodes, Node.entries]

lemma Nodes.entries_visible : ∀ nodes : Nodes D, nodes.visible.entries = nodes.entries
  | .nil => rfl
  | .cons .none rest => Nodes.entries_visible rest
  | .cons (.some n) rest => by
    rw [Nodes.visible, Indexer.Nodes.entries, Node.entries_visible n, Nodes.entries_visible rest,
      Nodes.entries, FilteredNode.entries]
  | .cons (.filtered _) rest => Nodes.entries_visible rest

end

-- A query finds below a word what the loops of the index run through.
theorem entries_find (index : Node D) (s : List UInt8) :
    (find index s).entries = (Indexer.find index.visible s).entries := by
  rw [Indexer.find, ← findIter_visible, find, ← Node.entries_visible]
  cases findIter s index <;> rfl

-- Where no word is filtered a query sees every document.
lemma docsAt_visible (p : List ℕ) (n : Node D) (h : ¬ Covered p n) :
    Indexer.docsAt p n.visible = docsAt p n := by
  induction p generalizing n with
  | nil =>
    obtain ⟨docs, nodes⟩ := n
    rfl
  | cons c p ih =>
    obtain ⟨docs, nodes⟩ := n
    rw [Covered, not_or] at h
    rw [Node.visible, Indexer.docsAt, get_visible, docsAt]
    cases hc : nodes.get c with
    | none => exact (docsAt_newNode p).symm
    | some n =>
      rw [hc] at h
      exact ih n h.2
    | filtered n =>
      rw [hc] at h
      exact absurd rfl h.1

end Views

section Specifications

variable [DecidableEq D] {doc : D} {fields : Fields} {flags : D → Bool} {bool : Bool} {d : D}
  {p : List ℕ} {s : List UInt8} {n : Node D}

lemma filterNode_apply (docs : List (D × Fields)) (bool : Bool) (flags : D → Bool) (d : D) :
    filterNode docs bool flags d = if d ∈ docs.map Prod.fst then bool else flags d := by
  induction docs generalizing flags with
  | nil => rfl
  | cons e docs ih =>
    have hstep : filterNode (e :: docs) bool flags =
        filterNode docs bool (setFilter e.1 bool flags) := rfl
    rw [hstep, ih]
    by_cases hd : d = e.1
    · subst hd
      simp [setFilter]
    · simp [setFilter, hd]

lemma filterNode_append (docs docs' : List (D × Fields)) (bool : Bool) (flags : D → Bool) :
    filterNode (docs ++ docs') bool flags = filterNode docs' bool (filterNode docs bool flags) :=
  List.foldl_append

mutual

lemma Node.filterNodes_eq : ∀ (n : Node D) (bool : Bool) (flags : D → Bool),
    n.filterNodes bool flags = filterNode n.all bool flags
  | .mk docs nodes, bool, flags => by
    rw [Node.filterNodes, Nodes.filterNodes_eq nodes, Node.all, filterNode_append]

lemma Nodes.filterNodes_eq : ∀ (nodes : Nodes D) (bool : Bool) (flags : D → Bool),
    nodes.filterNodes bool flags = filterNode nodes.all bool flags
  | .nil, _, _ => rfl
  | .cons place rest, bool, flags => by
    rw [Nodes.filterNodes, FilteredNode.filterNodes_eq place, Nodes.filterNodes_eq rest, Nodes.all,
      filterNode_append]

lemma FilteredNode.filterNodes_eq : ∀ (place : FilteredNode D) (bool : Bool) (flags : D → Bool),
    place.filterNodes bool flags = filterNode place.all bool flags
  | .none, _, _ => rfl
  | .some n, bool, flags => Node.filterNodes_eq n bool flags
  | .filtered n, bool, flags => Node.filterNodes_eq n bool flags

end

mutual

lemma Node.iterIn_eq : ∀ (n : Node D) (flags : D → Bool),
    n.iterIn flags = (n.clear, filterNode n.all false flags)
  | .mk docs nodes, flags => by
    rw [Node.iterIn, Nodes.iterIn_eq nodes, Node.clear, Node.all, filterNode_append]

lemma Nodes.iterIn_eq : ∀ (nodes : Nodes D) (flags : D → Bool),
    nodes.iterIn flags = (nodes.clear, filterNode nodes.all false flags)
  | .nil, _ => rfl
  | .cons place rest, flags => by
    rw [Nodes.iterIn, FilteredNode.iterIn_eq place]
    simp only [Nodes.iterIn_eq rest, Nodes.clear, Nodes.all, filterNode_append]

lemma FilteredNode.iterIn_eq : ∀ (place : FilteredNode D) (flags : D → Bool),
    place.iterIn flags = (place.clear, filterNode place.all false flags)
  | .none, _ => rfl
  | .some n, flags => by
    rw [FilteredNode.iterIn, Node.iterIn_eq n, FilteredNode.clear, FilteredNode.all]
  | .filtered n, flags => by
    rw [FilteredNode.iterIn, Node.iterIn_eq n, FilteredNode.clear, FilteredNode.all]

end

mutual

-- Clearing opens the filtered words and takes the flags from the documents below them.
lemma Node.iter_eq : ∀ (n : Node D) (flags : D → Bool),
    n.iter flags = (n.clear, filterNode n.hidden false flags)
  | .mk docs nodes, flags => by
    rw [Node.iter, Nodes.iter_eq nodes, Node.clear, Node.hidden]

lemma Nodes.iter_eq : ∀ (nodes : Nodes D) (flags : D → Bool),
    nodes.iter flags = (nodes.clear, filterNode nodes.hidden false flags)
  | .nil, _ => rfl
  | .cons place rest, flags => by
    rw [Nodes.iter, FilteredNode.iter_eq place]
    simp only [Nodes.iter_eq rest, Nodes.clear, Nodes.hidden, filterNode_append]

lemma FilteredNode.iter_eq : ∀ (place : FilteredNode D) (flags : D → Bool),
    place.iter flags = (place.clear, filterNode place.hidden false flags)
  | .none, _ => rfl
  | .some n, flags => by
    rw [FilteredNode.iter, Node.iter_eq n, FilteredNode.clear, FilteredNode.hidden]
  | .filtered n, flags => by
    rw [FilteredNode.iter, Node.iterIn_eq n, FilteredNode.clear, FilteredNode.hidden]

end

lemma addIter_cons {c : UInt8} {k : ℕ} (hc : convertChar c = some k) (s : List UInt8)
    (docs : List (D × Fields)) (nodes : Nodes D) :
    addIter doc fields (c :: s) (.mk docs nodes) =
      if (nodes.get k).isFiltered then (.mk docs nodes, true)
      else
        (.mk docs (nodes.set k (.some (addIter doc fields s (nodes.get k).node).1)),
          (addIter doc fields s (nodes.get k).node).2) := by
  rw [addIter, hc]
  cases hk : nodes.get k <;> simp [hk, FilteredNode.isFiltered, FilteredNode.node]

lemma addFilterIter_cons {c : UInt8} {k : ℕ} (hc : convertChar c = some k) (s : List UInt8)
    (docs : List (D × Fields)) (nodes : Nodes D) (flags : D → Bool) :
    addFilterIter (c :: s) (.mk docs nodes) flags =
      if (nodes.get k).isFiltered then (.mk docs nodes, flags)
      else if s = [] then
        (.mk docs (nodes.set k (.filtered (nodes.get k).node)),
          (nodes.get k).node.filterNodes true flags)
      else
        (.mk docs (nodes.set k (.some (addFilterIter s (nodes.get k).node flags).1)),
          (addFilterIter s (nodes.get k).node flags).2) := by
  rw [addFilterIter, hc]
  cases hk : nodes.get k <;> simp [hk, FilteredNode.isFiltered, FilteredNode.node]

-- A document is added at the end of its word, or meets a filtered word on the way.
lemma addIter_spec (h : path s = some p) :
    ((addIter doc fields s n).2 = true ↔ Covered p n) ∧
      (∀ q, Covered q (addIter doc fields s n).1 ↔ Covered q n) ∧
      (Covered p n → ∀ q, docsAt q (addIter doc fields s n).1 = docsAt q n) ∧
      (¬ Covered p n → ∀ q, docsAt q (addIter doc fields s n).1 =
        if q = p then addDoc doc fields (docsAt q n) else docsAt q n) := by
  induction s generalizing n p with
  | nil =>
    obtain rfl : p = [] := (Option.some.inj h).symm
    obtain ⟨docs, nodes⟩ := n
    rw [addIter]
    refine ⟨iff_of_false Bool.false_ne_true id, fun q => ?_, fun hcov => hcov.elim, fun _ q => ?_⟩
    · cases q <;> rfl
    · cases q <;> rfl
  | cons c s ih =>
    obtain ⟨docs, nodes⟩ := n
    rw [path_cons] at h
    obtain ⟨k, hk, h⟩ := Option.bind_eq_some_iff.mp h
    obtain ⟨p, hp, rfl⟩ := Option.map_eq_some_iff.mp h
    rw [addIter_cons hk]
    by_cases hfilt : (nodes.get k).isFiltered = true
    · have hcov : Covered (k :: p) (.mk docs nodes) := .inl hfilt
      rw [if_pos hfilt]
      exact ⟨iff_of_true rfl hcov, fun _ => Iff.rfl, fun _ _ => rfl, fun hnot => (hnot hcov).elim⟩
    · have hcov : Covered (k :: p) (.mk docs nodes) ↔ Covered p (nodes.get k).node :=
        or_iff_right hfilt
      obtain ⟨hmet, hsame, hin, hout⟩ := @ih p (nodes.get k).node hp
      rw [if_neg hfilt, hcov]
      refine ⟨hmet, fun q => ?_, fun h q => ?_, fun h q => ?_⟩
      · rcases q with _ | ⟨c', q⟩
        · rfl
        · rw [covered_set]
          split_ifs with hc
          · subst hc
            rw [covered_some, hsame]
            exact (or_iff_right hfilt).symm
          · rfl
      · rcases q with _ | ⟨c', q⟩
        · rfl
        · rw [docsAt_set]
          split_ifs with hc
          · subst hc
            exact hin h q
          · rfl
      · rcases q with _ | ⟨c', q⟩
        · rfl
        · rw [docsAt_set]
          by_cases hc : c' = k
          · subst hc
            simp only [if_true, List.cons.injEq, true_and]
            exact hout h q
          · simp [hc]

-- A word is filtered unless a beginning of it is; the documents below it are flagged.
lemma addFilterIter_spec (h : path s = some p) (hs : s ≠ []) :
    (∀ q, docsAt q (addFilterIter s n flags).1 = docsAt q n) ∧
      (∀ q, Covered q (addFilterIter s n flags).1 ↔ Covered q n ∨ p <+: q) ∧
      ∀ d, (addFilterIter s n flags).2 d = true ↔
        flags d = true ∨ ¬ Covered p n ∧ ∃ q f, (d, f) ∈ docsAt (p ++ q) n := by
  induction s generalizing n p with
  | nil => exact absurd rfl hs
  | cons c s ih =>
    obtain ⟨docs, nodes⟩ := n
    rw [path_cons] at h
    obtain ⟨k, hk, h⟩ := Option.bind_eq_some_iff.mp h
    obtain ⟨p, hp, rfl⟩ := Option.map_eq_some_iff.mp h
    rw [addFilterIter_cons hk]
    by_cases hfilt : (nodes.get k).isFiltered = true
    · have hcov : Covered (k :: p) (.mk docs nodes) := .inl hfilt
      rw [if_pos hfilt]
      refine ⟨fun _ => rfl, fun q => ⟨.inl, ?_⟩, fun d => ?_⟩
      · rintro (h | ⟨q, rfl⟩)
        · exact h
        · exact hcov.append q
      · exact ⟨.inl, fun h => h.elim id fun h => absurd hcov h.1⟩
    · have hcov : Covered (k :: p) (.mk docs nodes) ↔ Covered p (nodes.get k).node :=
        or_iff_right hfilt
      rw [if_neg hfilt]
      by_cases hend : s = []
      · subst hend
        obtain rfl : p = [] := (Option.some.inj hp).symm
        rw [if_pos rfl, Node.filterNodes_eq]
        refine ⟨fun q => ?_, fun q => ?_, fun d => ?_⟩
        · rcases q with _ | ⟨c', q⟩
          · rfl
          · rw [docsAt_set]
            split_ifs with hc
            · subst hc
              rfl
            · rfl
        · rcases q with _ | ⟨c', q⟩
          · simp [Covered]
          · rw [covered_set]
            by_cases hc : c' = k
            · subst hc
              simp [FilteredNode.isFiltered]
            · simp [hc, Ne.symm hc]
        · have hall : d ∈ (nodes.get k).node.all.map Prod.fst ↔
              ∃ q f, (d, f) ∈ docsAt ([k] ++ q) (.mk docs nodes) := by
            simp only [List.mem_map, Prod.exists, exists_and_right, exists_eq_right, Node.mem_all]
            exact exists_comm
          have hopen : ¬ Covered [k] (.mk docs nodes) := fun h => (hcov.mp h).elim
          rw [← hall, and_iff_right hopen]
          simp only [filterNode_apply]
          split_ifs with hd
          · simp [hd]
          · simp [hd]
      · rw [if_neg hend]
        obtain ⟨hdocs, hsame, hflag⟩ := @ih p (nodes.get k).node hp hend
        refine ⟨fun q => ?_, fun q => ?_, fun d => ?_⟩
        · rcases q with _ | ⟨c', q⟩
          · rfl
          · rw [docsAt_set]
            split_ifs with hc
            · subst hc
              exact hdocs q
            · rfl
        · rcases q with _ | ⟨c', q⟩
          · simp [Covered]
          · rw [covered_set]
            by_cases hc : c' = k
            · subst hc
              rw [if_pos rfl, covered_some, hsame, List.cons_prefix_cons, and_iff_right rfl]
              exact or_congr_left (or_iff_right hfilt).symm
            · simp [hc, Ne.symm hc]
        · rw [hflag, hcov]
          rfl

end Specifications

end Mldonkey.Indexer.Filter
