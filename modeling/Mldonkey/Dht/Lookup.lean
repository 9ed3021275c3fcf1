import Mldonkey.Dht.Messages
import Mldonkey.Lib.Runs

-- The search for the nodes closest to a target.
namespace Mldonkey.Dht

open Kademlia (Addr bucketNodes)
open Runs

def alpha : Nat := 3

-- The id is what a packet says, which need not have 20 bytes.
abbrev Contact := RawId × Addr

-- The assertion of h2s.
def h2s (h : RawId) : Option RawId := if h.length = 20 then some h else none

def cmp (id1 id2 : RawId) : Option Ordering := do return compare (← h2s id1) (← h2s id2)

def distance (h1 h2 : RawId) : Option Nat := do
  let s1 ← h2s h1
  let s2 ← h2s h2
  return (s1.zip s2).foldl (fun d c => (c.1 ^^^ c.2).toNat + 256 * d) 0

-- The routing table as update finds it, with the ids that nodes have sent.
inductive RawTree
  | leaf (nodes : List Contact)
  | node (l : RawTree) (mid : RawId) (r : RawTree)

structure RawTable where
  root : RawTree
  self : RawId

-- The iteration over the nodes of a bucket ends at the first one with the id or the address.
def comparesNodes (node : Contact) : List Contact → Option Unit
  | [] => some ()
  | n :: nodes => do
      let o ← cmp n.1 node.1
      if o = .eq ∨ n.2 = node.2 then return () else comparesNodes node nodes

-- The descent of update to a bucket. Behind these comparisons the bucket has ids of 20 bytes
-- only, so that the ones of a split raise nothing.
def RawTree.compares (node : Contact) : RawTree → Option Unit
  | .leaf nodes => comparesNodes node nodes
  | .node l mid r => do
      match ← cmp node.1 mid with
      | .gt => r.compares node
      | _ => l.compares node

def RawTable.updateRaises (t : RawTable) (node : Contact) : Bool :=
  node.1 ≠ t.self && (t.root.compares node).isNone

-- A bounded set that keeps the smallest elements. It is ordered by `key`, and
-- two elements with one key are the same to it.
structure LimitedSet (α : Type) where
  left : Nat
  set : List α

namespace LimitedSet

variable {α κ : Type} [LinearOrder κ] (key : α → κ)

def create (n : Nat) : LimitedSet α := ⟨n, []⟩

def add (l : List α) (x : α) : List α :=
  l.takeWhile (fun y => key y < key x) ++ x :: l.dropWhile fun y => key y < key x

-- The set after insert, and whether the element was really added. `maxElt` of a
-- set that may hold something is there when no place is left.
def insert (s : LimitedSet α) (x : α) : LimitedSet α × Bool :=
  if s.set.any fun y => key y = key x then (s, false)
  else
    match s.left with
    | 0 =>
        match s.set.getLast? with
        | none => (s, false)
        | some max =>
            if key x < key max then
              ({ s with set := add key (s.set.filter fun y => key y ≠ key max) x }, true)
            else (s, false)
    | n + 1 => ({ left := n, set := add key s.set x }, true)

def elements (s : LimitedSet α) : List α := s.set

end LimitedSet

-- The state that the callbacks of one lookup share. `inflight` are the queries
-- that neither an answer nor an error came to, with their `store`, and
-- `results` what the continuation k was called with.
structure Lookup where
  found : LimitedSet Contact
  queried : List Contact
  active : Int
  inflight : List (Contact × Bool)
  results : List (List Contact)

namespace Lookup

def checkReady (s : Lookup) : Lookup :=
  if s.active = 0 then { s with results := s.results ++ [s.found.elements] } else s

def query (s : Lookup) (store : Bool) (node : Contact) : Lookup :=
  { s with
    active := s.active + 1
    queried := node :: s.queried
    inflight := s.inflight ++ [(node, store)] }

-- The iteration over the nodes found; `n` of them were queried in this round.
def ask (n : Nat) : List Contact → Lookup → Lookup
  | [], s => s
  | node :: l, s =>
      if alpha = n then s
      else if node ∈ s.queried then ask n l s
      else ask (n + 1) l (s.query true node)

-- Into a set that holds something a node is put by its distance, and by those of the nodes
-- there, which h2s must take.
def comparable (target : RawId) (found : LimitedSet Contact) (node : Contact) : Bool :=
  found.set.isEmpty || (node :: found.set).all fun n => (distance target n.1).isSome

-- The set with the nodes, or with those before the first one that raises an exception.
def insertAll (target : RawId) :
    List Contact → LimitedSet Contact → LimitedSet Contact × Bool
  | [], found => (found, true)
  | node :: l, found =>
      if comparable target found node then
        insertAll target l (found.insert (fun n => (distance target n.1).getD 0) node).1
      else (found, false)

-- The second component says whether there was no exception.
def round (target : RawId) (s : Lookup) (nodes : List Contact) : Lookup × Bool :=
  let inserted := insertAll target nodes s.found
  let s := { s with found := inserted.1 }
  if inserted.2 then (ask 0 s.found.elements s, true) else (s, false)

def init : Lookup :=
  { found := .create bucketNodes, queried := [], active := 0, inflight := [], results := [] }

-- `selfNodes` is what self_find_node returns. An exception leaves lookup_node.
def start (target : RawId) (selfNodes : List Contact) (nodes : Option (List Contact)) :
    Lookup × Bool :=
  match nodes with
  | none =>
      let out := init.round target selfNodes
      if out.2 then (out.1.checkReady, true) else out
  | some l => ((l.foldl (fun s node => s.query false node) init).checkReady, true)

-- The answer to the query `i`: the id and the address that it comes from, its nodes, and the
-- routing table at this moment, which all lookups and the queries of other nodes change.
def answer (target : RawId) (s : Lookup) (i : Nat) (table : RawTable) (node : Contact)
    (nodes : List Contact) : Lookup :=
  match s.inflight[i]? with
  | none => s
  | some (_, store) =>
      let s := { s with inflight := s.inflight.eraseIdx i }
      if store && table.updateRaises node then s
      else
        let out := { s with active := s.active - 1 }.round target nodes
        if out.2 then out.1.checkReady else out.1

-- An error, a malformed answer or a timeout ends the query `i`.
def fail (s : Lookup) (i : Nat) : Lookup :=
  match s.inflight[i]? with
  | none => s
  | some _ =>
      { s with inflight := s.inflight.eraseIdx i, active := s.active - 1 }.checkReady

end Lookup

inductive LookupOp
  | answer (i : Nat) (table : RawTable) (node : Contact) (nodes : List Contact)
  | fail (i : Nat)

def LookupOp.next (target : RawId) : LookupOp → Lookup → Lookup
  | answer i table node nodes, s => s.answer target i table node nodes
  | fail i, s => s.fail i

-- The states of a lookup that has started without an exception, whatever order the queries
-- end in.
def LookupReachable (target : RawId) (ok : Lookup → LookupOp → Prop) : Lookup → Prop :=
  Reach (LookupOp.next target)
    (fun s => ∃ selfNodes nodes, Lookup.start target selfNodes nodes = (s, true)) ok

-- Neither the update that stores the node of an answer nor the insertion of the answer's nodes
-- compares an id that has not 20 bytes, and no failure is the last one in flight while a node
-- found has not been queried.
def LookupOp.Fits (target : RawId) (s : Lookup) : LookupOp → Prop
  | answer i table node nodes => ∀ q, s.inflight[i]? = some q →
      (q.2 = true → table.updateRaises node = false) ∧
        (Lookup.insertAll target nodes s.found).2 = true
  | fail _ => s.inflight.length = 1 → ∀ node ∈ s.found.elements, node ∈ s.queried

-- The continuation was called if and only if no query is in flight, and then
-- with nodes that were all queried.
structure Lookup.Done (s : Lookup) : Prop where
  active : s.active = s.inflight.length
  waiting : s.inflight ≠ [] → s.results = []
  ready : s.inflight = [] → s.results = [s.found.elements] ∧
    ∀ node ∈ s.found.elements, node ∈ s.queried

-- While queries are in flight nothing was called.
structure Lookup.Open (s : Lookup) : Prop where
  active : s.active = s.inflight.length
  results : s.results = []

namespace Lookup

variable {target : RawId} {s : Lookup} {node : Contact} {store : Bool} {l nodes : List Contact}
  {n i : Nat}

theorem Open.checkReady (h : s.Open)
    (hall : s.inflight = [] → ∀ node ∈ s.found.elements, node ∈ s.queried) :
    s.checkReady.Done := by
  have ha := h.active
  rw [Lookup.checkReady]
  split
  case isTrue hzero =>
      have hnil : s.inflight = [] := List.length_eq_zero_iff.mp (by omega)
      exact ⟨ha, fun hne => absurd hnil hne, fun _ => ⟨by simp [h.results], hall hnil⟩⟩
  case isFalse hpos =>
      refine ⟨ha, fun _ => h.results, fun hnil => absurd ?_ hpos⟩
      rw [ha, hnil]
      rfl

theorem Open.query (h : s.Open) (store : Bool) (node : Contact) : (s.query store node).Open := by
  refine ⟨?_, h.results⟩
  have := h.active
  simp only [Lookup.query, List.length_append, List.length_singleton]
  omega

theorem Open.ask (h : s.Open) (n : Nat) (l : List Contact) : (s.ask n l).Open := by
  induction l generalizing n s with
  | nil => exact h
  | cons node l ih =>
      rw [Lookup.ask]
      split
      · exact h
      split
      · exact ih h n
      · exact ih (h.query true node) (n + 1)

theorem ask_found (s : Lookup) (n : Nat) (l : List Contact) : (s.ask n l).found = s.found := by
  induction l generalizing n s with
  | nil => rfl
  | cons node l ih =>
      rw [Lookup.ask]
      split
      · rfl
      split
      · exact ih s n
      · exact ih _ _

theorem ask_inflight (s : Lookup) (n : Nat) (l : List Contact) :
    ∃ l', (s.ask n l).inflight = s.inflight ++ l' := by
  induction l generalizing n s with
  | nil => exact ⟨[], by simp [Lookup.ask]⟩
  | cons node l ih =>
      rw [Lookup.ask]
      split
      · exact ⟨[], by simp⟩
      split
      · exact ih s n
      · obtain ⟨l', hl'⟩ := ih (s.query true node) (n + 1)
        exact ⟨(node, true) :: l', by rw [hl']; simp [Lookup.query]⟩

theorem ask_all (h : (s.ask 0 l).inflight = []) : ∀ node ∈ l, node ∈ (s.ask 0 l).queried := by
  induction l with
  | nil => simp
  | cons node l ih =>
      rw [Lookup.ask, if_neg (by decide)] at h ⊢
      split at h
      case isTrue hmem =>
          rw [if_pos hmem]
          refine List.forall_mem_cons.mpr ⟨?_, ih h⟩
          clear ih h
          generalize 0 = n
          induction l generalizing n s with
          | nil => exact hmem
          | cons node' l ih =>
              rw [Lookup.ask]
              split
              · exact hmem
              split
              · exact ih hmem n
              · exact ih (List.mem_cons_of_mem _ hmem) (n + 1)
      case isFalse =>
          obtain ⟨l', hl'⟩ := ask_inflight (s.query true node) (0 + 1) l
          rw [hl'] at h
          simp [Lookup.query] at h

theorem round_snd (s : Lookup) (target : RawId) (nodes : List Contact) :
    (s.round target nodes).2 = (insertAll target nodes s.found).2 := by
  rw [Lookup.round]
  cases hfits : (insertAll target nodes s.found).2 <;> rfl

theorem Open.round (h : s.Open) (hfits : (insertAll target nodes s.found).2 = true) :
    (s.round target nodes).1.checkReady.Done := by
  have hopen : { s with found := (insertAll target nodes s.found).1 }.Open :=
    ⟨h.active, h.results⟩
  rw [Lookup.round]
  dsimp only
  rw [if_pos hfits]
  refine (hopen.ask 0 _).checkReady fun hnil => ?_
  rw [ask_found]
  exact ask_all hnil

theorem Open.start {selfNodes : List Contact} {nodes : Option (List Contact)}
    (hs : Lookup.start target selfNodes nodes = (s, true)) : s.Done := by
  have hinit : init.Open := ⟨rfl, rfl⟩
  cases nodes with
  | none =>
      rw [Lookup.start] at hs
      cases hfits : (insertAll target selfNodes init.found).2 with
      | true =>
          rw [← round_snd] at hfits
          simp only [hfits, if_true] at hs
          cases hs
          exact hinit.round ((round_snd _ _ _).symm.trans hfits)
      | false =>
          rw [← round_snd] at hfits
          simp only [hfits, Bool.false_eq_true, if_false] at hs
          rw [hs] at hfits
          cases hfits
  | some l =>
      have hfold : ∀ (l : List Contact) {s : Lookup}, s.Open → s.found.elements = [] →
          (l.foldl (fun s node => s.query false node) s).checkReady.Done := by
        intro l
        induction l with
        | nil => exact fun h hnil => h.checkReady fun _ => by simp [hnil]
        | cons node l ih => exact fun h hnil => ih (h.query false node) hnil
      cases hs
      exact hfold l hinit rfl

-- A query that ends was in flight, so nothing was called before.
theorem Done.ends (h : s.Done) {q : Contact × Bool} (hq : s.inflight[i]? = some q) :
    { s with inflight := s.inflight.eraseIdx i, active := s.active - 1 }.Open := by
  obtain ⟨hlt, -⟩ := List.getElem?_eq_some_iff.mp hq
  have := h.active
  refine ⟨?_, h.waiting fun hnil => by simp [hnil] at hlt⟩
  show s.active - 1 = (s.inflight.eraseIdx i).length
  rw [List.length_eraseIdx_of_lt hlt]
  omega

theorem Done.next (h : s.Done) (op : LookupOp) (hfits : op.Fits target s) :
    (op.next target s).Done := by
  cases op with
  | answer i table node nodes =>
      show (s.answer target i table node nodes).Done
      rw [Lookup.answer]
      split
      case h_1 => exact h
      case h_2 node' store hq =>
          obtain ⟨hupdate, hinsert⟩ := hfits _ hq
          have hok : ¬ (store && table.updateRaises node) = true := by
            intro hc
            obtain ⟨hs, hr⟩ := Bool.and_eq_true_iff.mp hc
            have := hupdate hs
            rw [hr] at this
            cases this
          dsimp only
          rw [if_neg hok]
          rw [if_pos (by rw [round_snd]; exact hinsert)]
          exact (h.ends hq).round hinsert
  | fail i =>
      show (s.fail i).Done
      rw [Lookup.fail]
      split
      case h_1 => exact h
      case h_2 q hq =>
          refine (h.ends hq).checkReady fun hnil => hfits ?_
          obtain ⟨hlt, -⟩ := List.getElem?_eq_some_iff.mp hq
          have := congrArg List.length hnil
          rw [List.length_eraseIdx_of_lt hlt, List.length_nil] at this
          omega

end Lookup

-- In every run whose operations meet the condition k is called once, when the
-- last query ends, and every node of its result was queried.
theorem lookup_done {target : RawId} {s : Lookup}
    (h : LookupReachable target (fun s op => op.Fits target s) s) :
    s.results.length = (if s.inflight = [] then 1 else 0) ∧
      ∀ result ∈ s.results, ∀ node ∈ result, node ∈ s.queried := by
  have hdone : s.Done := by
    refine Reach.inv ?_ (fun s op hs hfits => hs.next op hfits) h
    rintro s ⟨selfNodes, nodes, hs⟩
    exact Lookup.Open.start hs
  by_cases hnil : s.inflight = []
  · obtain ⟨hres, hall⟩ := hdone.ready hnil
    rw [hres, if_pos hnil]
    exact ⟨rfl, fun result hr => List.mem_singleton.mp hr ▸ hall⟩
  · rw [hdone.waiting hnil, if_neg hnil]
    exact ⟨rfl, fun result hr => absurd hr (List.not_mem_nil)⟩

-- Where all ids have 20 bytes update raises nothing.
def RawTree.Whole : RawTree → Prop
  | .leaf nodes => ∀ n ∈ nodes, n.1.length = 20
  | .node l mid r => mid.length = 20 ∧ l.Whole ∧ r.Whole

theorem cmp_whole {id1 id2 : RawId} (h1 : id1.length = 20) (h2 : id2.length = 20) :
    cmp id1 id2 = some (compare id1 id2) := by
  rw [cmp, h2s, h2s, if_pos h1, if_pos h2]
  rfl

theorem RawTree.Whole.compares {t : RawTree} (h : t.Whole) {node : Contact}
    (hnode : node.1.length = 20) : t.compares node = some () := by
  induction t with
  | leaf nodes =>
      rw [RawTree.compares]
      induction nodes with
      | nil => rfl
      | cons n nodes ih =>
          obtain ⟨hn, hnodes⟩ := List.forall_mem_cons.mp h
          rw [comparesNodes, cmp_whole hn hnode, Option.bind_eq_bind, Option.bind_some]
          split
          · rfl
          · exact ih hnodes
  | node l mid r ihl ihr =>
      obtain ⟨hmid, hl, hr⟩ := h
      rw [RawTree.compares, cmp_whole hnode hmid, Option.bind_eq_bind, Option.bind_some]
      split
      · exact ihr hr
      · exact ihl hl

theorem RawTable.updateRaises_whole {t : RawTable} (h : t.root.Whole) {node : Contact}
    (hnode : node.1.length = 20) : t.updateRaises node = false := by
  rw [RawTable.updateRaises, h.compares hnode]
  simp

-- The tables of Kademlia.Table have whole ids.
def rawId (id : Kademlia.Id) : RawId :=
  (List.range 20).map fun i => .ofNat (id.toNat / 256 ^ (19 - i))

def RawTree.of : Kademlia.Tree → RawTree
  | .leaf b => .leaf (b.nodes.map fun n => (rawId n.id, n.addr))
  | .node l mid r => .node (of l) (rawId mid) (of r)

theorem RawTree.whole_of (t : Kademlia.Tree) : (RawTree.of t).Whole := by
  have hlen : ∀ id, (rawId id).length = 20 := fun _ => by rw [rawId, List.length_map]; rfl
  induction t with
  | leaf b =>
      intro n hn
      obtain ⟨node, -, rfl⟩ := List.mem_map.mp hn
      exact hlen node.id
  | node l mid r ihl ihr => exact ⟨hlen mid, ihl, ihr⟩

theorem updateRaises_table (t : Kademlia.Table) {node : Contact} (hnode : node.1.length = 20) :
    RawTable.updateRaises ⟨.of t.root, rawId t.self⟩ node = false :=
  RawTable.updateRaises_whole (RawTree.whole_of t.root) hnode

def nullId : RawId := List.replicate 20 0

def contact (i : Nat) : Contact := (List.replicate 19 0 ++ [UInt8.ofNat i], ⟨0, i⟩)

def contacts (n : Nat) : List Contact := (List.range n).map contact

-- A table with nodes, which the nodes that answer are compared with
def someTable : RawTable := ⟨.leaf (contacts 2), List.replicate 20 255⟩

-- The search starts from a node that gives five others, of which three are queried. One of
-- them fails, and one gives a further node; the last query leaves none that is not queried.
theorem lookup_done_six :
    let s := [.answer 0 someTable (contact 9) (contacts 5), .fail 1,
      .answer 0 someTable (contact 0) [contact 6], .answer 0 someTable (contact 2) [], .fail 0,
      .fail 0, .fail 0].foldl (fun s op => LookupOp.next nullId op s)
      (Lookup.start nullId [] (some [contact 9])).1
    s.results.length = 1 ∧ ∀ result ∈ s.results, ∀ node ∈ result, node ∈ s.queried := by
  have hwhole : someTable.root.Whole := by
    show ∀ n ∈ contacts 2, n.1.length = 20
    decide
  have hanswer : ∀ {s : Lookup} (i : Nat) (node : Contact) (nodes : List Contact),
      LookupReachable nullId (fun s op => op.Fits nullId s) s → node.1.length = 20 →
      (Lookup.insertAll nullId nodes s.found).2 = true →
      LookupReachable nullId (fun s op => op.Fits nullId s)
        ((LookupOp.answer i someTable node nodes).next nullId s) :=
    fun _ _ _ hs hnode hinsert =>
      .step hs fun _ _ => ⟨fun _ => RawTable.updateRaises_whole hwhole hnode, hinsert⟩
  have hfail : ∀ {s : Lookup} (i : Nat), LookupReachable nullId (fun s op => op.Fits nullId s) s →
      (s.inflight.length = 1 → ∀ node ∈ s.found.elements, node ∈ s.queried) →
      LookupReachable nullId (fun s op => op.Fits nullId s) ((LookupOp.fail i).next nullId s) :=
    fun _ hs hfits => .step hs hfits
  have h0 : LookupReachable nullId (fun s op => op.Fits nullId s)
      (Lookup.start nullId [] (some [contact 9])).1 := .start ⟨[], some [contact 9], rfl⟩
  have h1 := hanswer 0 (contact 9) (contacts 5) h0 (by decide) (by decide)
  have h2 := hfail 1 h1 (by decide)
  have h3 := hanswer 0 (contact 0) [contact 6] h2 (by decide) (by decide)
  have h4 := hanswer 0 (contact 2) [] h3 (by decide) (by decide)
  have h5 := hfail 0 (hfail 0 h4 (by decide)) (by decide)
  have h6 := lookup_done (hfail 0 h5 (by decide))
  exact ⟨h6.1.trans (by decide), h6.2⟩

-- Of four nodes three are queried, and all three fail.
theorem lookup_done_false : ¬ ∀ target s, LookupReachable target (fun _ _ => True) s →
    s.results.length = (if s.inflight = [] then 1 else 0) ∧
      ∀ result ∈ s.results, ∀ node ∈ result, node ∈ s.queried := by
  intro h
  have hstart : Lookup.start nullId (contacts 4) none =
      ((Lookup.start nullId (contacts 4) none).1, true) := Prod.ext rfl (by decide)
  have hrun := (h nullId _ (Reach.foldl (.start ⟨contacts 4, none, hstart⟩)
    [LookupOp.fail 0, .fail 0, .fail 0] fun _ _ _ => trivial)).2
  exact absurd hrun (by decide)

end Mldonkey.Dht
