import Mldonkey.Lib.Runs
import Mathlib.Data.List.Nodup

namespace Mldonkey.Kademlia

open Runs

def bucketNodes : Nat := 8

def nodePeriod : Int := 15 * 60

-- Hashes are strings of 20 bytes. String.compare orders strings of one length
-- as the big-endian numbers that they spell, and h2n and n2h pass between the two.
abbrev Id := BitVec 160

structure Addr where
  ip : BitVec 32
  port : Int
  deriving DecidableEq, Repr

inductive Status
  | good
  | bad
  | unknown
  | pinged
  deriving DecidableEq, Repr

-- `ref` is the identity of the mutable record, which callbacks of pings hold.
structure Node where
  ref : Nat
  id : Id
  addr : Addr
  last : Int
  status : Status
  deriving DecidableEq, Repr

structure Bucket where
  lo : Id
  hi : Id
  lastChange : Int
  nodes : List Node
  deriving DecidableEq, Repr

inductive Tree
  | leaf (b : Bucket)
  | node (l : Tree) (mid : Id) (r : Tree)
  deriving DecidableEq, Repr

-- `fresh` numbers the records that make_node allocates.
structure Table where
  root : Tree
  self : Id
  fresh : Nat
  deriving DecidableEq, Repr

-- boundaries inclusive
def inside (b : Bucket) (hash : Id) : Bool := ¬ (hash < b.lo ∨ b.hi < hash)

def split (lo hi : Id) : Id := BitVec.ofNat 160 ((lo.toNat + hi.toNat) / 2)

def succ (h : Id) : Id := BitVec.ofNat 160 (h.toNat + 1)

def distance (h1 h2 : Id) : Nat := (h1 ^^^ h2).toNat

def Node.mark (n : Node) (now : Int) (st : Status) : Node := { n with last := now, status := st }

def Bucket.touch (b : Bucket) (now : Int) : Bucket := { b with lastChange := now }

-- A descent of `loop` ends in a leaf. Either it raises Nothing, having changed
-- the leaf in place and pinged some nodes, or it returns a new subtree.
inductive Pass
  | nothing (b : Bucket) (unk : List Node)
  | new (t : Tree)

namespace Tree

def leaves : Tree → List Bucket
  | leaf b => [b]
  | node l _ r => l.leaves ++ r.leaves

def leafAt (id : Id) : Tree → Bucket
  | leaf b => b
  | node l mid r => if id ≤ mid then l.leafAt id else r.leafAt id

-- The second component tells that Nothing was raised, in which leaf and with
-- which nodes pinged.
def loop (id : Id) (step : Bucket → Pass) : Tree → Tree × Option (Bucket × List Node)
  | leaf b =>
      match step b with
      | .nothing b' unk => (leaf b', some (b', unk))
      | .new t => (t, none)
  | node l mid r =>
      if id ≤ mid then (node (l.loop id step).1 mid r, (l.loop id step).2)
      else (node l mid (r.loop id step).1, (r.loop id step).2)

-- loop until no new splits
def passes (id : Id) (step : Bucket → Pass) : Nat → Tree → Tree × Option (Bucket × List Node)
  | 0, t => (t, none)
  | fuel + 1, t =>
      match t.loop id step with
      | (t', none) => passes id step fuel t'
      | (t', some r) => (t', some r)

def mapLeaves (f : Bucket → Bucket) : Tree → Tree
  | leaf b => leaf (f b)
  | node l mid r => node (l.mapLeaves f) mid (r.mapLeaves f)

def mapNodes (f : Node → Node) (t : Tree) : Tree :=
  t.mapLeaves fun b => { b with nodes := b.nodes.map f }

end Tree

-- A bucket of the whole id space is split at most 152 times on one path.
def splitFuel : Nat := 161

-- The two buckets of a split; `change` gives their last_change.
def splitBucket (change : List Node → Int) (b : Bucket) : Tree :=
  let mid := split b.lo b.hi
  let (nodes1, nodes2) := b.nodes.partition fun n => n.id < mid
  .node (.leaf { lo := b.lo, hi := mid, lastChange := change nodes1, nodes := nodes1 }) mid
    (.leaf { lo := succ mid, hi := b.hi, lastChange := change nodes2, nodes := nodes2 })

def splittable (self : Id) (b : Bucket) : Bool := inside b self && decide (256 < distance b.lo b.hi)

-- The first loop of update over a bucket: the first node with the id or the
-- address is marked when it has both and replaced when it has one of them.
def refreshNodes (now : Int) (st : Status) (new : Node) : List Node → Option (List Node)
  | [] => none
  | n :: ns =>
      if n.id = new.id ∧ n.addr = new.addr then some (n.mark now st :: ns)
      else if n.id = new.id ∨ n.addr = new.addr then some (new :: ns)
      else (refreshNodes now st new ns).map (n :: ·)

def Node.expire (n : Node) (now : Int) : Node :=
  if n.status = .good ∧ now - n.last > nodePeriod then n.mark now .unknown else n

-- The second loop over a full bucket: the first bad node is replaced, good
-- nodes not heard of for long become unknown on the way.
def replaceBad (now : Int) (new : Node) : List Node → List Node × Bool
  | [] => ([], false)
  | n :: ns =>
      let n := n.expire now
      if n.status = .bad ∨ n.status = .pinged ∧ now - n.last > nodePeriod then (new :: ns, true)
      else (n :: (replaceBad now new ns).1, (replaceBad now new ns).2)

def updateLeaf (now : Int) (self : Id) (st : Status) (new : Node) (b : Bucket) : Pass :=
  match refreshNodes now st new b.nodes with
  | some nodes => .nothing ({ b with nodes := nodes }.touch now) []
  | none =>
      if b.nodes.length ≠ bucketNodes then
        .nothing ({ b with nodes := new :: b.nodes }.touch now) []
      else
        match replaceBad now new b.nodes with
        | (nodes, true) => .nothing ({ b with nodes := nodes }.touch now) []
        | (nodes, false) =>
            match (nodes.filter (·.status = .unknown)).reverse with
            | [] =>
                if splittable self b then .new (splitBucket (fun _ => b.lastChange) { b with nodes })
                else .nothing { b with nodes } []
            | unk =>
                .nothing { b with
                  nodes := nodes.map fun n => if n.status = .unknown then n.mark now .pinged else n }
                  unk

def insertLeaf (self : Id) (new : Node) (b : Bucket) : Pass :=
  if b.nodes.any fun n => n.id = new.id ∨ n.addr = new.addr then .nothing b []
  else if b.nodes.length ≠ bucketNodes then .nothing { b with nodes := new :: b.nodes } []
  else if splittable self b then
    .new (splitBucket (fun ns => ns.foldl (fun acc n => max acc n.last) 0) b)
  else .nothing b []

namespace Table

def makeNode (t : Table) (now : Int) (st : Status) (id : Id) (data : Addr) : Node :=
  { ref := t.fresh, id := id, addr := data, last := now, status := st }

-- The table after update, with the leaf and the nodes that were pinged.
def update (t : Table) (now : Int) (st : Status) (id : Id) (data : Addr) :
    Table × Option (Bucket × List Node) :=
  if id = t.self then (t, none)
  else
    let r := t.root.passes id (updateLeaf now t.self st (t.makeNode now st id data)) splitFuel
    ({ t with root := r.1, fresh := t.fresh + 1 }, r.2)

def insertNode (t : Table) (node : Node) : Table :=
  { t with root := (t.root.passes node.id (insertLeaf t.self node) splitFuel).1 }

def allNodes (t : Table) : List Node :=
  let rec loop (acc : List Node) : Tree → List Node
    | .node l _ r => loop (loop acc l) r
    | .leaf b => b.nodes ++ acc
  loop [] t.root

-- `chooseRandom` is the random choice of an id between two bounds.
def refresh (t : Table) (now : Int) (chooseRandom : Id → Id → Id) :
    List (Id × List (Id × Addr)) :=
  let expire := now - nodePeriod
  let rec loop (acc : List (Id × List (Id × Addr))) : Tree → List (Id × List (Id × Addr))
    | .node l _ r => loop (loop acc l) r
    | .leaf b =>
        if b.lastChange < expire ∧ b.nodes.any (·.status ≠ .bad) then
          (chooseRandom b.lo b.hi, b.nodes.map fun n => (n.id, n.addr)) :: acc
        else acc
  loop [] t.root

-- All branches that are left aside end in the nodes of the leaf alone.
def findNode (t : Table) (h : Id) : List Node := (t.root.leafAt h).nodes

-- `now` is the clock and `self` the random id.
def create (now : Int) (self : Id) : Table :=
  { root := .leaf { lo := 0, hi := BitVec.allOnes 160, lastChange := now, nodes := [] },
    self := self, fresh := 0 }

end Table

-- The closure that the pings of one call of update share: how many of them are
-- not answered yet, the leaf, and what is tried again then.
structure Retry where
  count : Int
  lo : Id
  hi : Id
  st : Status
  id : Id
  addr : Addr
  deriving DecidableEq, Repr

structure State where
  table : Table
  retries : List Retry
  deriving DecidableEq, Repr

namespace State

def update (s : State) (now : Int) (st : Status) (id : Id) (data : Addr) : State :=
  match s.table.update now st id data with
  | (t, some (b, n :: unk)) =>
      { table := t, retries := s.retries ++
          [{ count := (n :: unk).length, lo := b.lo, hi := b.hi, st := st, id := id, addr := data }] }
  | (t, _) => { s with table := t }

def insertNode (s : State) (node : Node) : State := { s with table := s.table.insertNode node }

def mark (s : State) (ref : Nat) (now : Int) (st : Status) : State :=
  { s with table := { s.table with
      root := s.table.root.mapNodes fun n => if n.ref = ref then n.mark now st else n } }

def touch (s : State) (lo hi : Id) (now : Int) : State :=
  { s with table := { s.table with
      root := s.table.root.mapLeaves fun b => if b.lo = lo ∧ b.hi = hi then b.touch now else b } }

def answered (s : State) (now : Int) (k : Nat) (r : Retry) (ref : Nat) (res : Bool) : State :=
  { s with retries := s.retries.set k { r with count := r.count - 1 } }.mark ref now
    (if res then .good else .bad)

-- The answer to a ping, or that there was none: the callback of node `ref` in
-- the closure `k`.
def answer (s : State) (now : Int) (k : Nat) (ref : Nat) (res : Bool) : State :=
  match s.retries[k]? with
  | none => s
  | some r =>
      if r.count - 1 = 0 then
        ((s.answered now k r ref res).touch r.lo r.hi now).update now r.st r.id r.addr
      else s.answered now k r ref res

end State

inductive Op
  | update (now : Int) (st : Status) (id : Id) (data : Addr)
  | insertNode (node : Node)
  | refresh (now : Int)
  | answer (now : Int) (k : Nat) (ref : Nat) (res : Bool)

def Op.next : Op → State → State
  | update now st id data, s => s.update now st id data
  | insertNode node, s => s.insertNode node
  | refresh _, s => s
  | answer now k ref res, s => s.answer now k ref res

def Start (s : State) : Prop := ∃ now self, s = { table := .create now self, retries := [] }

-- The states that runs reach whose operations all meet the condition `ok`.
def Reachable (ok : State → Op → Prop) : State → Prop := Reach Op.next Start ok

end Mldonkey.Kademlia
