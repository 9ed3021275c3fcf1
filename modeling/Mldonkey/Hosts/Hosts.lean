import Mathlib

-- The hosts that a network knows, and the queues in which they wait.
namespace Mldonkey.CommonHosts

inductive HostKind
  | peer
  | ultrapeer
  | indexServer
  deriving DecidableEq

-- The queues of hosts are those of `Queues.fifo`, `Queues.lifo` and `Queues.workflow`, of which
-- the last one delays a time.
inductive QueueKind
  | fifo
  | lifo
  | workflow (delayed : ℤ → ℤ → Bool)

-- Hosts are references, with the time at which they were put in the queue.
structure Queue where
  kind : QueueKind
  fifo : List (ℤ × ℕ)
  lifo : List (ℤ × ℕ)

namespace Queue

def put (q : Queue) (x : ℤ × ℕ) : Queue :=
  match q.kind with
  | .fifo => { q with fifo := q.fifo ++ [x] }
  | .lifo => { q with lifo := x :: q.lifo }
  | .workflow _ =>
    if x.1 = 0 then { q with lifo := x :: q.lifo } else { q with fifo := q.fifo ++ [x] }

def takeFifo (q : Queue) : Option ((ℤ × ℕ) × Queue) :=
  match q.fifo with
  | [] => none
  | x :: fifo => some (x, { q with fifo := fifo })

def takeLifo (q : Queue) : Option ((ℤ × ℕ) × Queue) :=
  match q.lifo with
  | [] => none
  | x :: lifo => some (x, { q with lifo := lifo })

-- None stands for the exceptions Fifo.Empty and Not_found.
def take (now : ℤ) (q : Queue) : Option ((ℤ × ℕ) × Queue) :=
  match q.kind with
  | .fifo => q.takeFifo
  | .lifo => q.takeLifo
  | .workflow delayed =>
    match q.takeLifo with
    | some taken => some taken
    | none =>
      match q.takeFifo with
      | some taken => if delayed now taken.1.1 then none else some taken
      | none => none

def refs (q : Queue) : List ℕ := (q.lifo ++ q.fifo).map Prod.snd

end Queue

-- The queue that inspects every host each two minutes
def twoMinutes (now time : ℤ) : Bool := now < time + 120

variable {κ ρ : Type} [DecidableEq κ] [DecidableEq ρ]

-- `hostAddr` is the ip with the port. `overLimit` tells whether the host was added when its kind
-- had reached its limit; the code does not keep it.
structure Host (κ ρ : Type) where
  hostAddr : κ
  hostObsolete : ℤ
  hostRequests : List (ρ × ℤ)
  hostKind : HostKind
  hostQueues : List ℕ
  overLimit : Bool

-- What a network gives: the requests with their delays and queues, and those of a new host
structure Network (ρ : Type) where
  requests : List (ρ × ℤ × (HostKind → List ℕ))
  defaultRequests : HostKind → List (ρ × ℤ)

-- What the user sets
structure Limits where
  maxUltrapeers : ℤ
  maxPeers : ℤ

-- The queue 0 is the workflow. `removedBelow` counts the hosts that were removed and had not been
-- added over the limit; the code does not keep it.
structure State (κ ρ : Type) where
  hosts : ℕ → Host κ ρ
  fresh : ℕ
  hostsByKey : List (κ × ℕ)
  queues : ℕ → Queue
  counter : HostKind → ℤ
  pressure : HostKind → ℤ
  removedBelow : HostKind → ℕ

def Limits.maxHosts (l : Limits) : HostKind → ℤ
  | .ultrapeer => l.maxUltrapeers
  | .indexServer => 2 ^ 62 - 1
  | .peer => l.maxPeers

namespace State

variable (s : State κ ρ)

-- `magic` is what the memory holds before.
def initial (magic : ℕ → Host κ ρ) (kinds : ℕ → QueueKind) : State κ ρ where
  hosts := fun r => { magic r with hostQueues := [] }
  fresh := 0
  hostsByKey := []
  queues q := ⟨if q = 0 then .workflow twoMinutes else kinds q, [], []⟩
  counter _ := 0
  pressure _ := 0
  removedBelow _ := 0

def setHost (r : ℕ) (h : Host κ ρ) : State κ ρ :=
  { s with hosts := Function.update s.hosts r h }

def hostQueueAdd (q r : ℕ) (time : ℤ) : State κ ρ :=
  let h := s.hosts r
  if q ∈ h.hostQueues then s
  else
    { s.setHost r { h with hostQueues := q :: h.hostQueues } with
      queues := Function.update s.queues q ((s.queues q).put (time, r)) }

-- List2.removeq takes all occurrences.
def hostQueueTake (now : ℤ) (q : ℕ) : Option (ℕ × State κ ρ) :=
  match (s.queues q).take now with
  | none => none
  | some ((_, r), queue) =>
    let s := { s with queues := Function.update s.queues q queue }
    let h := s.hosts r
    if q ∈ h.hostQueues then
      some (r, s.setHost r { h with hostQueues := h.hostQueues.filter (· ≠ q) })
    else some (r, s)

def newHost (net : Network ρ) (l : Limits) (key : κ) (kind : HostKind) : State κ ρ :=
  match s.hostsByKey.lookup key with
  | some r => s.setHost r { s.hosts r with hostObsolete := 0 }
  | none =>
    let full := decide (l.maxHosts kind ≤ s.counter kind)
    let host := {
      hostAddr := key
      hostObsolete := 0
      hostRequests := net.defaultRequests kind
      hostKind := kind
      hostQueues := []
      overLimit := full }
    let s' := { s.setHost s.fresh host with
      fresh := s.fresh + 1
      counter := Function.update s.counter kind (s.counter kind + 1)
      hostsByKey := (key, s.fresh) :: s.hostsByKey
      pressure := if full then Function.update s.pressure kind (s.pressure kind + 1)
        else s.pressure }
    s'.hostQueueAdd 0 s.fresh 0

def setRequestRec (now : ℤ) (list : List (ρ × ℤ)) (r : ρ) (tail : List (ρ × ℤ)) : List (ρ × ℤ) :=
  match list with
  | [] => (r, now) :: tail
  | rr :: rem =>
    if rr.1 = r then (r, now) :: (tail ++ rem) else setRequestRec now rem r (rr :: tail)

def setRequest (now : ℤ) (r : ℕ) (request : ρ) : State κ ρ :=
  let h := s.hosts r
  s.setHost r { h with hostRequests := setRequestRec now h.hostRequests request [] }

-- The products are those of integers of 63 bits.
def underPressure (l : Limits) (kind : HostKind) : Bool :=
  s.pressure kind ≠ 0 || l.maxHosts kind < ((s.counter kind * 110).bmod (2 ^ 63)).tdiv 100

def underMuchPressure (l : Limits) (kind : HostKind) : Bool :=
  (2 * l.maxHosts kind).bmod (2 ^ 63) < s.counter kind

-- The part of manage_host that puts a host in the queues of the requests that are due
def dispatch (net : Network ρ) (now : ℤ) (r : ℕ) : State κ ρ :=
  (s.hosts r).hostRequests.foldl (fun s (request, last) =>
    match net.requests.lookup request with
    | none => s
    | some (delay, f) =>
      if last + delay < now then
        (f (s.hosts r).hostKind).foldl (fun s queue => s.hostQueueAdd queue r now) s
      else s) s

-- A host that stays whatever happens to its queues
def kept (l : Limits) (r : ℕ) : Bool :=
  let h := s.hosts r
  (!s.underPressure l h.hostKind || h.hostObsolete = 0) && !s.underMuchPressure l h.hostKind

-- Hashtbl.remove takes the newest binding of the key. The function `host_on_remove` is outside.
def removeHost (r : ℕ) : State κ ρ :=
  let h := s.hosts r
  { s with
    counter := Function.update s.counter h.hostKind (s.counter h.hostKind - 1)
    pressure := Function.update s.pressure h.hostKind (s.pressure h.hostKind - 1)
    hostsByKey := s.hostsByKey.eraseP fun b => b.1 = h.hostAddr
    removedBelow := if h.overLimit then s.removedBelow
      else Function.update s.removedBelow h.hostKind (s.removedBelow h.hostKind + 1) }

def manageHost (net : Network ρ) (l : Limits) (now : ℤ) (r : ℕ) : State κ ρ :=
  if s.kept l r then (s.hostQueueAdd 0 r now).dispatch net now r
  else if (s.hosts r).hostQueues ≠ [] then s.hostQueueAdd 0 r now
  else s.removeHost r

-- One turn of the loop of manage_hosts. None stands for the exception that ends the loop.
def manageTurn (net : Network ρ) (l : Limits) (now : ℤ) : Option (State κ ρ) :=
  match s.hostQueueTake now 0 with
  | none => none
  | some (r, s) => some (s.manageHost net l now r)

-- Without fuel there is no result.
def manageHosts (net : Network ρ) (l : Limits) (now : ℤ) : ℕ → State κ ρ → Option (State κ ρ)
  | 0, _ => none
  | fuel + 1, s =>
    match s.manageTurn net l now with
    | none => some s
    | some s => manageHosts net l now fuel s

def tryConnect (now : ℤ) (r : ℕ) : State κ ρ :=
  let h := s.hosts r
  if h.hostObsolete = 0 then s.setHost r { h with hostObsolete := now + 60 } else s

def connected (r : ℕ) : State κ ρ := s.setHost r { s.hosts r with hostObsolete := 0 }

end State

-- `manageTurn` is one turn of manage_hosts, so that a run of manage_hosts is a run of these.
inductive Op (κ ρ : Type)
  | newHost (l : Limits) (key : κ) (kind : HostKind)
  | hostQueueAdd (q r : ℕ) (time : ℤ)
  | hostQueueTake (now : ℤ) (q : ℕ)
  | tryConnect (now : ℤ) (r : ℕ)
  | connected (r : ℕ)
  | setRequest (now : ℤ) (r : ℕ) (request : ρ)
  | manageTurn (l : Limits) (now : ℤ)

def step (net : Network ρ) : Op κ ρ → State κ ρ → State κ ρ
  | .newHost l key kind, s => s.newHost net l key kind
  | .hostQueueAdd q r time, s => s.hostQueueAdd q r time
  | .hostQueueTake now q, s => ((s.hostQueueTake now q).map Prod.snd).getD s
  | .tryConnect now r, s => s.tryConnect now r
  | .connected r, s => s.connected r
  | .setRequest now r request, s => s.setRequest now r request
  | .manageTurn l now, s => (s.manageTurn net l now).getD s

-- Callers name hosts that have been made. The workflow queue is for the hosts of the table, and
-- only manage_hosts takes from it.
def Known (s : State κ ρ) : Op κ ρ → Prop
  | .hostQueueAdd q r _ => r < s.fresh ∧ (q = 0 → ∃ b ∈ s.hostsByKey, b.2 = r)
  | .hostQueueTake _ q => q ≠ 0
  | .tryConnect _ r => r < s.fresh
  | .connected r => r < s.fresh
  | .setRequest _ r _ => r < s.fresh
  | _ => True

end Mldonkey.CommonHosts
