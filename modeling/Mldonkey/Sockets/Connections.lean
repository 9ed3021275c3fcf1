import Mathlib

-- The connection managers, the tokens and the scheduler of the pending connections.
namespace Mldonkey.TcpConnections

-- What a pending function does with its token: it opens a socket or not, closes it again or not
-- (as `connect` does when it fails), and raises or not.
structure ConnectFun where
  opens : Bool
  closes : Bool
  raises : Bool
  deriving DecidableEq

-- It raises and the token has not been used.
def ConnectFun.raisesBefore (f : ConnectFun) : Bool := f.raises && !f.opens

structure Token where
  tokenUsed : Bool
  connectionManager : ℕ

structure ConnectionManager where
  nestablishedConnections : ℤ
  nwaitingConnections : ℤ
  waitingConnections : List (ℕ × ConnectFun)

def newManager : ConnectionManager := ⟨0, 0, []⟩

-- The part of a socket that counts
structure T where
  token : ℕ
  closing : Bool

-- What happened, for the properties of runs; the code does not keep it. `ran` has the counters
-- and the limits of that moment.
inductive Event
  | ran (token : ℕ) (thisSecond perSecond opened maxWanted : ℤ)
  | processed (token : ℕ) (f : ConnectFun)
  | used (token : ℕ)
  | cancelled (token : ℕ)

-- Managers, tokens and sockets are numbered in the order in which they are made.
structure State where
  managers : ℕ → ConnectionManager
  nmanagers : ℕ
  tokens : ℕ → Token
  ntokens : ℕ
  sockets : ℕ → T
  nsockets : ℕ
  openedConnections : ℤ
  openedConnectionsThisSecond : ℤ
  history : List Event

namespace State

-- The manager "Unlimited" is there from the start.
def initial : State where
  managers _ := newManager
  nmanagers := 1
  tokens _ := ⟨false, 0⟩
  ntokens := 0
  sockets _ := ⟨0, true⟩
  nsockets := 0
  openedConnections := 0
  openedConnectionsThisSecond := 0
  history := []

def setManager (s : State) (m : ℕ) (cm : ConnectionManager) : State :=
  { s with managers := Function.update s.managers m cm }

def markUsed (s : State) (token : ℕ) : State :=
  { s with tokens := Function.update s.tokens token { s.tokens token with tokenUsed := true } }

def record (s : State) (e : Event) : State := { s with history := e :: s.history }

def createConnectionManager (s : State) : State :=
  { s.setManager s.nmanagers newManager with nmanagers := s.nmanagers + 1 }

def createToken (s : State) (manager : ℕ) : State :=
  { s with
    tokens := Function.update s.tokens s.ntokens ⟨false, manager⟩
    ntokens := s.ntokens + 1 }

def addPendingConnection (s : State) (manager : ℕ) (f : ConnectFun) : State :=
  let token := s.ntokens
  let s := s.createToken manager
  let cm := s.managers manager
  s.setManager manager { cm with
    waitingConnections := cm.waitingConnections ++ [(token, f)]
    nwaitingConnections := cm.nwaitingConnections + 1 }

def cancelToken (s : State) (token : ℕ) : State := (s.markUsed token).record (.cancelled token)

-- When the token was used before, the failure "Token already used" leaves all as it was.
def useToken (s : State) (token : ℕ) : Option State :=
  if (s.tokens token).tokenUsed then none
  else
    let s := s.markUsed token
    let manager := (s.tokens token).connectionManager
    let cm := s.managers manager
    let s := s.setManager manager
      { cm with nestablishedConnections := cm.nestablishedConnections + 1 }
    some ({ s with
      openedConnections := s.openedConnections + 1
      openedConnectionsThisSecond := s.openedConnectionsThisSecond + 1 }.record (.used token))

def create (s : State) (token : ℕ) : Option State :=
  (s.useToken token).map fun s => { s with
    sockets := Function.update s.sockets s.nsockets ⟨token, false⟩
    nsockets := s.nsockets + 1 }

def close (s : State) (sock : ℕ) : State :=
  if (s.sockets sock).closing then s
  else
    let manager := (s.tokens (s.sockets sock).token).connectionManager
    let cm := s.managers manager
    let s := s.setManager manager
      { cm with nestablishedConnections := cm.nestablishedConnections - 1 }
    { s with
      openedConnections := s.openedConnections - 1
      sockets := Function.update s.sockets sock { s.sockets sock with closing := true } }

-- For the counters a shutdown is a close.
def shutdown (s : State) (sock : ℕ) : State := s.close sock

def resetConnectionScheduler (s : State) : State := { s with openedConnectionsThisSecond := 0 }

-- The call `f token`, and whether it raises
def call (s : State) (f : ConnectFun) (token : ℕ) : State × Bool :=
  if f.opens then
    match s.create token with
    | none => (s, true)
    | some s' => (if f.closes then s'.close s.nsockets else s', f.raises)
  else (s, f.raises)

-- What the scheduler does after the call
def afterCall (token : ℕ) (f : ConnectFun) : State × Bool → State × Bool
  | (s, true) => (s.record (.processed token f), false)
  | (s, false) => ((s.markUsed token).record (.processed token f), true)

-- The body of the `try` in the scheduler: the connection that is taken, or that the queue was
-- empty or the call raised
def takeConnection (s : State) (maxWanted perSecond : ℤ) (manager : ℕ) : State × Bool :=
  let cm := s.managers manager
  match cm.waitingConnections with
  | [] => (s, false)
  | (token, f) :: waiting =>
    let s := s.setManager manager { cm with
      waitingConnections := waiting
      nwaitingConnections := cm.nwaitingConnections - 1 }
    if (s.tokens token).tokenUsed then
      ((s.markUsed token).record (.processed token f), true)
    else
      let s := s.record (.ran token s.openedConnectionsThisSecond perSecond
        s.openedConnections maxWanted)
      afterCall token f (s.call f token)

-- The loop of schedule_connections. Without fuel there is no result.
def iter (maxWanted perSecond : ℤ) : ℕ → List ℕ → List ℕ → State → Option State
  | 0, _, _, _ => none
  | _ + 1, [], [], s => some s
  | fuel + 1, [], done@(_ :: _), s => iter maxWanted perSecond fuel done [] s
  | fuel + 1, manager :: tail, done, s =>
    if s.openedConnectionsThisSecond < perSecond ∧ s.openedConnections < maxWanted then
      match s.takeConnection maxWanted perSecond manager with
      | (s, true) => iter maxWanted perSecond fuel tail (manager :: done) s
      | (s, false) => iter maxWanted perSecond fuel tail done s
    else iter maxWanted perSecond fuel tail done s

-- The newest manager is the first.
def connectionManagers (s : State) : List ℕ := (List.range s.nmanagers).reverse

def waiting (s : State) : ℕ :=
  ∑ m ∈ Finset.range s.nmanagers, (s.managers m).waitingConnections.length

-- Fuel that is always enough
def rounds (s : State) : ℕ := 2 * (s.waiting + s.nmanagers) + 1

def scheduleConnections (fuel : ℕ) (maxWanted perSecond : ℤ) (s : State) : Option State :=
  iter maxWanted perSecond fuel s.connectionManagers [] s

end State

inductive Op
  | createConnectionManager
  | createToken (manager : ℕ)
  | addPendingConnection (manager : ℕ) (f : ConnectFun)
  | cancelToken (token : ℕ)
  | create (token : ℕ)
  | scheduleConnections (maxWanted perSecond : ℤ)
  | resetConnectionScheduler
  | close (sock : ℕ)
  | shutdown (sock : ℕ)

def step : Op → State → State
  | .createConnectionManager, s => s.createConnectionManager
  | .createToken manager, s => s.createToken manager
  | .addPendingConnection manager f, s => s.addPendingConnection manager f
  | .cancelToken token, s => s.cancelToken token
  | .create token, s => (s.create token).getD s
  | .scheduleConnections maxWanted perSecond, s =>
    (s.scheduleConnections s.rounds maxWanted perSecond).getD s
  | .resetConnectionScheduler, s => s.resetConnectionScheduler
  | .close sock, s => s.close sock
  | .shutdown sock, s => s.shutdown sock

-- Operations get managers, tokens and sockets that have been made.
def Known (s : State) : Op → Prop
  | .createToken manager => manager < s.nmanagers
  | .addPendingConnection manager _ => manager < s.nmanagers
  | .cancelToken token => token < s.ntokens
  | .create token => token < s.ntokens
  | .close sock => sock < s.nsockets
  | .shutdown sock => sock < s.nsockets
  | _ => True

end Mldonkey.TcpConnections
