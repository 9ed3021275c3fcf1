import Mldonkey.Sources.World

-- The choice of the sources to connect to, and the operations of the source
-- manager.
namespace Mldonkey.Sources

open Queues (Queue)

variable {σ μ : Type} [DecidableEq σ] [DecidableEq μ] (compare : σ → σ → Ordering)

-- The head of a nonempty queue.
def headOf (w : World σ μ) (m : μ) (q : Nat) : Option (Int × σ) :=
  let queue := (w.manager m).sources q
  if 0 < queue.length then queue.head else none

section Refill

variable (env : Env σ μ)

-- A source that is to be connected. Whether it is direct decides where it goes,
-- and whether it counts.
def takeSource (s : σ) (w : World σ μ) : World σ μ :=
  let w := sourceConnecting compare s w
  if env.directSource s then { w with nextDirect := w.nextDirect ++ [s] }
  else { w with nextIndirect := s :: w.nextIndirect }

-- At most one source from old_sources3_queue.
def toTake (queue : Nat) (nsource : Int) : Int :=
  if oldSources3Queue ≤ queue then min 1 nsource else nsource

-- The number of sources taken, from `queue` and those behind it. Every call takes a
-- source, goes on to the next queue or lowers nsource to 1 or 0.
def getSources (m : μ) : Nat → Int → Nat → Int → World σ μ → Int × World σ μ
  | 0, _, _, took, w => (took, w)
  | fuel + 1, nsource, queue, took, w =>
      if doNotTryQueue ≤ queue ∨ nsource ≤ 0 then (took, w)
      else
        match headOf w m queue with
        | some (time, s) =>
            let throttled := env.throttled w queue
            let delay := env.throttleDelay w m queue (throttled && 1 < nsource)
            if time + w.delay + delay < w.now then
              let direct := env.directSource s
              getSources m fuel (if direct then nsource - 1 else nsource) queue
                (if direct then took + 1 else took) (takeSource compare env s w)
            else if throttled then
              getSources m fuel (if nsource = 1 then 0 else 1) queue took w
            else getSources m fuel (toTake (queue + 1) nsource) (queue + 1) took w
        | none => getSources m fuel (toTake (queue + 1) nsource) (queue + 1) took w

-- A bound on the calls of get_sources for a manager.
def getSourcesFuel (m : μ) (w : World σ μ) : Nat := (allSources m w).length + 3 * nqueues

def getSourcesOf (m : μ) (nsource : Int) (w : World σ μ) : Int × World σ μ :=
  getSources compare env m (getSourcesFuel m w) nsource goodSourcesQueue 0 w

def trySomeNewSources (w : World σ μ) : Int × World σ μ :=
  w.managers.foldl
    (fun p m =>
      match headOf p.2 m newSourcesQueue with
      | some (_, s) =>
          if env.downloading m then
            (if env.directSource s then p.1 + 1 else p.1, takeSource compare env s p.2)
          else p
      | none => p)
    (0, w)

def removeOld (m : μ) (queue : Nat) (t : Int) (w : World σ μ) : World σ μ :=
  match headOf w m queue with
  | some (time, s) => if time + t < w.now then removeFromQueue compare s m w else w
  | none => w

def cleanupSomeOldSources (w : World σ μ) : World σ μ :=
  w.managers.foldl
    (fun w m =>
      if env.downloading m then
        removeOld compare m oldSources2Queue 1200
          (removeOld compare m oldSources3Queue 2400 (removeOld compare m doNotTryQueue 14400 w))
      else w)
    w

-- The files that are left to do, up to nsources. The third component tells
-- whether the list was done.
def fillFiles : List (μ × Int) → Int → World σ μ → Int × World σ μ × Bool
  | [], assigned, w => (assigned, w, true)
  | (m, share) :: todo, assigned, w =>
      if env.nsources ≤ assigned then (assigned, w, false)
      else
        let (took, w) := getSourcesOf compare env m share w
        fillFiles todo (assigned + took) w

def iterFiles : Nat → Int → World σ μ → World σ μ
  | looped, assigned, w =>
      let (extr, w) := trySomeNewSources compare env w
      let (assigned, w, done) := fillFiles compare env env.shares (assigned + extr) w
      let w := cleanupSomeOldSources compare env w
      if done ∧ assigned < env.nsources then
        let (em, w) :=
          match env.overloaded w with
          | some m => getSourcesOf compare env m 10 w
          | none => (0, w)
        match looped with
        | 0 => w
        | looped + 1 => iterFiles looped (assigned + em) w
      else w

def refillSources (w : World σ μ) : World σ μ :=
  if env.shares = [] then w else iterFiles compare env 3 0 w

end Refill

section Connect

variable (env : Env σ μ)

-- The connections that were attempted more than two minutes ago are revoked.
def revokeConnecting : List (Int × σ) → World σ μ → World σ μ
  | [], w => w
  | (time, s) :: rest, w =>
      if time ≠ (w.source s).lastAttempt then
        revokeConnecting rest { w with connecting := rest }
      else if time + 120 < w.now then
        let w := { w with connecting := rest }
        revokeConnecting rest
          (if (w.source s).lastAttempt ≠ 0 then sourceDisconnected compare env s w else w)
      else w

def connectSource (s : σ) (w : World σ μ) : World σ μ :=
  let w := w.setSource s fun x => { x with score := x.score + 1 }
  if (w.source s).sock = .noConnection ∧ env.connects w s then
    w.setSource s fun x => { x with sock := .connectionWaiting }
  else w

-- One query for each element; the bound is their number.
def queryConnected (m : μ) : Nat → World σ μ → World σ μ
  | 0, w => w
  | fuel + 1, w =>
      match headOf w m connectedSourcesQueue with
      | some (time, s) =>
          if time + w.delay < w.now then queryConnected m fuel (sourceQuery compare env s m w) else w
      | none => w

def connectDirect : Nat → Nat → World σ μ → Nat × World σ μ
  | 0, nsources, w => (nsources, w)
  | fuel + 1, nsources, w =>
      if nsources = 0 ∨ ¬env.canOpen w then (nsources, w)
      else
        match w.nextDirect with
        | [] => (nsources, w)
        | s :: rest =>
            let w := connectSource env s { w with nextDirect := rest }
            connectDirect fuel
              (if (w.source s).sock = .noConnection then nsources else nsources - 1) w

def connectSources (w : World σ μ) : World σ μ :=
  let w := revokeConnecting compare env w.connecting w
  let first := w.nextIndirect.take env.maxConnections
  let w := { w with nextIndirect := w.nextIndirect.drop env.maxConnections }
  let w := first.foldl (fun w s => connectSource env s w) w
  let w := w.managers.foldl
    (fun w m =>
      if env.downloading m then
        queryConnected compare env m ((w.manager m).sources connectedSourcesQueue).toList.length w
      else w)
    w
  let (nsources, w) := connectDirect env w.nextDirect.length env.maxConnections w
  if 0 < nsources ∧ env.canOpen w then
    let w := refillSources compare env w
    (connectDirect env w.nextDirect.length nsources w).2
  else w

end Connect

inductive Op (σ μ : Type)
  -- the time, and the option
  | clock (now delay : Int)
  | createManager (m : μ)
  -- a connection is opened, waited for or lost
  | socket (s : σ) (sock : Sock)
  | loadSource (s : σ) (score : Int)
  | addRequest (s : σ) (m : μ) (time : Int)
  | setRequestResult (s : σ) (m : μ) (result : RequestResult)
  | reschedule (saved : Bool) (s : σ) (m : μ)
  | sourceConnected (s : σ) (env : Env σ μ)
  | sourceDisconnected (s : σ) (env : Env σ μ)
  | queryFile (s : σ) (m : μ) (env : Env σ μ)
  | refillSources (env : Env σ μ)
  | connectSources (env : Env σ μ)
  | addSavedSourceRequest (s : σ) (m : μ) (score time : Int)
  | removeFileSourcesManager (m : μ)

def Op.next (op : Op σ μ) (w : World σ μ) : World σ μ :=
  match op with
  | clock now delay => { w with now := now, delay := delay }
  | createManager m => if m ∈ w.managers then w else { w with managers := m :: w.managers }
  | socket s sock => w.setSource s fun x => { x with sock := sock }
  | loadSource s score => w.setSource s fun x => { x with score := score }
  | addRequest s m time => Sources.addRequest compare s m time w
  | setRequestResult s m result => Sources.setRequestResult compare s m result w
  | reschedule saved s m => rescheduleSourceForFile compare saved s m w
  | sourceConnected s env => Sources.sourceConnected compare env s w
  | sourceDisconnected s env => Sources.sourceDisconnected compare env s w
  | queryFile s m env => Sources.queryFile compare env s m w
  | refillSources env => Sources.refillSources compare env w
  | connectSources env => Sources.connectSources compare env w
  | addSavedSourceRequest s m score time =>
      Sources.addSavedSourceRequest compare s m score time w
  | removeFileSourcesManager m => Sources.removeFileSourcesManager m w

end Mldonkey.Sources
