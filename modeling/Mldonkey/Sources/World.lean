import Mathlib.Logic.Function.Basic
import Mldonkey.Queues.Queue

-- The sources of the files that are downloaded, in the queues of their managers.
namespace Mldonkey.Sources

open Queues (Queue)

inductive RequestResult
  | filePossible
  | fileNotFound
  | fileNewSource
  | fileFound
  | fileChunk
  | fileUpload
  deriving DecidableEq, Repr

def notFoundScore : Int := -5
def possibleScore : Int := -3
def newSourceScore : Int := 1
def foundScore : Int := 3
def chunkScore : Int := 5
def uploadScore : Int := 7
def initialNewSourceScore : Int := 10

def newSourcesQueue : Nat := 0
def goodSourcesQueue : Nat := 1
def readySavedSourcesQueue : Nat := 2
def waitingSavedSourcesQueue : Nat := 3
def oldSources1Queue : Nat := 4
def oldSources2Queue : Nat := 5
def oldSources3Queue : Nat := 6
def doNotTryQueue : Nat := 7
def connectedSourcesQueue : Nat := 8
def connectingSourcesQueue : Nat := 9
def busySourcesQueue : Nat := 10

def nqueues : Nat := 11

def activeQueue (q : Nat) : Bool := connectedSourcesQueue ≤ q && q ≤ busySourcesQueue

-- source_sock, without the socket or the token in it.
inductive Sock
  | noConnection
  | connectionWaiting
  | connection
  deriving DecidableEq, Repr

-- Without a queue the request is in outside_queue.
structure Request (μ : Type) where
  file : μ
  queue : Option Nat
  time : Int
  score : Int

structure Source (μ : Type) where
  files : List (Request μ)
  score : Int
  lastAttempt : Int
  sock : Sock

structure Manager (σ : Type) where
  sources : Nat → Queue σ
  active : Int
  all : Int

-- What function_query was called for, with the score at that time.
structure Ask (σ μ : Type) where
  source : σ
  file : μ
  score : Int

-- The sources, of which sources_by_uid holds one for each uid, the managers, and
-- the global tables; `delay` is min_reask_delay.
structure World (σ μ : Type) where
  source : σ → Source μ
  manager : μ → Manager σ
  managers : List μ
  connecting : List (Int × σ)
  nextDirect : List σ
  nextIndirect : List σ
  asked : List (Ask σ μ)
  now : Int
  delay : Int

variable {σ μ : Type} [DecidableEq σ] [DecidableEq μ]

def createQueues (q : Nat) : Queue σ :=
  .create (if q = newSourcesQueue ∨ q = readySavedSourcesQueue then .oldestLast else .oldestFirst)

def World.start (now delay : Int) : World σ μ where
  source _ := ⟨[], 0, 0, .noConnection⟩
  manager _ := ⟨createQueues, 0, 0⟩
  managers := []
  connecting := []
  nextDirect := []
  nextIndirect := []
  asked := []
  now := now
  delay := delay

-- What the operations ask of the rest of the program, and what it does when they
-- call it.
structure Env (σ μ : Type) where
  -- file_state (manager_file ()) = FileDownloading
  downloading : μ → Bool
  -- function_query comes to the add_request at its end
  sends : World σ μ → σ → μ → Bool
  -- closing the socket disconnects the client
  closes : World σ μ → σ → Bool
  -- function_connect adds a pending connection
  connects : World σ μ → σ → Bool
  canOpen : World σ μ → Bool
  maxConnections : Nat
  directSource : σ → Bool
  -- queue_period is above 0
  throttled : World σ μ → Nat → Bool
  throttleDelay : World σ μ → μ → Nat → Bool → Int
  nsources : Int
  -- the files by priority, with the number of sources to take for each
  shares : List (μ × Int)
  overloaded : World σ μ → Option μ

namespace World

variable (w : World σ μ)

def findRequest (s : σ) (m : μ) : Option (Request μ) :=
  (w.source s).files.find? fun r => r.file = m

def queued (s : σ) (m : μ) : Bool :=
  match w.findRequest s m with
  | none => false
  | some r => r.queue.isSome

def setSource (s : σ) (f : Source μ → Source μ) : World σ μ :=
  { w with source := Function.update w.source s (f (w.source s)) }

def setRequest (s : σ) (m : μ) (f : Request μ → Request μ) : World σ μ :=
  w.setSource s fun x => { x with files := x.files.map fun r => if r.file = m then f r else r }

def addFile (s : σ) (r : Request μ) : World σ μ :=
  w.setSource s fun x => { x with files := r :: x.files }

def setManager (m : μ) (f : Manager σ → Manager σ) : World σ μ :=
  { w with manager := Function.update w.manager m (f (w.manager m)) }

def chooseQueue (saved : Bool) (x : Source μ) (r : Request μ) : Nat :=
  if r.score = notFoundScore then doNotTryQueue
  else if x.lastAttempt ≠ 0 then connectingSourcesQueue
  else
    match x.sock with
    | .noConnection | .connectionWaiting =>
        if x.score < 1 then
          if foundScore < r.score then
            if saved then
              if r.time + w.delay < w.now then readySavedSourcesQueue else waitingSavedSourcesQueue
            else if r.score = initialNewSourceScore then newSourcesQueue
            else goodSourcesQueue
          else if newSourceScore ≤ r.score then oldSources1Queue
          else oldSources2Queue
        else if x.score < 5 then oldSources3Queue
        else doNotTryQueue
    | .connection => if r.time = 0 then busySourcesQueue else connectedSourcesQueue

def checkTime (time : Int) : Int := if time = 0 then w.now - 650 else time

-- List.iter over source_files.
def iterRequests (s : σ) (f : μ → World σ μ → World σ μ) : World σ μ :=
  ((w.source s).files.map Request.file).foldl (fun w m => f m w) w

end World

-- The comparison of uids.
variable (compare : σ → σ → Ordering)

def Manager.put (x : Manager σ) (q : Nat) (e : Int × σ) : Manager σ where
  sources := Function.update x.sources q (((x.sources q).put compare e).toOption.getD (x.sources q))
  active := if activeQueue q then x.active + 1 else x.active
  all := x.all + 1

def Manager.remove (x : Manager σ) (q : Nat) (e : Int × σ) : Manager σ where
  sources :=
    Function.update x.sources q (((x.sources q).remove compare e).toOption.getD (x.sources q))
  active := if activeQueue q then x.active - 1 else x.active
  all := x.all - 1

def rescheduleSourceForFile (saved : Bool) (s : σ) (m : μ) (w : World σ μ) : World σ μ :=
  match w.findRequest s m with
  | none => w
  | some r =>
      if r.queue = none then
        let q := w.chooseQueue saved (w.source s) r
        (w.setManager m fun x => x.put compare q (r.time, s)).setRequest s m
          fun r => { r with queue := some q }
      else w

def removeFromQueue (s : σ) (m : μ) (w : World σ μ) : World σ μ :=
  match w.findRequest s m with
  | none => w
  | some r =>
      match r.queue with
      | none => w
      | some q =>
          (w.setManager m fun x => x.remove compare q (r.time, s)).setRequest s m
            fun r => { r with queue := none }

def sourceConnecting (s : σ) (w : World σ μ) : World σ μ :=
  let w := w.setSource s fun x => { x with lastAttempt := w.now }
  let w := { w with connecting := w.connecting ++ [(w.now, s)] }
  w.iterRequests s fun m w =>
    if w.queued s m then rescheduleSourceForFile compare false s m (removeFromQueue compare s m w)
    else w

-- The score after a request that is made once more.
def repeatedScore (score : Int) : Int :=
  if score = initialNewSourceScore then newSourceScore else score - 1

def addRequest (s : σ) (m : μ) (time : Int) (w : World σ μ) : World σ μ :=
  match w.findRequest s m with
  | some r =>
      let w := removeFromQueue compare s m w
      let w := w.setRequest s m fun x => { x with score := repeatedScore r.score }
      let w := w.setRequest s m fun x => { x with time := w.checkTime time }
      rescheduleSourceForFile compare false s m w
  | none =>
      let w := w.addFile s ⟨m, none, w.checkTime time, possibleScore⟩
      rescheduleSourceForFile compare false s m w

section Query

variable (env : Env σ μ)

def sourceQuery (s : σ) (m : μ) (w : World σ μ) : World σ μ :=
  let w := removeFromQueue compare s m w
  match w.findRequest s m with
  | none => w
  | some r =>
      if notFoundScore < r.score ∧ env.downloading m then
        let w := w.setRequest s m fun x => { x with time := 0 }
        let w := rescheduleSourceForFile compare false s m w
        let w := { w with asked := ⟨s, m, r.score⟩ :: w.asked }
        if env.sends w s m then addRequest compare s m w.now w else w
      else w

def sourceConnected (s : σ) (w : World σ μ) : World σ μ :=
  let w := w.setSource s fun x => { x with score := 0, lastAttempt := 0 }
  w.iterRequests s fun m w =>
    if w.queued s m then
      let w := removeFromQueue compare s m w
      let w :=
        match w.findRequest s m with
        | none => w
        | some r =>
            if possibleScore < r.score ∧ r.time + w.delay < w.now then sourceQuery compare env s m w
            else w
      rescheduleSourceForFile compare false s m w
    else w

def queryFile (s : σ) (m : μ) (w : World σ μ) : World σ μ :=
  if env.downloading m then
    match w.findRequest s m with
    | none => w
    | some r =>
        if r.time + w.delay ≤ w.now ∧ notFoundScore < r.score then sourceQuery compare env s m w
        else w
  else w

end Query

-- The requests of a source whose connection ended, or was not made.
def disconnectRequest (connecting : Bool) (s : σ) (m : μ) (w : World σ μ) : World σ μ :=
  let w := removeFromQueue compare s m w
  match w.findRequest s m with
  | none => w
  | some r =>
      let w :=
        if connecting ∨ r.time = 0 then w.setRequest s m fun x => { x with time := w.now } else w
      let w :=
        if connecting ∧ r.score = initialNewSourceScore then
          w.setRequest s m fun x => { x with score := newSourceScore }
        else w
      rescheduleSourceForFile compare false s m w

def disconnectRequests (s : σ) (w : World σ μ) : World σ μ :=
  let connecting := decide ((w.source s).lastAttempt ≠ 0)
  let w := w.setSource s fun x => { x with lastAttempt := 0 }
  w.iterRequests s fun m w =>
    if w.queued s m then disconnectRequest compare connecting s m w else w

-- The closer of the socket calls source_disconnected in turn.
def sourceDisconnected (env : Env σ μ) (s : σ) (w : World σ μ) : World σ μ :=
  match (w.source s).sock with
  | .noConnection => disconnectRequests compare s w
  | .connectionWaiting =>
      disconnectRequests compare s (w.setSource s fun x => { x with sock := .noConnection })
  | .connection =>
      let w :=
        if env.closes w s then
          disconnectRequests compare s (w.setSource s fun x => { x with sock := .noConnection })
        else w
      disconnectRequests compare s w

def setRequestScore (s : σ) (m : μ) (score : Int) (w : World σ μ) : World σ μ :=
  match w.findRequest s m with
  | some r =>
      if ¬(score = initialNewSourceScore ∧ w.now < r.time + w.delay) ∨
          (score = initialNewSourceScore ∧ r.queue = none) then
        let score := if score = initialNewSourceScore then newSourceScore else score
        let w :=
          if r.queue.all fun q => decide (q < connectedSourcesQueue) then removeFromQueue compare s m w
          else w
        let w := w.setRequest s m fun x => { x with score := score }
        rescheduleSourceForFile compare false s m w
      else w
  | none =>
      let w := w.addFile s ⟨m, none, w.checkTime 0, score⟩
      rescheduleSourceForFile compare false s m w

def RequestResult.score : RequestResult → Int
  | .fileNotFound => notFoundScore
  | .fileFound => foundScore
  | .fileChunk => chunkScore
  | .fileUpload => uploadScore
  | .fileNewSource => initialNewSourceScore
  | .filePossible => possibleScore + 1

def setRequestResult (s : σ) (m : μ) (result : RequestResult) (w : World σ μ) : World σ μ :=
  setRequestScore compare s m result.score w

def addSavedSourceRequest (s : σ) (m : μ) (score time : Int) (w : World σ μ) : World σ μ :=
  let w := addRequest compare s m time w
  let w := w.setRequest s m fun x => { x with score := score }
  rescheduleSourceForFile compare true s m w

-- The sources with an element in one of the queues, which iter_all_sources visits.
def allSources (m : μ) (w : World σ μ) : List σ :=
  (List.range nqueues).flatMap fun q => ((w.manager m).sources q).toList.map Prod.snd

def removeFileSourcesManager (m : μ) (w : World σ μ) : World σ μ :=
  let w := (allSources m w).foldl (fun w s =>
    w.setSource s fun x => { x with files := x.files.filter fun r => r.file ≠ m }) w
  { w.setManager m fun x => { x with sources := createQueues } with
    managers := w.managers.erase m }

end Mldonkey.Sources
