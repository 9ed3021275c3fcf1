import Mldonkey.Lib.Runs
import Mathlib.Logic.Function.Basic
import Mathlib.Tactic

-- The requests that one call of get_page makes, and the calls of its two continuations.
namespace Mldonkey.Http.Pages

open Runs (Reach)

inductive Reason
  | closedByUser
  | closedByPeer
  | other
  deriving DecidableEq

-- The fields of a request that decide what follows an answer
structure Request where
  head : Bool
  reqRetry : ℕ
  reqMaxRetry : ℕ

-- A call of get_page, with the calls in whose answers it was made, the last one first: its ferr
-- calls theirs in this order.
structure Page where
  id : ℕ
  outer : List ℕ
  request : Request

-- `content` is whether the reader has been replaced. `answered` is whether an answer of the
-- socket has started or scheduled another call of get_page; the code does not keep this.
structure Socket where
  page : Page
  content : Bool
  closing : Option Reason
  answered : Bool

-- `pages` counts the calls of get_page; ok and errDone are their references. The lookups are the
-- names that wait for their address and the timers the retries that are scheduled.
structure State where
  pages : ℕ
  ok : ℕ → Bool
  errDone : ℕ → Bool
  lookups : List Page
  timers : List Page
  sockets : List Socket
  fCalls : ℕ
  ferrCalls : ℕ

namespace State

-- get_page, up to the lookup of the name
def getPage (s : State) (outer : List ℕ) (r : Request) : State :=
  { s with pages := s.pages + 1, lookups := s.lookups ++ [⟨s.pages, outer, r⟩] }

-- The ferr of a call of get_page, and then those of the calls around it
def callFerr : List ℕ → State → State
  | [], s => { s with ferrCalls := s.ferrCalls + 1 }
  | id :: outer, s =>
    if s.errDone id then s
    else callFerr outer { s with errDone := Function.update s.errDone id true }

def ferr (s : State) (p : Page) : State := callFerr (p.id :: p.outer) s

def f (s : State) : State := { s with fCalls := s.fCalls + 1 }

def setSocket (s : State) (i : ℕ) (k : Socket) : State := { s with sockets := s.sockets.set i k }

end State

open State

-- Only the first reason counts.
def Socket.close (k : Socket) (reason : Reason) : Socket :=
  if k.closing.isSome then k else { k with closing := some reason }

-- default_headers_handler for the socket i; `fails` is whether what it calls raises an
-- exception. All exceptions close the socket in parse_header.
def defaultHeadersHandler (s : State) (i : ℕ) (k : Socket) (ansCode : ℤ) (fails : Bool) : State :=
  let p := k.page
  let r := p.request
  let outer := p.id :: p.outer
  if ansCode = 200 then
    let k := { k with content := true }
    let k := if fails then k.close .other else k
    { s with ok := Function.update s.ok p.id true }.setSocket i k
  else if ansCode = 301 ∨ ansCode = 302 ∨ ansCode = 304 then
    if r.reqRetry < r.reqMaxRetry ∧ ¬fails then
      (s.setSocket i { k with answered := true }).getPage outer
        { r with reqRetry := r.reqRetry + 1 }
    else s.setSocket i (k.close .other)
  else if ansCode = 400 ∧ r.head then
    if ¬fails then
      (s.setSocket i { k with answered := true }).getPage outer { r with head := false }
    else s.setSocket i (k.close .other)
  else if ansCode = 502 ∨ ansCode = 503 ∨ ansCode = 504 then
    if r.reqRetry < r.reqMaxRetry then
      let s := s.setSocket i { k with answered := true }
      { s with timers := s.timers ++ [{ p with request.reqRetry := r.reqRetry + 1 }] }
    else (s.setSocket i (k.close .other)).ferr p
  else (s.setSocket i (k.close .other)).ferr p

inductive Answer
  | blocked
  | refused
  | connected

-- The i-th lookup, timer or socket is the one concerned. A socket is closed by anyone at any time
-- and its CLOSED event comes later.
inductive Event
  | resolved (i : ℕ) (answer : Answer)
  | dns (i : ℕ)
  | timer (i : ℕ) (fails : Bool)
  | header (i : ℕ) (ansCode : ℤ) (fails : Bool)
  | close (i : ℕ) (reason : Reason)
  | closed (i : ℕ)

def next (e : Event) (s : State) : State :=
  match e with
  | .resolved i answer =>
    match s.lookups[i]? with
    | some p =>
      let s := { s with lookups := s.lookups.eraseIdx i }
      match answer with
      | .blocked => s.ferr p
      | .refused => s
      | .connected => { s with sockets := s.sockets ++ [⟨p, false, none, false⟩] }
    | none => s
  | .dns i =>
    match s.lookups[i]? with
    | some p => { s with lookups := s.lookups.eraseIdx i }.ferr p
    | none => s
  | .timer i fails =>
    match s.timers[i]? with
    | some p =>
      let s := { s with timers := s.timers.eraseIdx i }
      if fails then s else s.getPage (p.id :: p.outer) p.request
    | none => s
  | .header i ansCode fails =>
    match s.sockets[i]? with
    | some k =>
      if k.closing.isNone ∧ ¬k.content then defaultHeadersHandler s i k ansCode fails else s
    | none => s
  | .close i reason =>
    match s.sockets[i]? with
    | some k => s.setSocket i (k.close reason)
    | none => s
  | .closed i =>
    match s.sockets[i]? with
    | some k =>
      match k.closing with
      | some reason =>
        let s := { s with sockets := s.sockets.eraseIdx i }
        if reason ≠ .other ∧ s.ok k.page.id then s.f else s.ferr k.page
      | none => s
    | none => s

-- The state in which get_page is called for a request
def called (r : Request) : State :=
  getPage ⟨0, fun _ => false, fun _ => false, [], [], [], 0, 0⟩ [] r

-- A socket whose answer has started another call of get_page gives no further answer, and its
-- end is not told to the handler of that socket.
def Fits (s : State) : Event → Prop
  | .header i _ _ | .closed i => ∀ k, s.sockets[i]? = some k → k.answered = false
  | _ => True

instance (s : State) : (e : Event) → Decidable (Fits s e)
  | .header i _ _ | .closed i =>
    inferInstanceAs (Decidable (∀ k ∈ s.sockets[i]?, k.answered = false))
  | .resolved .. | .dns .. | .timer .. | .close .. => isTrue trivial

section Lists

variable {α : Type} {l : List α} {q : α → Bool} {x y : α} {i : ℕ}

lemma split_at (hi : l[i]? = some x) : ∃ l1 l2, l = l1 ++ x :: l2 ∧
    (∀ y, l.set i y = l1 ++ y :: l2) ∧ l.eraseIdx i = l1 ++ l2 := by
  obtain ⟨hlt, rfl⟩ := List.getElem?_eq_some_iff.mp hi
  refine ⟨l.take i, l.drop (i + 1), ?_, fun y => ?_, List.eraseIdx_eq_take_drop_succ ..⟩
  · rw [List.getElem_cons_drop, List.take_append_drop]
  · rw [List.set_eq_take_append_cons_drop, if_pos hlt]

-- Around the only element that counts, none counts
lemma filter_around (h : l.filter q = [x]) (hi : l[i]? = some x) (hx : q x = true) :
    (∀ y, (l.set i y).filter q = if q y then [y] else []) ∧ (l.eraseIdx i).filter q = [] := by
  obtain ⟨l1, l2, hl, hset, herase⟩ := split_at hi
  rw [hl, List.filter_append, List.filter_cons_of_pos hx] at h
  obtain ⟨h1, h2⟩ : l1.filter q = [] ∧ l2.filter q = [] := by
    have hlen := congrArg List.length h
    rw [List.length_append, List.length_cons, List.length_singleton] at hlen
    exact ⟨List.eq_nil_of_length_eq_zero (by omega), List.eq_nil_of_length_eq_zero (by omega)⟩
  refine ⟨fun y => ?_, by rw [herase, List.filter_append, h1, h2, List.nil_append]⟩
  rw [hset, List.filter_append, List.filter_cons, h1, h2, List.nil_append]

lemma filter_set_same (hi : l[i]? = some x) (hx : q x = false) (hy : q y = false) :
    (l.set i y).filter q = l.filter q := by
  obtain ⟨l1, l2, hl, hset, -⟩ := split_at hi
  have hx' : ¬ q x = true := by simp [hx]
  have hy' : ¬ q y = true := by simp [hy]
  rw [hset, hl, List.filter_append, List.filter_append, List.filter_cons_of_neg hx',
    List.filter_cons_of_neg hy']

end Lists

namespace State

variable {s : State}

-- The calls of ferr change the references of the pages that make them and one counter
structure Calls (s s' : State) : Prop where
  pages : s'.pages = s.pages
  ok : s'.ok = s.ok
  lookups : s'.lookups = s.lookups
  timers : s'.timers = s.timers
  sockets : s'.sockets = s.sockets
  fCalls : s'.fCalls = s.fCalls
  ferrCalls : s'.ferrCalls ≤ s.ferrCalls + 1
  errDone : ∀ id, s.errDone id = true → s'.errDone id = true

lemma calls_callFerr (path : List ℕ) (s : State) : Calls s (callFerr path s) := by
  induction path generalizing s with
  | nil => exact ⟨rfl, rfl, rfl, rfl, rfl, rfl, Nat.le_refl _, fun _ h => h⟩
  | cons id outer ih =>
    rw [callFerr]
    split_ifs with hdone
    · exact ⟨rfl, rfl, rfl, rfl, rfl, rfl, Nat.le_succ _, fun _ h => h⟩
    · have h := ih { s with errDone := Function.update s.errDone id true }
      refine ⟨h.pages, h.ok, h.lookups, h.timers, h.sockets, h.fCalls, h.ferrCalls,
        fun id' hid' => h.errDone id' ?_⟩
      by_cases heq : id' = id
      · simp [heq]
      · simpa [heq] using hid'

lemma calls_ferr (s : State) (p : Page) : Calls s (s.ferr p) := calls_callFerr _ s

lemma errDone_ferr (s : State) (p : Page) : (s.ferr p).errDone p.id = true := by
  rw [ferr, callFerr]
  split_ifs with hdone
  · exact hdone
  · exact (calls_callFerr p.outer _).errDone p.id (by simp)

lemma ferr_of_errDone {p : Page} (h : s.errDone p.id = true) : s.ferr p = s := by
  rw [ferr, callFerr, if_pos h]

def calls (s : State) : ℕ := s.fCalls + s.ferrCalls

-- The sockets whose answers have started nothing
def waiting (s : State) : List Socket := s.sockets.filter fun k => !k.answered

-- What can still call a continuation: nothing, or one lookup, timer or socket
inductive Live (s : State) : Prop
  | nothing (hl : s.lookups = []) (ht : s.timers = []) (hk : s.waiting = [])
  | lookup (p : Page) (hl : s.lookups = [p]) (ht : s.timers = []) (hk : s.waiting = [])
      (hid : p.id < s.pages) (hok : s.ok p.id = false) (hcalls : s.calls = 0)
  | timer (p : Page) (hl : s.lookups = []) (ht : s.timers = [p]) (hk : s.waiting = [])
      (hcalls : s.calls = 0)
  | socket (k : Socket) (hl : s.lookups = []) (ht : s.timers = []) (hk : s.waiting = [k])
      (hid : k.page.id < s.pages) (hok : k.content = false → s.ok k.page.id = false)
      (hcalls : s.calls = 0 ∨ k.closing ≠ none ∧ s.ok k.page.id = false ∧
        s.errDone k.page.id = true)

structure Single (s : State) : Prop where
  fresh : ∀ id, s.pages ≤ id → s.ok id = false
  once : s.calls ≤ 1
  live : s.Live

lemma Single.lookup_end (h : s.Single) {i : ℕ} {p : Page} (hi : s.lookups[i]? = some p) :
    s.lookups.eraseIdx i = [] ∧ s.timers = [] ∧ s.waiting = [] ∧ p.id < s.pages ∧
      s.ok p.id = false ∧ s.calls = 0 := by
  rcases h.live with ⟨hl, ht, hk⟩ | ⟨p', hl, ht, hk, hid, hok, hcalls⟩ | ⟨p', hl, ht, hk, hcalls⟩ |
    ⟨k, hl, ht, hk, hid, hok, hcalls⟩
  · simp [hl] at hi
  · rw [hl, List.getElem?_singleton] at hi
    split_ifs at hi with hi0
    · obtain rfl := Option.some.inj hi
      exact ⟨by simp [hl, hi0], ht, hk, hid, hok, hcalls⟩
  · simp [hl] at hi
  · simp [hl] at hi

lemma Single.timer_end (h : s.Single) {i : ℕ} {p : Page} (hi : s.timers[i]? = some p) :
    s.lookups = [] ∧ s.timers.eraseIdx i = [] ∧ s.waiting = [] ∧ s.calls = 0 := by
  rcases h.live with ⟨hl, ht, hk⟩ | ⟨p', hl, ht, hk, hid, hok, hcalls⟩ | ⟨p', hl, ht, hk, hcalls⟩ |
    ⟨k, hl, ht, hk, hid, hok, hcalls⟩
  · simp [ht] at hi
  · simp [ht] at hi
  · rw [ht, List.getElem?_singleton] at hi
    split_ifs at hi with hi0
    exact ⟨hl, by simp [ht, hi0], hk, hcalls⟩
  · simp [ht] at hi

lemma Single.socket_here (h : s.Single) {i : ℕ} {k : Socket} (hi : s.sockets[i]? = some k)
    (hk : k.answered = false) :
    s.lookups = [] ∧ s.timers = [] ∧ s.waiting = [k] ∧ k.page.id < s.pages ∧
      (k.content = false → s.ok k.page.id = false) ∧
      (s.calls = 0 ∨ k.closing ≠ none ∧ s.ok k.page.id = false ∧
        s.errDone k.page.id = true) := by
  have hmem : k ∈ s.waiting :=
    List.mem_filter.mpr ⟨List.mem_of_getElem? hi, by simp [hk]⟩
  rcases h.live with ⟨hl, ht, hw⟩ | ⟨p', hl, ht, hw, hid, hok, hcalls⟩ | ⟨p', hl, ht, hw, hcalls⟩ |
    ⟨k', hl, ht, hw, hid, hok, hcalls⟩
  · simp [hw] at hmem
  · simp [hw] at hmem
  · simp [hw] at hmem
  · rw [hw, List.mem_singleton] at hmem
    subst hmem
    exact ⟨hl, ht, hw, hid, hok, hcalls⟩

-- ferr at the end of a page with which everything ends
lemma single_ferr {s' : State} (p : Page) (hfresh : ∀ id, s'.pages ≤ id → s'.ok id = false)
    (hcalls : s'.calls = 0) (hl : s'.lookups = []) (ht : s'.timers = []) (hk : s'.waiting = []) :
    (s'.ferr p).Single := by
  have hferr := calls_ferr s' p
  refine ⟨?_, ?_, .nothing (hferr.lookups.trans hl) (hferr.timers.trans ht) ?_⟩
  · rw [hferr.pages, hferr.ok]
    exact hfresh
  · have hle := hferr.ferrCalls
    rw [calls] at hcalls ⊢
    rw [hferr.fCalls]
    omega
  · rw [waiting, hferr.sockets]
    exact hk

lemma Single.resolved (h : s.Single) (i : ℕ) (answer : Answer) :
    (next (.resolved i answer) s).Single := by
  rw [next]
  cases hi : s.lookups[i]? with
  | none => exact h
  | some p =>
    obtain ⟨hl, ht, hk, hid, hok, hcalls⟩ := h.lookup_end hi
    cases answer with
    | blocked => exact single_ferr p h.fresh hcalls hl ht hk
    | refused => exact ⟨h.fresh, h.once, .nothing hl ht hk⟩
    | connected =>
      refine ⟨h.fresh, h.once, .socket ⟨p, false, none, false⟩ hl ht ?_ hid (fun _ => hok)
        (.inl hcalls)⟩
      rw [waiting] at hk ⊢
      simp only [List.filter_append, hk]
      rfl

lemma Single.dns (h : s.Single) (i : ℕ) : (next (.dns i) s).Single := by
  rw [next]
  cases hi : s.lookups[i]? with
  | none => exact h
  | some p =>
    obtain ⟨hl, ht, hk, -, -, hcalls⟩ := h.lookup_end hi
    exact single_ferr p h.fresh hcalls hl ht hk

-- Another call of get_page where everything else has ended
lemma single_getPage {s' : State} (outer : List ℕ) (r : Request)
    (hfresh : ∀ id, s'.pages ≤ id → s'.ok id = false) (hcalls : s'.calls = 0)
    (hl : s'.lookups = []) (ht : s'.timers = []) (hk : s'.waiting = []) :
    (s'.getPage outer r).Single := by
  refine ⟨fun id hid => hfresh id (Nat.le_of_succ_le hid), ?_,
    .lookup ⟨s'.pages, outer, r⟩ ?_ ht hk (Nat.lt_succ_self _) (hfresh _ le_rfl) hcalls⟩
  · show s'.calls ≤ 1
    omega
  · show s'.lookups ++ _ = _
    rw [hl, List.nil_append]

lemma Single.timer (h : s.Single) (i : ℕ) (fails : Bool) : (next (.timer i fails) s).Single := by
  rw [next]
  cases hi : s.timers[i]? with
  | none => exact h
  | some p =>
    obtain ⟨hl, ht, hk, hcalls⟩ := h.timer_end hi
    dsimp only
    split_ifs
    · exact ⟨h.fresh, h.once, .nothing hl ht hk⟩
    · exact single_getPage _ _ h.fresh hcalls hl ht hk

lemma Single.waiting_set (h : s.Single) {i : ℕ} {k : Socket} (hi : s.sockets[i]? = some k)
    (hk : k.answered = false) (y : Socket) :
    (s.setSocket i y).waiting = if y.answered then [] else [y] := by
  have hset := (filter_around (h.socket_here hi hk).2.2.1 hi (by simp [hk])).1 y
  rw [waiting, setSocket, hset]
  cases y.answered <;> rfl

lemma close_eq (k : Socket) (reason : Reason) :
    (k.close reason).page = k.page ∧ (k.close reason).content = k.content ∧
      (k.close reason).answered = k.answered ∧ (k.close reason).closing ≠ none := by
  rw [Socket.close]
  split_ifs with hclosing
  · exact ⟨rfl, rfl, rfl, by simpa [Option.isSome_iff_ne_none] using hclosing⟩
  · exact ⟨rfl, rfl, rfl, by simp⟩

-- The socket stays, with what it becomes
lemma Single.stays (h : s.Single) {i : ℕ} {k k' : Socket} (hi : s.sockets[i]? = some k)
    (hk : k.answered = false) (hk' : k'.answered = false) (hpage : k'.page = k.page)
    (hok : k'.content = false → s.ok k.page.id = false)
    (hcalls : s.calls = 0 ∨ k'.closing ≠ none ∧ s.ok k.page.id = false ∧
      s.errDone k.page.id = true) :
    (s.setSocket i k').Single := by
  obtain ⟨hl, ht, -, hid, -, -⟩ := h.socket_here hi hk
  refine ⟨h.fresh, h.once, .socket k' hl ht ?_ (hpage ▸ hid) ?_ ?_⟩
  · rw [h.waiting_set hi hk, hk']
    rfl
  · rw [hpage]
    exact hok
  · rw [hpage]
    exact hcalls

lemma Single.close (h : s.Single) (i : ℕ) (reason : Reason) :
    (next (.close i reason) s).Single := by
  rw [next]
  cases hi : s.sockets[i]? with
  | none => exact h
  | some k =>
    obtain ⟨hpage, hcontent, hanswered, hclosing⟩ := close_eq k reason
    cases hk : k.answered with
    | false =>
      obtain ⟨-, -, -, -, hok, hcalls⟩ := h.socket_here hi hk
      exact h.stays hi hk (hanswered.trans hk) hpage (by rwa [hcontent])
        (hcalls.imp_right fun hc => ⟨hclosing, hc.2⟩)
    | true =>
      -- The socket no longer counts
      have hwaiting : (s.setSocket i (k.close reason)).waiting = s.waiting :=
        filter_set_same hi (by simp [hk]) (by simp [hanswered, hk])
      refine ⟨h.fresh, h.once, ?_⟩
      rcases h.live with ⟨hl, ht, hw⟩ | ⟨p', hl, ht, hw, hid, hok, hcalls⟩ |
        ⟨p', hl, ht, hw, hcalls⟩ | ⟨k', hl, ht, hw, hid, hok, hcalls⟩
      · exact .nothing hl ht (hwaiting.trans hw)
      · exact .lookup p' hl ht (hwaiting.trans hw) hid hok hcalls
      · exact .timer p' hl ht (hwaiting.trans hw) hcalls
      · exact .socket k' hl ht (hwaiting.trans hw) hid hok hcalls

-- An answer that ends the request with an error and closes the socket
lemma Single.refuse (h : s.Single) {i : ℕ} {k : Socket} (hi : s.sockets[i]? = some k)
    (hk : k.answered = false) (hcalls : s.calls = 0) (hok : s.ok k.page.id = false) :
    ((s.setSocket i (k.close .other)).ferr k.page).Single := by
  obtain ⟨hl, ht, -, hid, -, -⟩ := h.socket_here hi hk
  obtain ⟨hpage, -, hanswered, hclosing⟩ := close_eq k .other
  have hferr := calls_ferr (s.setSocket i (k.close .other)) k.page
  refine ⟨?_, ?_, .socket (k.close .other) (hferr.lookups.trans hl) (hferr.timers.trans ht) ?_
    ?_ ?_ (.inr ⟨hclosing, ?_, ?_⟩)⟩
  · rw [hferr.pages, hferr.ok]
    exact h.fresh
  · have hle := hferr.ferrCalls
    have hzero : (s.setSocket i (k.close .other)).calls = 0 := hcalls
    rw [calls] at hzero ⊢
    rw [hferr.fCalls]
    omega
  · rw [waiting, hferr.sockets, ← waiting, h.waiting_set hi hk, hanswered, hk]
    rfl
  · rw [hferr.pages, hpage]
    exact hid
  · intro _
    rw [hferr.ok, hpage]
    exact hok
  · rw [hferr.ok, hpage]
    exact hok
  · rw [hpage]
    exact errDone_ferr _ _

-- The answer of which the content follows
lemma Single.success (h : s.Single) {i : ℕ} {k k' : Socket} (hi : s.sockets[i]? = some k)
    (hk : k.answered = false) (hk' : k'.answered = false) (hpage : k'.page = k.page)
    (hcontent : k'.content = true) (hcalls : s.calls = 0) :
    ({ s with ok := Function.update s.ok k.page.id true }.setSocket i k').Single := by
  obtain ⟨hl, ht, -, hid, -, -⟩ := h.socket_here hi hk
  refine ⟨fun id hle => ?_, h.once, .socket k' hl ht ?_ (hpage ▸ hid) ?_ (.inl hcalls)⟩
  · have hne : id ≠ k.page.id := fun heq => by
      have hle' : s.pages ≤ id := hle
      omega
    show Function.update s.ok k.page.id true id = false
    rw [Function.update_of_ne hne]
    exact h.fresh id hle
  · have hset := h.waiting_set hi hk k'
    rw [hk'] at hset
    exact hset
  · intro hfalse
    rw [hcontent] at hfalse
    cases hfalse

lemma Single.header (h : s.Single) {i : ℕ} (ansCode : ℤ) (fails : Bool)
    (hfits : Fits s (.header i ansCode fails)) : (next (.header i ansCode fails) s).Single := by
  rw [next]
  cases hi : s.sockets[i]? with
  | none => exact h
  | some k =>
    dsimp only
    split_ifs with hopen
    swap
    · exact h
    have hk := hfits k hi
    obtain ⟨hl, ht, -, hid, hok, hcalls⟩ := h.socket_here hi hk
    have hcontent : k.content = false := by simpa using hopen.2
    have hnone : k.closing = none := by simpa using hopen.1
    have hok := hok hcontent
    have hzero : s.calls = 0 := hcalls.resolve_right fun hc => hc.1 hnone
    obtain ⟨hpage, hcontent', hanswered, -⟩ := close_eq k .other
    have hclose : (s.setSocket i (k.close .other)).Single :=
      h.stays hi hk (hanswered.trans hk) hpage (fun _ => hok) (.inl hzero)
    have hgone : (s.setSocket i { k with answered := true }).waiting = [] :=
      h.waiting_set hi hk { k with answered := true }
    rw [defaultHeadersHandler]
    dsimp only
    by_cases h200 : ansCode = 200
    · rw [if_pos h200]
      split_ifs
      · obtain ⟨hpage', hcontent', hanswered', -⟩ := close_eq { k with content := true } .other
        exact h.success hi hk (hanswered'.trans hk) hpage' hcontent' hzero
      · exact h.success hi hk hk rfl rfl hzero
    rw [if_neg h200]
    by_cases hredirect : ansCode = 301 ∨ ansCode = 302 ∨ ansCode = 304
    · rw [if_pos hredirect]
      split_ifs
      · exact single_getPage _ _ h.fresh hzero hl ht hgone
      · exact hclose
    rw [if_neg hredirect]
    by_cases hhead : ansCode = 400 ∧ k.page.request.head
    · rw [if_pos hhead]
      split_ifs
      · exact hclose
      · exact single_getPage _ _ h.fresh hzero hl ht hgone
    rw [if_neg hhead]
    split_ifs
    · refine ⟨h.fresh, h.once, .timer
        { k.page with request.reqRetry := k.page.request.reqRetry + 1 } hl ?_ hgone hzero⟩
      show s.timers ++ _ = _
      rw [ht, List.nil_append]
    · exact h.refuse hi hk hzero hok
    · exact h.refuse hi hk hzero hok

lemma Single.closed (h : s.Single) {i : ℕ} (hfits : Fits s (.closed i)) :
    (next (.closed i) s).Single := by
  rw [next]
  cases hi : s.sockets[i]? with
  | none => exact h
  | some k =>
    have hk := hfits k hi
    obtain ⟨hl, ht, hw, hid, hok, hcalls⟩ := h.socket_here hi hk
    have hwaiting : { s with sockets := s.sockets.eraseIdx i }.waiting = [] :=
      (filter_around hw hi (by simp [hk])).2
    cases hclosing : k.closing with
    | none =>
      simp only [hclosing]
      exact h
    | some reason =>
      simp only [hclosing]
      split_ifs with hsuccess
      · -- The page has had its answer, so no continuation has been called
        have hzero : s.calls = 0 := hcalls.resolve_right fun hc => by
          rw [hsuccess.2] at hc
          cases hc.2.1
        refine ⟨h.fresh, ?_, .nothing hl ht hwaiting⟩
        rw [calls] at hzero ⊢
        simp only [f]
        omega
      · rcases hcalls with hzero | ⟨-, -, hdone⟩
        · exact single_ferr k.page h.fresh hzero hl ht hwaiting
        · rw [ferr_of_errDone (s := { s with sockets := s.sockets.eraseIdx i }) hdone]
          exact ⟨h.fresh, h.once, .nothing hl ht hwaiting⟩

end State

open State

-- What holds of the continuations in every run whose sockets end with their answer
theorem continuation_once (r : Request) {s : State}
    (h : Reach next (· = called r) Fits s) : s.fCalls + s.ferrCalls ≤ 1 := by
  refine (h.inv (I := Single) ?_ ?_).once
  · rintro _ rfl
    exact single_getPage [] r (fun _ _ => rfl) rfl rfl rfl rfl
  · intro s e hs hfits
    cases e with
    | resolved i answer => exact hs.resolved i answer
    | dns i => exact hs.dns i
    | timer i fails => exact hs.timer i fails
    | header i ansCode fails => exact hs.header ansCode fails hfits
    | close i reason => exact hs.close i reason
    | closed i => exact hs.closed hfits

-- A redirect, an answer that is asked for again later, and the page. The first two sockets are
-- closed by the server, and this is not told to their handlers.
def answered : List Event :=
  [.resolved 0 .connected, .header 0 302 false, .resolved 0 .connected, .close 0 .closedByPeer,
    .header 1 503 false, .close 1 .closedByPeer, .timer 0 false, .resolved 0 .connected,
    .header 2 200 false, .close 2 .closedByPeer, .closed 2]

theorem continuation_once_answered :
    let s := answered.foldl (fun s e => next e s) (called ⟨false, 0, 2⟩)
    s.fCalls + s.ferrCalls ≤ 1 ∧ s.fCalls = 1 := by
  have hstart : Reach next (· = called ⟨false, 0, 2⟩) Fits (called ⟨false, 0, 2⟩) := .start rfl
  exact ⟨continuation_once ⟨false, 0, 2⟩ (hstart.run (by decide)), by decide⟩

-- A request that is redirected once and whose two sockets end in this order
def redirected : List Event :=
  [.resolved 0 .connected, .header 0 302 false, .close 0 .closedByPeer, .closed 0,
    .resolved 0 .connected, .header 0 200 false, .close 0 .closedByPeer, .closed 0]

-- The first socket tells the error continuation that it was closed, and the second one calls the
-- other continuation
theorem both_continuations_called :
    ¬ ∀ (r : Request) (s : State), Reach next (· = called r) (fun _ _ => True) s →
      s.fCalls + s.ferrCalls ≤ 1 := by
  intro h
  have hstart : Reach next (· = called ⟨false, 0, 2⟩) (fun _ _ => True) (called ⟨false, 0, 2⟩) :=
    .start rfl
  exact absurd (h _ _ (hstart.foldl redirected fun _ _ _ => trivial)) (by decide)

end Mldonkey.Http.Pages
