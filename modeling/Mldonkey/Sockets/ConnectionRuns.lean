import Mldonkey.Sockets.Connections
import Mldonkey.Lib.Runs

-- In every run the counters are right, and each pending function runs at most once.
namespace Mldonkey.TcpConnections

open Runs (Reach)

variable {s s' : State} {m manager token sock : ℕ} {f : ConnectFun} {a b : ℤ}

abbrev State.queue (s : State) (m : ℕ) : List (ℕ × ConnectFun) :=
  (s.managers m).waitingConnections

abbrev State.isUsed (s : State) (token : ℕ) : Bool := (s.tokens token).tokenUsed

abbrev State.managerOf (s : State) (token : ℕ) : ℕ := (s.tokens token).connectionManager

-- What a newer event may not follow
def Allowed : Event → Event → Prop
  | .ran t _ _ _ _, .ran t' _ _ _ _ => t ≠ t'
  | .ran t _ _ _ _, .cancelled t' => t ≠ t'
  | .used t, .processed t' f => t = t' → f.raisesBefore = true
  | _, _ => True

-- What an event of the past says of the state
def Fits (s : State) : Event → Prop
  | .ran t thisSecond perSecond opened maxWanted =>
    t < s.ntokens ∧ thisSecond < perSecond ∧ opened < maxWanted ∧
      ∀ m, ∀ e ∈ s.queue m, e.1 ≠ t
  | .processed t f => t < s.ntokens ∧ (f.raisesBefore = false → s.isUsed t = true)
  | .cancelled t => t < s.ntokens ∧ s.isUsed t = true
  | .used _ => True

structure Inv (s : State) : Prop where
  established : s.openedConnections =
    ∑ m ∈ Finset.range s.nmanagers, (s.managers m).nestablishedConnections
  notClosed : s.openedConnections =
    ∑ x ∈ Finset.range s.nsockets, if (s.sockets x).closing then 0 else 1
  waiting : ∀ m, (s.managers m).nwaitingConnections = (s.queue m).length
  managed : ∀ t < s.ntokens, s.managerOf t < s.nmanagers
  held : ∀ x < s.nsockets, (s.sockets x).token < s.ntokens
  pending : ∀ m, ∀ e ∈ s.queue m, e.1 < s.ntokens ∧ s.managerOf e.1 = m
  distinct : ∀ m, ((s.queue m).map Prod.fst).Nodup
  events : ∀ e ∈ s.history, Fits s e
  ordered : s.history.Pairwise Allowed

section Frames

lemma sum_bump {n i : ℕ} (hi : i < n) (d : ℤ) {f g : ℕ → ℤ}
    (h : ∀ x, g x = f x + if x = i then d else 0) :
    ∑ x ∈ Finset.range n, g x = ∑ x ∈ Finset.range n, f x + d := by
  simp [h, Finset.sum_add_distrib, hi]

lemma markUsed_isUsed (t : ℕ) :
    (s.markUsed token).isUsed t = (s.isUsed t || decide (t = token)) := by
  by_cases ht : t = token
  · simp [State.isUsed, State.markUsed, ht]
  · simp [State.isUsed, State.markUsed, ht]

lemma markUsed_managerOf (t : ℕ) : (s.markUsed token).managerOf t = s.managerOf t := by
  by_cases ht : t = token
  · simp [State.managerOf, State.markUsed, ht]
  · simp [State.managerOf, State.markUsed, ht]

lemma Fits.mono {e : Event} (h : Fits s e) (s' : State) (htokens : s.ntokens ≤ s'.ntokens)
    (hused : ∀ t < s.ntokens, s.isUsed t = true → s'.isUsed t = true)
    (hqueue : ∀ m, ∀ e ∈ s'.queue m, e ∈ s.queue m ∨ s.ntokens ≤ e.1) : Fits s' e := by
  cases e with
  | ran t thisSecond perSecond opened maxWanted =>
    obtain ⟨hlt, hsecond, hopened, hnone⟩ := h
    refine ⟨hlt.trans_le htokens, hsecond, hopened, fun m e he => ?_⟩
    rcases hqueue m e he with he | he
    · exact hnone m e he
    · exact (hlt.trans_le he).ne'
  | processed t f => exact ⟨h.1.trans_le htokens, fun hf => hused t h.1 (h.2 hf)⟩
  | cancelled t => exact ⟨h.1.trans_le htokens, hused t h.1 h.2⟩
  | used t => trivial

end Frames

section Steps

lemma Inv.record (h : Inv s) {e : Event} (hfits : Fits s e)
    (hallowed : ∀ e' ∈ s.history, Allowed e e') : Inv (s.record e) where
  established := h.established
  notClosed := h.notClosed
  waiting := h.waiting
  managed := h.managed
  held := h.held
  pending := h.pending
  distinct := h.distinct
  events e' he' := by
    have hsame (e₁ : Event) (h₁ : Fits s e₁) : Fits (s.record e) e₁ :=
      h₁.mono _ le_rfl (fun _ _ hu => hu) fun _ _ he => .inl he
    rcases List.mem_cons.mp he' with rfl | he'
    · exact hsame _ hfits
    · exact hsame _ (h.events _ he')
  ordered := List.pairwise_cons.mpr ⟨hallowed, h.ordered⟩

lemma Inv.markUsed (h : Inv s) : Inv (s.markUsed token) where
  established := h.established
  notClosed := h.notClosed
  waiting := h.waiting
  managed t ht := by
    rw [markUsed_managerOf]
    exact h.managed t ht
  held := h.held
  pending m e he := by
    rw [markUsed_managerOf]
    exact h.pending m e he
  distinct := h.distinct
  events e he := by
    refine (h.events e he).mono (s.markUsed token) le_rfl (fun t _ hu => ?_) fun _ _ he => .inl he
    rw [markUsed_isUsed, hu, Bool.true_or]
  ordered := h.ordered

lemma Inv.createConnectionManager (h : Inv s) : Inv s.createConnectionManager := by
  have hold (m : ℕ) (hm : m ≠ s.nmanagers) :
      s.createConnectionManager.managers m = s.managers m := Function.update_of_ne hm _ _
  have hnew : s.createConnectionManager.managers s.nmanagers = newManager :=
    Function.update_self ..
  have hqueue (m : ℕ) : s.createConnectionManager.queue m =
      if m = s.nmanagers then [] else s.queue m := by
    split
    · next hm => rw [hm, State.queue, hnew, newManager]
    · next hm => rw [State.queue, hold m hm]
  have hmem (m : ℕ) (e : ℕ × ConnectFun) (he : e ∈ s.createConnectionManager.queue m) :
      e ∈ s.queue m := by
    rw [hqueue] at he
    split at he
    · cases he
    · exact he
  refine ⟨?_, h.notClosed, fun m => ?_, fun t ht => (h.managed t ht).trans (Nat.lt_succ_self _),
    h.held, fun m e he => h.pending m e (hmem m e he), fun m => ?_, fun e he => ?_, h.ordered⟩
  · refine h.established.trans ?_
    rw [show s.createConnectionManager.nmanagers = s.nmanagers + 1 from rfl,
      Finset.sum_range_succ, hnew, newManager, add_zero]
    refine Finset.sum_congr rfl fun m hm => ?_
    rw [hold m (Finset.mem_range.mp hm).ne]
  · by_cases hm : m = s.nmanagers
    · rw [State.queue, hm, hnew, newManager, List.length_nil, Nat.cast_zero]
    · rw [State.queue, hold m hm]
      exact h.waiting m
  · rw [hqueue]
    split
    · exact List.nodup_nil
    · exact h.distinct m
  · exact (h.events e he).mono s.createConnectionManager le_rfl (fun _ _ hu => hu)
      fun m e he => .inl (hmem m e he)

lemma Inv.createToken (h : Inv s) (hm : manager < s.nmanagers) :
    Inv (s.createToken manager) := by
  have hold (t : ℕ) (ht : t < s.ntokens) : (s.createToken manager).tokens t = s.tokens t :=
    Function.update_of_ne ht.ne _ _
  refine ⟨h.established, h.notClosed, h.waiting, fun t ht => ?_, fun x hx => ?_, fun m e he => ?_,
    h.distinct, fun e he => ?_, h.ordered⟩
  · rcases Nat.lt_succ_iff_lt_or_eq.mp ht with ht | rfl
    · rw [State.managerOf, hold t ht]
      exact h.managed t ht
    · simpa [State.managerOf, State.createToken] using hm
  · exact (h.held x hx).trans (Nat.lt_succ_self _)
  · obtain ⟨hlt, hme⟩ := h.pending m e he
    refine ⟨hlt.trans (Nat.lt_succ_self _), ?_⟩
    rw [State.managerOf, hold _ hlt]
    exact hme
  · refine (h.events e he).mono (s.createToken manager) (Nat.le_succ _) (fun t ht hu => ?_)
      fun _ _ he => .inl he
    rw [State.isUsed, hold t ht]
    exact hu

-- A manager may get another queue: one in which the tokens are its own, and not the old ones.
lemma Inv.setQueue (h : Inv s) {q : List (ℕ × ConnectFun)} {n : ℤ} (hn : n = q.length)
    (hq : ∀ e ∈ q, e.1 < s.ntokens ∧ s.managerOf e.1 = manager)
    (hnodup : (q.map Prod.fst).Nodup)
    (hran : ∀ e ∈ q, e ∈ s.queue manager ∨ ∀ e' ∈ s.history, ∀ a b c d, e' ≠ .ran e.1 a b c d) :
    Inv (s.setManager manager { s.managers manager with
      waitingConnections := q
      nwaitingConnections := n }) := by
  have hqueue (m : ℕ) : (s.setManager manager { s.managers manager with
      waitingConnections := q
      nwaitingConnections := n }).queue m = if m = manager then q else s.queue m := by
    by_cases hm : m = manager
    · simp [State.queue, State.setManager, hm]
    · simp [State.queue, State.setManager, hm]
  refine ⟨?_, h.notClosed, fun m => ?_, h.managed, h.held, fun m e he => ?_, fun m => ?_,
    fun e he => ?_, h.ordered⟩
  · rw [show (State.setManager s manager _).openedConnections = s.openedConnections from rfl,
      h.established]
    refine Finset.sum_congr rfl fun m _ => ?_
    by_cases hm : m = manager
    · simp [State.setManager, hm]
    · simp [State.setManager, hm]
  · rw [hqueue]
    by_cases hm : m = manager
    · simp [State.setManager, hm, hn]
    · simpa [State.setManager, hm] using h.waiting m
  · rw [hqueue] at he
    split at he
    · next hm => exact hm ▸ hq e he
    · exact h.pending m e he
  · rw [hqueue]
    split
    · exact hnodup
    · exact h.distinct m
  · have hfits := h.events e he
    cases e with
    | ran t thisSecond perSecond opened maxWanted =>
      obtain ⟨hlt, hsecond, hopened, hnone⟩ := hfits
      refine ⟨hlt, hsecond, hopened, fun m e' he' => ?_⟩
      rw [hqueue] at he'
      split at he'
      · rcases hran e' he' with hold | hnew
        · exact hnone _ e' hold
        · rintro rfl
          exact hnew _ he _ _ _ _ rfl
      · exact hnone m e' he'
    | processed t f => exact hfits
    | cancelled t => exact hfits
    | used t => trivial

lemma Inv.addPendingConnection (h : Inv s) (hm : manager < s.nmanagers) :
    Inv (s.addPendingConnection manager f) := by
  have hmade := h.createToken hm
  have hold (e : ℕ × ConnectFun) (he : e ∈ s.queue manager) : e.1 < s.ntokens :=
    (h.pending manager e he).1
  refine hmade.setQueue ?_ (fun e he => ?_) ?_ fun e he => ?_
  · simpa [State.queue, State.createToken] using h.waiting manager
  · rcases List.mem_append.mp he with he | he
    · exact hmade.pending manager e he
    · rw [List.mem_singleton.mp he]
      exact ⟨Nat.lt_succ_self _, by simp [State.managerOf, State.createToken]⟩
  · rw [List.map_append, List.nodup_append]
    refine ⟨h.distinct manager, List.nodup_singleton _, fun t ht t' ht' => ?_⟩
    obtain ⟨e, he, rfl⟩ := List.mem_map.mp ht
    rw [List.mem_singleton.mp ht']
    exact (hold e he).ne
  · rcases List.mem_append.mp he with he | he
    · exact .inl he
    · rw [List.mem_singleton.mp he]
      refine .inr ?_
      rintro _ he' a b c d rfl
      exact lt_irrefl _ (h.events _ he').1

-- The rest of a queue when its first connection has been taken
def State.pop (s : State) (manager : ℕ) (waiting : List (ℕ × ConnectFun)) : State :=
  s.setManager manager { s.managers manager with
    waitingConnections := waiting
    nwaitingConnections := (s.managers manager).nwaitingConnections - 1 }

lemma pop_queue {waiting : List (ℕ × ConnectFun)} (i : ℕ) :
    (s.pop manager waiting).queue i = if i = manager then waiting else s.queue i := by
  by_cases hi : i = manager
  · simp [State.queue, State.pop, State.setManager, hi]
  · simp [State.queue, State.pop, State.setManager, hi]

lemma Inv.pop (h : Inv s) {waiting : List (ℕ × ConnectFun)}
    (hq : s.queue manager = (token, f) :: waiting) : Inv (s.pop manager waiting) := by
  have hmem (e : ℕ × ConnectFun) (he : e ∈ waiting) : e ∈ s.queue manager :=
    hq ▸ List.mem_cons_of_mem _ he
  have hdistinct := h.distinct manager
  rw [hq, List.map_cons, List.nodup_cons] at hdistinct
  refine h.setQueue ?_ (fun e he => h.pending manager e (hmem e he)) hdistinct.2
    fun e he => .inl (hmem e he)
  rw [h.waiting, hq]
  simp

-- The token that is taken was in no other place.
lemma Inv.taken (h : Inv s) {waiting : List (ℕ × ConnectFun)}
    (hq : s.queue manager = (token, f) :: waiting) :
    token < s.ntokens ∧ (∀ m, ∀ e ∈ (s.pop manager waiting).queue m, e.1 ≠ token) ∧
      ∀ a b c d, Event.ran token a b c d ∉ s.history := by
  have hmem : (token, f) ∈ s.queue manager := hq ▸ List.mem_cons_self
  have hdistinct := h.distinct manager
  rw [hq, List.map_cons, List.nodup_cons] at hdistinct
  obtain ⟨hlt, hmanager⟩ := h.pending manager _ hmem
  refine ⟨hlt, ?_, ?_⟩
  · rintro m e he rfl
    rw [pop_queue] at he
    split at he
    · exact hdistinct.1 (List.mem_map.mpr ⟨e, he, rfl⟩)
    · next hm => exact hm ((h.pending m e he).2.symm.trans hmanager)
  · intro a b c d hran
    exact (h.events _ hran).2.2.2 manager _ hmem rfl

-- The state with one more connection of the manager, or one less
def State.establish (s : State) (m : ℕ) (d : ℤ) : State :=
  { s.setManager m { s.managers m with
      nestablishedConnections := (s.managers m).nestablishedConnections + d } with
    openedConnections := s.openedConnections + d }

lemma establish_queue (d : ℤ) (i : ℕ) : (s.establish m d).queue i = s.queue i := by
  by_cases hi : i = m
  · simp [State.queue, State.establish, State.setManager, hi]
  · simp [State.queue, State.establish, State.setManager, hi]

lemma establish_nwaiting (d : ℤ) (i : ℕ) :
    ((s.establish m d).managers i).nwaitingConnections = (s.managers i).nwaitingConnections := by
  by_cases hi : i = m
  · simp [State.establish, State.setManager, hi]
  · simp [State.establish, State.setManager, hi]

lemma establish_nestablished (d : ℤ) (i : ℕ) :
    ((s.establish m d).managers i).nestablishedConnections =
      (s.managers i).nestablishedConnections + if i = m then d else 0 := by
  by_cases hi : i = m
  · simp [State.establish, State.setManager, hi]
  · simp [State.establish, State.setManager, hi]

-- A connection comes or goes together with a socket.
lemma Inv.establish (h : Inv s) (hm : m < s.nmanagers) {d : ℤ} {sockets : ℕ → T} {n : ℕ}
    (hsum : (∑ x ∈ Finset.range n, if (sockets x).closing then 0 else 1) =
      (∑ x ∈ Finset.range s.nsockets, if (s.sockets x).closing then 0 else 1) + d)
    (hheld : ∀ x < n, (sockets x).token < s.ntokens) :
    Inv { s.establish m d with sockets := sockets, nsockets := n } where
  established := by
    refine Eq.trans ?_ (sum_bump hm d (establish_nestablished d)).symm
    exact congrArg (· + d) h.established
  notClosed := by
    rw [hsum]
    exact congrArg (· + d) h.notClosed
  waiting i := by
    show ((s.establish m d).managers i).nwaitingConnections = ((s.establish m d).queue i).length
    rw [establish_nwaiting, establish_queue]
    exact h.waiting i
  managed := h.managed
  held := hheld
  pending i e he := by
    have he : e ∈ (s.establish m d).queue i := he
    rw [establish_queue] at he
    exact h.pending i e he
  distinct i := by
    show (((s.establish m d).queue i).map Prod.fst).Nodup
    rw [establish_queue]
    exact h.distinct i
  events e he := by
    refine (h.events e he).mono _ le_rfl (fun _ _ hu => hu) fun i e he => ?_
    have he : e ∈ (s.establish m d).queue i := he
    rw [establish_queue] at he
    exact .inl he
  ordered := h.ordered

-- What `create` makes of a token that is not used
def State.withSocket (s : State) (token : ℕ) : State :=
  { (s.markUsed token).establish (s.managerOf token) 1 with
    openedConnectionsThisSecond := s.openedConnectionsThisSecond + 1
    sockets := Function.update s.sockets s.nsockets ⟨token, false⟩
    nsockets := s.nsockets + 1
    history := .used token :: s.history }

lemma create_eq (hunused : s.isUsed token = false) :
    s.create token = some (s.withSocket token) := by
  have hmanager := @markUsed_managerOf s token token
  have hunused : (s.tokens token).tokenUsed = false := hunused
  simp only [State.create, State.useToken, hunused, Bool.false_eq_true, if_false, Option.map_some]
  rw [show ((s.markUsed token).tokens token).connectionManager = s.managerOf token from hmanager]
  rfl

lemma withSocket_isUsed : (s.withSocket token).isUsed token = true := by
  have hused := @markUsed_isUsed s token token
  rw [decide_eq_true rfl, Bool.or_true] at hused
  exact hused

lemma withSocket_queue (i : ℕ) : (s.withSocket token).queue i = s.queue i :=
  establish_queue 1 i

lemma Inv.withSocket (h : Inv s) (ht : token < s.ntokens)
    (hunused : s.isUsed token = false) : Inv (s.withSocket token) := by
  have hnew (x : ℕ) (hx : x < s.nsockets) :
      Function.update s.sockets s.nsockets ⟨token, false⟩ x = s.sockets x :=
    Function.update_of_ne hx.ne _ _
  have hsum : (∑ x ∈ Finset.range (s.nsockets + 1), if (Function.update s.sockets s.nsockets
      ⟨token, false⟩ x).closing then 0 else 1) =
        (∑ x ∈ Finset.range s.nsockets, if (s.sockets x).closing then 0 else 1) + (1 : ℤ) := by
    rw [Finset.sum_range_succ, Function.update_self]
    congr 1
    refine Finset.sum_congr rfl fun x hx => ?_
    rw [hnew x (Finset.mem_range.mp hx)]
  have hheld : ∀ x < s.nsockets + 1,
      (Function.update s.sockets s.nsockets ⟨token, false⟩ x).token < s.ntokens := by
    intro x hx
    rcases Nat.lt_succ_iff_lt_or_eq.mp hx with hx | rfl
    · rw [hnew x hx]
      exact h.held x hx
    · rw [Function.update_self]
      exact ht
  have hmade := (@Inv.markUsed s token h).establish (h.managed token ht) hsum hheld
  have hused : ∀ e ∈ s.history, Allowed (.used token) e := by
    intro e he
    cases e with
    | processed t f =>
      rintro rfl
      by_contra hf
      have hfits := (h.events _ he).2 (Bool.eq_false_iff.mpr hf)
      exact absurd (hunused.symm.trans hfits) Bool.false_ne_true
    | ran => trivial
    | used => trivial
    | cancelled => trivial
  have hrecord := @Inv.record _ hmade (.used token) trivial hused
  exact ⟨hrecord.established, hrecord.notClosed, hrecord.waiting, hrecord.managed, hrecord.held,
    hrecord.pending, hrecord.distinct, hrecord.events, hrecord.ordered⟩

lemma close_eq (hopen : (s.sockets sock).closing = false) :
    s.close sock = { s.establish (s.managerOf (s.sockets sock).token) (-1) with
      sockets := Function.update s.sockets sock { s.sockets sock with closing := true } } := by
  simp only [State.close, hopen, Bool.false_eq_true, if_false]
  rfl

lemma Inv.close (h : Inv s) (hsock : sock < s.nsockets) : Inv (s.close sock) := by
  cases hclosing : (s.sockets sock).closing with
  | true => rwa [State.close, if_pos hclosing]
  | false =>
    rw [close_eq hclosing]
    refine h.establish (h.managed _ (h.held _ hsock)) (sum_bump hsock (-1) fun x => ?_)
      fun x hx => ?_
    · by_cases hx : x = sock
      · simp [hx, hclosing]
      · simp [hx]
    · by_cases hsame : x = sock
      · simpa [hsame] using h.held _ hsock
      · rw [Function.update_of_ne hsame]
        exact h.held x hx

lemma close_queue (i : ℕ) : (s.close sock).queue i = s.queue i := by
  cases hclosing : (s.sockets sock).closing with
  | true => rw [State.close, if_pos hclosing]
  | false =>
    rw [close_eq hclosing]
    exact establish_queue (-1) i

lemma close_same : (s.close sock).tokens = s.tokens ∧ (s.close sock).ntokens = s.ntokens ∧
    (s.close sock).nmanagers = s.nmanagers := by
  rw [State.close]
  split <;> exact ⟨rfl, rfl, rfl⟩

end Steps

section Scheduler

lemma call_spec (hunused : s.isUsed token = false) :
    (Inv s → token < s.ntokens → Inv (s.call f token).1) ∧
      (∀ m, (s.call f token).1.queue m = s.queue m) ∧
      (s.call f token).1.ntokens = s.ntokens ∧ (s.call f token).1.nmanagers = s.nmanagers ∧
      (s.call f token).2 = f.raises ∧ (s.call f token).1.isUsed token = f.opens := by
  by_cases hopens : f.opens
  · simp only [State.call, hopens, if_true, create_eq hunused]
    by_cases hcloses : f.closes
    · simp only [hcloses, if_true]
      obtain ⟨htokens, hn, hmanagers⟩ := @close_same (s.withSocket token) s.nsockets
      refine ⟨fun h ht => (h.withSocket ht hunused).close (Nat.lt_succ_self _), fun m => ?_, hn,
        hmanagers, trivial, ?_⟩
      · rw [close_queue, withSocket_queue]
      · rw [State.isUsed, htokens]
        exact withSocket_isUsed
    · simp only [hcloses, Bool.false_eq_true, if_false]
      exact ⟨fun h ht => h.withSocket ht hunused, withSocket_queue, rfl, rfl, trivial,
        withSocket_isUsed⟩
  · simp only [State.call, hopens, Bool.false_eq_true, if_false]
    exact ⟨fun h _ => h, fun _ => trivial, trivial, trivial, trivial, hunused⟩

-- The state in which a pending function is called
def State.ran (s : State) (a b : ℤ) (token : ℕ) : State :=
  s.record (.ran token s.openedConnectionsThisSecond b s.openedConnections a)

lemma takeConnection_nil (hq : s.queue m = []) : s.takeConnection a b m = (s, false) := by
  have hq : (s.managers m).waitingConnections = [] := hq
  simp only [State.takeConnection, hq]

lemma takeConnection_used {waiting : List (ℕ × ConnectFun)}
    (hq : s.queue m = (token, f) :: waiting) (hused : s.isUsed token = true) :
    s.takeConnection a b m =
      (((s.pop m waiting).markUsed token).record (.processed token f), true) := by
  have hq : (s.managers m).waitingConnections = (token, f) :: waiting := hq
  simp only [State.takeConnection, hq]
  exact if_pos hused

lemma takeConnection_call {waiting : List (ℕ × ConnectFun)}
    (hq : s.queue m = (token, f) :: waiting) (hunused : s.isUsed token = false) :
    s.takeConnection a b m =
      if f.raises then
        ((((s.pop m waiting).ran a b token).call f token).1.record (.processed token f), false)
      else
        (((((s.pop m waiting).ran a b token).call f token).1.markUsed token).record
          (.processed token f), true) := by
  have hq : (s.managers m).waitingConnections = (token, f) :: waiting := hq
  have hraises := (@call_spec ((s.pop m waiting).ran a b token) token f hunused).2.2.2.2.1
  have hne : ¬ s.isUsed token = true := by simp [hunused]
  simp only [State.takeConnection, hq]
  refine (if_neg hne).trans ?_
  show State.afterCall token f (((s.pop m waiting).ran a b token).call f token) = _
  generalize ((s.pop m waiting).ran a b token).call f token = called at hraises
  obtain ⟨s', raised⟩ := called
  cases raised with
  | true => exact (if_pos hraises.symm).symm
  | false => exact (if_neg (by simp [← hraises])).symm

lemma takeConnection_spec : (s.takeConnection a b m).1.nmanagers = s.nmanagers ∧
    (∀ i, (s.takeConnection a b m).1.queue i = if i = m then (s.queue m).tail else s.queue i) ∧
      ((s.takeConnection a b m).2 = true → s.queue m ≠ []) := by
  cases hq : s.queue m with
  | nil =>
    rw [takeConnection_nil hq]
    refine ⟨rfl, fun i => ?_, fun h => absurd h Bool.false_ne_true⟩
    split
    · next hi => rw [hi, hq, List.tail_nil]
    · rfl
  | cons e waiting =>
    obtain ⟨token, f⟩ := e
    have hpop (i : ℕ) := @pop_queue s m waiting i
    cases hused : s.isUsed token with
    | true =>
      rw [takeConnection_used hq hused]
      exact ⟨rfl, hpop, fun _ => List.cons_ne_nil _ _⟩
    | false =>
      obtain ⟨-, hqueue, -, hmanagers, -, -⟩ :=
        @call_spec ((s.pop m waiting).ran a b token) token f hused
      rw [takeConnection_call hq hused]
      have hcall (i : ℕ) := (hqueue i).trans (hpop i)
      split
      · exact ⟨hmanagers, hcall, fun _ => List.cons_ne_nil _ _⟩
      · exact ⟨hmanagers, hcall, fun _ => List.cons_ne_nil _ _⟩

lemma Inv.takeConnection (h : Inv s) (hsecond : s.openedConnectionsThisSecond < b)
    (hopened : s.openedConnections < a) : Inv (s.takeConnection a b m).1 := by
  cases hq : s.queue m with
  | nil =>
    rw [takeConnection_nil hq]
    exact h
  | cons e waiting =>
    obtain ⟨token, f⟩ := e
    obtain ⟨hlt, hnone, hran⟩ := h.taken hq
    have hpop := h.pop hq
    have hprocessed (s : State) (e : Event) : Allowed (.processed token f) e := by
      cases e <;> trivial
    cases hused : s.isUsed token with
    | true =>
      rw [takeConnection_used hq hused]
      refine (@Inv.markUsed _ token hpop).record ⟨hlt, fun _ => ?_⟩ fun e _ => hprocessed s e
      rw [markUsed_isUsed, decide_eq_true rfl, Bool.or_true]
    | false =>
      have hallowed : ∀ e ∈ s.history,
          Allowed (.ran token s.openedConnectionsThisSecond b s.openedConnections a) e := by
        intro e he
        cases e with
        | ran t a b c d =>
          rintro rfl
          exact hran _ _ _ _ he
        | cancelled t =>
          rintro rfl
          exact absurd (hused.symm.trans (h.events _ he).2) Bool.false_ne_true
        | processed => trivial
        | used => trivial
      have hcalled : Inv ((s.pop m waiting).ran a b token) :=
        hpop.record ⟨hlt, hsecond, hopened, hnone⟩ hallowed
      obtain ⟨hinv, -, hn, -, -, hopens⟩ :=
        @call_spec ((s.pop m waiting).ran a b token) token f hused
      have hdone := hinv hcalled hlt
      have hlt' := hn.symm ▸ hlt
      rw [takeConnection_call hq hused]
      split
      · next hraises =>
        refine hdone.record ⟨hlt', fun hf => ?_⟩ fun e _ => hprocessed s e
        rw [hopens]
        simpa [ConnectFun.raisesBefore, hraises] using hf
      · refine (@Inv.markUsed _ token hdone).record ⟨hlt', fun _ => ?_⟩ fun e _ => hprocessed s e
        rw [markUsed_isUsed, decide_eq_true rfl, Bool.or_true]

lemma create_none_iff : s.create token = none ↔ s.isUsed token = true := by
  cases hused : s.isUsed token with
  | true =>
    have hused : (s.tokens token).tokenUsed = true := hused
    simp [State.create, State.useToken, hused]
  | false => simp [create_eq hused]

-- Whether the token of a function that is called can be used behind the scheduler's back
lemma takeConnection_isUsed {waiting : List (ℕ × ConnectFun)}
    (hq : s.queue m = (token, f) :: waiting) (hunused : s.isUsed token = false) :
    (s.takeConnection a b m).1.isUsed token = !f.raisesBefore := by
  obtain ⟨-, -, -, -, -, hopens⟩ :=
    @call_spec ((s.pop m waiting).ran a b token) token f hunused
  rw [takeConnection_call hq hunused]
  split
  · next hraises =>
    refine hopens.trans ?_
    simp [ConnectFun.raisesBefore, hraises]
  · next hraises =>
    refine (markUsed_isUsed token).trans ?_
    simp [ConnectFun.raisesBefore, hraises]

lemma iter_inv {fuel : ℕ} {todo done : List ℕ} (h : Inv s)
    (hiter : State.iter a b fuel todo done s = some s') : Inv s' := by
  induction fuel generalizing todo done s with
  | zero => cases hiter
  | succ fuel ih =>
    cases todo with
    | nil =>
      cases done with
      | nil =>
        cases hiter
        exact h
      | cons manager done => exact ih h hiter
    | cons manager tail =>
      rw [State.iter] at hiter
      split at hiter
      · next hlimits =>
        have hnext : Inv (s.takeConnection a b manager).1 := h.takeConnection hlimits.1 hlimits.2
        split at hiter
        all_goals
          next s₁ htaken =>
          rw [htaken] at hnext
          exact ih hnext hiter
      · exact ih h hiter

-- More fuel gives the same.
lemma iter_mono {fuel : ℕ} {todo done : List ℕ}
    (hiter : State.iter a b fuel todo done s = some s') :
    State.iter a b (fuel + 1) todo done s = some s' := by
  induction fuel generalizing todo done s with
  | zero => cases hiter
  | succ fuel ih =>
    cases todo with
    | nil =>
      cases done with
      | nil => exact hiter
      | cons manager done => exact ih hiter
    | cons manager tail =>
      rw [State.iter] at hiter ⊢
      split at hiter
      · next hlimits =>
        rw [if_pos hlimits]
        split at hiter
        all_goals exact ih hiter
      · next hlimits =>
        rw [if_neg hlimits]
        exact ih hiter

-- The connections that wait
lemma waiting_takeConnection (hm : m < s.nmanagers) :
    (s.takeConnection a b m).1.waiting + (if (s.takeConnection a b m).2 then 1 else 0) ≤
      s.waiting := by
  obtain ⟨hn, hqueue, htaken⟩ := @takeConnection_spec s m a b
  have hm' : m ∈ Finset.range s.nmanagers := Finset.mem_range.mpr hm
  have hrest : ∑ i ∈ (Finset.range s.nmanagers).erase m,
      ((s.takeConnection a b m).1.queue i).length =
        ∑ i ∈ (Finset.range s.nmanagers).erase m, (s.queue i).length := by
    refine Finset.sum_congr rfl fun i hi => ?_
    rw [hqueue, if_neg (Finset.ne_of_mem_erase hi)]
  have hhere : ((s.takeConnection a b m).1.queue m).length = (s.queue m).length - 1 := by
    rw [hqueue, if_pos rfl, List.length_tail]
  have hsum (s : State) : s.waiting = ∑ i ∈ Finset.range s.nmanagers, (s.queue i).length := rfl
  rw [hsum, hsum, hn, ← Finset.add_sum_erase _ _ hm', ← Finset.add_sum_erase _ _ hm', hrest,
    hhere]
  split
  · next h =>
    have hpos := List.length_pos_iff.mpr (htaken h)
    omega
  · omega

-- Every round of the loop takes a connection or drops a manager.
lemma iter_isSome {fuel : ℕ} {todo done : List ℕ}
    (hknown : ∀ m ∈ todo ++ done, m < s.nmanagers)
    (hfuel : 2 * (s.waiting + (todo.length + done.length)) + (if todo = [] then 1 else 0) ≤
      fuel) : ∃ s', State.iter a b fuel todo done s = some s' := by
  induction fuel generalizing todo done s with
  | zero =>
    cases todo with
    | nil => simp at hfuel
    | cons manager tail => simp at hfuel
  | succ fuel ih =>
    cases todo with
    | nil =>
      cases done with
      | nil => exact ⟨s, rfl⟩
      | cons manager done =>
        refine ih (by simpa using hknown) ?_
        simp only [if_pos, List.length_nil, Nat.zero_add, reduceCtorEq, if_false] at hfuel ⊢
        omega
    | cons manager tail =>
      have hm : manager < s.nmanagers := hknown manager (by simp)
      have htail : ∀ m ∈ tail ++ done, m < s.nmanagers :=
        fun m hm => hknown m (List.mem_cons_of_mem _ hm)
      have hle : (if tail = [] then 1 else 0) ≤ 1 := by split <;> omega
      simp only [reduceCtorEq, if_false, List.length_cons] at hfuel
      rw [State.iter]
      split
      · have hwaiting := @waiting_takeConnection s manager a b hm
        obtain ⟨hn, -, -⟩ := @takeConnection_spec s manager a b
        split
        · next s₁ htaken =>
          rw [htaken] at hwaiting hn
          refine ih (fun m hm => ?_) ?_
          · rw [hn]
            exact hknown m (List.perm_middle.mem_iff.mp hm)
          · simp only [if_true, List.length_cons] at hwaiting ⊢
            omega
        · next s₁ htaken =>
          rw [htaken] at hwaiting hn
          refine ih (fun m hm => hn ▸ htail m hm) ?_
          simp only [Bool.false_eq_true, if_false] at hwaiting
          omega
      · exact ih htail (by omega)

end Scheduler

section Runs

lemma known_connectionManagers : ∀ m ∈ s.connectionManagers ++ [], m < s.nmanagers := by
  intro m hm
  rw [List.append_nil, State.connectionManagers, List.mem_reverse, List.mem_range] at hm
  exact hm

lemma schedule_isSome {fuel : ℕ} (hfuel : s.rounds ≤ fuel) :
    ∃ s', s.scheduleConnections fuel a b = some s' := by
  refine iter_isSome known_connectionManagers (le_trans ?_ hfuel)
  rw [State.connectionManagers, List.length_reverse, List.length_range, State.rounds]
  split <;> simp

lemma schedule_mono {fuel : ℕ} (hfuel : s.rounds ≤ fuel) :
    s.scheduleConnections fuel a b = some (step (.scheduleConnections a b) s) := by
  induction fuel, hfuel using Nat.le_induction with
  | base =>
    obtain ⟨s', hs'⟩ := @schedule_isSome s a b _ le_rfl
    rw [step, hs', Option.getD_some]
  | succ fuel _ ih => exact iter_mono ih

lemma Inv.step (h : Inv s) (op : Op) (hknown : Known s op) : Inv (step op s) := by
  cases op with
  | createConnectionManager => exact h.createConnectionManager
  | createToken manager => exact h.createToken hknown
  | addPendingConnection manager f => exact h.addPendingConnection hknown
  | cancelToken token =>
    refine (@Inv.markUsed _ token h).record ⟨hknown, ?_⟩ fun e _ => by cases e <;> trivial
    rw [markUsed_isUsed, decide_eq_true rfl, Bool.or_true]
  | create token =>
    cases hused : s.isUsed token with
    | true =>
      rw [TcpConnections.step, create_none_iff.mpr hused]
      exact h
    | false =>
      rw [TcpConnections.step, create_eq hused]
      exact h.withSocket hknown hused
  | scheduleConnections a b => exact iter_inv h (schedule_mono le_rfl)
  | resetConnectionScheduler =>
    exact ⟨h.established, h.notClosed, h.waiting, h.managed, h.held, h.pending, h.distinct,
      h.events, h.ordered⟩
  | close sock => exact h.close hknown
  | shutdown sock => exact h.close hknown

lemma inv_initial : Inv State.initial where
  established := rfl
  notClosed := rfl
  waiting _ := rfl
  managed t ht := absurd ht (Nat.not_lt_zero t)
  held x hx := absurd hx (Nat.not_lt_zero x)
  pending m e he := by cases he
  distinct _ := List.nodup_nil
  events e he := by cases he
  ordered := .nil

end Runs

-- What the counters, the queues and the past of a state are to be
structure Correct (s : State) : Prop where
  established : s.openedConnections =
    ∑ m ∈ Finset.range s.nmanagers, (s.managers m).nestablishedConnections
  notClosed : s.openedConnections =
    ((Finset.range s.nsockets).filter fun x => (s.sockets x).closing = false).card
  waiting : ∀ m, (s.managers m).nwaitingConnections = (s.queue m).length
  terminates : ∀ (maxWanted perSecond : ℤ) (fuel : ℕ), s.rounds ≤ fuel →
    s.scheduleConnections fuel maxWanted perSecond =
      some (step (.scheduleConnections maxWanted perSecond) s)
  limits : ∀ t thisSecond perSecond opened maxWanted,
    .ran t thisSecond perSecond opened maxWanted ∈ s.history →
      thisSecond < perSecond ∧ opened < maxWanted
  once : s.history.Pairwise fun newer older =>
    ∀ t a b c d a' b' c' d', newer = .ran t a b c d → older ≠ .ran t a' b' c' d'
  notCancelled : s.history.Pairwise fun newer older =>
    ∀ t a b c d, newer = .ran t a b c d → older ≠ .cancelled t

-- A token that the scheduler has processed is not used afterwards.
def NotRevived (s : State) (t : ℕ) (f : ConnectFun) : Prop :=
  s.history.Pairwise fun newer older => newer = .used t → older ≠ .processed t f

lemma Inv.correct (h : Inv s) : Correct s where
  established := h.established
  notClosed := by
    rw [h.notClosed, Finset.card_filter, Nat.cast_sum]
    refine Finset.sum_congr rfl fun x _ => ?_
    cases (s.sockets x).closing <;> rfl
  waiting := h.waiting
  terminates _ _ _ hfuel := schedule_mono hfuel
  limits t a b c d hran := ⟨(h.events _ hran).2.1, (h.events _ hran).2.2.1⟩
  once := by
    refine h.ordered.imp ?_
    rintro _ _ hallowed t a b c d a' b' c' d' rfl rfl
    exact hallowed rfl
  notCancelled := by
    refine h.ordered.imp ?_
    rintro _ _ hallowed t a b c d rfl rfl
    exact hallowed rfl

lemma Inv.notRevived (h : Inv s) (t : ℕ) (hf : f.raisesBefore = false) : NotRevived s t f := by
  refine h.ordered.imp ?_
  rintro _ _ hallowed rfl rfl
  exact absurd (hf.symm.trans (hallowed rfl)) Bool.false_ne_true

-- The counters and the scheduler in every run. A token can be used behind the scheduler's back
-- exactly if its function raises before it has used it.
theorem connections_accounted (h : Reach step (fun s => s = State.initial) Known s) :
    Correct s ∧ (∀ t f, f.raisesBefore = false → NotRevived s t f) ∧
      ∀ (a b : ℤ) (m t : ℕ) (f : ConnectFun) (rest : List (ℕ × ConnectFun)),
        s.queue m = (t, f) :: rest → s.isUsed t = false →
        ((s.takeConnection a b m).1.create t = none ↔ f.raisesBefore = false) := by
  have hinv : Inv s := by
    refine h.inv ?_ fun s op hs hop => hs.step op hop
    rintro s rfl
    exact inv_initial
  refine ⟨hinv.correct, fun t f hf => hinv.notRevived t hf, ?_⟩
  intro a b m t f rest hq hunused
  rw [create_none_iff, takeConnection_isUsed hq hunused, Bool.not_eq_true']

-- A function that raises at once, the scheduler, and then its token
def revived : State :=
  step (.create 0) (step (.scheduleConnections 20 5)
    (step (.addPendingConnection 0 ⟨false, false, true⟩) .initial))

-- A connection that fails, with its socket closed twice
def failed : State :=
  step (.close 0) (step (.close 0) (step (.scheduleConnections 20 5)
    (step (.addPendingConnection 0 ⟨true, true, true⟩) .initial)))

theorem connections_accounted_failed : Correct failed ∧ failed.openedConnections = 0 := by
  have hreach : Reach step (fun s => s = State.initial) Known failed :=
    .step (.step (.step (.step (.start rfl) (show 0 < 1 by decide)) trivial)
      (show 0 < 1 by decide)) (show 0 < 1 by decide)
  exact ⟨(connections_accounted hreach).1, rfl⟩

-- The socket is opened with a token that has been processed.
theorem token_revived :
    ¬ ∀ s, Reach step (fun s => s = State.initial) Known s → ∀ t f, NotRevived s t f := by
  intro h
  have hreach : Reach step (fun s => s = State.initial) Known revived :=
    .step (.step (.step (.start rfl) (show 0 < 1 by decide)) trivial) (show 0 < 1 by decide)
  have hpast : revived.history = [.used 0, .processed 0 ⟨false, false, true⟩,
      .ran 0 0 5 0 20] := rfl
  have hnot := h revived hreach 0 ⟨false, false, true⟩
  rw [NotRevived, hpast, List.pairwise_cons] at hnot
  exact hnot.1 _ List.mem_cons_self rfl rfl

end Mldonkey.TcpConnections
