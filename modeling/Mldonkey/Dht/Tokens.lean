import Mldonkey.Lib.Runs
import Mathlib.Tactic

-- The tokens of the DHT: get_peers hands them out and announce_peer has to show
-- them.
namespace Mldonkey.Dht.Tokens

open Runs

variable {ι η σ τ : Type}

-- The secrets of the module Secret.
structure Secret (σ : Type) where
  cur : σ
  prev : σ
  timeout : Int
  next : Int

namespace Secret

-- `s` is what make returns.
def create (tm now : Int) (s : σ) : Secret σ :=
  { cur := s, prev := s, timeout := tm, next := now + tm }

def invalidate (t : Secret σ) (now : Int) (s : σ) : Secret σ :=
  if t.next < now then { t with prev := t.cur, cur := s, next := now + t.timeout } else t

end Secret

inductive Query (η τ : Type)
  | getPeers (h : η)
  | announce (h : η) (token : τ)
  | other

-- A query that is answered; `fresh` is the secret that make returns if it is called.
structure Event (ι η σ τ : Type) where
  now : Int
  addr : ι × Nat
  fresh : σ
  query : Query η τ

-- A token that was sent.
structure Issue (ι η τ : Type) where
  time : Int
  addr : ι × Nat
  hash : η
  token : τ

-- The node with its history: the time of the last query, the secrets that were
-- made, when they were asked for, and the tokens that were sent.
structure Node (ι η σ τ : Type) where
  secret : Secret σ
  clock : Int
  made : List σ
  uses : List Int
  issued : List (Issue ι η τ)

namespace Node

def start (timeout now : Int) (s : σ) : Node ι η σ τ :=
  { secret := .create timeout now s, clock := now, made := [s], uses := [], issued := [] }

-- Every use of the secrets leaves this behind.
def use (n : Node ι η σ τ) (now : Int) (secret : Secret σ) : Node ι η σ τ :=
  { n with secret := secret, clock := now, made := secret.cur :: n.made, uses := now :: n.uses }

end Node

-- The clock does not go back, and a secret that is made is a new one.
def Event.Fits (n : Node ι η σ τ) (e : Event ι η σ τ) : Prop :=
  n.clock ≤ e.now ∧ e.fresh ∉ n.made

-- Of an address the ip alone goes into a token.
variable (makeToken : ι → η → σ → τ)

section

variable [DecidableEq τ]

-- valid_token; get leaves a changed secret behind.
def validToken (addr : ι × Nat) (h : η) (secret : Secret σ) (now : Int) (fresh : σ) (token : τ) :
    Secret σ × Bool :=
  let secret := secret.invalidate now fresh
  (secret, decide (token = makeToken addr.1 h secret.cur) ||
    decide (token = makeToken addr.1 h secret.prev))

namespace Node

def answer (e : Event ι η σ τ) (n : Node ι η σ τ) : Node ι η σ τ :=
  match e.query with
  | .getPeers h =>
      let secret := n.secret.invalidate e.now e.fresh
      let token := makeToken e.addr.1 h secret.cur
      { n.use e.now secret with
        issued := { time := e.now, addr := e.addr, hash := h, token := token } :: n.issued }
  | .announce h token =>
      n.use e.now (validToken makeToken e.addr h n.secret e.now e.fresh token).1
  | .other => { n with clock := e.now }

-- Whether an announce is accepted.
def accepts (n : Node ι η σ τ) (now : Int) (fresh : σ) (addr : ι × Nat) (h : η) (token : τ) :
    Bool :=
  (validToken makeToken addr h n.secret now fresh token).2

end Node

-- The states of a node, after any queries at any times.
def Reachable (timeout : Int) : Node ι η σ τ → Prop :=
  Reach (Node.answer makeToken) (fun n => ∃ now s, n = .start timeout now s) Event.Fits

end

-- The life of a secret under which a token was sent at a time: it is the current
-- one, then the previous one, and then none.
inductive Stage (t : Secret σ) (clock : Int) (uses : List Int) (time : Int) (s : σ) : Prop
  | current (hs : s = t.cur) (hle : time ≤ t.next) (hnext : t.next ≤ time + t.timeout)
  | previous (hs : s = t.prev) (hne : s ≠ t.cur) (hlt : time + t.timeout < t.next)
      (hnext : ∀ u ∈ uses, time + t.timeout < u → t.next ≤ u + t.timeout)
  | gone (hcur : s ≠ t.cur) (hprev : s ≠ t.prev) (hlt : time + t.timeout < clock)

-- What holds of every state that is reached.
structure Invariant (makeToken : ι → η → σ → τ) (timeout : Int) (n : Node ι η σ τ) : Prop where
  timeout_eq : n.secret.timeout = timeout
  cur_mem : n.secret.cur ∈ n.made
  prev_mem : n.secret.prev ∈ n.made
  uses_le : ∀ u ∈ n.uses, u ≤ n.secret.next
  next_le : n.secret.next ≤ n.clock + timeout
  issued : ∀ i ∈ n.issued, ∃ s ∈ n.made, i.token = makeToken i.addr.1 i.hash s ∧
    Stage n.secret n.clock n.uses i.time s

variable {makeToken : ι → η → σ → τ} {timeout now : Int} {n : Node ι η σ τ}
  {e : Event ι η σ τ} {s fresh : σ}

theorem invariant_start (now : Int) (s : σ) :
    Invariant makeToken timeout (Node.start timeout now s) :=
  ⟨rfl, List.mem_singleton.mpr rfl, List.mem_singleton.mpr rfl,
    fun _ hu => absurd hu List.not_mem_nil, le_rfl, fun _ hi => absurd hi List.not_mem_nil⟩

-- One use of the secrets moves a secret along its life.
theorem Stage.use {time : Int} (h : Stage n.secret n.clock n.uses time s)
    (hn : Invariant makeToken timeout n) (hs : s ∈ n.made) (hnow : n.clock ≤ now)
    (hfresh : fresh ∉ n.made) :
    Stage (n.secret.invalidate now fresh) now (now :: n.uses) time s := by
  have hne : s ≠ fresh := fun heq => hfresh (heq ▸ hs)
  have hcurne : n.secret.cur ≠ fresh := fun heq => hfresh (heq ▸ hn.cur_mem)
  by_cases hlate : n.secret.next < now
  · -- The secrets are rotated.
    have hinv : n.secret.invalidate now fresh =
        { n.secret with prev := n.secret.cur, cur := fresh, next := now + n.secret.timeout } :=
      if_pos hlate
    rw [hinv]
    cases h with
    | current hs' hle hnext =>
        refine .previous hs' hne (by dsimp only; omega) fun u hu hlt => ?_
        rcases List.mem_cons.mp hu with rfl | hu
        · exact le_rfl
        · have := hn.uses_le u hu
          dsimp only at hlt
          omega
    | previous hs' hne' hlt hnext =>
        exact .gone hne hne' (by dsimp only; omega)
    | gone hcur hprev hlt =>
        exact .gone hne hcur (by dsimp only; omega)
  · have hinv : n.secret.invalidate now fresh = n.secret := if_neg hlate
    rw [hinv]
    cases h with
    | current hs' hle hnext => exact .current hs' hle hnext
    | previous hs' hne' hlt hnext =>
        refine .previous hs' hne' hlt fun u hu hlt' => ?_
        rcases List.mem_cons.mp hu with rfl | hu
        · have hle := hn.next_le
          have heq := hn.timeout_eq
          omega
        · exact hnext u hu hlt'
    | gone hcur hprev hlt => exact .gone hcur hprev (by omega)

theorem Invariant.use (h : Invariant makeToken timeout n) (htimeout : 0 < timeout)
    (hnow : n.clock ≤ now) (hfresh : fresh ∉ n.made) :
    Invariant makeToken timeout (n.use now (n.secret.invalidate now fresh)) := by
  have hissued : ∀ i ∈ n.issued, ∃ s ∈ (n.use now (n.secret.invalidate now fresh)).made,
      i.token = makeToken i.addr.1 i.hash s ∧
        Stage (n.secret.invalidate now fresh) now (now :: n.uses) i.time s := by
    intro i hi
    obtain ⟨s, hs, htoken, hstage⟩ := h.issued i hi
    exact ⟨s, List.mem_cons_of_mem _ hs, htoken, hstage.use h hs hnow hfresh⟩
  have heq := h.timeout_eq
  by_cases hlate : n.secret.next < now
  · have hinv : n.secret.invalidate now fresh =
        { n.secret with prev := n.secret.cur, cur := fresh, next := now + n.secret.timeout } :=
      if_pos hlate
    rw [hinv] at hissued ⊢
    refine ⟨h.timeout_eq, List.mem_cons_self, List.mem_cons_of_mem _ h.cur_mem, fun u hu => ?_, ?_,
      hissued⟩
    · rcases List.mem_cons.mp hu with rfl | hu
      · dsimp only [Node.use]
        omega
      · have hle := h.uses_le u hu
        dsimp only [Node.use]
        omega
    · dsimp only [Node.use]
      omega
  · have hinv : n.secret.invalidate now fresh = n.secret := if_neg hlate
    rw [hinv] at hissued ⊢
    refine ⟨h.timeout_eq, List.mem_cons_self, List.mem_cons_of_mem _ h.prev_mem, fun u hu => ?_, ?_,
      hissued⟩
    · rcases List.mem_cons.mp hu with rfl | hu
      · exact not_lt.mp hlate
      · exact h.uses_le u hu
    · have hle := h.next_le
      dsimp only [Node.use]
      omega

theorem stage_issue (h : Invariant makeToken timeout n)
    (hnow : now ≤ n.secret.next) (hnext : n.secret.next ≤ now + timeout) :
    Stage n.secret n.clock n.uses now n.secret.cur :=
  .current rfl hnow (by rw [h.timeout_eq]; exact hnext)

theorem Invariant.answer [DecidableEq τ] (h : Invariant makeToken timeout n)
    (htimeout : 0 < timeout) (hfits : e.Fits n) :
    Invariant makeToken timeout (Node.answer makeToken e n) := by
  obtain ⟨hnow, hfresh⟩ := hfits
  have huse := h.use htimeout hnow hfresh
  rw [Node.answer]
  cases e.query with
  | getPeers hash =>
      refine ⟨huse.timeout_eq, huse.cur_mem, huse.prev_mem, huse.uses_le, huse.next_le, ?_⟩
      intro i hi
      rcases List.mem_cons.mp hi with rfl | hi
      · have hstage := stage_issue huse (huse.uses_le _ List.mem_cons_self) huse.next_le
        exact ⟨_, huse.cur_mem, rfl, hstage⟩
      · exact huse.issued i hi
  | announce hash token => exact huse
  | other =>
      refine ⟨h.timeout_eq, h.cur_mem, h.prev_mem, h.uses_le, ?_, ?_⟩
      · have hle := h.next_le
        dsimp only
        omega
      · intro i hi
        obtain ⟨s, hs, htoken, hstage⟩ := h.issued i hi
        refine ⟨s, hs, htoken, ?_⟩
        cases hstage with
        | current hs' hle hnext => exact .current hs' hle hnext
        | previous hs' hne hlt hnext => exact .previous hs' hne hlt hnext
        | gone hcur hprev hlt => exact .gone hcur hprev (by dsimp only at *; omega)

theorem Reachable.invariant [DecidableEq τ] (htimeout : 0 < timeout)
    (hn : Reachable makeToken timeout n) : Invariant makeToken timeout n := by
  refine Reach.inv ?_ (fun n e h hfits => h.answer htimeout hfits) hn
  rintro n ⟨now, s, rfl⟩
  exact invariant_start now s

theorem accepts_iff [DecidableEq τ] {addr : ι × Nat} {h : η} {token : τ} :
    n.accepts makeToken now fresh addr h token = true ↔
      token = makeToken addr.1 h (n.secret.invalidate now fresh).cur ∨
        token = makeToken addr.1 h (n.secret.invalidate now fresh).prev := by
  rw [Node.accepts, validToken]
  simp only [Bool.or_eq_true, decide_eq_true_eq]

-- A token is accepted for the time of a secret behind its issue. Since the secrets
-- are replaced only when they are asked for, it is refused from the time of a
-- secret behind the first use on that comes later than that.
theorem token_life [DecidableEq τ] (htimeout : 0 < timeout)
    (hdistinct : ∀ ip h s ip' h' s', makeToken ip h s = makeToken ip' h' s' →
      ip = ip' ∧ h = h' ∧ s = s')
    (hn : Reachable makeToken timeout n) {i : Issue ι η τ} (hi : i ∈ n.issued)
    (hnow : n.clock ≤ now) (hfresh : fresh ∉ n.made) :
    (now ≤ i.time + timeout →
      n.accepts makeToken now fresh i.addr i.hash i.token = true) ∧
    ∀ u ∈ n.uses, i.time + timeout < u → u + timeout < now →
      ∀ addr h, n.accepts makeToken now fresh addr h i.token = false := by
  have hinv := hn.invariant htimeout
  obtain ⟨s, hs, htoken, hstage⟩ := hinv.issued i hi
  have hnext := hstage.use hinv hs hnow hfresh
  have huse := hinv.use htimeout hnow hfresh
  have hle : now ≤ (n.secret.invalidate now fresh).next := huse.uses_le now List.mem_cons_self
  have heq : (n.secret.invalidate now fresh).timeout = timeout := huse.timeout_eq
  refine ⟨fun hearly => ?_, fun u hu hlt hlate addr h => ?_⟩
  · rw [accepts_iff, htoken]
    cases hnext with
    | current hs' => exact .inl (by rw [← hs'])
    | previous hs' => exact .inr (by rw [← hs'])
    | gone hcur hprev hlt => omega
  · rw [← Bool.not_eq_true, accepts_iff, htoken]
    intro haccepted
    have hsecret : s = (n.secret.invalidate now fresh).cur ∨
        s = (n.secret.invalidate now fresh).prev :=
      haccepted.imp (fun h => (hdistinct _ _ _ _ _ _ h).2.2) fun h => (hdistinct _ _ _ _ _ _ h).2.2
    cases hnext with
    | current hs' hissue hnext => omega
    | previous hs' hne hissue hnext =>
        have := hnext u (List.mem_cons_of_mem _ hu) (by omega)
        omega
    | gone hcur hprev hlt => exact hsecret.elim hcur hprev

-- Secrets, tokens and times of a small run.
def plainToken (ip h s : Nat) : Nat × Nat × Nat := (ip, h, s)

-- One token is sent, and the secrets are asked for again some time later.
def sentOnce : Node Nat Nat Nat (Nat × Nat × Nat) :=
  Node.answer plainToken ⟨0, (1, 4000), 7, .getPeers 5⟩ (.start 600 0 3)

def askedAgain : Node Nat Nat Nat (Nat × Nat × Nat) :=
  Node.answer plainToken ⟨700, (2, 4000), 7, .announce 6 (2, 6, 7)⟩ sentOnce

theorem sentOnce_reachable : Reachable plainToken 600 sentOnce :=
  .step (.start ⟨0, 3, rfl⟩) ⟨by decide, by decide⟩

theorem askedAgain_reachable : Reachable plainToken 600 askedAgain :=
  .step sentOnce_reachable ⟨by decide, by decide⟩

theorem plainToken_distinct (ip h s ip' h' s' : Nat)
    (heq : plainToken ip h s = plainToken ip' h' s') :
    ip = ip' ∧ h = h' ∧ s = s' := by
  simpa only [plainToken, Prod.mk.injEq] using heq

theorem token_life_asked :
    askedAgain.accepts plainToken 1301 8 (1, 5000) 5 (1, 5, 3) = false ∧
      sentOnce.accepts plainToken 600 8 (1, 4000) 5 (1, 5, 3) = true := by
  have hlate := @token_life Nat Nat Nat (Nat × Nat × Nat) plainToken 600 1301 askedAgain 8 _
    (by decide) plainToken_distinct askedAgain_reachable ⟨0, (1, 4000), 5, (1, 5, 3)⟩
    (List.mem_cons_self) (by decide) (by decide)
  have hearly := @token_life Nat Nat Nat (Nat × Nat × Nat) plainToken 600 600 sentOnce 8 _
    (by decide) plainToken_distinct sentOnce_reachable ⟨0, (1, 4000), 5, (1, 5, 3)⟩
    List.mem_cons_self (by decide) (by decide)
  exact ⟨hlate.2 700 (by decide) (by decide) (by decide) (1, 5000) 5, hearly.1 (by decide)⟩

-- When nothing asks for a secret the token of the last one stays good for as
-- long, far beyond the time of two secrets.
theorem token_life_idle : ¬ ∀ n : Node Nat Nat Nat (Nat × Nat × Nat), Reachable plainToken 600 n →
    ∀ i ∈ n.issued, (∀ j ∈ n.issued, j.token = i.token → j.time ≤ i.time) →
      ∀ now fresh, n.clock ≤ now → fresh ∉ n.made → i.time + 2 * 600 < now →
        n.accepts plainToken now fresh i.addr i.hash i.token = false := by
  intro h
  have hlast : ∀ j ∈ sentOnce.issued, j.token = (1, 5, 3) → j.time ≤ 0 := by
    intro j hj _
    obtain rfl := List.mem_singleton.mp hj
    exact le_rfl
  have hidle := h sentOnce sentOnce_reachable ⟨0, (1, 4000), 5, (1, 5, 3)⟩ List.mem_cons_self hlast
    100000 8 (by decide) (by decide) (by decide)
  exact absurd hidle (by decide)

end Mldonkey.Dht.Tokens
