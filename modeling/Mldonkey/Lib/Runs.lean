import Mathlib.Logic.Relation
import Mathlib.Tactic

-- Systems that run one operation after another from some start states.
namespace Mldonkey.Runs

variable {σ ω : Type}

-- The states that runs reach from the states in `start`, by operations that
-- meet the condition `ok` in the state in which they begin.
inductive Reach (next : ω → σ → σ) (start : σ → Prop) (ok : σ → ω → Prop) : σ → Prop
  | start {s : σ} (hs : start s) : Reach next start ok s
  | step {s : σ} {op : ω} (hs : Reach next start ok s) (hop : ok s op) :
      Reach next start ok (next op s)

variable {next : ω → σ → σ} {start start' I J : σ → Prop} {ok ok' : σ → ω → Prop}

-- What holds at the start and is kept by every operation that meets the
-- condition holds in every state reached.
theorem Reach.inv (hstart : ∀ s, start s → I s)
    (hstep : ∀ s op, I s → ok s op → I (next op s)) {s : σ} (h : Reach next start ok s) :
    I s := by
  induction h with
  | start hs => exact hstart _ hs
  | step _ hop ih => exact hstep _ _ ih hop

theorem Reach.inv_of (hJ : ∀ s, Reach next start ok s → J s) (hstart : ∀ s, start s → I s)
    (hstep : ∀ s op, J s → I s → ok s op → I (next op s)) {s : σ}
    (h : Reach next start ok s) : I s := by
  induction h with
  | start hs => exact hstart _ hs
  | step hs hop ih => exact hstep _ _ (hJ _ hs) ih hop

-- A run whose operations all meet a weaker condition is a run under it.
theorem Reach.mono (hs : ∀ s, start s → start' s) (hok : ∀ s op, ok s op → ok' s op) {s : σ}
    (h : Reach next start ok s) : Reach next start' ok' s := by
  induction h with
  | start h => exact .start (hs _ h)
  | step _ hop ih => exact .step ih (hok _ _ hop)

-- Each operation of the list meets the condition in the state in which it begins.
def Meets (next : ω → σ → σ) (ok : σ → ω → Prop) : σ → List ω → Prop
  | _, [] => True
  | s, op :: ops => ok s op ∧ Meets next ok (next op s) ops

-- Such a list makes a run.
theorem Reach.run {s : σ} (h : Reach next start ok s) {ops : List ω} (hops : Meets next ok s ops) :
    Reach next start ok (ops.foldl (fun s op => next op s) s) := by
  induction ops generalizing s with
  | nil => exact h
  | cons op ops ih => exact ih (.step h hops.1) hops.2

theorem meets_of_forall {s : σ} {ops : List ω} (hok : ∀ s, ∀ op ∈ ops, ok s op) :
    Meets next ok s ops := by
  induction ops generalizing s with
  | nil => trivial
  | cons op ops ih =>
      exact ⟨hok s op List.mem_cons_self, ih fun s op hop => hok s op (List.mem_cons_of_mem _ hop)⟩

-- A list of operations that the condition never forbids makes a run.
theorem Reach.foldl {s : σ} (h : Reach next start ok s) (ops : List ω)
    (hok : ∀ s, ∀ op ∈ ops, ok s op) :
    Reach next start ok (ops.foldl (fun s op => next op s) s) :=
  h.run (meets_of_forall hok)

instance decidableMeets [∀ s op, Decidable (ok s op)] :
    (s : σ) → (ops : List ω) → Decidable (Meets next ok s ops)
  | _, [] => isTrue trivial
  | s, op :: ops =>
      have := decidableMeets (next op s) ops
      inferInstanceAs (Decidable (ok s op ∧ Meets next ok (next op s) ops))

end Mldonkey.Runs

-- Runs of operations with results, and the refinement of a specification by them.
namespace Mldonkey.Lib.Refine

variable {σ τ ω ο : Type*}

-- None stands for an operation that fails.
def run (step : σ → ω → Option (σ × ο)) : σ → List ω → Option (σ × List ο)
  | s, [] => some (s, [])
  | s, op :: ops => do
      let out ← step s op
      let rest ← run step out.1 ops
      return (rest.1, out.2 :: rest.2)

def results (spec : τ → ω → τ × ο) : τ → List ω → List ο
  | _, [] => []
  | t, op :: ops => (spec t op).2 :: results spec (spec t op).1 ops

-- Every operation of a run meets the condition in the state in which it begins.
def AllOk (step : σ → ω → Option (σ × ο)) (ok : σ → ω → Prop) : σ → List ω → Prop
  | _, [] => True
  | s, op :: ops => ok s op ∧ ∀ out, step s op = some out → AllOk step ok out.1 ops

variable {step : σ → ω → Option (σ × ο)} {spec : τ → ω → τ × ο} {ok : σ → ω → Prop}

theorem AllOk.cons {s : σ} {op : ω} {ops : List ω} {out : σ × ο} (hop : ok s op)
    (hstep : step s op = some out) (hrest : AllOk step ok out.1 ops) :
    AllOk step ok s (op :: ops) :=
  ⟨hop, fun out' h => Option.some.inj (hstep.symm.trans h) ▸ hrest⟩

-- Where one step follows the specification, every run does.
theorem run_results {R : σ → τ → Prop}
    (hstep : ∀ s t op, R s t → ok s op →
      ∃ s', step s op = some (s', (spec t op).2) ∧ R s' (spec t op).1)
    {s : σ} {t : τ} {ops : List ω} (h : R s t) (hok : AllOk step ok s ops) :
    ∃ s', run step s ops = some (s', results spec t ops) := by
  induction ops generalizing s t with
  | nil => exact ⟨s, rfl⟩
  | cons op ops ih =>
      obtain ⟨hop, hrest⟩ := hok
      obtain ⟨s', hs', hR⟩ := hstep s t op h hop
      obtain ⟨s'', hs''⟩ := ih hR (hrest _ hs')
      exact ⟨s'', by rw [run, hs']; simp [hs'', results]⟩

end Mldonkey.Lib.Refine
