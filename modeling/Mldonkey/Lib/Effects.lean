import Mathlib.Data.List.Basic
import Mathlib.Order.Defs.Unbundled

-- Rules for programs that change a state and may stop with an exception. The
-- state reached at the exception is kept, as in a language with mutable
-- records.
namespace Mldonkey.Effects

variable {ε σ α β γ : Type}

def check (c : Prop) [Decidable c] (e : ε) : EStateM ε σ Unit :=
  if c then pure () else throw e

-- The state in which a program stops, with a value or with an exception.
def after (m : EStateM ε σ α) (s : σ) : σ :=
  match m s with
  | .ok _ s' => s'
  | .error _ s' => s'

-- The program returns from `s` with a value and a state that satisfy `Q`, or
-- stops there with an exception and a state that satisfy `E`.
def Outcome (m : EStateM ε σ α) (Q : α → σ → Prop) (E : ε → σ → Prop) (s : σ) : Prop :=
  match m s with
  | .ok a s' => Q a s'
  | .error e s' => E e s'

@[simp] theorem after_pure (a : α) (s : σ) : after (pure a : EStateM ε σ α) s = s := rfl

@[simp] theorem after_throw (e : ε) (s : σ) : after (throw e : EStateM ε σ α) s = s := rfl

@[simp] theorem after_get (s : σ) : after (get : EStateM ε σ σ) s = s := rfl

@[simp] theorem after_modify (f : σ → σ) (s : σ) :
    after (modify f : EStateM ε σ Unit) s = f s := rfl

@[simp] theorem after_get_bind (f : σ → EStateM ε σ α) (s : σ) :
    after (get >>= f) s = after (f s) s := rfl

@[simp] theorem after_modify_bind (g : σ → σ) (f : Unit → EStateM ε σ α) (s : σ) :
    after (modify g >>= f) s = after (f ()) (g s) := rfl

@[simp] theorem after_pure_bind (a : α) (f : α → EStateM ε σ β) (s : σ) :
    after (pure a >>= f) s = after (f a) s := rfl

@[simp] theorem after_check (c : Prop) [Decidable c] (e : ε) (s : σ) :
    after (check c e : EStateM ε σ Unit) s = s := by
  unfold check; split <;> rfl

@[simp] theorem outcome_pure (a : α) (Q : α → σ → Prop) (E : ε → σ → Prop) (s : σ) :
    Outcome (pure a) Q E s ↔ Q a s := Iff.rfl

@[simp] theorem outcome_throw (e : ε) (Q : α → σ → Prop) (E : ε → σ → Prop) (s : σ) :
    Outcome (throw e) Q E s ↔ E e s := Iff.rfl

@[simp] theorem outcome_get_bind (f : σ → EStateM ε σ α) (Q : α → σ → Prop)
    (E : ε → σ → Prop) (s : σ) : Outcome (get >>= f) Q E s ↔ Outcome (f s) Q E s := Iff.rfl

@[simp] theorem outcome_modify (f : σ → σ) (Q : Unit → σ → Prop) (E : ε → σ → Prop) (s : σ) :
    Outcome (modify f) Q E s ↔ Q () (f s) := Iff.rfl

@[simp] theorem outcome_modify_bind (g : σ → σ) (f : Unit → EStateM ε σ α)
    (Q : α → σ → Prop) (E : ε → σ → Prop) (s : σ) :
    Outcome (modify g >>= f) Q E s ↔ Outcome (f ()) Q E (g s) := Iff.rfl

theorem outcome_bind (x : EStateM ε σ α) (f : α → EStateM ε σ β) (Q : β → σ → Prop)
    (E : ε → σ → Prop) (s : σ) :
    Outcome (x >>= f) Q E s ↔ Outcome x (fun a => Outcome (f a) Q E) E s := by
  simp only [Outcome, bind, EStateM.bind]
  cases x s <;> rfl

theorem Outcome.mono {m : EStateM ε σ α} {Q Q' : α → σ → Prop} {E E' : ε → σ → Prop} {s : σ}
    (h : Outcome m Q E s) (hQ : ∀ a s', Q a s' → Q' a s') (hE : ∀ e s', E e s' → E' e s') :
    Outcome m Q' E' s := by
  unfold Outcome at *
  cases hm : m s with
  | ok a s' => rw [hm] at h; exact hQ a s' h
  | error e s' => rw [hm] at h; exact hE e s' h

theorem Outcome.and {m : EStateM ε σ α} {Q Q' : α → σ → Prop} {E E' : ε → σ → Prop} {s : σ}
    (h : Outcome m Q E s) (h' : Outcome m Q' E' s) :
    Outcome m (fun a s' => Q a s' ∧ Q' a s') (fun e s' => E e s' ∧ E' e s') s := by
  unfold Outcome at *
  cases hm : m s with
  | ok a s' => rw [hm] at h h'; exact ⟨h, h'⟩
  | error e s' => rw [hm] at h h'; exact ⟨h, h'⟩

-- Sequencing: what holds where the first program stops is what the second one
-- starts from.
theorem Outcome.bind {x : EStateM ε σ α} {f : α → EStateM ε σ β} {P : α → σ → Prop}
    {Q : β → σ → Prop} {E : ε → σ → Prop} {s : σ} (hx : Outcome x P E s)
    (hf : ∀ a s', P a s' → Outcome (f a) Q E s') : Outcome (x >>= f) Q E s :=
  (outcome_bind x f Q E s).mpr (hx.mono hf fun _ _ h => h)

theorem outcome_check (c : Prop) [Decidable c] (e : ε) (Q : Unit → σ → Prop) (E : ε → σ → Prop)
    (s : σ) : Outcome (check c e) Q E s ↔ (c → Q () s) ∧ (¬c → E e s) := by
  unfold check
  split <;> simp_all

theorem Outcome.tryCatch {x : EStateM ε σ α} {h : ε → EStateM ε σ α} {P : ε → σ → Prop}
    {Q : α → σ → Prop} {E : ε → σ → Prop} {s : σ} (hx : Outcome x Q P s)
    (hh : ∀ e s', P e s' → Outcome (h e) Q E s') : Outcome (tryCatch x h) Q E s := by
  unfold Outcome at *
  simp only [MonadExcept.tryCatch, tryCatchThe, MonadExceptOf.tryCatch, EStateM.tryCatch]
  cases hm : x s with
  | ok a s' => rw [hm] at hx; exact hx
  | error e s' => rw [hm] at hx; exact hh e s' hx

-- A loop keeps an invariant that each of its rounds keeps.
theorem Outcome.forM {l : List β} {f : β → EStateM ε σ Unit} {I : σ → Prop} {E : ε → σ → Prop}
    {s : σ} (hs : I s) (hf : ∀ x ∈ l, ∀ s', I s' → Outcome (f x) (fun _ => I) E s') :
    Outcome (forM l f) (fun _ => I) E s := by
  induction l generalizing s with
  | nil => simpa only [List.forM_nil, outcome_pure] using hs
  | cons x l ih =>
      rw [List.forM_cons]
      refine (hf x (by simp) s hs).bind fun _ s' h => ih h fun y hy => hf y (by simp [hy])

theorem Outcome.foldlM {l : List β} {f : α → β → EStateM ε σ α} {I : α → σ → Prop}
    {E : ε → σ → Prop} {a : α} {s : σ} (hs : I a s)
    (hf : ∀ a, ∀ x ∈ l, ∀ s', I a s' → Outcome (f a x) I E s') :
    Outcome (l.foldlM f a) I E s := by
  induction l generalizing a s with
  | nil => simpa only [List.foldlM_nil, outcome_pure] using hs
  | cons x l ih =>
      rw [List.foldlM_cons]
      refine (hf a x (by simp) s hs).bind fun a' s' h => ih h fun b y hy => hf b y (by simp [hy])

end Mldonkey.Effects
