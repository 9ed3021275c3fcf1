import Mathlib

-- The rate of a peer, as bTRate estimates it.
namespace Mldonkey.BitTorrent

structure Rate where
  ratesince : Int
  lasttime : Int
  rate : Int
  deriving DecidableEq, Repr

namespace Rate

-- An int has 63 bits.
def wrap (x : Int) : Int := x.bmod (2 ^ 63)

inductive Exn
  | divisionByZero
  deriving DecidableEq, Repr

-- The division of ints rounds towards zero.
def divide (x y : Int) : Except Exn Int :=
  if y = 0 then throw .divisionByZero else return wrap (x.tdiv y)

-- `t` is last_time (), which counts seconds and stays far from the ends of an int.
def newRate (t : Int) : Rate := { ratesince := t - 1, lasttime := t, rate := 0 }

def weighed (r : Rate) (amount : Int) : Int :=
  wrap (wrap (r.rate * (r.lasttime - r.ratesince)) + amount)

-- The handler goes on to the end of update: the window only moves after a division by
-- zero.
def update (r : Rate) (t amount : Int) : Except Exn Rate :=
  tryCatch
    (do
      let rate ← divide (r.weighed amount) (t - r.ratesince)
      return { r with rate := rate })
    fun
      | .divisionByZero => do
          let r := { r with rate := 0 }
          let r := { r with lasttime := t }
          return if r.ratesince < t - 20 then { r with ratesince := t - 20 } else r

def updateNoChange (r : Rate) (t : Int) : Rate := { r with ratesince := t, lasttime := t }

inductive Op
  | update (amount : Int)
  | updateNoChange
  deriving DecidableEq, Repr

-- A call at a time
def step (r : Rate) : Int × Op → Except Exn Rate
  | (t, .update amount) => r.update t amount
  | (t, .updateNoChange) => return r.updateNoChange t

def exec (r : Rate) (run : List (Int × Op)) : Except Exn Rate := run.foldlM step r

-- The times of the calls do not decrease.
def Timed : Int → List (Int × Op) → Prop
  | _, [] => True
  | now, (t, _) :: run => now ≤ t ∧ Timed t run

instance : ∀ (now : Int) (run : List (Int × Op)), Decidable (Timed now run)
  | _, [] => .isTrue trivial
  | now, (t, _) :: run =>
      have := instDecidableTimed t run
      inferInstanceAs (Decidable (now ≤ t ∧ Timed t run))

-- What an update is for: the window ends now and begins at most 20 seconds ago, and the
-- rate is the mean over it.
structure Slides (r : Rate) (t amount : Int) (r' : Rate) : Prop where
  lasttime : r'.lasttime = t
  ratesince : r'.ratesince = max r.ratesince (t - 20)
  rate : r'.rate =
    if t = r.ratesince then 0 else wrap ((r.weighed amount).tdiv (t - r.ratesince))

-- No call raises, and every update slides the window.
def Windowed : Rate → List (Int × Op) → Prop
  | _, [] => True
  | r, (t, op) :: run => ∃ r', r.step (t, op) = .ok r' ∧
      (∀ amount, op = .update amount → r.Slides t amount r') ∧ Windowed r' run

-- Every update takes place in the second of the last new_rate or update_no_change.
def Punctual : Int → List (Int × Op) → Prop
  | _, [] => True
  | reset, (t, .update _) :: run => t = reset ∧ Punctual reset run
  | _, (t, .updateNoChange) :: run => Punctual t run

-- One update of `amount` bytes in each of `n` seconds
def constant (t amount : Int) (n : Nat) : List (Int × Op) :=
  (List.range n).map fun k : Nat => (t + k, .update amount)

-- The window is as the last new_rate or update_no_change has left it.
structure Held (reset : Int) (r : Rate) : Prop where
  lasttime : r.lasttime = reset
  ratesince : r.ratesince = reset ∨ r.ratesince = reset - 1

variable {r r' : Rate} {reset t t₀ amount : Int} {run : List (Int × Op)}

theorem held_newRate (t : Int) : Held t (newRate t) := ⟨rfl, .inr rfl⟩

theorem held_updateNoChange (r : Rate) (t : Int) : Held t (r.updateNoChange t) := ⟨rfl, .inl rfl⟩

theorem update_eq (r : Rate) (t amount : Int) : r.update t amount =
    .ok (if t = r.ratesince then { r with rate := 0, lasttime := t }
      else { r with rate := wrap ((r.weighed amount).tdiv (t - r.ratesince)) }) := by
  by_cases ht : t = r.ratesince
  · subst ht
    have hzero : divide (r.weighed amount) (r.ratesince - r.ratesince) =
        .error .divisionByZero := if_pos (sub_self _)
    have hkeep : ¬ r.ratesince < r.ratesince - 20 := by omega
    rw [update, hzero, if_pos rfl]
    change Except.ok (if r.ratesince < r.ratesince - 20 then _ else _) = _
    rw [if_neg hkeep]
  · have hquot : divide (r.weighed amount) (t - r.ratesince) =
        .ok (wrap ((r.weighed amount).tdiv (t - r.ratesince))) := if_neg (by omega)
    rw [update, hquot, if_neg ht]
    rfl

-- An update leaves the window where it was, so that it slides only at its end.
theorem Held.update (h : Held reset r) (ht : reset ≤ t) (amount : Int) :
    ∃ r', r.update t amount = .ok r' ∧ Held reset r' ∧
      (r.Slides t amount r' ↔ t = reset) := by
  have hsince := h.ratesince
  have hlast := h.lasttime
  refine ⟨_, update_eq r t amount, ?_⟩
  by_cases hzero : t = r.ratesince
  · rw [if_pos hzero]
    refine ⟨⟨by dsimp only; omega, hsince⟩, fun _ => by omega, fun _ => ⟨rfl, ?_, ?_⟩⟩
    · dsimp only
      omega
    · exact (if_pos hzero).symm
  · rw [if_neg hzero]
    refine ⟨⟨hlast, hsince⟩, fun hslides => hslides.lasttime.symm.trans hlast,
      fun heq => ⟨hlast.trans heq.symm, ?_, ?_⟩⟩
    · dsimp only
      omega
    · exact (if_neg hzero).symm

theorem Held.exec (h : Held reset r) (ht : Timed t run) (hle : reset ≤ t) :
    (∃ r', r.exec run = .ok r') ∧ (Windowed r run ↔ Punctual reset run) := by
  induction run generalizing r reset t with
  | nil => exact ⟨⟨r, rfl⟩, Iff.rfl⟩
  | cons call run ih =>
    obtain ⟨now, op⟩ := call
    obtain ⟨hnow, hrest⟩ := ht
    cases op with
    | update amount =>
      obtain ⟨r', hr', hheld, hslides⟩ := h.update (hle.trans hnow) amount
      have hstep : r.step (now, .update amount) = .ok r' := hr'
      obtain ⟨hexec, hiff⟩ := ih hheld hrest (hle.trans hnow)
      refine ⟨?_, ?_⟩
      · rw [Rate.exec, List.foldlM_cons, hstep]
        exact hexec
      · rw [Windowed, Punctual, ← hiff, ← hslides, hstep]
        constructor
        · rintro ⟨r'', heq, hall, hrun⟩
          obtain rfl := Except.ok.inj heq
          exact ⟨hall amount rfl, hrun⟩
        · rintro ⟨hslide, hrun⟩
          refine ⟨r', rfl, fun amount' heq => ?_, hrun⟩
          obtain rfl := Op.update.inj heq
          exact hslide
    | updateNoChange =>
      obtain ⟨hexec, hiff⟩ := ih (held_updateNoChange r now) hrest le_rfl
      refine ⟨hexec, ?_⟩
      rw [Windowed, Punctual, ← hiff]
      constructor
      · rintro ⟨r'', heq, -, hrun⟩
        obtain rfl := Except.ok.inj heq
        exact hrun
      · exact fun hrun => ⟨_, rfl, fun _ heq => (by cases heq), hrun⟩

theorem natAbs_wrap_le (x : Int) : (wrap x).natAbs ≤ x.natAbs := by
  rw [wrap, Int.bmod_def]
  split <;> omega

-- A constant client: the divisor grows while the weight of the last rate stays at one
-- second.
theorem constant_rate (t₀ : Int) (d a n : Nat) :
    ∃ r, (newRate t₀).exec (constant (t₀ + d) a n) = .ok r ∧ r.ratesince = t₀ - 1 ∧
      r.lasttime = t₀ ∧ (n = 0 → r.rate = 0) ∧ r.rate.natAbs ≤ a ∧
      r.rate.natAbs * (d + n) ≤ 2 * a := by
  induction n with
  | zero => exact ⟨newRate t₀, rfl, rfl, rfl, fun _ => rfl, Nat.zero_le _, by simp [newRate]⟩
  | succ n ih =>
    obtain ⟨r, hrun, hsince, hlast, hfirst, hle, hmul⟩ := ih
    have hcall : constant (t₀ + d) a (n + 1) =
        constant (t₀ + d) a n ++ [(t₀ + d + n, .update a)] := by
      rw [constant, List.range_succ, List.map_append]
      rfl
    have hdiff : t₀ + d + n - r.ratesince = (d + n + 1 : Nat) := by omega
    have hupdate := update_eq r (t₀ + d + n) a
    rw [if_neg (by omega), hdiff] at hupdate
    -- the last rate counts once
    have hweighed : (r.weighed a).natAbs ≤ r.rate.natAbs + a := by
      have h₁ := natAbs_wrap_le (wrap (r.rate * (r.lasttime - r.ratesince)) + a)
      have h₂ := natAbs_wrap_le (r.rate * (r.lasttime - r.ratesince))
      rw [show r.lasttime - r.ratesince = 1 by omega, mul_one] at h₁ h₂
      rw [weighed, show r.lasttime - r.ratesince = 1 by omega, mul_one]
      omega
    set q := wrap ((r.weighed a).tdiv (d + n + 1 : Nat)) with hq
    have hquot : q.natAbs * (d + n + 1) ≤ r.rate.natAbs + a := by
      have hwrap := natAbs_wrap_le ((r.weighed a).tdiv (d + n + 1 : Nat))
      rw [← hq, Int.natAbs_tdiv, Int.natAbs_natCast] at hwrap
      exact (Nat.mul_le_of_le_div _ _ _ hwrap).trans hweighed
    refine ⟨{ r with rate := q }, ?_, hsince, hlast, by omega, ?_, hquot.trans (by omega)⟩
    · rw [hcall, exec, List.foldlM_append]
      change (exec (newRate t₀) _ >>= _) = _
      rw [hrun]
      change (r.update (t₀ + d + n) a >>= _) = _
      rw [hupdate]
      rfl
    · change q.natAbs ≤ a
      rcases Nat.eq_zero_or_pos (d + n) with hz | hpos
      · have := hfirst (by omega)
        rw [hz, this] at hquot
        omega
      · have : q.natAbs * 2 ≤ q.natAbs * (d + n + 1) := Nat.mul_le_mul_left _ (by omega)
        omega

-- Updates slide the window exactly in the runs in which each follows a reset in its
-- second. The rate of a constant client does not pass what it delivers, and goes to 0.
theorem rate_windowed_iff (t₀ : Int) (run : List (Int × Op)) (h : Timed t₀ run) :
    (∃ r, (newRate t₀).exec run = .ok r) ∧
    (Windowed (newRate t₀) run ↔ Punctual t₀ run) ∧
    ∀ d a : Nat,
      (∀ n r, (newRate t₀).exec (constant (t₀ + d) a n) = .ok r → r.rate ≤ a) ∧
      ((∃ m, ∀ n, m ≤ n → ∀ r, (newRate t₀).exec (constant (t₀ + d) a n) = .ok r →
        (a : Int) - 20 ≤ r.rate) ↔ a ≤ 20) := by
  obtain ⟨hexec, hiff⟩ := (held_newRate t₀).exec h le_rfl
  refine ⟨hexec, hiff, fun d a => ⟨fun n r hr => ?_, fun ⟨m, hm⟩ => ?_, fun ha => ?_⟩⟩
  · obtain ⟨r', hr', -, -, -, hle, -⟩ := constant_rate t₀ d a n
    obtain rfl := Except.ok.inj (hr.symm.trans hr')
    omega
  · obtain ⟨r, hr, -, -, -, -, hmul⟩ := constant_rate t₀ d a (m + 2 * a + 1)
    have hzero : r.rate.natAbs = 0 := by
      by_contra hne
      have := Nat.le_mul_of_pos_left (d + (m + 2 * a + 1)) (Nat.pos_of_ne_zero hne)
      omega
    have := hm _ (by omega) r hr
    omega
  · refine ⟨2 * a + 1, fun n hn r hr => ?_⟩
    obtain ⟨r', hr', -, -, -, -, hmul⟩ := constant_rate t₀ d a n
    obtain rfl := Except.ok.inj (hr.symm.trans hr')
    have hzero : r.rate.natAbs = 0 := by
      by_contra hne
      have := Nat.le_mul_of_pos_left (d + n) (Nat.pos_of_ne_zero hne)
      omega
    omega

-- Two updates in the second of a reset
theorem rate_windowed_reset :
    Windowed (newRate 99) [(99, .update 3), (100, .updateNoChange), (100, .update 5)] :=
  (rate_windowed_iff 99 _ (by decide)).2.1.mpr ⟨rfl, rfl, trivial⟩

-- A client that delivers 1000 bytes in each of three seconds has a rate of 375 then.
theorem rate_windowed_false :
    ¬ Windowed (newRate 100) (constant 101 1000 3) ∧
      (newRate 100).exec (constant 101 1000 3) = .ok ⟨99, 100, 375⟩ := by
  refine ⟨fun h => ?_, rfl⟩
  obtain ⟨r', hr', hslides, -⟩ := h
  obtain rfl := Except.ok.inj hr'
  exact absurd (hslides 1000 rfl).lasttime (by decide)

end Rate

end Mldonkey.BitTorrent
