import Mldonkey.Sources.Consistent

-- Sources that do not have a file.
namespace Mldonkey.Sources

open Queues (Queue)
open Relation Runs

variable {σ μ : Type} [DecidableEq σ] [DecidableEq μ] {compare : σ → σ → Ordering}
variable {w w' : World σ μ} {s s' : σ} {m m' : μ} {rules : Rules σ μ}

-- The queues from which refill_sources takes sources to connect to, and the one
-- whose sources connect_sources queries.
def pickQueue (q : Nat) : Bool := q < doNotTryQueue || q = connectedSourcesQueue

-- What a move does to the request of a source for a file: nothing, or it puts
-- another one in its place.
lemma findRequest_remove {r : Request μ}
    (h : (removeFromQueue compare s m w).findRequest s' m' = some r) :
    w.findRequest s' m' = some r ∨
      ∃ r', w.findRequest s' m' = some r' ∧ r = { r' with queue := none } := by
  unfold removeFromQueue at h
  split at h
  · exact .inl h
  · split at h
    · exact .inl h
    · rw [findRequest_setRequest _ (by exact fun _ => rfl)] at h
      split at h
      · rename_i hsame
        obtain ⟨rfl, rfl⟩ := hsame
        obtain ⟨r', hr', rfl⟩ := Option.map_eq_some_iff.mp h
        exact .inr ⟨r', hr', rfl⟩
      · exact .inl h

lemma findRequest_reschedule {saved : Bool} {r : Request μ}
    (h : (rescheduleSourceForFile compare saved s m w).findRequest s' m' = some r) :
    w.findRequest s' m' = some r ∨
      ∃ r', w.findRequest s' m' = some r' ∧
        r = { r' with queue := some (w.chooseQueue saved (w.source s') r') } := by
  unfold rescheduleSourceForFile at h
  split at h
  · exact .inl h
  · rename_i r₀ hr₀
    split at h
    · rw [findRequest_setRequest _ (by exact fun _ => rfl)] at h
      split at h
      · rename_i hsame
        obtain ⟨rfl, rfl⟩ := hsame
        obtain ⟨r', hr', rfl⟩ := Option.map_eq_some_iff.mp h
        obtain rfl := Option.some.inj (hr₀.symm.trans hr')
        exact .inr ⟨_, hr', rfl⟩
      · exact .inl h
    · exact .inl h

section Picked

-- A source without the file waits outside the queues from which sources are
-- picked, and no score is below that of such a source.
def Spared (r : Request μ) : Prop :=
  notFoundScore ≤ r.score ∧
    (r.score = notFoundScore → ∀ q, r.queue = some q → pickQueue q = false)

def AllSpared (w : World σ μ) : Prop := ∀ s m r, w.findRequest s m = some r → Spared r

def pickRules : Rules σ μ where
  score _ _ r x := Spared { r with score := x }
  add _ _ x := notFoundScore ≤ x
  drop _ _ := True

omit [DecidableEq μ] in
lemma Spared.of_queue_none {r : Request μ} (hscore : notFoundScore ≤ r.score)
    (h : r.queue = none) : Spared r :=
  ⟨hscore, fun _ q hq => by rw [h] at hq; cases hq⟩

omit [DecidableEq σ] [DecidableEq μ] in
lemma chooseQueue_not_found {saved : Bool} {x : Source μ} {r : Request μ}
    (h : r.score = notFoundScore) : w.chooseQueue saved x r = doNotTryQueue := if_pos h

lemma AllSpared.move (h : AllSpared w) (hmove : Move compare pickRules w w') : AllSpared w' := by
  intro s' m' r hr
  cases hmove with
  | remove s m =>
    rcases findRequest_remove hr with hr | ⟨r', hr', rfl⟩
    · exact h s' m' r hr
    · exact .of_queue_none (h s' m' r' hr').1 rfl
  | reschedule saved s m =>
    rcases findRequest_reschedule hr with hr | ⟨r', hr', rfl⟩
    · exact h s' m' r hr
    · refine ⟨(h s' m' r' hr').1, fun hscore q hq => ?_⟩
      obtain rfl := Option.some.inj hq
      have hqueue : w.chooseQueue saved (w.source s') r' = doNotTryQueue :=
        chooseQueue_not_found hscore
      rw [hqueue]
      rfl
  | time s m t _ =>
    rw [findRequest_setRequest _ (by exact fun _ => rfl)] at hr
    split at hr
    · obtain ⟨r', hr', rfl⟩ := Option.map_eq_some_iff.mp hr
      exact h s m r' hr'
    · exact h s' m' r hr
  | score s m x hx =>
    rw [findRequest_setRequest _ (by exact fun _ => rfl)] at hr
    split at hr
    · obtain ⟨r', hr', rfl⟩ := Option.map_eq_some_iff.mp hr
      exact hx r' hr'
    · exact h s' m' r hr
  | add s m t x hnone hx =>
    rw [findRequest_addFile] at hr
    split at hr
    · obtain rfl := Option.some.inj hr
      exact .of_queue_none hx rfl
    · exact h s' m' r hr
  | ask s m r₀ _ _ => exact h s' m' r hr
  | other _ hfiles _ _ =>
    rw [findRequest_congr (hfiles s')] at hr
    exact h s' m' r hr
  | drop m _ =>
    rw [findRequest_remove_manager] at hr
    split at hr
    · cases hr
    · exact h s' m' r hr

lemma AllSpared.moves (h : AllSpared w) (hmoves : Moves compare pickRules w w') :
    AllSpared w' := by
  induction hmoves with
  | refl => exact h
  | tail _ hmove ih => exact ih.move hmove

end Picked

section Asked

-- The queries of a source for a file.
def asks (s : σ) (m : μ) (w : World σ μ) : List (Ask σ μ) :=
  w.asked.filter fun a => a.source = s ∧ a.file = m

-- The request of s for m stays without a score above that of a source without the
-- file.
def answeredRules (s : σ) (m : μ) : Rules σ μ where
  score s' m' r x := s' = s → m' = m → r.score ≤ notFoundScore → x ≤ notFoundScore
  add _ _ _ := True
  drop _ m' := m' ≠ m

def Answered (s : σ) (m : μ) (l : List (Ask σ μ)) (w : World σ μ) : Prop :=
  (∃ r, w.findRequest s m = some r ∧ r.score ≤ notFoundScore) ∧ asks s m w = l

lemma repeatedScore_le {x : Int} (h : x ≤ notFoundScore) : repeatedScore x ≤ notFoundScore := by
  unfold repeatedScore initialNewSourceScore notFoundScore at *
  split <;> omega

omit [DecidableEq σ] [DecidableEq μ] in
lemma answeredRules_lawful (s : σ) (m : μ) : (answeredRules s m).Lawful where
  new _ _ := trivial
  initial _ _ r _ hscore _ _ hle := by
    rw [hscore] at hle
    exact absurd hle (by decide)
  repeated _ _ _ _ hlt _ _ hle := absurd hle (not_le.mpr hlt)

lemma asked_remove_manager (m : μ) (w : World σ μ) :
    (removeFileSourcesManager m w).asked = w.asked := by
  show (dropFiles m (allSources m w) w).asked = w.asked
  generalize allSources m w = l
  induction l generalizing w with
  | nil => rfl
  | cons s l ih =>
    exact ih (w.setSource s fun x => { x with files := x.files.filter fun r => r.file ≠ m })

lemma Answered.move {l : List (Ask σ μ)} (h : Answered s m l w)
    (hmove : Move compare (answeredRules s m) w w') : Answered s m l w' := by
  obtain ⟨⟨r, hr, hscore⟩, hasks⟩ := h
  cases hmove with
  | remove s' m' =>
    refine ⟨?_, ?_⟩
    · by_cases hsame : s = s' ∧ m = m'
      · obtain ⟨rfl, rfl⟩ := hsame
        exact ⟨_, findRequest_removeFromQueue compare hr, hscore⟩
      · refine ⟨r, ?_, hscore⟩
        unfold removeFromQueue
        split
        · exact hr
        · split
          · exact hr
          · rw [findRequest_setRequest _ (by exact fun _ => rfl), if_neg hsame]
            exact hr
    · rw [← hasks]
      unfold removeFromQueue
      split
      · rfl
      · split <;> rfl
  | reschedule saved s' m' =>
    refine ⟨?_, ?_⟩
    · by_cases hsame : s = s' ∧ m = m'
      · obtain ⟨rfl, rfl⟩ := hsame
        obtain ⟨r', hr', hscore'⟩ := findRequest_reschedule_score compare saved hr
        exact ⟨r', hr', hscore'.trans_le hscore⟩
      · refine ⟨r, ?_, hscore⟩
        unfold rescheduleSourceForFile
        split
        · exact hr
        · split
          · rw [findRequest_setRequest _ (by exact fun _ => rfl), if_neg hsame]
            exact hr
          · exact hr
    · rw [← hasks]
      unfold rescheduleSourceForFile
      split
      · rfl
      · split <;> rfl
  | time s' m' t _ =>
    refine ⟨?_, hasks⟩
    rw [findRequest_setRequest _ (by exact fun _ => rfl)]
    split
    · rename_i hsame
      obtain ⟨rfl, rfl⟩ := hsame
      exact ⟨{ r with time := t }, by rw [hr]; rfl, hscore⟩
    · exact ⟨r, hr, hscore⟩
  | score s' m' x hx =>
    refine ⟨?_, hasks⟩
    rw [findRequest_setRequest _ (by exact fun _ => rfl)]
    split
    · rename_i hsame
      obtain ⟨rfl, rfl⟩ := hsame
      exact ⟨{ r with score := x }, by rw [hr]; rfl, hx r hr rfl rfl hscore⟩
    · exact ⟨r, hr, hscore⟩
  | add s' m' t x hnone _ =>
    refine ⟨⟨r, ?_, hscore⟩, hasks⟩
    rw [findRequest_addFile, if_neg]
    · exact hr
    · rintro ⟨rfl, rfl⟩
      rw [hnone] at hr
      cases hr
  | ask s' m' r' hr' hlt =>
    refine ⟨⟨r, hr, hscore⟩, ?_⟩
    have hne : ¬(s' = s ∧ m' = m) := by
      rintro ⟨rfl, rfl⟩
      obtain rfl := Option.some.inj (hr.symm.trans hr')
      exact absurd hscore (not_le.mpr hlt)
    rw [← hasks, asks, List.filter_cons, if_neg (by simpa using hne)]
    rfl
  | other _ hfiles _ hasked =>
    refine ⟨⟨r, ?_, hscore⟩, ?_⟩
    · rw [findRequest_congr (hfiles s)]
      exact hr
    · rw [asks, hasked]
      exact hasks
  | drop m' hm =>
    refine ⟨⟨r, ?_, hscore⟩, ?_⟩
    · rw [findRequest_remove_manager, if_neg fun h => hm h.1.symm]
      exact hr
    · rw [asks, asked_remove_manager]
      exact hasks

lemma Answered.moves {l : List (Ask σ μ)} (h : Answered s m l w)
    (hmoves : Moves compare (answeredRules s m) w w') : Answered s m l w' := by
  induction hmoves with
  | refl => exact h
  | tail _ hmove ih => exact ih.move hmove

-- No other answer of the source for the file comes, the manager is not removed, and
-- no better score is loaded. Everything else may happen, requests included.
def Op.Unanswered (s : σ) (m : μ) (_ : World σ μ) : Op σ μ → Prop
  | .setRequestResult s' m' result => s' = s → m' = m → result = .fileNotFound
  | .addSavedSourceRequest s' m' score _ => s' = s → m' = m → score ≤ notFoundScore
  | .removeFileSourcesManager m' => m' ≠ m
  | _ => True

omit [DecidableEq σ] in
lemma allowed_of_unanswered {op : Op σ μ} (h : op.Unanswered s m w) :
    op.Allowed (answeredRules s m) w := by
  cases op with
  | addRequest s' m' time => exact fun r _ _ _ hle => repeatedScore_le hle
  | setRequestResult s' m' result =>
    refine ⟨fun r _ hs hm _ => ?_, fun _ => trivial⟩
    rw [h hs hm]
    decide
  | addSavedSourceRequest s' m' score time =>
    exact ⟨fun r _ _ _ hle => repeatedScore_le hle, fun r hs hm _ => h hs hm⟩
  | removeFileSourcesManager m' => exact h
  | _ => trivial

-- The states of a run that goes on from a state.
def ReachableFrom (compare : σ → σ → Ordering) (w : World σ μ)
    (ok : World σ μ → Op σ μ → Prop) : World σ μ → Prop :=
  Reach (Op.next compare) (fun w' => w' = w) ok

lemma Answered.run {r : Request μ} (hr : w.findRequest s m = some r)
    (hscore : r.score ≤ notFoundScore)
    (h : ReachableFrom compare w (Op.Unanswered s m) w') : Answered s m (asks s m w) w' := by
  refine Reach.inv (I := Answered s m (asks s m w)) ?_ ?_ h
  · rintro w' rfl
    exact ⟨⟨r, hr, hscore⟩, rfl⟩
  · intro w₁ op hanswered hop
    have hmoves : Moves compare (answeredRules s m) w₁ (op.next compare w₁) :=
      next_moves (answeredRules_lawful s m) (allowed_of_unanswered hop)
    exact hanswered.moves hmoves

end Asked

end Mldonkey.Sources
