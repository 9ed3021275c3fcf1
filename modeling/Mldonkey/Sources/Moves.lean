import Mathlib.Logic.Relation
import Mldonkey.Sources.Connect

-- The operations of the source manager are made of a few moves: invariants are
-- proved for these, and hold for the operations.
namespace Mldonkey.Sources

open Queues (Queue)
open Relation

variable {σ μ : Type} [DecidableEq σ] [DecidableEq μ]

section Find

variable {w : World σ μ} {s s' : σ} {m m' : μ} {r : Request μ}

omit [DecidableEq σ] in
lemma find?_map (files : List (Request μ)) (f : Request μ → Request μ)
    (hf : ∀ r, (f r).file = r.file) (m m' : μ) :
    (files.map fun r => if r.file = m then f r else r).find? (fun r => r.file = m')
      = if m' = m then (files.find? fun r => r.file = m).map f
        else files.find? fun r => r.file = m' := by
  induction files with
  | nil => simp
  | cons r files ih =>
    rw [List.map_cons, List.find?_cons, ih, List.find?_cons, List.find?_cons]
    by_cases hr : r.file = m
    · by_cases hm : m' = m
      · simp [hr, hm, hf]
      · simp [hr, hm, hf, Ne.symm hm]
    · by_cases hm : m' = m
      · simp [hr, hm]
      · simp [hr, hm]

lemma findRequest_setRequest (f : Request μ → Request μ) (hf : ∀ r, (f r).file = r.file) :
    (w.setRequest s m f).findRequest s' m'
      = if s' = s ∧ m' = m then (w.findRequest s m).map f else w.findRequest s' m' := by
  unfold World.findRequest World.setRequest World.setSource
  by_cases hs : s' = s
  · subst hs
    simp only [Function.update_self, true_and]
    exact find?_map _ f hf m m'
  · simp [hs]

lemma findRequest_setRequest_self (f : Request μ → Request μ) (hf : ∀ r, (f r).file = r.file) :
    (w.setRequest s m f).findRequest s m = (w.findRequest s m).map f := by
  rw [findRequest_setRequest f hf, if_pos ⟨rfl, rfl⟩]

omit [DecidableEq σ] in
lemma findRequest_congr {w' : World σ μ} (h : (w'.source s).files = (w.source s).files) :
    w'.findRequest s m = w.findRequest s m := by
  rw [World.findRequest, h, World.findRequest]

omit [DecidableEq σ] in
@[simp] lemma findRequest_setManager (f : Manager σ → Manager σ) :
    (w.setManager m f).findRequest s m' = w.findRequest s m' := rfl

omit [DecidableEq σ] in
lemma queued_eq_false_iff :
    w.queued s m = false ↔ ∀ r, w.findRequest s m = some r → r.queue = none := by
  unfold World.queued
  cases w.findRequest s m with
  | none => simp
  | some r => simp

variable (compare : σ → σ → Ordering)

lemma findRequest_removeFromQueue (h : w.findRequest s m = some r) :
    (removeFromQueue compare s m w).findRequest s m = some { r with queue := none } := by
  unfold removeFromQueue
  simp only [h]
  cases hq : r.queue with
  | none =>
    simp only [h]
    rw [← hq]
  | some q =>
    simp only
    rw [findRequest_setRequest_self, findRequest_setManager, h]
    · rfl
    · exact fun _ => rfl

lemma findRequest_reschedule_score (saved : Bool)
    (h : w.findRequest s m = some r) :
    ∃ r', (rescheduleSourceForFile compare saved s m w).findRequest s m = some r' ∧
      r'.score = r.score := by
  unfold rescheduleSourceForFile
  simp only [h]
  by_cases hq : r.queue = none
  · refine ⟨{ r with queue := some (w.chooseQueue saved (w.source s) r) }, ?_, rfl⟩
    rw [if_pos hq, findRequest_setRequest_self, findRequest_setManager, h]
    · rfl
    · exact fun _ => rfl
  · exact ⟨r, by rw [if_neg hq]; exact h, rfl⟩

lemma queued_removeFromQueue : (removeFromQueue compare s m w).queued s m = false := by
  rw [queued_eq_false_iff]
  intro r hr
  cases h : w.findRequest s m with
  | none =>
    unfold removeFromQueue at hr
    simp [h] at hr
  | some r' =>
    rw [findRequest_removeFromQueue compare h] at hr
    obtain rfl := Option.some.inj hr
    rfl

end Find

-- When a score may be given to a request, or a new request may have it, and when a
-- manager may be removed.
structure Rules (σ μ : Type) where
  score : σ → μ → Request μ → Int → Prop
  add : σ → μ → Int → Prop
  drop : World σ μ → μ → Prop

-- What the operations do to scores of their own accord, while the request is
-- outside the queues.
structure Rules.Lawful (rules : Rules σ μ) : Prop where
  new : ∀ s m, rules.add s m possibleScore
  initial : ∀ s m r, r.queue = none → r.score = initialNewSourceScore →
    rules.score s m r newSourceScore
  repeated : ∀ s m r, r.queue = none → notFoundScore < r.score →
    rules.score s m r (repeatedScore r.score)

variable (compare : σ → σ → Ordering) (rules : Rules σ μ)

inductive Move : World σ μ → World σ μ → Prop
  | remove (w : World σ μ) (s : σ) (m : μ) : Move w (removeFromQueue compare s m w)
  | reschedule (w : World σ μ) (saved : Bool) (s : σ) (m : μ) :
      Move w (rescheduleSourceForFile compare saved s m w)
  | time (w : World σ μ) (s : σ) (m : μ) (t : Int) (h : w.queued s m = false) :
      Move w (w.setRequest s m fun x => { x with time := t })
  | score (w : World σ μ) (s : σ) (m : μ) (x : Int)
      (h : ∀ r, w.findRequest s m = some r → rules.score s m r x) :
      Move w (w.setRequest s m fun r => { r with score := x })
  | add (w : World σ μ) (s : σ) (m : μ) (t x : Int) (h : w.findRequest s m = none)
      (hx : rules.add s m x) : Move w (w.addFile s ⟨m, none, t, x⟩)
  | ask (w : World σ μ) (s : σ) (m : μ) (r : Request μ) (h : w.findRequest s m = some r)
      (hr : notFoundScore < r.score) :
      Move w { w with asked := ⟨s, m, r.score⟩ :: w.asked }
  | other (w w' : World σ μ) (hfiles : ∀ s, (w'.source s).files = (w.source s).files)
      (hmanager : w'.manager = w.manager) (hasked : w'.asked = w.asked) : Move w w'
  | drop (w : World σ μ) (m : μ) (h : rules.drop w m) : Move w (removeFileSourcesManager m w)

abbrev Moves : World σ μ → World σ μ → Prop := ReflTransGen (Move compare rules)

variable {compare rules} {w w' w'' : World σ μ} {s : σ} {m : μ} {env : Env σ μ}

lemma Moves.step (h : Moves compare rules w w') (hm : Move compare rules w' w'') :
    Moves compare rules w w'' := ReflTransGen.tail h hm

omit [DecidableEq μ] in
lemma files_setSource {f : Source μ → Source μ} (hf : ∀ x, (f x).files = x.files) (s' : σ) :
    ((w.setSource s f).source s').files = (w.source s').files := by
  unfold World.setSource
  by_cases hs : s' = s
  · subst hs
    simp [hf]
  · simp [Function.update_of_ne hs]

lemma moves_setSource {f : Source μ → Source μ} (hf : ∀ x, (f x).files = x.files) :
    Move compare rules w (w.setSource s f) :=
  .other _ _ (files_setSource hf) rfl rfl

lemma moves_foldl {α : Type} {f : World σ μ → α → World σ μ}
    (hf : ∀ w a, Moves compare rules w (f w a)) (l : List α) (w : World σ μ) :
    Moves compare rules w (l.foldl f w) := by
  induction l generalizing w with
  | nil => exact .refl
  | cons a l ih => exact (hf w a).trans (ih _)

lemma moves_foldl_snd {α β : Type} {f : β × World σ μ → α → β × World σ μ}
    (hf : ∀ p a, Moves compare rules p.2 (f p a).2) (l : List α) (p : β × World σ μ) :
    Moves compare rules p.2 (l.foldl f p).2 := by
  induction l generalizing p with
  | nil => exact .refl
  | cons a l ih => exact (hf p a).trans (ih _)

lemma moves_iterRequests {f : μ → World σ μ → World σ μ}
    (hf : ∀ m w, Moves compare rules w (f m w)) (s : σ) (w : World σ μ) :
    Moves compare rules w (w.iterRequests s f) :=
  moves_foldl (fun w m => hf m w) _ w

lemma sourceConnecting_moves (s : σ) (w : World σ μ) :
    Moves compare rules w (sourceConnecting compare s w) := by
  have hset : Move compare rules w (w.setSource s fun x => { x with lastAttempt := w.now }) :=
    moves_setSource fun _ => rfl
  have hput : ∀ w : World σ μ, Move compare rules w
      { w with connecting := w.connecting ++ [(w.now, s)] } :=
    fun w => .other _ _ (fun _ => rfl) rfl rfl
  refine ReflTransGen.trans (.tail (.single hset) (hput _)) ?_
  apply moves_iterRequests
  intro m w
  split
  · exact .tail (.single (.remove w s m)) (.reschedule _ _ s m)
  · exact .refl

lemma addRequest_moves (hok : rules.Lawful) (time : Int)
    (h : ∀ r, w.findRequest s m = some r →
      rules.score s m { r with queue := none } (repeatedScore r.score)) :
    Moves compare rules w (addRequest compare s m time w) := by
  unfold addRequest
  cases hr : w.findRequest s m with
  | some r =>
    have hfind := findRequest_removeFromQueue compare hr
    refine .tail (.tail (.tail (.single (.remove w s m)) (.score _ s m _ fun r' hr' => ?_))
      (.time _ s m _ ?_)) (.reschedule _ _ s m)
    · rw [hfind] at hr'
      obtain rfl := Option.some.inj hr'
      exact h r hr
    · rw [queued_eq_false_iff, findRequest_setRequest_self, hfind]
      · rintro r' hr'
        obtain rfl := Option.some.inj hr'
        rfl
      · exact fun _ => rfl
  | none => exact .tail (.single (.add w s m _ _ hr (hok.new s m))) (.reschedule _ _ s m)

lemma sourceQuery_moves (hok : rules.Lawful) (s : σ) (m : μ) (w : World σ μ) :
    Moves compare rules w (sourceQuery compare env s m w) := by
  unfold sourceQuery
  refine ReflTransGen.trans (.single (.remove w s m)) ?_
  have hqueued := queued_removeFromQueue compare (w := w) (s := s) (m := m)
  generalize removeFromQueue compare s m w = w₁ at hqueued ⊢
  cases hr : w₁.findRequest s m with
  | none => simp only [hr]; exact .refl
  | some r =>
    simp only [hr]
    split
    · rename_i hcond
      have htime : (w₁.setRequest s m fun x => { x with time := 0 }).findRequest s m
          = some { r with time := 0 } := by
        rw [findRequest_setRequest_self, hr]
        · rfl
        · exact fun _ => rfl
      obtain ⟨r', hr', hscore⟩ :=
        findRequest_reschedule_score compare false htime
      have hask : notFoundScore < r'.score := by rw [hscore]; exact hcond.1
      have hmoves := ReflTransGen.tail (ReflTransGen.tail
        (ReflTransGen.single (Move.time w₁ s m 0 hqueued : Move compare rules _ _))
        (.reschedule _ false s m)) (.ask _ s m r' hr' hask)
      rw [show r'.score = r.score from hscore] at hmoves
      refine ReflTransGen.trans hmoves ?_
      split
      · refine addRequest_moves hok _ fun r'' hr'' => ?_
        have heq : r'' = r' := Option.some.inj (hr''.symm.trans hr')
        subst heq
        exact hok.repeated s m { r'' with queue := none } rfl hask
      · exact .refl
    · exact .refl

lemma sourceConnected_moves (hok : rules.Lawful) (s : σ) (w : World σ μ) :
    Moves compare rules w (sourceConnected compare env s w) := by
  have hset : Move compare rules w (w.setSource s fun x => { x with score := 0, lastAttempt := 0 }) :=
    moves_setSource fun _ => rfl
  refine ReflTransGen.trans (.single hset) ?_
  apply moves_iterRequests
  intro m w
  split
  · refine ReflTransGen.tail (ReflTransGen.trans (.single (.remove w s m)) ?_) (.reschedule _ _ s m)
    split
    · exact .refl
    · split
      · exact sourceQuery_moves hok s m _
      · exact .refl
  · exact .refl

lemma queryFile_moves (hok : rules.Lawful) (s : σ) (m : μ) (w : World σ μ) :
    Moves compare rules w (queryFile compare env s m w) := by
  unfold queryFile
  split
  · split
    · exact .refl
    · split
      · exact sourceQuery_moves hok s m w
      · exact .refl
  · exact .refl

lemma disconnectRequest_moves (hok : rules.Lawful) (connecting : Bool) (s : σ) (m : μ)
    (w : World σ μ) : Moves compare rules w (disconnectRequest compare connecting s m w) := by
  unfold disconnectRequest
  refine ReflTransGen.trans (.single (.remove w s m)) ?_
  have hqueued := queued_removeFromQueue compare (w := w) (s := s) (m := m)
  generalize removeFromQueue compare s m w = w₁ at hqueued ⊢
  cases hr : w₁.findRequest s m with
  | none => simp only [hr]; exact .refl
  | some r =>
    simp only [hr]
    refine ReflTransGen.tail ?_ (.reschedule _ _ s m)
    have hnone : r.queue = none := (queued_eq_false_iff.mp hqueued) r hr
    -- the score is set behind the time, and the request is still outside
    have hscore : ∀ w₂ : World σ μ, (∀ r₂, w₂.findRequest s m = some r₂ →
        r₂.queue = none ∧ r₂.score = r.score) →
        Moves compare rules w₂ (if connecting = true ∧ r.score = initialNewSourceScore then
          w₂.setRequest s m fun x => { x with score := newSourceScore } else w₂) := by
      intro w₂ hw₂
      split
      · rename_i hcond
        refine .single (.score w₂ s m _ fun r₂ hr₂ => ?_)
        obtain ⟨hq, hs⟩ := hw₂ r₂ hr₂
        exact hok.initial s m r₂ hq (hs.trans hcond.2)
      · exact .refl
    by_cases ht : connecting = true ∨ r.time = 0
    · simp only [if_pos ht]
      refine ReflTransGen.trans (.single (.time w₁ s m w₁.now hqueued)) (hscore _ fun r₂ hr₂ => ?_)
      rw [findRequest_setRequest_self _ (by exact fun _ => rfl), hr] at hr₂
      obtain rfl := Option.some.inj hr₂
      exact ⟨hnone, rfl⟩
    · simp only [if_neg ht]
      refine hscore _ fun r₂ hr₂ => ?_
      obtain rfl := Option.some.inj (hr.symm.trans hr₂)
      exact ⟨hnone, rfl⟩

lemma disconnectRequests_moves (hok : rules.Lawful) (s : σ) (w : World σ μ) :
    Moves compare rules w (disconnectRequests compare s w) := by
  have hset : Move compare rules w (w.setSource s fun x => { x with lastAttempt := 0 }) :=
    moves_setSource fun _ => rfl
  refine ReflTransGen.trans (.single hset) ?_
  apply moves_iterRequests
  intro m w
  split
  · exact disconnectRequest_moves hok _ s m w
  · exact .refl

lemma sourceDisconnected_moves (hok : rules.Lawful) (s : σ) (w : World σ μ) :
    Moves compare rules w (sourceDisconnected compare env s w) := by
  have hset : ∀ w : World σ μ, Move compare rules w
      (w.setSource s fun x => { x with sock := .noConnection }) :=
    fun w => moves_setSource fun _ => rfl
  have hsock : ∀ w : World σ μ, Moves compare rules w
      (disconnectRequests compare s (w.setSource s fun x => { x with sock := .noConnection })) :=
    fun w => ReflTransGen.trans (.single (hset w)) (disconnectRequests_moves hok s _)
  unfold sourceDisconnected
  cases (w.source s).sock with
  | noConnection => exact disconnectRequests_moves hok s w
  | connectionWaiting => exact hsock w
  | connection =>
    simp only
    split
    · exact ReflTransGen.trans (hsock w) (disconnectRequests_moves hok s _)
    · exact disconnectRequests_moves hok s w

-- The queue that a request is in when set_request_score gives it a score: only
-- those in front of connected_sources_queue are left.
def scoredRequest (r : Request μ) : Request μ :=
  if r.queue.all fun q => decide (q < connectedSourcesQueue) then { r with queue := none } else r

def announcedScore (score : Int) : Int :=
  if score = initialNewSourceScore then newSourceScore else score

lemma setRequestScore_moves {score : Int}
    (h : ∀ r, w.findRequest s m = some r →
      rules.score s m (scoredRequest r) (announcedScore score))
    (hadd : w.findRequest s m = none → rules.add s m score) :
    Moves compare rules w (setRequestScore compare s m score w) := by
  unfold setRequestScore
  cases hr : w.findRequest s m with
  | none => exact .tail (.single (.add w s m _ _ hr (hadd hr))) (.reschedule _ _ s m)
  | some r =>
    have hr' := h r hr
    unfold scoredRequest at hr'
    simp only
    split
    · refine ReflTransGen.tail ?_ (.reschedule _ _ s m)
      split
      · rename_i hall
        rw [if_pos hall] at hr'
        refine .tail (.single (.remove w s m)) (.score _ s m _ fun r₂ hr₂ => ?_)
        rw [findRequest_removeFromQueue compare hr] at hr₂
        obtain rfl := Option.some.inj hr₂
        exact hr'
      · rename_i hall
        rw [if_neg hall] at hr'
        refine .single (.score w s m _ fun r₂ hr₂ => ?_)
        obtain rfl := Option.some.inj (hr.symm.trans hr₂)
        exact hr'
    · exact .refl

lemma addSavedSourceRequest_moves (hok : rules.Lawful) {score : Int} (time : Int)
    (h : ∀ r, w.findRequest s m = some r →
      rules.score s m { r with queue := none } (repeatedScore r.score))
    (hscore : ∀ r, rules.score s m r score) :
    Moves compare rules w (addSavedSourceRequest compare s m score time w) :=
  .tail (.tail (addRequest_moves hok time h) (.score _ s m _ fun r _ => hscore r))
    (.reschedule _ _ s m)

section Refill

lemma takeSource_moves (s : σ) (w : World σ μ) :
    Moves compare rules w (takeSource compare env s w) := by
  unfold takeSource
  split
  · exact .tail (sourceConnecting_moves s w) (.other _ _ (fun _ => rfl) rfl rfl)
  · exact .tail (sourceConnecting_moves s w) (.other _ _ (fun _ => rfl) rfl rfl)

lemma getSources_moves (m : μ) (fuel : ℕ) (nsource : Int) (queue : ℕ) (took : Int)
    (w : World σ μ) :
    Moves compare rules w (getSources compare env m fuel nsource queue took w).2 := by
  induction fuel generalizing nsource queue took w with
  | zero => exact .refl
  | succ fuel ih =>
    rw [getSources]
    split
    · exact .refl
    · split
      · rename_i time s _
        dsimp only
        split
        · exact .trans (takeSource_moves s w) (ih _ _ _ _)
        · split
          · exact ih _ _ _ _
          · exact ih _ _ _ _
      · exact ih _ _ _ _

lemma trySomeNewSources_moves (w : World σ μ) :
    Moves compare rules w (trySomeNewSources compare env w).2 := by
  unfold trySomeNewSources
  refine moves_foldl_snd (fun p m => ?_) _ (0, w)
  split
  · split
    · exact takeSource_moves _ _
    · exact .refl
  · exact .refl

lemma removeOld_moves (m : μ) (queue : ℕ) (t : Int) (w : World σ μ) :
    Moves compare rules w (removeOld compare m queue t w) := by
  unfold removeOld
  split
  · split
    · exact .single (.remove w _ m)
    · exact .refl
  · exact .refl

lemma cleanupSomeOldSources_moves (w : World σ μ) :
    Moves compare rules w (cleanupSomeOldSources compare env w) := by
  apply moves_foldl
  intro w m
  split
  · exact .trans (.trans (removeOld_moves m _ _ w) (removeOld_moves m _ _ _))
      (removeOld_moves m _ _ _)
  · exact .refl

lemma fillFiles_moves (todo : List (μ × Int)) (assigned : Int) (w : World σ μ) :
    Moves compare rules w (fillFiles compare env todo assigned w).2.1 := by
  induction todo generalizing assigned w with
  | nil => exact .refl
  | cons p todo ih =>
    obtain ⟨m, share⟩ := p
    rw [fillFiles]
    split
    · exact .refl
    · have hget : Moves compare rules w (getSourcesOf compare env m share w).2 :=
        getSources_moves m _ share _ _ w
      generalize getSourcesOf compare env m share w = p at hget ⊢
      obtain ⟨took, w'⟩ := p
      exact hget.trans (ih _ _)

lemma overloaded_moves (w : World σ μ) : Moves compare rules w
    (match env.overloaded w with
      | some m => getSourcesOf compare env m 10 w
      | none => (0, w)).2 := by
  split
  · exact getSources_moves _ _ _ _ _ _
  · exact .refl

-- What each turn of iterFiles does before it looks at what has been assigned.
lemma round_moves (assigned : Int) (w : World σ μ) :
    Moves compare rules w (cleanupSomeOldSources compare env
      (fillFiles compare env env.shares (assigned + (trySomeNewSources compare env w).1)
        (trySomeNewSources compare env w).2).2.1) := by
  have hnew : Moves compare rules w (trySomeNewSources compare env w).2 :=
    trySomeNewSources_moves w
  refine ReflTransGen.trans (hnew.trans ?_) (cleanupSomeOldSources_moves _)
  exact fillFiles_moves _ _ _

lemma iterFiles_moves (looped : ℕ) (assigned : Int) (w : World σ μ) :
    Moves compare rules w (iterFiles compare env looped assigned w) := by
  induction looped generalizing assigned w with
  | zero =>
    have hround := @round_moves _ _ _ _ compare rules env assigned w
    rw [iterFiles]
    generalize trySomeNewSources compare env w = p at hround ⊢
    obtain ⟨extr, w₁⟩ := p
    dsimp only at hround ⊢
    generalize fillFiles compare env env.shares (assigned + extr) w₁ = p at hround ⊢
    obtain ⟨assigned', w₂, done⟩ := p
    refine ReflTransGen.trans hround ?_
    dsimp only
    split
    · split
      · exact getSources_moves _ _ _ _ _ _
      · exact .refl
    · exact .refl
  | succ looped ih =>
    have hround := @round_moves _ _ _ _ compare rules env assigned w
    rw [iterFiles]
    generalize trySomeNewSources compare env w = p at hround ⊢
    obtain ⟨extr, w₁⟩ := p
    dsimp only at hround ⊢
    generalize fillFiles compare env env.shares (assigned + extr) w₁ = p at hround ⊢
    obtain ⟨assigned', w₂, done⟩ := p
    refine ReflTransGen.trans hround ?_
    dsimp only
    split
    · exact .trans (overloaded_moves _) (ih _ _)
    · exact .refl

lemma refillSources_moves (w : World σ μ) :
    Moves compare rules w (refillSources compare env w) := by
  unfold refillSources
  split
  · exact .refl
  · exact iterFiles_moves 3 0 w

end Refill

section Connect

lemma revokeConnecting_moves (hok : rules.Lawful) (l : List (Int × σ)) (w : World σ μ) :
    Moves compare rules w (revokeConnecting compare env l w) := by
  induction l generalizing w with
  | nil => exact .refl
  | cons p rest ih =>
    obtain ⟨time, s⟩ := p
    have hrest : Move compare rules w { w with connecting := rest } :=
      .other _ _ (fun _ => rfl) rfl rfl
    rw [revokeConnecting]
    split
    · exact .trans (.single hrest) (ih _)
    · split
      · refine ReflTransGen.trans (.single hrest) (ReflTransGen.trans ?_ (ih _))
        split
        · exact sourceDisconnected_moves hok s _
        · exact .refl
      · exact .refl

lemma connectSource_moves (s : σ) (w : World σ μ) :
    Moves compare rules w (connectSource env s w) := by
  have hscore : Move compare rules w (w.setSource s fun x => { x with score := x.score + 1 }) :=
    moves_setSource fun _ => rfl
  unfold connectSource
  dsimp only
  split
  · refine .tail (.single hscore) ?_
    apply moves_setSource
    exact fun _ => rfl
  · exact .single hscore

lemma queryConnected_moves (hok : rules.Lawful) (m : μ) (fuel : ℕ) (w : World σ μ) :
    Moves compare rules w (queryConnected compare env m fuel w) := by
  induction fuel generalizing w with
  | zero => exact .refl
  | succ fuel ih =>
    rw [queryConnected]
    split
    · split
      · exact .trans (sourceQuery_moves hok _ m w) (ih _)
      · exact .refl
    · exact .refl

lemma connectDirect_moves (fuel nsources : ℕ) (w : World σ μ) :
    Moves compare rules w (connectDirect env fuel nsources w).2 := by
  induction fuel generalizing nsources w with
  | zero => exact .refl
  | succ fuel ih =>
    rw [connectDirect]
    split
    · exact .refl
    · split
      · exact .refl
      · rename_i s rest _
        have hrest : Move compare rules w { w with nextDirect := rest } :=
          .other _ _ (fun _ => rfl) rfl rfl
        exact .trans (.trans (.single hrest) (connectSource_moves s _)) (ih _ _)

lemma connectSources_moves (hok : rules.Lawful) (w : World σ μ) :
    Moves compare rules w (connectSources compare env w) := by
  have hindirect : ∀ w : World σ μ, Move compare rules w
      { w with nextIndirect := w.nextIndirect.drop env.maxConnections } :=
    fun w => .other _ _ (fun _ => rfl) rfl rfl
  have hrevoke : Moves compare rules w (revokeConnecting compare env w.connecting w) :=
    revokeConnecting_moves hok w.connecting w
  have hquery : ∀ w : World σ μ, Moves compare rules w (w.managers.foldl
      (fun w m =>
        if env.downloading m then
          queryConnected compare env m ((w.manager m).sources connectedSourcesQueue).toList.length w
        else w) w) := by
    intro w
    apply moves_foldl
    intro w m
    split
    · exact queryConnected_moves hok m _ w
    · exact .refl
  have hdirect : ∀ (n : ℕ) (w : World σ μ), Moves compare rules w
      (connectDirect env w.nextDirect.length n w).2 := fun n w => connectDirect_moves _ n w
  have hrefill : ∀ w : World σ μ, Moves compare rules w (refillSources compare env w) :=
    fun w => refillSources_moves w
  have hfirst : ∀ (l : List σ) (w : World σ μ), Moves compare rules w
      (l.foldl (fun w s => connectSource env s w) w) :=
    moves_foldl fun w s => connectSource_moves s w
  unfold connectSources
  refine ReflTransGen.trans (hrevoke.trans (.single (hindirect _))) ?_
  generalize revokeConnecting compare env w.connecting w = w₁
  dsimp only
  generalize w₁.nextIndirect.take env.maxConnections = first
  generalize ({ w₁ with nextIndirect := w₁.nextIndirect.drop env.maxConnections } : World σ μ) = w₂
  refine ReflTransGen.trans (hfirst first w₂) ?_
  generalize first.foldl (fun w s => connectSource env s w) w₂ = w₃
  refine ReflTransGen.trans (hquery w₃) ?_
  refine ReflTransGen.trans (hdirect env.maxConnections _) ?_
  split
  · exact .trans (hrefill _) (hdirect _ _)
  · exact .refl

end Connect

-- The operations whose scores come from outside are held to the rules.
def Op.Allowed (rules : Rules σ μ) (w : World σ μ) : Op σ μ → Prop
  | .addRequest s m _ => ∀ r, w.findRequest s m = some r →
      rules.score s m { r with queue := none } (repeatedScore r.score)
  | .setRequestResult s m result =>
      (∀ r, w.findRequest s m = some r →
        rules.score s m (scoredRequest r) (announcedScore result.score)) ∧
      (w.findRequest s m = none → rules.add s m result.score)
  | .addSavedSourceRequest s m score _ =>
      (∀ r, w.findRequest s m = some r →
        rules.score s m { r with queue := none } (repeatedScore r.score)) ∧
      ∀ r, rules.score s m r score
  | .removeFileSourcesManager m => rules.drop w m
  | _ => True

theorem next_moves (hok : rules.Lawful) {op : Op σ μ} (hop : op.Allowed rules w) :
    Moves compare rules w (op.next compare w) := by
  cases op with
  | clock now delay => exact .single (.other _ _ (fun _ => rfl) rfl rfl)
  | createManager m =>
    simp only [Op.next]
    split
    · exact .refl
    · exact .single (.other _ _ (fun _ => rfl) rfl rfl)
  | socket s sock =>
    have hset : Move compare rules w (w.setSource s fun x => { x with sock := sock }) :=
      moves_setSource fun _ => rfl
    exact .single hset
  | loadSource s score =>
    have hset : Move compare rules w (w.setSource s fun x => { x with score := score }) :=
      moves_setSource fun _ => rfl
    exact .single hset
  | addRequest s m time => exact addRequest_moves hok time hop
  | setRequestResult s m result => exact setRequestScore_moves hop.1 hop.2
  | reschedule saved s m => exact .single (.reschedule w saved s m)
  | sourceConnected s env => exact sourceConnected_moves hok s w
  | sourceDisconnected s env => exact sourceDisconnected_moves hok s w
  | queryFile s m env => exact queryFile_moves hok s m w
  | refillSources env => exact refillSources_moves w
  | connectSources env => exact connectSources_moves hok w
  | addSavedSourceRequest s m score time => exact addSavedSourceRequest_moves hok time hop.1 hop.2
  | removeFileSourcesManager m => exact .single (.drop w m hop)

end Mldonkey.Sources
