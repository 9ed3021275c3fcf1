import Mathlib.Algebra.BigOperators.Group.Finset.Basic
import Mathlib.Algebra.BigOperators.Group.Finset.Piecewise
import Mldonkey.Sources.Moves

-- The queues of a manager hold what the requests of the sources say.
namespace Mldonkey.Sources

open Queues (Queue)
open Relation

variable {σ μ : Type} [DecidableEq σ] [DecidableEq μ] {compare : σ → σ → Ordering}

section Managers

variable {x : Manager σ} {q : ℕ} {e : Int × σ}

lemma Manager.put_spec [Std.TransCmp compare] [Std.LawfulEqCmp compare]
    (h : (x.sources q).Inv compare) (he : ∀ y ∈ (x.sources q).toList, y.2 ≠ e.2) :
    ∃ queue, (x.put compare q e).sources = Function.update x.sources q queue ∧
      queue.Inv compare ∧ queue.toList.Perm (e :: (x.sources q).toList) := by
  have hfresh : ∀ y ∈ (x.sources q).toList, Queues.insides compare e y ≠ .eq := by
    intro y hy
    have hne := Ne.symm (he y hy)
    unfold Queues.insides
    rw [if_neg hne]
    split
    · exact fun h => hne (Std.LawfulEqCmp.eq_of_compare h)
    · rename_i hcmp
      exact hcmp
  obtain ⟨queue, hput, hinv, -, hperm⟩ := Queue.put_inv h hfresh
  refine ⟨queue, ?_, hinv, hperm⟩
  simp only [Manager.put, hput, Except.toOption, Option.getD_some]

lemma Manager.remove_spec [Std.TransCmp compare] (h : (x.sources q).Inv compare)
    (he : e ∈ (x.sources q).toList) :
    ∃ queue, (x.remove compare q e).sources = Function.update x.sources q queue ∧
      queue.Inv compare ∧ (x.sources q).toList.Perm (e :: queue.toList) := by
  obtain ⟨A, B, hAB⟩ := List.append_of_mem he
  obtain ⟨queue, hremove, -, hinv, hlist⟩ := Queue.remove_of_mem h hAB
  refine ⟨queue, ?_, hinv, ?_⟩
  · simp only [Manager.remove, hremove, Except.toOption, Option.getD_some]
  · rw [hAB, hlist]
    exact List.perm_middle

end Managers

omit [DecidableEq σ] [DecidableEq μ] in
lemma chooseQueue_lt (w : World σ μ) (saved : Bool) (x : Source μ) (r : Request μ) :
    w.chooseQueue saved x r < nqueues := by
  unfold World.chooseQueue
  repeat' split
  all_goals decide

-- Every source has one request for a file, and it is queued where it says, under
-- its own time.
structure Consistent (compare : σ → σ → Ordering) (w : World σ μ) : Prop where
  once : ∀ s, ((w.source s).files.map Request.file).Nodup
  queues : ∀ m q, ((w.manager m).sources q).Inv compare
  range : ∀ s m r q, w.findRequest s m = some r → r.queue = some q → q < nqueues
  mem : ∀ m q t s, (t, s) ∈ ((w.manager m).sources q).toList ↔
    ∃ r, w.findRequest s m = some r ∧ r.queue = some q ∧ r.time = t

-- The counters of a manager.
def queuedElements (x : Manager σ) (p : ℕ → Bool) : ℤ :=
  ∑ q ∈ (Finset.range nqueues).filter fun q => p q, ((x.sources q).toList.length : ℤ)

structure Counted (x : Manager σ) : Prop where
  all : x.all = queuedElements x fun _ => true
  active : x.active = queuedElements x activeQueue

omit [DecidableEq σ] in
lemma queuedElements_update (x : Manager σ) (p : ℕ → Bool) {q : ℕ} (hq : q < nqueues)
    (queue : Queue σ) (y : Manager σ) (hy : y.sources = Function.update x.sources q queue) :
    queuedElements y p = queuedElements x p +
      if p q then (queue.toList.length : ℤ) - (x.sources q).toList.length else 0 := by
  unfold queuedElements
  rw [hy]
  by_cases hp : p q
  · have hmem : q ∈ (Finset.range nqueues).filter fun q => p q := by
      simp [hq, hp]
    rw [if_pos hp, ← Finset.add_sum_erase _ _ hmem, ← Finset.add_sum_erase _ _ hmem]
    have hrest : ∀ i ∈ ((Finset.range nqueues).filter fun q => p q).erase q,
        ((Function.update x.sources q queue i).toList.length : ℤ)
          = ((x.sources i).toList.length : ℤ) := by
      intro i hi
      rw [Function.update_of_ne (Finset.ne_of_mem_erase hi)]
    rw [Finset.sum_congr rfl hrest, Function.update_self]
    ring
  · rw [if_neg hp, add_zero]
    refine Finset.sum_congr rfl fun i hi => ?_
    have hne : i ≠ q := by
      rintro rfl
      exact hp (Finset.mem_filter.mp hi).2
    rw [Function.update_of_ne hne]

section Put

variable {x : Manager σ} {q : ℕ} {e : Int × σ}

lemma Counted.put [Std.TransCmp compare] [Std.LawfulEqCmp compare] (h : Counted x)
    (hq : q < nqueues) (hinv : (x.sources q).Inv compare)
    (he : ∀ y ∈ (x.sources q).toList, y.2 ≠ e.2) : Counted (x.put compare q e) := by
  obtain ⟨queue, hsources, -, hperm⟩ := Manager.put_spec hinv he
  have hlen := hperm.length_eq
  have hupdate := fun p => queuedElements_update x p hq queue _ hsources
  rw [List.length_cons] at hlen
  constructor
  · rw [hupdate, if_pos rfl, ← h.all, hlen]
    simp [Manager.put]
  · rw [hupdate, ← h.active, hlen]
    cases ha : activeQueue q <;> simp [Manager.put, ha]

lemma Counted.remove [Std.TransCmp compare] (h : Counted x) (hq : q < nqueues)
    (hinv : (x.sources q).Inv compare) (he : e ∈ (x.sources q).toList) :
    Counted (x.remove compare q e) := by
  obtain ⟨queue, hsources, -, hperm⟩ := Manager.remove_spec hinv he
  have hlen := hperm.length_eq
  have hupdate := fun p => queuedElements_update x p hq queue _ hsources
  rw [List.length_cons] at hlen
  constructor
  · rw [hupdate, if_pos rfl, ← h.all, hlen]
    simp [Manager.remove]
    ring
  · rw [hupdate, ← h.active, hlen]
    cases ha : activeQueue q
    · simp [Manager.remove, ha]
    · simp [Manager.remove, ha]
      ring

end Put

section Moves

variable {rules : Rules σ μ} {w w' : World σ μ} {s : σ} {m : μ}

lemma map_file_setRequest (f : Request μ → Request μ) (hf : ∀ r, (f r).file = r.file) (s' : σ) :
    ((w.setRequest s m f).source s').files.map Request.file
      = (w.source s').files.map Request.file := by
  unfold World.setRequest World.setSource
  by_cases hs : s' = s
  · subst hs
    simp only [Function.update_self, List.map_map]
    apply List.map_congr_left
    intro r _
    simp only [Function.comp_apply]
    split
    · exact hf r
    · rfl
  · simp only [Function.update_of_ne hs]

omit [DecidableEq σ] in
lemma findRequest_of_mem {r : Request μ} (h : ((w.source s).files.map Request.file).Nodup)
    (hr : r ∈ (w.source s).files) : w.findRequest s r.file = some r := by
  unfold World.findRequest
  generalize (w.source s).files = files at h hr
  induction files with
  | nil => simp at hr
  | cons x files ih =>
    rw [List.map_cons, List.nodup_cons] at h
    rw [List.find?_cons]
    rcases List.mem_cons.mp hr with rfl | hr
    · simp
    · have hne : x.file ≠ r.file := fun he => h.1 (he ▸ List.mem_map_of_mem hr)
      simp [hne, ih h.2 hr]

-- A change of a request that keeps its queue, and its time while it has one.
lemma Consistent.setRequest (h : Consistent compare w) (f : Request μ → Request μ)
    (hf : ∀ r, (f r).file = r.file) (hqueue : ∀ r, (f r).queue = r.queue)
    (htime : ∀ r, w.findRequest s m = some r → r.queue ≠ none → (f r).time = r.time) :
    Consistent compare (w.setRequest s m f) where
  once s' := by
    rw [map_file_setRequest f hf]
    exact h.once s'
  queues := h.queues
  range s' m' r q hr hq := by
    rw [findRequest_setRequest f hf] at hr
    split at hr
    · obtain ⟨r', hr', rfl⟩ := Option.map_eq_some_iff.mp hr
      rw [hqueue] at hq
      exact h.range s m r' q hr' hq
    · exact h.range s' m' r q hr hq
  mem m' q t s' := by
    rw [findRequest_setRequest f hf]
    refine (h.mem m' q t s').trans ?_
    split
    · rename_i heq
      obtain ⟨rfl, rfl⟩ := heq
      constructor
      · rintro ⟨r, hr, hq, ht⟩
        refine ⟨f r, by rw [hr]; rfl, by rw [hqueue, hq], ?_⟩
        rw [htime r hr (by simp [hq]), ht]
      · rintro ⟨r', hr', hq, ht⟩
        obtain ⟨r, hr, rfl⟩ := Option.map_eq_some_iff.mp hr'
        rw [hqueue] at hq
        rw [htime r hr (by simp [hq])] at ht
        exact ⟨r, hr, hq, ht⟩
    · rfl

-- The request goes into a queue, or leaves one, in which the source is, or was, in
-- no other place.
lemma Consistent.moved (h : Consistent compare w) {r : Request μ} {x : Manager σ} {q : ℕ}
    {queue : Queue σ} {target : Option ℕ} (hr : w.findRequest s m = some r)
    (hx : x.sources = Function.update (w.manager m).sources q queue) (hinv : queue.Inv compare)
    (htarget : ∀ q', target = some q' → q' < nqueues)
    (hmem : ∀ t s', (t, s') ∈ queue.toList ↔
      if s' = s then target = some q ∧ r.time = t
      else (t, s') ∈ ((w.manager m).sources q).toList)
    (hother : ∀ q', q' ≠ q → (target = some q' ↔ r.queue = some q')) :
    Consistent compare ((w.setManager m fun _ => x).setRequest s m
      fun r => { r with queue := target }) := by
  have hfind : ∀ s' m', ((w.setManager m fun _ => x).setRequest s m
      fun r => { r with queue := target }).findRequest s' m'
      = if s' = s ∧ m' = m then some { r with queue := target } else w.findRequest s' m' := by
    intro s' m'
    rw [findRequest_setRequest _ (by exact fun _ => rfl), findRequest_setManager, hr]
    rfl
  have hsources : ∀ m' q', (((w.setManager m fun _ => x).setRequest s m
      fun r => { r with queue := target }).manager m').sources q'
      = if m' = m ∧ q' = q then queue else (w.manager m').sources q' := by
    intro m' q'
    show ((Function.update w.manager m x) m').sources q' = _
    by_cases hm : m' = m
    · subst hm
      rw [Function.update_self, hx]
      by_cases hq : q' = q
      · subst hq
        simp
      · simp [hq]
    · simp [hm]
  constructor
  · intro s'
    rw [map_file_setRequest]
    · exact h.once s'
    · exact fun _ => rfl
  · intro m' q'
    rw [hsources]
    split
    · exact hinv
    · exact h.queues m' q'
  · intro s' m' r' q' hr' hq'
    rw [hfind] at hr'
    split at hr'
    · obtain rfl := Option.some.inj hr'
      exact htarget q' hq'
    · exact h.range s' m' r' q' hr' hq'
  · intro m' q' t s'
    rw [hsources, hfind]
    by_cases hm : m' = m
    · subst hm
      by_cases hs : s' = s
      · subst hs
        have hold := h.mem m' q' t s'
        rw [hr] at hold
        by_cases hq : q' = q
        · subst hq
          simp [hmem]
        · have := hother q' hq
          simp only [Option.some.injEq, exists_eq_left'] at hold
          simp [hq, hold, this]
      · by_cases hq : q' = q
        · subst hq
          simp [hmem, hs, h.mem]
        · simp [hq, hs, h.mem]
    · simp [hm, h.mem]

lemma Consistent.reschedule [Std.TransCmp compare] [Std.LawfulEqCmp compare]
    (h : Consistent compare w) (saved : Bool) (s : σ) (m : μ) :
    Consistent compare (rescheduleSourceForFile compare saved s m w) := by
  unfold rescheduleSourceForFile
  split
  · exact h
  · rename_i r hr
    split
    · rename_i hnone
      have hout : ∀ q, ∀ y ∈ ((w.manager m).sources q).toList, y.2 ≠ s := by
        intro q y hy hys
        obtain ⟨r', hr', hq, -⟩ := (h.mem m q y.1 s).mp (hys ▸ hy)
        obtain rfl := Option.some.inj (hr.symm.trans hr')
        rw [hnone] at hq
        cases hq
      obtain ⟨queue, hsources, hinv, hperm⟩ := Manager.put_spec
        (h.queues m (w.chooseQueue saved (w.source s) r)) (e := (r.time, s)) (hout _)
      refine h.moved hr hsources hinv ?_ ?_ ?_
      · intro q' hq'
        obtain rfl := Option.some.inj hq'
        exact chooseQueue_lt w saved _ r
      · intro t s'
        rw [hperm.mem_iff, List.mem_cons]
        by_cases hs : s' = s
        · subst hs
          have hnot : (t, s') ∉ ((w.manager m).sources
              (w.chooseQueue saved (w.source s') r)).toList := fun hin => hout _ _ hin rfl
          simp [hnot, eq_comm]
        · simp [hs]
      · intro q' hq'
        simp [hnone, Ne.symm hq']
    · exact h

lemma Consistent.remove [Std.TransCmp compare] (h : Consistent compare w) (s : σ) (m : μ) :
    Consistent compare (removeFromQueue compare s m w) := by
  unfold removeFromQueue
  split
  · exact h
  · rename_i r hr
    split
    · exact h
    · rename_i q hq
      have hin : (r.time, s) ∈ ((w.manager m).sources q).toList :=
        (h.mem m q r.time s).mpr ⟨r, hr, hq, rfl⟩
      obtain ⟨queue, hsources, hinv, hperm⟩ := Manager.remove_spec (h.queues m q) hin
      refine h.moved hr hsources hinv ?_ ?_ ?_
      · intro q' hq'
        cases hq'
      · intro t s'
        by_cases hs : s' = s
        · subst hs
          -- each element is there once, so the one that leaves was the last of s'
          have hnodup : ((w.manager m).sources q).toList.Nodup := by
            refine (h.queues m q).sorted.imp fun {x y} hxy heq => ?_
            rw [heq, Queues.insides_self] at hxy
            cases hxy
          have hlast := (List.nodup_cons.mp (hperm.nodup_iff.mp hnodup)).1
          have hnot : (t, s') ∉ queue.toList := by
            intro hq'
            obtain ⟨r', hr', -, rfl⟩ := (h.mem m q t s').mp
              (hperm.mem_iff.mpr (List.mem_cons_of_mem _ hq'))
            obtain rfl := Option.some.inj (hr.symm.trans hr')
            exact hlast hq'
          simp [hnot]
        · rw [if_neg hs, hperm.mem_iff, List.mem_cons]
          simp [hs]
      · intro q' hq'
        simp [hq, Ne.symm hq']

lemma findRequest_addFile (r : Request μ) (s' : σ) (m' : μ) :
    (w.addFile s r).findRequest s' m'
      = if s' = s ∧ m' = r.file then some r else w.findRequest s' m' := by
  unfold World.findRequest World.addFile World.setSource
  by_cases hs : s' = s
  · subst hs
    simp only [Function.update_self, List.find?_cons, true_and]
    by_cases hm : m' = r.file
    · simp [hm]
    · simp [hm, Ne.symm hm]
  · simp [hs]

lemma Consistent.addFile (h : Consistent compare w) {r : Request μ}
    (hnone : w.findRequest s r.file = none) (hr : r.queue = none) :
    Consistent compare (w.addFile s r) where
  once s' := by
    by_cases hs : s' = s
    · subst hs
      have hfiles : ((w.addFile s' r).source s').files = r :: (w.source s').files := by
        simp [World.addFile, World.setSource]
      rw [hfiles, List.map_cons, List.nodup_cons]
      refine ⟨fun hin => ?_, h.once s'⟩
      obtain ⟨r', hr', hfile⟩ := List.mem_map.mp hin
      rw [← hfile, findRequest_of_mem (h.once s') hr'] at hnone
      cases hnone
    · have hfiles : ((w.addFile s r).source s').files = (w.source s').files := by
        simp [World.addFile, World.setSource, hs]
      rw [hfiles]
      exact h.once s'
  queues := h.queues
  range s' m' r' q hr' hq := by
    rw [findRequest_addFile] at hr'
    split at hr'
    · obtain rfl := Option.some.inj hr'
      rw [hr] at hq
      cases hq
    · exact h.range s' m' r' q hr' hq
  mem m' q t s' := by
    rw [findRequest_addFile]
    refine (h.mem m' q t s').trans ?_
    split
    · rename_i heq
      obtain ⟨rfl, rfl⟩ := heq
      simp [hnone, hr]
    · rfl

lemma Consistent.congr (h : Consistent compare w)
    (hfiles : ∀ s, (w'.source s).files = (w.source s).files) (hmanager : w'.manager = w.manager) :
    Consistent compare w' where
  once s := by rw [hfiles]; exact h.once s
  queues := by rw [hmanager]; exact h.queues
  range s m r q hr := by
    rw [findRequest_congr (hfiles s)] at hr
    exact h.range s m r q hr
  mem m q t s := by
    rw [hmanager, findRequest_congr (hfiles s)]
    exact h.mem m q t s

section Drop

-- The files of the sources once the requests for the manager are filtered out.
def dropFiles (m : μ) (l : List σ) (w : World σ μ) : World σ μ :=
  l.foldl (fun w s => w.setSource s fun x => { x with files := x.files.filter fun r => r.file ≠ m }) w

lemma files_dropFiles (m : μ) (l : List σ) (w : World σ μ) (s : σ) :
    ((dropFiles m l w).source s).files
      = if s ∈ l then (w.source s).files.filter fun r => r.file ≠ m else (w.source s).files := by
  induction l generalizing w with
  | nil => simp [dropFiles]
  | cons s' l ih =>
    have hcons : dropFiles m (s' :: l) w = dropFiles m l
        (w.setSource s' fun x => { x with files := x.files.filter fun r => r.file ≠ m }) := rfl
    rw [hcons, ih]
    unfold World.setSource
    by_cases hs : s = s'
    · subst hs
      simp [List.filter_filter]
    · simp [hs]

lemma manager_dropFiles (m : μ) (l : List σ) (w : World σ μ) :
    (dropFiles m l w).manager = w.manager := by
  induction l generalizing w with
  | nil => rfl
  | cons s l ih =>
    exact ih (w.setSource s fun x => { x with files := x.files.filter fun r => r.file ≠ m })

omit [DecidableEq σ] in
lemma find?_filter_ne (files : List (Request μ)) (m m' : μ) :
    (files.filter fun r => r.file ≠ m).find? (fun r => r.file = m')
      = if m' = m then none else files.find? fun r => r.file = m' := by
  rw [List.find?_filter]
  by_cases hm : m' = m
  · subst hm
    rw [if_pos rfl, List.find?_eq_none]
    simp
  · rw [if_neg hm]
    congr 1
    funext r
    by_cases hr : r.file = m'
    · simp [hr, hm]
    · simp [hr]

lemma findRequest_remove_manager (s : σ) (m' : μ) :
    (removeFileSourcesManager m w).findRequest s m'
      = if m' = m ∧ s ∈ allSources m w then none else w.findRequest s m' := by
  show ((dropFiles m (allSources m w) w).source s).files.find? (fun r => r.file = m') = _
  rw [files_dropFiles]
  by_cases hs : s ∈ allSources m w
  · rw [if_pos hs, find?_filter_ne]
    simp [hs, World.findRequest]
  · simp [hs, World.findRequest]

lemma sources_remove_manager (m' : μ) :
    ((removeFileSourcesManager m w).manager m').sources
      = if m' = m then createQueues else (w.manager m').sources := by
  show (Function.update (dropFiles m (allSources m w) w).manager m _ m').sources = _
  rw [manager_dropFiles]
  by_cases hm : m' = m
  · subst hm
    simp
  · simp [hm]

omit [DecidableEq σ] in
lemma toList_createQueues (q : ℕ) : (createQueues q : Queue σ).toList = [] := rfl

omit [DecidableEq μ] [DecidableEq σ] in
lemma mem_allSources {q : ℕ} {t : Int} (hq : q < nqueues)
    (h : (t, s) ∈ ((w.manager m).sources q).toList) : s ∈ allSources m w :=
  List.mem_flatMap.mpr ⟨q, List.mem_range.mpr hq, List.mem_map_of_mem h⟩

-- Sources that are queued for the manager lose their requests for it, and the
-- others have none in its queues.
lemma Consistent.drop (h : Consistent compare w) (m : μ) :
    Consistent compare (removeFileSourcesManager m w) where
  once s := by
    show (((dropFiles m (allSources m w) w).source s).files.map Request.file).Nodup
    rw [files_dropFiles]
    split
    · exact (h.once s).sublist (List.filter_sublist.map Request.file)
    · exact h.once s
  queues m' q := by
    rw [sources_remove_manager]
    split
    · exact Queue.create_inv _
    · exact h.queues m' q
  range s m' r q hr := by
    rw [findRequest_remove_manager] at hr
    split at hr
    · cases hr
    · exact h.range s m' r q hr
  mem m' q t s := by
    rw [sources_remove_manager, findRequest_remove_manager]
    by_cases hm : m' = m
    · subst hm
      rw [if_pos rfl, toList_createQueues]
      simp only [List.not_mem_nil, true_and, false_iff, not_exists, not_and]
      intro r hr hq
      split at hr
      · cases hr
      · rename_i hs
        have hlt := h.range s m' r q hr hq
        exact absurd (mem_allSources hlt ((h.mem m' q r.time s).mpr ⟨r, hr, hq, rfl⟩)) hs
    · simp only [hm, false_and, if_false]
      exact h.mem m' q t s

end Drop

theorem Consistent.move [Std.TransCmp compare] [Std.LawfulEqCmp compare] (h : Consistent compare w)
    (hmove : Move compare rules w w') : Consistent compare w' := by
  cases hmove with
  | remove s m => exact h.remove s m
  | reschedule saved s m => exact h.reschedule saved s m
  | time s m t hqueued =>
    refine h.setRequest _ (by exact fun _ => rfl) (by exact fun _ => rfl) fun r hr hne => ?_
    exact absurd (queued_eq_false_iff.mp hqueued r hr) hne
  | score s m x _ =>
    exact h.setRequest _ (by exact fun _ => rfl) (by exact fun _ => rfl) fun _ _ _ => rfl
  | add s m t x hnone _ => exact h.addFile hnone rfl
  | ask s m r _ _ => exact h.congr (fun _ => rfl) rfl
  | other _ hfiles hmanager _ => exact h.congr hfiles hmanager
  | drop m _ => exact h.drop m

lemma counted_remove [Std.TransCmp compare] (h : Consistent compare w)
    (hcount : ∀ m, Counted (w.manager m)) (s : σ) (m m' : μ) :
    Counted ((removeFromQueue compare s m w).manager m') := by
  unfold removeFromQueue
  split
  · exact hcount m'
  · rename_i r hr
    split
    · exact hcount m'
    · rename_i q hq
      show Counted ((Function.update w.manager m _) m')
      by_cases hm : m' = m
      · subst hm
        rw [Function.update_self]
        exact (hcount m').remove (h.range s m' r q hr hq) (h.queues m' q)
          ((h.mem m' q r.time s).mpr ⟨r, hr, hq, rfl⟩)
      · rw [Function.update_of_ne hm]
        exact hcount m'

lemma counted_reschedule [Std.TransCmp compare] [Std.LawfulEqCmp compare]
    (h : Consistent compare w) (hcount : ∀ m, Counted (w.manager m)) (saved : Bool) (s : σ)
    (m m' : μ) : Counted ((rescheduleSourceForFile compare saved s m w).manager m') := by
  unfold rescheduleSourceForFile
  split
  · exact hcount m'
  · rename_i r hr
    split
    · rename_i hnone
      show Counted ((Function.update w.manager m _) m')
      by_cases hm : m' = m
      · subst hm
        rw [Function.update_self]
        refine (hcount m').put (chooseQueue_lt w saved _ r) (h.queues m' _) ?_
        rintro ⟨t, s'⟩ hin hs
        obtain rfl : s' = s := hs
        obtain ⟨r', hr', hq, -⟩ := (h.mem m' _ t s').mp hin
        obtain rfl := Option.some.inj (hr.symm.trans hr')
        rw [hnone] at hq
        cases hq
      · rw [Function.update_of_ne hm]
        exact hcount m'
    · exact hcount m'

def Emptied (w : World σ μ) (m : μ) : Prop :=
  ∀ q < nqueues, ((w.manager m).sources q).toList = []

omit [DecidableEq σ] [DecidableEq μ] in
lemma queuedElements_of_empty {x : Manager σ} (h : ∀ q < nqueues, (x.sources q).toList = [])
    (p : ℕ → Bool) : queuedElements x p = 0 := by
  refine Finset.sum_eq_zero fun q hq => ?_
  rw [h q (Finset.mem_range.mp (Finset.mem_filter.mp hq).1)]
  rfl

lemma manager_removed (m : μ) (w : World σ μ) :
    (removeFileSourcesManager m w).manager m
      = { w.manager m with sources := createQueues } := by
  show (Function.update (dropFiles m (allSources m w) w).manager m
    { (dropFiles m (allSources m w) w).manager m with sources := createQueues }) m = _
  rw [Function.update_self, manager_dropFiles]

lemma counted_drop (hcount : ∀ m, Counted (w.manager m)) (hempty : Emptied w m) (m' : μ) :
    Counted ((removeFileSourcesManager m w).manager m') := by
  by_cases hm : m' = m
  · subst hm
    have hall := (hcount m').all
    have hactive := (hcount m').active
    rw [queuedElements_of_empty hempty] at hall hactive
    rw [manager_removed]
    constructor
    · rw [queuedElements_of_empty fun q _ => toList_createQueues q]
      exact hall
    · rw [queuedElements_of_empty fun q _ => toList_createQueues q]
      exact hactive
  · have hsame : (removeFileSourcesManager m w).manager m' = w.manager m' := by
      show (Function.update (dropFiles m (allSources m w) w).manager m _) m' = _
      rw [Function.update_of_ne hm, manager_dropFiles]
    rw [hsame]
    exact hcount m'

-- Any scores, and only managers without queued sources removed.
def queueRules : Rules σ μ where
  score _ _ _ _ := True
  add _ _ _ := True
  drop := Emptied

lemma counted_move [Std.TransCmp compare] [Std.LawfulEqCmp compare] (h : Consistent compare w)
    (hcount : ∀ m, Counted (w.manager m)) (hmove : Move compare queueRules w w') (m' : μ) :
    Counted (w'.manager m') := by
  cases hmove with
  | remove s m => exact counted_remove h hcount s m m'
  | reschedule saved s m => exact counted_reschedule h hcount saved s m m'
  | time s m t _ => exact hcount m'
  | score s m x _ => exact hcount m'
  | add s m t x _ _ => exact hcount m'
  | ask s m r _ _ => exact hcount m'
  | other _ _ hmanager _ => rw [hmanager]; exact hcount m'
  | drop m hempty => exact counted_drop hcount hempty m'

end Moves

section Runs

open Runs

-- The states of the source manager, by operations that meet a condition.
def Reachable (compare : σ → σ → Ordering) (ok : World σ μ → Op σ μ → Prop) : World σ μ → Prop :=
  Reach (Op.next compare) (fun w => ∃ now delay, w = World.start now delay) ok

variable {ok : World σ μ → Op σ μ → Prop} {w : World σ μ}

omit [DecidableEq σ] in
lemma findRequest_start (now delay : Int) (s : σ) (m : μ) :
    (World.start now delay : World σ μ).findRequest s m = none := rfl

lemma consistent_start (now delay : Int) :
    Consistent compare (World.start now delay : World σ μ) where
  once _ := List.nodup_nil
  queues _ _ := Queue.create_inv _
  range s m r q hr := by cases hr
  mem m q t s := by
    rw [findRequest_start]
    simp [World.start, toList_createQueues]

theorem Consistent.moves [Std.TransCmp compare] [Std.LawfulEqCmp compare] {rules : Rules σ μ}
    {w' : World σ μ} (h : Consistent compare w) (hmoves : Moves compare rules w w') :
    Consistent compare w' := by
  induction hmoves with
  | refl => exact h
  | tail _ hmove ih => exact ih.move hmove

lemma counted_moves [Std.TransCmp compare] [Std.LawfulEqCmp compare] {w' : World σ μ}
    (h : Consistent compare w) (hcount : ∀ m, Counted (w.manager m))
    (hmoves : Moves compare queueRules w w') : ∀ m, Counted (w'.manager m) := by
  induction hmoves with
  | refl => exact hcount
  | tail hmoves hmove ih => exact counted_move (h.moves hmoves) ih hmove

-- No manager is removed while sources are queued for it.
def Op.DropsEmpty (w : World σ μ) : Op σ μ → Prop
  | .removeFileSourcesManager m => Emptied w m
  | _ => True

omit [DecidableEq σ] [DecidableEq μ] in
lemma queueRules_lawful : (queueRules : Rules σ μ).Lawful :=
  ⟨fun _ _ => trivial, fun _ _ _ _ _ => trivial, fun _ _ _ _ _ => trivial⟩

omit [DecidableEq σ] in
lemma allowed_of_dropsEmpty {op : Op σ μ} (h : op.DropsEmpty w) : op.Allowed queueRules w := by
  cases op with
  | removeFileSourcesManager m => exact h
  | addRequest s m time => exact fun _ _ => trivial
  | setRequestResult s m result => exact ⟨fun _ _ => trivial, fun _ => trivial⟩
  | addSavedSourceRequest s m score time => exact ⟨fun _ _ => trivial, fun _ => trivial⟩
  | _ => trivial

theorem Reachable.consistent [Std.TransCmp compare] [Std.LawfulEqCmp compare]
    (h : Reachable compare Op.DropsEmpty w) :
    Consistent compare w ∧ ∀ m, Counted (w.manager m) := by
  refine Reach.inv (I := fun w => Consistent compare w ∧ ∀ m, Counted (w.manager m)) ?_ ?_ h
  · rintro w ⟨now, delay, rfl⟩
    refine ⟨consistent_start now delay, fun m => ?_⟩
    constructor
    · exact (queuedElements_of_empty (fun q _ => toList_createQueues q) _).symm
    · exact (queuedElements_of_empty (fun q _ => toList_createQueues q) _).symm
  · rintro w op ⟨hcons, hcount⟩ hop
    have hmoves : Moves compare queueRules w (op.next compare w) :=
      next_moves queueRules_lawful (allowed_of_dropsEmpty hop)
    exact ⟨hcons.moves hmoves, counted_moves hcons hcount hmoves⟩

-- A request is queued where it says, and nowhere else; the counters of its manager
-- count the queued elements. They do so behind the removal of the manager exactly
-- when nothing was queued.
theorem sources_consistent [Std.TransCmp compare] [Std.LawfulEqCmp compare]
    (h : Reachable compare Op.DropsEmpty w) (m : μ) :
    (∀ s, ∀ r ∈ (w.source s).files, r.file = m → ∀ q,
      (r.queue = some q ↔ (r.time, s) ∈ ((w.manager m).sources q).toList) ∧
      ∀ t, (t, s) ∈ ((w.manager m).sources q).toList → r.queue = some q ∧ r.time = t) ∧
    (w.manager m).all = queuedElements (w.manager m) (fun _ => true) ∧
    (w.manager m).active = queuedElements (w.manager m) activeQueue ∧
    (((removeFileSourcesManager m w).manager m).all
        = queuedElements ((removeFileSourcesManager m w).manager m) (fun _ => true) ↔
      Emptied w m) := by
  obtain ⟨hcons, hcount⟩ := h.consistent
  refine ⟨fun s r hr hfile q => ?_, (hcount m).all, (hcount m).active, ?_⟩
  · have hfind := findRequest_of_mem (hcons.once s) hr
    rw [hfile] at hfind
    have hmem := hcons.mem m q
    constructor
    · rw [hmem, hfind]
      simp
    · intro t ht
      rw [hmem, hfind] at ht
      simpa using ht
  · have hnone : queuedElements ((removeFileSourcesManager m w).manager m) (fun _ => true) = 0 := by
      rw [manager_removed]
      exact queuedElements_of_empty (fun q _ => toList_createQueues q) _
    have hall : ((removeFileSourcesManager m w).manager m).all = (w.manager m).all := by
      rw [manager_removed]
    rw [hnone, hall, (hcount m).all]
    constructor
    · intro hsum q hq
      have hzero := (Finset.sum_eq_zero_iff_of_nonneg fun _ _ => Int.natCast_nonneg _).mp hsum q
        (by simp [hq])
      simpa using hzero
    · intro hempty
      exact queuedElements_of_empty hempty _

-- Two sources of a file, one of which connects.
def connectedSource : World ℕ ℕ :=
  [Op.addRequest 1 0 0, .addRequest 2 0 7, .socket 1 .connection, .reschedule false 1 0,
    .sourceDisconnected 2 ⟨fun _ => true, fun _ _ _ => true, fun _ _ => true, fun _ _ => true,
      fun _ => true, 5, fun _ => true, fun _ _ => false, fun _ _ _ _ => 0, 3, [], fun _ => none⟩].foldl
    (fun w op => op.next Ord.compare w) (.start 10000 600)

theorem sources_consistent_two :
    (connectedSource.manager 0).all = queuedElements (connectedSource.manager 0) (fun _ => true) ∧
      (connectedSource.manager 0).active
        = queuedElements (connectedSource.manager 0) activeQueue := by
  have h : Reachable Ord.compare Op.DropsEmpty connectedSource := by
    refine Reach.foldl (.start ⟨10000, 600, rfl⟩) _ fun w op hop => ?_
    fin_cases hop <;> exact trivial
  obtain ⟨-, hall, hactive, -⟩ := sources_consistent h 0
  exact ⟨hall, hactive⟩

-- A file is cancelled while it has a source.
theorem sources_consistent_false : ¬ ∀ w : World ℕ ℕ, Reachable Ord.compare (fun _ _ => True) w →
    ∀ m, (w.manager m).all = queuedElements (w.manager m) fun _ => true := by
  intro h
  have hreach : Reachable Ord.compare (fun _ _ => True)
      ([Op.addRequest 1 0 0, .removeFileSourcesManager 0].foldl
        (fun w op => op.next Ord.compare w) (World.start 10000 600 : World ℕ ℕ)) :=
    Reach.foldl (.start ⟨10000, 600, rfl⟩) _ fun _ _ _ => trivial
  exact absurd (h _ hreach 0) (by decide)

end Runs

end Mldonkey.Sources
