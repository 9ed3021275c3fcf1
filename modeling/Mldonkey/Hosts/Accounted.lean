import Mldonkey.Hosts.Hosts
import Mldonkey.Lib.Hashtbl
import Mldonkey.Lib.Runs

-- In every run the counters, the queues and the table of hosts agree.
namespace Mldonkey.CommonHosts

open Runs (Reach)

variable {κ ρ : Type} {s s' : State κ ρ} {q r : ℕ}
  {held : Option ℕ} {net : Network ρ} {l : Limits} {now time : ℤ} {k : HostKind}

section Queues

lemma put_refs (queue : Queue) (x : ℤ × ℕ) : (queue.put x).refs.Perm (x.2 :: queue.refs) := by
  have hback : ((queue.lifo ++ (queue.fifo ++ [x])).map Prod.snd).Perm (x.2 :: queue.refs) := by
    rw [← List.append_assoc, List.map_append]
    exact List.perm_append_singleton _ _
  rw [Queue.put]
  split
  · exact hback
  · exact .refl _
  · split
    · exact .refl _
    · exact hback

lemma take_refs {queue queue' : Queue} {x : ℤ × ℕ} (h : queue.take now = some (x, queue')) :
    queue.refs.Perm (x.2 :: queue'.refs) := by
  have hfifo (h : queue.takeFifo = some (x, queue')) : queue.refs.Perm (x.2 :: queue'.refs) := by
    rw [Queue.takeFifo] at h
    split at h
    · cases h
    · next y fifo hy =>
      cases h
      simp only [Queue.refs, hy, List.map_append, List.map_cons]
      exact List.perm_middle
  have hlifo (h : queue.takeLifo = some (x, queue')) : queue.refs.Perm (x.2 :: queue'.refs) := by
    rw [Queue.takeLifo] at h
    split at h
    · cases h
    · next y lifo hy =>
      cases h
      simp only [Queue.refs, hy, List.map_append, List.map_cons, List.cons_append]
      exact .refl _
  rw [Queue.take] at h
  split at h
  · exact hfifo h
  · exact hlifo h
  · split at h
    · next hl => exact hlifo (hl.trans h)
    · split at h
      · next hf =>
        split at h
        · cases h
        · exact hfifo (hf.trans h)
      · cases h

end Queues

-- The table of hosts and its counters
structure Table (s : State κ ρ) : Prop where
  keys : (s.hostsByKey.map Prod.fst).Nodup
  entries : ∀ b ∈ s.hostsByKey, b.2 < s.fresh ∧ (s.hosts b.2).hostAddr = b.1
  counter : ∀ k, s.counter k = s.hostsByKey.countP fun b => (s.hosts b.2).hostKind = k
  pressure : ∀ k, s.pressure k + s.removedBelow k =
    s.hostsByKey.countP fun b => (s.hosts b.2).hostKind = k && (s.hosts b.2).overLimit

-- The queues and the hosts in them. A host that manage_hosts holds is not in the workflow.
structure Queued (held : Option ℕ) (s : State κ ρ) : Prop where
  once : ∀ q, (s.queues q).refs.Nodup
  both : ∀ q r, r ∈ (s.queues q).refs ↔ q ∈ (s.hosts r).hostQueues
  old : ∀ q, ∀ r ∈ (s.queues q).refs, r < s.fresh
  inWorkflow : ∀ b ∈ s.hostsByKey, b.2 ∈ (s.queues 0).refs ∨ held = some b.2
  inTable : ∀ r ∈ (s.queues 0).refs, ∃ b ∈ s.hostsByKey, b.2 = r

-- What the operations on queues leave
structure SameTable (s s' : State κ ρ) : Prop where
  hostsByKey : s'.hostsByKey = s.hostsByKey
  fresh : s'.fresh = s.fresh
  counter : s'.counter = s.counter
  pressure : s'.pressure = s.pressure
  removedBelow : s'.removedBelow = s.removedBelow
  hostAddr : ∀ r, (s'.hosts r).hostAddr = (s.hosts r).hostAddr
  hostKind : ∀ r, (s'.hosts r).hostKind = (s.hosts r).hostKind
  overLimit : ∀ r, (s'.hosts r).overLimit = (s.hosts r).overLimit

section Same

lemma SameTable.refl (s : State κ ρ) : SameTable s s :=
  ⟨rfl, rfl, rfl, rfl, rfl, fun _ => rfl, fun _ => rfl, fun _ => rfl⟩

lemma SameTable.trans {s'' : State κ ρ} (h : SameTable s s') (h' : SameTable s' s'') :
    SameTable s s'' where
  hostsByKey := h'.hostsByKey.trans h.hostsByKey
  fresh := h'.fresh.trans h.fresh
  counter := h'.counter.trans h.counter
  pressure := h'.pressure.trans h.pressure
  removedBelow := h'.removedBelow.trans h.removedBelow
  hostAddr r := (h'.hostAddr r).trans (h.hostAddr r)
  hostKind r := (h'.hostKind r).trans (h.hostKind r)
  overLimit r := (h'.overLimit r).trans (h.overLimit r)

lemma Table.same (h : Table s) (hsame : SameTable s s') : Table s' where
  keys := by
    rw [hsame.hostsByKey]
    exact h.keys
  entries b hb := by
    rw [hsame.hostsByKey] at hb
    rw [hsame.fresh, hsame.hostAddr]
    exact h.entries b hb
  counter k := by
    simp only [hsame.hostsByKey, hsame.counter, hsame.hostKind]
    exact h.counter k
  pressure k := by
    simp only [hsame.hostsByKey, hsame.pressure, hsame.removedBelow, hsame.hostKind,
      hsame.overLimit]
    exact h.pressure k

lemma setHost_same {h : Host κ ρ} (haddr : h.hostAddr = (s.hosts r).hostAddr)
    (hkind : h.hostKind = (s.hosts r).hostKind) (hover : h.overLimit = (s.hosts r).overLimit) :
    SameTable s (s.setHost r h) := by
  have hhosts (i : ℕ) : ((s.setHost r h).hosts i).hostAddr = (s.hosts i).hostAddr ∧
      ((s.setHost r h).hosts i).hostKind = (s.hosts i).hostKind ∧
        ((s.setHost r h).hosts i).overLimit = (s.hosts i).overLimit := by
    by_cases hi : i = r
    · subst hi
      simp [State.setHost, haddr, hkind, hover]
    · simp [State.setHost, hi]
  exact ⟨rfl, rfl, rfl, rfl, rfl, fun i => (hhosts i).1, fun i => (hhosts i).2.1,
    fun i => (hhosts i).2.2⟩

lemma Queued.setHost (h : Queued held s) {host : Host κ ρ}
    (hqueues : host.hostQueues = (s.hosts r).hostQueues) : Queued held (s.setHost r host) := by
  refine ⟨h.once, fun q i => ?_, h.old, h.inWorkflow, h.inTable⟩
  refine (h.both q i).trans ?_
  by_cases hi : i = r
  · subst hi
    simp [State.setHost, hqueues]
  · simp [State.setHost, hi]

end Same

section Moves

lemma hostQueueAdd_same : SameTable s (s.hostQueueAdd q r time) := by
  rw [State.hostQueueAdd]
  dsimp only
  split
  · exact .refl s
  · have hset := @setHost_same κ ρ s r
      { s.hosts r with hostQueues := q :: (s.hosts r).hostQueues } rfl rfl rfl
    exact ⟨rfl, rfl, rfl, rfl, rfl, hset.hostAddr, hset.hostKind, hset.overLimit⟩

lemma hostQueueAdd_hostQueues (i j : ℕ) :
    j ∈ ((s.hostQueueAdd q r time).hosts i).hostQueues ↔
      (j = q ∧ i = r) ∨ j ∈ (s.hosts i).hostQueues := by
  rw [State.hostQueueAdd]
  dsimp only
  split
  · next hq =>
    refine ⟨.inr, ?_⟩
    rintro (⟨rfl, rfl⟩ | h)
    · exact hq
    · exact h
  · by_cases hi : i = r
    · subst hi
      simp [State.setHost]
    · simp [State.setHost, hi]

lemma hostQueueAdd_refs (h : q ∉ (s.hosts r).hostQueues) (j : ℕ) :
    ((s.hostQueueAdd q r time).queues j).refs.Perm
      (if j = q then r :: (s.queues q).refs else (s.queues j).refs) := by
  simp only [State.hostQueueAdd, if_neg h]
  by_cases hj : j = q
  · subst hj
    simpa using put_refs (s.queues j) (time, r)
  · simp [hj]

-- A host of the table, or one that goes into another queue
lemma Queued.hostQueueAdd (h : Queued held s) (hr : r < s.fresh)
    (hq : q = 0 → ∃ b ∈ s.hostsByKey, b.2 = r) : Queued held (s.hostQueueAdd q r time) := by
  by_cases hin : q ∈ (s.hosts r).hostQueues
  · rwa [State.hostQueueAdd, if_pos hin]
  have hsame := @hostQueueAdd_same κ ρ s q r time
  have hrefs := @hostQueueAdd_refs κ ρ s q r time hin
  have hmem (i j : ℕ) : i ∈ ((s.hostQueueAdd q r time).queues j).refs ↔
      (j = q ∧ i = r) ∨ i ∈ (s.queues j).refs := by
    rw [(hrefs j).mem_iff]
    split
    · next hj => simp [hj]
    · next hj => simp [hj]
  refine ⟨fun j => ?_, fun j i => ?_, fun j i hi => ?_, fun b hb => ?_, fun i hi => ?_⟩
  · rw [(hrefs j).nodup_iff]
    split
    · rw [List.nodup_cons, h.both]
      exact ⟨hin, h.once q⟩
    · exact h.once j
  · rw [hmem, hostQueueAdd_hostQueues, h.both]
  · rw [hsame.fresh]
    rcases (hmem i j).mp hi with ⟨-, rfl⟩ | hi
    · exact hr
    · exact h.old j i hi
  · rw [hsame.hostsByKey] at hb
    exact (h.inWorkflow b hb).imp_left fun hb => (hmem _ _).mpr (.inr hb)
  · rw [hsame.hostsByKey]
    rcases (hmem i 0).mp hi with ⟨hq0, rfl⟩ | hi
    · exact hq hq0.symm
    · exact h.inTable i hi

lemma hostQueueTake_spec (h : Queued held s) (htake : s.hostQueueTake now q = some (r, s')) :
    SameTable s s' ∧ r ∈ (s.queues q).refs ∧
      (∀ i j, j ∈ (s'.hosts i).hostQueues ↔ j ∈ (s.hosts i).hostQueues ∧ ¬(j = q ∧ i = r)) ∧
      ∀ j, (if j = q then r :: (s'.queues j).refs else (s'.queues j).refs).Perm
        (s.queues j).refs := by
  rw [State.hostQueueTake] at htake
  split at htake
  · cases htake
  · next t r' queue hqueue =>
    have hperm := take_refs hqueue
    have hr : r' ∈ (s.queues q).refs := hperm.mem_iff.mpr List.mem_cons_self
    have hin : q ∈ (s.hosts r').hostQueues := (h.both q r').mp hr
    dsimp only at htake
    rw [if_pos hin] at htake
    cases htake
    have hset := @setHost_same κ ρ s r
      { s.hosts r with hostQueues := (s.hosts r).hostQueues.filter (· ≠ q) } rfl rfl rfl
    refine ⟨⟨rfl, rfl, rfl, rfl, rfl, hset.hostAddr, hset.hostKind, hset.overLimit⟩, hr,
      fun i j => ?_, fun j => ?_⟩
    · by_cases hi : i = r
      · subst hi
        simp [State.setHost]
      · simp [State.setHost, hi]
    · by_cases hj : j = q
      · subst hj
        simpa [State.setHost] using hperm.symm
      · simp [State.setHost, hj]

lemma Queued.hostQueueTake (h : Queued none s) (htake : s.hostQueueTake now q = some (r, s')) :
    Queued (if q = 0 then some r else none) s' := by
  obtain ⟨hsame, hr, hhost, hrefs⟩ := hostQueueTake_spec h htake
  have hnodup (j : ℕ) := (hrefs j).nodup_iff.mpr (h.once j)
  have hmem (i j : ℕ) : i ∈ (s'.queues j).refs ↔ i ∈ (s.queues j).refs ∧ ¬(j = q ∧ i = r) := by
    rw [← (hrefs j).mem_iff]
    have hj := hnodup j
    split
    · next hjq =>
      rw [if_pos hjq, List.nodup_cons] at hj
      by_cases hi : i = r
      · subst hi
        simpa [hjq] using hj.1
      · simp [hi]
    · next hjq => simp [hjq]
  refine ⟨fun j => ?_, fun j i => ?_, fun j i hi => ?_, fun b hb => ?_, fun i hi => ?_⟩
  · have hj := hnodup j
    split at hj
    · exact (List.nodup_cons.mp hj).2
    · exact hj
  · rw [hmem, hhost, h.both]
  · rw [hsame.fresh]
    exact h.old j i ((hmem i j).mp hi).1
  · rw [hsame.hostsByKey] at hb
    have hb' := (h.inWorkflow b hb).resolve_right (by simp)
    by_cases hq : q = 0
    · rw [if_pos hq]
      by_cases hbr : b.2 = r
      · exact .inr (hbr ▸ rfl)
      · exact .inl ((hmem _ _).mpr ⟨hb', fun h => hbr h.2⟩)
    · exact .inl ((hmem _ _).mpr ⟨hb', fun h => hq h.1.symm⟩)
  · rw [hsame.hostsByKey]
    exact h.inTable i ((hmem i 0).mp hi).1

lemma Queued.release (h : Queued (some r) s) (hr : r ∈ (s.queues 0).refs) : Queued none s where
  once := h.once
  both := h.both
  old := h.old
  inWorkflow b hb := by
    rcases h.inWorkflow b hb with hb | hb
    · exact .inl hb
    · cases hb
      exact .inl hr
  inTable := h.inTable

end Moves

section Population

-- The state in which a new host is in the table and not yet in the workflow
def State.withHost (s : State κ ρ) (net : Network ρ) (l : Limits) (key : κ) (k : HostKind) :
    State κ ρ :=
  let full := decide (l.maxHosts k ≤ s.counter k)
  { s.setHost s.fresh ⟨key, 0, net.defaultRequests k, k, [], full⟩ with
    fresh := s.fresh + 1
    counter := Function.update s.counter k (s.counter k + 1)
    hostsByKey := (key, s.fresh) :: s.hostsByKey
    pressure := if full then Function.update s.pressure k (s.pressure k + 1) else s.pressure }

lemma Table.withHost (h : Table s) {key : κ} (hkey : key ∉ s.hostsByKey.map Prod.fst) :
    Table (s.withHost net l key k) := by
  have hold (b : κ × ℕ) (hb : b ∈ s.hostsByKey) :
      (s.withHost net l key k).hosts b.2 = s.hosts b.2 :=
    Function.update_of_ne (h.entries b hb).1.ne _ _
  have hnew : (s.withHost net l key k).hosts s.fresh =
      ⟨key, 0, net.defaultRequests k, k, [], decide (l.maxHosts k ≤ s.counter k)⟩ :=
    Function.update_self ..
  refine ⟨List.nodup_cons.mpr ⟨hkey, h.keys⟩, fun b hb => ?_, fun i => ?_, fun i => ?_⟩
  · rcases List.mem_cons.mp hb with rfl | hb
    · exact ⟨Nat.lt_succ_self _, by rw [hnew]⟩
    · rw [hold b hb]
      exact ⟨(h.entries b hb).1.trans (Nat.lt_succ_self _), (h.entries b hb).2⟩
  · have hrest : (s.hostsByKey.countP fun b =>
        decide (((s.withHost net l key k).hosts b.2).hostKind = i)) =
          s.hostsByKey.countP fun b => decide ((s.hosts b.2).hostKind = i) :=
      List.countP_congr fun b hb => by rw [hold b hb]
    show Function.update s.counter k (s.counter k + 1) i = _
    rw [show (s.withHost net l key k).hostsByKey = (key, s.fresh) :: s.hostsByKey from rfl,
      List.countP_cons, hrest, hnew]
    by_cases hi : i = k
    · subst hi
      simp [h.counter]
    · simp [hi, Ne.symm hi, h.counter]
  · have hrest : (s.hostsByKey.countP fun b =>
        decide (((s.withHost net l key k).hosts b.2).hostKind = i) &&
          ((s.withHost net l key k).hosts b.2).overLimit) =
          s.hostsByKey.countP fun b =>
            decide ((s.hosts b.2).hostKind = i) && (s.hosts b.2).overLimit :=
      List.countP_congr fun b hb => by rw [hold b hb]
    have hpressure := h.pressure i
    rw [show (s.withHost net l key k).hostsByKey = (key, s.fresh) :: s.hostsByKey from rfl,
      List.countP_cons, hrest, hnew]
    by_cases hfull : l.maxHosts k ≤ s.counter k
    · by_cases hi : i = k
      · subst hi
        simp only [State.withHost, State.setHost, hfull, decide_true, if_true,
          Function.update_self, Bool.and_true]
        push_cast
        linarith
      · simpa [State.withHost, State.setHost, hfull, hi, Ne.symm hi] using hpressure
    · simpa [State.withHost, State.setHost, hfull] using hpressure

lemma Queued.withHost (h : Queued none s) {key : κ} :
    Queued (some s.fresh) (s.withHost net l key k) := by
  refine ⟨h.once, fun q r => ?_, fun q r hr => (h.old q r hr).trans (Nat.lt_succ_self _),
    fun b hb => ?_, fun r hr => ?_⟩
  · refine Iff.trans (h.both q r) ?_
    by_cases hr : r = s.fresh
    · subst hr
      have hnone : q ∉ (s.hosts s.fresh).hostQueues := fun hq =>
        lt_irrefl _ (h.old q _ ((h.both q _).mpr hq))
      simp [State.withHost, State.setHost, hnone]
    · simp [State.withHost, State.setHost, hr]
  · rcases List.mem_cons.mp hb with rfl | hb
    · exact .inr rfl
    · exact .inl ((h.inWorkflow b hb).resolve_right (by simp))
  · obtain ⟨b, hb, hbr⟩ := h.inTable r hr
    exact ⟨b, List.mem_cons_of_mem _ hb, hbr⟩

-- The binding of a host of the table
lemma Table.binding (h : Table s) (hr : ∃ b ∈ s.hostsByKey, b.2 = r) :
    ((s.hosts r).hostAddr, r) ∈ s.hostsByKey := by
  obtain ⟨b, hb, rfl⟩ := hr
  rw [(h.entries b hb).2]
  exact hb

variable [DecidableEq κ]

lemma Table.newHost (h : Table s) (key : κ) : Table (s.newHost net l key k) := by
  rw [State.newHost]
  split
  · exact h.same (setHost_same rfl rfl rfl)
  · next hnone =>
    have hkey : key ∉ s.hostsByKey.map Prod.fst := by
      intro hmem
      obtain ⟨b, hb, rfl⟩ := List.mem_map.mp hmem
      simpa using List.lookup_eq_none_iff.mp hnone b hb
    have hwith : Table (s.withHost net l key k) := h.withHost hkey
    exact hwith.same hostQueueAdd_same

lemma Queued.newHost (h : Queued none s) (key : κ) : Queued none (s.newHost net l key k) := by
  rw [State.newHost]
  split
  · exact h.setHost rfl
  · have hadded : Queued (some s.fresh) ((s.withHost net l key k).hostQueueAdd 0 s.fresh 0) :=
      h.withHost.hostQueueAdd (Nat.lt_succ_self s.fresh) fun _ =>
        ⟨(key, s.fresh), List.mem_cons_self, rfl⟩
    exact hadded.release ((hadded.both _ _).mpr
      ((hostQueueAdd_hostQueues _ _).mpr (.inl ⟨rfl, rfl⟩)))

lemma countP_removeHost (h : Table s) (hr : ∃ b ∈ s.hostsByKey, b.2 = r)
    (f : Host κ ρ → Bool) : (s.hostsByKey.countP fun b => f (s.hosts b.2)) =
      ((s.removeHost r).hostsByKey.countP fun b => f ((s.removeHost r).hosts b.2)) +
        if f (s.hosts r) then 1 else 0 := by
  obtain ⟨hperm, -⟩ := Hashtbl.perm_eraseP h.keys (h.binding hr)
  rw [hperm.countP_eq, List.countP_cons]
  rfl

lemma Table.removeHost (h : Table s) (hr : ∃ b ∈ s.hostsByKey, b.2 = r) :
    Table (s.removeHost r) := by
  have hsub : (s.removeHost r).hostsByKey.Sublist s.hostsByKey := List.eraseP_sublist
  refine ⟨h.keys.sublist (hsub.map _), fun b hb => h.entries b (hsub.subset hb), fun i => ?_,
    fun i => ?_⟩
  · have hcount := h.counter i
    rw [countP_removeHost h hr fun host => decide (host.hostKind = i)] at hcount
    show Function.update s.counter (s.hosts r).hostKind _ i = _
    by_cases hi : i = (s.hosts r).hostKind
    · subst hi
      rw [Function.update_self, hcount]
      simp
    · rw [Function.update_of_ne hi, hcount]
      simp [Ne.symm hi]
  · have hcount := h.pressure i
    rw [countP_removeHost h hr fun host => decide (host.hostKind = i) && host.overLimit] at hcount
    show Function.update s.pressure (s.hosts r).hostKind _ i +
      ((s.removeHost r).removedBelow i : ℤ) = _
    by_cases hi : i = (s.hosts r).hostKind
    · subst hi
      cases hover : (s.hosts r).overLimit with
      | true =>
        simp only [hover, decide_true, Bool.and_true, if_true] at hcount
        simp only [Function.update_self, State.removeHost, hover, if_true] at hcount ⊢
        push_cast at hcount
        linarith
      | false =>
        simp only [hover, Bool.and_false, Bool.false_eq_true, if_false] at hcount
        simp only [Function.update_self, State.removeHost, hover, Bool.false_eq_true,
          if_false] at hcount ⊢
        push_cast at hcount ⊢
        linarith
    · rw [Function.update_of_ne hi]
      have hbelow : (s.removeHost r).removedBelow i = s.removedBelow i := by
        cases hover : (s.hosts r).overLimit <;> simp [State.removeHost, hover, hi]
      rw [hbelow, hcount]
      simp [Ne.symm hi]

-- Only a host that is held and in no queue is removed.
lemma Queued.removeHost (h : Queued (some r) s) (ht : Table s)
    (hr : ∃ b ∈ s.hostsByKey, b.2 = r) (hqueues : (s.hosts r).hostQueues = []) :
    Queued none (s.removeHost r) := by
  obtain ⟨hperm, hne⟩ := Hashtbl.perm_eraseP ht.keys (ht.binding hr)
  have hsub : (s.removeHost r).hostsByKey.Sublist s.hostsByKey := List.eraseP_sublist
  refine ⟨h.once, h.both, h.old, fun b hb => ?_, fun i hi => ?_⟩
  · have hb' : b ∈ s.hostsByKey := hsub.subset hb
    rcases h.inWorkflow b hb' with hin | hheld
    · exact .inl hin
    · cases hheld
      exact absurd (ht.entries b hb').2.symm (hne b hb)
  · obtain ⟨b, hb, rfl⟩ := h.inTable i hi
    rcases List.mem_cons.mp (hperm.mem_iff.mp hb) with hbr | hb
    · have hbr : b.2 = r := congrArg Prod.snd hbr
      rw [hbr] at hi
      have hin := (h.both 0 r).mp hi
      rw [hqueues] at hin
      cases hin
    · exact ⟨b, hb, rfl⟩

end Population

section Managing

variable [DecidableEq ρ]

-- What the adding to queues keeps is kept by the dispatch.
lemma dispatch_keeps {P : State κ ρ → Prop} (hP : ∀ s q, P s → P (s.hostQueueAdd q r now))
    (h : P s) : P (s.dispatch net now r) := by
  have hfold {α : Type} {f : State κ ρ → α → State κ ρ} (hf : ∀ s x, P s → P (f s x)) :
      ∀ (list : List α) (s : State κ ρ), P s → P (list.foldl f s) := by
    intro list
    induction list with
    | nil => exact fun _ h => h
    | cons x list ih => exact fun s h => ih _ (hf s x h)
  rw [State.dispatch]
  refine hfold (fun s x hs => ?_) _ _ h
  dsimp only
  split
  · exact hs
  · split
    · exact hfold (fun s q hs => hP s q hs) _ _ hs
    · exact hs

lemma dispatch_same (now : ℤ) (r : ℕ) : SameTable s (s.dispatch net now r) :=
  @dispatch_keeps κ ρ s r net now _ (fun s' => SameTable s s')
    (fun _ _ h => h.trans hostQueueAdd_same) (.refl s)

variable [DecidableEq κ]

lemma manageHost_spec (h : Queued (some r) s) (ht : Table s)
    (hr : ∃ b ∈ s.hostsByKey, b.2 = r) :
    Queued none (s.manageHost net l now r) ∧ Table (s.manageHost net l now r) := by
  have hlt : r < s.fresh := by
    obtain ⟨b, hb, rfl⟩ := hr
    exact (ht.entries b hb).1
  have hadded : Queued none (s.hostQueueAdd 0 r now) := by
    have hheld : Queued (some r) (s.hostQueueAdd 0 r now) := h.hostQueueAdd hlt fun _ => hr
    exact hheld.release ((hheld.both _ _).mpr
      ((hostQueueAdd_hostQueues _ _).mpr (.inl ⟨rfl, rfl⟩)))
  rw [State.manageHost]
  split
  · have hkeeps := @dispatch_keeps κ ρ (s.hostQueueAdd 0 r now) r net now _
      (fun s' => Queued none s' ∧ SameTable s s') (fun s' q hs' => ?_) ⟨hadded, hostQueueAdd_same⟩
    · exact ⟨hkeeps.1, ht.same hkeeps.2⟩
    · refine ⟨hs'.1.hostQueueAdd ?_ fun _ => ?_, hs'.2.trans hostQueueAdd_same⟩
      · rw [hs'.2.fresh]
        exact hlt
      · rw [hs'.2.hostsByKey]
        exact hr
  · split
    · exact ⟨hadded, ht.same hostQueueAdd_same⟩
    · next hqueues =>
      exact ⟨h.removeHost ht hr (not_not.mp hqueues), ht.removeHost hr⟩

lemma manageTurn_spec (h : Queued none s) (ht : Table s)
    (hturn : s.manageTurn net l now = some s') : Queued none s' ∧ Table s' := by
  rw [State.manageTurn] at hturn
  split at hturn
  · cases hturn
  · next r s₁ htake =>
    cases hturn
    have hqueued := h.hostQueueTake htake
    obtain ⟨hsame, hr, -, -⟩ := hostQueueTake_spec h htake
    rw [if_pos rfl] at hqueued
    refine manageHost_spec hqueued (ht.same hsame) ?_
    rw [hsame.hostsByKey]
    exact h.inTable r hr

end Managing

section Termination

-- The hosts that the workflow gives out at a time
def State.ready (s : State κ ρ) (now : ℤ) : ℕ :=
  (s.queues 0).lifo.length + (s.queues 0).fifo.countP fun x => !twoMinutes now x.1

def State.Workflow (s : State κ ρ) : Prop := (s.queues 0).kind = .workflow twoMinutes

lemma twoMinutes_self (now : ℤ) : twoMinutes now now = true := by
  simp [twoMinutes]

-- The workflow after a host went into a queue
lemma hostQueueAdd_zero : (s.hostQueueAdd q r time).queues 0 = s.queues 0 ∨
    (s.hostQueueAdd q r time).queues 0 = (s.queues 0).put (time, r) := by
  rw [State.hostQueueAdd]
  dsimp only
  split
  · exact .inl rfl
  · by_cases hq : q = 0
    · subst hq
      exact .inr (by simp)
    · exact .inl (by simp [Ne.symm hq])

lemma hostQueueTake_queue (htake : s.hostQueueTake now q = some (r, s')) :
    ∃ x queue, (s.queues q).take now = some (x, queue) ∧
      s'.queues = Function.update s.queues q queue := by
  rw [State.hostQueueTake] at htake
  split at htake
  · cases htake
  · next t r' queue hqueue =>
    refine ⟨_, queue, hqueue, ?_⟩
    dsimp only at htake
    split at htake
    · cases htake
      rfl
    · cases htake
      rfl

lemma put_kind (queue : Queue) (x : ℤ × ℕ) : (queue.put x).kind = queue.kind := by
  rw [Queue.put]
  split
  · rfl
  · rfl
  · split <;> rfl

lemma hostQueueAdd_workflow (hw : s.Workflow) : (s.hostQueueAdd q r time).Workflow := by
  rcases @hostQueueAdd_zero κ ρ s q r time with h | h
  · rw [State.Workflow, h]
    exact hw
  · rw [State.Workflow, h, put_kind]
    exact hw

-- What is put back at the time of the turn is delayed.
lemma ready_hostQueueAdd (hw : s.Workflow) (hnow : now ≠ 0) :
    (s.hostQueueAdd q r now).ready now = s.ready now := by
  rcases @hostQueueAdd_zero κ ρ s q r now with h | h
  · rw [State.ready, h]
    rfl
  · have hput : (s.queues 0).put (now, r) =
        { s.queues 0 with fifo := (s.queues 0).fifo ++ [(now, r)] } := by
      rw [Queue.put]
      split
      · rfl
      · next hkind => exact absurd (hkind.symm.trans hw) (by simp)
      · exact if_neg hnow
    rw [State.ready, State.ready, h, hput]
    simp [List.countP_append, twoMinutes_self]

lemma take_ready {queue queue' : Queue} {x : ℤ × ℕ} (hw : queue.kind = .workflow twoMinutes)
    (htake : queue.take now = some (x, queue')) : queue'.kind = .workflow twoMinutes ∧
      (queue'.lifo.length + queue'.fifo.countP fun x => !twoMinutes now x.1) + 1 =
        queue.lifo.length + queue.fifo.countP fun x => !twoMinutes now x.1 := by
  obtain ⟨kind, fifo, lifo⟩ := queue
  cases hw
  cases lifo with
  | cons y lifo =>
    cases htake
    exact ⟨rfl, by simp only [List.length_cons]; omega⟩
  | nil =>
    cases fifo with
    | nil => cases htake
    | cons y fifo =>
      by_cases hready : twoMinutes now y.1 = true
      · simp [Queue.take, Queue.takeLifo, Queue.takeFifo, hready] at htake
      · simp only [Queue.take, Queue.takeLifo, Queue.takeFifo, hready, Bool.false_eq_true,
          if_false, Option.some.injEq, Prod.mk.injEq] at htake
        obtain ⟨-, rfl⟩ := htake
        refine ⟨rfl, ?_⟩
        rw [List.countP_cons_of_pos (by simpa using hready)]
        simp

lemma hostQueueTake_workflow (hw : s.Workflow) (hq : q ≠ 0)
    (htake : s.hostQueueTake now q = some (r, s')) : s'.Workflow := by
  obtain ⟨x, queue, -, hqueues⟩ := hostQueueTake_queue htake
  rw [State.Workflow, hqueues, Function.update_of_ne (Ne.symm hq)]
  exact hw

lemma hostQueueTake_ready (hw : s.Workflow) (htake : s.hostQueueTake now 0 = some (r, s')) :
    s'.Workflow ∧ s'.ready now + 1 = s.ready now := by
  obtain ⟨x, queue, htaken, hqueues⟩ := hostQueueTake_queue htake
  rw [State.Workflow, State.ready, hqueues, Function.update_self]
  exact take_ready hw htaken

variable [DecidableEq κ] [DecidableEq ρ]

lemma manageTurn_ready (hw : s.Workflow) (hturn : s.manageTurn net l now = some s') :
    s'.Workflow ∧ (now ≠ 0 → s'.ready now + 1 = s.ready now) := by
  rw [State.manageTurn] at hturn
  split at hturn
  · cases hturn
  · next r s₁ htake =>
    cases hturn
    obtain ⟨hw₁, hready⟩ := hostQueueTake_ready hw htake
    have hadd (s' : State κ ρ) (q : ℕ)
        (hs' : s'.Workflow ∧ (now ≠ 0 → s'.ready now = s₁.ready now)) :
        (s'.hostQueueAdd q r now).Workflow ∧
          (now ≠ 0 → (s'.hostQueueAdd q r now).ready now = s₁.ready now) :=
      ⟨hostQueueAdd_workflow hs'.1,
        fun hnow => (ready_hostQueueAdd hs'.1 hnow).trans (hs'.2 hnow)⟩
    have hkept : (s₁.manageHost net l now r).Workflow ∧
        (now ≠ 0 → (s₁.manageHost net l now r).ready now = s₁.ready now) := by
      have hadded := hadd s₁ 0 ⟨hw₁, fun _ => rfl⟩
      rw [State.manageHost]
      split
      · exact @dispatch_keeps κ ρ _ r net now _
          (fun s' => s'.Workflow ∧ (now ≠ 0 → s'.ready now = s₁.ready now)) hadd hadded
      · split
        · exact hadded
        · exact ⟨hw₁, fun _ => rfl⟩
    exact ⟨hkept.1, fun hnow => by rw [hkept.2 hnow, hready]⟩

lemma manageHosts_isSome (hw : s.Workflow) (hnow : now ≠ 0) {fuel : ℕ}
    (hfuel : s.ready now < fuel) : ∃ s', s.manageHosts net l now fuel = some s' := by
  induction fuel generalizing s with
  | zero => exact absurd hfuel (Nat.not_lt_zero _)
  | succ fuel ih =>
    rw [State.manageHosts]
    split
    · exact ⟨s, rfl⟩
    · next s₁ hturn =>
      obtain ⟨hw₁, hready⟩ := manageTurn_ready hw hturn
      have hless := hready hnow
      exact ih hw₁ (by omega)

end Termination

section Runs

structure Inv (s : State κ ρ) : Prop where
  table : Table s
  queued : Queued none s
  workflow : s.Workflow

-- What holds in every state of a run
structure Accounted (s : State κ ρ) : Prop where
  keys : (s.hostsByKey.map Prod.fst).Nodup
  counter : ∀ k, s.counter k = s.hostsByKey.countP fun b => (s.hosts b.2).hostKind = k
  once : ∀ q, (s.queues q).refs.Nodup
  both : ∀ q r, r ∈ (s.queues q).refs ↔ q ∈ (s.hosts r).hostQueues
  inWorkflow : ∀ b ∈ s.hostsByKey, b.2 ∈ (s.queues 0).refs

-- The pressures are not negative, and zero without hosts of the kind.
def Balanced (s : State κ ρ) : Prop :=
  ∀ k, 0 ≤ s.pressure k ∧ ((∀ b ∈ s.hostsByKey, (s.hosts b.2).hostKind ≠ k) → s.pressure k = 0)

lemma Table.balanced (h : Table s) (hbelow : ∀ k, s.removedBelow k = 0) : Balanced s := by
  intro k
  have hpressure := h.pressure k
  rw [hbelow, Nat.cast_zero, add_zero] at hpressure
  rw [hpressure]
  refine ⟨Int.natCast_nonneg _, fun hnone => ?_⟩
  rw [List.countP_eq_zero.mpr fun b hb => by simp [hnone b hb], Nat.cast_zero]

lemma Table.pressure_eq_zero_iff (h : Table s)
    (hnone : ∀ b ∈ s.hostsByKey, (s.hosts b.2).hostKind ≠ k) :
    s.pressure k = 0 ↔ s.removedBelow k = 0 := by
  have hpressure := h.pressure k
  rw [List.countP_eq_zero.mpr fun b hb => by simp [hnone b hb]] at hpressure
  omega

variable {magic : ℕ → Host κ ρ} {kinds : ℕ → QueueKind}

lemma inv_initial : Inv (State.initial magic kinds) where
  table := ⟨.nil, fun _ h => absurd h List.not_mem_nil, fun _ => rfl, fun _ => rfl⟩
  queued := by
    refine ⟨fun q => ?_, fun q r => ?_, fun q r h => ?_, fun _ h => absurd h List.not_mem_nil,
      fun r h => ?_⟩
    · exact .nil
    · simp [State.initial, Queue.refs]
    · simp [State.initial, Queue.refs] at h
    · simp [State.initial, Queue.refs] at h
  workflow := rfl

variable [DecidableEq κ] [DecidableEq ρ]

-- The runs of a network, with a condition on their steps
abbrev Runs (net : Network ρ) (magic : ℕ → Host κ ρ) (kinds : ℕ → QueueKind)
    (ok : State κ ρ → Op κ ρ → Prop) : State κ ρ → Prop :=
  Reach (step net) (fun s => s = State.initial magic kinds) ok

lemma Inv.step (h : Inv s) (op : Op κ ρ) (hop : Known s op) : Inv (step net op s) := by
  cases op with
  | newHost l key k =>
    refine ⟨h.table.newHost key, h.queued.newHost key, ?_⟩
    show (s.newHost net l key k).Workflow
    rw [State.newHost]
    split
    · exact h.workflow
    · exact hostQueueAdd_workflow h.workflow
  | hostQueueAdd q r time =>
    exact ⟨h.table.same hostQueueAdd_same, h.queued.hostQueueAdd hop.1 hop.2,
      hostQueueAdd_workflow h.workflow⟩
  | hostQueueTake now q =>
    have hq : q ≠ 0 := hop
    rw [CommonHosts.step]
    cases htake : s.hostQueueTake now q with
    | none => exact h
    | some taken =>
      have hqueued := h.queued.hostQueueTake htake
      rw [if_neg hq] at hqueued
      exact ⟨h.table.same (hostQueueTake_spec h.queued htake).1, hqueued,
        hostQueueTake_workflow h.workflow hq htake⟩
  | tryConnect now r =>
    rw [CommonHosts.step, State.tryConnect]
    split
    · exact ⟨h.table.same (setHost_same rfl rfl rfl), h.queued.setHost rfl, h.workflow⟩
    · exact h
  | connected r =>
    exact ⟨h.table.same (setHost_same rfl rfl rfl), h.queued.setHost rfl, h.workflow⟩
  | setRequest now r request =>
    exact ⟨h.table.same (setHost_same rfl rfl rfl), h.queued.setHost rfl, h.workflow⟩
  | manageTurn l now =>
    rw [CommonHosts.step]
    cases hturn : s.manageTurn net l now with
    | none => exact h
    | some s' =>
      obtain ⟨hqueued, htable⟩ := manageTurn_spec h.queued h.table hturn
      exact ⟨htable, hqueued, (manageTurn_ready h.workflow hturn).1⟩

-- A turn of manage_hosts removes no host that was added below the limit of its kind.
def Spares (s : State κ ρ) : Op κ ρ → Prop
  | .manageTurn l now => ∀ r s', s.hostQueueTake now 0 = some (r, s') → s'.kept l r = false →
      (s'.hosts r).hostQueues = [] → (s.hosts r).overLimit = true
  | _ => True

lemma manageTurn_removedBelow (h : Queued none s) (hturn : s.manageTurn net l now = some s')
    (hspares : Spares s (.manageTurn l now)) : s'.removedBelow = s.removedBelow := by
  rw [State.manageTurn] at hturn
  split at hturn
  · cases hturn
  · next r s₁ htake =>
    cases hturn
    obtain ⟨hsame, -, -, -⟩ := hostQueueTake_spec h htake
    rw [State.manageHost]
    split
    · exact (dispatch_same now r).removedBelow.trans
        (hostQueueAdd_same.removedBelow.trans hsame.removedBelow)
    · next hkept =>
      split
      · exact hostQueueAdd_same.removedBelow.trans hsame.removedBelow
      · next hqueues =>
        have hover := hspares r s₁ htake (Bool.eq_false_iff.mpr hkept) (not_not.mp hqueues)
        rw [← hsame.overLimit] at hover
        rw [State.removeHost, hover]
        exact hsame.removedBelow

lemma step_removedBelow (h : Queued none s) (op : Op κ ρ) (hspares : Spares s op) :
    (step net op s).removedBelow = s.removedBelow := by
  cases op with
  | newHost l key k =>
    show (s.newHost net l key k).removedBelow = _
    rw [State.newHost]
    split
    · rfl
    · exact hostQueueAdd_same.removedBelow
  | hostQueueAdd q r time => exact hostQueueAdd_same.removedBelow
  | hostQueueTake now q =>
    rw [step]
    cases htake : s.hostQueueTake now q with
    | none => rfl
    | some taken => exact (hostQueueTake_spec h htake).1.removedBelow
  | tryConnect now r =>
    rw [step, State.tryConnect]
    split <;> rfl
  | connected r => rfl
  | setRequest now r request => rfl
  | manageTurn l now =>
    rw [step]
    cases hturn : s.manageTurn net l now with
    | none => rfl
    | some s' => exact manageTurn_removedBelow h hturn hspares

lemma manageHosts_runs {ok : State κ ρ → Op κ ρ → Prop} (hok : ∀ s, ok s (.manageTurn l now))
    {fuel : ℕ} (h : Runs net magic kinds ok s) (hs' : s.manageHosts net l now fuel = some s') :
    Runs net magic kinds ok s' := by
  induction fuel generalizing s with
  | zero => cases hs'
  | succ fuel ih =>
    rw [State.manageHosts] at hs'
    split at hs'
    · cases hs'
      exact h
    · next s₁ hturn =>
      have hstep : step net (.manageTurn l now) s = s₁ := by
        rw [step, hturn, Option.getD_some]
      exact ih (hstep ▸ Reach.step h (hok s)) hs'

lemma Runs.inv {ok : State κ ρ → Op κ ρ → Prop} (hok : ∀ s op, ok s op → Known s op)
    (h : Runs net magic kinds ok s) : Inv s := by
  refine Reach.inv ?_ (fun s op hs hop => hs.step op (hok s op hop)) h
  rintro s rfl
  exact inv_initial

-- Every part in every run, but for the pressures: these in the runs in which no host is removed
-- that was added below the limit. Without hosts of a kind its pressure is zero in no other run.
theorem hosts_accounted (net : Network ρ) (magic : ℕ → Host κ ρ) (kinds : ℕ → QueueKind) :
    (∀ s, Runs net magic kinds Known s → Accounted s ∧ ∀ l now, now ≠ 0 →
      ∃ fuel s', s.manageHosts net l now fuel = some s' ∧ Runs net magic kinds Known s') ∧
    (∀ s, Runs net magic kinds (fun s op => Known s op ∧ Spares s op) s → Balanced s) ∧
    ∀ s, Runs net magic kinds Known s → ∀ k,
      (∀ b ∈ s.hostsByKey, (s.hosts b.2).hostKind ≠ k) →
        (s.pressure k = 0 ↔ s.removedBelow k = 0) := by
  refine ⟨fun s hs => ?_, fun s hs => ?_, fun s hs k hnone => ?_⟩
  · have hinv := hs.inv fun _ _ h => h
    refine ⟨⟨hinv.table.keys, hinv.table.counter, hinv.queued.once, hinv.queued.both,
      fun b hb => (hinv.queued.inWorkflow b hb).resolve_right (by simp)⟩, fun l now hnow => ?_⟩
    obtain ⟨s', hs'⟩ := @manageHosts_isSome κ ρ s net l now _ _ hinv.workflow hnow _
      (Nat.lt_succ_self _)
    exact ⟨_, s', hs', manageHosts_runs (fun _ => trivial) hs hs'⟩
  · have hbelow : ∀ k, s.removedBelow k = 0 := by
      refine Reach.inv_of (I := fun s => ∀ k, s.removedBelow k = 0)
        (fun s hs => Runs.inv (fun _ _ h => h.1) hs) ?_ ?_ hs
      · rintro s rfl k
        rfl
      · intro s op hinv hs hop k
        rw [step_removedBelow hinv.queued op hop.2]
        exact hs k
    exact (hs.inv fun _ _ h => h.1).table.balanced hbelow
  · exact (hs.inv fun _ _ h => h).table.pressure_eq_zero_iff hnone

end Runs

-- A network without requests
def quiet : Network Unit := ⟨[], fun _ => []⟩

def noHosts : State ℕ Unit := .initial (fun _ => ⟨0, 0, [], .peer, [], false⟩) fun _ => .fifo

-- Peers below a limit of ten
def crowd : ℕ → State ℕ Unit
  | 0 => noHosts
  | n + 1 => step quiet (.newHost ⟨0, 10⟩ n .peer) (crowd n)

lemma crowd_runs (n : ℕ) : Runs quiet (fun _ => ⟨0, 0, [], .peer, [], false⟩) (fun _ => .fifo)
    Known (crowd n) := by
  induction n with
  | zero => exact .start rfl
  | succ n ih => exact .step ih trivial

-- A peer that was added over a limit of zero and is removed
def passing : State ℕ Unit :=
  step quiet (.manageTurn ⟨0, 0⟩ 100)
    (step quiet (.tryConnect 100 0) (step quiet (.newHost ⟨0, 0⟩ 7 .peer) noHosts))

theorem hosts_accounted_passing : Balanced passing := by
  refine (hosts_accounted quiet _ _).2.1 passing
    (.step (.step (.step (.start rfl) ⟨trivial, trivial⟩) ⟨?_, trivial⟩) ⟨trivial, ?_⟩)
  · show 0 < 1
    decide
  · rintro r s' htake - -
    cases htake
    rfl

-- Ten peers below the limit, of which one does not answer: it is removed, and the pressure is -1.
theorem pressure_negative :
    ¬ ∀ s : State ℕ Unit, Runs quiet (fun _ => ⟨0, 0, [], .peer, [], false⟩) (fun _ => .fifo)
      Known s → Balanced s := by
  intro h
  have hbalanced := h (step quiet (.manageTurn ⟨0, 10⟩ 100) (step quiet (.tryConnect 100 9)
    (crowd 10))) (.step (.step (crowd_runs 10) (show 9 < 10 by decide)) trivial) .peer
  exact absurd hbalanced.1 (by decide)

end Mldonkey.CommonHosts
