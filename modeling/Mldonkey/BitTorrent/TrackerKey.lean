import Mldonkey.BitTorrent.Tracker

-- What the key of a peer protects from announces that come from elsewhere.
namespace Mldonkey.BitTorrent.BTTracker

open Bencode (Bytes ofString)
open Donkey (Ip)
open Runs (Reach)

variable {o : Options} {t t' : Tracker} {a : Announce} {lastTime now : ℤ} {r : ℕ}

-- In every run the bindings and the queue refer to peers that have been made, each under its id.
structure Named (t : Tracker) : Prop where
  table : ∀ b ∈ t.trackerTable, b.2 < t.fresh ∧ (t.heap b.2).peerId = b.1
  queue : ∀ q ∈ t.trackerPeers, q < t.fresh

-- What is at the address of an ip or a key of the announce has its value.
def Consistent (t : Tracker) (a : Announce) : Prop :=
  ∀ b ∈ t.trackerTable,
    ((t.heap b.2).peerIp.address = a.peerIp.address →
      (t.heap b.2).peerIp.value = a.peerIp.value) ∧
    ((t.heap b.2).peerKey.address = a.peerKey.address →
      (t.heap b.2).peerKey.value = a.peerKey.value)

-- The peer that is made for an announce
def Announce.peer (a : Announce) (lastTime : ℤ) : TrackerPeer :=
  ⟨a.peerId, a.peerIp, a.peerPort, lastTime, a.peerKey⟩

section Invariant

-- The tracker with one more peer
def Tracker.withPeer (t : Tracker) (a : Announce) (lastTime : ℤ) : Tracker :=
  { t with
    trackerTable := (a.peerId, t.fresh) :: t.trackerTable
    trackerPeers := t.trackerPeers ++ [t.fresh]
    trackerComplete := t.trackerComplete + if 0 < a.peerLeft then 0 else 1
    trackerIncomplete := t.trackerIncomplete + if 0 < a.peerLeft then 1 else 0
    heap := Function.update t.heap t.fresh (a.peer lastTime)
    fresh := t.fresh + 1 }

lemma addPeer_eq : addPeer t a lastTime = (t.withPeer a lastTime, t.fresh) := by
  by_cases hl : 0 < a.peerLeft <;> simp [addPeer, Tracker.withPeer, Announce.peer, hl]

lemma Named.withPeer (h : Named t) : Named (t.withPeer a lastTime) := by
  have hrest : ∀ q < t.fresh, Function.update t.heap t.fresh (a.peer lastTime) q = t.heap q :=
    fun q hq => Function.update_of_ne hq.ne _ _
  refine ⟨fun b hb => ?_, fun q hq => ?_⟩
  · rcases List.mem_cons.mp hb with rfl | hb
    · exact ⟨Nat.lt_succ_self _, by simp [Tracker.withPeer, Announce.peer]⟩
    · obtain ⟨hlt, hid⟩ := h.table b hb
      refine ⟨hlt.trans (Nat.lt_succ_self _), ?_⟩
      dsimp only [Tracker.withPeer]
      rw [hrest _ hlt, hid]
  · rcases List.mem_append.mp hq with hq | hq
    · exact (h.queue q hq).trans (Nat.lt_succ_self _)
    · rw [List.mem_singleton.mp hq]
      exact Nat.lt_succ_self _

lemma Named.touch (h : Named t) {peer : TrackerPeer} (hpeer : peer.peerId = (t.heap r).peerId) :
    Named { t with heap := Function.update t.heap r peer } := by
  refine ⟨fun b hb => ⟨(h.table b hb).1, ?_⟩, h.queue⟩
  by_cases hr : b.2 = r
  · simp only [hr, Function.update_self, hpeer]
    exact hr ▸ (h.table b hb).2
  · simp only [Function.update_of_ne hr]
    exact (h.table b hb).2

lemma findPeer_unknown (lastTime : ℤ) (hr : t.trackerTable.lookup a.peerId = none) :
    findPeer o t a lastTime = (t.withPeer a lastTime, t.fresh) := by
  rw [findPeer, hr, ← addPeer_eq]

lemma findPeer_refused (lastTime : ℤ) (hr : t.trackerTable.lookup a.peerId = some r)
    (hkey : ¬ Passes o (t.heap r) a) :
    findPeer o t a lastTime = (t.withPeer a lastTime, t.fresh) := by
  simp only [Passes, not_forall, not_or] at hkey
  obtain ⟨huse, hip, hk⟩ := hkey
  rw [findPeer, hr, ← addPeer_eq]
  exact if_pos ⟨huse, hip, hk⟩

lemma Named.findPeer (h : Named t) : Named (findPeer o t a lastTime).1 := by
  cases hr : t.trackerTable.lookup a.peerId with
  | none =>
    rw [findPeer_unknown lastTime hr]
    exact h.withPeer
  | some r =>
    by_cases hkey : Passes o (t.heap r) a
    · obtain ⟨peer, hpeer, hfind⟩ := findPeer_known lastTime hr hkey
      rw [hfind]
      exact h.touch hpeer
    · rw [findPeer_refused lastTime hr hkey]
      exact h.withPeer

-- The rest of an announce and the timer only take bindings away, and give the queue no other peers
lemma Named.less (h : Named t) (hheap : t'.heap = t.heap) (hfresh : t'.fresh = t.fresh)
    (htable : ∀ b ∈ t'.trackerTable, b ∈ t.trackerTable)
    (hqueue : ∀ q ∈ t'.trackerPeers, q ∈ t.trackerPeers ∨ ∃ b ∈ t.trackerTable, b.2 = q) :
    Named t' := by
  refine ⟨fun b hb => ?_, fun q hq => ?_⟩
  · rw [hheap, hfresh]
    exact h.table b (htable b hb)
  · rw [hfresh]
    rcases hqueue q hq with hq | ⟨b, hb, rfl⟩
    · exact h.queue q hq
    · exact (h.table b hb).1

lemma mem_of_mem_hashtblRemove {table : List (Bytes × ℕ)} {k : Bytes} {b : Bytes × ℕ}
    (h : b ∈ hashtblRemove table k) : b ∈ table :=
  List.mem_of_mem_eraseP h

lemma mem_replyPeers {q : ℕ} :
    q ∈ (replyPeers o t a lastTime now).1.trackerPeers ↔ q ∈ t.trackerPeers := by
  rw [replyPeers]
  split
  · rfl
  · dsimp only
    have hmem (n : ℕ) : q ∈ t.trackerPeers.drop n ++ (t.trackerPeers.take n).reverse ↔
        q ∈ t.trackerPeers := by
      rw [List.mem_append, List.mem_reverse, or_comm, ← List.mem_append, List.take_append_drop]
    generalize (if 0 < a.numwant then min a.numwant.toNat o.maxTrackerReply
      else o.maxTrackerReply) = n
    split <;> exact hmem n

lemma replyPeers_same : (replyPeers o t a lastTime now).1.trackerTable = t.trackerTable ∧
    (replyPeers o t a lastTime now).1.heap = t.heap ∧
      (replyPeers o t a lastTime now).1.fresh = t.fresh := by
  rw [replyPeers]
  split
  · exact ⟨rfl, rfl, rfl⟩
  · dsimp only
    generalize (if 0 < a.numwant then min a.numwant.toNat o.maxTrackerReply
      else o.maxTrackerReply) = n
    split <;> exact ⟨rfl, rfl, rfl⟩

lemma Named.announce (h : Named t) : Named (replyHasTracker o t a lastTime now).1 := by
  have hfound : Named (BTTracker.findPeer o t a lastTime).1 := h.findPeer
  rw [replyHasTracker]
  generalize BTTracker.findPeer o t a lastTime = found at hfound
  obtain ⟨t₁, peer⟩ := found
  dsimp only
  split
  · exact ⟨hfound.table, hfound.queue⟩
  · split
    · split
      all_goals
        refine hfound.less rfl rfl (fun b hb => mem_of_mem_hashtblRemove hb) fun q hq => ?_
        exact .inl (List.mem_of_mem_filter hq)
    · obtain ⟨htable, hheap, hfresh⟩ :=
        @replyPeers_same o t₁ a lastTime now
      refine hfound.less hheap hfresh (fun b hb => htable ▸ hb) fun q hq => ?_
      exact .inl (mem_replyPeers.mp hq)

lemma Named.step (h : Named t) (e : Event) : Named (step o t e) := by
  cases e with
  | announce a lastTime now => exact h.announce
  | clean lastTime =>
    have hmem : ∀ (old : List (Bytes × ℕ)) (table : List (Bytes × ℕ)),
        ∀ b ∈ old.foldl (fun table b => hashtblRemove table (t.heap b.2).peerId) table,
          b ∈ table := by
      intro old
      induction old with
      | nil => exact fun _ _ hb => hb
      | cons c old ih => exact fun table b hb => mem_of_mem_hashtblRemove (ih _ b hb)
    refine h.less rfl rfl (hmem _ _) fun q hq => ?_
    obtain ⟨b, hb, rfl⟩ := List.mem_map.mp hq
    exact .inr ⟨b, hmem _ _ b hb, rfl⟩

end Invariant

-- The tables, the queue and the counters, and the peers in them
structure Unchanged (t t' : Tracker) : Prop where
  table : t'.trackerTable = t.trackerTable
  queue : t'.trackerPeers = t.trackerPeers
  complete : t'.trackerComplete = t.trackerComplete
  incomplete : t'.trackerIncomplete = t.trackerIncomplete
  peers : ∀ q, q ∈ t.trackerPeers ∨ (∃ b ∈ t.trackerTable, b.2 = q) → t'.heap q = t.heap q

section Refused

lemma completed_ne_stopped : completed ≠ stopped := by decide

lemma sameAs_self (p : TrackerPeer) : p.sameAs p = true := by
  simp [TrackerPeer.sameAs]

-- What "stopped" does after the lookup
lemma reply_stopped {q : ℕ} (hfind : findPeer o t a lastTime = (t', q))
    (hs : a.peerEvent = stopped) :
    (replyHasTracker o t a lastTime now).1 = { t' with
      trackerTable := hashtblRemove t'.trackerTable a.peerId
      trackerPeers := fifoRemove t' (t'.heap q)
      trackerComplete := t'.trackerComplete - if 0 < a.peerLeft then 0 else 1
      trackerIncomplete := t'.trackerIncomplete - if 0 < a.peerLeft then 1 else 0 } := by
  have hc : a.peerEvent ≠ completed := fun hc => completed_ne_stopped (hc.symm.trans hs)
  rw [replyHasTracker, hfind]
  dsimp only
  rw [if_neg hc, if_pos hs]
  by_cases hl : 0 < a.peerLeft <;> simp [hl]

lemma reply_table {q : ℕ} (hfind : findPeer o t a lastTime = (t', q))
    (hs : a.peerEvent ≠ stopped) :
    (replyHasTracker o t a lastTime now).1.trackerTable = t'.trackerTable := by
  rw [replyHasTracker, hfind]
  dsimp only
  rw [if_neg hs]
  split
  · rfl
  · exact replyPeers_same.1

-- What "stopped" takes away from the queue after a peer has been added
lemma fifoRemove_withPeer (h : Named t) :
    fifoRemove (t.withPeer a lastTime) (a.peer lastTime) =
      t.trackerPeers.filter fun q => !(t.heap q).sameAs (a.peer lastTime) := by
  dsimp only [fifoRemove, Tracker.withPeer]
  rw [List.filter_append, List.filter_cons_of_neg (by simp [sameAs_self]), List.filter_nil,
    List.append_nil]
  refine List.filter_congr fun q hq => ?_
  rw [Function.update_of_ne (h.queue q hq).ne]

-- A refused announce is treated as one of an unknown peer. Only "stopped" takes it back.
lemma refused_unchanged_iff (h : Named t) (hr : t.trackerTable.lookup a.peerId = some r)
    (hkey : ¬ Passes o (t.heap r) a) :
    Unchanged t (replyHasTracker o t a lastTime now).1 ↔ a.peerEvent = stopped ∧
      ∀ q ∈ t.trackerPeers, (t.heap q).sameAs (a.peer lastTime) = false := by
  have hfind := findPeer_refused lastTime hr hkey
  by_cases hs : a.peerEvent = stopped
  · have hall : (t.trackerPeers.filter fun q => !(t.heap q).sameAs (a.peer lastTime)) =
        t.trackerPeers ↔ ∀ q ∈ t.trackerPeers, (t.heap q).sameAs (a.peer lastTime) = false := by
      simp [List.filter_eq_self]
    have hheap : (t.withPeer a lastTime).heap t.fresh = a.peer lastTime :=
      Function.update_self ..
    rw [reply_stopped hfind hs, hheap, fifoRemove_withPeer h, ← hall]
    refine ⟨fun hsame => ⟨hs, hsame.queue⟩, fun ⟨_, hqueue⟩ => ⟨?_, hqueue, ?_, ?_, ?_⟩⟩
    · rw [hashtblRemove, Tracker.withPeer, List.eraseP_cons_of_pos (by simp)]
    · exact add_sub_cancel_right _ _
    · exact add_sub_cancel_right _ _
    · rintro q (hq | ⟨b, hb, rfl⟩)
      · exact Function.update_of_ne (h.queue q hq).ne _ _
      · exact Function.update_of_ne (h.table b hb).1.ne _ _
  · refine ⟨fun hsame => ?_, fun hstop => absurd hstop.1 hs⟩
    have hlonger := congrArg List.length ((reply_table hfind hs).symm.trans hsame.table)
    simp [Tracker.withPeer] at hlonger

end Refused

section HandedOut

variable {p k : Bytes} {ip : Ip}

-- A peer in the queue with its id, its key and its ip
structure Held (p k : Bytes) (ip : Ip) (r : ℕ) (t : Tracker) : Prop where
  old : r < t.fresh
  queue : r ∈ t.trackerPeers
  peerId : (t.heap r).peerId = p
  peerKey : (t.heap r).peerKey.value = k
  peerIp : (t.heap r).peerIp.value = ip

-- Announces that do not carry the key, and that do not stop the peer from its own ip
def WithoutKey (p k : Bytes) (ip : Ip) (t : Tracker) : Event → Prop
  | .announce a _ _ => Consistent t a ∧ a.peerKey.value ≠ k ∧
      (a.peerId = p → a.peerEvent = stopped → a.peerIp.value ≠ ip)
  | .clean _ => False

lemma Held.withPeer (h : Held p k ip r t) : Held p k ip r (t.withPeer a lastTime) := by
  have hsame : (t.withPeer a lastTime).heap r = t.heap r := Function.update_of_ne h.old.ne _ _
  refine ⟨h.old.trans (Nat.lt_succ_self _), List.mem_append_left _ h.queue, ?_, ?_, ?_⟩
  · rw [hsame, h.peerId]
  · rw [hsame, h.peerKey]
  · rw [hsame, h.peerIp]

-- What the lookup of a known peer may write: the ip only with the key.
lemma findPeer_touched {q : ℕ} (huse : o.trackerUseKey = true)
    (hq : t.trackerTable.lookup a.peerId = some q) (hkey : Passes o (t.heap q) a) :
    ∃ peer : TrackerPeer, peer.peerId = (t.heap q).peerId ∧
      peer.peerKey = (t.heap q).peerKey ∧
      ((t.heap q).peerKey.value ≠ a.peerKey.value → peer.peerIp = (t.heap q).peerIp) ∧
      findPeer o t a lastTime = ({ t with heap := Function.update t.heap q peer }, q) := by
  have hpass : ¬(o.trackerUseKey ∧ (t.heap q).peerIp.address ≠ a.peerIp.address ∧
      (t.heap q).peerKey.address ≠ a.peerKey.address) := by
    rintro ⟨_, hip, hk⟩
    exact (hkey huse).elim hip hk
  rw [findPeer, hq]
  simp only [if_neg hpass]
  refine ⟨_, ?_, ?_, fun hne => ?_, rfl⟩
  · split_ifs <;> rfl
  · split_ifs <;> rfl
  · have hkeep : ¬(¬o.trackerUseKey ∨ ((t.heap q).peerKey.value = a.peerKey.value ∧
        (t.heap q).peerIp.address ≠ a.peerIp.address)) := by simp [huse, hne]
    simp only [if_neg hkeep]
    split_ifs <;> rfl

lemma Held.announce (h : Held p k ip r t) (hnamed : Named t) (huse : o.trackerUseKey = true)
    (hcons : Consistent t a) (hother : a.peerKey.value ≠ k)
    (hstop : a.peerId = p → a.peerEvent = BTTracker.stopped → a.peerIp.value ≠ ip) :
    Held p k ip r (replyHasTracker o t a lastTime now).1 := by
  -- The lookup leaves the peer, and the one that it finds is another or has not stopped.
  have hfound : ∃ t' q, findPeer o t a lastTime = (t', q) ∧ Held p k ip r t' ∧
      (a.peerEvent = BTTracker.stopped → (t'.heap r).sameAs (t'.heap q) = false) := by
    by_cases hpass : ∃ q, t.trackerTable.lookup a.peerId = some q ∧ Passes o (t.heap q) a
    · obtain ⟨q, hq, hpass⟩ := hpass
      obtain ⟨peer, hid, hkey, hip, hfind⟩ :=
        @findPeer_touched o t a lastTime q huse hq hpass
      obtain ⟨hcip, hckey⟩ := hcons _ (mem_of_lookup hq)
      have hheld : Held p k ip r { t with heap := Function.update t.heap q peer } := by
        by_cases hqr : r = q
        · subst hqr
          have hne : (t.heap r).peerKey.value ≠ a.peerKey.value := by
            rw [h.peerKey]
            exact hother.symm
          refine ⟨h.old, h.queue, ?_, ?_, ?_⟩
          · simp [hid, h.peerId]
          · simp [hkey, h.peerKey]
          · simp [hip hne, h.peerIp]
        · refine ⟨h.old, h.queue, ?_, ?_, ?_⟩
          all_goals simp only [Function.update_of_ne hqr]
          · exact h.peerId
          · exact h.peerKey
          · exact h.peerIp
      refine ⟨_, q, hfind, hheld, fun hs => ?_⟩
      by_contra hsame
      simp only [Function.update_self, TrackerPeer.sameAs, Bool.not_eq_false, Bool.and_eq_true,
        decide_eq_true_eq] at hsame
      obtain ⟨⟨⟨⟨hid', hip'⟩, -⟩, -⟩, hkey'⟩ := hsame
      rw [hheld.peerId, hid, (hnamed.table _ (mem_of_lookup hq)).2] at hid'
      rw [hheld.peerKey, hkey] at hkey'
      have hne : (t.heap q).peerKey.value ≠ a.peerKey.value := hkey' ▸ hother.symm
      rw [hheld.peerIp, hip hne] at hip'
      rcases hpass huse with heq | heq
      · exact hstop hid'.symm hs ((hcip heq).symm.trans hip'.symm)
      · exact hne (hckey heq)
    · have hfind : findPeer o t a lastTime = (t.withPeer a lastTime, t.fresh) := by
        cases hq : t.trackerTable.lookup a.peerId with
        | none => exact findPeer_unknown lastTime hq
        | some q => exact findPeer_refused lastTime hq fun hkey => hpass ⟨q, hq, hkey⟩
      refine ⟨_, _, hfind, h.withPeer, fun _ => ?_⟩
      have hnew : (t.withPeer a lastTime).heap t.fresh = a.peer lastTime :=
        Function.update_self ..
      have hkey : k ≠ a.peerKey.value := hother.symm
      rw [hnew, TrackerPeer.sameAs, h.withPeer.peerKey, Announce.peer]
      simp [hkey]
  obtain ⟨t', q, hfind, hheld, hsame⟩ := hfound
  by_cases hs : a.peerEvent = BTTracker.stopped
  · rw [reply_stopped hfind hs]
    refine ⟨hheld.old, ?_, hheld.peerId, hheld.peerKey, hheld.peerIp⟩
    exact List.mem_filter.mpr ⟨hheld.queue, by simp [hsame hs]⟩
  · rw [replyHasTracker, hfind]
    dsimp only
    rw [if_neg hs]
    split
    · exact ⟨hheld.old, hheld.queue, hheld.peerId, hheld.peerKey, hheld.peerIp⟩
    · obtain ⟨-, hheap, hfresh⟩ := @replyPeers_same o t' a lastTime now
      refine ⟨hfresh ▸ hheld.old, mem_replyPeers.mpr hheld.queue, ?_, ?_, ?_⟩
      all_goals rw [hheap]
      · exact hheld.peerId
      · exact hheld.peerKey
      · exact hheld.peerIp

lemma Held.step (h : Held p k ip r t ∧ Named t) (huse : o.trackerUseKey = true) {e : Event}
    (he : WithoutKey p k ip t e) : Held p k ip r (step o t e) ∧ Named (step o t e) := by
  cases e with
  | announce a lastTime now =>
    exact ⟨h.1.announce h.2 huse he.1 he.2.1 he.2.2, h.2.announce⟩
  | clean => exact absurd he id

end HandedOut

-- With the key in use, an announce for a known peer from another ip and with another key leaves
-- the tracker as it was exactly if it is "stopped" and no peer in the queue is equal to the one
-- that it makes. The peer keeps its place in the queue and its ip as long as no announce stops it
-- from its own ip.
theorem key_protects {magic : ℕ → TrackerPeer} {p k : Bytes} (huse : o.trackerUseKey = true)
    (h : Reach (fun e t => step o t e) (fun t => ∃ now, t = newTracker magic now)
      (fun _ _ => True) t)
    (hr : t.trackerTable.lookup p = some r) (hk : (t.heap r).peerKey.value = k) :
    (∀ (a : Announce) (lastTime now : ℤ), a.peerId = p → Consistent t a →
      (t.heap r).peerIp.value ≠ a.peerIp.value → a.peerKey.value ≠ k →
      (Unchanged t (step o t (.announce a lastTime now)) ↔
        a.peerEvent = stopped ∧
          ∀ q ∈ t.trackerPeers, (t.heap q).sameAs (a.peer lastTime) = false)) ∧
    (r ∈ t.trackerPeers → ∀ t', Reach (fun e t => step o t e) (fun s => s = t)
      (WithoutKey p k (t.heap r).peerIp.value) t' →
      r ∈ t'.trackerPeers ∧ (t'.heap r).peerIp.value = (t.heap r).peerIp.value) := by
  have hnamed : Named t := by
    refine h.inv ?_ fun s e hs _ => hs.step e
    rintro s ⟨now, rfl⟩
    exact ⟨by simp [newTracker], by simp [newTracker]⟩
  obtain ⟨hlt, hid⟩ := hnamed.table _ (mem_of_lookup hr)
  refine ⟨fun a lastTime now ha hcons hip hkey => ?_, fun hqueue t' ht' => ?_⟩
  · subst ha
    obtain ⟨hcip, hckey⟩ := hcons _ (mem_of_lookup hr)
    have hrefused : ¬ Passes o (t.heap r) a := by
      intro hpass
      rcases hpass huse with heq | heq
      · exact hip (hcip heq)
      · exact hkey ((hckey heq).symm.trans hk)
    exact refused_unchanged_iff hnamed hr hrefused
  · have hheld : Held p k (t.heap r).peerIp.value r t' ∧ Named t' := by
      refine ht'.inv ?_ fun s e hs he => Held.step hs huse he
      rintro s rfl
      exact ⟨⟨hlt, hqueue, hid, hk, rfl⟩, hnamed⟩
    exact ⟨hheld.1.queue, hheld.1.peerIp⟩

-- A peer under the id of another, with another ip and another key
def intruder (event : Bytes) : Announce :=
  ⟨[1], ⟨1, ⟨77, 5⟩⟩, 6881, ⟨1, [120]⟩, 2, event, 0, 0⟩

-- The tracker of one leecher
def oneLeecher : Tracker :=
  step ⟨true, 20⟩ (newTracker (fun _ => nowhere) 0) (.announce (leecher 0 []) 5 5)

lemma oneLeecher_reach : Reach (fun e t => step ⟨true, 20⟩ t e)
    (fun t => ∃ now, t = newTracker (fun _ => nowhere) now) (fun _ _ => True) oneLeecher :=
  Reach.step (.start ⟨0, rfl⟩) trivial

lemma intruder_consistent (event : Bytes) : Consistent oneLeecher (intruder event) := by
  intro b hb
  rw [List.mem_singleton.mp (show b ∈ [([1], 0)] from hb)]
  exact ⟨fun h => absurd h Nat.zero_ne_one, fun h => absurd h Nat.zero_ne_one⟩

-- "stopped" from the intruder changes nothing.
theorem key_protects_stopped :
    Unchanged oneLeecher (step ⟨true, 20⟩ oneLeecher (.announce (intruder stopped) 9 9)) := by
  have hprotects := @key_protects ⟨true, 20⟩ oneLeecher 0 (fun _ => nowhere) [1] [107] rfl
    oneLeecher_reach rfl rfl
  exact (hprotects.1 (intruder stopped) 9 9 rfl (intruder_consistent _) (by decide)
    (by decide)).mpr ⟨rfl, by decide⟩

-- An announce without an event is refused, and registers the intruder in front of the peer.
theorem key_trespassed :
    ¬ ∀ (o : Options) (magic : ℕ → TrackerPeer) (t : Tracker) (p k : Bytes) (r : ℕ),
      o.trackerUseKey = true →
      Reach (fun e t => step o t e) (fun t => ∃ now, t = newTracker magic now)
        (fun _ _ => True) t →
      t.trackerTable.lookup p = some r → (t.heap r).peerKey.value = k →
      ∀ (a : Announce) (lastTime now : ℤ), a.peerId = p → Consistent t a →
        (t.heap r).peerIp.value ≠ a.peerIp.value → a.peerKey.value ≠ k →
        Unchanged t (step o t (.announce a lastTime now)) := by
  intro h
  have hsame := h ⟨true, 20⟩ (fun _ => nowhere) oneLeecher [1] [107] 0 rfl oneLeecher_reach rfl
    rfl (intruder []) 9 9 rfl (intruder_consistent _) (by decide) (by decide)
  exact absurd hsame.table (by decide)

end Mldonkey.BitTorrent.BTTracker
