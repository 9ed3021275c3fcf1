import Mathlib
import Mldonkey.Bencode.Codec
import Mldonkey.Donkey.LittleEndian
import Mldonkey.Lib.Runs
import Mldonkey.Lib.Hashtbl

-- The peers of a torrent in the built-in tracker.
namespace Mldonkey.BitTorrent.BTTracker

open Bencode (Bytes Value decimal encode chr ofString)
open Donkey (Ip)

-- A value in the memory: `!=` compares the addresses and `=` the values
structure Boxed (α : Type) where
  address : ℕ
  value : α

structure TrackerPeer where
  peerId : Bytes
  peerIp : Boxed Ip
  peerPort : ℤ
  peerActive : ℤ
  peerKey : Boxed Bytes

namespace TrackerPeer

def sameAs (p q : TrackerPeer) : Bool :=
  p.peerId = q.peerId && p.peerIp.value = q.peerIp.value && p.peerPort = q.peerPort &&
    p.peerActive = q.peerActive && p.peerKey.value = q.peerKey.value

end TrackerPeer

-- The table and the queue share the peers, which are in `heap`. Hashtbl.add puts a binding in
-- front of the older ones of its key.
structure Tracker where
  trackerTable : List (Bytes × ℕ)
  trackerPeers : List ℕ
  trackerMessageContent : Bytes
  trackerMessageTime : ℤ
  trackerDownloaded : ℤ
  trackerComplete : ℤ
  trackerIncomplete : ℤ
  trackerLast : ℤ
  heap : ℕ → TrackerPeer
  fresh : ℕ

-- What the user sets
structure Options where
  trackerUseKey : Bool
  maxTrackerReply : ℕ

structure Announce where
  peerId : Bytes
  peerIp : Boxed Ip
  peerPort : ℤ
  peerKey : Boxed Bytes
  peerLeft : ℤ
  peerEvent : Bytes
  numwant : ℤ
  noPeerId : ℤ

-- `magic` is what the memory holds before.
def newTracker (magic : ℕ → TrackerPeer) (now : ℤ) : Tracker where
  trackerTable := []
  trackerPeers := []
  trackerMessageContent := []
  trackerMessageTime := 0
  trackerDownloaded := 0
  trackerComplete := 0
  trackerIncomplete := 0
  trackerLast := now
  heap := magic
  fresh := 0

def ipToString (ip : Ip) : Bytes :=
  decimal (ip.hi.toNat / 256) ++ chr '.' :: decimal (ip.hi.toNat % 256) ++
    chr '.' :: decimal (ip.lo.toNat / 256) ++ chr '.' :: decimal (ip.lo.toNat % 256)

def voidMessage : Bytes :=
  encode true (.dictionary [(ofString "interval", .int 600), (ofString "peers", .list [])])

-- Hashtbl.remove: the newest binding of the key goes.
def hashtblRemove (table : List (Bytes × ℕ)) (k : Bytes) : List (Bytes × ℕ) :=
  table.eraseP fun b => b.1 = k

-- Fifo.remove of a peer: all that are equal to it go.
def fifoRemove (t : Tracker) (peer : TrackerPeer) : List ℕ :=
  t.trackerPeers.filter fun r => !(t.heap r).sameAs peer

-- A peer that the handler `with _` of the lookup makes
def addPeer (t : Tracker) (a : Announce) (lastTime : ℤ) : Tracker × ℕ :=
  let peer := {
    peerId := a.peerId
    peerIp := a.peerIp
    peerPort := a.peerPort
    peerActive := lastTime
    peerKey := a.peerKey }
  let t :=
    if 0 < a.peerLeft then { t with trackerIncomplete := t.trackerIncomplete + 1 }
    else { t with trackerComplete := t.trackerComplete + 1 }
  ({ t with
      trackerTable := (a.peerId, t.fresh) :: t.trackerTable
      trackerPeers := t.trackerPeers ++ [t.fresh]
      heap := Function.update t.heap t.fresh peer
      fresh := t.fresh + 1 }, t.fresh)

-- The failure "Invalid key" is raised inside the try, so its handler gets it as well.
def findPeer (o : Options) (t : Tracker) (a : Announce) (lastTime : ℤ) : Tracker × ℕ :=
  match t.trackerTable.lookup a.peerId with
  | some r =>
    let peer := t.heap r
    if o.trackerUseKey ∧ peer.peerIp.address ≠ a.peerIp.address ∧
        peer.peerKey.address ≠ a.peerKey.address then
      addPeer t a lastTime
    else
      let peer :=
        if ¬o.trackerUseKey ∨ (peer.peerKey.value = a.peerKey.value ∧
            peer.peerIp.address ≠ a.peerIp.address) then
          { peer with peerIp := a.peerIp }
        else peer
      let peer := if peer.peerPort ≠ a.peerPort then { peer with peerPort := a.peerPort } else peer
      let peer := { peer with peerActive := lastTime }
      ({ t with heap := Function.update t.heap r peer }, r)
  | none => addPeer t a lastTime

def peerEntry (noPeerId : ℤ) (p : TrackerPeer) : Value :=
  if noPeerId = 1 then
    .dictionary [
      (ofString "ip", .string (ipToString p.peerIp.value)),
      (ofString "port", .int (.ofInt p.peerPort))]
  else
    .dictionary [
      (ofString "peer id", .string p.peerId),
      (ofString "ip", .string (ipToString p.peerIp.value)),
      (ofString "port", .int (.ofInt p.peerPort))]

def collectedMessage (t : Tracker) (noPeerId now : ℤ) (list : List ℕ) : Bytes :=
  encode true (.dictionary [
    (ofString "interval", .int 600),
    (ofString "min interval", .int 600),
    (ofString "peers", .list (list.map fun r => peerEntry noPeerId (t.heap r))),
    (ofString "downloaded", .int (.ofInt t.trackerDownloaded)),
    (ofString "complete", .int (.ofInt t.trackerComplete)),
    (ofString "incomplete", .int (.ofInt t.trackerIncomplete)),
    (ofString "last", .int (.ofInt (now - t.trackerLast)))])

-- The reply for the events that are not "completed" or "stopped". The peers are taken from the
-- queue, until it is empty, and go back to its end, the last one first.
def replyPeers (o : Options) (t : Tracker) (a : Announce) (lastTime now : ℤ) : Tracker × Bytes :=
  if lastTime ≤ t.trackerMessageTime then (t, t.trackerMessageContent)
  else
    let maxPeerReplies :=
      if 0 < a.numwant then min a.numwant.toNat o.maxTrackerReply else o.maxTrackerReply
    let list := (t.trackerPeers.take maxPeerReplies).reverse
    let t := { t with trackerPeers := t.trackerPeers.drop maxPeerReplies ++ list }
    let m := collectedMessage t a.noPeerId now list
    if list.length = o.maxTrackerReply then
      ({ t with trackerMessageTime := lastTime + 60, trackerMessageContent := m }, m)
    else (t, m)

def completed : Bytes := ofString "completed"

def stopped : Bytes := ofString "stopped"

def replyHasTracker (o : Options) (t : Tracker) (a : Announce) (lastTime now : ℤ) :
    Tracker × Bytes :=
  let (t, peer) := findPeer o t a lastTime
  if a.peerEvent = completed then
    ({ t with
        trackerIncomplete := t.trackerIncomplete - 1
        trackerComplete := t.trackerComplete + 1 }, voidMessage)
  else if a.peerEvent = stopped then
    let t := { t with
      trackerTable := hashtblRemove t.trackerTable a.peerId
      trackerPeers := fifoRemove t (t.heap peer) }
    if 0 < a.peerLeft then
      ({ t with trackerIncomplete := t.trackerIncomplete - 1 }, voidMessage)
    else ({ t with trackerComplete := t.trackerComplete - 1 }, voidMessage)
  else replyPeers o t a lastTime now

-- The part of clean_tracker_timer for one tracker
def cleanTrackerTimer (t : Tracker) (lastTime : ℤ) : Tracker :=
  let timeThreshold := lastTime - 3600
  let oldPeers := t.trackerTable.filter fun b => (t.heap b.2).peerActive < timeThreshold
  let table := oldPeers.foldl (fun table b => hashtblRemove table (t.heap b.2).peerId)
    t.trackerTable
  { t with trackerTable := table, trackerPeers := table.map Prod.snd }

inductive Event
  | announce (a : Announce) (lastTime now : ℤ)
  | clean (lastTime : ℤ)

def step (o : Options) (t : Tracker) : Event → Tracker
  | .announce a lastTime now => (replyHasTracker o t a lastTime now).1
  | .clean lastTime => cleanTrackerTimer t lastTime

-- The counters of a tracker and the announces and purges that they follow.

open Runs (Reach)

variable {o : Options} {t : Tracker} {a : Announce} {lastTime now : ℤ} {side : Bytes → Bool}

-- `side` says of each peer whether it is counted as a seeder.
structure Counted (side : Bytes → Bool) (t : Tracker) : Prop where
  keys : (t.trackerTable.map Prod.fst).Nodup
  refs : (t.trackerTable.map Prod.snd).Nodup
  old : ∀ b ∈ t.trackerTable, b.2 < t.fresh
  named : ∀ b ∈ t.trackerTable, (t.heap b.2).peerId = b.1
  queue : t.trackerPeers.Perm (t.trackerTable.map Prod.snd)
  complete : t.trackerComplete = t.trackerTable.countP fun b => side b.1
  incomplete : t.trackerIncomplete = t.trackerTable.countP fun b => !side b.1

lemma mem_of_lookup {table : List (Bytes × ℕ)} {k : Bytes} {r : ℕ} (h : table.lookup k = some r) :
    (k, r) ∈ table := by
  induction table with
  | nil => simp at h
  | cons b table ih =>
    rw [List.lookup_cons] at h
    split at h
    case h_1 heq =>
      cases h
      rw [eq_of_beq heq]
      exact List.mem_cons_self
    case h_2 => exact List.mem_cons_of_mem _ (ih h)

lemma not_mem_of_lookup {table : List (Bytes × ℕ)} {k : Bytes} (h : table.lookup k = none) :
    ∀ b ∈ table, b.1 ≠ k := by
  intro b hb hk
  rw [List.lookup_eq_none_iff] at h
  simpa [hk] using h b hb

lemma perm_remove {table : List (Bytes × ℕ)} {k : Bytes} {r : ℕ}
    (hkeys : (table.map Prod.fst).Nodup) (h : (k, r) ∈ table) :
    table.Perm ((k, r) :: hashtblRemove table k) ∧ ∀ b ∈ hashtblRemove table k, b.1 ≠ k :=
  Hashtbl.perm_eraseP hkeys h

-- A side that changes for one peer moves it from one counter to the other
lemma countP_update {table : List (Bytes × ℕ)} {k : Bytes} (hne : ∀ b ∈ table, b.1 ≠ k)
    (side : Bytes → Bool) (v : Bool) (f : Bool → Bool) :
    (table.countP fun b => f (Function.update side k v b.1)) =
      table.countP fun b => f (side b.1) :=
  List.countP_congr fun b hb => by rw [Function.update_of_ne (hne b hb)]

lemma Counted.insert (h : Counted side t) (peer : TrackerPeer)
    (hnew : ∀ b ∈ t.trackerTable, b.1 ≠ peer.peerId) (v : Bool) :
    Counted (Function.update side peer.peerId v) { t with
      trackerTable := (peer.peerId, t.fresh) :: t.trackerTable
      trackerPeers := t.trackerPeers ++ [t.fresh]
      trackerComplete := t.trackerComplete + if v then 1 else 0
      trackerIncomplete := t.trackerIncomplete + if v then 0 else 1
      heap := Function.update t.heap t.fresh peer
      fresh := t.fresh + 1 } where
  keys := by
    rw [List.map_cons, List.nodup_cons]
    refine ⟨fun hmem => ?_, h.keys⟩
    obtain ⟨b, hb, hk⟩ := List.mem_map.mp hmem
    exact hnew b hb hk
  refs := by
    rw [List.map_cons, List.nodup_cons]
    refine ⟨fun hmem => ?_, h.refs⟩
    obtain ⟨b, hb, hr⟩ := List.mem_map.mp hmem
    exact (h.old b hb).ne hr
  old b hb := by
    rcases List.mem_cons.mp hb with rfl | hb
    · exact Nat.lt_succ_self _
    · exact (h.old b hb).trans (Nat.lt_succ_self _)
  named b hb := by
    rcases List.mem_cons.mp hb with rfl | hb
    · simp
    · dsimp only
      rw [Function.update_of_ne (h.old b hb).ne]
      exact h.named b hb
  queue := (List.perm_append_singleton _ _).trans (h.queue.cons _)
  complete := by
    have hrest := countP_update hnew side v id
    simp only [id] at hrest
    simp only [List.countP_cons, hrest, h.complete, Function.update_self]
    cases v <;> simp
  incomplete := by
    simp only [List.countP_cons, countP_update hnew side v not, h.incomplete,
      Function.update_self]
    cases v <;> simp

lemma Counted.addPeer (h : Counted side t)
    (hnew : ∀ b ∈ t.trackerTable, b.1 ≠ a.peerId) :
    Counted (Function.update side a.peerId (!decide (0 < a.peerLeft)))
      (addPeer t a lastTime).1 := by
  have hinsert := h.insert ⟨a.peerId, a.peerIp, a.peerPort, lastTime, a.peerKey⟩ hnew
    (!decide (0 < a.peerLeft))
  by_cases hl : 0 < a.peerLeft <;> simpa [BTTracker.addPeer, hl] using hinsert

-- The key check lets a known peer pass, so it is updated.
def Passes (o : Options) (peer : TrackerPeer) (a : Announce) : Prop :=
  o.trackerUseKey → peer.peerIp.address = a.peerIp.address ∨
    peer.peerKey.address = a.peerKey.address

lemma Counted.touch (h : Counted side t) {r : ℕ} {peer : TrackerPeer}
    (hpeer : peer.peerId = (t.heap r).peerId) :
    Counted side { t with heap := Function.update t.heap r peer } where
  keys := h.keys
  refs := h.refs
  old := h.old
  named b hb := by
    by_cases hr : b.2 = r
    · simp only [hr, Function.update_self, hpeer]
      exact hr ▸ h.named b hb
    · simp only [Function.update_of_ne hr]
      exact h.named b hb
  queue := h.queue
  complete := h.complete
  incomplete := h.incomplete

lemma findPeer_known (lastTime : ℤ) {r : ℕ} (hr : t.trackerTable.lookup a.peerId = some r)
    (hkey : Passes o (t.heap r) a) :
    ∃ peer : TrackerPeer, peer.peerId = (t.heap r).peerId ∧
      findPeer o t a lastTime = ({ t with heap := Function.update t.heap r peer }, r) := by
  have hpass : ¬(o.trackerUseKey ∧ (t.heap r).peerIp.address ≠ a.peerIp.address ∧
      (t.heap r).peerKey.address ≠ a.peerKey.address) := by
    rintro ⟨huse, hip, hk⟩
    exact (hkey huse).elim hip hk
  rw [findPeer, hr]
  simp only [if_neg hpass]
  refine ⟨_, ?_, rfl⟩
  split_ifs <;> rfl

lemma Counted.congr (h : Counted side t) {side' : Bytes → Bool}
    (hside : ∀ b ∈ t.trackerTable, side' b.1 = side b.1) : Counted side' t where
  keys := h.keys
  refs := h.refs
  old := h.old
  named := h.named
  queue := h.queue
  complete := by
    have hcount := List.countP_congr (p := fun b : Bytes × ℕ => side' b.1)
      (q := fun b => side b.1) fun b hb => by rw [hside b hb]
    rw [h.complete, hcount]
  incomplete := by
    have hcount := List.countP_congr (p := fun b : Bytes × ℕ => !side' b.1)
      (q := fun b => !side b.1) fun b hb => by rw [hside b hb]
    rw [h.incomplete, hcount]

lemma Counted.complete_peer (h : Counted side t) {k : Bytes} {r : ℕ}
    (hmem : (k, r) ∈ t.trackerTable) (hside : side k = false) :
    Counted (Function.update side k true) { t with
      trackerIncomplete := t.trackerIncomplete - 1
      trackerComplete := t.trackerComplete + 1 } := by
  obtain ⟨hperm, hne⟩ := perm_remove h.keys hmem
  have hcomplete := h.complete
  have hincomplete := h.incomplete
  have hrest := countP_update hne side true id
  simp only [id] at hrest
  rw [hperm.countP_eq, List.countP_cons] at hcomplete hincomplete
  refine ⟨h.keys, h.refs, h.old, h.named, h.queue, ?_, ?_⟩
  · rw [hperm.countP_eq, List.countP_cons, hrest]
    simp only [hside] at hcomplete
    simp [hcomplete]
  · rw [hperm.countP_eq, List.countP_cons, countP_update hne side true not]
    simp only [hside] at hincomplete
    simp [hincomplete]

-- The queue loses the peer that leaves the table, and no other
lemma Counted.fifoRemove_perm (h : Counted side t) {k : Bytes} {r : ℕ}
    (hmem : (k, r) ∈ t.trackerTable) :
    (fifoRemove t (t.heap r)).Perm ((hashtblRemove t.trackerTable k).map Prod.snd) := by
  obtain ⟨hperm, hne⟩ := perm_remove h.keys hmem
  have hqueue := (h.queue.trans (hperm.map Prod.snd)).filter
    fun r' => !(t.heap r').sameAs (t.heap r)
  have hkeep : ((hashtblRemove t.trackerTable k).map Prod.snd).filter
      (fun r' => !(t.heap r').sameAs (t.heap r)) =
        (hashtblRemove t.trackerTable k).map Prod.snd := by
    rw [List.filter_eq_self]
    intro r' hr'
    obtain ⟨b, hb, rfl⟩ := List.mem_map.mp hr'
    have hb' : b ∈ t.trackerTable := hperm.mem_iff.mpr (List.mem_cons_of_mem _ hb)
    have hid : (t.heap b.2).peerId ≠ (t.heap r).peerId := by
      rw [h.named b hb', h.named _ hmem]
      exact hne b hb
    simp [TrackerPeer.sameAs, hid]
  rw [List.map_cons, List.filter_cons_of_neg (by simp [TrackerPeer.sameAs]), hkeep] at hqueue
  exact hqueue

lemma Counted.stop_peer (h : Counted side t) {k : Bytes} {r : ℕ}
    (hmem : (k, r) ∈ t.trackerTable) (side' : Bytes → Bool)
    (hother : ∀ k', k' ≠ k → side' k' = side k') :
    Counted side' { t with
      trackerTable := hashtblRemove t.trackerTable k
      trackerPeers := fifoRemove t (t.heap r)
      trackerComplete := t.trackerComplete - if side k then 1 else 0
      trackerIncomplete := t.trackerIncomplete - if side k then 0 else 1 } := by
  obtain ⟨hperm, hne⟩ := perm_remove h.keys hmem
  have hsub : (hashtblRemove t.trackerTable k).Sublist t.trackerTable := List.eraseP_sublist
  have hcomplete := h.complete
  have hincomplete := h.incomplete
  rw [hperm.countP_eq, List.countP_cons] at hcomplete hincomplete
  have hstop : Counted side { t with
      trackerTable := hashtblRemove t.trackerTable k
      trackerPeers := fifoRemove t (t.heap r)
      trackerComplete := t.trackerComplete - if side k then 1 else 0
      trackerIncomplete := t.trackerIncomplete - if side k then 0 else 1 } := by
    refine ⟨h.keys.sublist (hsub.map _), h.refs.sublist (hsub.map _),
      fun b hb => h.old b (hsub.subset hb), fun b hb => h.named b (hsub.subset hb),
      h.fifoRemove_perm hmem, ?_, ?_⟩
    · rw [hcomplete]
      cases side k <;> simp
    · rw [hincomplete]
      cases side k <;> simp
  exact hstop.congr fun b hb => hother b.1 (hne b hb)

lemma Counted.replyPeers (h : Counted side t) : Counted side (replyPeers o t a lastTime now).1 := by
  have hqueue (n : ℕ) : (t.trackerPeers.drop n ++ (t.trackerPeers.take n).reverse).Perm
      (t.trackerTable.map Prod.snd) := by
    refine List.Perm.trans ?_ h.queue
    refine List.perm_append_comm.trans ((List.reverse_perm _).append_right _ |>.trans ?_)
    rw [List.take_append_drop]
  rw [BTTracker.replyPeers]
  by_cases hcache : lastTime ≤ t.trackerMessageTime
  · rwa [if_pos hcache]
  · rw [if_neg hcache]
    dsimp only
    -- The cache changes or not
    split_ifs <;> exact ⟨h.keys, h.refs, h.old, h.named, hqueue _, h.complete, h.incomplete⟩

lemma cleanTrackerTimer_fresh (hfresh : ∀ b ∈ t.trackerTable,
    lastTime - 3600 ≤ (t.heap b.2).peerActive) :
    cleanTrackerTimer t lastTime = { t with trackerPeers := t.trackerTable.map Prod.snd } := by
  have hold : (t.trackerTable.filter fun b => (t.heap b.2).peerActive < lastTime - 3600) = [] := by
    rw [List.filter_eq_nil_iff]
    intro b hb
    simpa using hfresh b hb
  simp only [cleanTrackerTimer, hold, List.foldl_nil]

-- An announce of a seeder
def Announce.seeder (a : Announce) : Bool := a.peerLeft = 0 || a.peerEvent = completed

-- The last announce of each peer in a history, of which the newest event comes first
def lastSeeder : List Event → Bytes → Bool
  | [] => fun _ => false
  | .announce a _ _ :: past => Function.update (lastSeeder past) a.peerId a.seeder
  | .clean _ :: past => lastSeeder past

def next (o : Options) (e : Event) (s : List Event × Tracker) : List Event × Tracker :=
  (e :: s.1, step o s.2 e)

-- An announce of a peer of the table passes the key check and tells the side that the last one
-- told, or "completed" after a leecher's; one of another peer is a leecher's if it tells
-- "completed". No peer has been silent for an hour when the timer runs.
def Fits (o : Options) (s : List Event × Tracker) : Event → Prop
  | .announce a _ _ =>
    match s.2.trackerTable.lookup a.peerId with
    | some r => Passes o (s.2.heap r) a ∧
      if a.peerEvent = completed then lastSeeder s.1 a.peerId = false
      else if a.peerEvent = stopped then lastSeeder s.1 a.peerId = !decide (0 < a.peerLeft)
      else lastSeeder s.1 a.peerId = a.seeder
    | none =>
      if a.peerEvent = completed then 0 < a.peerLeft
      else a.peerEvent = stopped ∨ 0 ≤ a.peerLeft
  | .clean lastTime => ∀ b ∈ s.2.trackerTable, lastTime - 3600 ≤ (s.2.heap b.2).peerActive

instance (o : Options) (peer : TrackerPeer) (a : Announce) : Decidable (Passes o peer a) :=
  inferInstanceAs (Decidable (_ → _ ∨ _))

instance (o : Options) (s : List Event × Tracker) : DecidablePred (Fits o s)
  | .announce a _ _ =>
    match h : s.2.trackerTable.lookup a.peerId with
    | some r =>
      decidable_of_iff (Passes o (s.2.heap r) a ∧
        if a.peerEvent = completed then lastSeeder s.1 a.peerId = false
        else if a.peerEvent = stopped then lastSeeder s.1 a.peerId = !decide (0 < a.peerLeft)
        else lastSeeder s.1 a.peerId = a.seeder) (by simp only [Fits, h])
    | none =>
      decidable_of_iff (if a.peerEvent = completed then 0 < a.peerLeft
        else a.peerEvent = stopped ∨ 0 ≤ a.peerLeft) (by simp only [Fits, h])
  | .clean lastTime =>
    inferInstanceAs (Decidable (∀ b ∈ s.2.trackerTable, lastTime - 3600 ≤ _))

lemma Counted.announce {past : List Event} (h : Counted (lastSeeder past) t)
    (hfits : Fits o (past, t) (.announce a lastTime now)) :
    Counted (lastSeeder (.announce a lastTime now :: past))
      (replyHasTracker o t a lastTime now).1 := by
  rw [Fits] at hfits
  rw [lastSeeder]
  -- After the lookup the peer is in the table, on the side that the events below rely on
  have hfound : ∃ side, Counted side (findPeer o t a lastTime).1 ∧
      (a.peerId, (findPeer o t a lastTime).2) ∈ (findPeer o t a lastTime).1.trackerTable ∧
      (∀ k, k ≠ a.peerId → side k = lastSeeder past k) ∧
      (a.peerEvent = completed → side a.peerId = false) ∧
      (a.peerEvent ≠ completed → a.peerEvent = stopped →
        side a.peerId = !decide (0 < a.peerLeft)) ∧
      (a.peerEvent ≠ completed → a.peerEvent ≠ stopped → side a.peerId = a.seeder) := by
    cases hr : t.trackerTable.lookup a.peerId with
    | some r =>
      simp only [hr] at hfits
      obtain ⟨peer, hpeer, hfind⟩ := findPeer_known lastTime hr hfits.1
      have hside := hfits.2
      rw [hfind]
      refine ⟨lastSeeder past, h.touch hpeer, mem_of_lookup hr, fun _ _ => rfl, ?_, ?_, ?_⟩
      · intro hc
        rwa [if_pos hc] at hside
      · intro hc hs
        rwa [if_neg hc, if_pos hs] at hside
      · intro hc hs
        rwa [if_neg hc, if_neg hs] at hside
    | none =>
      simp only [hr] at hfits
      have hfind : findPeer o t a lastTime = BTTracker.addPeer t a lastTime := by
        simp only [findPeer, hr]
      rw [hfind]
      refine ⟨_, h.addPeer (not_mem_of_lookup hr), List.mem_cons_self,
        fun k hk => Function.update_of_ne hk _ _, ?_, ?_, ?_⟩
      · intro hc
        rw [if_pos hc] at hfits
        simp [hfits]
      · intro _ _
        simp
      · intro hc hs
        rw [if_neg hc] at hfits
        have hleft := hfits.resolve_left hs
        rw [Function.update_self, Announce.seeder, decide_eq_false hc, Bool.or_false,
          ← decide_not, decide_eq_decide]
        omega
  obtain ⟨side, hcounted, hmem, hother, hcompleted, hstopped, hrest⟩ := hfound
  rw [replyHasTracker]
  dsimp only
  by_cases hc : a.peerEvent = completed
  · rw [if_pos hc]
    refine (hcounted.complete_peer hmem (hcompleted hc)).congr fun b _ => ?_
    by_cases hk : b.1 = a.peerId
    · simp [hk, Announce.seeder, hc]
    · rw [Function.update_of_ne hk, Function.update_of_ne hk, hother _ hk]
  rw [if_neg hc]
  by_cases hs : a.peerEvent = stopped
  · have hstop := hcounted.stop_peer hmem
      (Function.update (lastSeeder past) a.peerId a.seeder) fun k hk => by
        rw [Function.update_of_ne hk, hother k hk]
    rw [if_pos hs]
    rw [hstopped hc hs] at hstop
    by_cases hl : 0 < a.peerLeft <;> simpa [hl] using hstop
  · rw [if_neg hs]
    refine hcounted.replyPeers.congr fun b _ => ?_
    by_cases hk : b.1 = a.peerId
    · rw [hk, Function.update_self, hrest hc hs]
    · rw [Function.update_of_ne hk, hother _ hk]

lemma Counted.step {past : List Event} (h : Counted (lastSeeder past) t) (e : Event)
    (hfits : Fits o (past, t) e) : Counted (lastSeeder (e :: past)) (step o t e) := by
  cases e with
  | announce a lastTime now => exact h.announce hfits
  | clean lastTime =>
    show Counted (lastSeeder past) (cleanTrackerTimer t lastTime)
    rw [cleanTrackerTimer_fresh hfits]
    exact ⟨h.keys, h.refs, h.old, h.named, .refl _, h.complete, h.incomplete⟩

-- What the tables and the counters of a tracker are to be
structure Correct (past : List Event) (t : Tracker) : Prop where
  oneEntry : (t.trackerTable.map Prod.fst).Nodup
  eachOnce : t.trackerPeers.Nodup
  samePeers : ∀ r, r ∈ t.trackerPeers ↔ ∃ b ∈ t.trackerTable, b.2 = r
  complete : t.trackerComplete = t.trackerTable.countP fun b => lastSeeder past b.1
  incomplete : t.trackerIncomplete = t.trackerTable.countP fun b => !lastSeeder past b.1
  notNegative : 0 ≤ t.trackerComplete ∧ 0 ≤ t.trackerIncomplete

lemma Counted.correct {past : List Event} (h : Counted (lastSeeder past) t) : Correct past t where
  oneEntry := h.keys
  eachOnce := h.queue.nodup_iff.mpr h.refs
  samePeers r := by rw [h.queue.mem_iff, List.mem_map]
  complete := h.complete
  incomplete := h.incomplete
  notNegative := by
    rw [h.complete, h.incomplete]
    omega

def newRun (magic : ℕ → TrackerPeer) (now : ℤ) : List Event × Tracker :=
  ([], newTracker magic now)

-- Every run of announces and purges that fit
theorem counters_correct (o : Options) (magic : ℕ → TrackerPeer) (now : ℤ)
    {s : List Event × Tracker} (h : Reach (next o) (· = newRun magic now) (Fits o) s) :
    Correct s.1 s.2 := by
  refine (h.inv (I := fun s => Counted (lastSeeder s.1) s.2) ?_ ?_).correct
  · rintro _ rfl
    exact ⟨.nil, .nil, by simp [newRun, newTracker], by simp [newRun, newTracker], .refl _, rfl,
      rfl⟩
  · intro s e hs he
    exact hs.step e he

def nowhere : TrackerPeer := ⟨[], ⟨0, .null⟩, 0, 0, ⟨0, []⟩⟩

-- A peer at its own address in each announce, with two bytes left or none
def leecher (address : ℕ) (event : Bytes) : Announce :=
  ⟨[1], ⟨address, .null⟩, 6881, ⟨address, [107]⟩, 2, event, 0, 0⟩

def seeder (address : ℕ) (event : Bytes) : Announce := { leecher address event with peerLeft := 0 }

-- A leecher that completes, and a timer
theorem counters_correct_completes :
    Correct [.clean 20, .announce (seeder 1 completed) 10 10, .announce (leecher 0 []) 5 5]
      (step ⟨false, 20⟩ (step ⟨false, 20⟩ (step ⟨false, 20⟩ (newTracker (fun _ => nowhere) 0)
        (.announce (leecher 0 []) 5 5)) (.announce (seeder 1 completed) 10 10)) (.clean 20)) := by
  refine counters_correct ⟨false, 20⟩ (fun _ => nowhere) 0 (s := next _ _ (next _ _ (next _ _ _)))
    (.step (.step (.step (.start rfl) ?_) ?_) ?_)
  · decide
  · decide
  · decide

-- A seeder whose first announce tells "completed": both counters are wrong and one is negative
theorem counters_negative :
    ¬ ∀ (o : Options) (magic : ℕ → TrackerPeer) (now : ℤ) (s : List Event × Tracker),
      Reach (next o) (· = newRun magic now) (fun _ _ => True) s → Correct s.1 s.2 := by
  intro h
  have hcorrect := h ⟨true, 20⟩ (fun _ => nowhere) 0 _
    (@Reach.step _ _ _ _ _ _ (Event.announce (seeder 0 completed) 5 5) (.start rfl) trivial)
  exact absurd hcorrect.notNegative.2 (by decide)

end Mldonkey.BitTorrent.BTTracker
