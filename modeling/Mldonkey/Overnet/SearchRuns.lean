import Mldonkey.Overnet.Search
import Mldonkey.Lib.Runs

-- No order of ticks, replies and new peers makes a search send a message twice.
namespace Mldonkey.Overnet

open Donkey (Ip Md4)
open Runs (Reach)

variable {w : World} {s s' : Search} {p : Peer} {closest peers : List Peer} {nbits todo : ℤ}

namespace Event

-- A search or a request, to any address
def isSearch : Event → Bool
  | .handed _ (.search _ _ _) _ => true
  | _ => false

def isRequest : Event → Bool
  | .handed _ (.getSearchResults _ _ _ _) _ => true
  | _ => false

def isTo (a : Address) : Event → Bool
  | .handed b _ _ => a = b
  | .replied _ => false

-- It went out.
def isOut : Event → Bool
  | .handed _ _ out => out
  | .replied _ => false

end Event

namespace Search

def searchesTo (s : Search) (a : Address) : ℕ :=
  s.history.countP fun e => e.isSearch && e.isTo a

def requestsTo (s : Search) (a : Address) : ℕ :=
  s.history.countP fun e => e.isRequest && e.isTo a

end Search

structure Inv (md4 : Md4) (s : Search) : Prop where
  md4 : s.searchMd4 = md4
  searches : ∀ a, s.searchesTo a = if a ∈ s.searchAskedPeers then 1 else 0
  requests : ∀ a, s.requestsTo a = if a ∈ s.searchResultAskedPeers then 1 else 0
  queries : s.searchQueries = s.history.countP Event.isSearch
  asked : s.searchRequests = s.history.countP Event.isRequest
  replied : ∀ a ∈ s.searchOkPeers, .replied a ∈ s.history
  answered : ∀ later e earlier, s.history = later ++ e :: earlier → e.isRequest = true →
    ∀ a, e.isTo a = true → .replied a ∈ earlier

variable {md4 : Md4}

section Steps

-- More peers in the classes change nothing else.
lemma addSearchPeer_same (p : Peer) : ∃ classes, s.addSearchPeer w p =
    { s with searchPeers := classes } := by
  rw [Search.addSearchPeer]
  dsimp only
  split
  · split
    · split
      · exact ⟨_, rfl⟩
      · exact ⟨_, rfl⟩
    · exact ⟨_, rfl⟩
  · exact ⟨_, rfl⟩

lemma Inv.classes (h : Inv md4 s) (classes : ℕ → List Peer) :
    Inv md4 { s with searchPeers := classes } :=
  ⟨h.md4, h.searches, h.requests, h.queries, h.asked, h.replied, h.answered⟩

lemma Inv.addSearchPeers (h : Inv md4 s) (peers : List Peer) :
    Inv md4 (peers.foldl (Search.addSearchPeer w) s) := by
  induction peers generalizing s with
  | nil => exact h
  | cons p peers ih =>
    obtain ⟨classes, hsame⟩ := @addSearchPeer_same w s p
    rw [List.foldl_cons, hsame]
    exact ih (h.classes classes)

-- A newer event that is no request
lemma answered_cons {history : List Event} {e : Event} (hnew : e.isRequest = true →
      ∀ a, e.isTo a = true → .replied a ∈ history)
    (h : ∀ later e earlier, history = later ++ e :: earlier → e.isRequest = true →
      ∀ a, e.isTo a = true → .replied a ∈ earlier) :
    ∀ later e' earlier, e :: history = later ++ e' :: earlier → e'.isRequest = true →
      ∀ a, e'.isTo a = true → .replied a ∈ earlier := by
  intro later e' earlier heq
  cases later with
  | nil =>
    cases heq
    exact hnew
  | cons x later =>
    cases heq
    exact h later e' earlier rfl

lemma Inv.reply (h : Inv md4 s) (now : ℤ) (sender : Address) :
    Inv md4 { s with
      searchOkPeers := sender :: s.searchOkPeers
      searchLastRecv := now
      history := .replied sender :: s.history } where
  md4 := h.md4
  searches a := by
    refine Eq.trans ?_ (h.searches a)
    exact List.countP_cons_of_neg (by simp [Event.isSearch])
  requests a := by
    refine Eq.trans ?_ (h.requests a)
    exact List.countP_cons_of_neg (by simp [Event.isRequest])
  queries := by
    rw [List.countP_cons_of_neg (by simp [Event.isSearch])]
    exact h.queries
  asked := by
    rw [List.countP_cons_of_neg (by simp [Event.isRequest])]
    exact h.asked
  replied a ha := by
    rcases List.mem_cons.mp ha with rfl | ha
    · exact List.mem_cons_self
    · exact List.mem_cons_of_mem _ (h.replied a ha)
  answered := answered_cons (fun hreq => by simp [Event.isRequest] at hreq) h.answered

-- A peer that was not asked is asked, and one that replied is asked for its results.
lemma Inv.processPeer (h : Inv md4 s) (hexit : s.processPeer w p = some s') : Inv md4 s' := by
  rw [Search.processPeer] at hexit
  dsimp only at hexit
  split at hexit
  · next hasked =>
    cases hexit
    refine ⟨h.md4, fun a => ?_, fun a => ?_, ?_, ?_, fun a ha => ?_,
      answered_cons (fun hreq => by simp [Event.isRequest] at hreq) h.answered⟩
    · have hsearches := h.searches a
      rw [Search.searchesTo] at hsearches ⊢
      dsimp only [Search.udpSend]
      rw [List.countP_cons, hsearches]
      by_cases ha : a = p.address
      · subst ha
        simp [Event.isSearch, Event.isTo, hasked]
      · simp [Event.isSearch, Event.isTo, ha]
    · refine Eq.trans ?_ (h.requests a)
      exact List.countP_cons_of_neg (by simp [Event.isRequest])
    · have hqueries := h.queries
      simp only [Search.udpSend, List.countP_cons, Event.isSearch, if_true]
      push_cast
      omega
    · simp only [Search.udpSend, List.countP_cons, Event.isRequest, Bool.false_eq_true, if_false]
      exact h.asked
    · exact List.mem_cons_of_mem _ (h.replied a ha)
  · split at hexit
    · next hok =>
      cases hexit
      refine ⟨h.md4, fun a => ?_, fun a => ?_, ?_, ?_, fun a ha => ?_,
        answered_cons (fun _ a ha => ?_) h.answered⟩
      · refine Eq.trans ?_ (h.searches a)
        exact List.countP_cons_of_neg (by simp [Event.isSearch])
      · have hrequests := h.requests a
        rw [Search.requestsTo] at hrequests ⊢
        dsimp only [Search.udpSend]
        rw [List.countP_cons, hrequests]
        by_cases ha : a = p.address
        · subst ha
          simp [Event.isRequest, Event.isTo, hok.2]
        · simp [Event.isRequest, Event.isTo, ha]
      · simp only [Search.udpSend, List.countP_cons, Event.isSearch, Bool.false_eq_true, if_false]
        exact h.queries
      · have hasked := h.asked
        simp only [Search.udpSend, List.countP_cons, Event.isRequest, if_true]
        push_cast
        omega
      · exact List.mem_cons_of_mem _ (h.replied a ha)
      · have ha : a = p.address := by simpa [Event.isTo] using ha
        rw [ha]
        exact h.replied _ hok.1
    · cases hexit

lemma Inv.overnetSearchIter (h : Inv md4 s) {fuel : ℕ}
    (hiter : Search.overnetSearchIter w closest fuel nbits todo s = some s') : Inv md4 s' := by
  induction fuel generalizing s nbits todo with
  | zero => cases hiter
  | succ fuel ih =>
    rw [Search.overnetSearchIter] at hiter
    split at hiter
    · dsimp only at hiter
      split at hiter
      · split at hiter
        · exact ih h hiter
        · next s₁ hexit =>
          obtain ⟨p, -, hp⟩ := List.exists_of_findSome?_eq_some hexit
          have hinv : Inv md4 s₁ := h.processPeer hp
          split at hiter
          · exact ih hinv hiter
          · cases hiter
            exact hinv
      · exact ih h hiter
    · cases hiter
      exact h.addSearchPeers closest

-- A turn goes to the next class, or has one message less to send.
lemma overnetSearchIter_isSome {fuel : ℕ} (hfuel : Search.rounds nbits todo ≤ fuel) :
    ∃ s', Search.overnetSearchIter w closest fuel nbits todo s = some s' := by
  induction fuel generalizing s nbits todo with
  | zero => exact absurd hfuel (Nat.not_succ_le_zero _)
  | succ fuel ih =>
    rw [Search.rounds] at hfuel
    rw [Search.overnetSearchIter]
    split
    · next hbits =>
      have hnext : ∃ s', Search.overnetSearchIter w closest fuel (nbits - 1) todo s = some s' := by
        refine ih ?_
        rw [Search.rounds]
        omega
      dsimp only
      split
      · split
        · exact hnext
        · next s₁ hexit =>
          split
          · refine ih ?_
            rw [Search.rounds]
            omega
          · exact ⟨_, rfl⟩
      · exact hnext
    · exact ⟨_, rfl⟩

lemma Inv.iter (h : Inv md4 s) : Inv md4 (s.iter w closest nbits todo) := by
  obtain ⟨s', hs'⟩ := @overnetSearchIter_isSome w s closest nbits todo _ le_rfl
  rw [Search.iter, hs', Option.getD_some]
  exact h.overnetSearchIter hs'

lemma Inv.step (h : Inv md4 s) (op : Op) : Inv md4 (step op s) := by
  cases op with
  | addSearchPeer w p => exact h.addSearchPeers [p]
  | overnetSearchReply w now sender md4' peers closest =>
    rw [Overnet.step, Search.overnetSearchReply]
    split
    · exact ((h.addSearchPeers peers).reply now sender).iter
    · exact h
  | overnetSearchTick w now closest =>
    rw [Overnet.step, Search.overnetSearchTick]
    split
    · split
      · exact h.iter
      · split
        · exact h.iter
        · exact h
    · exact h
  | collect lost =>
    exact ⟨h.md4, h.searches, h.requests, h.queries, h.asked,
      fun a ha => h.replied a (List.mem_of_mem_filter ha), h.answered⟩

lemma inv_createSearch (w : World) (kind : SearchFor) (md4 : Md4) (start now : ℤ)
    (peers : List Peer) : Inv md4 (Search.createSearch w kind md4 start now peers) := by
  refine Inv.addSearchPeers ?_ peers
  refine ⟨rfl, fun _ => rfl, fun _ => rfl, rfl, rfl, fun _ h => absurd h List.not_mem_nil, ?_⟩
  intro later e earlier heq
  cases later <;> cases heq

end Steps

-- The runs of the searches for a md4
abbrev Searches (md4 : Md4) : Search → Prop :=
  Reach step (fun s => ∃ w kind start now peers,
    s = Search.createSearch w kind md4 start now peers) fun _ _ => True

-- What a search has sent to each address, and what its counters count
structure NoFlood (s : Search) : Prop where
  searches : ∀ a, s.searchesTo a ≤ 1
  requests : ∀ a, s.requestsTo a ≤ 1
  answered : ∀ later e earlier, s.history = later ++ e :: earlier → e.isRequest = true →
    ∀ a, e.isTo a = true → .replied a ∈ earlier
  queries : s.searchQueries = s.history.countP Event.isSearch
  asked : s.searchRequests = s.history.countP Event.isRequest
  terminates : ∀ w closest nbits todo, ∃ fuel s',
    s.overnetSearchIter w closest fuel nbits todo = some s'

-- At most one search and one request are handed to udp_send for an address, and the counters
-- count these.
theorem search_never_floods {md4 : Md4} (h : Searches md4 s) : NoFlood s := by
  have hinv : Inv md4 s := by
    refine h.inv ?_ fun s op hs _ => hs.step op
    rintro s ⟨w, kind, start, now, peers, rfl⟩
    exact inv_createSearch w kind md4 start now peers
  refine ⟨fun a => ?_, fun a => ?_, hinv.answered, hinv.queries, hinv.asked, fun w closest nbits
    todo => ⟨_, overnetSearchIter_isSome le_rfl⟩⟩
  · rw [hinv.searches]
    split <;> omega
  · rw [hinv.requests]
    split <;> omega

def onePeer : Peer := ⟨nullMd4, ⟨2560, 1⟩, 4672, none, 1⟩

def openWorld : World := ⟨true, fun _ => true, fun _ _ => false⟩

def blocked : World := ⟨true, fun _ => true, fun _ _ => true⟩

-- Both peers are searched, and the first one replies twice with a third peer and is asked once.
def replies : List Op :=
  let reply : Op :=
    .overnetSearchReply openWorld 2 onePeer.address nullMd4 [{ onePeer with peerPort := 4674 }] []
  [.overnetSearchTick openWorld 1 [], reply, .overnetSearchTick openWorld 9 [], reply,
    .collect fun a => a = onePeer.address, .overnetSearchTick openWorld 20 []]

def heard : Search :=
  replies.foldl (fun s op => step op s) (.createSearch openWorld .keywordSearch nullMd4 0 0
    [onePeer, { onePeer with peerPort := 4673 }])

theorem search_never_floods_heard : NoFlood heard ∧ heard.searchesTo onePeer.address = 1 ∧
    heard.requestsTo onePeer.address = 1 ∧ heard.searchQueries = 3 ∧ heard.searchRequests = 1 := by
  have hstart : Searches nullMd4 (.createSearch openWorld .keywordSearch nullMd4 0 0
      [onePeer, { onePeer with peerPort := 4673 }]) :=
    .start ⟨openWorld, .keywordSearch, 0, 0, [onePeer, { onePeer with peerPort := 4673 }], rfl⟩
  have hrun : Searches nullMd4 heard := hstart.run (Runs.meets_of_forall fun _ _ _ => trivial)
  exact ⟨search_never_floods hrun, by decide +kernel⟩

-- A search whose only peer is blocked before the first tick
def unheard : Search :=
  step (.overnetSearchTick blocked 1 []) (.createSearch openWorld .fileSearch nullMd4 0 0 [onePeer])

lemma unheard_searches : Searches nullMd4 unheard :=
  .step (.start ⟨openWorld, .fileSearch, 0, 0, [onePeer], rfl⟩) trivial

-- The search is counted, and nothing goes out.
theorem queries_uncounted : ¬ ∀ md4 s, Searches md4 s →
    s.searchQueries = s.history.countP fun e => e.isSearch && e.isOut := by
  intro h
  exact absurd (h nullMd4 unheard unheard_searches) (by decide)

end Mldonkey.Overnet
