import Mldonkey.Dht.Krpc

-- Each query ends once.
namespace Mldonkey.Dht

open Kademlia Runs

variable {react : List Call → List Write} {s s' : Krpc} {addr addr' : Addr} {txn txn' : String}
  {n : Nat} {i : Int} {w : Write}

-- A binding of the table belongs to the query that was sent to its address
-- under its transaction and that has not ended.
structure Krpc.Waits (s : Krpc) (addr : Addr) (txn : String) (n : Nat) : Prop where
  sent : ∃ q, s.sent[n]? = some ⟨addr, txn, q⟩
  open_ : ∀ c ∈ s.calls, c.number ≠ n

-- What was called so far was called once, and for answers of the right sender.
structure Krpc.Sane (s : Krpc) : Prop where
  once : (s.calls.map Call.number).Nodup
  known : ∀ c ∈ s.calls, c.number < s.sent.length
  matching : ∀ n addr txn, .answered n addr txn ∈ s.calls →
    ∃ q, s.sent[n]? = some ⟨addr, txn, q⟩

structure Krpc.Good (s : Krpc) : Prop extends s.Sane where
  waits : ∀ addr txn n i, Assoc2.find s.h addr txn = some (n, i) → s.Waits addr txn n

-- What writes leave as it is: bindings stay, queries are added at the end and
-- nothing is called.
structure Krpc.Grows (s s' : Krpc) : Prop where
  sent : ∃ l, s'.sent = s.sent ++ l
  calls : s'.calls = s.calls
  kept : ∀ addr txn p, Assoc2.find s.h addr txn = some p → Assoc2.find s'.h addr txn = some p
  added : ∀ addr txn n i, Assoc2.find s'.h addr txn = some (n, i) →
    Assoc2.find s.h addr txn = some (n, i) ∨ s.sent.length ≤ n ∧
      ∃ q, s'.sent[n]? = some ⟨addr, txn, q⟩

namespace Krpc

theorem Grows.refl (s : Krpc) : Grows s s :=
  ⟨⟨[], by simp⟩, rfl, fun _ _ _ h => h, fun _ _ _ _ h => .inl h⟩

theorem Grows.trans {s'' : Krpc} (h : Grows s s') (h' : Grows s' s'') : Grows s s'' := by
  obtain ⟨l, hl⟩ := h.sent
  obtain ⟨l', hl'⟩ := h'.sent
  refine ⟨⟨l ++ l', by rw [hl', hl, List.append_assoc]⟩, h'.calls.trans h.calls,
    fun a t p hp => h'.kept a t p (h.kept a t p hp), fun a t n i hn => ?_⟩
  rcases h'.added a t n i hn with hn | ⟨hle, q, hq⟩
  · refine (h.added a t n i hn).imp_right fun ⟨hle, q, hq⟩ => ⟨hle, q, ?_⟩
    rw [hl', List.getElem?_append_left (List.getElem?_eq_some_iff.mp hq).1, hq]
  · refine .inr ⟨?_, q, hq⟩
    rw [hl, List.length_append] at hle
    omega

theorem write_grows (s : Krpc) (w : Write) : Grows s (s.write w) := by
  rw [write]
  split
  case h_1 => exact .refl s
  case h_2 txn hfree =>
      have hnone : Assoc2.find s.h w.addr txn = none := by
        have := List.find?_some hfree
        simpa [Hashtbl.mem, Assoc2.find_findAll] using this
      refine ⟨⟨_, rfl⟩, rfl, fun a t p hp => ?_, fun a t n i hn => ?_⟩
      · rw [Assoc2.find_add, if_neg, hp]
        rintro ⟨rfl, rfl⟩
        simp [hnone] at hp
      · rw [Assoc2.find_add] at hn
        split at hn
        case isTrue heq =>
            obtain ⟨rfl, rfl⟩ := Prod.mk.inj (Option.some.inj hn)
            exact .inr ⟨Nat.le_refl _, w.query, by simp [heq.1, heq.2]⟩
        case isFalse => exact .inl hn

theorem writes_grows (s : Krpc) (l : List Write) : Grows s (l.foldl write s) := by
  induction l generalizing s with
  | nil => exact .refl s
  | cons w l ih => exact (write_grows s w).trans (ih _)

theorem Waits.grows (h : s.Waits addr txn n) (hg : Grows s s') : s'.Waits addr txn n := by
  obtain ⟨q, hq⟩ := h.sent
  obtain ⟨l, hl⟩ := hg.sent
  refine ⟨⟨q, ?_⟩, hg.calls ▸ h.open_⟩
  rw [hl, List.getElem?_append_left (List.getElem?_eq_some_iff.mp hq).1, hq]

theorem Sane.grows (h : s.Sane) (hg : Grows s s') : s'.Sane := by
  obtain ⟨l, hl⟩ := hg.sent
  refine ⟨hg.calls ▸ h.once, fun c hc => ?_, fun n a t hc => ?_⟩
  · have := h.known c (hg.calls ▸ hc)
    rw [hl, List.length_append]
    omega
  · obtain ⟨q, hq⟩ := h.matching n a t (hg.calls ▸ hc)
    exact ⟨q, by rw [hl, List.getElem?_append_left (List.getElem?_eq_some_iff.mp hq).1, hq]⟩

theorem Good.grows (h : s.Good) (hg : Grows s s') : s'.Good := by
  refine ⟨h.toSane.grows hg, fun a t n i hn => ?_⟩
  rcases hg.added a t n i hn with hn | ⟨hle, hq⟩
  · exact (h.waits a t n i hn).grows hg
  · refine ⟨hq, fun c hc heq => ?_⟩
    have := h.known c (hg.calls ▸ hc)
    omega

theorem Sane.called {c : Call} (h : s.Sane) (hw : s.Waits addr txn n)
    (hc : c = .failed n ∨ c = .answered n addr txn) : { s with calls := c :: s.calls }.Sane := by
  obtain ⟨q, hq⟩ := hw.sent
  have hn : c.number = n := by rcases hc with rfl | rfl <;> rfl
  refine ⟨?_, ?_, fun m a t hm => ?_⟩
  · show (c.number :: s.calls.map Call.number).Nodup
    rw [List.nodup_cons, hn]
    refine ⟨fun hmem => ?_, h.once⟩
    obtain ⟨d, hd, he⟩ := List.mem_map.mp hmem
    exact hw.open_ d hd he
  · refine List.forall_mem_cons.mpr ⟨?_, h.known⟩
    rw [hn]
    exact (List.getElem?_eq_some_iff.mp hq).1
  · rcases List.mem_cons.mp hm with he | hm
    · rcases hc with rfl | rfl
      · exact Call.noConfusion he
      · obtain ⟨rfl, rfl, rfl⟩ := Call.answered.inj he
        exact ⟨q, hq⟩
    · exact h.matching m a t hm

-- A query that waits is removed from the table and ends; what it writes in turn
-- changes no other query.
theorem Good.finish {c : Call} (h : s.Good) (hfind : Assoc2.find s.h addr txn = some (n, i))
    (hc : c = .failed n ∨ c = .answered n addr txn) :
    ({ s with h := Assoc2.remove s.h addr txn }.call react c).Good := by
  have hw := h.waits addr txn n i hfind
  obtain ⟨q, hq⟩ := hw.sent
  have hn : c.number = n := by rcases hc with rfl | rfl <;> rfl
  refine Good.grows (s := { s with h := Assoc2.remove s.h addr txn, calls := c :: s.calls }) ?_
    (writes_grows _ _)
  have hsane := h.toSane.called hw hc
  refine ⟨⟨hsane.once, hsane.known, hsane.matching⟩, fun a t m j hm => ?_⟩
  rw [Assoc2.find_remove] at hm
  split at hm
  case isTrue => simp at hm
  case isFalse hne =>
      have hwm := h.waits a t m j hm
      refine ⟨hwm.sent, List.forall_mem_cons.mpr ⟨?_, hwm.open_⟩⟩
      -- Two bindings of one query would have its address and transaction.
      rintro rfl
      obtain ⟨q', hq'⟩ := hwm.sent
      rw [hn, hq] at hq'
      exact hne ⟨(Sent.mk.inj (Option.some.inj hq')).1.symm,
        (Sent.mk.inj (Option.some.inj hq')).2.1.symm⟩

theorem call_keeps {c : Call} {p : Nat × Int} (h : Assoc2.find s.h addr txn = some p)
    (hne : ¬ (addr = addr' ∧ txn = txn')) :
    Assoc2.find ({ s with h := Assoc2.remove s.h addr' txn' }.call react c).h addr txn =
      some p := by
  refine (writes_grows _ _).kept _ _ _ ?_
  show Assoc2.find (Assoc2.remove s.h addr' txn') addr txn = some p
  rw [Assoc2.find_remove, if_neg hne, h]

theorem Good.failAll {bad : List (Addr × String × Nat × Int)} (h : s.Good)
    (hbad : ∀ p ∈ bad, Assoc2.find s.h p.1 p.2.1 = some p.2.2)
    (hnodup : (bad.map fun p => (p.1, p.2.1)).Nodup) : (s.failAll react bad).Good := by
  induction bad generalizing s with
  | nil => exact h
  | cons p bad ih =>
      obtain ⟨a, t, m, j⟩ := p
      rw [List.forall_mem_cons] at hbad
      rw [List.map_cons, List.nodup_cons] at hnodup
      refine ih (h.finish hbad.1 (.inl rfl)) (fun p hp => call_keeps (hbad.2 p hp) ?_) hnodup.2
      rintro ⟨rfl, rfl⟩
      exact hnodup.1 (List.mem_map.mpr ⟨p, hp, rfl⟩)

theorem Good.timeout (h : s.Good) : (s.timeout react).Good := by
  refine h.failAll (fun p hp => ?_) ?_
  · rw [List.mem_reverse] at hp
    exact Assoc2.mem_toList.mp (List.mem_filter.mp hp).1
  · rw [List.map_reverse, List.nodup_reverse]
    exact (Assoc2.nodup_toList s.h).sublist (List.filter_sublist.map _)

-- All that wait fail, each once; what is written meanwhile is dropped.
theorem Sane.fails {l : List (Addr × String × Nat × Int)} (h : s.Sane)
    (hl : ∀ p ∈ l, s.Waits p.1 p.2.1 p.2.2.1) (hnodup : (l.map fun p => (p.1, p.2.1)).Nodup) :
    (l.foldl (fun s p => s.call react (.failed p.2.2.1)) s).Sane := by
  induction l generalizing s with
  | nil => exact h
  | cons p l ih =>
      rw [List.forall_mem_cons] at hl
      rw [List.map_cons, List.nodup_cons] at hnodup
      have hg := writes_grows { s with calls := .failed p.2.2.1 :: s.calls }
        (react (.failed p.2.2.1 :: s.calls))
      refine ih ((h.called hl.1 (.inl rfl)).grows hg) (fun p' hp' => ?_) hnodup.2
      have hw := hl.2 p' hp'
      refine Waits.grows (s := { s with calls := .failed p.2.2.1 :: s.calls })
        ⟨hw.sent, List.forall_mem_cons.mpr ⟨fun heq => ?_, hw.open_⟩⟩ hg
      obtain ⟨q, hq⟩ := hl.1.sent
      obtain ⟨q', hq'⟩ := hw.sent
      rw [show p.2.2.1 = p'.2.2.1 from heq, hq'] at hq
      refine hnodup.1 (List.mem_map.mpr ⟨p', hp', ?_⟩)
      exact Prod.ext (Sent.mk.inj (Option.some.inj hq)).1 (Sent.mk.inj (Option.some.inj hq)).2.1

theorem Good.shutdown (h : s.Good) : (s.shutdown react).Good := by
  have hsane : ((Assoc2.toList s.h).foldl (fun s p => s.call react (.failed p.2.2.1)) s).Sane :=
    h.toSane.fails (fun p hp => h.waits _ _ _ p.2.2.2 (Assoc2.mem_toList.mp hp))
      (Assoc2.nodup_toList s.h)
  exact ⟨⟨hsane.once, hsane.known, hsane.matching⟩, fun a t n i hn => by simp [Krpc.shutdown] at hn⟩

theorem Good.handle {msg : Msg} (h : s.Good) : (s.handle react addr txn msg).Good := by
  cases msg with
  | query => exact h
  | error code text =>
      rw [Krpc.handle]
      split
      case h_1 => exact h
      case h_2 n i hfind => exact h.finish hfind (.inl rfl)
  | response dict =>
      rw [Krpc.handle]
      split
      case h_1 => exact h
      case h_2 n i hfind =>
          split
          case h_1 => exact h
          case h_2 q hq =>
              rw [Krpc.respond]
              split
              · exact h.finish hfind (.inl rfl)
              · split
                · exact h.finish hfind (.inr rfl)
                · exact h.finish hfind (.inl rfl)

theorem good_of_reachable (h : KrpcReachable react s) : s.Good := by
  refine Reach.inv ?_ ?_ h
  · rintro _ ⟨now, rfl⟩
    exact ⟨⟨.nil, by simp [create], by simp [create]⟩, by simp [create]⟩
  · intro s op hs _
    cases op with
    | write w => exact hs.grows (write_grows s w)
    | packet addr txn msg => exact hs.handle
    | malformed => exact hs
    | clock now => exact ⟨⟨hs.once, hs.known, hs.matching⟩, fun a t n i hn =>
        ⟨(hs.waits a t n i hn).sent, (hs.waits a t n i hn).open_⟩⟩
    | timer => exact hs.timeout
    | shutdown => exact hs.shutdown

end Krpc

-- In every run each query has at most one of its continuations called, and at
-- most once; the one for an answer only for a response from the address that
-- the query was sent to, under its transaction.
theorem krpc_calls_once (h : KrpcReachable react s) (n : Nat) :
    (s.calls.filter fun c => c.number == n).length ≤ 1 ∧
      ∀ addr txn, .answered n addr txn ∈ s.calls →
        ∃ q, s.sent[n]? = some ⟨addr, txn, q⟩ ∧ .failed n ∉ s.calls := by
  have hgood := Krpc.good_of_reachable h
  have honce : (s.calls.map Call.number).count n ≤ 1 := List.nodup_iff_count_le_one.mp hgood.once n
  refine ⟨?_, fun addr txn hc => ?_⟩
  · rw [List.count, List.countP_map, List.countP_eq_length_filter] at honce
    simpa [Function.comp_def] using honce
  · obtain ⟨q, hq⟩ := hgood.matching n addr txn hc
    refine ⟨q, hq, fun hf => ?_⟩
    have := List.inj_on_of_nodup_map hgood.once hc hf rfl
    exact Call.noConfusion this

-- A ping that is answered, and whose answer comes a second time.
def answeredTwice : Krpc :=
  let answer := Msg.response [(Bencode.ofString "id", .string [])]
  [KrpcOp.write ⟨⟨1, 4662⟩, .ping, ["7"]⟩, .packet ⟨1, 4662⟩ "7" answer,
    .packet ⟨1, 4662⟩ "7" answer, .clock 30, .timer, .shutdown].foldl
    (fun s op => op.next (fun _ => []) s) (.create 0)

theorem krpc_calls_once_answered :
    (answeredTwice.calls.filter fun c => c.number == 0).length ≤ 1 ∧
      .answered 0 ⟨1, 4662⟩ "7" ∈ answeredTwice.calls ∧ .failed 0 ∉ answeredTwice.calls := by
  have h : KrpcReachable (fun _ => []) answeredTwice :=
    Reach.foldl (.start ⟨0, rfl⟩) _ fun _ _ _ => trivial
  have hanswered : Call.answered 0 ⟨1, 4662⟩ "7" ∈ answeredTwice.calls := by decide
  obtain ⟨_, -, hnot⟩ := (krpc_calls_once h 0).2 _ _ hanswered
  exact ⟨(krpc_calls_once h 0).1, hanswered, hnot⟩

end Mldonkey.Dht
