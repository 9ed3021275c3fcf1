import Mldonkey.Gnutella2.UdpFragments
import Mldonkey.Lib.Runs

-- The transport of Gnutella2 over runs: fragments and acknowledgements arrive in any order while
-- packets are sent and sent again.
namespace Mldonkey.Gnutella2

open Bencode (Bytes)
open Donkey (Ip)
open Runs (Reach)

inductive Note
  | acked (c : ℕ)
  | resent (c : ℕ)
  deriving DecidableEq

-- What happened so far, the newest first: the parts that arrived, the packets handed over, and
-- the acknowledgements and repetitions by the number of their packet. `sent` are the
-- destinations of the packets 1, 2, ..
structure Run (ι : Type) where
  udp : Udp
  past : List (ι × ℕ)
  handed : List (ι × UInt8 × Bytes)
  sent : List (Ip × ℕ)
  log : List Note

inductive Event (ι : Type)
  | fragment (i : ι) (j : ℕ)
  | ack (c : ℕ)
  | send (ip : Ip) (port : ℕ) (s : Bytes) (lastTime : ℤ)
  | resend (lastTime : ℤ)

-- No repetition comes after the acknowledgement of its packet
def NeverAfter : List Note → Prop
  | [] => True
  | .acked _ :: log => NeverAfter log
  | .resent c :: log => .acked c ∉ log ∧ NeverAfter log

section Acknowledgements

variable {ι : Type} {r : Run ι}

-- What a run keeps of the packets that wait for their acknowledgement
structure Confirms (r : Run ι) : Prop where
  counter : r.udp.udpCounter = r.sent.length
  waiting : ∀ p ∈ r.udp.waitingForAck, 0 < p.seq ∧ r.sent[p.seq - 1]? = some (p.ip, p.port)
  known : ∀ c, .acked c ∈ r.log → c ≤ r.sent.length
  acked : ∀ p ∈ r.udp.waitingForAck, .acked p.seq ∈ r.log → p.acked = true
  never : NeverAfter r.log

lemma Confirms.of_udp (h : Confirms r) {udp : Udp} {past : List (ι × ℕ)}
    {handed : List (ι × UInt8 × Bytes)} (hcounter : udp.udpCounter = r.udp.udpCounter)
    (hwaiting : udp.waitingForAck = r.udp.waitingForAck) :
    Confirms { r with udp := udp, past := past, handed := handed } where
  counter := hcounter.trans h.counter
  waiting := by simpa only [hwaiting] using h.waiting
  known := h.known
  acked := by simpa only [hwaiting] using h.acked
  never := h.never

lemma parseUdpPacket_ackDatagram (u : Udp) (ip : Ip) (port : ℕ) {c : ℕ} (hc : c < 65536) :
    parseUdpPacket u ip port (ackDatagram c) = (acknowledge u ip port c, .ackPacket) := by
  have hshape : ackDatagram c = 71 :: 78 :: 68 :: 0 :: .ofNat (c % 256) ::
      .ofNat (c / 256 % 256) :: 1 :: 0 :: [] := rfl
  rw [hshape]
  simp only [parseUdpPacket]
  rw [if_neg (by decide), seqBytes_seq hc, if_pos trivial]
  rfl

lemma Confirms.ack (h : Confirms r) {c : ℕ} (hsent : c ≤ r.sent.length)
    {ip : Ip} {port : ℕ} (hdest : r.sent[c - 1]? = some (ip, port)) :
    Confirms { r with udp := acknowledge r.udp ip port c, log := .acked c :: r.log } where
  counter := h.counter
  waiting p hp := by
    obtain ⟨q, hq, rfl⟩ := List.mem_map.mp hp
    have hwaiting := h.waiting q hq
    split_ifs <;> exact hwaiting
  known c' hc' := by
    rcases List.mem_cons.mp hc' with heq | hc'
    · obtain rfl := Note.acked.inj heq
      exact hsent
    · exact h.known c' hc'
  acked p hp hlog := by
    obtain ⟨q, hq, rfl⟩ := List.mem_map.mp hp
    by_cases hmatch : q.ip = ip ∧ q.port = port ∧ q.seq = c
    · rw [if_pos hmatch]
    · rw [if_neg hmatch] at hlog ⊢
      rcases List.mem_cons.mp hlog with heq | hlog
      · -- A packet with this number went where the acknowledgement comes from
        have hseq : q.seq = c := Note.acked.inj heq
        have hwaiting := (h.waiting q hq).2
        rw [hseq, hdest, Option.some.injEq, Prod.mk.injEq] at hwaiting
        exact absurd ⟨hwaiting.1.symm, hwaiting.2.symm, hseq⟩ hmatch
      · exact h.acked q hq hlog
  never := h.never

lemma Confirms.send (compressString : Bytes → Bytes) (h : Confirms r) (ip : Ip) (port : ℕ)
    (s : Bytes) (lastTime : ℤ) :
    Confirms { r with
      udp := udpSend compressString r.udp ip port s lastTime
      sent := r.sent ++ [(ip, port)] } where
  counter := by
    show r.udp.udpCounter + 1 = _
    rw [h.counter, List.length_append, List.length_singleton]
  waiting p hp := by
    rcases List.mem_append.mp hp with hp | hp
    · obtain ⟨hpos, hdest⟩ := h.waiting p hp
      refine ⟨hpos, ?_⟩
      rw [List.getElem?_append_left (List.getElem?_eq_some_iff.mp hdest).1, hdest]
    · obtain rfl := List.mem_singleton.mp hp
      refine ⟨Nat.succ_pos _, ?_⟩
      show (r.sent ++ [(ip, port)])[r.udp.udpCounter + 1 - 1]? = some (ip, port)
      rw [h.counter, Nat.add_sub_cancel, List.getElem?_concat_length]
  known c hc := by
    have := h.known c hc
    rw [List.length_append, List.length_singleton]
    omega
  acked p hp hlog := by
    rcases List.mem_append.mp hp with hp | hp
    · exact h.acked p hp hlog
    · -- No acknowledgement came for the number of the new packet
      obtain rfl := List.mem_singleton.mp hp
      have hle : r.udp.udpCounter + 1 ≤ r.sent.length := h.known _ hlog
      rw [h.counter] at hle
      omega
  never := h.never

lemma resendLoop_spec (lastTime : ℤ) (u : Udp) (queue back : List Waiting) :
    (resendLoop lastTime u queue back).1.udpCounter = u.udpCounter ∧
      (resendLoop lastTime u queue back).1.fragmentedPackets = u.fragmentedPackets ∧
      (∀ c ∈ (resendLoop lastTime u queue back).2, ∃ p ∈ queue, p.seq = c ∧ p.acked = false) ∧
      ∀ p ∈ (resendLoop lastTime u queue back).1.waitingForAck, ∃ q ∈ queue ++ back,
        p.seq = q.seq ∧ p.ip = q.ip ∧ p.port = q.port ∧ p.acked = q.acked := by
  induction queue generalizing u back with
  | nil => exact ⟨rfl, rfl, by simp [resendLoop], fun p hp => ⟨p, hp, rfl, rfl, rfl, rfl⟩⟩
  | cons w queue ih =>
    rw [resendLoop]
    split_ifs with hdue hacked htimes
    · obtain ⟨h1, h2, h3, h4⟩ := ih (u.write w.s w.ip w.port)
        (back ++ [{ w with times := w.times + 1, nextTime := lastTime + 10 }])
      refine ⟨h1, h2, fun c hc => ?_, fun p hp => ?_⟩
      · rcases List.mem_cons.mp hc with rfl | hc
        · exact ⟨w, List.mem_cons_self, rfl, by simpa using hacked⟩
        · obtain ⟨q, hq, heq⟩ := h3 c hc
          exact ⟨q, List.mem_cons_of_mem _ hq, heq⟩
      · obtain ⟨q, hq, heq⟩ := h4 p hp
        rcases List.mem_append.mp hq with hq | hq
        · exact ⟨q, by simp [hq], heq⟩
        rcases List.mem_append.mp hq with hq | hq
        · exact ⟨q, by simp [hq], heq⟩
        · obtain rfl := List.mem_singleton.mp hq
          exact ⟨w, by simp, heq⟩
    · obtain ⟨h1, h2, h3, h4⟩ := ih (u.write w.s w.ip w.port) back
      refine ⟨h1, h2, fun c hc => ?_, fun p hp => ?_⟩
      · rcases List.mem_cons.mp hc with rfl | hc
        · exact ⟨w, List.mem_cons_self, rfl, by simpa using hacked⟩
        · obtain ⟨q, hq, heq⟩ := h3 c hc
          exact ⟨q, List.mem_cons_of_mem _ hq, heq⟩
      · obtain ⟨q, hq, heq⟩ := h4 p hp
        exact ⟨q, List.mem_cons_of_mem _ hq, heq⟩
    · obtain ⟨h1, h2, h3, h4⟩ := ih u back
      refine ⟨h1, h2, fun c hc => ?_, fun p hp => ?_⟩
      · obtain ⟨q, hq, heq⟩ := h3 c hc
        exact ⟨q, List.mem_cons_of_mem _ hq, heq⟩
      · obtain ⟨q, hq, heq⟩ := h4 p hp
        exact ⟨q, List.mem_cons_of_mem _ hq, heq⟩
    · exact ⟨rfl, rfl, by simp, fun p hp => ⟨p, hp, rfl, rfl, rfl, rfl⟩⟩

lemma neverAfter_append {log : List Note} {again : List ℕ}
    (hnot : ∀ c ∈ again, .acked c ∉ log) (h : NeverAfter log) :
    NeverAfter (again.map .resent ++ log) := by
  induction again with
  | nil => exact h
  | cons c again ih =>
    refine ⟨fun hmem => ?_, ih fun c hc => hnot c (List.mem_cons_of_mem _ hc)⟩
    rcases List.mem_append.mp hmem with hmem | hmem
    · simp at hmem
    · exact hnot c List.mem_cons_self hmem

lemma Confirms.resend (h : Confirms r) (lastTime : ℤ) :
    Confirms { r with
      udp := (resendUdpPackets r.udp lastTime).1
      log := ((resendUdpPackets r.udp lastTime).2.map .resent).reverse ++ r.log } := by
  obtain ⟨hcounter, -, hagain, hwaiting⟩ :=
    resendLoop_spec lastTime r.udp r.udp.waitingForAck []
  rw [List.append_nil] at hwaiting
  have hlog (c : ℕ) : .acked c ∈ ((resendUdpPackets r.udp lastTime).2.map Note.resent).reverse ++
      r.log ↔ .acked c ∈ r.log := by simp
  refine ⟨hcounter.trans h.counter, fun p hp => ?_, fun c hc => ?_, fun p hp hc => ?_, ?_⟩
  · obtain ⟨q, hq, hseq, hip, hport, -⟩ := hwaiting p hp
    rw [hseq, hip, hport]
    exact h.waiting q hq
  · exact h.known c ((hlog c).mp hc)
  · obtain ⟨q, hq, hseq, -, -, hacked⟩ := hwaiting p hp
    rw [hacked]
    exact h.acked q hq (hseq ▸ (hlog _).mp hc)
  · dsimp only
    rw [← List.map_reverse]
    refine neverAfter_append (fun c hc hmem => ?_) h.never
    obtain ⟨p, hp, rfl, hfalse⟩ := hagain c (List.mem_reverse.mp hc)
    rw [h.acked p hp hmem] at hfalse
    cases hfalse

end Acknowledgements

variable {ι : Type} [DecidableEq ι] (compressString : Bytes → Bytes) (packet : ι → Sent)

def next (e : Event ι) (r : Run ι) : Run ι :=
  match e with
  | .fragment i j =>
    let (udp, outcome) := parseUdpPacket r.udp (packet i).ip (packet i).port
      ((packet i).datagram j)
    { r with
      udp := udp
      past := (i, j) :: r.past
      handed :=
        match outcome with
        | .handOver nFlags trailer => (i, nFlags, trailer) :: r.handed
        | _ => r.handed }
  | .ack c =>
    match r.sent[c - 1]? with
    | some (ip, port) =>
      { r with
        udp := (parseUdpPacket r.udp ip port (ackDatagram c)).1
        log := .acked c :: r.log }
    | none => r
  | .send ip port s lastTime =>
    { r with
      udp := udpSend compressString r.udp ip port s lastTime
      sent := r.sent ++ [(ip, port)] }
  | .resend lastTime =>
    let (udp, again) := resendUdpPackets r.udp lastTime
    { r with udp := udp, log := (again.map .resent).reverse ++ r.log }

def Run.initial : Run ι := ⟨.initial, [], [], [], []⟩

-- The part whose arrival completes a packet
def completing : List (ι × ℕ) → ι → Option ℕ
  | [], _ => none
  | (i, j) :: past, i' =>
    match completing past i' with
    | some k => some k
    | none =>
      if i' = i ∧ ∀ k < (packet i).parts.length, k = j ∨ (i, k) ∈ past then some j else none

-- A part is one of its packet and finds room in the queue if it has to wait; an acknowledgement
-- is for a packet that was sent.
def Allowed (r : Run ι) : Event ι → Prop
  | .fragment i j => j < (packet i).parts.length ∧
    (r.udp.fragmentedPackets.length < maxFragments ∨
      j ∈ storedParts (packet i) r.udp.fragmentedPackets ∨
      ∀ k < (packet i).parts.length,
        k = j ∨ k ∈ storedParts (packet i) r.udp.fragmentedPackets)
  | .ack c => 0 < c ∧ c ≤ r.sent.length
  | _ => True

-- The part that completed a packet does not come again, and an acknowledged packet is one of
-- the first 65535.
def Fits (r : Run ι) : Event ι → Prop
  | .fragment i j => completing packet r.past i ≠ some j
  | .ack c => c < 65536
  | _ => True

variable {packet} {past : List (ι × ℕ)} {i i' : ι} {j k : ℕ}

lemma completing_all (h : completing packet past i = some j) :
    (i, j) ∈ past ∧ ∀ k < (packet i).parts.length, (i, k) ∈ past := by
  induction past with
  | nil => simp [completing] at h
  | cons a past ih =>
    obtain ⟨i', j'⟩ := a
    rw [completing] at h
    split at h
    case h_1 k hk =>
      obtain rfl := Option.some.inj h
      obtain ⟨hmem, hall⟩ := ih hk
      exact ⟨List.mem_cons_of_mem _ hmem, fun k hk => List.mem_cons_of_mem _ (hall k hk)⟩
    case h_2 =>
      split at h
      case isTrue hnew =>
        obtain ⟨rfl, hall⟩ := hnew
        obtain rfl := Option.some.inj h
        refine ⟨List.mem_cons_self, fun k hk => ?_⟩
        rcases hall k hk with rfl | hk
        · exact List.mem_cons_self
        · exact List.mem_cons_of_mem _ hk
      case isFalse => cases h

lemma all_completing (h : ∀ k < (packet i).parts.length, (i, k) ∈ past) :
    completing packet past i ≠ none := by
  induction past with
  | nil => exact absurd (h 0 (packet i).parts_pos) List.not_mem_nil
  | cons a past ih =>
    obtain ⟨i', j'⟩ := a
    rw [completing]
    split
    case h_1 => simp
    case h_2 hnone =>
      -- Not all parts came before, so this is a part of the packet
      have hnew : ∃ k < (packet i).parts.length, (i, k) ∉ past := by
        by_contra hall
        push Not at hall
        exact ih hall hnone
      obtain ⟨k, hk, hnot⟩ := hnew
      obtain ⟨rfl, rfl⟩ := Prod.mk.inj ((List.mem_cons.mp (h k hk)).resolve_right hnot)
      rw [if_pos]
      · simp
      · refine ⟨rfl, fun k' hk' => ?_⟩
        rcases List.mem_cons.mp (h k' hk') with heq | hmem
        · exact .inl (Prod.mk.inj heq).2
        · exact .inr hmem

lemma completing_of_ne (hi : i' ≠ i) :
    completing packet ((i, j) :: past) i' = completing packet past i' := by
  rw [completing]
  split
  case h_1 hk => exact hk.symm
  case h_2 hnone => rw [if_neg fun h => hi h.1, hnone]

lemma completing_again (hmem : (i, j) ∈ past) :
    completing packet ((i, j) :: past) i' = completing packet past i' := by
  rw [completing]
  split
  case h_1 hk => exact hk.symm
  case h_2 hnone =>
    rw [if_neg, hnone]
    rintro ⟨rfl, hall⟩
    refine all_completing (fun k hk => ?_) hnone
    rcases hall k hk with rfl | hk
    · exact hmem
    · exact hk

lemma completing_new (hnone : completing packet past i = none) :
    completing packet ((i, j) :: past) i =
      if ∀ k < (packet i).parts.length, k = j ∨ (i, k) ∈ past then some j else none := by
  rw [completing, hnone]
  simp only [true_and]

-- What a run keeps of the fragments
structure Gathers (packet : ι → Sent) (r : Run ι) : Prop where
  parts : ∀ a ∈ r.past, a.2 < (packet a.1).parts.length
  stored : ∀ f, f ∈ r.udp.fragmentedPackets ↔
    ∃ i k, (i, k) ∈ r.past ∧ completing packet r.past i ≠ some k ∧ f = (packet i).fragment k
  once : (r.handed.map Prod.fst).Nodup
  handed : ∀ i, i ∈ r.handed.map Prod.fst ↔ completing packet r.past i ≠ none
  whole : ∀ h ∈ r.handed, h.2.2 = (packet h.1).parts.flatten

variable {r : Run ι}

lemma Gathers.key_stored (h : Gathers packet r) (hkey : Function.Injective fun i => (packet i).key)
    {f : Fragment} (hf : f ∈ r.udp.fragmentedPackets)
    (heq : (f.ip, f.port, f.nSeq) = (packet i).key) :
    (i, f.nPart) ∈ r.past ∧ completing packet r.past i ≠ some f.nPart ∧
      f = (packet i).fragment f.nPart := by
  obtain ⟨i', k, hmem, hnot, rfl⟩ := (h.stored f).mp hf
  obtain rfl : i' = i := hkey heq
  exact ⟨hmem, hnot, rfl⟩

lemma Gathers.whole_queue (h : Gathers packet r)
    (hkey : Function.Injective fun i => (packet i).key) (i : ι) :
    Whole (packet i) r.udp.fragmentedPackets := fun _ hf heq =>
  have hstored := h.key_stored hkey hf heq
  ⟨h.parts _ hstored.1, hstored.2.2⟩

lemma Gathers.mem_storedParts (h : Gathers packet r)
    (hkey : Function.Injective fun i => (packet i).key) :
    k ∈ storedParts (packet i) r.udp.fragmentedPackets ↔
      (i, k) ∈ r.past ∧ completing packet r.past i ≠ some k := by
  rw [storedParts, List.mem_map]
  constructor
  · rintro ⟨f, hf, rfl⟩
    obtain ⟨hf, hmatch⟩ := List.mem_filter.mp hf
    rw [decide_eq_true_eq] at hmatch
    have hstored := h.key_stored hkey hf (i := i) (by
      rw [Sent.key, hmatch.1, hmatch.2.1, hmatch.2.2])
    exact ⟨hstored.1, hstored.2.1⟩
  · rintro ⟨hmem, hnot⟩
    refine ⟨(packet i).fragment k, List.mem_filter.mpr ⟨?_, by simp [Sent.fragment]⟩, rfl⟩
    exact (h.stored _).mpr ⟨i, k, hmem, hnot, rfl⟩

-- What changes in the queue and the log of a run when a part comes
lemma Gathers.of_part (h : Gathers packet r) {udp : Udp} {handed : List (ι × UInt8 × Bytes)}
    (hj : j < (packet i).parts.length)
    (hstored : ∀ f, f ∈ udp.fragmentedPackets ↔
      ∃ i' k, (i', k) ∈ (i, j) :: r.past ∧
        completing packet ((i, j) :: r.past) i' ≠ some k ∧ f = (packet i').fragment k)
    (hhanded : handed = r.handed ∧
        completing packet ((i, j) :: r.past) i = completing packet r.past i ∨
      completing packet r.past i = none ∧ completing packet ((i, j) :: r.past) i ≠ none ∧
        handed = (i, (packet i).flags, (packet i).parts.flatten) :: r.handed) :
    Gathers packet { r with udp := udp, past := (i, j) :: r.past, handed := handed } := by
  refine ⟨fun a ha => ?_, hstored, ?_, fun i' => ?_, fun a ha => ?_⟩
  · rcases List.mem_cons.mp ha with rfl | ha
    · exact hj
    · exact h.parts a ha
  · rcases hhanded with ⟨rfl, -⟩ | ⟨hnone, -, rfl⟩
    · exact h.once
    · rw [List.map_cons, List.nodup_cons, h.handed]
      exact ⟨fun hne => hne hnone, h.once⟩
  · by_cases hi : i' = i
    · subst hi
      rcases hhanded with ⟨rfl, heq⟩ | ⟨-, hnew, rfl⟩
      · rw [heq, h.handed]
      · simpa using hnew
    · rw [completing_of_ne hi, ← h.handed]
      rcases hhanded with ⟨rfl, -⟩ | ⟨-, -, rfl⟩
      · rfl
      · simp [hi]
  · rcases hhanded with ⟨rfl, -⟩ | ⟨-, -, rfl⟩
    · exact h.whole a ha
    · rcases List.mem_cons.mp ha with rfl | ha
      · rfl
      · exact h.whole a ha

lemma Gathers.fragment (h : Gathers packet r)
    (hkey : Function.Injective fun i => (packet i).key)
    (hallowed : Allowed packet r (.fragment i j)) (hfits : Fits packet r (.fragment i j)) :
    Gathers packet (next compressString packet (.fragment i j) r) := by
  obtain ⟨hj, hroom⟩ := hallowed
  have hmem (k : ℕ) := h.mem_storedParts hkey (i := i) (k := k)
  -- The only part of a packet in one part completed it
  have hone : (packet i).parts.length = 1 →
      j ∉ storedParts (packet i) r.udp.fragmentedPackets := by
    intro hlen hstored
    obtain ⟨hpast, hnot⟩ := (hmem j).mp hstored
    obtain rfl : j = 0 := by omega
    have hsome : completing packet r.past i ≠ none := all_completing fun k hk => by
      obtain rfl : k = 0 := by omega
      exact hpast
    obtain ⟨k, hk⟩ := Option.ne_none_iff_exists'.mp hsome
    have hlt := h.parts _ (completing_all hk).1
    obtain rfl : k = 0 := by simp only at hlt; omega
    exact hnot hk
  obtain ⟨u', hu', hparse⟩ := parseUdpPacket_part hj (h.whole_queue hkey i) hone
  have hfragments : u'.fragmentedPackets = r.udp.fragmentedPackets := by
    rcases hu' with rfl | rfl <;> rfl
  rw [next, hparse]
  by_cases hstored : j ∈ storedParts (packet i) r.udp.fragmentedPackets
  · -- A part that waits comes again
    rw [if_pos hstored]
    obtain ⟨hpast, -⟩ := (hmem j).mp hstored
    refine h.of_part hj (fun f => ?_) (.inl ⟨rfl, completing_again hpast⟩)
    simp only [hfragments, h.stored, completing_again hpast, List.mem_cons]
    refine exists_congr fun i' => exists_congr fun k => and_congr_left fun _ => ?_
    exact ⟨.inr, fun hk => hk.elim (fun heq => heq ▸ hpast) id⟩
  rw [if_neg hstored]
  have hpast : (i, j) ∉ r.past := fun hpast => hstored ((hmem j).mpr ⟨hpast, hfits⟩)
  have hnone : completing packet r.past i = none := by
    by_contra hsome
    obtain ⟨k, hk⟩ := Option.ne_none_iff_exists'.mp hsome
    exact hpast ((completing_all hk).2 j hj)
  have hiff (k : ℕ) : k ∈ storedParts (packet i) r.udp.fragmentedPackets ↔ (i, k) ∈ r.past := by
    rw [hmem k, hnone]
    simp
  have hnew := completing_new (j := j) hnone
  simp only [← hiff] at hnew
  by_cases hall : ∀ k < (packet i).parts.length,
      k = j ∨ k ∈ storedParts (packet i) r.udp.fragmentedPackets
  · -- The last part completes the packet and is not stored
    rw [if_pos hall] at hnew ⊢
    refine h.of_part hj (fun f => ?_) (.inr ⟨hnone, by simp [hnew], rfl⟩)
    rw [hfragments, h.stored]
    refine exists_congr fun i' => exists_congr fun k => ?_
    by_cases hi : i' = i
    · subst hi
      rw [hnone, hnew]
      by_cases hk : k = j
      · simp [hk, hpast]
      · simp [hk, Ne.symm hk]
    · rw [completing_of_ne hi]
      simp [hi]
  · rw [if_neg hall] at hnew ⊢
    have hlen : r.udp.fragmentedPackets.length < maxFragments :=
      hroom.resolve_right (not_or.mpr ⟨hstored, hall⟩)
    have hput : (storeFragment u' ((packet i).fragment j)).fragmentedPackets =
        r.udp.fragmentedPackets ++ [(packet i).fragment j] := by
      rw [storeFragment]
      dsimp only
      rw [hfragments, if_neg (by simpa using hlen)]
    refine h.of_part hj (fun f => ?_) (.inl ⟨rfl, hnew.trans hnone.symm⟩)
    rw [hput, List.mem_append, List.mem_singleton, h.stored]
    constructor
    · rintro (⟨i', k, hk, hnot, rfl⟩ | rfl)
      · refine ⟨i', k, List.mem_cons_of_mem _ hk, ?_, rfl⟩
        by_cases hi : i' = i
        · subst hi
          simp [hnew]
        · rwa [completing_of_ne hi]
      · exact ⟨i, j, List.mem_cons_self, by simp [hnew], rfl⟩
    · rintro ⟨i', k, hk, hnot, rfl⟩
      rcases List.mem_cons.mp hk with heq | hk
      · obtain ⟨rfl, rfl⟩ := Prod.mk.inj heq
        exact .inr rfl
      · refine .inl ⟨i', k, hk, ?_, rfl⟩
        by_cases hi : i' = i
        · subst hi
          simp [hnone]
        · rwa [completing_of_ne hi] at hnot

lemma Gathers.of_queue (h : Gathers packet r) {udp : Udp} {sent : List (Ip × ℕ)}
    {log : List Note} (hfragments : udp.fragmentedPackets = r.udp.fragmentedPackets) :
    Gathers packet { r with udp := udp, sent := sent, log := log } where
  parts := h.parts
  stored := by simpa only [hfragments] using h.stored
  once := h.once
  handed := h.handed
  whole := h.whole

lemma keeps_next (hkey : Function.Injective fun i => (packet i).key)
    (hg : Gathers packet r) (hc : Confirms r) (e : Event ι) (hallowed : Allowed packet r e)
    (hfits : Fits packet r e) :
    Gathers packet (next compressString packet e r) ∧
      Confirms (next compressString packet e r) := by
  cases e with
  | fragment i j =>
    obtain ⟨hcounter, hwaiting⟩ := parseUdpPacket_frame (packet i) r.udp j
    exact ⟨hg.fragment compressString hkey hallowed hfits, hc.of_udp hcounter hwaiting⟩
  | ack c =>
    rw [next]
    cases hdest : r.sent[c - 1]? with
    | none => exact ⟨hg, hc⟩
    | some dest =>
      obtain ⟨ip, port⟩ := dest
      simp only [parseUdpPacket_ackDatagram _ _ _ hfits]
      exact ⟨hg.of_queue rfl, hc.ack hallowed.2 hdest⟩
  | send ip port s lastTime =>
    exact ⟨hg.of_queue rfl, hc.send compressString ip port s lastTime⟩
  | resend lastTime =>
    have hqueue := (resendLoop_spec lastTime r.udp r.udp.waitingForAck []).2.1
    exact ⟨hg.of_queue hqueue, hc.resend lastTime⟩

-- What the transport promises of a run
structure Reliable (packet : ι → Sent) (r : Run ι) : Prop where
  once : (r.handed.map Prod.fst).Nodup
  whole : ∀ h ∈ r.handed, h.2.2 = (packet h.1).parts.flatten
  never : NeverAfter r.log

-- Every run in which all packets are told apart by their address and number
theorem transport_reliable (compressString : Bytes → Bytes) (packet : ι → Sent)
    (hkey : Function.Injective fun i => (packet i).key) {r : Run ι}
    (h : Reach (next compressString packet) (· = Run.initial)
      (fun r e => Allowed packet r e ∧ Fits packet r e) r) :
    Reliable packet r := by
  have hinv : Gathers packet r ∧ Confirms r := by
    refine h.inv (I := fun r => Gathers packet r ∧ Confirms r) ?_ ?_
    · rintro _ rfl
      refine ⟨⟨by simp [Run.initial], by simp [Run.initial, Udp.initial], .nil, ?_, ?_⟩,
        ⟨rfl, ?_, ?_, ?_, trivial⟩⟩
      · simp [Run.initial, completing]
      · simp [Run.initial]
      · simp [Run.initial, Udp.initial]
      · simp [Run.initial]
      · simp [Run.initial]
    · rintro r e ⟨hg, hc⟩ ⟨hallowed, hfits⟩
      exact keeps_next compressString hkey hg hc e hallowed hfits
  exact ⟨hinv.1.once, hinv.1.whole, hinv.2.never⟩

-- A packet in two parts
def twoParts : Sent := ⟨.null, 6346, 7, 2, [[1], [2]], by decide, by decide, by decide⟩

-- The second part comes first, then the first one twice; a packet is sent and acknowledged
def twoPartsRun : Run Unit :=
  [Event.fragment () 1, .fragment () 0, .fragment () 1, .send .null 6346 [0] 5, .ack 1,
    .resend 100].foldl (fun r e => next id (fun _ => twoParts) e r) Run.initial

theorem transport_reliable_twoParts : Reliable (fun _ : Unit => twoParts) twoPartsRun := by
  refine transport_reliable id (fun _ => twoParts) (fun _ _ _ => rfl) ?_
  refine @Reach.step _ _ _ _ _ _ (Event.resend 100) (@Reach.step _ _ _ _ _ _ (Event.ack 1)
    (@Reach.step _ _ _ _ _ _ (Event.send .null 6346 [0] 5)
      (@Reach.step _ _ _ _ _ _ (Event.fragment () 1) (@Reach.step _ _ _ _ _ _ (Event.fragment () 0)
        (@Reach.step _ _ _ _ _ _ (Event.fragment () 1) (.start rfl) ?_) ?_) ?_) ?_) ?_) ?_
  · exact ⟨⟨by decide, .inl (by decide)⟩, by simp [Fits, Run.initial, completing]⟩
  · exact ⟨⟨by decide, .inl (by decide)⟩, show completing _ _ _ ≠ _ by decide⟩
  · exact ⟨⟨by decide, .inl (by decide)⟩, show completing _ _ _ ≠ _ by decide⟩
  · exact ⟨trivial, trivial⟩
  · exact ⟨⟨by decide, by decide⟩, by simp [Fits]⟩
  · exact ⟨trivial, trivial⟩

-- The part that completed the packet comes again, and the packet is handed over again
theorem handed_twice :
    ¬ ∀ (compressString : Bytes → Bytes) (packet : Unit → Sent),
      Function.Injective (fun i => (packet i).key) → ∀ r : Run Unit,
        Reach (next compressString packet) (· = Run.initial) (Allowed packet) r →
          Reliable packet r := by
  intro h
  have hreach : Reach (next id fun _ : Unit => twoParts) (· = Run.initial)
      (Allowed fun _ => twoParts)
      ([Event.fragment () 1, .fragment () 0, .fragment () 0].foldl
        (fun r e => next id (fun _ => twoParts) e r) Run.initial) := by
    refine @Reach.step _ _ _ _ _ _ (Event.fragment () 0) (@Reach.step _ _ _ _ _ _ (Event.fragment () 0)
      (@Reach.step _ _ _ _ _ _ (Event.fragment () 1) (.start rfl) ?_) ?_) ?_
    all_goals exact ⟨by decide, .inl (by decide)⟩
  exact absurd (h id (fun _ => twoParts) (fun _ _ _ => rfl) _ hreach).once (by decide)

end Mldonkey.Gnutella2
