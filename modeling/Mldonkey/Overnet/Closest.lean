import Mldonkey.Overnet.Buckets
import Mathlib

-- Which of the live peers get_closest_peers gives out.
namespace Mldonkey.Overnet.Peers

open Donkey (Ip Md4)

section Found

variable {α : Type} (live : α → Bool)

-- The live ones of some queues, looked for in one queue after the other at no more places than
-- are wanted at that time
def found : ℕ → List (List α) → List α
  | _, [] => []
  | nb, b :: bs => (b.take nb).filter live ++ found (nb - (b.take nb).countP live) bs

-- How many are wanted in vain
def lacking : ℕ → List (List α) → ℕ
  | nb, [] => nb
  | nb, b :: bs => lacking (nb - (b.take nb).countP live) bs

-- No live one has more in front of it in its queue than are wanted there.
def AllInReach (nb : ℕ) (bs : List (List α)) : Prop :=
  ∀ (i : ℕ) (b : List α), bs[i]? = some b →
    ∀ r ∈ b.drop (nb - (bs.take i).flatten.countP live), live r = false

variable {live} {nb : ℕ} {b : List α} {bs : List (List α)}

lemma countP_take_le (b : List α) (nb : ℕ) : (b.take nb).countP live ≤ nb :=
  List.countP_le_length.trans (b.length_take_le nb)

lemma countP_take_eq_iff :
    (b.take nb).countP live = b.countP live ↔ ∀ r ∈ b.drop nb, live r = false := by
  have hsplit : (b.take nb).countP live + (b.drop nb).countP live = b.countP live := by
    rw [← List.countP_append, List.take_append_drop]
  rw [← hsplit, eq_comm, Nat.add_eq_left, List.countP_eq_zero]
  simp only [Bool.not_eq_true]

lemma length_found_cons (nb : ℕ) (b : List α) (bs : List (List α)) :
    (found live nb (b :: bs)).length =
      (b.take nb).countP live + (found live (nb - (b.take nb).countP live) bs).length := by
  rw [found, List.length_append, List.countP_eq_length_filter]

lemma length_found_add_lacking (nb : ℕ) (bs : List (List α)) :
    (found live nb bs).length + lacking live nb bs = nb := by
  induction bs generalizing nb with
  | nil => simp [found, lacking]
  | cons b bs ih =>
    have hle := @countP_take_le α live b nb
    have hrest := ih (nb - (b.take nb).countP live)
    rw [length_found_cons, lacking]
    omega

lemma found_sublist (nb : ℕ) (bs : List (List α)) :
    (found live nb bs).Sublist (bs.flatten.filter live) := by
  induction bs generalizing nb with
  | nil => exact List.Sublist.refl []
  | cons b bs ih =>
    rw [found, List.flatten_cons, List.filter_append]
    exact ((List.take_sublist nb b).filter live).append (ih _)

lemma length_found_le (nb : ℕ) (bs : List (List α)) :
    (found live nb bs).length ≤ bs.flatten.countP live := by
  rw [List.countP_eq_length_filter]
  exact (found_sublist nb bs).length_le

lemma found_zero (bs : List (List α)) : found live 0 bs = [] := by
  have := @length_found_add_lacking α live 0 bs
  exact List.length_eq_zero_iff.mp (by omega)

lemma allInReach_cons : AllInReach live nb (b :: bs) ↔
    (∀ r ∈ b.drop nb, live r = false) ∧ AllInReach live (nb - b.countP live) bs := by
  constructor
  · intro h
    refine ⟨by simpa using h 0 b rfl, fun i b' hi => ?_⟩
    have hnext := h (i + 1) b' (by simpa using hi)
    rwa [List.take_succ_cons, List.flatten_cons, List.countP_append, ← Nat.sub_sub] at hnext
  · rintro ⟨hfirst, hrest⟩ i b' hi
    cases i with
    | zero =>
      obtain rfl : b = b' := by simpa using hi
      simpa using hfirst
    | succ i =>
      rw [List.take_succ_cons, List.flatten_cons, List.countP_append, ← Nat.sub_sub]
      exact hrest i b' (by simpa using hi)

lemma length_found_eq_iff :
    (found live nb bs).length = bs.flatten.countP live ↔ AllInReach live nb bs := by
  induction bs generalizing nb with
  | nil => simp [found, AllInReach]
  | cons b bs ih =>
    rw [length_found_cons, List.flatten_cons, List.countP_append, allInReach_cons,
      ← countP_take_eq_iff, ← ih]
    have hle : (b.take nb).countP live ≤ b.countP live :=
      (List.take_sublist nb b).countP_le
    have hrest := @length_found_le α live (nb - (b.take nb).countP live) bs
    constructor
    · intro h
      have heq : (b.take nb).countP live = b.countP live := by omega
      rw [heq] at h
      exact ⟨heq, by omega⟩
    · rintro ⟨heq, h⟩
      rw [heq, h]

-- The first queue gives all its live ones, or as many as are wanted; the others then find what is
-- still wanted, or have nothing out of reach.
def InReach (live : α → Bool) (nb : ℕ) (own : List α) (others : List (List α)) : Prop :=
  ((∀ r ∈ own.drop nb, live r = false) ∨ ∀ r ∈ own.take nb, live r = true) ∧
    (lacking live (nb - own.countP live) others = 0 ∨
      AllInReach live (nb - own.countP live) others)

lemma found_complete_iff {own : List α} {others : List (List α)}
    (hnodup : (own :: others).flatten.Nodup) :
    (found live nb (own :: others)).length = min nb ((own :: others).flatten.countP live) ∧
        (∀ r ∈ own, live r = true → r ∉ found live nb (own :: others) →
          ∀ r' ∈ found live nb (own :: others), r' ∈ own) ↔
      InReach live nb own others := by
  rw [List.flatten_cons, List.nodup_append] at hnodup
  obtain ⟨hown, -, hdisjoint⟩ := hnodup
  have hrest {w : ℕ} {r : α} (hr : r ∈ found live w others) : r ∈ others.flatten :=
    List.mem_of_mem_filter ((found_sublist w others).mem hr)
  have hlength := @length_found_cons α live nb own others
  have hle := @countP_take_le α live own nb
  have hcount : (own :: others).flatten.countP live =
      own.countP live + others.flatten.countP live := by
    rw [List.flatten_cons, List.countP_append]
  -- what the other queues give when the own one has given all
  have hothers (w : ℕ) : (found live w others).length = min w (others.flatten.countP live) ↔
      lacking live w others = 0 ∨ AllInReach live w others := by
    rw [← length_found_eq_iff]
    have := @length_found_add_lacking α live w others
    have := @length_found_le α live w others
    omega
  rw [InReach, ← hothers, hcount, hlength]
  by_cases hall : ∀ r ∈ own.drop nb, live r = false
  · have heq := countP_take_eq_iff.mpr hall
    have hfirst : ∀ r ∈ own, live r = true → r ∈ found live nb (own :: others) := by
      intro r hr hlive
      rw [found, List.mem_append, List.mem_filter]
      refine .inl ⟨?_, hlive⟩
      rw [← List.take_append_drop nb own, List.mem_append] at hr
      refine hr.resolve_right fun hdrop => ?_
      rw [hall r hdrop] at hlive
      cases hlive
    constructor
    · rintro ⟨h, -⟩
      rw [heq] at h hle
      exact ⟨.inl hall, by omega⟩
    · rintro ⟨-, h⟩
      rw [heq] at hle ⊢
      exact ⟨by omega, fun r hr hlive hnot => absurd (hfirst r hr hlive) hnot⟩
  · obtain ⟨r, hr, hlive⟩ : ∃ r ∈ own.drop nb, live r = true := by simpa using hall
    have hlt : (own.take nb).countP live < own.countP live := by
      refine lt_of_le_of_ne (List.take_sublist nb own).countP_le fun heq => hall ?_
      exact countP_take_eq_iff.mp heq
    have hnb : nb < own.length := by
      have := List.length_pos_of_mem hr
      rw [List.length_drop] at this
      omega
    have htake : (own.take nb).countP live = nb ↔ ∀ r ∈ own.take nb, live r = true := by
      have hlen : (own.take nb).length = nb := by rw [List.length_take]; omega
      rw [← List.countP_eq_length, hlen]
    -- a live one is out of reach, so that nothing may come from another queue
    have hout : r ∉ found live nb (own :: others) := by
      rw [found, List.mem_append, not_or]
      constructor
      · intro h
        have htaken := (List.mem_filter.mp h).1
        rw [← List.take_append_drop nb own, List.nodup_append] at hown
        exact hown.2.2 r htaken r hr rfl
      · exact fun h => hdisjoint r (List.mem_of_mem_drop hr) r (hrest h) rfl
    constructor
    · rintro ⟨h, hfirst⟩
      have hnone : found live (nb - (own.take nb).countP live) others = [] := by
        refine List.eq_nil_iff_forall_not_mem.mpr fun r' hr' => ?_
        have hmem : r' ∈ own := hfirst r (List.mem_of_mem_drop hr) hlive hout r' (by
          rw [found]
          exact List.mem_append_right _ hr')
        exact hdisjoint r' hmem r' (hrest hr') rfl
      rw [hnone, List.length_nil] at h
      have hfull : (own.take nb).countP live = nb := by omega
      have hzero : nb - own.countP live = 0 := by omega
      refine ⟨.inr (htake.mp hfull), ?_⟩
      rw [hzero, found_zero]
      simp
    · rintro ⟨h, -⟩
      have hfull := htake.mpr (h.resolve_left hall)
      have hzero : nb - (own.take nb).countP live = 0 := by omega
      rw [hzero, found_zero, List.length_nil]
      refine ⟨by omega, fun _ _ _ _ r' hr' => ?_⟩
      rw [found, hzero, found_zero, List.append_nil, List.mem_filter] at hr'
      exact List.mem_of_mem_take hr'.1

end Found

section Turns

variable {want : Peer → Bool} {s : State} {list : List ℕ} {i : ℕ}

-- The bucket is rotated past the peers that are looked at.
def State.turned (s : State) (i n : ℕ) : State :=
  { s with buckets := Function.update s.buckets i ((s.buckets i).rotate n) }

lemma addListTurns_eq (n : ℕ) (nb : ℤ) (hn : n ≤ (s.buckets i).length) :
    State.addListTurns want i n (s, nb, list) =
      (s.turned i n, nb - ((s.buckets i).take n).countP (fun r => want (s.heap r)),
        (((s.buckets i).take n).filter fun r => want (s.heap r)).reverse ++ list) := by
  induction n generalizing s nb list with
  | zero => simp [State.addListTurns, State.turned]
  | succ n ih =>
    cases hb : s.buckets i with
    | nil => simp [hb] at hn
    | cons p b =>
      have hlen : n ≤ b.length := by
        rw [hb, List.length_cons] at hn
        omega
      -- the queue after this turn
      set next : State := State.putBucket { s with buckets := Function.update s.buckets i b } i p
        with hnext
      have hqueue : next.buckets i = b ++ [p] := by simp [hnext, State.putBucket]
      have hheap : next.heap = s.heap := rfl
      have htake : (next.buckets i).take n = b.take n := by
        rw [hqueue, List.take_append_of_le_length hlen]
      have hturned : next.turned i n = s.turned i (n + 1) := by
        have hrotate : (p :: b).rotate (n + 1) = (b ++ [p]).rotate n := List.rotate_cons_succ b p n
        rw [State.turned, State.turned, hqueue, hb, hrotate, hnext]
        simp only [State.putBucket, Function.update_idem]
      have hrest (nb : ℤ) (list : List ℕ) := @ih next list nb (by
        rw [hqueue, List.length_append]
        omega)
      simp only [htake, hturned, hheap] at hrest
      rw [State.addListTurns, hb]
      dsimp only
      rw [← hnext, hheap, List.take_succ_cons, List.countP_cons, List.filter_cons]
      split_ifs with hwant
      · rw [hrest]
        simp only [Nat.cast_add, Nat.cast_one, List.reverse_cons, List.append_assoc,
          List.cons_append, List.nil_append, Prod.mk.injEq, true_and, and_true]
        omega
      · rw [hrest, add_zero]

lemma addList_eq (nb : ℕ) :
    State.addList want (s, (nb : ℤ), list) i =
      (s.turned i (min nb (s.buckets i).length),
        ((nb - ((s.buckets i).take nb).countP (fun r => want (s.heap r)) : ℕ) : ℤ),
        (((s.buckets i).take nb).filter fun r => want (s.heap r)).reverse ++ list) := by
  have hmin : (min (nb : ℤ) ((s.buckets i).length : ℤ)).toNat = min nb (s.buckets i).length := by
    omega
  have htake : (s.buckets i).take (min nb (s.buckets i).length) = (s.buckets i).take nb :=
    List.take_eq_take_min.symm
  have hle := @countP_take_le ℕ (fun r => want (s.heap r)) (s.buckets i) nb
  rw [State.addList, hmin, addListTurns_eq _ _ (min_le_right _ _), htake]
  simp only [Nat.cast_sub hle]

lemma foldl_addList (is : List ℕ) (his : is.Nodup) (nb : ℕ) :
    ∃ s' : State, s' = { s with buckets := s'.buckets } ∧
      (∀ j, s'.buckets j ~r s.buckets j) ∧ (∀ j ∉ is, s'.buckets j = s.buckets j) ∧
      is.foldl (State.addList want) (s, (nb : ℤ), list) =
        (s', (lacking (fun r => want (s.heap r)) nb (is.map s.buckets) : ℤ),
          (found (fun r => want (s.heap r)) nb (is.map s.buckets)).reverse ++ list) := by
  induction is generalizing s nb list with
  | nil => exact ⟨s, rfl, fun _ => List.IsRotated.refl _, fun _ _ => rfl, by simp [found, lacking]⟩
  | cons i is ih =>
    obtain ⟨hi, his⟩ := List.nodup_cons.mp his
    rw [List.foldl_cons, addList_eq]
    set t := s.turned i (min nb (s.buckets i).length) with ht
    have hother : ∀ j, j ≠ i → t.buckets j = s.buckets j := fun j hj => by
      simp [ht, State.turned, hj]
    have hown : t.buckets i ~r s.buckets i := by
      simp only [ht, State.turned, Function.update_self]
      exact List.IsRotated.symm ⟨_, rfl⟩
    have hmap : is.map t.buckets = is.map s.buckets :=
      List.map_congr_left fun j hj => hother j (ne_of_mem_of_not_mem hj hi)
    obtain ⟨s', hs', hrot, hsame, heq⟩ := @ih t
      ((((s.buckets i).take nb).filter fun r => want (s.heap r)).reverse ++ list) his
      (nb - ((s.buckets i).take nb).countP (fun r => want (s.heap r)))
    have hheap : t.heap = s.heap := rfl
    refine ⟨s', hs', fun j => (hrot j).trans ?_, fun j hj => ?_, ?_⟩
    · by_cases hj : j = i
      · rw [hj]
        exact hown
      · rw [hother j hj]
    · rw [List.mem_cons, not_or] at hj
      rw [hsame j hj.2, hother j hj.1]
    · rw [heq, hheap, hmap, List.map_cons, lacking, found, List.reverse_append, List.append_assoc]

end Turns

namespace State

variable (now : ℤ) (s : State)

-- The bucket of the target
def ownBucket (md4 : Md4) : ℕ := min s.nUsedBuckets (s.bucketNumber md4)

-- The other buckets in the order of the loops
def otherBuckets (md4 : Md4) : List ℕ :=
  List.range' (s.ownBucket md4 + 1) (s.nUsedBuckets - s.ownBucket md4) ++
    (List.range (s.ownBucket md4)).reverse

def live (r : ℕ) : Bool := wanted now (s.heap r)

-- The peers in the buckets that are used
def inUse : List ℕ := (List.range (s.nUsedBuckets + 1)).flatMap s.buckets

end State

variable {s : State} {now : ℤ} {md4 : Md4}

lemma visited_perm (s : State) (md4 : Md4) :
    (s.ownBucket md4 :: s.otherBuckets md4).Perm (List.range (s.nUsedBuckets + 1)) := by
  have hle : s.ownBucket md4 ≤ s.nUsedBuckets := min_le_left _ _
  have hsplit : List.range (s.nUsedBuckets + 1) = List.range (s.ownBucket md4) ++
      s.ownBucket md4 ::
        List.range' (s.ownBucket md4 + 1) (s.nUsedBuckets - s.ownBucket md4) := by
    have hlen : s.nUsedBuckets + 1 =
        s.ownBucket md4 + (s.nUsedBuckets - s.ownBucket md4 + 1) := by omega
    conv_lhs => rw [List.range_eq_range', hlen, ← List.range'_append_1, zero_add,
      List.range'_succ, ← List.range_eq_range']
  rw [hsplit, State.otherBuckets]
  refine List.Perm.trans ?_ List.perm_middle.symm
  refine List.Perm.cons _ (List.perm_append_comm.trans ?_)
  exact (List.reverse_perm _).append_right _

-- One loop over all the buckets gives the same as the three of the code.
lemma getClosestPeers_eq (s : State) (now : ℤ) (md4 : Md4) (nb : ℕ) :
    ∃ s' : State, s' = { s with buckets := s'.buckets } ∧ (∀ i, s'.buckets i ~r s.buckets i) ∧
      s.getClosestPeers now md4 nb =
        (s', (found (s.live now) nb
          ((s.ownBucket md4 :: s.otherBuckets md4).map s.buckets)).reverse) := by
  have hnodup : (s.ownBucket md4 :: s.otherBuckets md4).Nodup :=
    (visited_perm s md4).nodup_iff.mpr List.nodup_range
  have hlive : (fun r => State.wanted now (s.heap r)) = s.live now := rfl
  obtain ⟨s₁, hs₁, hrot₁, -, heq₁⟩ := @foldl_addList (State.wanted now) s []
    [s.ownBucket md4] (List.nodup_singleton _) nb
  obtain ⟨s₂, hs₂, hrot₂, -, heq₂⟩ := @foldl_addList (State.wanted now) s []
    (s.ownBucket md4 :: s.otherBuckets md4) hnodup nb
  rw [List.foldl_cons, List.foldl_nil, List.append_nil, hlive] at heq₁
  rw [List.foldl_cons, State.otherBuckets, List.foldl_append, ← State.otherBuckets, hlive,
    List.append_nil, heq₁] at heq₂
  simp only [State.getClosestPeers]
  rw [show min s.nUsedBuckets (s.bucketNumber md4) = s.ownBucket md4 from rfl, heq₁]
  dsimp only
  split_ifs with hpos
  · rw [heq₂]
    exact ⟨s₂, hs₂, hrot₂, rfl⟩
  · -- nothing is wanted any more
    refine ⟨s₁, hs₁, hrot₁, ?_⟩
    simp only [List.map_cons, List.map_nil, lacking, found, List.append_nil] at hpos ⊢
    have hzero : nb - ((s.buckets (s.ownBucket md4)).take nb).countP (s.live now) = 0 := by omega
    rw [hzero, found_zero, List.append_nil]

-- What a caller expects of the peers that are given out for a target
structure Closest (s : State) (now : ℤ) (md4 : Md4) (nb : ℕ) (out : State × List ℕ) : Prop where
  count : out.2.length = min nb (s.inUse.countP (s.live now))
  once : out.2.Nodup
  live : ∀ r ∈ out.2, r ∈ s.inUse ∧ (s.heap r).peerKind < 3 ∧ now < (s.heap r).peerExpire
  ownFirst : ∀ r ∈ s.buckets (s.ownBucket md4), s.live now r = true → r ∉ out.2 →
    ∀ r' ∈ out.2, r' ∈ s.buckets (s.ownBucket md4)
  rotated : ∀ i, out.1.buckets i ~r s.buckets i
  rest : out.1 = { s with buckets := out.1.buckets }

-- Nobody is missed exactly when dead peers do not use up the places that are looked at.
theorem closest_peers_iff (s : State) (now : ℤ) (md4 : Md4) (nb : ℕ) (hnodup : s.inUse.Nodup) :
    Closest s now md4 nb (s.getClosestPeers now md4 nb) ↔
      InReach (s.live now) nb (s.buckets (s.ownBucket md4))
        ((s.otherBuckets md4).map s.buckets) := by
  obtain ⟨s', hs', hrot, heq⟩ := getClosestPeers_eq s now md4 nb
  have hperm : (s.buckets (s.ownBucket md4) :: (s.otherBuckets md4).map s.buckets).flatten.Perm
      s.inUse := by
    rw [← List.map_cons, ← List.flatMap_def]
    exact (visited_perm s md4).flatMap_right _
  have hcount := hperm.countP_eq (s.live now)
  have hcomplete := @found_complete_iff ℕ (s.live now) nb _ _
    (hperm.nodup_iff.mpr hnodup)
  have hsub := @found_sublist ℕ (s.live now) nb
    (s.buckets (s.ownBucket md4) :: (s.otherBuckets md4).map s.buckets)
  rw [heq, List.map_cons, ← hcomplete, hcount]
  constructor
  · intro h
    have hlength := h.count
    rw [List.length_reverse] at hlength
    refine ⟨hlength, fun r hr hlive hnot r' hr' => ?_⟩
    exact h.ownFirst r hr hlive (by rwa [List.mem_reverse]) r' (List.mem_reverse.mpr hr')
  · rintro ⟨hlength, hfirst⟩
    refine ⟨by rwa [List.length_reverse], ?_, fun r hr => ?_, fun r hr hlive hnot r' hr' => ?_,
      hrot, hs'⟩
    · rw [List.nodup_reverse]
      exact hsub.nodup ((hperm.nodup_iff.mpr hnodup).filter _)
    · obtain ⟨hmem, hlive⟩ := List.mem_filter.mp (hsub.mem (List.mem_reverse.mp hr))
      refine ⟨hperm.mem_iff.mp hmem, ?_⟩
      simpa [State.live, State.wanted] using hlive
    · rw [List.mem_reverse] at hnot hr'
      exact hfirst r hr hlive hnot r' hr'

section TwoPeers

lemma length_target : ((0x80 : UInt8) :: List.replicate 15 0).length = 16 := rfl

def target : Md4 := ⟨0x80 :: List.replicate 15 0, length_target⟩

-- Peer 0 has not answered to the last ping, all others have.
def twoPeers (queue : List ℕ) : State where
  overnetMd4 := nullMd4
  checkingKindTimeout := 120
  heap r := {
    peerMd4 := target
    peerIp := ⟨256, 1⟩
    peerPort := r + 1
    peerCountryCode := none
    peerKind := if r = 0 then 3 else 2
    peerExpire := 3600
    peerLastSend := 0
    peerCreated := 1 }
  knownPeers := queue
  buckets i := if i = 0 then queue else []
  prebuckets _ := []
  nUsedBuckets := 42
  connectedPeers := queue.length
  preConnectedPeers := 0

theorem closest_peers_iff_two : (twoPeers [1, 0]).inUse.Nodup ∧
    Closest (twoPeers [1, 0]) 100 target 1 ((twoPeers [1, 0]).getClosestPeers 100 target 1) :=
  ⟨by decide, (closest_peers_iff (twoPeers [1, 0]) 100 target 1 (by decide)).mpr
    ⟨.inr (by decide), .inl (by decide)⟩⟩

-- One peer is wanted, and only the first one is looked at.
theorem closest_peers_missed : ((twoPeers [0, 1]).getClosestPeers 100 target 1).2 = [] ∧
    ¬ Closest (twoPeers [0, 1]) 100 target 1 ((twoPeers [0, 1]).getClosestPeers 100 target 1) := by
  have hnone : ((twoPeers [0, 1]).getClosestPeers 100 target 1).2 = [] := by decide +kernel
  refine ⟨hnone, fun h => ?_⟩
  have hcount := h.count
  rw [hnone] at hcount
  exact absurd hcount (by decide)

end TwoPeers

end Mldonkey.Overnet.Peers
