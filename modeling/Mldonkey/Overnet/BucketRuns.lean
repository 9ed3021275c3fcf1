import Mldonkey.Overnet.Buckets
import Mldonkey.Lib.Runs
import Mathlib

-- What the peer buckets of an Overnet node keep over its runs.
namespace Mldonkey.Overnet.Peers

open Donkey (Ip Md4)
open Runs (Reach)

variable {w : Outside} {now : ℤ} {s s' : State}

section CommonBits

lemma iterBit_le (nbits : ℕ) (c : UInt8) (n : ℕ) : iterBit nbits c n ≤ nbits + n := by
  induction n generalizing nbits c with
  | zero => exact le_rfl
  | succ n ih =>
    rw [iterBit]
    split
    · omega
    · have := ih (nbits + 1) (c <<< 1)
      omega

lemma commonBitsFrom_le (i : ℕ) (m : List UInt8) (h : i + m.length ≤ 16) :
    commonBitsFrom i m ≤ 128 := by
  induction m generalizing i with
  | nil => exact le_rfl
  | cons c m ih =>
    rw [List.length_cons] at h
    rw [commonBitsFrom]
    split
    · exact ih (i + 1) (by omega)
    · have := iterBit_le (i * 8) c 8
      omega

lemma commonBits_le (m1 m2 : Md4) : commonBits m1 m2 ≤ 128 := by
  apply commonBitsFrom_le
  rw [List.length_zipWith, m1.length_bytes]
  omega

lemma commonBits_self (m : Md4) : commonBits m m = 128 := by
  have hzero (bytes : List UInt8) (i : ℕ) :
      commonBitsFrom i (List.zipWith (· ^^^ ·) bytes bytes) = 128 := by
    induction bytes generalizing i with
    | nil => rfl
    | cons c bytes ih =>
      rw [List.zipWith_cons_cons, commonBitsFrom, if_pos UInt8.xor_self]
      exact ih (i + 1)
  exact hzero m.bytes 0

end CommonBits

section Total

-- All that is in 129 queues
def total (f : ℕ → List ℕ) : Multiset ℕ := ∑ i ∈ Finset.range 129, (f i : Multiset ℕ)

variable {f : ℕ → List ℕ} {i r : ℕ} {l : List ℕ}

lemma total_update (hi : i ≤ 128) : total (Function.update f i l) + f i = total f + l := by
  have hmem : i ∈ Finset.range 129 := Finset.mem_range.mpr (by omega)
  have hrest : ∑ j ∈ (Finset.range 129).erase i, (Function.update f i l j : Multiset ℕ) =
      ∑ j ∈ (Finset.range 129).erase i, (f j : Multiset ℕ) :=
    Finset.sum_congr rfl fun j hj => by rw [Function.update_of_ne (Finset.ne_of_mem_erase hj)]
  rw [total, total, ← Finset.add_sum_erase _ _ hmem, ← Finset.add_sum_erase _ _ hmem, hrest,
    Function.update_self]
  abel

lemma mem_total : r ∈ total f ↔ ∃ i ≤ 128, r ∈ f i := by
  rw [total, Multiset.mem_sum]
  simp only [Finset.mem_range, Multiset.mem_coe, Nat.lt_succ_iff]

lemma total_nil : total (fun _ => []) = 0 := by
  rw [total]
  exact Finset.sum_eq_zero fun _ _ => rfl

lemma card_total_update (hi : i ≤ 128) :
    (total (Function.update f i l)).card + (f i).length = (total f).card + l.length := by
  have := congrArg Multiset.card (@total_update f i l hi)
  rwa [Multiset.card_add, Multiset.card_add, Multiset.coe_card, Multiset.coe_card] at this

lemma total_move {n : ℕ} (hn : n ≤ 128) (hi : i ≤ 128) (h : i = n ∨ f i = []) :
    total (Function.update (Function.update f n []) i (f n)) = total f := by
  by_cases hni : i = n
  · rw [hni, Function.update_idem, Function.update_eq_self]
  · have hfirst := @total_update f n [] hn
    have hsecond := @total_update (Function.update f n []) i (f n) hi
    rw [Function.update_of_ne hni, h.resolve_left hni] at hsecond
    simp only [Multiset.coe_nil, add_zero] at hfirst hsecond
    rw [hsecond, hfirst]

-- The sum is too long to be evaluated.
attribute [irreducible] total

end Total

-- The peers that the node keeps
def State.contents (s : State) : Multiset ℕ := total s.buckets + total s.prebuckets

-- What holds in every run. The references are in the set of known peers as long as a queue has
-- them, and no two of the known peers have one address.
structure Consistent (s : State) : Prop where
  connected : s.connectedPeers = (total s.buckets).card
  preConnected : s.preConnectedPeers = (total s.prebuckets).card
  bucket_le : ∀ i, (s.buckets i).length ≤ maxPeersPerBucket
  prebucket_le : ∀ i, (s.prebuckets i).length ≤ maxPeersPerPrebucket
  used_le : s.nUsedBuckets ≤ 128
  unused : ∀ i, s.nUsedBuckets < i → s.buckets i = [] ∧ s.prebuckets i = []
  once : s.contents.Nodup
  known : ∀ r ∈ s.contents, r ∈ s.knownPeers
  addresses : (s.knownPeers.map fun r => (s.heap r).address).Nodup
  notSelf : ∀ r ∈ s.contents, s.bucketNumber (s.heap r).peerMd4 ≠ 128

-- The last prebucket takes one more peer.
def State.Open (s : State) : Prop :=
  s.nUsedBuckets < 128 → (s.prebuckets s.nUsedBuckets).length < maxPeersPerPrebucket

-- Every peer is where its id belongs.
def State.Indexed (s : State) : Prop :=
  ∀ i, ∀ r ∈ s.buckets i ++ s.prebuckets i,
    i = min (s.bucketNumber (s.heap r).peerMd4) s.nUsedBuckets

section Heap

-- The two states differ in what may change in the peers.
structure SameIds (s s' : State) : Prop where
  rest : s' = { s with heap := s'.heap }
  address : ∀ r, (s'.heap r).address = (s.heap r).address
  peerMd4 : ∀ r, (s'.heap r).peerMd4 = (s.heap r).peerMd4

lemma SameIds.refl (s : State) : SameIds s s := ⟨rfl, fun _ => rfl, fun _ => rfl⟩

lemma sameIds_setPeer {r : ℕ} {p : Peer} (ha : p.address = (s.heap r).address)
    (hm : p.peerMd4 = (s.heap r).peerMd4) : SameIds s (s.setPeer r p) where
  rest := rfl
  address k := by
    by_cases hk : k = r
    · subst hk
      simpa only [State.setPeer, Function.update_self] using ha
    · simp only [State.setPeer, Function.update_of_ne hk]
  peerMd4 k := by
    by_cases hk : k = r
    · subst hk
      simpa only [State.setPeer, Function.update_self] using hm
    · simp only [State.setPeer, Function.update_of_ne hk]

lemma SameIds.consistent (e : SameIds s s') (h : Consistent s) : Consistent s' := by
  obtain ⟨heap, hs⟩ : ∃ heap, s' = { s with heap := heap } := ⟨_, e.rest⟩
  have hcontents : s'.contents = s.contents := by rw [hs, State.contents, State.contents]
  subst hs
  refine ⟨h.connected, h.preConnected, h.bucket_le, h.prebucket_le, h.used_le, h.unused,
    ?_, ?_, ?_, ?_⟩
  · rw [hcontents]
    exact h.once
  · rw [hcontents]
    exact h.known
  · simpa only [e.address] using h.addresses
  · intro r hr
    rw [e.peerMd4]
    rw [hcontents] at hr
    exact h.notSelf r hr

lemma SameIds.isOpen (e : SameIds s s') (h : s.Open) : s'.Open := by
  rw [e.rest]
  exact h

lemma SameIds.indexed (e : SameIds s s') (h : s.Indexed) : s'.Indexed := by
  obtain ⟨heap, hs⟩ : ∃ heap, s' = { s with heap := heap } := ⟨_, e.rest⟩
  subst hs
  intro i r hr
  rw [e.peerMd4]
  exact h i r hr

lemma checkingKind_sameIds (s : State) (r : ℕ) : SameIds s (s.checkingKind now r) := by
  simp only [State.checkingKind]
  split
  · exact SameIds.refl s
  · exact sameIds_setPeer rfl rfl

lemma newPeerMessage_sameIds (s : State) (r : ℕ) : SameIds s (s.newPeerMessage now r) := by
  simp only [State.newPeerMessage]
  split
  · exact sameIds_setPeer rfl rfl
  · split <;> exact sameIds_setPeer rfl rfl

lemma udpSend_sameIds (s : State) (r : ℕ) : SameIds s (s.udpSend now r) :=
  sameIds_setPeer rfl rfl

lemma checkPeerCountryCode_sameIds (s : State) (r : ℕ) :
    SameIds s (s.checkPeerCountryCode w r) := by
  simp only [State.checkPeerCountryCode]
  split
  · exact sameIds_setPeer rfl rfl
  · exact SameIds.refl s

end Heap

section Sift

variable {known drops : List ℕ} {heap : ℕ → Peer} {r i : ℕ} {b pb : List ℕ} {m : Multiset ℕ}

def forgetAll (heap : ℕ → Peer) (drops known : List ℕ) : List ℕ :=
  drops.foldl (fun known d => known.eraseP fun k => (heap k).address = (heap d).address) known

lemma forgetAll_sublist (drops known : List ℕ) : (forgetAll heap drops known).Sublist known := by
  induction drops generalizing known with
  | nil => exact List.Sublist.refl known
  | cons d drops ih => exact (ih _).trans List.eraseP_sublist

lemma mem_forgetAll (hr : r ∈ known)
    (h : ∀ d ∈ drops, (heap r).address ≠ (heap d).address) : r ∈ forgetAll heap drops known := by
  induction drops generalizing known with
  | nil => exact hr
  | cons d drops ih =>
    refine ih ?_ fun d' hd' => h d' (List.mem_cons_of_mem d hd')
    refine (List.mem_eraseP_of_neg ?_).mpr hr
    simpa using h d List.mem_cons_self

-- The queues of one index get new contents, and some peers are forgotten.
def State.sift (s : State) (i : ℕ) (b pb drops : List ℕ) : State :=
  { s with
    buckets := Function.update s.buckets i b
    prebuckets := Function.update s.prebuckets i pb
    knownPeers := forgetAll s.heap drops s.knownPeers
    connectedPeers := s.connectedPeers + b.length - (s.buckets i).length
    preConnectedPeers := s.preConnectedPeers + pb.length - (s.prebuckets i).length }

lemma contents_sift (hi : i ≤ 128) :
    (s.sift i b pb drops).contents + (s.buckets i + s.prebuckets i) =
      s.contents + (b + pb) := by
  have hb := @total_update s.buckets i b hi
  have hpb := @total_update s.prebuckets i pb hi
  calc (s.sift i b pb drops).contents + (s.buckets i + s.prebuckets i)
      = (total (Function.update s.buckets i b) + s.buckets i) +
          (total (Function.update s.prebuckets i pb) + s.prebuckets i) := by
        rw [State.contents, State.sift]
        abel
    _ = s.contents + (b + pb) := by
        rw [hb, hpb, State.contents]
        abel

lemma Consistent.sift_le (h : Consistent s) (hi : i ≤ s.nUsedBuckets)
    (hle : (b + pb + drops : Multiset ℕ) ≤ m + (s.buckets i + s.prebuckets i)) :
    (s.sift i b pb drops).contents + drops ≤ m + s.contents := by
  have hc := @contents_sift s drops i b pb (hi.trans h.used_le)
  refine le_of_add_le_add_right (a := (s.buckets i + s.prebuckets i : Multiset ℕ)) ?_
  calc (s.sift i b pb drops).contents + drops + (s.buckets i + s.prebuckets i)
      = s.contents + (b + pb + drops) := by
        rw [add_right_comm, hc]
        abel
    _ ≤ s.contents + (m + (s.buckets i + s.prebuckets i)) := by gcongr
    _ = m + s.contents + (s.buckets i + s.prebuckets i) := by abel

lemma length_update_le (f : ℕ → List ℕ) {n : ℕ} {l : List ℕ} (hf : ∀ j, (f j).length ≤ n)
    (hl : l.length ≤ n) (j : ℕ) : (Function.update f i l j).length ≤ n := by
  rw [Function.update_apply]
  split
  · exact hl
  · exact hf j

-- What is left of the contents and what is new are known, whatever is forgotten.
lemma Consistent.sift (h : Consistent s) (hi : i ≤ s.nUsedBuckets)
    (hb : b.length ≤ maxPeersPerBucket) (hpb : pb.length ≤ maxPeersPerPrebucket)
    (hle : (b + pb + drops : Multiset ℕ) ≤ m + (s.buckets i + s.prebuckets i))
    (honce : (m + s.contents).Nodup)
    (hnew : ∀ r ∈ m, r ∈ s.knownPeers ∧ s.bucketNumber (s.heap r).peerMd4 ≠ 128) :
    Consistent (s.sift i b pb drops) := by
  have hi' : i ≤ 128 := hi.trans h.used_le
  have hall := h.sift_le hi hle
  have hsub : (s.sift i b pb drops).contents ≤ m + s.contents :=
    (Multiset.le_add_right _ _).trans hall
  have hnodup := Multiset.nodup_of_le hall honce
  have hmem : ∀ r ∈ m + s.contents,
      r ∈ s.knownPeers ∧ s.bucketNumber (s.heap r).peerMd4 ≠ 128 := by
    intro r hr
    rcases Multiset.mem_add.mp hr with hr | hr
    · exact hnew r hr
    · exact ⟨h.known r hr, h.notSelf r hr⟩
  refine ⟨?_, ?_, length_update_le _ h.bucket_le hb, length_update_le _ h.prebucket_le hpb,
    h.used_le, ?_, Multiset.nodup_of_le hsub honce, ?_, ?_, ?_⟩
  · have hcard := @card_total_update s.buckets i b hi'
    have hcount := h.connected
    simp only [State.sift]
    omega
  · have hcard := @card_total_update s.prebuckets i pb hi'
    have hcount := h.preConnected
    simp only [State.sift]
    omega
  · intro j hj
    have hji : j ≠ i := (hi.trans_lt hj).ne'
    simpa only [State.sift, Function.update_of_ne hji] using h.unused j hj
  · intro r hr
    refine mem_forgetAll (hmem r (Multiset.mem_of_le hsub hr)).1 fun d hd heq => ?_
    -- Two known peers with one address are the same one.
    have hd' : d ∈ s.knownPeers :=
      (hmem d (Multiset.mem_of_le hall (Multiset.mem_add.mpr (.inr hd)))).1
    have hrd : r = d := List.inj_on_of_nodup_map h.addresses
      (hmem r (Multiset.mem_of_le hsub hr)).1 hd' heq
    exact Multiset.disjoint_left.mp (Multiset.nodup_add.mp hnodup).2.2 hr (hrd ▸ hd)
  · exact h.addresses.sublist ((forgetAll_sublist _ _).map _)
  · exact fun r hr => (hmem r (Multiset.mem_of_le hsub hr)).2

lemma isOpen_sift (h : s.Open) (hpb : i = s.nUsedBuckets → pb.length ≤ (s.prebuckets i).length) :
    (s.sift i b pb drops).Open := by
  intro hused
  simp only [State.sift] at hused ⊢
  rw [Function.update_apply]
  split
  case isTrue hlast =>
    have := h hused
    have := hpb hlast.symm
    rw [← hlast] at this
    omega
  case isFalse => exact h hused

lemma indexed_sift (h : s.Indexed)
    (hi : ∀ r ∈ b ++ pb, i = min (s.bucketNumber (s.heap r).peerMd4) s.nUsedBuckets) :
    (s.sift i b pb drops).Indexed := by
  intro j r hr
  simp only [State.sift, Function.update_apply] at hr
  by_cases hj : j = i
  · subst hj
    rw [if_pos rfl, if_pos rfl] at hr
    exact hi r hr
  · rw [if_neg hj, if_neg hj] at hr
    exact h j r hr

end Sift

-- The invariant. Where the peers are is only claimed if `fit` holds.
structure Inv (fit : Prop) (n : ℕ) (s : State) : Prop where
  consistent : Consistent s
  isOpen : s.Open
  indexed : fit → s.Indexed
  used : s.nUsedBuckets = n

section Loops

variable {fit : Prop} {n i : ℕ} {b pb drops : List ℕ}

lemma SameIds.inv (e : SameIds s s') (h : Inv fit n s) : Inv fit n s' := by
  refine ⟨e.consistent h.consistent, e.isOpen h.isOpen, fun hfit => e.indexed (h.indexed hfit), ?_⟩
  rw [e.rest]
  exact h.used

-- No peer is new, and none changes its index.
lemma Inv.sift (h : Inv fit n s) (hi : i ≤ n) (hb : b.length ≤ maxPeersPerBucket)
    (hpb : pb.length ≤ (s.prebuckets i).length)
    (hle : (b + pb + drops : Multiset ℕ) ≤ s.buckets i + s.prebuckets i) :
    Inv fit n (s.sift i b pb drops) := by
  have hi' : i ≤ s.nUsedBuckets := h.used.symm ▸ hi
  refine ⟨?_, isOpen_sift h.isOpen fun _ => hpb, fun hfit => ?_, h.used⟩
  · refine h.consistent.sift (m := 0) hi' hb (hpb.trans (h.consistent.prebucket_le i)) ?_ ?_ ?_
    · rwa [zero_add]
    · rw [zero_add]
      exact h.consistent.once
    · exact fun r hr => absurd hr (Multiset.notMem_zero r)
  · refine indexed_sift (h.indexed hfit) fun r hr => h.indexed hfit i r ?_
    have hr' : r ∈ (b + pb + drops : Multiset ℕ) := by simpa [or_assoc] using Or.inl hr
    simpa using Multiset.mem_of_le hle hr'

-- The loop of add_list turns the queue around.
lemma addListTurns_turned (want : Peer → Bool) (found : State × ℤ × List ℕ) (turns : ℕ) :
    ∃ b : List ℕ, b.Perm (found.1.buckets i) ∧ (State.addListTurns want i turns found).1 =
      { found.1 with buckets := Function.update found.1.buckets i b } := by
  obtain ⟨s, nb, list⟩ := found
  induction turns generalizing s nb list with
  | zero => exact ⟨s.buckets i, List.Perm.refl _, by rw [Function.update_eq_self]; rfl⟩
  | succ turns ih =>
    rw [State.addListTurns]
    cases hb : s.buckets i with
    | nil => exact ⟨[], hb ▸ List.Perm.refl _, by simp [← hb]⟩
    | cons p b =>
      dsimp only
      -- the queue after this turn
      set turned : State := State.putBucket { s with buckets := Function.update s.buckets i b } i p
        with hturned
      have hqueue : turned.buckets = Function.update s.buckets i (b ++ [p]) := by
        rw [hturned]
        simp only [State.putBucket, Function.update_self, Function.update_idem]
      obtain ⟨b', hb', hs'⟩ : ∃ b' : List ℕ, b'.Perm (turned.buckets i) ∧
          (State.addListTurns want i turns
            (if want (turned.heap p) then (turned, nb - 1, p :: list)
              else (turned, nb, list))).1 =
            { turned with buckets := Function.update turned.buckets i b' } := by
        split
        · exact ih turned (nb - 1) (p :: list)
        · exact ih turned nb list
      refine ⟨b', ?_, ?_⟩
      · rw [hqueue, Function.update_self] at hb'
        exact hb'.trans (List.perm_append_singleton p b)
      · rw [hs', hqueue, Function.update_idem, hturned]
        rfl

lemma Inv.addList (want : Peer → Bool) {found : State × ℤ × List ℕ} (h : Inv fit n found.1)
    (hi : i ≤ n) : Inv fit n (State.addList want found i).1 := by
  obtain ⟨b, hb, hs⟩ := addListTurns_turned (i := i) want found
    (min found.2.1 (found.1.buckets i).length).toNat
  have hsift : (State.addList want found i).1 = found.1.sift i b (found.1.prebuckets i) [] := by
    rw [State.addList, hs, State.sift, Function.update_eq_self, hb.length_eq, add_sub_cancel_right,
      add_sub_cancel_right]
    rfl
  rw [hsift]
  refine h.sift hi (hb.length_eq ▸ h.consistent.bucket_le i) le_rfl ?_
  rw [Multiset.coe_eq_coe.mpr hb, Multiset.coe_nil, add_zero]

lemma Inv.getClosestPeers (h : Inv fit n s) (md4 : Md4) (nb : ℤ) :
    Inv fit n (s.getClosestPeers now md4 nb).1 := by
  have hused := h.used
  simp only [State.getClosestPeers]
  have hfirst : Inv fit n (State.addList (State.wanted now) (s, nb, [])
      (min s.nUsedBuckets (s.bucketNumber md4))).1 :=
    Inv.addList _ h (by omega)
  split
  · refine List.foldlRecOn (motive := fun found : State × ℤ × List ℕ => Inv fit n found.1) _ _ ?_ ?_
    · refine List.foldlRecOn (motive := fun found : State × ℤ × List ℕ => Inv fit n found.1)
        _ _ hfirst ?_
      intro found hfound i hi
      rw [List.mem_range'_1] at hi
      exact Inv.addList _ hfound (by omega)
    · intro found hfound i hi
      rw [List.mem_reverse, List.mem_range] at hi
      exact Inv.addList _ hfound (by omega)
  · exact hfirst

lemma Inv.getAnyPeers (h : Inv fit n s) (nb : ℤ) : Inv fit n (s.getAnyPeers nb).1 := by
  have hused := h.used
  refine List.foldlRecOn (motive := fun found : State × ℤ × List ℕ => Inv fit n found.1)
    _ _ h ?_
  intro found hfound i hi
  rw [List.mem_range] at hi
  exact Inv.addList _ hfound (by omega)

lemma foldl_cleanPeer (l : List ℕ) : ∃ keep drops : List ℕ, l.Perm (keep ++ drops) ∧
    l.foldl (State.cleanPeer w now i) s =
      { s with
        buckets := Function.update s.buckets i (s.buckets i ++ keep)
        knownPeers := forgetAll s.heap drops s.knownPeers
        connectedPeers := s.connectedPeers - drops.length } := by
  induction l generalizing s with
  | nil =>
    refine ⟨[], [], List.Perm.refl _, ?_⟩
    simp [forgetAll]
  | cons r l ih =>
    rw [List.foldl_cons]
    by_cases hkeep : (!State.dead now (s.heap r) &&
        w.isOvernetIp (s.heap r).peerIp (s.heap r).peerCountryCode) = true
    · obtain ⟨keep, drops, hperm, hs⟩ := @ih (s.putBucket i r)
      refine ⟨r :: keep, drops, hperm.cons r, ?_⟩
      rw [State.cleanPeer, if_pos hkeep, hs]
      simp [State.putBucket]
    · obtain ⟨keep, drops, hperm, hs⟩ :=
        @ih (State.forget { s with connectedPeers := s.connectedPeers - 1 } r)
      refine ⟨keep, r :: drops, (hperm.cons r).trans List.perm_middle.symm, ?_⟩
      rw [State.cleanPeer, if_neg hkeep, hs]
      simp only [State.forget, forgetAll, List.foldl_cons, List.length_cons]
      congr 1
      push_cast
      omega

lemma foldl_completePeer (l : List ℕ) (hb : (s.buckets i).length ≤ maxPeersPerBucket) :
    ∃ up rest drops : List ℕ, l.Perm (up ++ rest ++ drops) ∧
      (s.buckets i ++ up).length ≤ maxPeersPerBucket ∧
      l.foldl (State.completePeer w now i) s =
        { s with
          buckets := Function.update s.buckets i (s.buckets i ++ up)
          prebuckets := Function.update s.prebuckets i (s.prebuckets i ++ rest)
          knownPeers := forgetAll s.heap drops s.knownPeers
          connectedPeers := s.connectedPeers + up.length
          preConnectedPeers := s.preConnectedPeers - up.length - drops.length } := by
  induction l generalizing s with
  | nil =>
    refine ⟨[], [], [], List.Perm.refl _, by simpa using hb, ?_⟩
    simp [forgetAll]
  | cons r l ih =>
    rw [List.foldl_cons, State.completePeer]
    dsimp only
    split
    case isTrue hup =>
      obtain ⟨up, rest, drops, hperm, hlen, hs⟩ := @ih
        { s.putBucket i r with
          connectedPeers := s.connectedPeers + 1
          preConnectedPeers := s.preConnectedPeers - 1 }
        (by simp [State.putBucket]; omega)
      refine ⟨r :: up, rest, drops, hperm.cons r, ?_, ?_⟩
      · simpa [State.putBucket] using hlen
      · rw [hs]
        simp [State.putBucket]
        omega
    case isFalse =>
      split
      · obtain ⟨up, rest, drops, hperm, hlen, hs⟩ := @ih
          (State.forget { s with preConnectedPeers := s.preConnectedPeers - 1 } r) hb
        refine ⟨up, rest, r :: drops, (hperm.cons r).trans List.perm_middle.symm, hlen, ?_⟩
        rw [hs]
        simp only [State.forget, forgetAll, List.foldl_cons, List.length_cons]
        congr 1
        push_cast
        omega
      · obtain ⟨up, rest, drops, hperm, hlen, hs⟩ := @ih (s.putPrebucket i r) hb
        refine ⟨up, r :: rest, drops, ?_, hlen, ?_⟩
        · rw [List.append_assoc, List.cons_append]
          refine (hperm.cons r).trans ?_
          rw [List.append_assoc]
          exact List.perm_middle.symm
        · rw [hs]
          simp [State.putPrebucket]

lemma Inv.cleanBucket (h : Inv fit n s) (hi : i ≤ n) : Inv fit n (s.cleanBucket w now i) := by
  obtain ⟨keep, drops, hperm, hs⟩ := @foldl_cleanPeer w now
    { s with buckets := Function.update s.buckets i [] } i (s.buckets i)
  have hlen := hperm.length_eq
  rw [List.length_append] at hlen
  have hsift : s.cleanBucket w now i = s.sift i keep (s.prebuckets i) drops := by
    rw [State.cleanBucket, hs, State.sift]
    simp only [Function.update_self, Function.update_idem, Function.update_eq_self,
      List.nil_append, add_sub_cancel_right]
    congr 1
    omega
  rw [hsift]
  refine h.sift hi ((by omega : keep.length ≤ _).trans (h.consistent.bucket_le i)) le_rfl ?_
  rw [Multiset.coe_eq_coe.mpr hperm, ← Multiset.coe_add, add_right_comm]

lemma Inv.completeBucket (h : Inv fit n s) (hi : i ≤ n) :
    Inv fit n (s.completeBucket w now i) := by
  rw [State.completeBucket]
  split
  case isTrue hroom =>
    obtain ⟨up, rest, drops, hperm, hfull, hs⟩ := @foldl_completePeer w now
      { s with prebuckets := Function.update s.prebuckets i [] } i (s.prebuckets i) hroom.le
    have hlen := hperm.length_eq
    rw [List.length_append, List.length_append] at hlen
    have hsift : (s.prebuckets i).foldl (State.completePeer w now i)
        { s with prebuckets := Function.update s.prebuckets i [] } =
          s.sift i (s.buckets i ++ up) rest drops := by
      rw [hs, State.sift]
      simp only [Function.update_self, Function.update_idem, List.nil_append, List.length_append]
      congr 1 <;> omega
    rw [hsift]
    refine h.sift hi hfull (by omega) ?_
    rw [Multiset.coe_eq_coe.mpr hperm, ← Multiset.coe_add, ← Multiset.coe_add,
      ← Multiset.coe_add, add_assoc, add_assoc, add_assoc]
  case isFalse => exact h

lemma Inv.updateBuckets (h : Inv fit n s) : Inv fit n (s.updateBuckets w now) := by
  have hused := h.used
  have hclean : Inv fit n
      ((List.range (s.nUsedBuckets + 1)).foldl (State.cleanBucket w now) s) := by
    refine List.foldlRecOn _ _ h fun s' hs' i hi => hs'.cleanBucket ?_
    rw [List.mem_range] at hi
    omega
  rw [State.updateBuckets]
  refine List.foldlRecOn _ _ hclean fun s' hs' i hi => hs'.completeBucket ?_
  rw [List.mem_range, hclean.used] at hi
  omega

end Loops

section Split

variable {p n k : ℕ} {l l' : List ℕ}

lemma spread_up (hl : s.prebuckets n = l) (hn : n ≠ s.nUsedBuckets)
    (hp : s.nUsedBuckets ≤ s.bucketNumber (s.heap p).peerMd4) :
    State.spread p n l.length s =
      { s with
        prebuckets := Function.update (Function.update s.prebuckets n []) s.nUsedBuckets
          (s.prebuckets s.nUsedBuckets ++ l) } := by
  induction l generalizing s with
  | nil =>
    rw [List.length_nil, State.spread, ← hl, Function.update_eq_self, hl, List.append_nil,
      Function.update_eq_self]
  | cons pp l ih =>
    rw [List.length_cons, State.spread, hl]
    dsimp only
    rw [if_pos (by exact hp)]
    set s' : State := State.putPrebucket
      { s with prebuckets := Function.update s.prebuckets n l } s.nUsedBuckets pp with hs'
    have hpre : s'.prebuckets = Function.update (Function.update s.prebuckets n l)
        s.nUsedBuckets (s.prebuckets s.nUsedBuckets ++ [pp]) := by
      simp only [hs', State.putPrebucket, Function.update_of_ne hn.symm]
    rw [@ih s' (by rw [hpre, Function.update_of_ne hn, Function.update_self]) hn hp, hpre]
    have hused : s'.nUsedBuckets = s.nUsedBuckets := rfl
    rw [hused, Function.update_self, Function.update_comm hn, Function.update_idem,
      Function.update_comm hn.symm, Function.update_idem, List.append_assoc, List.singleton_append]
    rfl

lemma spread_turn (hl : s.prebuckets n = l ++ l')
    (hp : s.bucketNumber (s.heap p).peerMd4 < s.nUsedBuckets) :
    State.spread p n l.length s =
      { s with prebuckets := Function.update s.prebuckets n (l' ++ l) } := by
  induction l generalizing s l' with
  | nil =>
    rw [List.length_nil, State.spread, List.append_nil, ← List.nil_append l', ← hl,
      Function.update_eq_self]
  | cons pp l ih =>
    rw [List.length_cons, State.spread, hl, List.cons_append]
    dsimp only
    rw [if_neg (by exact not_le.mpr hp)]
    set s' : State := State.putPrebucket
      { s with prebuckets := Function.update s.prebuckets n (l ++ l') } n pp with hs'
    have hpre : s'.prebuckets = Function.update s.prebuckets n (l ++ (l' ++ [pp])) := by
      simp only [hs', State.putPrebucket, Function.update_self, Function.update_idem,
        List.append_assoc]
    rw [@ih s' (l' ++ [pp]) (by rw [hpre, Function.update_self]) hp, hpre, Function.update_idem,
      List.append_assoc, List.singleton_append]
    rfl

-- The state after the loop that raises n_used_buckets has gone to the bucket of the new peer
def State.raised (s : State) (bucket : ℕ) : State :=
  { s with
    nUsedBuckets := bucket + 1
    prebuckets := Function.update (Function.update s.prebuckets s.nUsedBuckets [])
      bucket (s.prebuckets s.nUsedBuckets) }

lemma split_of_ne (h : (s.prebuckets s.nUsedBuckets).length ≠ maxPeersPerBucket) :
    State.split p k s = s := by
  cases k with
  | zero => rfl
  | succ k =>
    rw [State.split]
    exact if_neg fun hfull => h hfull.2

lemma split_eq (hfull : (s.prebuckets s.nUsedBuckets).length = maxPeersPerBucket)
    (hempty : ∀ i, s.nUsedBuckets < i → s.prebuckets i = [])
    (hle : s.nUsedBuckets ≤ s.bucketNumber (s.heap p).peerMd4)
    (hlt : s.bucketNumber (s.heap p).peerMd4 < 128)
    (hk : s.bucketNumber (s.heap p).peerMd4 < s.nUsedBuckets + k) :
    State.split p k s = s.raised (s.bucketNumber (s.heap p).peerMd4) := by
  induction k generalizing s with
  | zero => omega
  | succ k ih =>
    rw [State.split, if_pos ⟨hle.trans_lt hlt, hfull⟩]
    by_cases hlast : s.bucketNumber (s.heap p).peerMd4 = s.nUsedBuckets
    · have hturn := @spread_turn { s with nUsedBuckets := s.nUsedBuckets + 1 } p s.nUsedBuckets
        (s.prebuckets s.nUsedBuckets) [] (List.append_nil _).symm
        (show s.bucketNumber (s.heap p).peerMd4 < s.nUsedBuckets + 1 by omega)
      rw [hturn]
      simp only [List.nil_append, Function.update_eq_self]
      rw [split_of_ne (by simp [hempty, maxPeersPerBucket]), State.raised, hlast]
      simp
    · have hn : s.nUsedBuckets ≠ s.nUsedBuckets + 1 := by omega
      have hup := @spread_up { s with nUsedBuckets := s.nUsedBuckets + 1 } p s.nUsedBuckets _ rfl hn
        (show s.nUsedBuckets + 1 ≤ s.bucketNumber (s.heap p).peerMd4 by omega)
      simp only [hempty (s.nUsedBuckets + 1) (Nat.lt_succ_self _), List.nil_append] at hup
      rw [hup]
      set next : State := { s with
        nUsedBuckets := s.nUsedBuckets + 1
        prebuckets := Function.update (Function.update s.prebuckets s.nUsedBuckets [])
          (s.nUsedBuckets + 1) (s.prebuckets s.nUsedBuckets) } with hnext
      have hqueue : next.prebuckets (s.nUsedBuckets + 1) = s.prebuckets s.nUsedBuckets := by
        rw [hnext]
        exact Function.update_self _ _ _
      have habove (i : ℕ) (hi : s.nUsedBuckets + 1 < i) : next.prebuckets i = [] := by
        simp only [hnext]
        rw [Function.update_of_ne (by omega), Function.update_of_ne (by omega)]
        exact hempty i (by omega)
      refine (@ih next (by rw [← hfull, ← hqueue]) habove
        (show s.nUsedBuckets + 1 ≤ s.bucketNumber (s.heap p).peerMd4 by omega) hlt
        (show s.bucketNumber (s.heap p).peerMd4 < s.nUsedBuckets + 1 + k by omega)).trans ?_
      -- the prebucket between is empty again
      have hback : Function.update next.prebuckets (s.nUsedBuckets + 1) [] =
          Function.update s.prebuckets s.nUsedBuckets [] := by
        simp only [hnext, Function.update_idem]
        refine Function.update_eq_self_iff.mpr ?_
        rw [Function.update_of_ne hn.symm, hempty _ (Nat.lt_succ_self _)]
      rw [State.raised, State.raised]
      have hused : next.nUsedBuckets = s.nUsedBuckets + 1 := rfl
      rw [hused, hqueue, hback]
      rfl

variable {bucket : ℕ}

lemma contents_raised (h : Consistent s) (hle : s.nUsedBuckets ≤ bucket) (hlt : bucket < 128) :
    total (s.raised bucket).prebuckets = total s.prebuckets := by
  refine total_move h.used_le hlt.le ?_
  rcases hle.eq_or_lt with heq | hlt'
  · exact .inl heq.symm
  · exact .inr (h.unused bucket hlt').2

lemma Consistent.raised (h : Consistent s) (hle : s.nUsedBuckets ≤ bucket) (hlt : bucket < 128) :
    Consistent (s.raised bucket) := by
  have htotal := contents_raised h hle hlt
  have hcontents : (s.raised bucket).contents = s.contents := by
    rw [State.contents, State.contents, htotal]
    rfl
  refine ⟨h.connected, ?_, h.bucket_le, ?_, hlt, fun i hi => ?_, ?_, ?_, h.addresses, ?_⟩
  · rw [htotal]
    exact h.preConnected
  · exact length_update_le _ (length_update_le _ h.prebucket_le (Nat.zero_le _))
      (h.prebucket_le s.nUsedBuckets)
  · have hi' : bucket + 1 < i := hi
    refine ⟨(h.unused i (by omega)).1, ?_⟩
    simp only [State.raised]
    rw [Function.update_of_ne (by omega), Function.update_of_ne (by omega)]
    exact (h.unused i (by omega)).2
  · rw [hcontents]
    exact h.once
  · rw [hcontents]
    exact h.known
  · rw [hcontents]
    exact h.notSelf

lemma isOpen_raised (h : Consistent s) (hle : s.nUsedBuckets ≤ bucket) :
    (s.raised bucket).Open := by
  intro _
  simp only [State.raised]
  rw [Function.update_of_ne (by omega), Function.update_of_ne (by omega),
    (h.unused (bucket + 1) (by omega)).2]
  exact Nat.zero_lt_succ _

-- All peers of the last queues must have the number of their queue after the loop.
lemma indexed_raised_iff (hix : s.Indexed) (hle : s.nUsedBuckets ≤ bucket) :
    (s.raised bucket).Indexed ↔
      (∀ r ∈ s.prebuckets s.nUsedBuckets, s.bucketNumber (s.heap r).peerMd4 = bucket) ∧
      ∀ r ∈ s.buckets s.nUsedBuckets, s.bucketNumber (s.heap r).peerMd4 = s.nUsedBuckets := by
  constructor
  · intro hraised
    refine ⟨fun r hr => ?_, fun r hr => ?_⟩
    · have := hraised bucket r (List.mem_append_right _ (by
        simp only [State.raised, Function.update_self]
        exact hr))
      have : bucket = min (s.bucketNumber (s.heap r).peerMd4) (bucket + 1) := this
      omega
    · have : s.nUsedBuckets = min (s.bucketNumber (s.heap r).peerMd4) (bucket + 1) :=
        hraised s.nUsedBuckets r (List.mem_append_left _ hr)
      omega
  · rintro ⟨hpre, hbuckets⟩ i r hr
    change i = min (s.bucketNumber (s.heap r).peerMd4) (bucket + 1)
    rcases List.mem_append.mp hr with hr | hr
    · have hr' : r ∈ s.buckets i := hr
      have hi := hix i r (List.mem_append_left _ hr')
      by_cases hlast : i = s.nUsedBuckets
      · have := hbuckets r (hlast ▸ hr')
        omega
      · omega
    · simp only [State.raised, Function.update_apply] at hr
      split at hr
      case isTrue hi =>
        have := hpre r hr
        omega
      case isFalse hi =>
        split at hr
        · exact absurd hr List.not_mem_nil
        · have := hix i r (List.mem_append_right _ hr)
          omega

end Split

section NewPeer

variable {p i bucket : ℕ} {b pb : List ℕ}

-- The new peer is known first.
lemma Consistent.know (h : Consistent s)
    (hnew : ∀ k ∈ s.knownPeers, (s.heap k).address ≠ (s.heap p).address) :
    Consistent { s with knownPeers := p :: s.knownPeers } := by
  have hcontents :
      State.contents { s with knownPeers := p :: s.knownPeers } = s.contents := by
    rw [State.contents, State.contents]
  refine ⟨h.connected, h.preConnected, h.bucket_le, h.prebucket_le, h.used_le, h.unused, ?_, ?_,
    ?_, ?_⟩
  · rw [hcontents]
    exact h.once
  · intro r hr
    rw [hcontents] at hr
    exact List.mem_cons_of_mem p (h.known r hr)
  · rw [List.map_cons, List.nodup_cons]
    refine ⟨fun hmem => ?_, h.addresses⟩
    obtain ⟨k, hk, heq⟩ := List.mem_map.mp hmem
    exact hnew k hk heq
  · rw [hcontents]
    exact h.notSelf

-- A peer that is in no queue enters one.
structure Entering (s : State) (p : ℕ) : Prop where
  known : p ∈ s.knownPeers
  notIn : p ∉ s.contents
  notSelf : s.bucketNumber (s.heap p).peerMd4 ≠ 128

lemma Consistent.enter (h : Consistent s) (hp : Entering s p) (hi : i ≤ s.nUsedBuckets)
    (hb : b.length ≤ maxPeersPerBucket) (hpb : pb.length ≤ maxPeersPerPrebucket)
    (hle : (b + pb : Multiset ℕ) ≤ {p} + (s.buckets i + s.prebuckets i)) :
    Consistent (s.sift i b pb []) := by
  refine h.sift (m := {p}) hi hb hpb ?_ ?_ ?_
  · rwa [Multiset.coe_nil, add_zero]
  · rw [Multiset.singleton_add, Multiset.nodup_cons]
    exact ⟨hp.notIn, h.once⟩
  · intro r hr
    rw [Multiset.mem_singleton] at hr
    subst hr
    exact ⟨hp.known, hp.notSelf⟩

lemma indexed_enter (h : s.Indexed)
    (hle : (b + pb : Multiset ℕ) ≤ {p} + (s.buckets i + s.prebuckets i))
    (hi : i = min (s.bucketNumber (s.heap p).peerMd4) s.nUsedBuckets) :
    (s.sift i b pb []).Indexed := by
  refine indexed_sift h fun r hr => ?_
  have hr' : r ∈ (b + pb : Multiset ℕ) := by simpa using hr
  rcases Multiset.mem_add.mp (Multiset.mem_of_le hle hr') with hr | hr
  · rw [Multiset.mem_singleton] at hr
    exact hr ▸ hi
  · exact h i r (by simpa using hr)

-- If the new peer fills the last prebucket, the peers there have its number, and those of the
-- bucket have the number of the bucket.
def State.SplitsWell (s : State) (p : ℕ) : Prop :=
  s.nUsedBuckets ≤ s.bucketNumber (s.heap p).peerMd4 →
    (s.prebuckets s.nUsedBuckets).length + 1 = maxPeersPerBucket →
    (∀ r ∈ s.prebuckets s.nUsedBuckets,
      s.bucketNumber (s.heap r).peerMd4 = s.bucketNumber (s.heap p).peerMd4) ∧
    ∀ r ∈ s.buckets s.nUsedBuckets, s.bucketNumber (s.heap r).peerMd4 = s.nUsedBuckets

variable {fit : Prop} {n : ℕ}

lemma Inv.enter (h : Inv fit n s) (hp : Entering s p) (hi : i < n)
    (hnum : s.bucketNumber (s.heap p).peerMd4 = i) (hb : b.length ≤ maxPeersPerBucket)
    (hpb : pb.length ≤ maxPeersPerPrebucket)
    (hle : (b + pb : Multiset ℕ) ≤ {p} + (s.buckets i + s.prebuckets i)) :
    Inv fit n (s.sift i b pb []) := by
  have hused := h.used
  refine ⟨h.consistent.enter hp (by omega) hb hpb hle, isOpen_sift h.isOpen (by omega),
    fun hfit => indexed_enter (h.indexed hfit) hle (by omega), hused⟩

-- A peer that enters the last prebucket, which may fill it
lemma Inv.overflow (h : Inv fit n s) (hp : Entering s p) (hn : n < 128)
    (hnum : n ≤ s.bucketNumber (s.heap p).peerMd4) (hfit : fit → s.SplitsWell p) :
    ∃ n', Inv fit n' (State.split p 128 (s.sift n (s.buckets n) (s.prebuckets n ++ [p]) [])) := by
  obtain rfl := h.used
  have hroom := h.isOpen hn
  have hlt : s.bucketNumber (s.heap p).peerMd4 < 128 :=
    lt_of_le_of_ne (commonBits_le _ _) hp.notSelf
  set put := s.sift s.nUsedBuckets (s.buckets s.nUsedBuckets)
    (s.prebuckets s.nUsedBuckets ++ [p]) [] with hput
  have hqueue : put.prebuckets put.nUsedBuckets = s.prebuckets s.nUsedBuckets ++ [p] := by
    rw [hput]
    exact Function.update_self _ _ _
  have hqueue' : put.buckets put.nUsedBuckets = s.buckets s.nUsedBuckets := by
    rw [hput]
    exact Function.update_self _ _ _
  have hle : (s.buckets s.nUsedBuckets + (s.prebuckets s.nUsedBuckets ++ [p] : List ℕ) :
      Multiset ℕ) ≤ {p} + (s.buckets s.nUsedBuckets + s.prebuckets s.nUsedBuckets) := by
    rw [← Multiset.coe_add, Multiset.coe_singleton, ← add_assoc, add_comm]
  have hcons : Consistent put := by
    refine h.consistent.enter hp le_rfl (h.consistent.bucket_le _) ?_ hle
    rw [List.length_append, List.length_singleton]
    exact hroom
  have hindexed (hf : fit) : put.Indexed := indexed_enter (h.indexed hf) hle (by omega)
  by_cases hfull : (s.prebuckets s.nUsedBuckets).length + 1 = maxPeersPerBucket
  · have hsplit := @split_eq put p 128 (by rw [hqueue, List.length_append]; exact hfull)
      (fun i hi => (hcons.unused i hi).2) hnum hlt
      (show s.bucketNumber (s.heap p).peerMd4 < s.nUsedBuckets + 128 by omega)
    rw [hsplit]
    refine ⟨_, hcons.raised hnum hlt, isOpen_raised hcons hnum, fun hf => ?_, rfl⟩
    obtain ⟨hpre, hbuckets⟩ := hfit hf hnum hfull
    refine (indexed_raised_iff (hindexed hf) hnum).mpr ⟨fun r hr => ?_, fun r hr => ?_⟩
    · rw [hqueue] at hr
      rcases List.mem_append.mp hr with hr | hr
      · exact hpre r hr
      · rw [List.mem_singleton] at hr
        rw [hr]
        rfl
    · rw [hqueue'] at hr
      exact hbuckets r hr
  · have hlen : (put.prebuckets put.nUsedBuckets).length ≠ maxPeersPerBucket := by
      rw [hqueue, List.length_append]
      exact hfull
    rw [split_of_ne hlen]
    refine ⟨_, hcons, fun _ => ?_, hindexed, rfl⟩
    exact lt_of_le_of_ne (hcons.prebucket_le _) hlen

lemma putBucket_eq (s : State) (i p : ℕ) :
    { s.putBucket i p with connectedPeers := s.connectedPeers + 1 } =
      s.sift i (s.buckets i ++ [p]) (s.prebuckets i) [] := by
  simp only [State.putBucket, State.sift, Function.update_eq_self, List.length_append,
    List.length_singleton, add_sub_cancel_right, forgetAll, List.foldl_nil]
  congr 1
  push_cast
  omega

lemma putPrebucket_eq (s : State) (i p : ℕ) :
    { s.putPrebucket i p with preConnectedPeers := s.preConnectedPeers + 1 } =
      s.sift i (s.buckets i) (s.prebuckets i ++ [p]) [] := by
  simp only [State.putPrebucket, State.sift, Function.update_eq_self, List.length_append,
    List.length_singleton, add_sub_cancel_right, forgetAll, List.foldl_nil]
  congr 1
  push_cast
  omega

lemma Inv.storePeer (h : Inv fit n s)
    (hnew : ∀ k ∈ s.knownPeers, (s.heap k).address ≠ (s.heap p).address)
    (hself : s.bucketNumber (s.heap p).peerMd4 ≠ 128) (hfit : fit → s.SplitsWell p) :
    ∃ n', Inv fit n' (s.storePeer now p (s.bucketNumber (s.heap p).peerMd4)) := by
  set known : State := { s with knownPeers := p :: s.knownPeers } with hknown
  have hinv : Inv fit n known :=
    ⟨h.consistent.know hnew, h.isOpen, fun hf => h.indexed hf, h.used⟩
  have hp : Entering known p := by
    refine ⟨List.mem_cons_self, fun hmem => ?_, hself⟩
    have hcontents : known.contents = s.contents := by rw [hknown, State.contents, State.contents]
    rw [hcontents] at hmem
    exact hnew p (h.consistent.known p hmem) rfl
  have hused : known.nUsedBuckets = n := h.used
  rw [State.storePeer, ← hknown]
  dsimp only
  set bucket := s.bucketNumber (s.heap p).peerMd4 with hbucket
  split
  case isTrue hlow =>
    have hlow' : bucket < n := hused ▸ hlow
    split
    case isTrue hgood =>
      -- a good peer
      rw [putBucket_eq]
      refine ⟨n, hinv.enter hp hlow' rfl ?_ (hinv.consistent.prebucket_le bucket) ?_⟩
      · rw [List.length_append, List.length_singleton]
        exact hgood.2
      · rw [← Multiset.coe_add, Multiset.coe_singleton, add_right_comm, add_comm]
    case isFalse =>
      split
      case isTrue hfull =>
        split
        case h_1 => exact ⟨n, hinv⟩
        case h_2 pp b hpb =>
          -- the head of the prebucket goes to the end, or is replaced
          set q := if (known.heap pp).peerKind < 4 ∨ now < (known.heap pp).peerExpire then pp
            else p with hq
          have hqmem : ({q} : Multiset ℕ) ≤ {p} + {pp} := by
            rw [hq]
            split <;> simp
          have hsift : State.putPrebucket
              { known with prebuckets := Function.update known.prebuckets bucket b } bucket q =
              known.sift bucket (known.buckets bucket) (b ++ [q]) [] := by
            simp only [State.putPrebucket, State.sift, Function.update_eq_self,
              Function.update_self, Function.update_idem, hpb, List.length_append,
              List.length_cons, List.length_nil, zero_add, add_sub_cancel_right, forgetAll,
              List.foldl_nil]
          rw [hsift]
          have hlen := hinv.consistent.prebucket_le bucket
          rw [hpb] at hlen
          refine ⟨n, hinv.enter hp hlow' rfl (hinv.consistent.bucket_le bucket) ?_ ?_⟩
          · rw [List.length_append, List.length_singleton]
            exact hlen
          · rw [hpb, ← Multiset.coe_add, Multiset.coe_singleton, ← Multiset.cons_coe pp b,
              ← Multiset.singleton_add]
            calc (known.buckets bucket + (b + {q}) : Multiset ℕ)
                ≤ known.buckets bucket + (b + ({p} + {pp})) := by gcongr
              _ = {p} + (known.buckets bucket + ({pp} + b)) := by abel
      case isFalse hroom =>
        -- there is room in the prebucket
        rw [putPrebucket_eq]
        refine ⟨n, hinv.enter hp hlow' rfl (hinv.consistent.bucket_le bucket) ?_ ?_⟩
        · rw [List.length_append, List.length_singleton]
          exact not_le.mp hroom
        · rw [← Multiset.coe_add, Multiset.coe_singleton, ← add_assoc, add_comm]
  case isFalse hhigh =>
    split
    case isTrue hlast =>
      rw [putPrebucket_eq, hused]
      exact hinv.overflow hp (hused ▸ hlast) (by rw [← hused]; exact not_lt.mp hhigh) hfit
    case isFalse => exact ⟨n, hinv⟩

-- The peer is not known and may be stored.
def State.Stores (w : Outside) (s : State) (p : ℕ) : Prop :=
  (∀ k ∈ s.knownPeers, (s.heap k).address ≠ (s.heap p).address) ∧
  (s.heap p).peerIp ≠ localhost ∧
  w.isOvernetIp (s.heap p).peerIp (s.heap p).peerCountryCode = true ∧
  (s.heap p).peerPort ≠ 0 ∧ (s.heap p).peerCreated ≠ 0 ∧
  s.bucketNumber (s.heap p).peerMd4 ≠ 128 ∧ (s.heap p).peerMd4 ≠ nullMd4

-- What a new_peer must meet: a peer that is stored does not split badly.
def State.Fits (s : State) : Op → Prop
  | .newPeer w _ p =>
    (s.checkPeerCountryCode w p).Stores w p → (s.checkPeerCountryCode w p).SplitsWell p
  | _ => True

instance (w : Outside) (s : State) (p : ℕ) : Decidable (s.Stores w p) := by
  unfold State.Stores
  infer_instance

instance (s : State) (p : ℕ) : Decidable (s.SplitsWell p) := by
  unfold State.SplitsWell
  infer_instance

instance (s : State) : (op : Op) → Decidable (s.Fits op)
  | .newPeer w _ p => inferInstanceAs (Decidable
      ((s.checkPeerCountryCode w p).Stores w p → (s.checkPeerCountryCode w p).SplitsWell p))
  | .newPeerMessage .. | .checkingKind .. | .udpSend .. | .getClosestPeers .. | .getAnyPeers ..
  | .updateBuckets .. | .collect .. => isTrue trivial

lemma Inv.newPeer (h : Inv fit n s) (hfit : fit → s.Fits (.newPeer w now p)) :
    ∃ n', Inv fit n' (s.newPeer w now p).1 := by
  have hcc := (checkPeerCountryCode_sameIds (w := w) s p).inv h
  rw [State.newPeer]
  dsimp only
  rw [State.Fits] at hfit
  set s' := s.checkPeerCountryCode w p
  split
  case h_1 => exact ⟨n, hcc⟩
  case h_2 hnone =>
    have hnew : ∀ k ∈ s'.knownPeers, (s'.heap k).address ≠ (s'.heap p).address := by
      simpa using hnone
    split
    case isTrue hok =>
      split
      case isTrue hid =>
        exact hcc.storePeer hnew hid.1 fun hf =>
          hfit hf ⟨hnew, hok.1, hok.2.1, hok.2.2.1, hok.2.2.2, hid.1, hid.2⟩
      case isFalse => exact ⟨n, hcc⟩
    case isFalse => exact ⟨n, hcc⟩

end NewPeer

section Runs

variable {fit : Prop} {n : ℕ} {overnetMd4 : Md4} {ok : State → Op → Prop}

lemma mem_contents {r : ℕ} : r ∈ s.contents ↔ ∃ i ≤ 128, r ∈ s.buckets i ∨ r ∈ s.prebuckets i := by
  simp only [State.contents, Multiset.mem_add, mem_total]
  constructor
  · rintro (⟨i, hi, hr⟩ | ⟨i, hi, hr⟩)
    · exact ⟨i, hi, .inl hr⟩
    · exact ⟨i, hi, .inr hr⟩
  · rintro ⟨i, hi, hr | hr⟩
    · exact .inl ⟨i, hi, hr⟩
    · exact .inr ⟨i, hi, hr⟩

lemma stored_iff {r : ℕ} : s.stored r = true ↔ r ∈ s.contents := by
  simp [State.stored, mem_contents, Nat.lt_succ_iff]

-- The collector leaves what is in a queue.
lemma Inv.collect (h : Inv fit n s) (lost : ℕ → Bool) : Inv fit n (step (.collect lost) s) := by
  have hc := h.consistent
  have hcontents : (step (.collect lost) s).contents = s.contents := by
    rw [step, State.contents, State.contents]
  refine ⟨⟨hc.connected, hc.preConnected, hc.bucket_le, hc.prebucket_le, hc.used_le, hc.unused,
    ?_, ?_, hc.addresses.sublist (List.filter_sublist.map _), ?_⟩, h.isOpen, h.indexed, h.used⟩
  · rw [hcontents]
    exact hc.once
  · intro r hr
    rw [hcontents] at hr
    refine List.mem_filter.mpr ⟨hc.known r hr, ?_⟩
    rw [stored_iff.mpr hr]
    rfl
  · rw [hcontents]
    exact hc.notSelf

-- One operation keeps the invariant.
lemma Inv.step (h : Inv fit n s) (op : Op) (hfit : fit → s.Fits op) :
    ∃ n', Inv fit n' (step op s) := by
  cases op with
  | newPeer w now p => exact h.newPeer hfit
  | newPeerMessage now p => exact ⟨n, (newPeerMessage_sameIds s p).inv h⟩
  | checkingKind now p => exact ⟨n, (checkingKind_sameIds s p).inv h⟩
  | udpSend now p => exact ⟨n, (udpSend_sameIds s p).inv h⟩
  | getClosestPeers now md4 nb => exact ⟨n, h.getClosestPeers md4 nb⟩
  | getAnyPeers nb => exact ⟨n, h.getAnyPeers nb⟩
  | updateBuckets w now => exact ⟨n, h.updateBuckets⟩
  | collect lost => exact ⟨n, h.collect lost⟩

-- The runs of a node from empty buckets
def Runs (overnetMd4 : Md4) (ok : State → Op → Prop) : State → Prop :=
  Reach step (fun s => ∃ timeout magic nUsedBuckets, nUsedBuckets < 128 ∧
    s = State.initial overnetMd4 timeout magic nUsedBuckets) ok

lemma inv_initial (timeout : ℤ) (magic : ℕ → Peer) (hn : n < 128) :
    Inv fit n (State.initial overnetMd4 timeout magic n) := by
  have hcontents : (State.initial overnetMd4 timeout magic n).contents = 0 := by
    simp only [State.contents, State.initial, total_nil, add_zero]
  refine ⟨⟨?_, ?_, fun _ => Nat.zero_le _, fun _ => Nat.zero_le _, hn.le, fun _ _ => ⟨rfl, rfl⟩,
    ?_, ?_, List.nodup_nil, ?_⟩, fun _ => Nat.zero_lt_succ _, fun _ i r hr => ?_, rfl⟩
  · simp [State.initial, total_nil]
  · simp [State.initial, total_nil]
  · rw [hcontents]
    exact Multiset.nodup_zero
  · rw [hcontents]
    exact fun r hr => absurd hr (Multiset.notMem_zero r)
  · rw [hcontents]
    exact fun r hr => absurd hr (Multiset.notMem_zero r)
  · exact absurd hr List.not_mem_nil

lemma Runs.inv (h : Runs overnetMd4 ok s) :
    ∃ n, Inv (∀ s op, ok s op → s.Fits op) n s := by
  refine Reach.inv (I := fun s => ∃ n, Inv (∀ s op, ok s op → s.Fits op) n s) ?_
    (fun s op hs hop => ?_) h
  · rintro s ⟨timeout, magic, n, hn, rfl⟩
    exact ⟨n, inv_initial timeout magic hn⟩
  · obtain ⟨n, hinv⟩ := hs
    exact hinv.step op fun hf => hf s op hop

end Runs

-- What the node keeps of the peers that it stores, wherever they are
structure Kept (s : State) : Prop where
  connected : s.connectedPeers = (total s.buckets).card
  preConnected : s.preConnectedPeers = (total s.prebuckets).card
  bucket_le : ∀ i, (s.buckets i).length ≤ maxPeersPerBucket
  prebucket_le : ∀ i, (s.prebuckets i).length ≤ maxPeersPerPrebucket
  addresses : (s.contents.map fun r => (s.heap r).address).Nodup
  notSelf : ∀ r ∈ s.contents, (s.heap r).peerMd4 ≠ s.overnetMd4

lemma Consistent.kept (h : Consistent s) : Kept s where
  connected := h.connected
  preConnected := h.preConnected
  bucket_le := h.bucket_le
  prebucket_le := h.prebucket_le
  addresses := by
    refine Multiset.Nodup.map_on (fun r hr r' hr' heq => ?_) h.once
    exact List.inj_on_of_nodup_map h.addresses (h.known r hr) (h.known r' hr') heq
  notSelf r hr heq := by
    refine h.notSelf r hr ?_
    rw [heq]
    exact commonBits_self s.overnetMd4

-- The counters, the bounds and the addresses are right in all runs, the places of the peers in
-- those in which no new peer splits badly.
theorem buckets_consistent {overnetMd4 : Md4} {ok : State → Op → Prop}
    (h : Runs overnetMd4 ok s) : Kept s ∧ ((∀ s op, ok s op → s.Fits op) → s.Indexed) := by
  obtain ⟨n, hinv⟩ := h.inv
  exact ⟨hinv.consistent.kept, hinv.indexed⟩

def anywhere : Outside := ⟨fun _ => true, fun _ _ => false, fun _ => none⟩

-- The last of twenty peers has one bit in common with the node, the others have none.
def twentyPeers (r : ℕ) : Peer :=
  ⟨⟨(if r = 19 then 0x40 else 0x80) :: List.replicate 15 0, rfl⟩, ⟨2560, 1⟩, r + 1, none, 0, 0, 0,
    1⟩

def crowded : State :=
  ((List.range 20).map (Op.newPeer anywhere 0)).foldl (fun s op => step op s)
    (.initial nullMd4 0 twentyPeers 0)

lemma crowded_runs : Runs nullMd4 (fun _ _ => True) crowded :=
  (Reach.start ⟨0, twentyPeers, 0, by decide, rfl⟩).foldl _ fun _ _ _ => trivial

-- The other peers have moved with the last one.
theorem peers_misplaced : ¬ ∀ overnetMd4 s, Runs overnetMd4 (fun _ _ => True) s →
    Kept s ∧ s.Indexed := by
  intro h
  have hplace := (h nullMd4 crowded crowded_runs).2 1 0 (by decide +kernel)
  exact absurd hplace (by decide +kernel)

-- All peers but these three have no bit in common with the node.
def farPeers (r : ℕ) : Peer :=
  { twentyPeers r with
    peerMd4 := ⟨(if r ∈ [20, 21, 22] then 0x40 else 0x80) :: List.replicate 15 0, rfl⟩ }

def arrivals : List Op :=
  (List.range 25).map (Op.newPeer anywhere 0) ++
    [.newPeer anywhere 60 7, .updateBuckets anywhere 60, .collect fun _ => true]

def grown : State := arrivals.foldl (fun s op => step op s) (.initial nullMd4 0 farPeers 0)

-- The twentieth peer splits the prebucket, and the update of the buckets brings in the last two.
theorem buckets_consistent_grown : Kept grown ∧ grown.Indexed ∧ grown.nUsedBuckets = 1 ∧
    grown.buckets 0 = 23 :: 24 :: List.range 18 ∧ grown.prebuckets 0 = [18, 19] ∧
    grown.buckets 1 = [20, 21, 22] := by
  have hrun : Runs nullMd4 State.Fits grown :=
    (Reach.start ⟨0, farPeers, 0, by decide, rfl⟩).run (by decide +kernel)
  have hall := buckets_consistent hrun
  exact ⟨hall.1, hall.2 fun _ _ h => h, by decide +kernel⟩

end Mldonkey.Overnet.Peers
