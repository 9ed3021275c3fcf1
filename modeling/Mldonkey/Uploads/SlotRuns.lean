import Mldonkey.Uploads.Slots
import Mldonkey.Lib.Runs

-- In every run the slots, the uploaders and the pending clients agree.
namespace Mldonkey.UploadSlots

open Runs (Reach)

variable {φ : Type} {w : World φ} {o : Options} {s s' s'' : State} {c : ℕ} {slot k : SlotKind}

-- The uploaders with a kind of slot
def State.holders (s : State) (k : SlotKind) : ℕ :=
  s.uploaders.countP fun c => s.clientSlot c = k

structure Inv (o : Options) (s : State) : Prop where
  uploaders : ∀ c, c ∈ s.uploaders ↔ s.clientSlot c ≠ .noSlot
  once : s.uploaders.Nodup
  pendingOnce : s.pendingSlotsMap.Nodup
  apart : ∀ c ∈ s.pendingSlotsMap, s.clientSlot c = .noSlot
  friendSlot : s.holders .friendSlot ≤ 1
  smallFileSlot : s.holders .smallFileSlot ≤ 1
  releaseSlot : (s.holders .releaseSlot : ℤ) ≤ max 0 o.maxReleaseSlots

section Slots

lemma clientHasASlot_iff : s.clientHasASlot c = true ↔ s.clientSlot c ≠ .noSlot := by
  simp [State.clientHasASlot]

lemma mem_add {c d : ℕ} {map : List ℕ} : d ∈ State.add c map ↔ d = c ∨ d ∈ map := by
  rw [State.add]
  split
  · next h =>
    refine ⟨.inr, ?_⟩
    rintro (rfl | h')
    · exact h
    · exact h'
  · exact List.mem_orderedInsert _

lemma add_perm {map : List ℕ} (h : c ∉ map) : (State.add c map).Perm (c :: map) := by
  rw [State.add, if_neg h]
  exact List.perm_orderedInsert _ _ _

lemma giveSlot_eq (hslot : slot ≠ .noSlot) (hno : s.clientSlot c = .noSlot) :
    s.setClientHasASlot c slot = { s with
      clientSlot := Function.update s.clientSlot c slot
      uploaders := State.add c s.uploaders } := by
  have hhas : ¬ s.clientHasASlot c = true := by simp [clientHasASlot_iff, hno]
  rw [State.setClientHasASlot, if_neg hslot, if_neg hhas]

-- Only the kind of the slot that is given gets one more holder.
lemma holders_giveSlot (h : Inv o s) (hslot : slot ≠ .noSlot) (hno : s.clientSlot c = .noSlot)
    (k : SlotKind) : (s.setClientHasASlot c slot).holders k =
      s.holders k + if slot = k then 1 else 0 := by
  have hc : c ∉ s.uploaders := fun hmem => (h.uploaders c).mp hmem hno
  have hrest : (s.uploaders.countP fun d => decide (Function.update s.clientSlot c slot d = k)) =
      s.uploaders.countP fun d => decide (s.clientSlot d = k) := by
    refine List.countP_congr fun d hd => ?_
    rw [Function.update_of_ne (ne_of_mem_of_not_mem hd hc)]
  rw [giveSlot_eq hslot hno, State.holders, State.holders]
  dsimp only
  rw [(add_perm hc).countP_eq, List.countP_cons, hrest]
  simp only [Function.update_self, decide_eq_true_eq]

lemma Inv.giveSlot (h : Inv o s) (hslot : slot ≠ .noSlot) (hpending : c ∉ s.pendingSlotsMap)
    (hfriend : slot = .friendSlot → s.holders .friendSlot = 0)
    (hsmall : slot = .smallFileSlot → s.holders .smallFileSlot = 0)
    (hrelease : slot = .releaseSlot → (s.holders .releaseSlot : ℤ) < o.maxReleaseSlots) :
    Inv o (s.setClientHasASlot c slot) := by
  by_cases hno : s.clientSlot c = .noSlot
  swap
  · rwa [State.setClientHasASlot, if_neg hslot, if_pos (clientHasASlot_iff.mpr hno)]
  have hc : c ∉ s.uploaders := fun hmem => (h.uploaders c).mp hmem hno
  have hholders := holders_giveSlot h hslot hno
  have heq := giveSlot_eq hslot hno
  refine ⟨fun d => ?_, ?_, ?_, fun d hd => ?_, ?_, ?_, ?_⟩
  · rw [heq]
    dsimp only
    rw [mem_add, h.uploaders]
    by_cases hd : d = c
    · subst hd
      simp [hslot]
    · simp [hd]
  · rw [heq]
    exact (add_perm hc).nodup_iff.mpr (List.nodup_cons.mpr ⟨hc, h.once⟩)
  · rw [heq]
    exact h.pendingOnce
  · rw [heq] at hd ⊢
    dsimp only at hd ⊢
    rw [Function.update_of_ne (ne_of_mem_of_not_mem hd hpending)]
    exact h.apart d hd
  · rw [hholders]
    split
    · next hk => rw [hfriend hk]
    · exact h.friendSlot
  · rw [hholders]
    split
    · next hk => rw [hsmall hk]
    · exact h.smallFileSlot
  · rw [hholders]
    split
    · next hk =>
      have hless := hrelease hk
      push_cast
      omega
    · exact h.releaseSlot

lemma Inv.takeSlot (h : Inv o s) : Inv o (s.setClientHasASlot c .noSlot) := by
  rw [State.setClientHasASlot, if_pos rfl]
  split
  swap
  · exact h
  have hfewer (k : SlotKind) (hk : k ≠ .noSlot) :
      ({ s with
        clientSlot := Function.update s.clientSlot c .noSlot
        uploaders := s.uploaders.erase c } : State).holders k ≤ s.holders k := by
    rw [State.holders, State.holders]
    dsimp only
    have hrest : ((s.uploaders.erase c).countP fun d =>
        decide (Function.update s.clientSlot c .noSlot d = k)) =
          (s.uploaders.erase c).countP fun d => decide (s.clientSlot d = k) := by
      refine List.countP_congr fun d hd => ?_
      rw [Function.update_of_ne (h.once.mem_erase_iff.mp hd).1]
    rw [hrest]
    exact List.erase_sublist.countP_le
  refine ⟨fun d => ?_, h.once.erase c, h.pendingOnce, fun d hd => ?_, ?_, ?_, ?_⟩
  · rw [h.once.mem_erase_iff, h.uploaders]
    by_cases hd : d = c
    · simp [hd]
    · simp [hd]
  · by_cases hdc : d = c
    · simp [hdc]
    · simpa [hdc] using h.apart d hd
  · exact (hfewer _ (by simp)).trans h.friendSlot
  · exact (hfewer _ (by simp)).trans h.smallFileSlot
  · have hless := hfewer .releaseSlot (by simp)
    exact le_trans (by exact_mod_cast hless) h.releaseSlot

lemma Inv.removePendingSlot (h : Inv o s) : Inv o (s.removePendingSlot c) := by
  rw [State.removePendingSlot]
  split
  · exact ⟨h.uploaders, h.once, h.pendingOnce.erase c,
      fun d hd => h.apart d (List.mem_of_mem_erase hd), h.friendSlot, h.smallFileSlot,
      h.releaseSlot⟩
  · exact h

lemma removePendingSlot_holders (k : SlotKind) :
    (s.removePendingSlot c).holders k = s.holders k := by
  rw [State.removePendingSlot]
  split <;> rfl

lemma notMem_removePendingSlot (h : Inv o s) :
    c ∉ (s.removePendingSlot c).pendingSlotsMap := by
  rw [State.removePendingSlot]
  split
  · exact fun hmem => (h.pendingOnce.mem_erase_iff.mp hmem).1 rfl
  · next hc => exact hc

lemma Inv.addPending (h : Inv o s) : Inv o (s.addPending c) := by
  rw [State.addPending]
  split
  · exact h
  · next hhas =>
    split
    · exact h
    · next hc =>
      have hno : s.clientSlot c = .noSlot := by
        by_contra hne
        exact hhas (clientHasASlot_iff.mpr hne)
      refine ⟨h.uploaders, h.once, ?_, fun d hd => ?_, h.friendSlot, h.smallFileSlot,
        h.releaseSlot⟩
      · exact (add_perm hc).nodup_iff.mpr (List.nodup_cons.mpr ⟨hc, h.pendingOnce⟩)
      · rcases mem_add.mp hd with rfl | hd
        · exact hno
        · exact h.apart d hd

end Slots

section Refill

-- What a refill may do: it gives normal slots, to clients that wait and are connected.
structure Given (s s' : State) : Prop where
  pending : ∀ c ∈ s'.pendingSlotsMap, c ∈ s.pendingSlotsMap
  connected : s'.connected = s.connected
  slots : ∀ c, s'.clientSlot c ≠ s.clientSlot c → c ∈ s.pendingSlotsMap ∧
    s.connected c = true ∧ s.clientSlot c = .noSlot ∧ s'.clientSlot c = .normalSlot

lemma Given.refl (s : State) : Given s s := ⟨fun _ h => h, rfl, fun _ h => absurd rfl h⟩

lemma Given.trans (h : Given s s') (h' : Given s' s'') : Given s s'' where
  pending c hc := h.pending c (h'.pending c hc)
  connected := h'.connected.trans h.connected
  slots c hc := by
    by_cases hsecond : s''.clientSlot c = s'.clientSlot c
    · rw [hsecond] at hc ⊢
      exact h.slots c hc
    · obtain ⟨hpending, hconnected, hno, hnormal⟩ := h'.slots c hsecond
      have hfirst : s'.clientSlot c = s.clientSlot c := by
        by_contra hne
        have hgiven := (h.slots c hne).2.2.2
        rw [hno] at hgiven
        cases hgiven
      rw [h.connected] at hconnected
      exact ⟨h.pending c hpending, hconnected, hfirst ▸ hno, hnormal⟩

-- A slot is given if a client that waits is connected, and one slot only.
lemma findPendingSlot_spec {fuel : ℕ} {random : ℕ → ℕ} (h : Inv o s)
    (hfind : State.findPendingSlot fuel random s = some s') :
    Inv o s' ∧ Given s s' ∧ s'.uploaders.length ≤ s.uploaders.length + 1 ∧
      ((∃ c ∈ s.pendingSlotsMap, s.connected c = true) →
        ∃ c ∈ s.pendingSlotsMap, s.connected c = true ∧ s.clientSlot c = .noSlot ∧
          s'.clientSlot c = .normalSlot) := by
  induction fuel generalizing random s with
  | zero => cases hfind
  | succ fuel ih =>
    rw [State.findPendingSlot] at hfind
    split at hfind
    · next hnone =>
      have hsame : s = s' := Option.some.inj hfind
      subst hsame
      refine ⟨h, .refl s, Nat.le_succ _, ?_⟩
      rintro ⟨c, hc, -⟩
      have hpos : 0 < s.pendingSlotsMap.length := List.length_pos_of_mem hc
      rw [List.getElem?_eq_none_iff] at hnone
      exact absurd (Nat.mod_lt (random 0) hpos) (not_lt.mpr hnone)
    · next c hc =>
      have hmem : c ∈ s.pendingSlotsMap := List.mem_of_getElem? hc
      have hremove : s.removePendingSlot c =
          { s with pendingSlotsMap := s.pendingSlotsMap.erase c } := if_pos hmem
      have hinv : Inv o (s.removePendingSlot c) := h.removePendingSlot
      have hno := h.apart c hmem
      have hgiven : Given s (s.removePendingSlot c) := by
        rw [hremove]
        exact ⟨fun d hd => List.mem_of_mem_erase hd, rfl, fun _ hd => absurd rfl hd⟩
      dsimp only at hfind
      split at hfind
      · next hconnected =>
        cases hfind
        have hno' : (s.removePendingSlot c).clientSlot c = .noSlot := by
          rw [hremove]
          exact hno
        have hconn : s.connected c = true := by
          rw [hremove] at hconnected
          exact hconnected
        have heq := @giveSlot_eq (s.removePendingSlot c) c .normalSlot (by simp) hno'
        refine ⟨hinv.giveSlot (by simp) (notMem_removePendingSlot h) (by simp) (by simp)
          (by simp), ?_, ?_, fun _ => ⟨c, hmem, hconn, hno, ?_⟩⟩
        · rw [heq, hremove]
          refine ⟨fun d hd => List.mem_of_mem_erase hd, rfl, fun d hd => ?_⟩
          by_cases hdc : d = c
          · subst hdc
            exact ⟨hmem, hconn, hno, by simp⟩
          · simp [hdc] at hd
        · rw [heq, hremove]
          dsimp only
          rw [State.add]
          split
          · exact Nat.le_succ _
          · rw [List.orderedInsert_length]
        · rw [heq]
          simp
      · next hconnected =>
        obtain ⟨hinv', hgiven', hlength, hgives⟩ := ih hinv hfind
        refine ⟨hinv', hgiven.trans hgiven', ?_, ?_⟩
        · rw [hremove] at hlength
          exact hlength
        · rintro ⟨d, hd, hdconn⟩
          rw [hremove] at hconnected hgives
          have hdc : d ≠ c := by
            rintro rfl
            exact hconnected hdconn
          obtain ⟨e, he, hrest⟩ :=
            hgives ⟨d, (List.mem_erase_of_ne hdc).mpr hd, hdconn⟩
          exact ⟨e, List.mem_of_mem_erase he, hrest⟩

lemma findPendingSlot_isSome {fuel : ℕ} {random : ℕ → ℕ}
    (hfuel : s.pendingSlotsMap.length < fuel) :
    ∃ s', State.findPendingSlot fuel random s = some s' := by
  induction fuel generalizing random s with
  | zero => exact absurd hfuel (Nat.not_lt_zero _)
  | succ fuel ih =>
    rw [State.findPendingSlot]
    split
    · exact ⟨s, rfl⟩
    · next c hc =>
      have hmem : c ∈ s.pendingSlotsMap := List.mem_of_getElem? hc
      dsimp only
      split
      · exact ⟨_, rfl⟩
      · refine ih ?_
        rw [State.removePendingSlot, if_pos hmem]
        dsimp only
        rw [List.length_erase_of_mem hmem]
        have hpos := List.length_pos_of_mem hmem
        omega

lemma findPending_eq (random : ℕ → ℕ) :
    State.findPendingSlot (s.pendingSlotsMap.length + 1) random s =
      some (s.findPending random) := by
  obtain ⟨s', hs'⟩ := @findPendingSlot_isSome s _ random (Nat.lt_succ_self _)
  rw [State.findPending, hs', Option.getD_some]

lemma openSlots_spec {random : ℕ → ℕ → ℕ} {n : ℕ} (h : Inv o s) :
    Inv o (State.openSlots random n s) ∧ Given s (State.openSlots random n s) ∧
      (State.openSlots random n s).uploaders.length ≤ s.uploaders.length + n := by
  induction n generalizing random s with
  | zero => exact ⟨h, .refl s, le_rfl⟩
  | succ n ih =>
    obtain ⟨hinv, hgiven, hlength, -⟩ := findPendingSlot_spec h (findPending_eq (random 0))
    obtain ⟨hinv', hgiven', hlength'⟩ :=
      @ih (s.findPending (random 0)) (fun i => random (i + 1)) hinv
    exact ⟨hinv', hgiven.trans hgiven', by rw [State.openSlots]; omega⟩

end Refill

section Runs

-- What the scan of the uploaders leaves of a budget
lemma scan_spec {cdir : String} {b b' : Budget} {list : List ℕ}
    (h : list.foldlM (s.scan w cdir) b = some b') :
    b'.allowedReleaseSlots =
        b.allowedReleaseSlots - list.countP (fun c => s.clientSlot c = .releaseSlot) ∧
      b'.cfriend = b.cfriend - list.countP (fun c => s.clientSlot c = .friendSlot) ∧
      b'.csmallfiles =
        b.csmallfiles - list.countP (fun c => s.clientSlot c = .smallFileSlot) := by
  induction list generalizing b with
  | nil =>
    cases h
    simp
  | cons c list ih =>
    rw [List.foldlM_cons] at h
    obtain ⟨b₁, hscan, hrest⟩ := Option.bind_eq_some_iff.mp h
    obtain ⟨hrelease, hfriend, hsmall⟩ := ih hrest
    rw [hrelease, hfriend, hsmall]
    simp only [List.countP_cons]
    rw [State.scan] at hscan
    obtain ⟨file, -, hscan⟩ := Option.bind_eq_some_iff.mp hscan
    dsimp only at hscan
    generalize hprio : (if sharedDir (w.fileShared file) = cdir then
      { b with cprio := b.cprio - 1 } else b) = b₀ at hscan
    have hsame : b₀.allowedReleaseSlots = b.allowedReleaseSlots ∧ b₀.cfriend = b.cfriend ∧
        b₀.csmallfiles = b.csmallfiles := by
      rw [← hprio]
      split <;> exact ⟨rfl, rfl, rfl⟩
    obtain ⟨hrelease₀, hfriend₀, hsmall₀⟩ := hsame
    cases hslot : s.clientSlot c
    all_goals
      rw [hslot] at hscan
      cases hscan
      simp only [decide_true, if_true, reduceCtorEq, decide_false, Bool.false_eq_true, if_false]
      push_cast
      omega

lemma Inv.addPendingSlot (h : Inv o s) (hadd : s.addPendingSlot w o c = some s') : Inv o s' := by
  rw [State.addPendingSlot] at hadd
  obtain ⟨file, -, hadd⟩ := Option.bind_eq_some_iff.mp hadd
  obtain ⟨b, hscan, hadd⟩ := Option.bind_eq_some_iff.mp hadd
  obtain ⟨hrelease, hfriend, hsmall⟩ := scan_spec hscan
  have hfriend₀ : (State.budget w o c (w.fileShared file)).cfriend ≤ 1 := by
    dsimp only [State.budget]
    split <;> omega
  have hsmall₀ : (State.budget w o c (w.fileShared file)).csmallfiles ≤ 1 := by
    dsimp only [State.budget]
    split
    · omega
    · split <;> omega
  have hgive (slot : SlotKind) (hslot : slot ≠ .noSlot)
      (hf : slot = .friendSlot → s.holders .friendSlot = 0)
      (hsm : slot = .smallFileSlot → s.holders .smallFileSlot = 0)
      (hr : slot = .releaseSlot → (s.holders .releaseSlot : ℤ) < o.maxReleaseSlots)
      (hs' : (if (s.removePendingSlot c).connected c then
        some ((s.removePendingSlot c).setClientHasASlot c slot) else
          some (s.removePendingSlot c)) = some s') : Inv o s' := by
    have hinv : Inv o (s.removePendingSlot c) := h.removePendingSlot
    split at hs'
    · cases hs'
      refine hinv.giveSlot hslot (notMem_removePendingSlot h) ?_ ?_ ?_
      all_goals rw [removePendingSlot_holders]
      · exact hf
      · exact hsm
      · exact hr
    · cases hs'
      exact hinv
  dsimp only at hadd
  split at hadd
  · next slot hslot =>
    by_cases hre : (w.fileRelease file && decide (0 < b.allowedReleaseSlots)) = true
    · rw [if_pos hre] at hslot
      cases hslot
      refine hgive _ (by simp) (by simp) (by simp) (fun _ => ?_) hadd
      have hpos : 0 < b.allowedReleaseSlots := by
        simpa using (Bool.and_eq_true_iff.mp hre).2
      rw [hrelease] at hpos
      exact sub_pos.mp hpos
    rw [if_neg hre] at hslot
    by_cases hfr : 0 < b.cfriend
    · rw [if_pos hfr] at hslot
      cases hslot
      refine hgive _ (by simp) (fun _ => ?_) (by simp) (by simp) hadd
      rw [State.holders]
      omega
    rw [if_neg hfr] at hslot
    by_cases hsm : 0 < b.csmallfiles
    · rw [if_pos hsm] at hslot
      cases hslot
      refine hgive _ (by simp) (by simp) (fun _ => ?_) (by simp) hadd
      rw [State.holders]
      omega
    rw [if_neg hsm] at hslot
    by_cases hp : 0 < b.cprio
    · rw [if_pos hp] at hslot
      cases hslot
      exact hgive _ (by simp) (by simp) (by simp) (by simp) hadd
    · rw [if_neg hp] at hslot
      cases hslot
  · cases hadd
    exact h.addPending

lemma Inv.staticRefill (h : Inv o s) (random : ℕ → ℕ) :
    Inv o (s.staticRefillUploadSlots o random) ∧ Given s (s.staticRefillUploadSlots o random) ∧
      ((s.staticRefillUploadSlots o random).uploaders.length : ℤ) ≤
        max (s.uploaders.length : ℤ) o.maxUploadSlots := by
  rw [State.staticRefillUploadSlots]
  split
  · obtain ⟨hinv, hgiven, hlength, -⟩ := findPendingSlot_spec h (findPending_eq random)
    exact ⟨hinv, hgiven, by omega⟩
  · exact ⟨h, .refl s, le_max_left _ _⟩

lemma Inv.counts (h : Inv o s) (n m : ℤ) :
    Inv o { s with notSaturatedCount := n, allocationCluster := m } :=
  ⟨h.uploaders, h.once, h.pendingOnce, h.apart, h.friendSlot, h.smallFileSlot, h.releaseSlot⟩

lemma Given.counts (h : Given s s') (n m : ℤ) :
    Given s { s' with notSaturatedCount := n, allocationCluster := m } :=
  ⟨h.pending, h.connected, h.slots⟩

lemma Inv.dynamicRefill (h : Inv o s) (r : State.Readings) (random : ℕ → ℕ → ℕ) :
    Inv o (s.dynamicRefillUploadSlots o r random) ∧
      Given s (s.dynamicRefillUploadSlots o r random) ∧
        ((s.dynamicRefillUploadSlots o r random).uploaders.length : ℤ) ≤
          max (s.uploaders.length : ℤ) (max o.maxUploadSlots 3) := by
  rw [State.dynamicRefillUploadSlots]
  dsimp only
  split
  swap
  · exact ⟨h, .refl s, le_max_left _ _⟩
  · next hless =>
    -- The count of saturated turns has no part in it.
    have hcount : ∃ n m, (if r.shortDelayUploadUsage + State.slotBw < (if r.maxHardUploadRate = 0
        then r.detectedUplinkCapacity
        else min r.detectedUplinkCapacity (r.maxHardUploadRate * 1024)) then
          { s with notSaturatedCount := s.notSaturatedCount + 1 } else s.resetState) =
        { s with notSaturatedCount := n, allocationCluster := m } := by
      split_ifs <;> exact ⟨_, _, rfl⟩
    obtain ⟨n, m, hcount⟩ := hcount
    rw [hcount]
    have hopen (i : ℕ) := @openSlots_spec o _ random i (h.counts n m)
    have hgiven := (Given.refl s).counts n m
    split
    · next hfew =>
      obtain ⟨hinv, hgiven', hlength⟩ := hopen (State.minUploadSlots - s.uploaders.length).toNat
      refine ⟨hinv.counts _ _, (hgiven.trans hgiven').counts _ _, ?_⟩
      show ((State.openSlots random _ _).uploaders.length : ℤ) ≤ _
      dsimp only [State.minUploadSlots] at hlength hfew ⊢
      omega
    · split
      · obtain ⟨hinv, hgiven', hlength⟩ := hopen
          (min m (o.maxUploadSlots - s.uploaders.length)).toNat
        refine ⟨hinv.counts _ _, (hgiven.trans hgiven').counts _ _, ?_⟩
        show ((State.openSlots random _ _).uploaders.length : ℤ) ≤ _
        dsimp only at hlength ⊢
        omega
      · exact ⟨h.counts n m, hgiven, le_max_left _ _⟩

lemma Inv.step (h : Inv o s) (op : Op φ) : Inv o (step o op s) := by
  cases op with
  | addPendingSlot w c =>
    rw [UploadSlots.step]
    cases hadd : s.addPendingSlot w o c with
    | none => exact h
    | some s' => exact h.addPendingSlot hadd
  | removePendingSlot c => exact h.removePendingSlot
  | staticRefill random => exact (h.staticRefill random).1
  | dynamicRefill r random => exact (h.dynamicRefill r random).1
  | connect c =>
    exact ⟨h.uploaders, h.once, h.pendingOnce, h.apart, h.friendSlot, h.smallFileSlot,
      h.releaseSlot⟩
  | disconnect c =>
    have htaken := @Inv.takeSlot o s c h
    exact ⟨htaken.uploaders, htaken.once, htaken.pendingOnce, htaken.apart, htaken.friendSlot,
      htaken.smallFileSlot, htaken.releaseSlot⟩

lemma inv_initial : Inv o .initial where
  uploaders c := by simp [State.initial]
  once := .nil
  pendingOnce := .nil
  apart c hc := by simp [State.initial] at hc
  friendSlot := Nat.zero_le _
  smallFileSlot := Nat.zero_le _
  releaseSlot := le_max_left _ _

end Runs

-- What holds in every state, with what a refill does in it
structure Consistent (o : Options) (s : State) : Prop where
  uploaders : ∀ c, c ∈ s.uploaders ↔ s.clientSlot c ≠ .noSlot
  apart : ∀ c ∈ s.pendingSlotsMap, s.clientSlot c = .noSlot
  friendSlot : s.holders .friendSlot ≤ 1
  smallFileSlot : s.holders .smallFileSlot ≤ 1
  releaseSlot : (s.holders .releaseSlot : ℤ) ≤ max 0 o.maxReleaseSlots
  staticRefill : ∀ random, Given s (s.staticRefillUploadSlots o random) ∧
    ((s.staticRefillUploadSlots o random).uploaders.length : ℤ) ≤
      max (s.uploaders.length : ℤ) o.maxUploadSlots
  dynamicRefill : ∀ r random, Given s (s.dynamicRefillUploadSlots o r random) ∧
    ((s.dynamicRefillUploadSlots o r random).uploaders.length : ℤ) ≤
      max (s.uploaders.length : ℤ) (max o.maxUploadSlots 3)
  findPendingSlot : ∀ random, ∃ fuel s', State.findPendingSlot fuel random s = some s' ∧
    ((∃ c ∈ s.pendingSlotsMap, s.connected c = true) →
      ∃ c ∈ s.pendingSlotsMap, s.connected c = true ∧ s.clientSlot c = .noSlot ∧
        s'.clientSlot c = .normalSlot)

-- Every sequence of operations
theorem slots_consistent (h : Reach (@step φ o) (fun s => s = .initial) (fun _ _ => True) s) :
    Consistent o s := by
  have hinv : Inv o s := by
    refine h.inv ?_ fun s op hs _ => hs.step op
    rintro s rfl
    exact inv_initial
  refine ⟨hinv.uploaders, hinv.apart, hinv.friendSlot, hinv.smallFileSlot, hinv.releaseSlot,
    fun random => (hinv.staticRefill random).2, fun r random => (hinv.dynamicRefill r random).2,
    fun random => ?_⟩
  exact ⟨_, s.findPending random, findPending_eq random,
    (findPendingSlot_spec hinv (findPending_eq random)).2.2.2⟩

-- Clients that all want the same file, of no directory
def oneFile : World Unit :=
  ⟨fun _ => some (), fun _ => false, fun _ => none, fun _ => false, fun _ => 0⟩

def fiveSlots : Options := ⟨5, 0, false, 0⟩

-- Two clients wait, and the one that is connected gets a slot.
def served : State :=
  @step Unit fiveSlots (.staticRefill fun _ => 0)
    (step fiveSlots (.addPendingSlot oneFile 2) (@step Unit fiveSlots (.connect 2)
      (step fiveSlots (.addPendingSlot oneFile 1) .initial)))

theorem slots_consistent_served : Consistent fiveSlots served ∧ served.uploaders = [2] := by
  have hreach : Reach (@step Unit fiveSlots) (fun s => s = .initial) (fun _ _ => True) served :=
    .step (.step (.step (.step (.start rfl) trivial) trivial) trivial) trivial
  exact ⟨slots_consistent hreach, by decide⟩

end Mldonkey.UploadSlots
