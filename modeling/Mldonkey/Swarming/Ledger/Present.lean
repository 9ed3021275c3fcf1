import Mldonkey.Swarming.Ledger.Receive

namespace Mldonkey.Swarming

open Effects HalfOpen

namespace Store

variable {c d : Prop} {s s' : Store} {b : BlockId} {r : RangeId} {i : Nat}

theorem blockAt_of_length_le (h : s.blocks.length ≤ i) : s.blockAt i = .emptyBlock := by
  simp [blockAt, List.getElem?_eq_none h]

theorem setBlockAt_of_length_le (h : s.blocks.length ≤ i) (v : BlockV) : s.setBlockAt i v = s := by
  simp only [setBlockAt, List.set_eq_of_length_le h]

theorem completeAt_of_length_le (h : s.blocks.length ≤ i) : s.completeAt i = s := by
  simp only [completeAt, blockAt_of_length_le h, setBlockAt_of_length_le h]

end Store

namespace State

open Store

variable {c d : Prop} {s s' s'' : State} {b : BlockId} {r : RangeId} {i : Nat}

-- A number past the last block completes nothing.
theorem Sealed.outside (h : Sealed i s s') (hb : Books c d s.toStore) (hf : 0 < s.files.length)
    (hi : s.blocks.length ≤ i) : s'.toStore = s.toStore ∧ Fills ∅ s s' := by
  have hst : s'.toStore = s.toStore := by
    rcases h.store with e | e
    · rw [e, completeAt_of_length_le hi]
    · rw [e, completeAt_of_length_le hi, setBlockAt_of_length_le hi]
  obtain ⟨maybeT, hd⟩ := h.downloaded
  have hpos := hb.placed.positions
  have hzero : s.computeBlockEnd i - s.computeBlockBegin i = 0 := by
    have h₁ : s.blockPos[i]? = none := List.getElem?_eq_none (by omega)
    have h₂ : s.blockPos[i + 1]? = none := List.getElem?_eq_none (by omega)
    rw [computeBlockEnd, if_neg (by omega), computeBlockBegin]
    simp [h₁, h₂]
  refine ⟨hst, fun y => by rw [hst]; simp, by simp, ?_⟩
  have hset : (s.setCompletedBlock maybeT i).file 0 =
      (s.addFileDownloaded maybeT (s.computeBlockEnd i - s.computeBlockBegin i)).file 0 := by
    simp only [setCompletedBlock, blockAt_of_length_le hi]
    exact (setSwarmerStateComplete_books _ i).file 0
  rw [hd, hset, downloaded_addFileDownloaded _ _ _ hf, hzero]
  simp

theorem Sealed.keeps (h : Sealed i s s') (hb : Books c d s.toStore) (hf : 0 < s.files.length) :
    Books c d s'.toStore ∧ Moves s s' ∧ ∃ w, Fills w s s' := by
  by_cases hi : i < s.blocks.length
  · have hc := h.completed hb hi hf
    exact ⟨hc.books hb hi, hc.moves hb hi, _, hc.fills hb hi⟩
  · obtain ⟨hst, hfill⟩ := h.outside hb hf (Nat.not_lt.mp hi)
    refine ⟨hst ▸ hb, ⟨h.rest, ?_⟩, _, hfill⟩
    rw [hst]
    exact .refl _

-- A step that leaves the ranges of `b` but `r` alone.
structure Spares (b : BlockId) (r : RangeId) (s s' : State) : Prop where
  blocks : s'.blocks = s.blocks
  nextRange : s'.nextRange = s.nextRange
  ranges : ∀ r' ∈ s.ranges b, r' ≠ r → r' ∈ s'.ranges b
  range : ∀ r' ≠ r, s'.range r' = s.range r'

theorem toStore_advanceRange (s : State) (maybeT : Option Nat) (r : RangeId) (newBegin : Int) :
    (s.advanceRange maybeT r newBegin).toStore = s.toStore.advanceRange r newBegin := by
  simp only [State.advanceRange, toStore_withStore, toStore_addFileDownloaded]

theorem rest_advanceRange (s : State) (maybeT : Option Nat) (r : RangeId) (newBegin : Int) :
    Rest s (s.advanceRange maybeT r newBegin) :=
  (rest_addFileDownloaded s maybeT _).trans (rest_withStore _ _)

theorem downloaded_advanceRange (s : State) (maybeT : Option Nat) (r : RangeId) (newBegin : Int)
    (hf : 0 < s.files.length) : ((s.advanceRange maybeT r newBegin).file 0).downloaded =
      (s.file 0).downloaded + (newBegin - (s.range r).rangeBegin) :=
  downloaded_addFileDownloaded s maybeT _ hf

theorem rangeReceived_rest (s : State) (hn : 0 < s.networks.length) (maybeT : Option Nat)
    (r : RangeId) (intervalBegin intervalEnd : Int) :
    Outcome (rangeReceived maybeT r intervalBegin intervalEnd) (fun _ s' => Rest s s')
      (fun _ _ => False) s := by
  unfold rangeReceived
  rw [outcome_get_bind]
  dsimp only
  split
  · rw [outcome_modify_bind]
    have hrest := rest_advanceRange s maybeT r
      (max (min intervalEnd (s.range r).rangeEnd) (s.range r).rangeBegin)
    split
    · split
      · exact hrest.trans (rest_withStore _ _)
      · refine (blockReceived_sealed _ (by rw [hrest.networks_length]; exact hn) _).mono
          (fun _ s' h => ?_) fun _ _ h => h
        rcases h with ⟨e, -⟩ | h
        · exact e ▸ hrest
        · exact hrest.trans h.rest
    · exact hrest
  · exact .refl s

-- The bytes that range_received finds in a range.
noncomputable def receivedBytes (x : Range) (intervalBegin intervalEnd : Int) : Finset Int :=
  if intervalBegin ≤ x.rangeBegin then Finset.Ico x.rangeBegin (min intervalEnd x.rangeEnd) else ∅

theorem rangeReceived_linked (h : Books c d s.toStore) (hn : 0 < s.networks.length)
    (hf : 0 < s.files.length) (hi : i < s.blocks.length) (hb : s.blockAt i = .partialBlock b)
    (hr : r ∈ s.ranges b) (maybeT : Option Nat) (intervalBegin intervalEnd : Int) :
    Outcome (rangeReceived maybeT r intervalBegin intervalEnd)
      (fun _ s' => Books c d s'.toStore ∧ Moves s s' ∧
        Fills (receivedBytes (s.range r) intervalBegin intervalEnd) s s' ∧
        (s.ranges b ≠ [r] → Spares b r s s')) (fun _ _ => False) s := by
  have ht := h.tidy i hi b hb
  obtain ⟨hrb, hlt⟩ := h.owned b r hr
  have hspan := ht.toSound.of_mem hr
  unfold rangeReceived receivedBytes
  rw [outcome_get_bind]
  dsimp only
  split
  · next hin =>
      rw [if_pos hin.1]
      have hnb : max (min intervalEnd (s.range r).rangeEnd) (s.range r).rangeBegin =
          min intervalEnd (s.range r).rangeEnd := by omega
      rw [hnb, outcome_modify_bind]
      have hcard : ((Finset.Ico (s.range r).rangeBegin (min intervalEnd (s.range r).rangeEnd)).card
          : Int) = min intervalEnd (s.range r).rangeEnd - (s.range r).rangeBegin := by
        rw [Int.card_Ico]; omega
      have hbefore : ∀ y ∈ Finset.Ico (s.range r).rangeBegin
          (min intervalEnd (s.range r).rangeEnd), s.Missing y := by
        intro y hy
        rw [Finset.mem_Ico] at hy
        rw [h.placed.missing_iff hi (by omega), hb]
        exact ⟨(s.range r).span, List.mem_map_of_mem hr, hy.1, by
          show y < (s.range r).rangeEnd; omega⟩
      have hmem : ∀ y, ¬ ((s.range r).rangeBegin ≤ y ∧
          y < min intervalEnd (s.range r).rangeEnd) ↔ y ∉ Finset.Ico (s.range r).rangeBegin
            (min intervalEnd (s.range r).rangeEnd) := fun y => by rw [Finset.mem_Ico]
      have hd := downloaded_advanceRange s maybeT r (min intervalEnd (s.range r).rangeEnd) hf
      have hrest := rest_advanceRange s maybeT r (min intervalEnd (s.range r).rangeEnd)
      have hst := toStore_advanceRange s maybeT r (min intervalEnd (s.range r).rangeEnd)
      split
      · next hend =>
          split
          · next hne =>
              -- the range was not the last one of its block
              rw [hrb] at hne
              have hne' : s.ranges b ≠ [r] := hne.2
              have hfin : ((s.advanceRange maybeT r (min intervalEnd (s.range r).rangeEnd)).withStore
                  (·.modifyBlock (s.range r).block fun x =>
                    { x with ranges := x.ranges.erase r })).toStore =
                  s.toStore.finishRange b r := by
                rw [toStore_withStore, hst, hend, hrb]; rfl
              obtain ⟨h₁, h₂⟩ := h.finishRange hr hne' (by omega)
              refine ⟨by rw [hfin]; exact h₁, ⟨hrest.trans (rest_withStore _ _), by
                rw [hfin]; exact h₂⟩, ⟨fun y => ?_, hbefore, ?_⟩, fun _ => ⟨?_, ?_, ?_, ?_⟩⟩
              · rw [hfin, h.missing_finishRange hr hi hb, ← hmem, hend]
              · rw [hcard]; exact hd
              · rw [hfin]; rfl
              · rw [hfin]; rfl
              · intro r' hr' hne
                rw [hfin, ranges_finishRange, if_pos rfl]
                exact (List.mem_erase_of_ne hne).mpr hr'
              · intro r' hne
                rw [hfin, range_finishRange, if_neg hne]
          · next hlast =>
              have hl : s.ranges b = [r] := by
                by_contra hne
                rw [hrb] at hlast
                exact hlast ⟨hr, hne⟩
              rw [hrb, ht.num]
              refine (blockReceived_sealed _ (by rw [hrest.networks_length]; exact hn) i).mono
                (fun _ s' hs' => ?_) fun _ _ h => h
              have hbi : (s.advanceRange maybeT r (min intervalEnd (s.range r).rangeEnd)).blockAt i
                  = .partialBlock b := by rw [hst]; exact hb
              have hseal := hs'.resolve_left fun e => by rw [hbi] at e; simp at e
              have hc := hseal.completed_last h hi hf hb hl (m := maybeT) (by rw [hend])
              refine ⟨hc.books h hi, hc.moves h hi, ?_, fun hne => absurd hl hne⟩
              have hset : missingAt s.toStore i = Finset.Ico (s.range r).rangeBegin
                  (min intervalEnd (s.range r).rangeEnd) := by
                ext y
                rw [mem_missingAt, hb, hend]
                simp only [MissingIn, hl, spans_cons, spans_nil, covers_cons, covers_nil,
                  Range.span, or_false, Finset.mem_Ico]
                omega
              exact hset ▸ hc.fills h hi
      · next hend =>
          have hle : min intervalEnd (s.range r).rangeEnd < (s.range r).rangeEnd := by omega
          have hlink : r ∈ s.ranges (s.range r).block := by rw [hrb]; exact hr
          have hvoid : ¬ s.Void r := by unfold Store.Void; omega
          have hbooks := h.advanceRange _ (.inr fun _ => hlink) hvoid (by omega) fun _ => hle
          have hev := Evolves.advanceRange h r
            (min intervalEnd (s.range r).rangeEnd) (by omega) hle.le
          refine ⟨hst ▸ hbooks, ⟨hrest, hst ▸ hev⟩, ⟨fun y => ?_, hbefore, ?_⟩,
            fun _ => ⟨?_, ?_, ?_, ?_⟩⟩
          · rw [hst, h.missing_advanceRange hr hi hb (by omega) hle.le, ← hmem]
          · rw [hcard]; exact hd
          · rw [hst]; rfl
          · rw [hst]; rfl
          · intro r' hr' _
            rw [hst, ranges_advanceRange]; exact hr'
          · intro r' hne
            rw [hst, range_advanceRange, if_neg hne]
  · next hin =>
      have hset : (if intervalBegin ≤ (s.range r).rangeBegin then
          Finset.Ico (s.range r).rangeBegin (min intervalEnd (s.range r).rangeEnd) else ∅) = ∅ := by
        split
        · exact Finset.Ico_eq_empty (by omega)
        · rfl
      rw [hset]
      exact ⟨h, .refl s, .refl s, fun _ => ⟨rfl, rfl, fun _ h _ => h, fun _ _ => rfl⟩⟩

-- A range of a block that is no longer in use: only the counters go wrong.
theorem rangeReceived_stale (h : Books c d s.toStore) (hn : 0 < s.networks.length)
    (hf : 0 < s.files.length) (hc : ¬ s.Current (s.range r).block)
    (hv : (s.range r).rangeBegin < (s.range r).rangeEnd) (maybeT : Option Nat)
    (intervalBegin intervalEnd : Int) :
    Outcome (rangeReceived maybeT r intervalBegin intervalEnd)
      (fun _ s' => Books c d s'.toStore ∧ Moves s s') (fun _ _ => False) s := by
  unfold rangeReceived
  rw [outcome_get_bind]
  dsimp only
  split
  · next hin =>
      have hnb : max (min intervalEnd (s.range r).rangeEnd) (s.range r).rangeBegin =
          min intervalEnd (s.range r).rangeEnd := by omega
      rw [hnb, outcome_modify_bind]
      have hrest := rest_advanceRange s maybeT r (min intervalEnd (s.range r).rangeEnd)
      have hst := toStore_advanceRange s maybeT r (min intervalEnd (s.range r).rangeEnd)
      have hvoid : ¬ s.Void r := by unfold Store.Void; omega
      have hbooks := h.advanceRange (min intervalEnd (s.range r).rangeEnd)
        (.inr fun hc' => absurd hc' hc) hvoid (by omega) fun hc' => absurd hc' hc
      have hev := Evolves.advanceRange h r
        (min intervalEnd (s.range r).rangeEnd) (by omega) (by omega)
      have hmoves : Moves s (s.advanceRange maybeT r (min intervalEnd (s.range r).rangeEnd)) :=
        ⟨hrest, hst ▸ hev⟩
      split
      · next hend =>
          split
          · next hne =>
              have hfin : ((s.advanceRange maybeT r (min intervalEnd (s.range r).rangeEnd)).withStore
                  (·.modifyBlock (s.range r).block fun x =>
                    { x with ranges := x.ranges.erase r })).toStore =
                  s.toStore.finishRange (s.range r).block r := by
                rw [toStore_withStore, hst, hend]; rfl
              obtain ⟨h₁, h₂⟩ := h.finishRange hne.1 hne.2 (by omega)
              refine ⟨?_, hrest.trans (rest_withStore _ _), ?_⟩
              · rw [hfin]; exact h₁
              · rw [hfin]; exact h₂
          · refine (blockReceived_sealed _ (by rw [hrest.networks_length]; exact hn) _).mono
              (fun _ s' hs' => ?_) fun _ _ h => h
            rcases hs' with ⟨e, -⟩ | hs'
            · exact e ▸ ⟨hst ▸ hbooks, hmoves⟩
            · have := hs'.keeps (hst ▸ hbooks) (by rw [hrest.files_length]; exact hf)
              exact ⟨this.1, hmoves.trans this.2.1⟩
      · exact ⟨hst ▸ hbooks, hmoves⟩
  · exact ⟨h, .refl s⟩

-- The data that a peer sent for a range of its list.
theorem rangeReceived_kept (h : Books c d s.toStore) (hn : 0 < s.networks.length)
    (hf : 0 < s.files.length) (hk : s.Kept r)
    (hv : (s.range r).rangeBegin < (s.range r).rangeEnd) (maybeT : Option Nat)
    (intervalBegin intervalEnd : Int) :
    Outcome (rangeReceived maybeT r intervalBegin intervalEnd)
      (fun _ s' => Books c d s'.toStore ∧ Moves s s' ∧
        (s.Held r → Fills (receivedBytes (s.range r) intervalBegin intervalEnd) s s'))
      (fun _ _ => False) s := by
  have hvoid : ¬ s.Void r := by unfold Store.Void; omega
  by_cases hc : s.Current (s.range r).block
  · have hlink := (hk.resolve_left hvoid) hc
    obtain ⟨i, hi, hb⟩ := hc
    exact (rangeReceived_linked h hn hf hi hb hlink maybeT _ _).mono
      (fun _ _ h' => ⟨h'.1, h'.2.1, fun _ => h'.2.2.1⟩) fun _ _ h => h
  · exact (rangeReceived_stale h hn hf hc hv maybeT _ _).mono
      (fun _ _ h' => ⟨h'.1, h'.2, fun hh => absurd (hh.resolve_left hvoid) hc⟩) fun _ _ h => h

section SetPresentBlock

variable {intervalBegin intervalEnd : Int}

theorem foldl_splitRange : ∀ (l : List RangeId) {s : State}, Books c d s.toStore →
    (d → ∀ r ∈ s.ranges b, (s.range r).rangeBegin < intervalBegin →
      intervalBegin < (s.range r).rangeEnd → (s.range r).nuploading = 0) →
    (∀ r ∈ l, r ∈ s.ranges b) →
    (∀ r ∈ s.ranges b, r ∉ l →
      ¬ ((s.range r).rangeBegin < intervalBegin ∧ intervalBegin < (s.range r).rangeEnd)) →
    ∃ s', l.foldl (fun s r => s.withStore (·.splitRange r intervalBegin)) s = s' ∧
      Books c d s'.toStore ∧ Moves s s' ∧ s'.blocks = s.blocks ∧ s'.files = s.files ∧
      (∀ y, s'.Missing y ↔ s.Missing y) ∧
      ∀ r ∈ s'.ranges b,
        ¬ ((s'.range r).rangeBegin < intervalBegin ∧ intervalBegin < (s'.range r).rangeEnd)
  | [], s, h, _, _, hdone =>
      ⟨s, rfl, h, .refl s, rfl, rfl, fun _ => Iff.rfl, fun r hr => hdone r hr (by simp)⟩
  | r :: l, s, h, hd, hl, hdone => by
      have hr := hl r (by simp)
      obtain ⟨hrb, hlt⟩ := h.owned b r hr
      obtain ⟨h₁, hev⟩ := h.splitRange hr intervalBegin fun hd' h₁ h₂ _ => hd hd' r hr h₁ h₂
      have hm := h.missing_splitRange hr intervalBegin
      have hbl : (s.toStore.splitRange r intervalBegin).blocks = s.blocks :=
        (s.toStore.splitRange_only r intervalBegin).blocks
      have hmoves : Moves s (s.withStore (·.splitRange r intervalBegin)) :=
        ⟨rest_withStore s _, hev⟩
      have hstep : ∀ r' ∈ (s.toStore.splitRange r intervalBegin).ranges b,
          (r' ≠ r ∧ r' ∈ s.ranges b ∧ (s.toStore.splitRange r intervalBegin).range r' =
            s.range r') ∨ ¬ (((s.toStore.splitRange r intervalBegin).range r').rangeBegin <
              intervalBegin ∧ intervalBegin <
              ((s.toStore.splitRange r intervalBegin).range r').rangeEnd) := by
        intro r' hr'
        by_cases hcut : (s.range r).rangeBegin < intervalBegin ∧ intervalBegin < (s.range r).rangeEnd
        · have hranges := ranges_splitRange hcut
          rw [hrb] at hranges
          rw [hranges] at hr'
          rw [range_splitRange hlt hcut]
          by_cases e : r' = r
          · rw [if_pos e]
            exact .inr (by dsimp only; omega)
          · rw [if_neg e]
            by_cases e' : r' = s.nextRange
            · rw [if_pos e']
              exact .inr (by dsimp only; omega)
            · rw [if_neg e']
              exact .inl ⟨e, (mem_insertAfter hr').resolve_right fun e'' => e' e''.1, rfl⟩
        · rw [splitRange_of_not hcut] at hr' ⊢
          by_cases e : r' = r
          · rw [e]; exact .inr hcut
          · exact .inl ⟨e, hr', rfl⟩
      have hmem : ∀ r' ∈ s.ranges b, r' ∈ (s.toStore.splitRange r intervalBegin).ranges b := by
        intro r' hr'
        by_cases hcut : (s.range r).rangeBegin < intervalBegin ∧ intervalBegin < (s.range r).rangeEnd
        · have hranges := ranges_splitRange hcut
          rw [hrb] at hranges
          rw [hranges]
          exact mem_insertAfter_of_mem hr'
        · rwa [splitRange_of_not hcut]
      have hrange : ∀ r', (s.withStore (·.splitRange r intervalBegin)).range r' =
          (s.toStore.splitRange r intervalBegin).range r' := fun _ => rfl
      obtain ⟨s', he, h₂, h₃, h₄, h₅, h₆, h₇⟩ := foldl_splitRange l
        (s := s.withStore (·.splitRange r intervalBegin)) h₁ (fun hd' r' hr' h₁ h₂ => by
          rcases hstep r' hr' with ⟨_, hold, e⟩ | hno
          · rw [hrange, e] at h₁ h₂ ⊢
            exact hd hd' r' hold h₁ h₂
          · exact absurd ⟨h₁, h₂⟩ hno)
        (fun r' hr' => hmem r' (hl r' (by simp [hr']))) fun r' hr' hn => by
          rcases hstep r' hr' with ⟨hne, hold, e⟩ | hno
          · rw [hrange, e]
            exact hdone r' hold (by simp [hne, hn])
          · exact hno
      exact ⟨s', he, h₂, hmoves.trans h₃, h₄.trans hbl, h₅,
        fun y => (h₆ y).trans (hm y), h₇⟩

-- Receiving in the ranges of a list, each of which stays as it is until its turn.
theorem forM_rangeReceived (hn : 0 < s.networks.length) (hf : 0 < s.files.length) :
    ∀ (l : List RangeId) {s₁ : State}, l.Nodup → Books c d s₁.toStore → Moves s s₁ →
      (l ≠ [] → i < s₁.blocks.length ∧ s₁.blockAt i = .partialBlock b ∧
        ∀ r ∈ l, r ∈ s₁.ranges b ∧ r < s.nextRange ∧ s₁.range r = s.range r) →
      Outcome (forM l fun r => rangeReceived none r intervalBegin intervalEnd)
        (fun _ s' => Books c d s'.toStore ∧ Moves s s' ∧ ∃ w, Fills w s₁ s' ∧
          ∀ y, y ∈ w ↔ ∃ r ∈ l, y ∈ receivedBytes (s.range r) intervalBegin intervalEnd)
        (fun _ _ => False) s₁
  | [], s₁, _, h, hm, _ => by
      rw [List.forM_nil]
      exact ⟨h, hm, ∅, .refl s₁, by simp⟩
  | r :: l, s₁, hnd, h, hm, hl => by
      obtain ⟨hi, hb, hall⟩ := hl (by simp)
      obtain ⟨hr, hlt, hrange⟩ := hall r (by simp)
      obtain ⟨hrl, hnd⟩ := List.nodup_cons.mp hnd
      rw [List.forM_cons]
      refine (rangeReceived_linked h (by rw [hm.networks_length]; exact hn)
        (by rw [hm.files_length]; exact hf) hi hb hr none _ _).bind fun _ s₂ hs₂ => ?_
      obtain ⟨h₂, hm₂, hfill, hsp⟩ := hs₂
      refine (forM_rangeReceived hn hf l hnd h₂ (hm.trans hm₂) fun hne => ?_).mono
        (fun _ s' hs' => ?_) fun _ _ h => h
      · obtain ⟨r₂, hr₂⟩ := List.exists_mem_of_ne_nil l hne
        have hr₂' := (hall r₂ (by simp [hr₂])).1
        have hsp := hsp fun e => by
          rw [e, List.mem_singleton] at hr₂'
          exact hrl (hr₂' ▸ hr₂)
        refine ⟨by rw [hsp.blocks]; exact hi, ?_, fun r' hr' => ?_⟩
        · simp only [Store.blockAt, hsp.blocks] at hb ⊢; exact hb
        · have hne' : r' ≠ r := fun e => hrl (e ▸ hr')
          obtain ⟨h₁, h₂, h₃⟩ := hall r' (by simp [hr'])
          exact ⟨hsp.ranges r' h₁ hne', h₂, (hsp.range r' hne').trans h₃⟩
      · obtain ⟨h₃, hm₃, w, hw, hmem⟩ := hs'
        refine ⟨h₃, hm₃, _, hfill.trans hw, fun y => ?_⟩
        rw [Finset.mem_union, hmem, hrange]
        simp

-- The bytes of one interval become present in a partial block.
theorem setPresentBlock_outcome (h : Books c d s.toStore) (hn : 0 < s.networks.length)
    (hf : 0 < s.files.length) (hi : i < s.blocks.length) (hb : s.blockAt i = .partialBlock b)
    (hd : d → ∀ r ∈ s.ranges b, (s.range r).rangeBegin < intervalBegin →
      intervalBegin < (s.range r).rangeEnd → (s.range r).nuploading = 0) :
    Outcome (setPresentBlock b intervalBegin intervalEnd)
      (fun _ s' => Books c d s'.toStore ∧ Moves s s' ∧ ∃ w, Fills w s s' ∧
        ∀ y, y ∈ w ↔ s.Missing y ∧ (s.computeBlockBegin i ≤ y ∧ y < s.computeBlockEnd i) ∧
          intervalBegin ≤ y ∧ y < intervalEnd)
      (fun _ _ => False) s := by
  unfold setPresentBlock
  obtain ⟨s₁, he, h₁, hm₁, hbl, hfiles, hmiss, hno⟩ := foldl_splitRange (s.ranges b) h hd
    (fun r hr => hr) fun r hr hn => absurd hr hn
  rw [outcome_modify_bind, outcome_get_bind]
  rw [show (s.block b).ranges = s.ranges b from rfl, he]
  have hi₁ : i < s₁.blocks.length := by rw [hbl]; exact hi
  have hb₁ : s₁.blockAt i = .partialBlock b := by
    simp only [Store.blockAt, hbl] at hb ⊢; exact hb
  have ht := h₁.tidy i hi₁ b hb₁
  have hl := hm₁.evolves.layout
  refine (forM_rangeReceived (s := s₁) (by rw [hm₁.networks_length]; exact hn)
    (by rw [hm₁.files_length]; exact hf) (s₁.ranges b) ht.nodup h₁ (.refl s₁)
    fun _ => ⟨hi₁, hb₁, fun r hr => ⟨hr, (ht.owned r hr).2, rfl⟩⟩).mono
    (fun _ s' hs' => ?_) fun _ _ h => h
  obtain ⟨h₂, hm₂, w, hw, hmem⟩ := hs'
  refine ⟨h₂, hm₁.trans hm₂, w, ⟨fun y => ?_, fun y hy => ?_, ?_⟩, fun y => ?_⟩
  · rw [hw.missing, hmiss]
  · exact (hmiss y).mp (hw.before y hy)
  · rw [hw.downloaded]
    simp only [State.file, hfiles]
  · rw [hmem]
    constructor
    · rintro ⟨r, hr, hy⟩
      have hspan := ht.toSound.of_mem hr
      rw [computeBlockBegin_congr hl, computeBlockEnd_congr hl] at hspan
      have hy' := hw.before y ((hmem y).mpr ⟨r, hr, hy⟩)
      unfold receivedBytes at hy
      split at hy
      · rw [Finset.mem_Ico] at hy
        exact ⟨(hmiss y).mp hy', by omega, by omega⟩
      · simp at hy
    · rintro ⟨hy, hin, hint⟩
      rw [← hmiss, h₁.placed.missing_iff hi₁ (by
        rw [computeBlockBegin_congr hl, computeBlockEnd_congr hl]; exact hin), hb₁] at hy
      obtain ⟨p, hp, hy₁, hy₂⟩ := hy
      obtain ⟨r, hr, rfl⟩ := List.mem_map.mp hp
      refine ⟨r, hr, ?_⟩
      have := hno r hr
      simp only [Range.span] at hy₁ hy₂
      unfold receivedBytes
      rw [if_pos (by omega), Finset.mem_Ico]
      omega

end SetPresentBlock

end State

end Mldonkey.Swarming
