import Mldonkey.Swarming.Ledger.Uploaders

namespace Mldonkey.Swarming

open Effects HalfOpen Counting

namespace State

variable {s : State} {up : Nat}

theorem foldl_decrNuploading : ∀ (l : List Nat) (s : State),
    ∃ n, l.foldl decrNuploading s = { s with nuploading := n } ∧
      n.length = s.nuploading.length ∧
      ∀ i, n.getD i 0 = s.nuploading.getD i 0 - l.count i
  | [], s => ⟨s.nuploading, rfl, rfl, by simp⟩
  | x :: l, s => by
      obtain ⟨n, he, hlen, hn⟩ := foldl_decrNuploading l (s.decrNuploading x)
      refine ⟨n, he, hlen.trans (List.length_modify _ _ _), fun i => ?_⟩
      rw [hn i, List.count_cons]
      simp only [decrNuploading, List.getD_eq_getElem?_getD, List.getElem?_modify]
      by_cases e : x = i
      · cases s.nuploading[i]? <;> simp [e]
        omega
      · simp [e]

theorem foldl_incrNuploading : ∀ (l : List Nat) (s : State),
    ∃ n, l.foldl incrNuploading s = { s with nuploading := n } ∧
      n.length = s.nuploading.length ∧
      ∀ i < s.nuploading.length, n.getD i 0 = s.nuploading.getD i 0 + l.count i
  | [], s => ⟨s.nuploading, rfl, rfl, by simp⟩
  | x :: l, s => by
      obtain ⟨n, he, hlen, hn⟩ := foldl_incrNuploading l (s.incrNuploading x)
      have hl : (s.incrNuploading x).nuploading.length = s.nuploading.length :=
        List.length_modify _ _ _
      refine ⟨n, he, hlen.trans hl, fun i hi => ?_⟩
      rw [hn i (hl ▸ hi), List.count_cons]
      simp only [incrNuploading, List.getD_eq_getElem?_getD, List.getElem?_modify]
      by_cases e : x = i
      · simp [e, hi]
        omega
      · simp [e]

theorem foldl_nums {f : State → Nat → State} (hf : ∀ s x, (f s x).toStore = s.toStore)
    (l : List UploaderBlock) (s : State) :
    l.foldl (fun s b => f s (s.block b.block).num) s = (nums s.toStore l).foldl f s := by
  induction l generalizing s with
  | nil => rfl
  | cons b l ih =>
      rw [List.foldl_cons, ih, hf]
      rfl

end State

open State Store

namespace Ledger

variable {a : Facts} {P : Int → Prop} {s s' : State} {up : Nat}

theorem selectors_modify (hup : up < s.uploaders.length) (f : Uploader → Uploader) (i : Nat) :
    (s.modifyUploader up f).selectors i + (nums s.toStore (s.uploader up).blocks).count i =
      s.selectors i + (nums s.toStore (f (s.uploader up)).blocks).count i :=
  sum_map_modify (fun u : Uploader => (nums s.toStore u.blocks).count i) f default hup

theorem chooses (h : Ledger a P s) {f : Uploader → Uploader} (blocks : List UploaderBlock)
    {n : List Nat} (hf : ∀ u, (f u).ranges = u.ranges ∧ (f u).blocks = blocks)
    (hcur : ∀ b ∈ blocks, s.Current b.block) (hlen : n.length = s.nuploading.length)
    (hn : ∀ i < s.blocks.length, s.nuploading.getD i 0 + (nums s.toStore blocks).count i ≤
      n.getD i 0 + (nums s.toStore (s.uploader up).blocks).count i) :
    Ledger a P ({ s with nuploading := n }.modifyUploader up f) := by
  have hholders : ∀ r, ({ s with nuploading := n }.modifyUploader up f).holders r = s.holders r := by
    intro r
    have := congrArg (List.countP fun l => inUploaderRanges r l)
      (map_modify_same (g := Uploader.ranges) (fun u => (hf u).1) s.uploaders up)
    simp only [List.countP_map] at this
    exact this
  refine h.recount (.refl _) h.books rfl rfl rfl h.priorities hlen (fun u hu => ?_)
    (fun r hr => ?_) (fun i => ?_) (fun ha b hcur r hr => ?_) fun ha x hx b hcur r hr h₁ h₂ => ?_
  · rcases mem_modifyUploader hu with hu | ⟨hup, rfl⟩
    · exact h.fits hu
    · have hfit := h.fits (s := s) (uploader_mem hup)
      refine ⟨?_, ?_, ?_, ?_, fun b hb => ?_, fun _ b hb => ?_⟩
      · rw [(hf _).1]; exact hfit.keys_lt
      · rw [(hf _).1]; exact hfit.keys_nodup
      · rw [(hf _).1]; exact hfit.kept
      · rw [(hf _).1]; exact hfit.held
      · rw [(hf _).2] at hb
        exact h.books.current_lt (hcur b hb)
      · rw [(hf _).2] at hb
        exact .inl (hcur b hb)
  · rw [hholders]; exact h.holders_le r hr
  · have hsel := h.selectors_le i
    show _ ≤ n.getD i 0
    by_cases hup : up < s.uploaders.length
    · have hs := selectors_modify (s := s) hup f i
      rw [(hf _).2] at hs
      have he : ({ s with nuploading := n }.modifyUploader up f).selectors i =
        (s.modifyUploader up f).selectors i := rfl
      rw [he]
      by_cases hi : i < s.blocks.length
      · have := hn i hi
        omega
      · have hz : (nums s.toStore blocks).count i = 0 := by
          refine List.count_eq_zero.mpr fun hm => ?_
          obtain ⟨b, hb, he⟩ := List.mem_map.mp hm
          obtain ⟨j, hj, hbj⟩ := hcur b hb
          have := (h.books.tidy j hj _ hbj).num
          omega
        have hle := h.nuploading_length
        rw [getD_of_length_le (by omega)] at hsel ⊢
        omega
    · have hu : (s.uploader up).blocks = [] := by
        rw [uploader_of_length_le (Nat.not_lt.mp hup)]
        rfl
      have he : ({ s with nuploading := n }.modifyUploader up f).selectors i = s.selectors i := by
        simp only [modifyUploader, modify_of_length_le (Nat.not_lt.mp hup)]
        rfl
      rw [he]
      by_cases hi : i < s.blocks.length
      · have := hn i hi
        rw [hu] at this
        simp only [nums, List.map_nil, List.count_nil] at this
        omega
      · have hle := h.nuploading_length
        rw [getD_of_length_le (by omega)] at hsel ⊢
        exact hsel
  · rw [hholders]; exact h.shared ha b hcur r hr
  · exact h.safe ha x hx b hcur r hr h₁ h₂

theorem clearUploaderBlocks (h : Ledger a P s) (up : Nat) :
    Ledger a P (s.clearUploaderBlocks up) := by
  obtain ⟨n, he, hlen, hn⟩ := foldl_decrNuploading (nums s.toStore (s.uploader up).blocks) s
  unfold State.clearUploaderBlocks
  rw [foldl_nums (f := decrNuploading) (fun _ _ => rfl), he]
  refine h.chooses [] (fun _ => ⟨rfl, rfl⟩) (by simp) hlen fun i _ => ?_
  rw [hn]
  simp only [nums, List.map_nil, List.count_nil]
  omega

theorem choose (h : Ledger a P s) {blocks : List UploaderBlock}
    (hcur : ∀ b ∈ blocks, s.Current b.block) :
    Ledger a P ((blocks.foldl (fun s b => s.incrNuploading (s.block b.block).num) s).modifyUploader
      up fun u => { u with blocks := blocks }) := by
  obtain ⟨n, he, hlen, hn⟩ := foldl_incrNuploading (nums s.toStore blocks) s
  rw [foldl_nums (f := incrNuploading) (fun _ _ => rfl), he]
  refine h.chooses _ (fun _ => ⟨rfl, rfl⟩) hcur hlen fun i hi => ?_
  rw [hn i (h.nuploading_length ▸ hi)]
  omega

-- The other lists of an uploader do not matter.
theorem modifyUploader (h : Ledger a P s) {f : Uploader → Uploader}
    (hf : ∀ u, (f u).ranges = u.ranges ∧ (f u).blocks = u.blocks) (up : Nat) :
    Ledger a P (s.modifyUploader up f) :=
  h.aside rfl (map_modify_same (fun u => by rw [(hf u).1, (hf u).2]) _ _) rfl rfl rfl h.priorities
    rfl

theorem modifyUploader_withStore (s : State) (f : Uploader → Uploader) (g : Store → Store) :
    (s.modifyUploader up f).withStore g = (s.withStore g).modifyUploader up f := rfl

theorem clearUploaderRanges (h : Ledger a P s) (up : Nat) :
    Ledger a P (s.clearUploaderRanges up) := by
  have hr := h.release up fun _ => false
  unfold State.clearUploaderRanges
  rw [State.foldl_releaseRange, ← modifyUploader_withStore]
  simpa using hr

theorem removeCompletedUploaderRanges (h : Ledger a P s) (up : Nat) :
    Ledger a P (s.removeCompletedUploaderRanges up) := by
  unfold State.removeCompletedUploaderRanges
  dsimp only
  rw [State.foldl_releaseRange]
  exact h.release up _

theorem availability (h : Ledger a P s) {l : List Nat} (hl : s' = { s with availability := l }) :
    Ledger a P s' := by
  subst hl
  exact h.aside rfl rfl rfl rfl rfl h.priorities rfl

theorem foldl_decrAvailability {β : Type} (f : β → Nat) : ∀ (l : List β) {s : State},
    Ledger a P s → Ledger a P (l.foldl (fun s b => s.decrAvailability (f b)) s)
  | [], _, h => h
  | b :: l, _, h => foldl_decrAvailability f l (Ledger.availability h rfl)

theorem clearUploaderIntervals (h : Ledger a P s) (up : Nat) :
    Ledger a P (s.clearUploaderIntervals up) := by
  unfold State.clearUploaderIntervals
  dsimp only
  split
  · refine modifyUploader (clearUploaderBlocks ?_ up) (by simp) up
    refine modifyUploader ?_ (by simp) up
    exact foldl_decrAvailability _ _ (foldl_decrAvailability id _ h)
  · exact h

theorem unregisterUploader (h : Ledger a P s) (up : Nat) :
    Ledger a P (s.unregisterUploader up) := (h.clearUploaderIntervals up).clearUploaderRanges up

end Ledger

end Mldonkey.Swarming
