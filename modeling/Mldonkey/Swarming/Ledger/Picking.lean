import Mldonkey.Swarming.Ledger.Choosing
import Mldonkey.Swarming.Stable
import Mldonkey.Swarming.Tags.Blocks

namespace Mldonkey.Swarming

open Effects HalfOpen Counting

namespace Store

variable {c d : Prop} {s : Store} {b : BlockId} {r r2 : RangeId} {i : Nat}

theorem canMerge_iff : s.canMerge r r2 = true ↔ s.rangeNext r = some r2 ∧
    (s.range r2).rangeBegin ≤ (s.range r).rangeEnd ∧ (s.range r2).nuploading = 0 := by
  simp [canMerge, and_assoc]

theorem range_mergeRanges (r' : RangeId) : (s.mergeRanges r r2).range r' =
    if r' = r then { s.range r with rangeEnd := (s.range r2).rangeEnd } else s.range r' := by
  simp only [mergeRanges, range_modifyRange, range_modifyBlock]

theorem ranges_mergeRanges (b : BlockId) : (s.mergeRanges r r2).ranges b =
    if b = (s.range r).block then (s.ranges b).erase r2 else s.ranges b := by
  simp only [Store.ranges, mergeRanges, block_modifyRange, block_modifyBlock]
  split
  · next e => rw [e]
  · rfl

theorem num_mergeRanges (b : BlockId) :
    ((s.mergeRanges r r2).block b).num = (s.block b).num := by
  simp only [mergeRanges, block_modifyRange, block_modifyBlock]
  split
  · next e => rw [e]
  · rfl

theorem mem_mergeRanges {b : BlockId} {r' : RangeId} (h : r' ∈ (s.mergeRanges r r2).ranges b) :
    r' ∈ s.ranges b := by
  rw [ranges_mergeRanges] at h
  split at h
  · exact List.mem_of_mem_erase h
  · exact h

theorem mem_mergeRanges_of_ne {b : BlockId} {r' : RangeId} (h : r' ∈ s.ranges b) (hne : r' ≠ r2) :
    r' ∈ (s.mergeRanges r r2).ranges b := by
  rw [ranges_mergeRanges]
  split
  · exact (List.mem_erase_of_ne hne).mpr h
  · exact h

-- The range merged into `r` stands right after it.
theorem rangeNext_split (h : s.rangeNext r = some r2) :
    ∃ l₁ l₂, s.ranges (s.range r).block = l₁ ++ [r, r2] ++ l₂ := nextIn_eq h

theorem Books.mergeRanges (h : Books c d s) (hm : s.canMerge r r2 = true)
    (hd : d → (s.range r).nuploading = 0) : Books c d (s.mergeRanges r r2) := by
  obtain ⟨hnext, hadj, hn⟩ := canMerge_iff.mp hm
  obtain ⟨l₁, l₂, hl⟩ := rangeNext_split hnext
  have ho := s.mergeRanges_only r r2
  refine h.only ho (fun hlt => absurd hlt (Nat.lt_irrefl _)) (fun r' hr' => ?_) fun i hi hbi => ?_
  · obtain ⟨h₁, h₂⟩ := h.owned _ r' (mem_mergeRanges hr')
    rw [ho.owner r' h₂]
    exact ⟨h₁, h₂⟩
  · exact (h.tidy i hi _ hbi).mergeRanges hl hadj fun hd' => ⟨hd hd', hn⟩

theorem Books.missing_mergeRanges (h : Books c d s) (hm : s.canMerge r r2 = true) (y : Int) :
    (s.mergeRanges r r2).Missing y ↔ s.Missing y := by
  obtain ⟨hnext, hadj, hn⟩ := canMerge_iff.mp hm
  obtain ⟨l₁, l₂, hl⟩ := rangeNext_split hnext
  have ho := s.mergeRanges_only r r2
  by_cases hcur : s.Current (s.range r).block
  · obtain ⟨i, hi, hb⟩ := hcur
    have hs := (h.tidy i hi _ hb).toSound
    have hchain := hs.chain
    rw [hl, spans_append, spans_append] at hchain
    simp only [chain_append, spans_cons, spans_nil, Chain, Range.span] at hchain
    have := ho.missing_current h hi hb (p := fun _ => True) (by simp) (fun y => ?_) y
    · simpa only [and_true] using this
    · refine (mergeRanges_exchange hs hl hadj).covers hs ?_ (by simp)
      simp only [spans_cons, spans_nil, range_mergeRanges, if_true, covers_cons, covers_nil,
        Range.span, or_false, and_true]
      obtain ⟨_, ⟨_, _, hc⟩, _⟩ := hchain
      omega
  · exact ho.missing_iff h hcur y

end Store

open State Store

namespace Ledger

variable {a : Facts} {P : Int → Prop} {s s' : State} {r r2 : RangeId} {up : Nat}

-- What is known of a range that find_range is about to hand out.
structure Linked (a : Facts) (s : Store) (r : RangeId) : Prop where
  mem : r ∈ s.ranges (s.range r).block
  current : a.held → s.Current (s.range r).block

theorem mergeRanges (h : Ledger a P s) (hlink : Linked a s.toStore r)
    (hm : s.canMerge r r2 = true) (hsel : a.selected → (s.range r).nuploading = 0)
    (hP : a.selected → ∀ x, ¬ P x) : Ledger a P (s.withStore (·.mergeRanges r r2)) := by
  have ho := s.toStore.mergeRanges_only r r2
  have hl : (s.mergeRanges r r2).layout = s.layout := ho.layout
  have hrange : ∀ r', (s.mergeRanges r r2).range r' = if r' = r then
      { s.range r with rangeEnd := (s.range r2).rangeEnd } else s.range r' := range_mergeRanges
  have hcur := fun b => ho.current b
  have hn : ∀ r', ((s.mergeRanges r r2).range r').nuploading = (s.range r').nuploading :=
    fun r' => by rw [hrange]; split <;> simp_all
  have howner : ∀ r', ((s.mergeRanges r r2).range r').block = (s.range r').block :=
    fun r' => by rw [hrange]; split <;> simp_all
  -- no uploader holds the range that is merged
  have hfree : ∀ u ∈ s.uploaders, ∀ key ∈ u.ranges, key.2.2 ≠ r2 := by
    intro u hu key hkey e
    have h₁ := holders_pos hu hkey
    have h₂ := h.holders_le _ (h.keys_lt u hu key hkey)
    rw [e, (canMerge_iff.mp hm).2.2] at h₂
    rw [e] at h₁
    omega
  have hmiss := h.books.missing_mergeRanges hm
  refine
    { books := h.books.mergeRanges hm hsel
      networks_pos := h.networks_pos
      files_pos := h.files_pos
      nuploading_length := h.nuploading_length
      priorities := h.priorities
      keys_lt := h.keys_lt
      keys_nodup := h.keys_nodup
      holders_le := fun r' hr' => (h.holders_le r' hr').trans (hn r').ge
      kept := fun u hu key hkey => ?_
      held := fun ha u hu key hkey => ?_
      blocks_lt := h.blocks_lt
      selectors_le := fun i => ?_
      chosen := fun ha u hu b hb => ?_
      counted := fun hc => ?_
      shared := fun ha b hb r' hr' => ?_
      safe := fun ha x hx => absurd hx (hP ha x) }
  · rcases h.kept u hu key hkey with hv | hk
    · by_cases e : key.2.2 = r
      · refine .inr fun _ => ?_
        rw [toStore_withStore, howner, e]
        exact mem_mergeRanges_of_ne hlink.mem fun e' => hfree u hu key hkey (e.trans e')
      · refine .inl ?_
        show ((s.mergeRanges r r2).range _).rangeBegin = ((s.mergeRanges r r2).range _).rangeEnd
        rw [hrange, if_neg e]
        exact hv
    · refine .inr fun hc => ?_
      rw [toStore_withStore, howner] at hc ⊢
      exact mem_mergeRanges_of_ne (hk ((hcur _).mp hc)) (hfree u hu key hkey)
  · by_cases e : key.2.2 = r
    · refine .inr ?_
      rw [e, toStore_withStore, howner]
      exact (hcur _).mpr (hlink.current ha)
    · refine (h.held ha u hu key hkey).imp (fun hv => ?_) fun hc => ?_
      · show ((s.mergeRanges r r2).range _).rangeBegin = ((s.mergeRanges r r2).range _).rangeEnd
        rw [hrange, if_neg e]
        exact hv
      · rw [toStore_withStore, howner]
        exact (hcur _).mpr hc
  · have hsel : State.selectors (s.withStore (·.mergeRanges r r2)) i = s.selectors i :=
      h.selectors_congr (by rfl) (fun b _ => num_mergeRanges b) i
    exact hsel.trans_le (h.selectors_le i)
  · refine (h.chosen ha u hu b hb).elim (fun hc => .inl ((hcur _).mpr hc)) fun hv => ?_
    by_cases e : b.block = (s.range r).block
    · rw [e]
      exact .inl ((hcur _).mpr (hlink.current ha))
    · refine .inr fun r' hr' => ?_
      have hr' := mem_mergeRanges hr'
      have hne : r' ≠ r := fun e' => e (e' ▸ (h.books.owned _ r' hr').1.symm)
      show ((s.mergeRanges r r2).range _).rangeBegin = ((s.mergeRanges r r2).range _).rangeEnd
      rw [hrange, if_neg hne]
      exact hv r' hr'
  · have hf : Fills ∅ s (s.withStore (·.mergeRanges r r2)) :=
      ⟨fun y => by rw [toStore_withStore, hmiss]; simp, by simp, by simp [State.file, withStore]⟩
    exact (hf.counted_iff h.books.placed (congrArg (fun g => g.1) hl)).mpr (h.counted hc)
  · rw [toStore_withStore] at hb hr' ⊢
    rw [hn]
    exact h.shared ha b ((hcur b).mp hb) r' (mem_mergeRanges hr')

theorem Linked.mergeRanges (h : Linked a s.toStore r)
    (hm : s.canMerge r r2 = true) : Linked a (s.mergeRanges r r2) r := by
  obtain ⟨hnext, -, -⟩ := canMerge_iff.mp hm
  have ho := s.toStore.mergeRanges_only r r2
  have he : ((s.mergeRanges r r2).range r).block = (s.range r).block := by
    rw [range_mergeRanges, if_pos rfl]
  refine ⟨?_, fun ha => by rw [he]; exact (ho.current _).mpr (h.current ha)⟩
  rw [he]
  by_cases hr : r = r2
  · obtain ⟨l₁, l₂, hl⟩ := rangeNext_split hnext
    rw [ranges_mergeRanges, if_pos rfl, hl, ← hr]
    refine List.count_pos_iff.mp ?_
    rw [List.count_erase_self]
    simp only [List.count_append, List.count_cons_self, List.count_nil]
    omega
  · exact mem_mergeRanges_of_ne h.mem hr

theorem Linked.splitRange (h : Linked a s.toStore r) (hr : r < s.nextRange) (cutPos : Int) :
    Linked a (s.toStore.splitRange r cutPos) r := by
  by_cases hcut : (s.range r).rangeBegin < cutPos ∧ cutPos < (s.range r).rangeEnd
  · have ho := s.toStore.splitRange_only r cutPos
    have he := ho.owner r hr
    refine ⟨?_, fun ha => by rw [he]; exact (ho.current _).mpr (h.current ha)⟩
    rw [he, ranges_splitRange hcut]
    exact mem_insertAfter_of_mem h.mem
  · rw [splitRange_of_not hcut]
    exact h

-- The ranges after `r` that were free when find_range looked at them.
theorem mergeAll : ∀ (q : List RangeId) {s : State}, Ledger a P s → Linked a s.toStore r →
    (a.selected → q ≠ [] → (s.range r).nuploading = 0) → (a.selected → ∀ x, ¬ P x) →
    Ledger a P (s.withStore (Store.mergeAll r · q)) ∧ Linked a (Store.mergeAll r s.toStore q) r ∧
      ((Store.mergeAll r s.toStore q).range r).nuploading = (s.range r).nuploading ∧
      (Store.mergeAll r s.toStore q).nextRange = s.nextRange
  | [], s, h, hl, _, _ => ⟨h, hl, rfl, rfl⟩
  | r2 :: q, s, h, hl, hsel, hP => by
      by_cases hm : s.canMerge r r2 = true
      · have hn : ((s.mergeRanges r r2).range r).nuploading = (s.range r).nuploading := by
          rw [range_mergeRanges, if_pos rfl]
        obtain ⟨h₁, h₂, h₃, h₄⟩ := mergeAll q
          (h.mergeRanges hl hm (fun ha => hsel ha (by simp)) hP) (hl.mergeRanges hm)
          (fun ha _ => hn.trans (hsel ha (by simp))) hP
        have he : Store.mergeAll r s.toStore (r2 :: q) =
            Store.mergeAll r (s.toStore.mergeRanges r r2) q := by
          rw [Store.mergeAll, if_pos hm]
        rw [he]
        refine ⟨?_, h₂, h₃.trans hn, h₄⟩
        have : s.withStore (Store.mergeAll r · (r2 :: q)) =
            (s.withStore (·.mergeRanges r r2)).withStore (Store.mergeAll r · q) := by
          simp only [State.withStore, he]
        rw [this]
        exact h₁
      · have he : Store.mergeAll r s.toStore (r2 :: q) = s.toStore := by
          rw [Store.mergeAll, if_neg hm]
        rw [show s.withStore (Store.mergeAll r · (r2 :: q)) = s by simp only [State.withStore, he],
          he]
        exact ⟨h, hl, rfl, rfl⟩

theorem splitRange (h : Ledger a P s) {b : BlockId} (hr : r ∈ s.ranges b) (cutPos : Int)
    (hsel : a.selected → (s.range r).rangeBegin < cutPos → cutPos < (s.range r).rangeEnd →
      s.Current b → (s.range r).nuploading = 0) :
    Ledger a P (s.withStore (·.splitRange r cutPos)) := by
  obtain ⟨hb, hev⟩ := h.books.splitRange hr cutPos hsel
  refine h.fills ⟨rest_withStore s _, hev⟩ hb fun _ => ⟨∅, fun y => ?_, by simp,
    by simp [State.file, withStore]⟩
  rw [toStore_withStore, h.books.missing_splitRange hr]
  simp

theorem selectRange (h : Ledger a P s) (hup : up < s.uploaders.length) (hr : r < s.nextRange)
    (hk : s.Kept r) (hh : a.held → s.Held r) (hnew : ∀ key ∈ (s.uploader up).ranges, key.2.2 ≠ r)
    (hP : a.selected → ∀ x, ¬ P x) : Ledger a P (s.selectRange up r) := by
  have hre := s.toStore.addUploader_recounts r
  have hn := s.toStore.nuploading_addUploader r
  have hholders : ∀ r', (s.selectRange up r).holders r' =
      s.holders r' + if r' = r then 1 else 0 := by
    intro r'
    have h₁ := holders_modifyUploader hup (fun u =>
      { u with ranges := u.ranges ++ [((s.range r).rangeBegin, (s.range r).rangeEnd, r)] }) r'
    have he : (s.selectRange up r).holders r' = (s.modifyUploader up fun u =>
      { u with ranges := u.ranges ++ [((s.range r).rangeBegin, (s.range r).rangeEnd, r)] }
      ).holders r' := rfl
    rw [he]
    simp only [mem_keys_iff, List.map_append, List.map_cons, List.map_nil, List.mem_append,
      List.mem_singleton] at h₁
    by_cases e : r' = r
    · subst e
      have hnot : r' ∉ (s.uploader up).ranges.map fun key => key.2.2 := fun hm => by
        obtain ⟨key, hkey, he⟩ := List.mem_map.mp hm
        exact hnew key hkey he
      simp only [hnot, if_false, if_true, or_true] at h₁ ⊢
      omega
    · simp only [e, or_false, if_false] at h₁ ⊢
      omega
  refine h.recount hre (h.books.addUploader hk) rfl rfl rfl h.priorities rfl (fun u hu => ?_)
    (fun r' hr' => ?_) (fun i => ?_) (fun ha b hcur r' hr' => ?_)
    fun ha x hx => absurd hx (hP ha x)
  · rcases mem_modifyUploader hu with hu | ⟨-, rfl⟩
    · exact h.fits hu
    · have hf := h.fits (uploader_mem hup)
      refine ⟨fun key hkey => ?_, ?_, fun key hkey => ?_, fun ha key hkey => ?_, hf.blocks_lt,
        hf.chosen⟩
      · rcases List.mem_append.mp hkey with hkey | hkey
        · exact hf.keys_lt key hkey
        · rw [List.mem_singleton.mp hkey]; exact hr
      · rw [List.map_append, List.nodup_append]
        refine ⟨hf.keys_nodup, by simp, ?_⟩
        intro r₁ h₁ r₂ h₂
        obtain ⟨key, hkey, rfl⟩ := List.mem_map.mp h₁
        simp only [List.map_cons, List.map_nil, List.mem_singleton] at h₂
        rw [h₂]
        exact hnew key hkey
      · rcases List.mem_append.mp hkey with hkey | hkey
        · exact hf.kept key hkey
        · rw [List.mem_singleton.mp hkey]; exact hk
      · rcases List.mem_append.mp hkey with hkey | hkey
        · exact hf.held ha key hkey
        · rw [List.mem_singleton.mp hkey]; exact hh ha
  · have := h.holders_le r' hr'
    rw [hholders]
    refine Nat.le_trans ?_ (hn r').ge
    split
    · next e => subst e; omega
    · omega
  · refine (selectors_modifyUploader (f := fun u =>
      { u with ranges := u.ranges ++ [((s.range r).rangeBegin, (s.range r).rangeEnd, r)] })
      hre.num (fun _ => rfl) i).trans_le (h.selectors_le i)
  · have := h.shared ha b hcur r' hr'
    rw [hholders]
    refine (hn r').trans ?_
    split
    · next e => subst e; omega
    · omega

-- What find_range relies on when it gives range `r` to an uploader: the range is
-- linked in its block, or was closed since it was picked.
structure Pickable (a : Facts) (P : Int → Prop) (up : Nat) (rangeSize : Int) (s : State)
    (r : RangeId) (q : List RangeId) (blockEnd : Int) : Prop where
  up_lt : up < s.uploaders.length
  lt : r < s.nextRange
  linked : Linked a s.toStore r ∨ s.Void r ∧ s.rangeNext r = none
  new : ∀ key ∈ (s.uploader up).ranges, key.2.2 ≠ r
  free : a.selected → (s.range r).nuploading = 0 ∨ q = [] ∧
    ¬ ((s.range r).rangeBegin < min ((s.range r).rangeBegin + rangeSize) blockEnd ∧
      min ((s.range r).rangeBegin + rangeSize) blockEnd < (s.range r).rangeEnd)
  unprotected : a.selected → ∀ x, ¬ P x

theorem mergeAll_of_last (h : s.rangeNext r = none) (q : List RangeId) :
    Store.mergeAll r s.toStore q = s.toStore := by
  cases q with
  | nil => rfl
  | cons r2 q =>
      have : ¬ s.canMerge r r2 = true := fun hm => by
        rw [canMerge_iff, h] at hm
        exact nomatch hm.1
      rw [Store.mergeAll, if_neg this]

theorem takeCluster (h : Ledger a P s) {q : List RangeId} {rangeSize blockEnd : Int}
    (hc : Pickable a P up rangeSize s r q blockEnd) :
    Ledger a P (s.takeCluster up r q rangeSize blockEnd) := by
  unfold State.takeCluster
  dsimp only
  rcases hc.linked with hlink | ⟨hv, hlast⟩
  · obtain ⟨h₁, h₂, h₃, h₄⟩ := mergeAll q h hlink
      (fun ha hq => (hc.free ha).resolve_right fun e => hq e.1) hc.unprotected
    have hu : (s.withStore (Store.mergeAll r · q)).uploaders = s.uploaders := rfl
    have hq : q = [] → s.withStore (Store.mergeAll r · q) = s := fun e => by subst e; rfl
    have h₂' : Linked a (s.withStore (Store.mergeAll r · q)).toStore r := h₂
    have h₃' : ((s.withStore (Store.mergeAll r · q)).range r).nuploading = _ := h₃
    have hlt : r < (s.withStore (Store.mergeAll r · q)).nextRange :=
      Nat.lt_of_lt_of_eq hc.lt h₄.symm
    generalize s.withStore (Store.mergeAll r · q) = s₁ at h₁ h₂' h₃' hu hq hlt
    generalize hcut : min ((s₁.range r).rangeBegin + rangeSize) blockEnd = cutPos
    have hsplit := h₁.splitRange h₂'.mem cutPos fun ha hb he _ => by
      rw [h₃']
      refine (hc.free ha).resolve_right fun hf => ?_
      rw [hq hf.1] at hcut hb he
      exact hf.2 (hcut ▸ ⟨hb, he⟩)
    have hlink₂ := h₂'.splitRange hlt cutPos
    refine hsplit.selectRange (hu ▸ hc.up_lt) ?_ (.inr fun _ => hlink₂.mem)
      (fun ha => .inr (hlink₂.current ha)) ?_ hc.unprotected
    · exact hlt.trans_le (s₁.toStore.splitRange_only r cutPos).nextRange
    · have he : (s₁.withStore (·.splitRange r cutPos)).uploader up = s.uploader up := by
        simp only [State.uploader, withStore, hu]
      rw [he]
      exact hc.new
  · have he : s.withStore (Store.mergeAll r · q) = s := by
      simp only [State.withStore, mergeAll_of_last hlast]
    rw [he]
    have hcut : s.withStore (·.splitRange r (min ((s.range r).rangeBegin + rangeSize) blockEnd)) =
        s := by
      have : ¬ ((s.range r).rangeBegin < min ((s.range r).rangeBegin + rangeSize) blockEnd ∧
          min ((s.range r).rangeBegin + rangeSize) blockEnd < (s.range r).rangeEnd) := by
        unfold Store.Void at hv
        omega
      simp only [State.withStore, splitRange_of_not this]
    rw [hcut]
    exact h.selectRange hc.up_lt hc.lt (.inl hv) (fun _ => .inl hv) hc.new hc.unprotected

-- A chunk that is verified meanwhile may close the range.
theorem Pickable.settled {q : List RangeId} {rangeSize blockEnd : Int}
    (hc : Pickable a P up rangeSize s r q blockEnd) (hb : Books a.remaining a.selected s.toStore)
    (hs : Settled s s') : Pickable a P up rangeSize s' r q blockEnd := by
  have hn := hs.settles.nuploading r
  refine ⟨by rw [hs.uploaders]; exact hc.up_lt, hc.lt.trans_le hs.evolves.nextRange, ?_, ?_, ?_,
    hc.unprotected⟩
  · rcases hc.linked with hl | ⟨hv, hlast⟩
    · rcases hs.settles.link r hl.mem with ⟨hm, he⟩ | hv
      · refine .inl ⟨by rw [he]; exact hm, fun ha => ?_⟩
        have hcur := hl.current ha
        obtain ⟨i, hi, hbi⟩ := hcur
        have hspan := (hb.tidy i hi _ hbi).toSound.of_mem hl.mem
        refine (hs.evolves.held r hc.lt (.inr fun _ => hl.mem)
          (.inr (hl.current ha))).resolve_left fun hv => ?_
        unfold Store.Void at hv
        rw [he] at hv
        omega
      · exact .inr hv
    · exact .inr ⟨hs.settles.void hv, hs.settles.last hlast⟩
  · have he : s'.uploader up = s.uploader up := by simp only [State.uploader, hs.uploaders]
    rw [he]
    exact hc.new
  · intro ha
    rw [hn]
    refine (hc.free ha).imp_right fun hf => ⟨hf.1, ?_⟩
    rcases hs.settles.range r with he | hv
    · rw [he]; exact hf.2
    · unfold Store.Void at hv
      omega

end Ledger

namespace State

variable {s : State} {u : Uploader} {rangeSize : Int}

theorem correctRange_open {b : UploaderBlock} {r : RangeId} :
    s.correctRange u b r = true → inUploaderRanges r u.ranges = false ∧
      (s.range r).rangeBegin < (s.range r).rangeEnd := by
  intro h
  unfold correctRange at h
  rw [Bool.and_eq_true, Bool.and_eq_true, Bool.and_eq_true] at h
  exact ⟨by simpa using h.1.1.1, of_decide_eq_true h.1.1.2⟩

-- The first range of a cluster is linked in one of the uploader's blocks.
def Found (s : State) (u : Uploader) (blocks : List UploaderBlock) (c : Cluster) : Prop :=
  ∀ r q, c.ranges.reverse = r :: q →
    ∃ b ∈ blocks, r ∈ s.ranges b.block ∧ s.correctRange u b r = true

theorem iterCluster_ranges (s : State) (u : Uploader) (rangeSize : Int) (b : UploaderBlock) : ∀ (rest : List RangeId) (r : RangeId)
    (cluster : Cluster), ∃ l, (s.iterCluster u b rangeSize r rest cluster).ranges =
      l ++ r :: cluster.ranges
  | [], r, cluster => by
      refine ⟨[], ?_⟩
      simp only [iterCluster]
      split <;> rfl
  | rr :: rest, r, cluster => by
      simp only [iterCluster]
      split
      · exact ⟨[], rfl⟩
      · split
        · obtain ⟨l, hl⟩ := iterCluster_ranges s u rangeSize b rest rr
            { cluster with
              ranges := r :: cluster.ranges
              size := cluster.size + s.computeRangeSize r }
          exact ⟨l ++ [rr], by rw [hl]; simp⟩
        · exact ⟨[], rfl⟩

theorem Found.bestCluster {blocks : List UploaderBlock} {acc : Cluster}
    (h : s.Found u blocks acc) (rangeSize : Int) {b : UploaderBlock} (rest : List RangeId)
    (hb : b ∈ blocks) {r : RangeId} (hr : r ∈ s.ranges b.block) :
    s.Found u blocks (s.bestCluster u b rangeSize acc r rest) := by
  unfold State.bestCluster
  split
  · next hc =>
      have hnew : s.Found u blocks (s.iterCluster u b rangeSize r rest
          { dummyRangesCluster with nuploading := (s.range r).nuploading }) := by
        intro r' q he
        obtain ⟨l, hl⟩ := iterCluster_ranges s u rangeSize b rest r
          { dummyRangesCluster with nuploading := (s.range r).nuploading }
        rw [hl] at he
        simp only [dummyRangesCluster, List.reverse_append, List.reverse_cons, List.reverse_nil,
          List.nil_append, List.cons_append] at he
        obtain rfl : r = r' := (List.cons.inj he).1
        exact ⟨b, hb, hr, hc⟩
      dsimp only
      split
      · exact hnew
      · split
        · exact h
        · exact hnew
  · exact h

theorem Found.searchRanges {blocks : List UploaderBlock} {b : UploaderBlock} (rangeSize : Int)
    (hb : b ∈ blocks) :
    ∀ (l : List RangeId) {acc : Cluster}, (∀ r ∈ l, r ∈ s.ranges b.block) →
      s.Found u blocks acc → s.Found u blocks (s.searchRanges u b rangeSize acc l).1
  | [], _, _, h => h
  | r :: l, acc, hl, h => by
      have hbest := h.bestCluster rangeSize l hb (hl r (by simp))
      simp only [State.searchRanges]
      split
      · exact hbest
      · exact searchRanges rangeSize hb l (fun r hr => hl r (by simp [hr])) hbest

theorem Found.searchBlocks (rangeSize : Int) (blocks : List UploaderBlock) :
    ∀ (moreBlocks : List UploaderBlock) (acc : Cluster) {b : UploaderBlock}, b ∈ blocks →
      (∀ b ∈ moreBlocks, b ∈ blocks) → s.Found u blocks acc →
      s.Found u blocks (s.searchBlocks u rangeSize acc b moreBlocks).2
  | [], acc, b, hb, _, h => by
      have := Found.searchRanges rangeSize hb _ (fun r hr => hr) h
      rw [State.searchBlocks]
      dsimp only
      split <;> exact this
  | b' :: moreBlocks, acc, b, hb, hl, h => by
      have hr := Found.searchRanges rangeSize hb _ (fun r hr => hr) h
      rw [State.searchBlocks]
      dsimp only
      split
      · exact hr
      · exact searchBlocks rangeSize blocks moreBlocks _ (hl b' (by simp)) (fun b hb => hl b (by simp [hb])) hr

-- The range that find_range picks is not selected yet, or it is the whole
-- cluster and is not cut.
def PicksFree (s : State) (up : Nat) (rangeSize : Int) : Prop :=
  let s := s.removeCompletedUploaderRanges up
  ∀ b moreBlocks r q, (s.uploader up).blocks = b :: moreBlocks →
    let best := s.searchBlocks (s.uploader up) rangeSize dummyRangesCluster b moreBlocks
    best.2.ranges.reverse = r :: q →
      let cutPos := min ((s.range r).rangeBegin + rangeSize) best.1.blockEnd
      (s.range r).nuploading = 0 ∨
        q = [] ∧ ¬ ((s.range r).rangeBegin < cutPos ∧ cutPos < (s.range r).rangeEnd)

end State

namespace Ledger

variable {a : Facts} {P : Int → Prop} {s s' : State} {r r2 : RangeId} {up : Nat}

theorem uploaders_length_removeCompleted (s : State) (up : Nat) :
    (s.removeCompletedUploaderRanges up).uploaders.length = s.uploaders.length := by
  unfold State.removeCompletedUploaderRanges
  dsimp only
  rw [State.foldl_releaseRange]
  exact List.length_modify _ _ _

theorem findRange_picks (h : Ledger a P s) (hup : up < s.uploaders.length) {rangeSize : Int}
    (hfree : a.selected → s.PicksFree up rangeSize) (hP : a.selected → ∀ x, ¬ P x)
    {b : UploaderBlock} {moreBlocks : List UploaderBlock} {q : List RangeId}
    (hb : ((s.removeCompletedUploaderRanges up).uploader up).blocks = b :: moreBlocks)
    (hr : ((s.removeCompletedUploaderRanges up).searchBlocks
      ((s.removeCompletedUploaderRanges up).uploader up) rangeSize dummyRangesCluster b moreBlocks
        ).2.ranges.reverse = r :: q) :
    Pickable a P up rangeSize (s.removeCompletedUploaderRanges up) r q
      ((s.removeCompletedUploaderRanges up).searchBlocks
        ((s.removeCompletedUploaderRanges up).uploader up) rangeSize dummyRangesCluster b
        moreBlocks).1.blockEnd := by
  have h₁ := h.removeCompletedUploaderRanges up
  have hup₁ : up < (s.removeCompletedUploaderRanges up).uploaders.length := by
    rw [uploaders_length_removeCompleted]; exact hup
  have hfree₁ := fun ha => hfree ha b moreBlocks r q hb hr
  generalize s.removeCompletedUploaderRanges up = s₁ at h₁ hup₁ hfree₁ hb hr ⊢
  have hu := uploader_mem hup₁
  obtain ⟨b', hb', hmem, hc⟩ := Found.searchBlocks (s := s₁) (u := s₁.uploader up) rangeSize
    (s₁.uploader up).blocks moreBlocks dummyRangesCluster
    (by rw [hb]; simp) (fun b hm => by rw [hb]; simp [hm])
    (fun r q he => nomatch he) r q hr
  obtain ⟨hnot, hbegin⟩ := correctRange_open hc
  obtain ⟨hown, hlt⟩ := h₁.books.owned _ r hmem
  have hvoid : ¬ s₁.Void r := fun hv => by
    unfold Store.Void at hv
    exact absurd hv (Int.ne_of_lt hbegin)
  refine ⟨hup₁, hlt, .inl ⟨hown.symm ▸ hmem, fun ha => ?_⟩, fun key hkey e => ?_, hfree₁, hP⟩
  · rw [hown]
    exact (h₁.chosen ha _ hu b' hb').resolve_right fun hv => hvoid (hv r hmem)
  · have : inUploaderRanges r (s₁.uploader up).ranges = true := mem_keys.mpr ⟨key, hkey, e⟩
    rw [hnot] at this
    exact nomatch this

end Ledger

-- Only a swarmer with bytes has a block with a priority.
theorem Store.markPriority_pos (s : Store) {bitmap : List Nat}
    (h : ∀ i, bitmap.getD i 0 ≠ 0 → 0 < s.size) (intervalBegin intervalEnd priority : Int) (i : Nat)
    (hi : (s.markPriority bitmap intervalBegin intervalEnd priority).getD i 0 ≠ 0) :
    0 < s.size := by
  unfold markPriority at hi
  split at hi
  · omega
  · exact h i hi

theorem Store.markPriorities_pos (s : Store) : ∀ (l : List (Int × Int)) {bitmap : List Nat},
    (∀ i, bitmap.getD i 0 ≠ 0 → 0 < s.size) → ∀ i, (s.markPriorities bitmap l).getD i 0 ≠ 0 →
      0 < s.size
  | [], _, h, i, hi => h i hi
  | [(iBegin, priority)], _, h, i, hi => s.markPriority_pos h _ _ _ i hi
  | (iBegin, priority) :: (iEnd, p) :: l, _, h, i, hi =>
      markPriorities_pos s ((iEnd, p) :: l) (s.markPriority_pos h iBegin iEnd priority) i hi

theorem getD_replicate_zero (n i : Nat) : (List.replicate n PRIORITY_ZERO).getD i 0 = 0 := by
  rw [List.getD_eq_getElem?_getD, List.getElem?_replicate]
  split <;> rfl

theorem State.recompute_pos (s : State) (i : Nat)
    (hi : s.swarmerRecomputePrioritiesBitmap.prioritiesBitmap.getD i 0 ≠ 0) : 0 < s.size :=
  s.toStore.markPriorities_pos _ (fun i h => absurd (getD_replicate_zero _ i) h) i hi

theorem State.current_newBlock {s : State} {i : Nat} (hb : s.blockAt i = .emptyBlock)
    {b : BlockId} (h : s.Current b) : (s.newBlock i).Current b := by
  obtain ⟨j, hj, hbj⟩ := h
  have hne : j ≠ i := fun e => by rw [e, hb] at hbj; exact nomatch hbj
  refine ⟨j, ?_, ?_⟩
  · rw [(s.newBlock_minors i).blocks_length]; exact hj
  · rw [State.blockAt_newBlock, if_neg fun e => hne e.1]; exact hbj

namespace Ledger

variable {a : Facts} {P : Int → Prop} {s : State}

theorem register (h : Ledger a P s) {u : Uploader} (hr : u.ranges = []) (hb : u.blocks = []) :
    Ledger a P { s with uploaders := s.uploaders ++ [u] } := by
  have hholders : ∀ r, ({ s with uploaders := s.uploaders ++ [u] } : State).holders r =
      s.holders r := fun r => by
    simp [holders, List.countP_append, hr, inUploaderRanges]
  refine h.recount (.refl _) h.books rfl rfl rfl h.priorities rfl (fun u' hu' => ?_)
    (fun r hr => ?_) (fun i => ?_) (fun ha b hcur r hr => ?_) h.safe
  · rcases List.mem_append.mp hu' with hu' | hu'
    · exact h.fits hu'
    · rw [List.mem_singleton.mp hu', hr, hb]
      exact ⟨by simp, by simp, by simp, by simp, by simp, by simp⟩
  · rw [hholders]; exact h.holders_le r hr
  · have : ({ s with uploaders := s.uploaders ++ [u] } : State).selectors i = s.selectors i := by
      simp [selectors, nums, hb]
    rw [this]
    exact h.selectors_le i
  · rw [hholders]; exact h.shared ha b hcur r hr

-- The operations keep the ledger.
theorem stable {g : Int × List Int × Nat} (hpos : g.2.1.length = g.2.2) (hne : 0 < g.2.2) :
    Stable g P (fun s => Ledger a P s ∧ s.layout = g) (fun s b => s.Current b) (Pickable a P)
      (0 < g.1) (fun _ => True) where
  calm _ := trivial
  positions := hpos
  nonempty := hne
  layout h := h.2
  disk h := ⟨h.1.aside rfl rfl rfl rfl rfl h.1.priorities rfl, h.2⟩
  write h := ⟨h.1.aside rfl rfl rfl rfl rfl h.1.priorities rfl, h.2⟩
  sized h := h
  wanted h hp := by
    have := h.1.priorities _ hp
    rwa [← h.2]
  start hW h hi hb := by
    have hs : (s : State) → s.layout = g → 0 < s.size := fun s e => by rw [← e] at hW; exact hW
    refine ⟨⟨h.1.newBlock (hs _ h.2) hi hb, (newBlock_minors _ _).layout.trans h.2⟩, ?_,
      fun b => current_newBlock hb⟩
    exact ⟨_, (newBlock_minors _ _).blocks_length ▸ hi, by
      rw [State.blockAt_newBlock, if_pos ⟨rfl, hi⟩]⟩
  complete {s} i h := by
    have hs : Sealed i s (s.setCompletedBlock none i) := ⟨none, .inl (.refl _)⟩
    exact ⟨h.1.completes i none,
      (hs.keeps h.1.books h.1.files_pos).2.1.evolves.layout.trans h.2⟩
  present h hi hb hP hie := by
    refine (setPresentBlock_outcome h.1.books h.1.networks_pos h.1.files_pos hi hb
      fun ha r hr h₁ h₂ => ?_).mono
        (fun _ _ ⟨h₁, h₂, w, hw, _⟩ => ⟨h.1.fills h₂ h₁ fun _ => ⟨w, hw⟩,
          h₂.evolves.layout.trans h.2⟩) fun _ _ h => h.elim
    rcases hP with hP | e
    · exact h.1.safe ha _ hP _ ⟨_, hi, hb⟩ r hr h₁ h₂
    · have := ((h.1.books.tidy _ hi _ hb).toSound.of_mem hr).1
      omega
  receive h hu hkey h₁ h₂ :=
    (rangeReceived_kept h.1.books h.1.networks_pos h.1.files_pos (h.1.kept _ hu _ hkey)
      (h₁.trans_le h₂) _ _ _).mono
        (fun _ _ ⟨h₁, h₂, h₃⟩ => ⟨h.1.fills h₂ h₁ fun hc =>
          ⟨_, h₃ (h.1.held (a.held_of_counted hc) _ hu _ hkey)⟩, h₂.evolves.layout.trans h.2⟩)
        fun _ _ h => h.elim
  verify {s _ _ _} h :=
    (Since.verifyChunk (show Since a P s s from ⟨h.1, .refl _⟩) _ _ _).mono
      (fun _ _ ⟨h₁, h₂⟩ => ⟨⟨h₁, h₂.evolves.layout.trans h.2⟩,
        fun _ _ _ _ _ hc => hc.settled h.1.books h₂⟩)
      fun _ _ ⟨h₁, h₂⟩ => ⟨⟨⟨h₁, h₂.evolves.layout.trans h.2⟩, trivial⟩,
        fun _ _ _ _ _ hc => hc.settled h.1.books h₂⟩
  prune up h := ⟨h.1.removeCompletedUploaderRanges up,
    (removeCompletedUploaderRanges_tags _ up).shape.layout.trans h.2⟩
  pick h hc := ⟨h.1.takeCluster hc, (takeCluster_tags _ _ _ _ _ _).shape.layout.trans h.2⟩
  permute h _ _ _ := ⟨modifyUploader h.1 (by simp) _, h.2⟩
  dropComplete h _ := ⟨modifyUploader h.1 (by simp) _, h.2⟩
  dropPartial h _ := ⟨modifyUploader h.1 (by simp) _, h.2⟩
  current _ hi hb := ⟨_, hi, hb⟩
  aside h := h
  unselect up h := ⟨h.1.clearUploaderBlocks up,
    (clearUploaderBlocks_tags _ up).shape.layout.trans h.2⟩
  choose h hR := ⟨h.1.choose hR, (chooseBlocks_tags _ _ _).shape.layout.trans h.2⟩
  count i h := ⟨h.1.availability rfl, h.2⟩
  declare hf h := ⟨h.1.chooses _ hf (by simp) rfl (fun _ _ => by simp [nums]), h.2⟩
  register hr hb h := ⟨h.1.register hr hb, h.2⟩
  clear up h := ⟨h.1.clearUploaderIntervals up,
    (clearUploaderIntervals_tags _ up).shape.layout.trans h.2⟩
  release up h := ⟨h.1.clearUploaderRanges up,
    (clearUploaderRanges_tags _ up).shape.layout.trans h.2⟩
  strategy h := ⟨h.1.aside rfl rfl rfl rfl rfl h.1.priorities rfl, h.2⟩
  fileState h := ⟨h.1.aside rfl rfl rfl (by simp [modifyFile]) (by
    rw [file_modifyFile]
    split
    · next e => rw [e.1]
    · rfl) h.1.priorities rfl, h.2⟩
  prioritize h := ⟨h.1.aside rfl rfl rfl rfl rfl (State.recompute_pos _) rfl, h.2⟩

end Ledger

end Mldonkey.Swarming
