import Mldonkey.Swarming.Priorities

-- The counters of a frontend's complete and verified chunks.
namespace Mldonkey.Swarming

open Effects

namespace Frontend

-- The counters are those of the characters in the bitmap.
structure Counted (t : Frontend) : Prop where
  ncomplete : t.ncompleteChunks = t.convertedVerifiedBitmap.countP fun c =>
    decide (c = .stateComplete ∨ c = .stateVerified)
  nverified : t.nverifiedChunks = t.convertedVerifiedBitmap.count .stateVerified

-- Each block belongs to a chunk of the bitmap.
def Ranged (t : Frontend) : Prop := ∀ i, t.chunkNum i < t.convertedVerifiedBitmap.length

variable {t t' : Frontend} {j : Nat} {c : PartState}

theorem countP_set {p : PartState → Bool} {l : VerificationBitmap} (hj : j < l.length) :
    ((VB.set l j c).countP p : Int) =
      l.countP p - (if p (VB.get l j) then 1 else 0) + if p c then 1 else 0 := by
  have hget : VB.get l j = l[j] := List.getD_eq_getElem _ _ hj
  have hpos : p l[j] = true → 0 < l.countP p := fun h =>
    List.countP_pos_iff.mpr ⟨l[j], List.getElem_mem hj, h⟩
  rw [VB.set, List.countP_set hj, hget]
  by_cases hold : p l[j] = true
  · have hcount := hpos hold
    simp only [hold, if_true]
    split <;> push_cast <;> omega
  · rw [if_neg hold, if_neg hold]
    split <;> push_cast <;> omega

-- A character is changed, and the counters with it.
theorem Counted.set (h : t.Counted) (hj : j < t.convertedVerifiedBitmap.length)
    (hb : t'.convertedVerifiedBitmap = VB.set t.convertedVerifiedBitmap j c)
    (hc : t'.ncompleteChunks = t.ncompleteChunks -
      (if t.chunk j = .stateComplete ∨ t.chunk j = .stateVerified then 1 else 0) +
      if c = .stateComplete ∨ c = .stateVerified then 1 else 0)
    (hv : t'.nverifiedChunks = t.nverifiedChunks -
      (if t.chunk j = .stateVerified then 1 else 0) + if c = .stateVerified then 1 else 0) :
    t'.Counted := by
  refine ⟨?_, ?_⟩
  · rw [hb, countP_set hj, hc, h.ncomplete, chunk]
    simp only [decide_eq_true_eq]
  · rw [hb, List.count, countP_set hj, hv, h.nverified, List.count, chunk]
    simp only [beq_iff_eq]

end Frontend

namespace State

variable {s : State} {i j k : Nat}

-- Every frontend's counters are those of its bitmap.
def Counts (s : State) : Prop := ∀ t ∈ s.networks, t.Counted

def Ranges (s : State) : Prop := ∀ t ∈ s.networks, t.Ranged

-- The tables of a frontend are those of a frontend before.
theorem exists_tables {s' : State} (h : s'.tables = s.tables) {t' : Frontend}
    (ht' : t' ∈ s'.networks) : ∃ t ∈ s.networks, t.tables = t'.tables := by
  have hnet : s'.networks.map Frontend.tables = s.networks.map Frontend.tables :=
    congrArg (·.2.2) h
  have hmem := List.mem_map_of_mem (f := Frontend.tables) ht'
  rw [hnet] at hmem
  exact List.mem_map.mp hmem

theorem ranges_congr {s' : State} (h : s'.tables = s.tables) (hs : s.Ranges) : s'.Ranges := by
  intro t' ht' i
  obtain ⟨t, ht, heq⟩ := exists_tables h ht'
  simp only [Frontend.tables, Prod.mk.injEq] at heq
  obtain ⟨-, hlen, -, hchunk, -⟩ := heq
  rw [← hlen, Frontend.chunkNum, ← hchunk]
  exact hs t ht i

theorem Counts.map (h : s.Counts) (hr : s.Ranges) {f : Frontend → Frontend}
    (hf : ∀ t, t.Counted → t.Ranged → (f t).Counted) :
    Counts { s with networks := s.networks.map f } := by
  intro x hx
  obtain ⟨t, ht, rfl⟩ := List.mem_map.mp hx
  exact hf t (h t ht) (hr t ht)

theorem Counts.modifyFrontend (h : s.Counts) {f : Frontend → Frontend}
    (hf : k < s.networks.length → s.frontend k ∈ s.networks → (f (s.frontend k)).Counted) :
    (s.modifyFrontend k f).Counts := by
  intro t ht
  rcases Counting.mem_modify (d := default) ht with ht | ⟨hk, rfl⟩
  · exact h t ht
  · refine hf hk ?_
    rw [State.frontend, List.getD_eq_getElem _ _ hk]
    exact List.getElem_mem hk

theorem modifyFrontend_twice (s : State) (k : Nat) (f g : Frontend → Frontend) :
    (s.modifyFrontend k f).modifyFrontend k g = s.modifyFrontend k (g ∘ f) := by
  simp [State.modifyFrontend, List.modify_modify_eq]

theorem lt_of_chunk (h : (s.frontend k).chunk j = .stateComplete) :
    j < (s.frontend k).convertedVerifiedBitmap.length := by
  by_contra hge
  rw [Frontend.chunk_of_length_le (not_lt.mp hge)] at h
  cases h

theorem lt_of_inTables {τ : TableValues} (h : s.tables = τ) (hj : InTables τ k j)
    (hk : k < s.networks.length) : j < (s.frontend k).convertedVerifiedBitmap.length := by
  subst h
  refine hj (s.frontend k).tables ?_
  show (s.networks.map Frontend.tables)[k]? = _
  rw [List.getElem?_map, List.getElem?_eq_getElem hk, State.frontend,
    List.getD_eq_getElem _ _ hk]
  rfl

-- What each state setter does to the counters.
namespace Counts

variable (h : s.Counts) (hr : s.Ranges)

include h hr

theorem setSwarmerStateMissing (i : Nat) : (s.setSwarmerStateMissing i).Counts := by
  unfold State.setSwarmerStateMissing
  split
  case h_1 | h_2 =>
    refine h.map hr fun t ht hr => ?_
    split
    · next hc =>
      split
      · exact ht.set (hr i) rfl (by simp [hc, Frontend.setChunk])
          (by simp [hc, Frontend.setChunk])
      · exact ht
    · exact ht
  case h_3 => exact h
  case h_4 => exact h

theorem setSwarmerStatePartial (i : Nat) : (s.setSwarmerStatePartial i).Counts := by
  unfold State.setSwarmerStatePartial
  split
  · refine h.map hr fun t ht hr => ?_
    split
    · next hc =>
      exact ht.set (hr i) rfl (by simp [hc, Frontend.setChunk]) (by simp [hc, Frontend.setChunk])
    · exact ht
  · exact h

-- A chunk of the primary frontend becomes complete with its last block, and is no longer
-- verified with a block that is complete only.
theorem setSwarmerStateComplete (i : Nat) : (s.setSwarmerStateComplete i).Counts := by
  have hcounts : (s.setBit i .stateComplete).Counts := h
  unfold State.setSwarmerStateComplete
  split
  case h_1 | h_2 =>
    refine hcounts.modifyFrontend fun _ hmem => ?_
    have ht := h _ hmem
    have htr := hr _ hmem
    split
    case h_1 | h_2 =>
      split
      · exact ht.set (htr i) rfl (by simp [*]) (by simp [*, Frontend.setChunk])
      · exact ht
    case h_3 => exact ht
    case h_4 => exact ht
  case h_3 => exact h
  case h_4 =>
    refine hcounts.modifyFrontend fun _ hmem => ?_
    split
    · next hc =>
      exact (h _ hmem).set (hr _ hmem i) rfl (by simp [hc, Frontend.setChunk]) (by simp [hc])
    · exact h _ hmem

theorem verifySecondaries (i : Nat) : (s.verifySecondaries i).Counts := by
  intro x hx
  rcases List.mem_append.mp hx with hx | hx
  · exact h x (List.mem_of_mem_take hx)
  · obtain ⟨t, ht, rfl⟩ := List.mem_map.mp hx
    have hmem := List.mem_of_mem_drop ht
    have hc := h t hmem
    have hr := hr t hmem i
    unfold State.verifySecondary
    dsimp only
    split
    case isFalse => exact hc
    split
    case h_1 | h_2 =>
      split
      · next hd => exact hc.set hr rfl (by simp [hd]) (by simp [hd])
      · next hd => exact hc.set hr rfl (by simp [hd]) (by simp [hd])
      · next hd => exact hc.set hr rfl (by simp [hd, Frontend.setChunk]) (by simp [hd])
      · exact hc
    case h_3 | h_4 =>
      split
      · next hd => exact hc.set hr rfl (by simp [hd]) (by simp [hd, Frontend.setChunk])
      · next hd => exact hc.set hr rfl (by simp [hd]) (by simp [hd, Frontend.setChunk])
      · exact hc
      · exact hc

end Counts

end State

section Frame

open State

variable {τ : TableValues} {s : State}

theorem frame_counts (hτ : ∀ s : State, s.tables = τ → s.Ranges) :
    Frame τ fun s => s.tables = τ ∧ s.Counts where
  tables h := h.1
  store hf h := ⟨(frame_tables τ).store hf h.1, h.2⟩
  files l h := ⟨h.1, h.2⟩
  setBit i c h := ⟨(frame_tables τ).setBit i c h.1, h.2⟩
  setSwarmerStateMissing i h :=
    ⟨(frame_tables τ).setSwarmerStateMissing i h.1, h.2.setSwarmerStateMissing (hτ _ h.1) i⟩
  setSwarmerStatePartial i h :=
    ⟨(frame_tables τ).setSwarmerStatePartial i h.1, h.2.setSwarmerStatePartial (hτ _ h.1) i⟩
  setSwarmerStateComplete i h :=
    ⟨(frame_tables τ).setSwarmerStateComplete i h.1, h.2.setSwarmerStateComplete (hτ _ h.1) i⟩
  verifySecondaries i h :=
    ⟨(frame_tables τ).verifySecondaries i h.1, h.2.verifySecondaries (hτ _ h.1) i⟩
  setVerifier {s} k f h := by
    refine ⟨(frame_tables τ).setVerifier k f h.1, h.2.modifyFrontend fun _ hmem => ?_⟩
    exact ⟨(h.2 _ hmem).ncomplete, (h.2 _ hmem).nverified⟩
  failed {s k j c} h hc hd := by
    refine ⟨(frame_tables τ).failed h.1 hc hd, ?_⟩
    rw [modifyFrontend_twice]
    have hne : c ≠ .stateComplete ∧ c ≠ .stateVerified := not_or.mp hd
    refine h.2.modifyFrontend fun _ hmem => (h.2 _ hmem).set (lt_of_chunk hc) rfl ?_ ?_
    · simp [hc, hne, Frontend.setChunk]
    · simp [hc, hne, Frontend.setChunk]
  verified {s k j} h hj hd := by
    refine ⟨(frame_tables τ).verified h.1 hj hd, ?_⟩
    rw [modifyFrontend_twice]
    have hne := not_or.mp hd
    refine h.2.modifyFrontend fun hk hmem => (h.2 _ hmem).set (lt_of_inTables h.1 hj hk) rfl ?_ ?_
    · simp [hne, Frontend.setChunk]
    · simp [hne, Frontend.setChunk]
  confirmed {s k j} h hc := by
    refine ⟨(frame_tables τ).confirmed h.1 hc, ?_⟩
    rw [modifyFrontend_twice]
    refine h.2.modifyFrontend fun _ hmem => (h.2 _ hmem).set (lt_of_chunk hc) rfl ?_ ?_
    · simp [hc, Frontend.setChunk]
    · simp [hc, Frontend.setChunk]

end Frame

namespace State

variable {s : State}

-- Each frontend has chunks of some size.
def Chunked (s : State) : Prop :=
  ∀ t ∈ s.networks, 0 < t.chunkSize ∧ 0 < t.convertedVerifiedBitmap.length

theorem chunked_congr {s' : State} (h : s'.tables = s.tables) (hs : s.Chunked) :
    s'.Chunked := by
  intro t' ht'
  obtain ⟨t, ht, heq⟩ := exists_tables h ht'
  simp only [Frontend.tables, Prod.mk.injEq] at heq
  rw [← heq.1, ← heq.2.1]
  exact hs t ht

-- Blocks begin below the size, so their chunks are counted.
theorem ranges_of_mapped (hm : Mapped s) (hl : s.Laid) (hc : s.Chunked) : s.Ranges := by
  intro t ht i
  obtain ⟨hsize, hlen⟩ := hc t ht
  have hmap : t.chunkOfBlock = (List.range s.blocks.length).map fun i =>
      ((s.computeBlockBegin i).tdiv t.chunkSize).toNat :=
    (congrArg (·.2.2.2.1) (hm.maps t ht)).symm
  rw [Frontend.chunkNum, hmap, List.getD_eq_getElem?_getD, List.getElem?_map]
  by_cases hi : i < s.blocks.length
  · rw [List.getElem?_range hi, Option.map_some, Option.getD_some]
    rcases lt_or_ge 0 s.size with hs | hs
    · have hplaced := hl.placed hs
      have hb := hplaced.begin_nonneg hi
      have hlt := (hplaced.lt hs i hi).trans_le (hplaced.end_le_size hi)
      rw [hm.chunks t ht, Int.tdiv_eq_ediv_of_nonneg hb, Int.tdiv_eq_ediv_of_nonneg (by omega)]
      have hle := Int.ediv_le_ediv hsize (show s.computeBlockBegin i ≤ s.size - 1 by omega)
      have := Int.ediv_nonneg hb hsize.le
      omega
    · have hzero : s.computeBlockBegin i = 0 := by
        rw [Store.computeBlockBegin, (hl.single hs).1]
        cases i <;> rfl
      rw [hzero, Int.zero_tdiv]
      exact hlen
  · rw [List.getElem?_eq_none (by simpa using hi)]
    exact hlen

theorem networks_associate (hpos : 0 < s.blocks.length) (t : Frontend) (file : File) :
    (s.associate t file).networks = (s.networks ++
      [{ t with
          convertedVerifiedBitmap := VB.create t.nchunks .stateMissing
          fd := if s.networks = [] then t.fd else (s.frontend 0).fd }]).map
        (Frontend.mapBlocks (s.associate t file).toStore) := by
  unfold State.associate
  extract_lets file t' s₁ s₂
  obtain ⟨hk, -⟩ := State.splitBlocks_spec (s := s₁) hpos t'.chunkSize
  have hnet : s₂.networks = s.networks ++ [t'] := hk.networks
  show s₂.networks.map _ = _
  rw [hnet]

theorem chunked_associate (h : s.Chunked) (hpos : 0 < s.blocks.length) {t : Frontend}
    (ht : 0 < t.chunkSize) (hn : 0 < t.nchunks) (file : File) :
    (s.associate t file).Chunked := by
  intro x hx
  rw [networks_associate hpos, List.mem_map] at hx
  obtain ⟨y, hy, rfl⟩ := hx
  rcases List.mem_append.mp hy with hy | hy
  · exact h y hy
  · obtain rfl := List.mem_singleton.mp hy
    refine ⟨ht, ?_⟩
    show 0 < (VB.create t.nchunks .stateMissing).length
    rwa [VB.create, List.length_replicate]

theorem Chunked.reachable {verifiers : Verifier → Prop} {ok : State → Op → Prop}
    (h : Reachable verifiers ok s) : s.Chunked := by
  refine Runs.Reach.inv_of (fun s hs => Mapped.reachable hs) (fun s hs => ?_)
    (fun s op hm hs hop => ?_) h
  · obtain ⟨size, t, file, ⟨ht, hn, -⟩, -, rfl⟩ := hs.associated
    exact chunked_associate (s := createSwarmer size) (fun _ h => nomatch h) Nat.one_pos ht hn file
  · rcases hm.tabled hop.1 with heq | ⟨t, file, ⟨ht, hn, -⟩, heq⟩
    · exact chunked_congr heq hs
    · rw [heq]
      exact chunked_associate hs hm.nonempty ht hn file

-- A frontend that is associated begins with an empty bitmap, and keeps its counters.
theorem counts_associate (h : s.Counts) (hpos : 0 < s.blocks.length) {t : Frontend}
    (hc : t.ncompleteChunks = 0) (hv : t.nverifiedChunks = 0) (file : File) :
    (s.associate t file).Counts := by
  intro x hx
  rw [networks_associate hpos, List.mem_map] at hx
  obtain ⟨y, hy, rfl⟩ := hx
  rcases List.mem_append.mp hy with hy | hy
  · exact ⟨(h y hy).ncomplete, (h y hy).nverified⟩
  · obtain rfl := List.mem_singleton.mp hy
    refine ⟨hc.trans ?_, hv.trans ?_⟩
    · show (0 : Int) = ((VB.create t.nchunks .stateMissing).countP _ : Nat)
      rw [VB.create, List.countP_replicate]
      rfl
    · show (0 : Int) = ((VB.create t.nchunks .stateMissing).count _ : Nat)
      rw [VB.create, List.count_replicate]
      rfl

end State

namespace Op

-- A file that is merged has no complete and no verified chunk.
def MergesFresh : Op → Prop
  | merge f2 => f2.ncompleteChunks = 0 ∧ f2.nverifiedChunks = 0
  | _ => True

end Op

open State

theorem counts_merge {s : State} (h : s.Counts) (hpos : 0 < s.blocks.length) {f2 : MergedFile}
    (hf : Op.MergesFresh (.merge f2)) : (Op.next (.merge f2) s).Counts := by
  rcases merge_associates s f2 with heq | ⟨t, file, -, ⟨hc, hv⟩, heq⟩
  · rw [heq]
    exact h
  · rw [heq]
    exact counts_associate h hpos (hc.trans hf.1) (hv.trans hf.2) file

-- The counters of each frontend are those of its bitmap, in every run in which no file with
-- complete chunks is merged.
theorem counters_of_merges_fresh {verifiers : Verifier → Prop} {s : State}
    (h : Reachable verifiers (fun _ op => op.MergesFresh) s) :
    ∀ t ∈ s.networks, t.Counted := by
  refine Runs.Reach.inv_of (J := fun s => Mapped s ∧ s.Laid ∧ s.Chunked) (I := Counts)
    (fun s hs => ⟨Mapped.reachable hs, Laid.reachable hs, Chunked.reachable hs⟩)
    (fun s hs => ?_) (fun s op hJ hs hop => ?_) h
  · obtain ⟨size, t, file, -, ⟨hc, hv, -⟩, rfl⟩ := hs.associated
    exact counts_associate (s := createSwarmer size) (fun _ h => nomatch h) Nat.one_pos hc hv file
  · obtain ⟨hm, hl, hc⟩ := hJ
    by_cases hmerge : ∃ f2, op = .merge f2
    · obtain ⟨f2, rfl⟩ := hmerge
      exact counts_merge hs hm.nonempty hop.2
    · have hr := ranges_of_mapped hm hl hc
      have hframe := frame_counts (τ := s.tables) fun s' hs' => ranges_congr hs' hr
      exact (hframe.next (fun hs ht hn => ⟨ht.trans hs.1, fun t h => hs.2 t (hn ▸ h)⟩)
        hm.positions hm.nonempty ⟨rfl, hs⟩ hop.1 fun f2 h => hmerge ⟨f2, h⟩).2

-- A file of ten bytes, and a second one whose only chunk is complete.
def tenBytes : Except Exn State :=
  create (createSwarmer 10) 10 10 .forceVerification .fileDownloading

def completeFile : MergedFile := ⟨10, 10, .forceVerification, 1, 0, 10, .fileDownloaded, 1⟩

theorem exists_tenBytes : ∃ s, tenBytes = .ok s := ⟨_, rfl⟩

theorem counters_of_merges_fresh_tenBytes : ∃ s, tenBytes = .ok s ∧
    ∀ t ∈ (Op.next (.merge { completeFile with ncompleteChunks := 0 }) s).networks, t.Counted := by
  obtain ⟨s, hs⟩ := exists_tenBytes
  have hreach : Reachable (fun _ => True) (fun _ op => op.MergesFresh)
      (Op.next (.merge { completeFile with ncompleteChunks := 0 }) s) :=
    .step (.start ⟨_, _, _, _, trivial, hs⟩) ⟨trivial, rfl, rfl⟩
  exact ⟨s, hs, counters_of_merges_fresh hreach⟩

-- The bitmap of the file that is merged is emptied, and its counter stays.
theorem counters_false : ¬ ∀ s, Reachable (fun _ => True) (fun _ _ => True) s →
    ∀ t ∈ s.networks, t.Counted := by
  intro h
  obtain ⟨s, hs⟩ := exists_tenBytes
  have hmerged : (Op.next (.merge completeFile) s).networks.map (fun t =>
      (t.ncompleteChunks, t.convertedVerifiedBitmap)) =
        [(0, [.stateMissing]), (1, [.stateMissing])] := by
    cases hs
    rfl
  have hmem : ((1 : Int), [PartState.stateMissing]) ∈
      (Op.next (.merge completeFile) s).networks.map fun t =>
        (t.ncompleteChunks, t.convertedVerifiedBitmap) := by
    rw [hmerged]
    exact List.mem_cons_of_mem _ (List.mem_singleton_self _)
  obtain ⟨t, ht, heq⟩ := List.mem_map.mp hmem
  obtain ⟨hc, hb⟩ := Prod.mk.inj heq
  have hreach : Reachable (fun _ => True) (fun _ _ => True)
      (Op.next (.merge completeFile) s) :=
    .step (.start ⟨_, _, _, _, trivial, hs⟩) ⟨trivial, trivial⟩
  have hcount := (h _ hreach t ht).ncomplete
  rw [hc, hb] at hcount
  exact absurd hcount (by decide)

end Mldonkey.Swarming
