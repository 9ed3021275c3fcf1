import Mldonkey.Swarming.Tables

namespace Mldonkey.Swarming

open Effects Runs

-- The tables of every frontend are those of its chunks, counted by rounding up, and of the
-- blocks where they lie now.
structure Mapped (s : State) : Prop where
  positions : s.blockPos.length = s.blocks.length
  nonempty : 0 < s.blocks.length
  counters : s.availability.length = s.blocks.length
  chunks : ∀ t ∈ s.networks,
    t.convertedVerifiedBitmap.length = (1 + (s.size - 1).tdiv t.chunkSize).toNat
  maps : ∀ t ∈ s.networks, (t.mapBlocks s.toStore).tables = t.tables

theorem mapBlocks_congr {s s' : Store} {t t' : Frontend} (h : s'.layout = s.layout)
    (ht : t'.tables = t.tables) : (t'.mapBlocks s').tables = (t.mapBlocks s).tables := by
  simp only [Frontend.tables, Prod.mk.injEq] at ht
  obtain ⟨hsize, hlen, -, -, hfd⟩ := ht
  have hblocks : s'.blocks.length = s.blocks.length := congrArg (·.2.2) h
  have hbegin : ∀ i, s'.computeBlockBegin i = s.computeBlockBegin i := Store.computeBlockBegin_congr h
  simp only [Frontend.tables, Frontend.mapBlocks, hsize, hlen, hblocks, hbegin, hfd]

theorem Mapped.congr {s s' : State} (hm : Mapped s) (h : s'.tables = s.tables) : Mapped s' := by
  have hlayout : s'.layout = s.layout := congrArg (·.1) h
  have hsize : s'.size = s.size := congrArg (·.1) hlayout
  have hpos : s'.blockPos = s.blockPos := congrArg (·.2.1) hlayout
  have hblocks : s'.blocks.length = s.blocks.length := congrArg (·.2.2) hlayout
  have hnet : s'.networks.map Frontend.tables = s.networks.map Frontend.tables := congrArg (·.2.2) h
  have hfind : ∀ t' ∈ s'.networks, ∃ t ∈ s.networks, t.tables = t'.tables := by
    intro t' ht'
    have := List.mem_map_of_mem (f := Frontend.tables) ht'
    rw [hnet] at this
    exact List.mem_map.mp this
  refine ⟨?_, hblocks ▸ hm.nonempty, ?_, fun t' ht' => ?_, fun t' ht' => ?_⟩
  · rw [hpos, hblocks, hm.positions]
  · have : s'.availability.length = s.availability.length := congrArg (·.2.1.1) h
    rw [this, hblocks, hm.counters]
  · obtain ⟨t, ht, he⟩ := hfind t' ht'
    have := hm.chunks t ht
    simp only [Frontend.tables, Prod.mk.injEq] at he
    rw [hsize, ← he.1, ← he.2.1, this]
  · obtain ⟨t, ht, he⟩ := hfind t' ht'
    rw [mapBlocks_congr hlayout he.symm, hm.maps t ht, he]

namespace Store

theorem layout_cutRanges (b : BlockId) (cutPos : Int) (l : List RangeId) (s : Store) :
    (cutRanges b cutPos s l).1.layout = s.layout := by
  induction l with
  | nil => rfl
  | cons r rest ih =>
    unfold cutRanges
    split
    · rfl
    · split
      · cases rest with
        | nil => rfl
        | cons r' rest => exact ih
      · rfl

theorem layout_ownRanges (b : BlockId) (l : List RangeId) (s : Store) :
    (s.ownRanges b l).layout = s.layout := by
  unfold ownRanges
  induction l generalizing s with
  | nil => rfl
  | cons r l ih => rw [List.foldl_cons, ih]; rfl

theorem layout_cutPartial (b1 : BlockId) (cutPos : Int) (s : Store) :
    (s.cutPartial b1 cutPos).layout = s.layout := by
  have h : ∀ (s : Store) b2, (s.cutRangesAfter b1 b2 cutPos).layout = s.layout := by
    intro s b2
    have hcut := layout_cutRanges b2 cutPos (s.block b1).ranges s
    unfold cutRangesAfter
    dsimp only
    refine (layout_ownRanges b2 _ _).trans ?_
    split
    · exact hcut
    · exact hcut
  exact h _ _

end Store

namespace State

-- The size, the frontends and the priorities of the bytes are left alone.
structure Keeps (s s' : State) : Prop where
  size : s'.size = s.size
  networks : s'.networks = s.networks
  intervals : s'.prioritiesIntervals = s.prioritiesIntervals

theorem Keeps.refl (s : State) : Keeps s s := ⟨rfl, rfl, rfl⟩

theorem Keeps.trans {s s' s'' : State} (h : Keeps s s') (h' : Keeps s' s'') : Keeps s s'' :=
  ⟨h'.size.trans h.size, h'.networks.trans h.networks, h'.intervals.trans h.intervals⟩

theorem keeps_setRightBlock (s : State) (i : Nat) (b2 : BlockId) : Keeps s (s.setRightBlock i b2) := by
  unfold setRightBlock
  split
  · exact ⟨rfl, rfl, rfl⟩
  · split <;> exact ⟨rfl, rfl, rfl⟩

-- Splitting the blocks only adds to the result.
theorem splitIter_spec (chunkSize : Int) (fuel : Nat) : ∀ (s : State) (i : Nat) (chunkBegin : Int)
    (newBlocks : List NewBlock),
    Keeps s (splitIter chunkSize fuel s i chunkBegin newBlocks).1 ∧
    newBlocks.length ≤ (splitIter chunkSize fuel s i chunkBegin newBlocks).2.length := by
  induction fuel with
  | zero =>
    intro s i chunkBegin newBlocks
    exact ⟨.refl s, by simp [splitIter]⟩
  | succ fuel ih =>
    intro s i chunkBegin newBlocks
    have hle : ∀ (s' : State) i' c' new, Keeps s s' →
        Keeps s (splitIter chunkSize fuel s' i' c' (new :: newBlocks)).1 ∧
        newBlocks.length ≤ (splitIter chunkSize fuel s' i' c' (new :: newBlocks)).2.length := by
      intro s' i' c' new hs
      obtain ⟨hk, hlen⟩ := ih s' i' c' (new :: newBlocks)
      rw [List.length_cons] at hlen
      exact ⟨hs.trans hk, by omega⟩
    unfold splitIter
    dsimp only
    split
    · exact ⟨.refl s, by simp⟩
    · split
      · exact hle _ _ _ _ (.refl s)
      · split
        · exact hle _ _ _ _ (.refl s)
        · split
          · refine hle _ _ _ _ (Keeps.trans ?_ (keeps_setRightBlock _ _ _))
            exact ⟨congrArg Prod.fst (Store.layout_cutPartial _ _ _), rfl, rfl⟩
          · exact hle _ _ _ _ ⟨rfl, rfl, rfl⟩

theorem splitIter_nonempty {chunkSize : Int} {fuel : Nat} {s : State} (h : 0 < s.blocks.length) :
    0 < (splitIter chunkSize (fuel + 1) s 0 0 []).2.length := by
  have hle : ∀ (s' : State) i' c' new, 0 < (splitIter chunkSize fuel s' i' c' [new]).2.length :=
    fun s' i' c' new => (splitIter_spec chunkSize fuel s' i' c' [new]).2
  unfold splitIter
  dsimp only
  rw [if_neg (by omega)]
  split
  · exact hle _ _ _ _
  · split
    · exact hle _ _ _ _
    · split <;> exact hle _ _ _ _

theorem rebuildFrom_spec (l : List NewBlock) : ∀ (s : State) (i : Nat),
    Keeps s (rebuildFrom s i l) ∧ (rebuildFrom s i l).blocks.length = s.blocks.length ∧
    (rebuildFrom s i l).blockPos.length = s.blockPos.length ∧
    (rebuildFrom s i l).availability = s.availability ∧
    (rebuildFrom s i l).prioritiesBitmap = s.prioritiesBitmap := by
  induction l with
  | nil => exact fun s i => ⟨.refl s, rfl, rfl, rfl, rfl⟩
  | cons new l ih =>
    intro s i
    unfold rebuildFrom
    dsimp only
    split
    all_goals
      obtain ⟨hk, hb, hp, ha, hm⟩ := ih _ (i + 1)
      exact ⟨⟨hk.size, hk.networks, hk.intervals⟩, hb.trans List.length_set,
        hp.trans List.length_set, ha, hm⟩

theorem splitBlocks_spec {s : State} (h : 0 < s.blocks.length) (chunkSize : Int) :
    Keeps s (s.splitBlocks chunkSize) ∧ 0 < (s.splitBlocks chunkSize).blocks.length ∧
    (s.splitBlocks chunkSize).blockPos.length = (s.splitBlocks chunkSize).blocks.length ∧
    (s.splitBlocks chunkSize).availability.length = (s.splitBlocks chunkSize).blocks.length ∧
    (s.splitBlocks chunkSize).prioritiesBitmap.length =
      (s.splitBlocks chunkSize).blocks.length := by
  unfold splitBlocks
  generalize hfuel : s.blocks.length + (s.size.tdiv chunkSize).toNat + 1 = fuel
  obtain ⟨fuel, rfl⟩ := Nat.exists_eq_add_one_of_ne_zero (show fuel ≠ 0 by omega)
  have hspec := splitIter_spec chunkSize (fuel + 1) s 0 0 []
  have hpos := @splitIter_nonempty chunkSize fuel s h
  generalize hsplit : splitIter chunkSize (fuel + 1) s 0 0 [] = split at hspec hpos
  obtain ⟨hk, hb, hp, ha, hm⟩ := rebuildFrom_spec split.2
    { split.1 with
      blocks := List.replicate split.2.length .emptyBlock
      verifiedBitmap := VB.create split.2.length .stateMissing
      prioritiesBitmap := List.replicate split.2.length PRIORITY_ZERO
      blockPos := List.replicate split.2.length 0
      availability := List.replicate split.2.length 0
      nuploading := List.replicate split.2.length 0 } 0
  simp only [List.length_replicate] at hb hp
  refine ⟨⟨hk.size.trans hspec.1.size, hk.networks.trans hspec.1.networks,
    hk.intervals.trans hspec.1.intervals⟩, ?_, ?_, ?_, ?_⟩
  · exact hb ▸ hpos
  · exact hp.trans hb.symm
  · exact (congrArg List.length ha).trans (List.length_replicate.trans hb.symm)
  · refine (Store.length_markPriorities _ _ _).trans (List.length_replicate.trans ?_)
    exact (congrArg List.length hm).trans (List.length_replicate.trans hb.symm)

end State

-- A frontend whose chunks are counted by rounding up is associated with its tables.
theorem Mapped.associate {s : State} (hpos : 0 < s.blocks.length)
    (hchunks : ∀ t ∈ s.networks,
      t.convertedVerifiedBitmap.length = (1 + (s.size - 1).tdiv t.chunkSize).toNat)
    {t : Frontend} (ht : t.nchunks = (1 + (s.size - 1).tdiv t.chunkSize).toNat) (file : File) :
    Mapped (s.associate t file) := by
  unfold State.associate
  extract_lets file t' s₁ s₂
  obtain ⟨hk, hne, hp, ha, _⟩ := State.splitBlocks_spec (s := s₁) hpos t'.chunkSize
  have hnet : s₂.networks = s.networks ++ [t'] := hk.networks
  have hsize : s₂.size = s.size := hk.size
  have hlen : ∀ x ∈ s₂.networks,
      x.convertedVerifiedBitmap.length = (1 + (s.size - 1).tdiv x.chunkSize).toNat := by
    intro x hx
    rw [hnet, List.mem_append, List.mem_singleton] at hx
    rcases hx with hx | rfl
    · exact hchunks x hx
    · show (VB.create t.nchunks .stateMissing).length = _
      rw [VB.create, List.length_replicate, ht]
  refine ⟨hp, hne, ha, fun x hx => ?_, fun x hx => ?_⟩
  · obtain ⟨y, hy, rfl⟩ := List.mem_map.mp hx
    show y.convertedVerifiedBitmap.length = (1 + (s₂.size - 1).tdiv y.chunkSize).toNat
    rw [hsize, hlen y hy]
  · obtain ⟨y, hy, rfl⟩ := List.mem_map.mp hx
    rfl

theorem associate_spec {s : State} (hpos : 0 < s.blocks.length) (t : Frontend) (file : File) :
    (s.associate t file).size = s.size ∧ (s.associate t file).networks.map Frontend.chunkSize =
      s.networks.map Frontend.chunkSize ++ [t.chunkSize] := by
  unfold State.associate
  extract_lets file t' s₁ s₂
  obtain ⟨hk, _⟩ := State.splitBlocks_spec (s := s₁) hpos t'.chunkSize
  refine ⟨hk.size, ?_⟩
  have hnet : s₂.networks = s.networks ++ [t'] := hk.networks
  show (s₂.networks.map (Frontend.mapBlocks s₂.toStore)).map Frontend.chunkSize = _
  rw [hnet, List.map_map, List.map_append]
  rfl

-- A frontend that is set up for a file of some size.
structure NewFrontend (size : Int) (t : Frontend) : Prop where
  chunkSize : 0 < t.chunkSize
  nchunks_pos : 0 < t.nchunks
  nchunks : t.nchunks = (1 + (size - 1).tdiv t.chunkSize).toNat

theorem createFrontend_spec {fileSize chunkSize : Nat} {t : Frontend}
    (h : createFrontend fileSize chunkSize = .ok t) :
    NewFrontend fileSize t ∧ t.ncompleteChunks = 0 ∧ t.nverifiedChunks = 0 := by
  unfold createFrontend at h
  split at h
  · cases h
  · dsimp only at h
    split at h
    · cases h
    · next hchunk hn =>
      cases h
      exact ⟨⟨Int.natCast_pos.mpr (Nat.pos_of_ne_zero hchunk), Nat.pos_of_ne_zero hn, rfl⟩,
        rfl, rfl⟩

theorem Fresh.associated {verifiers : Verifier → Prop} {s : State} (h : Fresh verifiers s) :
    ∃ (size : Nat) (t : Frontend) (file : File), NewFrontend size t ∧
      (t.ncompleteChunks = 0 ∧ t.nverifiedChunks = 0 ∧ file.downloaded = 0 ∧
        verifiers t.verifier) ∧ s = (createSwarmer size).associate t file := by
  obtain ⟨size, chunkSize, verifier, fileState, hv, hs⟩ := h
  unfold create at hs
  cases hc : createFrontend size chunkSize with
  | error e =>
    rw [hc] at hs
    cases hs
  | ok t =>
    obtain ⟨hnew, hcounters⟩ := createFrontend_spec hc
    rw [hc] at hs
    cases hs
    exact ⟨size, { t with verifier := verifier }, _,
      ⟨hnew.chunkSize, hnew.nchunks_pos, hnew.nchunks⟩, ⟨hcounters.1, hcounters.2, rfl, hv⟩, rfl⟩

-- A merge associates a frontend with the counters of the file, or changes nothing.
theorem merge_associates (s : State) (f2 : MergedFile) :
    Op.next (.merge f2) s = s ∨ ∃ (t : Frontend) (file : File), NewFrontend s.size t ∧
      (t.ncompleteChunks = f2.ncompleteChunks ∧ t.nverifiedChunks = f2.nverifiedChunks) ∧
      Op.next (.merge f2) s = s.associate t file := by
  let Q : State → Prop := fun s' => s' = s ∨ ∃ (t : Frontend) (file : File),
    NewFrontend s.size t ∧
    (t.ncompleteChunks = f2.ncompleteChunks ∧ t.nverifiedChunks = f2.nverifiedChunks) ∧
    s' = s.associate t file
  have hout : Outcome (merge f2) (fun _ => Q) (fun _ => Q) s := by
    unfold Swarming.merge
    rw [outcome_get_bind, outcome_bind, outcome_check]
    refine ⟨fun hsize => ?_, fun _ => .inl rfl⟩
    rw [outcome_bind]
    cases hc : createFrontend f2.size f2.chunkSize with
    | error e => exact .inl rfl
    | ok t =>
      obtain ⟨hnew, -⟩ := createFrontend_spec hc
      refine (outcome_pure t _ _ s).mpr ?_
      split
      · exact .inl rfl
      · rw [outcome_bind, outcome_check]
        refine ⟨fun _ => ?_, fun _ => .inl rfl⟩
        rw [outcome_bind, outcome_check]
        refine ⟨fun _ => ?_, fun _ => .inl rfl⟩
        rw [outcome_modify]
        refine .inr ⟨
          { t with
            verifier := f2.verifier
            ncompleteChunks := f2.ncompleteChunks
            nverifiedChunks := f2.nverifiedChunks
            fd := f2.fd },
          ⟨f2.size, f2.downloaded, f2.state⟩, ?_, ⟨rfl, rfl⟩, rfl⟩
        exact hsize ▸ ⟨hnew.chunkSize, hnew.nchunks_pos, hnew.nchunks⟩
  exact outcome_after hout

-- What an operation does to the tables: nothing, or a frontend is associated with the swarmer.
def State.Tabled (s s' : State) : Prop :=
  s'.tables = s.tables ∨
    ∃ (t : Frontend) (file : File), NewFrontend s.size t ∧ s' = s.associate t file

-- Every operation leaves the tables as they are, or associates a frontend.
theorem Mapped.tabled {s : State} {op : Op} (h : Mapped s) (hop : op.Valid s) :
    s.Tabled (op.next s) := by
  by_cases hmerge : ∃ f2, op = .merge f2
  · obtain ⟨f2, rfl⟩ := hmerge
    rcases merge_associates s f2 with heq | ⟨t, file, hnew, -, heq⟩
    · exact .inl (by rw [heq])
    · exact .inr ⟨t, file, hnew, heq⟩
  · exact .inl ((frame_tables s.tables).next (fun hs ht _ => ht.trans hs) h.positions h.nonempty
      rfl hop fun f2 heq => hmerge ⟨f2, heq⟩)

-- Every operation on a swarmer leaves its tables those of its blocks.
theorem Mapped.step {s : State} {op : Op} (h : Mapped s) (hop : op.Valid s) :
    Mapped (op.next s) := by
  rcases h.tabled hop with heq | ⟨t, file, ht, heq⟩
  · exact h.congr heq
  · rw [heq]
    exact Mapped.associate h.nonempty h.chunks ht.nchunks file

theorem Mapped.reachable {verifiers : Verifier → Prop} {ok : State → Op → Prop} {s : State}
    (h : Reachable verifiers ok s) : Mapped s := by
  refine h.inv (fun s hs => ?_) fun s op hs hop => hs.step hop.1
  obtain ⟨size, t, file, ht, -, rfl⟩ := hs.associated
  exact Mapped.associate (s := createSwarmer size) Nat.one_pos (fun _ h => by cases h) ht.nchunks
    file

theorem create_spec {size chunkSize : Nat} {verifier : Verifier} {fileState : FileState}
    {s : State} (h : create (createSwarmer size) size chunkSize verifier fileState = .ok s) :
    s.size = size ∧ s.networks.map Frontend.chunkSize = [(chunkSize : Int)] := by
  unfold create createFrontend at h
  split at h
  · cases h
  · dsimp only at h
    split at h
    · cases h
    · cases h
      exact associate_spec (s := createSwarmer size) Nat.one_pos _ _

theorem exists_created {size chunkSize : Nat} (hsize : 0 < size) (hchunk : 0 < chunkSize) :
    ∃ s : State, Reachable (fun _ => True) (fun _ _ => True) s ∧ 0 < s.networks.length ∧
      (s.frontend 0).chunkSize = chunkSize ∧ s.size = size := by
  have hn : (1 + ((size - 1 : Int).tdiv chunkSize)).toNat ≠ 0 := by
    have := Int.tdiv_nonneg (a := (size - 1 : Int)) (b := chunkSize) (by omega) (by omega)
    omega
  obtain ⟨s, hs⟩ : ∃ s, create (createSwarmer size) size chunkSize .noVerification
      .fileDownloading = .ok s := by
    unfold create createFrontend
    rw [if_neg (by omega)]
    dsimp only
    rw [if_neg hn]
    exact ⟨_, rfl⟩
  obtain ⟨hsz, hnet⟩ := create_spec hs
  have hlen : s.networks.length = 1 := by
    simpa using congrArg List.length hnet
  refine ⟨s, .start ⟨_, _, _, _, trivial, hs⟩, by omega, ?_, hsz⟩
  obtain ⟨t, ht⟩ := List.length_eq_one_iff.mp hlen
  rw [ht] at hnet
  simp only [List.map_cons, List.map_nil, List.cons.injEq, and_true] at hnet
  simp [State.frontend, ht, hnet]

end Mldonkey.Swarming
