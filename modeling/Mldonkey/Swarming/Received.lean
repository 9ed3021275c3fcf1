import Mldonkey.Swarming.System

-- What `received` does with the bytes of a peer, wherever the peer says that they belong.
namespace Mldonkey.Swarming

open Effects State Store

-- The offsets at which a write puts bytes
noncomputable def FileWrite.span (w : FileWrite) : Finset Int := Finset.Ico w.offset (w.offset + w.bytes.length)

-- A write puts bytes of the peer's data where the peer said that they belong.
structure Sent (fileBegin : Int) (str : List UInt8) (stringBegin stringLen : Nat)
    (w : FileWrite) : Prop where
  inside : fileBegin ≤ w.offset ∧ w.offset + w.bytes.length ≤ fileBegin + stringLen
  bytes : w.bytes =
    (str.drop (stringBegin + (w.offset - fileBegin).toNat)).take w.bytes.length

-- Between two states of `received`, every write went into ranges that the uploader holds, and
-- filled bytes that were missing, each of them once.
structure Receives (fileBegin : Int) (str : List UInt8) (stringBegin stringLen : Nat)
    (keys : List (Int × Int × RangeId)) (writes : List FileWrite) (s s' : State) : Prop where
  written : s'.written = s.written ++ writes
  sent : ∀ w ∈ writes, Sent fileBegin str stringBegin stringLen w
  within : ∀ w ∈ writes, ∃ key ∈ keys, (s.range key.2.2).rangeBegin ≤ w.offset ∧
    w.offset + w.bytes.length ≤ (s.range key.2.2).rangeEnd
  missing : ∀ x, s'.Missing x ↔ s.Missing x ∧ ∀ w ∈ writes, x ∉ w.span
  before : ∀ w ∈ writes, ∀ x ∈ w.span, s.Missing x
  apart : writes.Pairwise fun w w' => Disjoint w.span w'.span
  downloaded : (s'.file 0).downloaded =
    (s.file 0).downloaded + (writes.map fun w => (w.bytes.length : Int)).sum

section Receives

variable {fileBegin : Int} {str : List UInt8} {stringBegin stringLen : Nat}
  {keys keys' : List (Int × Int × RangeId)} {writes writes' : List FileWrite} {s s' s'' : State}

theorem Receives.refl (s : State) : Receives fileBegin str stringBegin stringLen keys [] s s where
  written := (List.append_nil _).symm
  sent _ hw := absurd hw List.not_mem_nil
  within _ hw := absurd hw List.not_mem_nil
  missing x := by simp
  before _ hw := absurd hw List.not_mem_nil
  apart := List.Pairwise.nil
  downloaded := (add_zero _).symm

-- What one range gets is missing after what the ones before it got.
theorem Receives.trans (h : Receives fileBegin str stringBegin stringLen keys writes s s')
    (h' : Receives fileBegin str stringBegin stringLen keys' writes' s' s'')
    (hsub : ∀ key ∈ keys', key ∈ keys ∧
      (s.range key.2.2).rangeBegin ≤ (s'.range key.2.2).rangeBegin ∧
      (s'.range key.2.2).rangeEnd ≤ (s.range key.2.2).rangeEnd) :
    Receives fileBegin str stringBegin stringLen keys (writes ++ writes') s s'' where
  written := by rw [h'.written, h.written, List.append_assoc]
  sent w hw := (List.mem_append.mp hw).elim (h.sent w) (h'.sent w)
  within w hw := by
    rcases List.mem_append.mp hw with hw | hw
    · exact h.within w hw
    · obtain ⟨key, hkey, hbegin, hend⟩ := h'.within w hw
      obtain ⟨hmem, hlo, hhi⟩ := hsub key hkey
      exact ⟨key, hmem, hlo.trans hbegin, hend.trans hhi⟩
  missing x := by
    rw [h'.missing, h.missing, and_assoc]
    refine and_congr_right fun _ => ?_
    simp only [List.mem_append, or_imp, forall_and]
  before w hw x hx := by
    rcases List.mem_append.mp hw with hw | hw
    · exact h.before w hw x hx
    · exact ((h.missing x).mp (h'.before w hw x hx)).1
  apart := by
    refine List.pairwise_append.mpr ⟨h.apart, h'.apart, fun w hw w' hw' => ?_⟩
    refine Finset.disjoint_left.mpr fun x hx hx' => ?_
    exact ((h.missing x).mp (h'.before w' hw' x hx')).2 w hw hx
  downloaded := by
    rw [h'.downloaded, h.downloaded, List.map_append, List.sum_append, add_assoc]

theorem Receives.single {key : Int × Int × RangeId} {w : FileWrite}
    (hsent : Sent fileBegin str stringBegin stringLen w)
    (hwithin : (s.range key.2.2).rangeBegin ≤ w.offset ∧
      w.offset + w.bytes.length ≤ (s.range key.2.2).rangeEnd)
    (hwritten : s'.written = s.written ++ [w]) (hfill : Fills w.span s s') :
    Receives fileBegin str stringBegin stringLen [key] [w] s s' where
  written := hwritten
  sent _ hw := List.mem_singleton.mp hw ▸ hsent
  within _ hw := ⟨key, List.mem_singleton_self key, List.mem_singleton.mp hw ▸ hwithin⟩
  missing x := by
    rw [hfill.missing]
    simp
  before _ hw := by
    rw [List.mem_singleton.mp hw]
    exact hfill.before
  apart := List.pairwise_singleton _ _
  downloaded := by
    rw [hfill.downloaded, FileWrite.span, Int.card_Ico]
    simp

-- A range gets the bytes that the peer sent for it.
theorem sent_range {x : Range} {fileEnd : Int} {bytes : List UInt8}
    (hin : fileBegin ≤ x.rangeBegin ∧ x.rangeBegin < fileEnd)
    (hpos : 0 < (min fileEnd x.rangeEnd - x.rangeBegin).toNat)
    (hend : fileEnd ≤ fileBegin + stringLen) (hlen : stringBegin + stringLen ≤ str.length)
    (hbytes : (str.drop (stringBegin + (x.rangeBegin - fileBegin).toNat)).take
      (min fileEnd x.rangeEnd - x.rangeBegin).toNat = bytes) :
    x.rangeBegin + bytes.length = min fileEnd x.rangeEnd ∧
      Sent fileBegin str stringBegin stringLen ⟨x.rangeBegin, bytes⟩ := by
  have hlength : bytes.length = (min fileEnd x.rangeEnd - x.rangeBegin).toNat := by
    rw [← hbytes, List.length_take, List.length_drop]
    omega
  have hupto : x.rangeBegin + bytes.length = min fileEnd x.rangeEnd := by omega
  refine ⟨hupto, ⟨hin.1, ?_⟩, ?_⟩
  · rw [hupto]
    omega
  · show bytes = _
    rw [hlength, hbytes]

-- The end of the peer's data may wrap around, and then lies below what the peer sent.
theorem toInt_add_le (fileBegin : Int64) (n : Nat) :
    (fileBegin + Int64.ofNat n).toInt ≤ fileBegin.toInt + n := by
  have hlow : -2 ^ 63 ≤ fileBegin.toInt := fileBegin.minValue_le_toInt
  have hsize : Int64.size = 2 ^ 64 := rfl
  have := Int.bmod_def (fileBegin.toInt + n) (2 ^ 64)
  rw [Int64.toInt_add, Int64.toInt_ofNat', hsize, Int.add_bmod_bmod]
  omega

variable {a : Facts} {P : Int → Prop}

-- What the uploaders hold while data for one of them is stored.
structure Storing (a : Facts) (P : Int → Prop) (s s' : State) : Prop where
  ledger : Ledger a P s'
  uploaders : s'.uploaders = s.uploaders
  evolves : Evolves s.toStore s'.toStore

theorem receivedRange_receives (h : Ledger a P s) (ha : a.held) {u : Uploader}
    (hu : u ∈ s.uploaders) {key : Int × Int × RangeId} (hkey : key ∈ u.ranges) (disk : Disk)
    (t : Nat) {fileEnd : Int} (hend : fileEnd ≤ fileBegin + stringLen)
    (hlen : stringBegin + stringLen ≤ str.length) :
    let Q := fun s' => Storing a P s s' ∧
      ∃ writes, Receives fileBegin str stringBegin stringLen [key] writes s s'
    Outcome (receivedRange disk t fileBegin fileEnd str stringBegin key.2.2) (fun _ => Q)
      (fun _ => Q) s := by
  intro Q
  have hrefl : Q s := ⟨⟨h, rfl, .refl _⟩, [], .refl s⟩
  unfold receivedRange
  rw [outcome_get_bind]
  dsimp only
  split
  · next hin =>
    split
    · next hpos =>
      split
      · exact hrefl
      · next t' l hn =>
        have hplaced := h.books.placed
        have hstable := Ledger.stable (a := a) (P := P) (g := s.layout) hplaced.positions
          hplaced.nonempty
        -- marking disk blocks changes nothing that is told here
        have hdisk : ∀ x : List Bool, Q { s with diskAllocated := x } := fun x =>
          ⟨⟨h.aside rfl rfl rfl rfl rfl h.priorities rfl, rfl, .refl _⟩, [],
            { Receives.refl s with }⟩
        have hallocated : Outcome (tryCatch (preallocateDiskSpace disk.copyChunk
            (s.range key.2.2).rangeBegin (min fileEnd (s.range key.2.2).rangeEnd)) fun _ => pure ())
            (fun _ s' => ∃ x, s' = ({ s with diskAllocated := x } : State))
            (fun _ s' => ∃ x, s' = ({ s with diskAllocated := x } : State)) s := by
          refine Outcome.tryCatch (P := fun _ s' => ∃ x, s' = ({ s with diskAllocated := x } : State))
            ?_ fun _ _ he => he
          exact (hstable.preallocateDiskSpace_outcome ⟨h, rfl⟩ _ _ _).mono
            (fun _ _ hs => hs.2) fun _ _ hs => hs.2
        refine (hallocated.mono (fun _ _ hs => hs) ?_).bind fun _ s₁ hs₁ => ?_
        · rintro _ _ ⟨x, rfl⟩
          exact hdisk x
        obtain ⟨x, rfl⟩ := hs₁
        unfold fileWrite
        rw [outcome_bind, outcome_bind, outcome_check]
        refine ⟨fun _ => ?_, fun _ => hdisk x⟩
        rw [outcome_modify]
        generalize hbytes : (str.drop (stringBegin +
          ((s.range key.2.2).rangeBegin - fileBegin).toNat)).take
          (min fileEnd (s.range key.2.2).rangeEnd - (s.range key.2.2).rangeBegin).toNat = bytes
        obtain ⟨hupto, hsent⟩ := sent_range hin hpos hend hlen hbytes
        have h₂ : Ledger a P { s with
            diskAllocated := x
            written := s.written ++ [⟨(s.range key.2.2).rangeBegin, bytes⟩] } :=
          h.aside rfl rfl rfl rfl rfl h.priorities rfl
        have hspan : receivedBytes (s.range key.2.2) (s.range key.2.2).rangeBegin
            (min fileEnd (s.range key.2.2).rangeEnd) =
            FileWrite.span ⟨(s.range key.2.2).rangeBegin, bytes⟩ := by
          rw [receivedBytes, if_pos le_rfl, FileWrite.span, hupto, min_assoc, min_self]
        have hkept := h₂.kept u hu key hkey
        have hheld := h₂.held ha u hu key hkey
        refine (rangeReceived_kept h₂.books h₂.networks_pos h₂.files_pos hkept (by
          show (s.range key.2.2).rangeBegin < (s.range key.2.2).rangeEnd
          omega) (some t) _ _).mono (fun _ s' hs' => ?_) fun _ _ he => he.elim
        obtain ⟨hbooks, hmoves, hfills⟩ := hs'
        have hfill : Fills (FileWrite.span ⟨(s.range key.2.2).rangeBegin, bytes⟩) _ s' :=
          hspan ▸ hfills hheld
        have hstored : Fills (FileWrite.span ⟨(s.range key.2.2).rangeBegin, bytes⟩) s s' :=
          ⟨hfill.missing, hfill.before, hfill.downloaded⟩
        exact ⟨⟨h₂.fills hmoves hbooks fun _ => ⟨_, hfill⟩, hmoves.uploaders, hmoves.evolves⟩,
          _, .single hsent ⟨le_rfl, hupto.trans_le (min_le_right _ _)⟩ hmoves.written hstored⟩
    · exact hrefl
  · exact hrefl

theorem Storing.trans (h : Storing a P s s') (h' : Storing a P s' s'') : Storing a P s s'' :=
  ⟨h'.ledger, h'.uploaders.trans h.uploaders, h.evolves.trans h'.evolves⟩

-- The ranges of the uploader, one after another
theorem forM_receivedRange (h : Ledger a P s) (ha : a.held) {u : Uploader} (hu : u ∈ s.uploaders)
    (disk : Disk) (t : Nat) {fileEnd : Int} (hend : fileEnd ≤ fileBegin + stringLen)
    (hlen : stringBegin + stringLen ≤ str.length) :
    let Q := fun s' => Storing a P s s' ∧
      ∃ writes, Receives fileBegin str stringBegin stringLen u.ranges writes s s'
    Outcome (forM u.ranges fun key =>
      receivedRange disk t fileBegin fileEnd str stringBegin key.2.2) (fun _ => Q)
      (fun _ => Q) s := by
  intro Q
  refine Outcome.forM (I := Q) ⟨⟨h, rfl, .refl _⟩, [], .refl s⟩ fun key hkey s' hs' => ?_
  obtain ⟨hstoring, writes, hreceives⟩ := hs'
  have hshrinks := hstoring.evolves.shrinks key.2.2 (h.keys_lt u hu key hkey)
  have hone := receivedRange_receives hstoring.ledger ha (hstoring.uploaders.symm ▸ hu) hkey disk t
    hend hlen
  have hnext : ∀ s'', (Storing a P s' s'' ∧ ∃ writes',
      Receives fileBegin str stringBegin stringLen [key] writes' s' s'') → Q s'' := by
    rintro s'' ⟨hstoring', writes', hreceives'⟩
    refine ⟨hstoring.trans hstoring', writes ++ writes', hreceives.trans hreceives' ?_⟩
    intro key' hkey'
    obtain rfl := List.mem_singleton.mp hkey'
    exact ⟨hkey, hshrinks⟩
  exact hone.mono (fun _ => hnext) fun _ => hnext

-- The ranges that are complete are given back, which moves no byte.
theorem Receives.prune (h : Receives fileBegin str stringBegin stringLen keys writes s s')
    (up : Nat) : Receives fileBegin str stringBegin stringLen keys writes s
      (s'.removeCompletedUploaderRanges up) := by
  have hrecounts : ∀ (l : List RangeId) (st : Store),
      Recounts st (l.foldl Store.releaseRange st) := by
    intro l
    induction l with
    | nil => exact fun st => .refl st
    | cons r l ih => exact fun st => (st.releaseRange_recounts r).trans (ih _)
  unfold State.removeCompletedUploaderRanges
  dsimp only
  rw [State.foldl_releaseRange]
  exact
  { h with
    missing := fun x => ((hrecounts _ _).missing x).trans (h.missing x) }

theorem received_receives (h : Ledger a P s) (ha : a.held) {up : Nat}
    (hup : up < s.uploaders.length) (disk : Disk) (fileBegin : Int64) (str : List UInt8)
    (stringBegin stringLen : Nat) :
    let Q := fun s' => ∃ writes,
      Receives fileBegin.toInt str stringBegin stringLen (s.uploader up).ranges writes s s'
    Outcome (received disk up fileBegin str stringBegin stringLen) (fun _ => Q) (fun _ => Q) s := by
  intro Q
  have hrefl : Q s := ⟨[], .refl s⟩
  have hu : s.uploader up ∈ s.uploaders := by simp [State.uploader, hup]
  unfold received
  rw [outcome_bind, outcome_check]
  refine ⟨fun hlen => ?_, fun _ => hrefl⟩
  split
  · rw [outcome_get_bind]
    dsimp only
    split
    · have hend : min (fileBegin + Int64.ofNat stringLen).toInt s.size ≤
          fileBegin.toInt + stringLen := by
        have := toInt_add_le fileBegin stringLen
        omega
      have hprune : ∀ s', (Storing a P s s' ∧ ∃ writes, Receives fileBegin.toInt str stringBegin
          stringLen (s.uploader up).ranges writes s s') → Q (s'.removeCompletedUploaderRanges up) :=
        fun _ hs' => hs'.2.imp fun _ hreceives => hreceives.prune up
      refine Outcome.tryCatch (P := fun _ s' => Storing a P s s' ∧ ∃ writes,
        Receives fileBegin.toInt str stringBegin stringLen (s.uploader up).ranges writes s s') ?_
          fun _ s' he => hprune s' he
      exact (forM_receivedRange h ha hu disk (s.uploader up).t hend hlen).bind
        fun _ s' hs' => hprune s' hs'
    · exact hrefl
  · exact hrefl

end Receives

def heldFacts : Facts := ⟨True, False, False, False, fun h => h.elim⟩

theorem accounts_held {s : State} {op : Op} (h : op.MergesIdle s) : op.Accounts heldFacts s := by
  refine Op.accounts_of_unselected id id fun f2 hop => ?_
  subst hop
  exact ⟨fun _ => h, False.elim⟩

-- Whatever a peer sends and wherever it says that its bytes belong, `received` writes only bytes
-- of the data at their own offsets, inside the ranges of the uploader and over missing bytes
-- alone; just these bytes are there afterwards, also if the disk fails on the way.
theorem received_exact {verifiers : Verifier → Prop} {s : State}
    (h : Reachable verifiers (fun s op => op.MergesIdle s) s) (hs : 0 < s.size) {up : Nat}
    (hup : up < s.uploaders.length) (disk : Disk) (fileBegin : Int64) (str : List UInt8)
    (stringBegin stringLen : Nat) :
    ∃ writes, Receives fileBegin.toInt str stringBegin stringLen (s.uploader up).ranges writes s
      (Op.next (.received disk up fileBegin str stringBegin stringLen) s) := by
  have haccounted : Accounted heldFacts s :=
    Accounted.reachable (fun _ _ hop => accounts_held hop) h hs
  exact outcome_after
    (received_receives haccounted.ledger trivial hup disk fileBegin str stringBegin stringLen)

-- The peer sends the whole file; the uploader was given the first byte of the last block.
theorem received_exact_ten :
    ∃ writes, Receives 0 [1, 2, 3, 4, 5, 6, 7, 8, 9, 10] 0 10 [(8, 9, 0)] writes pickedTen
      (Op.next (.received ⟨fun _ => true, fun _ => true⟩ 0 0 [1, 2, 3, 4, 5, 6, 7, 8, 9, 10] 0 10)
        pickedTen) := by
  have h : Reachable (fun _ => True) (fun s op => op.MergesIdle s) pickedTen :=
    reachable_pickedTen.mono (fun _ => id) fun _ _ hop => ⟨hop.1, hop.2.2⟩
  have hup : 0 < pickedTen.uploaders.length := by decide
  exact received_exact h (by decide) hup _ 0 _ 0 10

example : (Op.next (.received ⟨fun _ => true, fun _ => true⟩ 0 0
    [1, 2, 3, 4, 5, 6, 7, 8, 9, 10] 0 10) pickedTen).written = [⟨8, [9]⟩] := by decide

end Mldonkey.Swarming
