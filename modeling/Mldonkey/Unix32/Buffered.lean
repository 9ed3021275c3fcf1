import Mldonkey.Unix32.Flush

-- Runs of buffered writes, flushes, reads and apply_on_chunk on all files.
namespace Mldonkey.Unix32

open Patch

-- A file that was just opened for writing, with the bytes that it stands for.
inductive FileKind.Opened : FileKind → Bytes → Prop
  | diskFile (bytes : Bytes) : Opened (.diskFile ⟨true, bytes⟩) bytes
  | multiFile {files : List (Nat × Bytes)} {t : MultiFile}
      (h : MultiFile.create true files = .ok t) :
      Opened (.multiFile t) (files.flatMap fun x => region x.2 0 x.1)
  | sparseFile : Opened (.sparseFile (.create true)) []

theorem FileKind.Opened.holds {kind : FileKind} {F : Bytes} (h : kind.Opened F) : kind.Holds F := by
  cases h with
  | diskFile bytes => exact ⟨rfl, rfl⟩
  | multiFile h =>
      obtain ⟨hwf, -, hflat⟩ := MultiFile.create_spec h
      exact ⟨hwf, hflat⟩
  | sparseFile => exact SparseRun.create.inv

namespace Files

def AllAgree (t : Files) : Prop := ∀ (i : Nat) (f : File), t.files[i]? = some f → Agrees f.buffers

def AgreesAt (t : Files) (i : Nat) : Prop := ∀ f, t.files[i]? = some f → Agrees f.buffers

-- The states of a run, with the array that each file stands for: the one on
-- which its buffered writes were done in the order in which they were issued. A
-- write has its bytes in the string and touches only free positions, and
-- whenever a file is flushed its pending writes agree.
inductive BufferedRun : Files → (Nat → Bytes) → Prop
  | start {t : Files} {G : Nat → Bytes}
      (hfiles : ∀ (i : Nat) (f : File), t.files[i]? = some f →
        f.writable = true ∧ f.error = none ∧ f.buffers = [] ∧ f.kind.Opened (G i)) :
      BufferedRun t G
  | bufferedWrite {t t' : Files} {G : Nat → Bytes} {i : Nat} {f : File} {w : WriteCall}
      (h : BufferedRun t G) (hf : t.files[i]? = some f)
      (hstring : w.stringPos + w.len ≤ w.string.length)
      (hfree : ∀ x, w.Covers x → f.kind.Free x)
      (hflush : (t.push i w).bufferedBytes > maxBuffered → (t.push i w).AllAgree)
      (hwrite : t.bufferedWrite i w = .ok t') :
      BufferedRun t' (Function.update G i (patch (G i) w.pos w.bytes))
  | bufferedWriteCopy {t t' : Files} {G : Nat → Bytes} {i : Nat} {f : File} {w : WriteCall}
      (h : BufferedRun t G) (hf : t.files[i]? = some f)
      (hstring : w.stringPos + w.len ≤ w.string.length)
      (hfree : ∀ x, w.Covers x → f.kind.Free x)
      (hflush : (t.push i w.copy).bufferedBytes > maxBuffered → (t.push i w.copy).AllAgree)
      (hwrite : t.bufferedWriteCopy i w = .ok t') :
      BufferedRun t' (Function.update G i (patch (G i) w.pos w.bytes))
  | flushFd {t : Files} {G : Nat → Bytes} {i : Nat} (h : BufferedRun t G)
      (hagree : t.AgreesAt i) : BufferedRun (t.flushFd i).1 G
  | flush {t : Files} {G : Nat → Bytes} (h : BufferedRun t G) (hagree : t.AllAgree) :
      BufferedRun t.flush G
  | read {t : Files} {G : Nat → Bytes} {i b q n : Nat} {s : Bytes} (h : BufferedRun t G)
      (hagree : t.AgreesAt i) : BufferedRun (t.read i b s q n).1 G
  | applyOnChunk {t : Files} {G : Nat → Bytes} {i b n : Nat} (h : BufferedRun t G)
      (hagree : ∀ f, t.files[i]? = some f → f.kind.isMultiFile = true → Agrees f.buffers) :
      BufferedRun (t.applyOnChunk i b n).1 G

-- Every file stands for its array, and those with pending writes are listed.
structure Stands (t : Files) (G : Nat → Bytes) : Prop where
  pending : ∀ (i : Nat) (f : File), t.files[i]? = some f → f.Pending (G i)
  listed : ∀ (i : Nat) (f : File), t.files[i]? = some f → f.buffers ≠ [] → i ∈ t.modifiedFiles

variable {t t' : Files} {G : Nat → Bytes} {f : File} {i j : Nat}

theorem agrees_nil : Agrees [] := fun _ => rfl

theorem getElem?_set_cases {l : List File} {g : File} (h : (l.set i f)[j]? = some g) :
    j = i ∧ g = f ∨ j ≠ i ∧ l[j]? = some g := by
  rw [List.getElem?_set] at h
  split at h
  case isTrue hij =>
      split at h
      · exact .inl ⟨hij.symm, (Option.some.inj h).symm⟩
      · cases h
  case isFalse hij => exact .inr ⟨fun h => hij h.symm, h⟩

-- A file after its flush.
structure Clean (f : File) (F : Bytes) : Prop where
  writable : f.writable = true
  error : f.error = none
  buffers : f.buffers = []
  holds : f.kind.Holds F

theorem Clean.pending {F : Bytes} (h : Clean f F) : f.Pending F :=
  ⟨h.writable, h.error, ⟨F, h.holds, by rw [h.buffers]; rfl⟩, by simp [h.buffers],
    by simp [h.buffers]⟩

theorem Stands.flushFd (h : t.Stands G) (hf : t.files[i]? = some f) (hagree : Agrees f.buffers) :
    ∃ t' f', t.flushFd i = (t', none) ∧ t'.Stands G ∧ t'.files[i]? = some f' ∧ Clean f' (G i) ∧
      t'.modifiedFiles = t.modifiedFiles ∧ f'.kind.isMultiFile = f.kind.isMultiFile ∧
      (∀ j, j ≠ i → t'.files[j]? = t.files[j]?) := by
  have hp := h.pending i f hf
  have hi := (List.getElem?_eq_some_iff.mp hf).1
  obtain ⟨t', kind', hflush, hfiles, hmod, hmulti, hholds⟩ := flushFd_spec hf hp
  have hclean : Clean { f with kind := kind', buffers := [] } (G i) :=
    ⟨hp.writable, hp.error, rfl, hholds hagree⟩
  refine ⟨t', _, hflush, ⟨fun j g hg => ?_, fun j g hg hne => ?_⟩, ?_, hclean, hmod, hmulti,
    fun j hj => ?_⟩
  · rw [hfiles] at hg
    rcases getElem?_set_cases hg with ⟨rfl, rfl⟩ | ⟨-, hg⟩
    · exact hclean.pending
    · exact h.pending j g hg
  · rw [hfiles] at hg
    rw [hmod]
    rcases getElem?_set_cases hg with ⟨rfl, rfl⟩ | ⟨-, hg⟩
    · exact absurd rfl hne
    · exact h.listed j g hg hne
  · rw [hfiles, List.getElem?_set_self hi]
  · rw [hfiles, List.getElem?_set_ne (fun h => hj h.symm)]

theorem flushFd_none (h : t.files[i]? = none) : t.flushFd i = (t, none) := by
  simp only [Files.flushFd, findWritable, h]

theorem Stands.flushFd_stands (h : t.Stands G) (hagree : t.AgreesAt i) :
    (t.flushFd i).1.Stands G := by
  cases hf : t.files[i]? with
  | none => rwa [flushFd_none hf]
  | some f =>
      obtain ⟨t', f', hflush, hs, -⟩ := h.flushFd hf (hagree f hf)
      rwa [hflush]

theorem setError_none (h : t.Stands G) : t.setError i none = t := by
  have hsame : (t.files.modify i fun f => { f with error := none }) = t.files := by
    refine List.ext_getElem? fun j => ?_
    rw [List.getElem?_modify]
    cases hf : t.files[j]? with
    | none => rfl
    | some f =>
        have herror := (h.pending j f hf).error
        split
        · cases f
          cases herror
          rfl
        · rfl
  rw [setError, hsame]

theorem Stands.agree_flushed (h : t.AllAgree) {f' : File} (hf' : t'.files[i]? = some f')
    (hnil : f'.buffers = []) (hother : ∀ j, j ≠ i → t'.files[j]? = t.files[j]?) : t'.AllAgree := by
  intro j g hg
  by_cases hj : j = i
  · subst hj
    rw [← Option.some.inj (hf'.symm.trans hg), hnil]
    exact agrees_nil
  · exact h j g ((hother j hj).symm.trans hg)

-- When all agree every listed file is flushed, and the others stay clean.
theorem Stands.flushAll {l : List Nat} (h : t.Stands G) (hagree : t.AllAgree) :
    ∃ t', Files.flushAll l t = (t', []) ∧ t'.Stands G ∧
      (∀ j : Nat, t.files[j]? = none → t'.files[j]? = none) ∧
      ∀ (j : Nat) (f : File), t.files[j]? = some f → ∃ f' : File, t'.files[j]? = some f' ∧
        (j ∈ l ∨ f.buffers = [] → f'.buffers = []) := by
  induction l generalizing t with
  | nil =>
      exact ⟨t, rfl, h, fun _ => id, fun j f hf => ⟨f, hf, fun hor => hor.resolve_left (by simp)⟩⟩
  | cons i l ih =>
      cases hi : t.files[i]? with
      | none =>
          obtain ⟨t', hall, hs, hnone, hfiles⟩ := ih h hagree
          refine ⟨t', ?_, hs, hnone, fun j f hf => ?_⟩
          · simp only [Files.flushAll, flushFd_none hi, setError_none h, hall]
          · obtain ⟨f', hf', hnil⟩ := hfiles j f hf
            refine ⟨f', hf', fun hor => hnil (hor.imp_left fun hmem => ?_)⟩
            rcases List.mem_cons.mp hmem with rfl | hmem
            · rw [hi] at hf
              cases hf
            · exact hmem
      | some g =>
          obtain ⟨t₁, g', hflush, hs₁, hg', hclean, -, -, hother⟩ := h.flushFd hi (hagree i g hi)
          have hagree₁ := Stands.agree_flushed hagree hg' hclean.buffers hother
          obtain ⟨t', hall, hs, hnone, hfiles⟩ := ih hs₁ hagree₁
          refine ⟨t', ?_, hs, fun j hj => hnone j ?_, fun j f hf => ?_⟩
          · simp only [Files.flushAll, hflush, setError_none hs₁, hall]
          · rwa [hother j fun hji => by rw [hji, hi] at hj; exact nomatch hj]
          · by_cases hj : j = i
            · subst hj
              obtain ⟨f', hf', hnil⟩ := hfiles j g' hg'
              exact ⟨f', hf', fun _ => hnil (.inr hclean.buffers)⟩
            · obtain ⟨f', hf', hnil⟩ := hfiles j f ((hother j hj).trans hf)
              exact ⟨f', hf', fun hor => hnil (hor.imp_left fun hmem =>
                (List.mem_cons.mp hmem).resolve_left hj)⟩

-- After flush no file has pending writes.
theorem Stands.flush (h : t.Stands G) (hagree : t.AllAgree) :
    t.flush.Stands G ∧ ∀ (j : Nat) (f : File), t.files[j]? = some f →
      ∃ f' : File, t.flush.files[j]? = some f' ∧ f'.buffers = [] := by
  obtain ⟨t', hall, hs, hnone, hfiles⟩ := h.flushAll (l := t.modifiedFiles) hagree
  have hclean : ∀ (j : Nat) (f : File), t.files[j]? = some f →
      ∃ f' : File, t'.files[j]? = some f' ∧ f'.buffers = [] := by
    intro j f hf
    obtain ⟨f', hf', hnil⟩ := hfiles j f hf
    refine ⟨f', hf', hnil ?_⟩
    by_cases hempty : f.buffers = []
    · exact .inr hempty
    · exact .inl (h.listed j f hf hempty)
  have hflush : t.flush = { t' with modifiedFiles := [] } := by rw [Files.flush, hall]
  rw [hflush]
  refine ⟨⟨hs.pending, fun j f' hf' hne => ?_⟩, hclean⟩
  cases hf : t.files[j]? with
  | none =>
      have hf' : t'.files[j]? = some f' := hf'
      rw [hnone j hf] at hf'
      exact nomatch hf'
  | some f =>
      obtain ⟨f'', hf'', hnil⟩ := hclean j f hf
      have hf' : t'.files[j]? = some f' := hf'
      rw [Option.some.inj (hf''.symm.trans hf')] at hnil
      exact absurd hnil hne

theorem Stands.push {w : WriteCall} (h : t.Stands G) (hf : t.files[i]? = some f) (hw : w.Ok)
    (hfree : ∀ x, w.Covers x → f.kind.Free x) :
    (t.push i w).Stands (Function.update G i (patch (G i) w.pos w.bytes)) := by
  have hp := h.pending i f hf
  have hnew : File.Pending { f with buffers := w :: f.buffers } (patch (G i) w.pos w.bytes) := by
    obtain ⟨F, hholds, hG⟩ := hp.holds
    exact ⟨hp.writable, hp.error, ⟨F, hholds, congrArg (patch · w.pos w.bytes) hG⟩,
      List.forall_mem_cons.mpr ⟨hw, hp.ok⟩, List.forall_mem_cons.mpr ⟨hfree, hp.free⟩⟩
  have hget : ∀ j g, (t.push i w).files[j]? = some g →
      j = i ∧ g = { f with buffers := w :: f.buffers } ∨ j ≠ i ∧ t.files[j]? = some g := by
    intro j g hg
    have hg : (t.files.modify i fun f => { f with buffers := w :: f.buffers })[j]? = some g := hg
    rw [List.getElem?_modify] at hg
    by_cases hj : i = j
    · subst hj
      rw [hf] at hg
      simp only [if_true, Option.map_eq_map, Option.map_some, Option.some.injEq] at hg
      exact .inl ⟨rfl, hg.symm⟩
    · simp only [if_neg hj, Option.map_eq_map, Option.map_id_fun'] at hg
      exact .inr ⟨fun h => hj h.symm, hg⟩
  refine ⟨fun j g hg => ?_, fun j g hg hne => ?_⟩
  · rcases hget j g hg with ⟨rfl, rfl⟩ | ⟨hj, hg⟩
    · rwa [Function.update_self]
    · rw [Function.update_of_ne hj]
      exact h.pending j g hg
  · show j ∈ (if i ∈ t.modifiedFiles then t.modifiedFiles else i :: t.modifiedFiles)
    rcases hget j g hg with ⟨rfl, -⟩ | ⟨-, hg⟩
    · split
      · assumption
      · simp
    · have := h.listed j g hg hne
      split
      · exact this
      · exact List.mem_cons_of_mem _ this

theorem Stands.bufferedWrite {w : WriteCall} (h : t.Stands G) (hf : t.files[i]? = some f)
    (hstring : w.stringPos + w.len ≤ w.string.length) (hfree : ∀ x, w.Covers x → f.kind.Free x)
    (hflush : (t.push i w).bufferedBytes > maxBuffered → (t.push i w).AllAgree)
    (hwrite : t.bufferedWrite i w = .ok t') :
    t'.Stands (Function.update G i (patch (G i) w.pos w.bytes)) := by
  simp only [Files.bufferedWrite, hf, (h.pending i f hf).error] at hwrite
  split at hwrite
  case isTrue hlen =>
      have hpush := h.push hf ⟨hlen, hstring⟩ hfree
      obtain rfl := Except.ok.inj hwrite
      split
      case isTrue hover => exact (hpush.flush (hflush hover)).1
      case isFalse => exact hpush
  case isFalse hlen =>
      have hnil : w.bytes = [] := List.length_eq_zero_iff.mp (by rw [w.length_bytes]; omega)
      rwa [hnil, patch_nil, Function.update_eq_self, ← Except.ok.inj hwrite]

theorem WriteCall.bytes_copy (w : WriteCall) : w.copy.bytes = w.bytes := by
  have := region_all w.bytes
  rwa [w.length_bytes] at this

theorem Stands.read_stands {b q n : Nat} {s : Bytes} (h : t.Stands G) (hagree : t.AgreesAt i) :
    (t.read i b s q n).1.Stands G := by
  have hflush := h.flushFd_stands hagree
  rw [Files.read]
  generalize t.flushFd i = r at hflush
  obtain ⟨t₁, e⟩ := r
  cases e with
  | some e => exact hflush
  | none =>
      simp only
      split <;> exact hflush

theorem BufferedRun.stands (h : BufferedRun t G) : t.Stands G := by
  induction h with
  | start hfiles =>
      refine ⟨fun i f hf => ?_, fun i f hf hne => ?_⟩
      · obtain ⟨hw, he, hnil, hopened⟩ := hfiles i f hf
        exact Clean.pending ⟨hw, he, hnil, hopened.holds⟩
      · exact absurd (hfiles i f hf).2.2.1 hne
  | bufferedWrite _ hf hstring hfree hflush hwrite ih =>
      exact ih.bufferedWrite hf hstring hfree hflush hwrite
  | @bufferedWriteCopy _ _ _ _ _ w _ hf hstring hfree hflush hwrite ih =>
      have hcopy := ih.bufferedWrite (w := w.copy) hf
        (show 0 + w.len ≤ w.bytes.length by rw [w.length_bytes]; omega) hfree hflush hwrite
      rwa [WriteCall.bytes_copy] at hcopy
  | flushFd _ hagree ih => exact ih.flushFd_stands hagree
  | flush _ hagree ih => exact (ih.flush hagree).1
  | read _ hagree ih => exact ih.read_stands hagree
  | @applyOnChunk t _ i b n _ hagree ih =>
      rw [Files.applyOnChunk]
      cases hf : t.files[i]? with
      | none => exact ih
      | some f =>
          simp only
          split
          case isFalse => exact ih
          case isTrue hmulti =>
              obtain ⟨t₁, f', hflush, hs, hf', -⟩ := ih.flushFd hf (hagree f hf hmulti)
              simp only [hflush, hf']
              exact hs

end Files

open Files

-- After flush_fd a file has no pending writes and holds what the same writes
-- give when they are done one after the other, if its pending writes agree;
-- flush does so for every file.
theorem flush_writes {t : Files} {G : Nat → Bytes} (h : BufferedRun t G) {i : Nat} {f : File}
    (hf : t.files[i]? = some f) :
    (Agrees f.buffers → ∃ f', (t.flushFd i).2 = none ∧ (t.flushFd i).1.files[i]? = some f' ∧
      f'.buffers = [] ∧ f'.kind.Holds (G i)) ∧
    (t.AllAgree → ∃ f', t.flush.files[i]? = some f' ∧ f'.buffers = [] ∧ f'.kind.Holds (G i)) := by
  have hs := h.stands
  refine ⟨fun hagree => ?_, fun hagree => ?_⟩
  · obtain ⟨t', f', hflush, -, hf', hclean, -⟩ := hs.flushFd hf hagree
    rw [hflush]
    exact ⟨f', rfl, hf', hclean.buffers, hclean.holds⟩
  · obtain ⟨hs', hfiles⟩ := hs.flush hagree
    obtain ⟨f', hf', hnil⟩ := hfiles i f hf
    obtain ⟨F, hholds, hG⟩ := (hs'.pending i f' hf').holds
    rw [hnil] at hG
    exact ⟨f', hf', hnil, hG ▸ hholds⟩

-- One empty file on disk, and one write pending on it.
def onePending (w : WriteCall) : Files :=
  ⟨[⟨.diskFile ⟨true, []⟩, "temp", true, none, [w]⟩], w.len, [0]⟩

theorem onePending_run {w : WriteCall} (hw : w.Ok) (hlen : w.len ≤ 1024 * 1024) :
    BufferedRun (onePending w) (Function.update (fun _ => []) 0 (patch [] w.pos w.bytes)) := by
  have hstart : BufferedRun ⟨[⟨.diskFile ⟨true, []⟩, "temp", true, none, []⟩], 0, []⟩
      fun _ => [] := by
    refine .start fun i f hf => ?_
    obtain ⟨hi, rfl⟩ := List.getElem?_eq_some_iff.mp hf
    obtain rfl : i = 0 := by simpa using hi
    exact ⟨rfl, rfl, rfl, .diskFile []⟩
  have hsum : ¬ (0 + (w.len : Int)) > maxBuffered := by
    rw [maxBuffered]
    omega
  refine @BufferedRun.bufferedWrite _ _ _ 0 _ w hstart rfl hw.string (fun _ _ => trivial)
    (fun hover => absurd hover hsum) ?_
  have hpos := hw.pos_len
  simp only [Files.bufferedWrite, List.getElem?_cons_zero, if_pos hpos]
  refine congrArg Except.ok ((if_neg hsum).trans ?_)
  simp [Files.push, onePending]

-- "b" is written at 1, and "aa" over it at 0.
def nested : Files :=
  ⟨[⟨.diskFile ⟨true, []⟩, "temp", true, none, [⟨0, [97, 97], 0, 2⟩, ⟨1, [98], 0, 1⟩]⟩], 3, [0]⟩

theorem nested_run : BufferedRun nested (Function.update
    (Function.update (fun _ => []) 0 [0, 98]) 0 [97, 97]) :=
  @BufferedRun.bufferedWrite _ _ _ 0 _ ⟨0, [97, 97], 0, 2⟩
    (onePending_run (w := ⟨1, [98], 0, 1⟩) ⟨by decide, by decide⟩ (by decide)) rfl (by decide)
    (fun _ _ => trivial) (fun hover => absurd hover (by decide)) rfl

theorem flush_writes_nested : ∃ f', (nested.flushFd 0).1.files[0]? = some f' ∧
    f'.kind.Holds [97, 97] := by
  obtain ⟨f', -, hf', -, hholds⟩ := (flush_writes nested_run (i := 0) rfl).1 fun _ => rfl
  exact ⟨f', hf', hholds⟩

-- "aa" is written at 0, and "b" over its second byte.
def overlapping : Files :=
  ⟨[⟨.diskFile ⟨true, []⟩, "temp", true, none, [⟨1, [98], 0, 1⟩, ⟨0, [97, 97], 0, 2⟩]⟩], 3, [0]⟩

theorem flush_writes_false : ¬ ∀ (t : Files) (G : Nat → Bytes), BufferedRun t G →
    ∀ (i : Nat) (f : File), t.files[i]? = some f →
      ∃ f', (t.flushFd i).1.files[i]? = some f' ∧ f'.kind.Holds (G i) := by
  intro h
  have hrun : BufferedRun overlapping (Function.update
      (Function.update (fun _ => []) 0 [97, 97]) 0 [97, 98]) :=
    @BufferedRun.bufferedWrite _ _ _ 0 _ ⟨1, [98], 0, 1⟩
      (onePending_run (w := ⟨0, [97, 97], 0, 2⟩) ⟨by decide, by decide⟩ (by decide)) rfl (by decide)
      (fun _ _ => trivial) (fun hover => absurd hover (by decide)) rfl
  obtain ⟨f', hf', hholds⟩ := h _ _ hrun 0 _ rfl
  have hkind : (overlapping.flushFd 0).1.files[0]? =
      some ⟨.diskFile ⟨true, [97, 97]⟩, "temp", true, none, []⟩ := rfl
  obtain rfl := Option.some.inj (hkind.symm.trans hf')
  exact absurd hholds.2 (by decide)

-- What reads and apply_on_chunk see of the writes before them.

namespace FileKind

-- The regions that a file of the kind delivers, when it stands for G.
def Readable : FileKind → Bytes → Nat → Nat → Prop
  | multiFile t, _, b, n => t.Readable b n
  | diskFile _, G, b, n => 0 < n ∧ b + n ≤ G.length
  | sparseFile t, G, b, n => t.GapFree G b n
  | destroyed, _, _, _ => False

-- Those that it hands to a callback.
def Handable : FileKind → Bytes → Nat → Nat → Prop
  | multiFile t, _, b, n => t.ChunkFits b n
  | diskFile t, _, b, n => n = 0 ∨ b + n ≤ t.bytes.length
  | sparseFile t, G, b, n => t.Handable G b n
  | destroyed, _, _, _ => False

variable {kind : FileKind} {F G s : Bytes} {b n q : Nat}

theorem Holds.read_iff (h : kind.Holds G) (hb : kind.isMultiFile = true → b + n ≤ G.length)
    (hs : q + n ≤ s.length) :
    kind.read b s q n = .ok (patch s q (region G b n)) ↔ kind.Readable G b n := by
  cases kind with
  | multiFile t =>
      obtain ⟨hwf, rfl⟩ := h
      have hb := hb rfl
      rw [length_flat] at hb
      exact hwf.read_iff hb hs
  | diskFile t =>
      obtain ⟨-, rfl⟩ := h
      show t.read b s q n = _ ↔ 0 < n ∧ b + n ≤ t.bytes.length
      by_cases hok : 0 < n ∧ b + n ≤ t.bytes.length
      · exact ⟨fun _ => hok, fun _ => FdCache.read_of_le hok.1 hs hok.2⟩
      · refine ⟨fun hread => ?_, fun h => absurd h hok⟩
        rw [FdCache.read, if_neg (by omega), if_neg (by omega), if_pos (by omega)] at hread
        cases hread
  | sparseFile t => exact SparseFile.Inv.read_iff h hs
  | destroyed => exact h.elim

theorem Holds.applyOnChunk_iff (h : kind.Holds G)
    (hb : kind.isMultiFile = true → b + n ≤ G.length) :
    (kind.applyOnChunk b n).map (handedBytes n) = .ok (region G b n) ↔ kind.Handable G b n := by
  cases kind with
  | multiFile t =>
      obtain ⟨hwf, rfl⟩ := h
      have hb := hb rfl
      rw [length_flat] at hb
      exact hwf.applyOnChunk_iff hb
  | diskFile t =>
      obtain ⟨-, rfl⟩ := h
      show Except.ok (handedBytes n (t, (b : Int))) = _ ↔ n = 0 ∨ b + n ≤ t.bytes.length
      rw [Except.ok.injEq]
      by_cases hok : b + n ≤ t.bytes.length
      · exact ⟨fun _ => .inr hok, fun _ => MultiFile.handedBytes_real hok⟩
      · have hlen : (handedBytes n (t, (b : Int))).length = min n (t.bytes.length - b) := by
          show ((t.bytes.drop b).take n).length = _
          rw [List.length_take, List.length_drop]
        constructor
        · intro heq
          rw [heq, length_region] at hlen
          omega
        · intro hor
          obtain rfl := hor.resolve_right hok
          exact List.length_eq_zero_iff.mp (by rw [hlen, Nat.zero_min])
  | sparseFile t => exact SparseFile.Inv.applyOnChunk_iff h
  | destroyed => exact h.elim

-- Of the array only the region counts.
theorem handable_congr (hsame : ∀ x, b ≤ x → x < b + n → elemAt F x = elemAt G x) :
    kind.Handable F b n ↔ kind.Handable G b n := by
  cases kind with
  | multiFile t => exact Iff.rfl
  | diskFile t => exact Iff.rfl
  | sparseFile t =>
      have hfree : t.GapFree F b n ↔ t.GapFree G b n := by
        constructor
        · intro h x y hx hxy hy ha
          rw [← hsame y (by omega) hy]
          exact h x y hx hxy hy ha
        · intro h x y hx hxy hy ha
          rw [hsame y (by omega) hy]
          exact h x y hx hxy hy ha
      exact ⟨fun h => ⟨hfree.mp h.gapFree, h.whole⟩, fun h => ⟨hfree.mpr h.gapFree, h.whole⟩⟩
  | destroyed => exact Iff.rfl

end FileKind

-- Pending writes that touch no byte of a region leave it as it is.
theorem elemAt_under_of_free {F : Bytes} {L : List WriteCall} {x : Nat}
    (h : ∀ w ∈ L, ¬ w.Covers x) : elemAt (under F L) x = elemAt F x := by
  have hnone : firstAt L x = none := by
    have := (firstAt_isSome L x).not.mpr fun ⟨w, hw, hx⟩ => h w hw hx
    simpa using this
  rw [elemAt_under, hnone]
  rfl

-- A read sees all buffered writes before it if the pending ones agree, as far
-- as the storage delivers the region at all. So does apply_on_chunk on a
-- multi-file; on the other kinds it does when no pending write touches the
-- region.
theorem reads_see_writes {t : Files} {G : Nat → Bytes} (h : BufferedRun t G) {i : Nat} {f : File}
    (hf : t.files[i]? = some f) {b n : Nat}
    (hb : f.kind.isMultiFile = true → b + n ≤ (G i).length) :
    (Agrees f.buffers → ∀ (q : Nat) (s : Bytes), q + n ≤ s.length →
      ∃ f', (t.read i b s q n).1.files[i]? = some f' ∧ f'.kind.Holds (G i) ∧
        ((t.read i b s q n).2 = .ok (patch s q (region (G i) b n)) ↔
          f'.kind.Readable (G i) b n)) ∧
    (f.kind.isMultiFile = true → Agrees f.buffers →
      ∃ f', (t.applyOnChunk i b n).1.files[i]? = some f' ∧ f'.kind.Holds (G i) ∧
        ((t.applyOnChunk i b n).2.map (handedBytes n) = .ok (region (G i) b n) ↔
          f'.kind.Handable (G i) b n)) ∧
    (f.kind.isMultiFile = false →
      (∀ w ∈ f.buffers, ∀ x, b ≤ x → x < b + n → ¬ w.Covers x) →
      ((t.applyOnChunk i b n).2.map (handedBytes n) = .ok (region (G i) b n) ↔
        f.kind.Handable (G i) b n)) := by
  have hs := h.stands
  refine ⟨fun hagree q s hq => ?_, fun hmulti hagree => ?_, fun hmulti hfree => ?_⟩
  · obtain ⟨t', f', hflush, -, hf', hclean, -, hkind, -⟩ := hs.flushFd hf hagree
    simp only [Files.read, hflush, hf']
    exact ⟨f', rfl, hclean.holds, hclean.holds.read_iff (hkind ▸ hb) hq⟩
  · obtain ⟨t', f', hflush, -, hf', hclean, -, hkind, -⟩ := hs.flushFd hf hagree
    simp only [Files.applyOnChunk, hf, hmulti, if_true, hflush, hf']
    exact ⟨f', rfl, hclean.holds, hclean.holds.applyOnChunk_iff (hkind ▸ hb)⟩
  · obtain ⟨F, hholds, hG⟩ := (hs.pending i f hf).holds
    have hsame : ∀ x, b ≤ x → x < b + n → elemAt F x = elemAt (G i) x := fun x hx hx' => by
      rw [← hG, elemAt_under_of_free fun w hw => hfree w hw x hx hx']
    have hregion : region F b n = region (G i) b n :=
      region_congr fun j hj => hsame (b + j) (by omega) (by omega)
    simp only [Files.applyOnChunk, hf, hmulti, Bool.false_eq_true, if_false]
    rw [← hregion, hholds.applyOnChunk_iff (by simp [hmulti])]
    exact FileKind.handable_congr hsame

-- The read flushes the pending writes, of which the newer one began first.
theorem reads_see_writes_nested : (nested.read 0 0 [0, 0] 0 2).2 = .ok [97, 97] := by
  obtain ⟨f', hf', -, hread⟩ :=
    (reads_see_writes nested_run (i := 0) rfl (b := 0) (n := 2) (by simp)).1 (fun _ => rfl) 0
      [0, 0] (by decide)
  have hkind : (nested.read 0 0 [0, 0] 0 2).1.files[0]? =
      some ⟨.diskFile ⟨true, [97, 97]⟩, "temp", true, none, []⟩ := rfl
  obtain rfl := Option.some.inj (hkind.symm.trans hf')
  exact hread.mpr ⟨by decide, by decide⟩

-- A chunk of a file on disk is handed over while its bytes are still pending.
theorem reads_see_writes_false : ¬ ∀ (t : Files) (G : Nat → Bytes), BufferedRun t G →
    ∀ (i : Nat) (f : File), t.files[i]? = some f → ∀ b n, b + n ≤ (G i).length →
      (t.applyOnChunk i b n).2.map (handedBytes n) = .ok (region (G i) b n) := by
  intro h
  have hrun := onePending_run (w := ⟨0, [97], 0, 1⟩) ⟨by decide, by decide⟩ (by decide)
  exact absurd (h _ _ hrun 0 _ rfl 0 1 (by decide)) (by decide)

end Mldonkey.Unix32
