import Mldonkey.Unix32.Buffers

-- What a flush writes.
namespace Mldonkey.Unix32

open Patch

variable {kind : FileKind} {F G s buf : Bytes} {b n q x : Nat} {w : WriteCall}
  {L tail : List WriteCall}

namespace FileKind

-- The file is in order and stands for the flat array F.
def Holds : FileKind → Bytes → Prop
  | multiFile t, F => t.Wf true ∧ flat t.files = F
  | diskFile t, F => t.writable = true ∧ t.bytes = F
  | sparseFile t, F => t.Inv F
  | destroyed, _ => False

-- A write may touch the position.
def Free : FileKind → Nat → Prop
  | multiFile t, x => x < total t.files
  | diskFile _, _ => True
  | sparseFile t, x => t.Absent x
  | destroyed, _ => False

theorem untouched_of_free {t : SparseFile} (h : t.Inv F) (hn : 0 < n)
    (hfree : ∀ x, b ≤ x → x < b + n → t.Absent x) : t.Untouched b n := by
  intro c hc
  by_contra hboth
  have hlen := (h.ok c hc).pos_len
  exact hfree (max b c.pos) (by omega) (by omega) c hc ⟨by omega, by omega⟩

-- A write of free positions succeeds, and the others stay free.
theorem Holds.write (h : kind.Holds F) (hn : 0 < n)
    (hfree : ∀ x, b ≤ x → x < b + n → kind.Free x) (hs : q + n ≤ s.length) :
    ∃ kind', kind.write b s q n = .ok kind' ∧ kind'.Holds (patch F b (region s q n)) ∧
      ∀ x, kind.Free x → ¬ (b ≤ x ∧ x < b + n) → kind'.Free x := by
  unfold FileKind.write
  rw [if_pos hn]
  cases kind with
  | multiFile t =>
      obtain ⟨hwf, hflat⟩ := h
      have hend := hfree (b + n - 1) (by omega) (by omega)
      have hlast : b + n - 1 < total t.files := hend
      obtain ⟨t', hwrite, hwritten⟩ := hwf.write (q := q) (n := n) (b := b) (by omega) hs
      simp only [hwrite, ok_bind]
      refine ⟨_, rfl, ⟨hwritten.wf, hwritten.bytes.trans (by rw [hflat])⟩, fun x hx _ => ?_⟩
      have hx : x < total t.files := hx
      exact Nat.lt_of_lt_of_eq hx hwritten.total_eq.symm
  | diskFile t =>
      obtain ⟨hw, hbytes⟩ := h
      have hwrite : t.write b s q n = _ := FdCache.write_of_lt hw hn hs
      simp only [hwrite, ok_bind]
      exact ⟨_, rfl, ⟨hw, by rw [hbytes]⟩, fun _ _ _ => trivial⟩
  | sparseFile t =>
      have hinv : t.Inv F := h
      obtain ⟨t', hwrite, hinv', hstay⟩ :=
        hinv.write hn (untouched_of_free hinv hn hfree) hs
      simp only [hwrite, ok_bind]
      refine ⟨_, rfl, hinv', fun x hx hout => ?_⟩
      have hx' := hstay x 1 Nat.one_pos
        (untouched_of_free hinv Nat.one_pos fun y hy hy' => by
          obtain rfl : y = x := by omega
          exact hx) (by omega)
      intro c hc hcov
      have := hx' c hc
      have := hcov.1
      have := hcov.2
      omega
  | destroyed => exact h.elim

end FileKind

-- The writes of the list, the first one last.
def under (F : Bytes) (L : List WriteCall) : Bytes :=
  L.foldr (fun w F => patch F w.pos w.bytes) F

@[simp] theorem WriteCall.length_bytes (w : WriteCall) : w.bytes.length = w.len :=
  length_region _ _ _

structure WriteCall.Ok (w : WriteCall) : Prop where
  pos_len : 0 < w.len
  string : w.stringPos + w.len ≤ w.string.length

def WriteCall.Covers (w : WriteCall) (x : Nat) : Prop := w.pos ≤ x ∧ x < w.pos + w.len

instance (w : WriteCall) (x : Nat) : Decidable (w.Covers x) :=
  inferInstanceAs (Decidable (w.pos ≤ x ∧ x < w.pos + w.len))

theorem under_patch (h : ∀ w ∈ L, b + buf.length ≤ w.pos) :
    under (patch F b buf) L = patch (under F L) b buf := by
  induction L with
  | nil => rfl
  | cons w L ih =>
      obtain ⟨hw, hL⟩ := List.forall_mem_cons.mp h
      show patch (under (patch F b buf) L) w.pos w.bytes = patch (patch (under F L) w.pos w.bytes) b buf
      rw [ih hL, patch_comm _ hw]

theorem flushBuffer_spec (h : kind.Holds F) {g : Int} (hbuf : 0 < buf.length)
    (hfree : ∀ x, b ≤ x → x < b + buf.length → kind.Free x) (rest : List WriteCall) :
    ∃ kind', flushBuffer kind g buf b rest = ⟨kind', g - buf.length, rest, none⟩ ∧
      kind'.Holds (patch F b buf) ∧
      ∀ x, kind.Free x → ¬ (b ≤ x ∧ x < b + buf.length) → kind'.Free x := by
  obtain ⟨kind', hwrite, hholds, hstay⟩ := h.write (q := 0) (s := buf) hbuf hfree (by omega)
  rw [region_all] at hholds
  refine ⟨kind', ?_, hholds, hstay⟩
  rw [flushBuffer, if_pos hbuf, hwrite]

theorem iterIn_spec {g : Int} {len : Nat} (h : kind.Holds F) (hlen : buf.length = len)
    (hpos : 0 < len) (hsorted : (tail.map WriteCall.pos).Pairwise (· ≤ ·))
    (hfirst : ∀ w ∈ tail, b ≤ w.pos) (hok : ∀ w ∈ tail, w.Ok)
    (hfree : ∀ x, b ≤ x → x < b + len → kind.Free x)
    (htail : ∀ w ∈ tail, ∀ x, w.Covers x → kind.Free x) :
    ∃ kind' g', iterIn kind g buf b len tail = ⟨kind', g', [], none⟩ ∧
      kind'.Holds (patch (under F tail) b buf) := by
  induction tail generalizing kind F g buf b len with
  | nil =>
      obtain ⟨kind', hflush, hholds, -⟩ :=
        flushBuffer_spec (g := g) h (hlen ▸ hpos) (hlen ▸ hfree) []
      exact ⟨kind', _, hflush, hholds⟩
  | cons w tail ih =>
      obtain ⟨hw, hok⟩ := List.forall_mem_cons.mp hok
      obtain ⟨hle, hfirst⟩ := List.forall_mem_cons.mp hfirst
      obtain ⟨hwfree, htail⟩ := List.forall_mem_cons.mp htail
      rw [List.map_cons, List.pairwise_cons] at hsorted
      obtain ⟨hbehind, hsorted⟩ := hsorted
      have hbehind : ∀ w' ∈ tail, w.pos ≤ w'.pos := fun w' hw' =>
        hbehind _ (List.mem_map_of_mem hw')
      have hwpos := hw.pos_len
      have hunder : under F (w :: tail) = patch (under F tail) w.pos w.bytes := rfl
      rw [iterIn]
      by_cases hgap : b + len < w.pos
      · -- a gap: what was gathered is written
        obtain ⟨kind₁, hflush, hholds, hstay⟩ :=
          flushBuffer_spec (g := g) h (hlen ▸ hpos) (hlen ▸ hfree) (w :: tail)
        have hfree₁ : ∀ x, w.pos ≤ x → x < w.pos + w.len → kind₁.Free x := fun x hx hx' =>
          hstay x (hwfree x ⟨hx, hx'⟩) (by omega)
        have htail₁ : ∀ w' ∈ tail, ∀ x, w'.Covers x → kind₁.Free x := fun w' hw' x hx => by
          have := hbehind w' hw'
          have hx1 := hx.1
          exact hstay x (htail w' hw' x hx) (by omega)
        obtain ⟨kind₂, g₂, hrest, hholds₂⟩ := @ih kind₁ _ w.bytes w.pos (g - buf.length) w.len
          hholds w.length_bytes hwpos hsorted hbehind hok hfree₁ htail₁
        refine ⟨kind₂, g₂, ?_, ?_⟩
        · simp only
          rw [if_neg (by omega), if_pos (by omega), hflush]
          exact hrest
        · rw [hunder]
          rw [under_patch fun w' hw' => by have := hbehind w' hw'; omega] at hholds₂
          rwa [patch_comm _ (by omega)] at hholds₂
      · -- the write touches what was gathered, or overlaps it
        have hmerge : patch (under F (w :: tail)) b buf =
            patch (under F tail) b (buf ++ w.bytes.drop (b + len - w.pos)) := by
          rw [hunder, ← hlen]
          exact patch_merge _ hle (by omega)
        rw [hmerge]
        simp only
        by_cases htouch : w.pos = b + len
        · rw [if_pos (by omega)]
          have hdrop : w.bytes.drop (b + len - w.pos) = w.bytes := by
            rw [htouch, Nat.sub_self, List.drop_zero]
          rw [hdrop]
          refine ih h (by rw [List.length_append, hlen, w.length_bytes]) (by omega) hsorted hfirst
            hok (fun x hx hx' => ?_) htail
          by_cases hin : x < b + len
          · exact hfree x hx hin
          · exact hwfree x ⟨by omega, by omega⟩
        rw [if_neg (by omega), if_neg (by omega)]
        by_cases hkeep : (w.len : Int) - ((b + len : Nat) - w.pos) ≤ 0
        · rw [if_pos hkeep]
          have hdrop : w.bytes.drop (b + len - w.pos) = [] :=
            List.drop_of_length_le (by rw [w.length_bytes]; omega)
          rw [hdrop, List.append_nil]
          exact ih h hlen hpos hsorted hfirst hok hfree htail
        · rw [if_neg hkeep]
          have hnew : ((w.len : Int) - ((w.len : Int) - ((b + len : Nat) - w.pos))).toNat =
              b + len - w.pos := by omega
          have hlast : ((w.len : Int) - ((b + len : Nat) - w.pos)).toNat =
              w.len - (b + len - w.pos) := by omega
          have hdrop : w.bytes.drop (b + len - w.pos) =
              region w.string (w.stringPos + (b + len - w.pos)) (w.len - (b + len - w.pos)) :=
            drop_region _ _ (by omega)
          rw [hnew, hlast, hdrop]
          refine ih h (by rw [List.length_append, hlen, length_region]) (by omega) hsorted hfirst
            hok (fun x hx hx' => ?_) htail
          by_cases hin : x < b + len
          · exact hfree x hx hin
          · exact hwfree x ⟨by omega, by omega⟩

theorem FileKind.write_isMultiFile {kind' : FileKind} (h : kind.write b s q n = .ok kind') :
    kind'.isMultiFile = kind.isMultiFile := by
  unfold FileKind.write at h
  split at h
  case isFalse =>
      rw [Except.ok.inj h]
  case isTrue =>
      cases kind with
      | destroyed => cases h
      | diskFile t | multiFile t | sparseFile t =>
          obtain ⟨_, -, h⟩ := bind_eq_ok.mp h
          rw [← Except.ok.inj h]
          rfl

theorem flushBuffer_isMultiFile {g : Int} {rest : List WriteCall} :
    (flushBuffer kind g buf b rest).kind.isMultiFile = kind.isMultiFile := by
  rw [flushBuffer]
  split
  case h_1 kind' h =>
      split at h
      · exact FileKind.write_isMultiFile h
      · rw [← Except.ok.inj h]
  case h_2 => rfl

theorem iterIn_isMultiFile {g : Int} {len : Nat} :
    (iterIn kind g buf b len L).kind.isMultiFile = kind.isMultiFile := by
  induction L generalizing kind g buf b len with
  | nil => exact flushBuffer_isMultiFile
  | cons w L ih =>
      rw [iterIn]
      simp only
      split
      · exact ih
      split
      · split
        · exact flushBuffer_isMultiFile
        · exact ih.trans flushBuffer_isMultiFile
      split
      · exact ih
      · exact ih

-- The byte that the first write of the list has for a position.
def firstAt (L : List WriteCall) (x : Nat) : Option UInt8 :=
  (L.find? fun w => w.Covers x).map fun w => elemAt w.bytes (x - w.pos)

-- At each position that pending writes have, the one that the order of the flush
-- puts first agrees with the newest.
def Agrees (buffers : List WriteCall) : Prop :=
  ∀ x, firstAt (sorted buffers) x = firstAt buffers x

theorem elemAt_under (F : Bytes) (L : List WriteCall) (x : Nat) :
    elemAt (under F L) x = (firstAt L x).getD (elemAt F x) := by
  induction L with
  | nil => rfl
  | cons w L ih =>
      show elemAt (patch (under F L) w.pos w.bytes) x = _
      rw [elemAt_patch, w.length_bytes, firstAt, List.find?_cons]
      by_cases hx : w.Covers x
      · rw [if_pos (show w.pos ≤ x ∧ x < w.pos + w.len from hx)]
        simp [hx]
      · rw [if_neg (show ¬ (w.pos ≤ x ∧ x < w.pos + w.len) from hx), ih]
        simp [hx, firstAt]

theorem length_under_cons (hw : w.Ok) :
    (under F (w :: L)).length = max (under F L).length (w.pos + w.len) := by
  have hne : w.bytes ≠ [] := by
    intro h
    have := congrArg List.length h
    rw [w.length_bytes, List.length_nil] at this
    have := hw.pos_len
    omega
  show (patch (under F L) w.pos w.bytes).length = _
  rw [length_patch _ _ hne, w.length_bytes]

theorem length_under_perm {L' : List WriteCall} (h : L.Perm L') (hok : ∀ w ∈ L, w.Ok) :
    (under F L).length = (under F L').length := by
  induction h with
  | nil => rfl
  | cons w _ ih =>
      obtain ⟨hw, hok⟩ := List.forall_mem_cons.mp hok
      rw [length_under_cons hw, length_under_cons hw, ih hok]
  | swap w w' L =>
      obtain ⟨hw, hok⟩ := List.forall_mem_cons.mp hok
      obtain ⟨hw', -⟩ := List.forall_mem_cons.mp hok
      rw [length_under_cons hw, length_under_cons hw', length_under_cons hw', length_under_cons hw]
      exact max_right_comm _ _ _
  | trans h _ ih ih' => exact (ih hok).trans (ih' fun w hw => hok w (h.mem_iff.mpr hw))

theorem sorted_perm (L : List WriteCall) : (sorted L).Perm L := List.perm_insertionSort _ _

theorem firstAt_isSome (L : List WriteCall) (x : Nat) :
    (firstAt L x).isSome ↔ ∃ w ∈ L, w.Covers x := by
  simp [firstAt]

-- The flush gives what the writes give in the order in which they were issued
-- exactly when they agree.
theorem under_sorted_iff (hok : ∀ w ∈ L, w.Ok) : under F (sorted L) = under F L ↔ Agrees L := by
  constructor
  · intro heq x
    have hx := congrArg (elemAt · x) heq
    simp only [elemAt_under] at hx
    have hsome : (firstAt (sorted L) x).isSome ↔ (firstAt L x).isSome := by
      simp only [firstAt_isSome, (sorted_perm L).mem_iff]
    cases h1 : firstAt (sorted L) x with
    | none =>
        cases h2 : firstAt L x with
        | none => rfl
        | some _ => simp [h1, h2] at hsome
    | some _ =>
        cases h2 : firstAt L x with
        | none => simp [h1, h2] at hsome
        | some _ => simpa [h1, h2] using hx
  · intro hagree
    refine ext_at (length_under_perm (sorted_perm L) fun w hw => ?_) fun x _ => ?_
    · exact hok w ((sorted_perm L).mem_iff.mp hw)
    · rw [elemAt_under, elemAt_under, hagree x]

theorem pairwise_le_sorted (L : List WriteCall) : (sorted L).Pairwise WriteCall.Le := by
  have : Std.Total WriteCall.Le := ⟨fun w w' => by simp only [WriteCall.Le]; omega⟩
  have : IsTrans WriteCall WriteCall.Le := ⟨fun w w' w'' h h' => by
    simp only [WriteCall.Le] at *
    omega⟩
  exact List.pairwise_insertionSort WriteCall.Le L

theorem pairwise_sorted (L : List WriteCall) :
    ((sorted L).map WriteCall.pos).Pairwise (· ≤ ·) := by
  rw [List.pairwise_map]
  refine (pairwise_le_sorted L).imp fun h => ?_
  rcases h with h | h
  · exact Nat.le_of_lt h
  · exact Nat.le_of_eq h.1

-- A file with its pending writes stands for G.
structure File.Pending (f : File) (G : Bytes) : Prop where
  writable : f.writable = true
  error : f.error = none
  holds : ∃ F, f.kind.Holds F ∧ under F f.buffers = G
  ok : ∀ w ∈ f.buffers, w.Ok
  free : ∀ w ∈ f.buffers, ∀ x, w.Covers x → f.kind.Free x

namespace Files

variable {t : Files} {f : File} {i : Nat}

theorem flushFd_spec (hf : t.files[i]? = some f) (h : f.Pending G) :
    ∃ t' kind', t.flushFd i = (t', none) ∧
      t'.files = t.files.set i { f with kind := kind', buffers := [] } ∧
      t'.modifiedFiles = t.modifiedFiles ∧ kind'.isMultiFile = f.kind.isMultiFile ∧
      (Agrees f.buffers → kind'.Holds G) := by
  obtain ⟨F, hholds, hG⟩ := h.holds
  have hi := (List.getElem?_eq_some_iff.mp hf).1
  have hok : ∀ w ∈ sorted f.buffers, w.Ok := fun w hw => h.ok w ((sorted_perm _).mem_iff.mp hw)
  have hfree : ∀ w ∈ sorted f.buffers, ∀ x, w.Covers x → f.kind.Free x := fun w hw =>
    h.free w ((sorted_perm _).mem_iff.mp hw)
  have hagree : Agrees f.buffers → under F (sorted f.buffers) = G := fun ha =>
    ((under_sorted_iff h.ok).mpr ha).trans hG
  have hpair := pairwise_sorted f.buffers
  have hwritable : t.findWritable i = some i := by
    simp only [findWritable, hf, h.writable, if_true]
  rw [flushFd, hwritable]
  simp only [hf]
  cases hL : sorted f.buffers with
  | nil =>
      have hnil : f.buffers = [] := List.perm_nil.mp (hL ▸ (sorted_perm f.buffers).symm)
      refine ⟨t, f.kind, rfl, ?_, rfl, rfl, fun ha => ?_⟩
      · have hself : { f with kind := f.kind, buffers := [] } = f := by
          cases f
          cases hnil
          rfl
        obtain ⟨_, hget⟩ := List.getElem?_eq_some_iff.mp hf
        rw [hself, ← hget, List.set_getElem_self]
      · rw [← hagree ha, hL]
        exact hholds
  | cons w tail =>
      rw [hL] at hok hfree hpair hagree
      obtain ⟨hw, hok⟩ := List.forall_mem_cons.mp hok
      obtain ⟨hwfree, hfree⟩ := List.forall_mem_cons.mp hfree
      rw [List.map_cons, List.pairwise_cons] at hpair
      obtain ⟨kind', g', hiter, hkind⟩ := @iterIn_spec f.kind F w.bytes w.pos tail t.bufferedBytes
        w.len hholds w.length_bytes hw.pos_len hpair.2
        (fun w' hw' => hpair.1 _ (List.mem_map_of_mem hw')) hok (fun x hx hx' => hwfree x ⟨hx, hx'⟩)
        hfree
      have hsame := @iterIn_isMultiFile f.kind w.bytes w.pos tail t.bufferedBytes w.len
      rw [hiter] at hsame
      simp only [hiter]
      refine ⟨_, kind', rfl, rfl, rfl, hsame, fun ha => ?_⟩
      rw [← hagree ha]
      exact hkind

end Files

end Mldonkey.Unix32
