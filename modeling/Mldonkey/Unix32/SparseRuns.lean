import Mldonkey.Unix32.SparseFlat
import Mldonkey.Unix32.MultiRuns

-- Runs of a sparse file against the flat array.
namespace Mldonkey.Unix32

open Patch

namespace SparseFile

variable {t : SparseFile} {F s : Bytes} {b n q idx : Nat}

theorem patch_inj {xs ys : Bytes} (h : xs.length = ys.length) :
    patch s q xs = patch s q ys ↔ xs = ys := by
  refine ⟨fun heq => ?_, fun heq => by rw [heq]⟩
  rw [← region_patch_self s q xs, heq, h, region_patch_self]

theorem Inv.read_iff (h : t.Inv F) (hs : q + n ≤ s.length) :
    t.read b s q n = .ok (patch s q (region F b n)) ↔ t.GapFree F b n := by
  obtain ⟨bs, hpieces, hshown⟩ := h.pieces (n := n) (h.findReadPos b)
  have hlen : bs.length = (region F b n).length := by rw [hshown.length, length_region]
  rw [SparseFile.read, hpieces.readLoop (by rw [rounds]; omega) hs, Except.ok.injEq,
    patch_inj hlen, hshown.eq_iff]

-- No gap is crossed, and the chunk that has the begin of the region has all of
-- it whenever the test of apply_on_chunk says so.
structure Handable (t : SparseFile) (F : Bytes) (b n : Nat) : Prop where
  gapFree : t.GapFree F b n
  whole : ∀ c ∈ t.chunks, c.Covers b → n ≤ c.len + (b - c.pos) → b + n ≤ c.pos + c.len

theorem handedBytes_zero (n : Nat) (w : Bool) {bs : Bytes} (h : bs.length = n) :
    handedBytes n (⟨w, bs⟩, (0 : Int)) = bs := by
  rw [handedBytes]
  show (bs.drop 0).take n = bs
  rw [List.drop_zero, ← h, List.take_length]

theorem Inv.applyOnChunk_iff (h : t.Inv F) :
    (t.applyOnChunk b n).map (handedBytes n) = .ok (region F b n) ↔ t.Handable F b n := by
  obtain ⟨bs, hpieces, hshown⟩ := h.pieces (n := n) (h.findReadPos b)
  have ha := h.findReadPos b
  have hcopy : t.copyLoop (t.rounds b n) ⟨t.writable, []⟩ 0 (t.findReadPos b) b n =
      .ok ⟨t.writable, bs⟩ := by
    have := @Pieces.copyLoop t bs b n 0 _ hpieces (t.rounds b n) ⟨t.writable, []⟩
      (by rw [rounds]; omega) h.writable
    rw [patch_empty] at this
    exact this
  have hcopied : (Except.ok (⟨t.writable, bs⟩, (0 : Int)) : Except Exn (FdCache × Int)).map
      (handedBytes n) = .ok (region F b n) ↔ t.GapFree F b n := by
    show Except.ok (handedBytes n _) = _ ↔ _
    rw [handedBytes_zero n _ hshown.length, Except.ok.injEq, hshown.eq_iff]
  rw [SparseFile.applyOnChunk, hcopy]
  cases hc : t.chunks[t.findReadPos b]? with
  | none =>
      refine hcopied.trans ⟨fun hfree => ⟨hfree, fun c hmem hcov _ => ?_⟩, Handable.gapFree⟩
      obtain ⟨j, hj⟩ := List.getElem?_of_mem hmem
      by_cases hlt : j < t.findReadPos b
      · have := ha.before j hlt c hj
        exact absurd hcov.2 (by omega)
      · obtain ⟨c', hc'⟩ := exists_of_le hj (Nat.le_of_not_lt hlt)
        rw [hc] at hc'
        exact nomatch hc'
  | some c =>
      have hmem := List.mem_of_getElem? hc
      have hend := ha.here c hc
      have hlen := (h.ok c hmem).len
      -- only this chunk can have the byte at b
      have honly : ∀ c' ∈ t.chunks, c'.Covers b → c' = c := by
        intro c' hmem' hcov
        obtain ⟨j, hj⟩ := List.getElem?_of_mem hmem'
        have hle := hcov.1
        have hlt := hcov.2
        rcases Nat.lt_trichotomy j (t.findReadPos b) with hji | rfl | hji
        · have := ha.before j hji c' hj
          omega
        · exact Option.some.inj (hj.symm.trans hc)
        · have := h.le hc hj hji
          omega
      simp only
      by_cases hfast : c.pos ≤ b ∧ (c.len : Int) ≥ n - ((b : Int) - c.pos)
      · have hsub : (b : Int) - c.pos = (b - c.pos : Nat) := by omega
        rw [if_pos hfast, hsub]
        show Except.ok (handedBytes n (c.fd, ((b - c.pos : Nat) : Int))) = _ ↔ _
        by_cases hin : b + n ≤ c.pos + c.len
        · have hregion : region c.fd.bytes (b - c.pos) n = region F b n := by
            refine region_congr fun i hi => ?_
            rw [← h.held c hmem (b + i) ⟨by omega, by omega⟩]
            congr 1
            omega
          rw [MultiFile.handedBytes_real (by omega), hregion]
          refine ⟨fun _ => ⟨fun x y hx hxy hy habs => ?_, fun c' hmem' hcov _ => ?_⟩, fun _ => rfl⟩
          · exact absurd ⟨by omega, by omega⟩ (habs c hmem)
          · rw [honly c' hmem' hcov]
            exact hin
        · -- fewer bytes than asked for are handed over
          have hshort : (handedBytes n (c.fd, ((b - c.pos : Nat) : Int))).length < n := by
            show ((c.fd.bytes.drop (b - c.pos)).take n).length < n
            rw [List.length_take, List.length_drop]
            omega
          refine ⟨fun heq => ?_, fun hh => ?_⟩
          · rw [Except.ok.inj heq, length_region] at hshort
            omega
          · exact absurd (hh.whole c hmem ⟨hfast.1, hend⟩ (by omega)) hin
      · rw [if_neg hfast]
        refine hcopied.trans ⟨fun hfree => ⟨hfree, fun c' hmem' hcov hle => ?_⟩, Handable.gapFree⟩
        obtain rfl := honly c' hmem' hcov
        have := hcov.1
        exact absurd ⟨hcov.1, by omega⟩ hfast

theorem Inv.rename_iff (h : t.Inv F) :
    t.rename = .ok (region F 0 t.size) ↔ t.GapFree F 0 t.size := by
  have ha : t.Aligned 0 0 := by
    refine ⟨by simp, fun c hc => ?_⟩
    have := (h.ok c (List.mem_of_getElem? hc)).pos_len
    omega
  obtain ⟨bs, hpieces, hshown⟩ := h.pieces (n := t.size) ha
  have hcopy := @Pieces.copyLoop t bs 0 t.size 0 0 hpieces (t.rounds 0 t.size) ⟨true, []⟩
    (by rw [rounds]; omega) rfl
  rw [← hshown.eq_iff, SparseFile.rename]
  have hcopy' : t.copyLoop (t.rounds 0 t.size) ⟨true, []⟩ 0 0 0 t.size = .ok ⟨true, bs⟩ := by
    rw [patch_empty] at hcopy
    exact hcopy
  rw [hcopy', ok_bind]
  show Except.ok bs = .ok (region F 0 t.size) ↔ _
  rw [Except.ok.injEq]

-- A write that ends before the next chunk goes to one chunk.
theorem writeLoop_one {chunks : List Chunk} {c : Chunk} (hc : chunks[idx]? = some c)
    (hnext : ∀ next, chunks[idx + 1]? = some next → b + n ≤ next.pos)
    (hw : c.fd.writable = true) (hn : 0 < n) (hle : c.pos ≤ b) (hs : q + n ≤ s.length) :
    writeLoop (n + 1) chunks idx b s q n = .ok (chunks.set idx
      { c with
        fd := { c.fd with bytes := patch c.fd.bytes (b - c.pos) (region s q n) }
        len := c.len + n }) := by
  have hsub : (b : Int) - c.pos = (b - c.pos : Nat) := by omega
  have hlen : ((c.len : Int) + n).toNat = c.len + n := by omega
  have hzero : (n : Int) - n = 0 := by omega
  have hdone : ∀ (fuel : Nat) (chunks : List Chunk) (i : Nat) (p : Int) (q : Nat),
      writeLoop fuel chunks i p s q 0 = .ok chunks := by
    intro fuel chunks i p q
    cases fuel with
    | zero => rfl
    | succ fuel => rfl
  have hwrite : c.fd.write (b - c.pos : Nat) s q n = _ := FdCache.write_of_lt hw hn hs
  rw [writeLoop, if_pos (by omega)]
  cases hnx : chunks[idx + 1]? with
  | none => simp only [hc, hsub, hwrite, ok_bind, hlen, hzero, hdone]
  | some next =>
      have hmin : min ((next.pos : Int) - b) n = n := by
        have := hnext next hnx
        omega
      by_cases hend : (n : Int) = next.pos - b
      · simp only [hmin, if_pos hend, hc, hsub, hwrite, ok_bind, hlen, hzero, hdone]
      · simp only [hmin, if_neg hend, hc, hsub, hwrite, ok_bind, hlen, hzero, hdone]

-- The chunk c ends where the write begins, or is a new one there, and the others
-- leave room for it.
structure Room (t : SparseFile) (F : Bytes) (b n : Nat) (A B : List Chunk) (c : Chunk) : Prop where
  ends : c.pos + c.len = b
  len : c.len = c.fd.bytes.length
  writable : c.fd.writable = true
  held : ∀ x, c.Covers x → elemAt c.fd.bytes (x - c.pos) = elemAt F x
  before : ∀ a ∈ A, a.pos + a.len ≤ c.pos
  after : ∀ d ∈ B, b + n ≤ d.pos
  mem : ∀ d ∈ A ++ B, d ∈ t.chunks
  all : ∀ d ∈ t.chunks, d = c ∨ d ∈ A ++ B
  old : c.len = 0 ∨ c ∈ t.chunks
  sorted : (A ++ B).Pairwise fun c c' => c.pos + c.len ≤ c'.pos

theorem Inv.room (h : t.Inv F) (hn : 0 < n) (hu : t.Untouched b n) :
    ∃ A B c, t.makeRoom (t.findWritePos b) b = A ++ c :: B ∧ A.length = t.findWritePos b ∧
      t.Room F b n A B c := by
  obtain ⟨hklen, hbefore, hhere⟩ := h.findWritePos hn hu
  generalize hk : t.findWritePos b = k at hklen hbefore hhere
  have htake : ∀ a ∈ t.chunks.take k, a.pos + a.len < b := by
    intro a ha
    obtain ⟨j, hj⟩ := List.getElem?_of_mem ha
    rw [List.getElem?_take] at hj
    split at hj
    case isTrue hjk => exact hbefore j hjk a hj
    case isFalse => exact nomatch hj
  have hcut : t.chunks.take k ++ t.chunks.drop k = t.chunks := List.take_append_drop k _
  -- a new chunk at b, before those from k on
  have hnew : (∀ d ∈ t.chunks.drop k, b + n ≤ d.pos) →
      t.Room F b n (t.chunks.take k) (t.chunks.drop k) (t.newChunk b) := fun hafter =>
    { ends := rfl
      len := rfl
      writable := h.writable
      held := fun x hx => absurd (show x < b from hx.2) (Nat.not_lt.mpr hx.1)
      before := fun a ha => Nat.le_of_lt (htake a ha)
      after := hafter
      mem := fun d hd => hcut ▸ hd
      all := fun d hd => .inr (hcut.symm ▸ hd)
      old := .inl rfl
      sorted := hcut.symm ▸ h.sorted }
  have hlenk : (t.chunks.take k).length = k := List.length_take_of_le hklen
  rw [makeRoom]
  cases hc : t.chunks[k]? with
  | none =>
      have hdrop : t.chunks.drop k = [] := List.drop_of_length_le (List.getElem?_eq_none_iff.mp hc)
      have hroom := hnew (by simp [hdrop])
      rw [hdrop] at hroom hcut
      rw [List.append_nil] at hcut
      exact ⟨t.chunks.take k, [], _, by rw [hcut], hlenk, hroom⟩
  | some c =>
      obtain ⟨hlt, hget⟩ := List.getElem?_eq_some_iff.mp hc
      have hmem := List.mem_of_getElem? hc
      have hdropk : t.chunks.drop k = c :: t.chunks.drop (k + 1) := by
        rw [List.drop_eq_getElem_cons hlt, hget]
      -- those behind c begin where it ends, or later
      have hbehind : ∀ d ∈ t.chunks.drop (k + 1), c.pos + c.len ≤ d.pos := by
        intro d hd
        obtain ⟨j, hj⟩ := List.getElem?_of_mem hd
        rw [List.getElem?_drop] at hj
        exact h.le hc hj (by omega)
      have hlen := (h.ok c hmem).pos_len
      have hhole := hu c hmem
      simp only
      by_cases hpos : c.pos > b
      · rw [if_pos hpos]
        refine ⟨_, _, _, rfl, hlenk, hnew fun d hd => ?_⟩
        have hd' := hu d (List.mem_of_mem_drop hd)
        rw [hdropk, List.mem_cons] at hd
        rcases hd with rfl | hd
        · omega
        · have := hbehind d hd
          omega
      · have hend := hhere c hc
        rw [if_neg hpos]
        have hsplit : t.chunks = t.chunks.take k ++ c :: t.chunks.drop (k + 1) := by
          rw [← hdropk, hcut]
        have hsorted := h.sorted
        rw [hsplit, List.pairwise_append] at hsorted
        refine ⟨_, _, c, hsplit, hlenk, {
          ends := by omega
          len := (h.ok c hmem).len
          writable := (h.ok c hmem).writable
          held := h.held c hmem
          before := fun a ha => hsorted.2.2 a ha c (by simp)
          after := fun d hd => ?_
          mem := fun d hd => ?_
          all := fun d hd => ?_
          old := .inr hmem
          sorted := ?_ }⟩
        · have hdu := hu d (List.mem_of_mem_drop hd)
          have hdlen := (h.ok d (List.mem_of_mem_drop hd)).pos_len
          have := hbehind d hd
          omega
        · rcases List.mem_append.mp hd with hd | hd
          · exact List.mem_of_mem_take hd
          · exact List.mem_of_mem_drop hd
        · rw [hsplit, List.mem_append, List.mem_cons] at hd
          rw [List.mem_append]
          tauto
        · rw [List.pairwise_append]
          refine ⟨hsorted.1, (List.pairwise_cons.mp hsorted.2.1).2, fun a ha d hd => ?_⟩
          exact hsorted.2.2 a ha d (List.mem_cons_of_mem _ hd)

-- The chunk grows by what is written.
theorem Room.inv {A B : List Chunk} {c : Chunk} {xs : Bytes} {size : Nat} (h : t.Inv F)
    (hr : t.Room F b n A B c) (hxs : xs.length = n) (hn : 0 < n) :
    Inv ⟨size, A ++ { c with
      fd := { c.fd with bytes := patch c.fd.bytes (b - c.pos) xs }, len := c.len + n } :: B,
      t.writable⟩ (patch F b xs) := by
  have hends := hr.ends
  have hclen := hr.len
  have hbytes : patch c.fd.bytes (b - c.pos) xs = c.fd.bytes ++ xs := patch_end (by omega) xs
  rw [hbytes]
  have hold : ∀ d ∈ A ++ B, ∀ x, d.Covers x → elemAt (patch F b xs) x = elemAt F x := by
    intro d hd x hx
    obtain ⟨hx1, hx2⟩ := hx
    rw [elemAt_patch, if_neg]
    rintro ⟨h1, h2⟩
    rcases List.mem_append.mp hd with hd | hd
    · have := hr.before d hd
      omega
    · have := hr.after d hd
      omega
  have hcases : ∀ {p : Chunk → Prop} {c' : Chunk}, p c' → (∀ d ∈ A ++ B, p d) →
      ∀ d ∈ A ++ c' :: B, p d := by
    intro p c' hc' hAB d hd
    rw [List.mem_append, List.mem_cons] at hd
    rcases hd with hd | rfl | hd
    · exact hAB d (List.mem_append_left _ hd)
    · exact hc'
    · exact hAB d (List.mem_append_right _ hd)
  refine ⟨h.writable, hcases ⟨?_, ?_, hr.writable⟩ fun d hd => h.ok d (hr.mem d hd), ?_,
    hcases (fun x hx => ?_) fun d hd x hx => ?_, fun x hx => ?_⟩
  · show 0 < c.len + n
    omega
  · show c.len + n = (c.fd.bytes ++ xs).length
    rw [List.length_append]
    omega
  · obtain ⟨hA, hB, hAB⟩ := List.pairwise_append.mp hr.sorted
    rw [List.pairwise_append, List.pairwise_cons]
    refine ⟨hA, ⟨fun d hd => ?_, hB⟩, fun a ha d hd => ?_⟩
    · have := hr.after d hd
      show c.pos + (c.len + n) ≤ d.pos
      omega
    · rcases List.mem_cons.mp hd with rfl | hd
      · exact hr.before a ha
      · exact hAB a ha d hd
  · obtain ⟨hx1, hx2⟩ := hx
    simp only at hx1 hx2 ⊢
    rw [elemAt_append, elemAt_patch]
    by_cases hlt : x < b
    · rw [if_pos (by omega), if_neg (by omega)]
      exact hr.held x ⟨hx1, by omega⟩
    · rw [if_neg (by omega), if_pos (by omega)]
      congr 1
      omega
  · rw [hold d hd x hx]
    exact h.held d (hr.mem d hd) x hx
  · have hout : ¬ (b ≤ x ∧ x < b + xs.length) := by
      rintro ⟨h1, h2⟩
      refine hx _ (List.mem_append_right _ List.mem_cons_self) ⟨?_, ?_⟩
      · show c.pos ≤ x
        omega
      · show x < c.pos + (c.len + n)
        omega
    rw [elemAt_patch, if_neg hout]
    refine h.zero x fun d hd hcov => ?_
    rcases hr.all d hd with rfl | hd
    · refine hx _ (List.mem_append_right _ List.mem_cons_self) ⟨hcov.1, ?_⟩
      have := hcov.2
      show x < d.pos + (d.len + n)
      omega
    · refine hx d ?_ hcov
      rw [List.mem_append] at hd
      rw [List.mem_append, List.mem_cons]
      tauto

-- A write into a gap succeeds.
theorem Inv.write (h : t.Inv F) (hn : 0 < n) (hu : t.Untouched b n) (hs : q + n ≤ s.length) :
    ∃ t', t.write b s q n = .ok t' ∧ t'.Inv (patch F b (region s q n)) ∧
      ∀ d m, 0 < m → t.Untouched d m → b + n ≤ d ∨ d + m ≤ b → t'.Untouched d m := by
  obtain ⟨A, B, c, hroom, hidx, hr⟩ := h.room hn hu
  have hends := hr.ends
  have hget : (A ++ c :: B)[A.length]? = some c := by simp
  have hnext : ∀ next, (A ++ c :: B)[A.length + 1]? = some next → b + n ≤ next.pos := by
    intro next hnx
    refine hr.after next (List.mem_of_getElem? (i := 0) ?_)
    rw [List.getElem?_append_right (by omega)] at hnx
    simpa using hnx
  have hloop := writeLoop_one (s := s) (q := q) hget hnext hr.writable hn (by omega) hs
  rw [SparseFile.write, hroom, ← hidx, hloop, ok_bind]
  refine ⟨_, rfl, ?_, ?_⟩
  · simp only [List.set_append_right _ _ (Nat.le_refl _), Nat.sub_self, List.set_cons_zero]
    exact hr.inv h (length_region _ _ _) hn
  · intro d m hm hd hout x hx
    simp only [List.set_append_right _ _ (Nat.le_refl _), Nat.sub_self, List.set_cons_zero] at hx
    rw [List.mem_append, List.mem_cons] at hx
    rcases hx with hx | rfl | hx
    · exact hd x (hr.mem x (List.mem_append_left _ hx))
    · show d + m ≤ c.pos ∨ c.pos + (c.len + n) ≤ d
      rcases hr.old with hzero | hmem
      · omega
      · have := hd c hmem
        omega
    · exact hd x (hr.mem x (List.mem_append_right _ hx))

end SparseFile

-- The states that writes of at least one byte into gaps and truncations reach,
-- with the flat array on which the same writes were done.
inductive SparseRun : SparseFile → Bytes → Prop
  | create : SparseRun (.create true) []
  | write {t t' : SparseFile} {F : Bytes} {w : WriteCall} (h : SparseRun t F) (hlen : 0 < w.len)
      (hgap : t.Untouched w.pos w.len) (hstring : w.stringPos + w.len ≤ w.string.length)
      (hwrite : t.write w.pos w.string w.stringPos w.len = .ok t') :
      SparseRun t' (patch F w.pos w.bytes)
  | ftruncate64 {t : SparseFile} {F : Bytes} (h : SparseRun t F) (size : Nat) :
      SparseRun (t.ftruncate64 size) F

theorem SparseRun.inv {t : SparseFile} {F : Bytes} (h : SparseRun t F) : t.Inv F := by
  induction h with
  | create =>
      exact ⟨rfl, by simp [SparseFile.create], by simp [SparseFile.create],
        by simp [SparseFile.create], fun _ _ => elemAt_of_length_le (Nat.zero_le _)⟩
  | write _ hlen hgap hstring hwrite ih =>
      obtain ⟨t₁, hwrite₁, hinv, -⟩ := ih.write hlen hgap hstring
      rw [Except.ok.inj (hwrite.symm.trans hwrite₁)]
      exact hinv
  | ftruncate64 _ size ih => exact ⟨ih.writable, ih.ok, ih.sorted, ih.held, ih.zero⟩

-- Sorted and disjoint, and each chunk as long as it is on disk.
structure SparseFile.Tidy (t : SparseFile) : Prop where
  sorted : t.chunks.Pairwise fun c c' => c.pos + c.len ≤ c'.pos
  len : ∀ c ∈ t.chunks, c.len = c.fd.bytes.length

-- The chunks stay in order, every further write into a gap succeeds, and a read,
-- apply_on_chunk and rename give the flat bytes exactly when no byte but zero
-- lies behind a gap in their region.
theorem sparse_flat {t : SparseFile} {F : Bytes} (h : SparseRun t F) :
    t.Tidy ∧
      (∀ (b n q : Nat) (s : Bytes), 0 < n → t.Untouched b n → q + n ≤ s.length →
        ∃ t', t.write b s q n = .ok t') ∧
      (∀ (b n q : Nat) (s : Bytes), q + n ≤ s.length →
        (t.read b s q n = .ok (patch s q (region F b n)) ↔ t.GapFree F b n)) ∧
      (∀ b n, (t.applyOnChunk b n).map (handedBytes n) = .ok (region F b n) ↔
        t.Handable F b n) ∧
      (t.rename = .ok (region F 0 t.size) ↔ t.GapFree F 0 t.size) := by
  have hinv := h.inv
  refine ⟨⟨hinv.sorted, fun c hc => (hinv.ok c hc).len⟩, fun b n q s hn hu hs => ?_,
    fun b n q s hs => hinv.read_iff hs, fun b n => hinv.applyOnChunk_iff, hinv.rename_iff⟩
  obtain ⟨t', hwrite, -⟩ := hinv.write hn hu hs
  exact ⟨t', hwrite⟩

-- "ab" is written at 4, and "c" right behind it.
def grown : SparseFile := ⟨7, [⟨4, 3, ⟨true, [97, 98, 99]⟩⟩], true⟩

theorem grown_run : SparseRun grown [0, 0, 0, 0, 97, 98, 99] := by
  have h1 : SparseRun ⟨6, [⟨4, 2, ⟨true, [97, 98]⟩⟩], true⟩ [0, 0, 0, 0, 97, 98] :=
    @SparseRun.write _ _ _ ⟨4, [97, 98], 0, 2⟩ .create (by decide) (by decide) (by decide)
      (by decide)
  exact @SparseRun.write _ _ _ ⟨6, [99], 0, 1⟩ h1 (by decide) (by decide) (by decide) (by decide)

theorem sparse_flat_grown : grown.read 5 [0, 0] 0 2 = .ok [98, 99] := by
  refine ((sparse_flat grown_run).2.2.1 5 2 0 [0, 0] (by decide)).mpr fun x y hx hxy hy ha => ?_
  exact absurd ⟨show 4 ≤ x by omega, show x < 4 + 3 by omega⟩ (ha ⟨4, 3, _⟩ List.mem_cons_self)

-- A read that comes from a gap into a chunk.
theorem sparse_flat_false : ¬ ∀ (t : SparseFile) (F : Bytes), SparseRun t F →
    ∀ (b n : Nat) (s : Bytes), s.length = n → t.read b s 0 n = .ok (region F b n) := by
  intro h
  have hread := h grown _ grown_run 3 2 [0, 0] rfl
  have hfree := (grown_run.inv.read_iff (b := 3) (n := 2) (q := 0) (s := [0, 0]) (by decide)).mp hread
  have habsent : grown.Absent 3 := by
    intro c hc hcov
    obtain rfl := List.mem_singleton.mp hc
    exact absurd hcov.1 (by decide)
  exact absurd (hfree 3 4 (by decide) (by decide) (by decide) habsent) (by decide)

end Mldonkey.Unix32
