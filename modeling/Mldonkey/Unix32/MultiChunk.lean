import Mldonkey.Unix32.MultiRuns

-- The region of a multi-file that apply_on_chunk hands to its callback.
namespace Mldonkey.Unix32

open Patch

def zeroChunkLen : Nat := 65536

def zeroChunk : FdCache := ⟨true, List.replicate zeroChunkLen 0⟩

namespace MultiFile

-- The recursion of fill_zeros; `fuel` bounds its rounds.
def fillZerosLoop : Nat → FdCache → Int → Int → Except Exn FdCache
  | 0, fileOut, _, _ => .ok fileOut
  | fuel + 1, fileOut, filePos, maxLen =>
      if maxLen > 0 then do
        let maxPossibleWrite := min maxLen zeroChunkLen
        let fileOut ← zeroChunk.copyChunk fileOut 0 filePos maxPossibleWrite
        fillZerosLoop fuel fileOut (filePos + maxPossibleWrite) (maxLen - maxPossibleWrite)
      else .ok fileOut

def fillZeros (fileOut : FdCache) (filePos maxLen : Int) : Except Exn FdCache :=
  fillZerosLoop maxLen.toNat fileOut filePos maxLen

-- What is done with each of the other files. The argument is the temporary
-- file and the position in it.
def copyRest (file : SubFile) (arg : FdCache × Int) (len : Int) :
    Except Exn (SubFile × FdCache × Int) := do
  let maxCurrentPos := min len file.currentLen
  let fileOut ← file.fd.copyChunk arg.1 0 arg.2 maxCurrentPos
  let filePos := arg.2 + maxCurrentPos
  let zeros := len - maxCurrentPos
  let fileOut ← fillZeros fileOut filePos zeros
  return (file, fileOut, filePos + zeros)

-- The file and the position that the callback gets.
def applyOnChunk (t : MultiFile) (chunkBegin chunkLen : Nat) : Except Exn (FdCache × Int) :=
  match t.files.drop (t.tree.findFile chunkBegin) with
  | [] => .error .assertFailure
  | file :: tail => do
      let chunkEnd := chunkBegin + chunkLen
      let maxCurrentPos := file.pos + file.currentLen
      if maxCurrentPos ≥ chunkEnd then return (file.fd, (chunkBegin : Int) - file.pos)
      else
        let fileOut : FdCache := ⟨true, []⟩
        let inPos : Int := chunkBegin - file.pos
        let inLen : Int := maxCurrentPos - chunkBegin
        let fileOut ← file.fd.copyChunk fileOut inPos 0 inLen
        let zeros := min (chunkLen - inLen) (file.len - file.currentLen)
        let fileOut ← fillZeros fileOut inLen zeros
        let inLen := inLen + zeros
        let (_, fileOut, _) ← doOnRemaining copyRest tail (fileOut, inLen) (chunkLen - inLen)
        return (fileOut, 0)

end MultiFile

-- The bytes of the region that a callback sees, which may be fewer than `len`.
def handedBytes (len : Nat) (arg : FdCache × Int) : Bytes :=
  (arg.1.bytes.drop arg.2.toNat).take len

namespace MultiFile

variable {f : SubFile} {files A B : List SubFile} {out : FdCache} {t : MultiFile} {w : Bool}
  {b n p q r : Nat}

theorem region_replicate (n m : Nat) : region (List.replicate n (0 : UInt8)) 0 m =
    List.replicate m 0 := by
  refine ((region_eq_iff (by simp)).mpr fun i _ => ?_).symm
  rw [elemAt_replicate, elemAt_replicate]

theorem fillZerosLoop_spec {fuel : Nat} (hw : out.writable = true) (hfuel : n ≤ fuel) :
    fillZerosLoop fuel out q n = .ok { out with bytes := patch out.bytes q (List.replicate n 0) } := by
  induction fuel generalizing out q n with
  | zero =>
      rw [Nat.le_zero.mp hfuel]
      rfl
  | succ fuel ih =>
      rw [fillZerosLoop]
      by_cases hn : n = 0
      · subst hn
        rfl
      have hpos : 0 < zeroChunkLen := by decide
      have hmin : min (n : Int) zeroChunkLen = (min n zeroChunkLen : Nat) := by omega
      simp only [hmin]
      generalize hm : min n zeroChunkLen = m
      have hcopy : zeroChunk.copyChunk out 0 q m =
          .ok { out with bytes := patch out.bytes q (List.replicate m 0) } := by
        have h := @FdCache.copyChunk_of_le zeroChunk out m 0 q hw
          (by rw [zeroChunk, List.length_replicate]; omega)
        rwa [zeroChunk, region_replicate] at h
      have hrest : fillZerosLoop fuel { out with bytes := patch out.bytes q (List.replicate m 0) }
          (q + m : Nat) (n - m : Nat) = _ := ih hw (by omega)
      rw [if_pos (by omega), hcopy, ok_bind, ← Nat.cast_add, ← Nat.cast_sub (by omega), hrest]
      have hcut : List.replicate n (0 : UInt8) =
          List.replicate m 0 ++ List.replicate (n - m) 0 := by
        rw [← List.replicate_add, Nat.add_sub_cancel' (by omega)]
      rw [hcut, ← patch_append, List.length_replicate]

theorem fillZeros_spec (hw : out.writable = true) (q n : Nat) :
    fillZeros out q n = .ok { out with bytes := patch out.bytes q (List.replicate n 0) } :=
  fillZerosLoop_spec hw (by omega)

theorem fillZeros_of_nonpos {p n : Int} (h : n ≤ 0) : fillZeros out p n = .ok out := by
  rw [fillZeros, Int.toNat_of_nonpos h]
  rfl

theorem fillZeros_neg {p : Int} (hw : out.writable = true) (hp : p < 0) (hn : 0 < n) :
    fillZeros out p n = .error .einval := by
  obtain ⟨k, rfl⟩ := Nat.exists_eq_add_one_of_ne_zero (Nat.ne_of_gt hn)
  have hpos : 0 < zeroChunkLen := by decide
  have hmin : min ((k + 1 : Nat) : Int) zeroChunkLen = (min (k + 1) zeroChunkLen : Nat) := by omega
  rw [fillZeros, Int.toNat_natCast, fillZerosLoop, if_pos (by omega)]
  simp only [hmin]
  generalize hm : min (k + 1) zeroChunkLen = m
  have hcopy : zeroChunk.copyChunk out 0 p m = .error .einval :=
    @FdCache.copyChunk_neg zeroChunk out m 0 p hw hp (by omega)
      (by rw [zeroChunk, List.length_replicate]; omega)
  rw [hcopy]
  rfl

theorem copyRest_spec (hf : f.Ok w) (hw : out.writable = true) (q n : Nat) :
    copyRest f (out, q) n =
      .ok (f, { out with bytes := patch out.bytes q (region f.fd.bytes 0 n) }, (q + n : Nat)) := by
  have hlen := hf.currentLen
  have hmin : min (n : Int) f.currentLen = (min n f.currentLen : Nat) := by omega
  rw [copyRest]
  simp only [hmin]
  generalize hm : min n f.currentLen = m
  have hcopy : f.fd.copyChunk out 0 q m =
      .ok { out with bytes := patch out.bytes q (region f.fd.bytes 0 m) } :=
    @FdCache.copyChunk_of_le f.fd out m 0 q hw (by omega)
  have hsub : (n : Int) - m = (n - m : Nat) := by omega
  have hzero : region f.fd.bytes m (n - m) = List.replicate (n - m) 0 := by
    by_cases hn : n - m = 0
    · rw [hn]
      rfl
    · exact region_of_length_le (by omega)
  have hcut : region f.fd.bytes 0 n = region f.fd.bytes 0 m ++ List.replicate (n - m) 0 := by
    rw [← hzero]
    conv_lhs => rw [show n = m + (n - m) by omega, region_append, Nat.zero_add]
  have hfill := @fillZeros_spec { out with bytes := patch out.bytes q (region f.fd.bytes 0 m) } hw
    (q + m) (n - m)
  rw [hcopy, ok_bind, ← Nat.cast_add, hsub, hfill, ok_bind, hcut, ← patch_append, length_region]
  show Except.ok _ = _
  rw [← Nat.cast_add, Nat.add_assoc, Nat.add_sub_cancel' (by omega)]

-- The rest of the chunk, empty sub-files included.
theorem copyRemaining (hok : ∀ f ∈ files, f.Ok w) (hw : out.writable = true)
    (hne : files ≠ []) (hr : r ≤ total files) :
    doOnRemaining copyRest files (out, q) r =
      .ok (files, { out with bytes := patch out.bytes q (region (flat files) 0 r) },
        (q + r : Nat)) := by
  induction files generalizing out q r with
  | nil => exact absurd rfl hne
  | cons f files ih =>
      obtain ⟨hf, hok⟩ := List.forall_mem_cons.mp hok
      rw [total_cons] at hr
      rw [doOnRemaining_cons, copyRest_spec hf hw, ok_bind]
      simp only
      split
      case isTrue hle =>
          rw [Nat.min_eq_left hle, region_flat_cons_inside hle]
          rfl
      case isFalse hlt =>
          have hne' : files ≠ [] := by
            rintro rfl
            simp at hr
            omega
          have hrest := @ih { out with bytes := patch out.bytes q (region f.fd.bytes 0 f.len) }
            (q + f.len) (r - f.len) hok hw hne' (by omega)
          rw [Nat.min_eq_right (by omega), hrest, ok_bind,
            region_flat_cons_split (Nat.le_of_not_ge hlt), ← patch_append, length_region]
          show Except.ok (_, _, _) = _
          rw [Nat.add_assoc, Nat.add_sub_cancel' (by omega)]

-- When the sub-file at the begin of the chunk has bytes up to its end on disk,
-- either the chunk ends in it or what lies behind its declared size agrees with
-- the files that follow. Otherwise the bytes reach the begin of the chunk, and
-- a chunk that ends in the sub-file is not in the last one.
def ChunkFits (t : MultiFile) (b n : Nat) : Prop :=
  match t.files.drop (t.tree.findFile b) with
  | [] => False
  | f :: B =>
      if b + n ≤ f.pos + f.currentLen then
        b + n ≤ f.pos + f.len ∨ region f.fd.bytes f.len (b + n - (f.pos + f.len)) =
          region (flat B) 0 (b + n - (f.pos + f.len))
      else b ≤ f.pos + f.currentLen ∧ (b + n ≤ f.pos + f.len → B ≠ [])

instance (t : MultiFile) (b n : Nat) : Decidable (t.ChunkFits b n) := by
  unfold ChunkFits
  split
  · exact inferInstanceAs (Decidable False)
  · split <;> exact inferInstance

theorem handedBytes_real (h : b + n ≤ out.bytes.length) :
    handedBytes n (out, (b : Int)) = region out.bytes b n := by
  rw [handedBytes, region_eq_take h]
  rfl

-- The chunk is on disk as a whole, from the position of the sub-file on.
theorem Located.applyOnChunk_present (h : Located t w b A f B)
    (hn : b + n ≤ f.pos + f.currentLen) :
    (t.applyOnChunk b n).map (handedBytes n) = .ok (region (flat t.files) b n) ↔
      t.ChunkFits b n := by
  have hle := h.pos_le
  have hge := h.le_end
  have hcur := h.ok.currentLen
  have hsub : (b : Int) - f.pos = (b - f.pos : Nat) := by omega
  rw [ChunkFits, h.drop, applyOnChunk, h.drop]
  simp only [hsub]
  rw [if_pos hn, if_pos hn]
  show Except.ok _ = _ ↔ _
  rw [handedBytes_real (by omega), Except.ok.injEq, h.files]
  by_cases hin : b + n ≤ f.pos + f.len
  · rw [region_flat_inside h.pos hle hin]
    exact ⟨fun _ => .inl hin, fun _ => rfl⟩
  · generalize hm : f.pos + f.len - b = m
    have hsplit : region f.fd.bytes (b - f.pos) n = region f.fd.bytes (b - f.pos) m ++
        region f.fd.bytes f.len (b + n - (f.pos + f.len)) := by
      rw [show n = m + (b + n - (f.pos + f.len)) by omega, region_append]
      congr 2 <;> omega
    rw [hsplit, region_flat_split h.pos hle (show b + m = f.pos + f.len by omega) (by omega),
      List.append_cancel_left_eq, show n - m = b + n - (f.pos + f.len) by omega]
    exact ⟨.inr, fun h => h.resolve_left hin⟩

theorem Located.copyChunk_present (h : Located t w b A f B) {k : Nat}
    (hcur : b ≤ f.pos + f.currentLen) (hk : f.pos + f.currentLen - b = k) :
    f.fd.copyChunk ⟨true, []⟩ (b - f.pos : Nat) 0 k =
      .ok ⟨true, region f.fd.bytes (b - f.pos) k⟩ := by
  have hlen := h.ok.currentLen
  have hle := h.pos_le
  have h := @FdCache.copyChunk_of_le f.fd ⟨true, []⟩ k (b - f.pos) 0 rfl (by omega)
  simpa using h

-- The chunk ends in the sub-file, and its last bytes are not on disk.
theorem Located.applyOnChunk_inside (h : Located t w b A f B)
    (hmc : ¬ b + n ≤ f.pos + f.currentLen) (hcur : b ≤ f.pos + f.currentLen)
    (hin : b + n ≤ f.pos + f.len) :
    (t.applyOnChunk b n).map (handedBytes n) = .ok (region (flat t.files) b n) ↔
      t.ChunkFits b n := by
  have hle := h.pos_le
  have hlen := h.ok.currentLen
  have hsub : (b : Int) - f.pos = (b - f.pos : Nat) := by omega
  generalize hk : f.pos + f.currentLen - b = k
  have hinLen : ((f.pos + f.currentLen : Nat) : Int) - b = k := by omega
  have hzeros : min ((n : Int) - k) ((f.len : Int) - f.currentLen) = (n - k : Nat) := by omega
  have hfill := @fillZeros_spec ⟨true, region f.fd.bytes (b - f.pos) k⟩ rfl k (n - k)
  have hrest : (n : Int) - (k + (n - k : Nat) : Int) = (0 : Nat) := by omega
  have hbytes : patch (region f.fd.bytes (b - f.pos) k) k (List.replicate (n - k) 0) =
      region f.fd.bytes (b - f.pos) n := by
    have hzero : region f.fd.bytes (b - f.pos + k) (n - k) = List.replicate (n - k) 0 :=
      region_of_length_le (by omega)
    rw [patch_end (length_region _ _ _), ← hzero, ← region_append, Nat.add_sub_cancel' (by omega)]
  rw [ChunkFits, h.drop, applyOnChunk, h.drop]
  simp only [hsub]
  rw [if_neg hmc, if_neg hmc]
  simp only [hinLen, h.copyChunk_present hcur hk, ok_bind, hzeros, hfill, hrest, hbytes]
  by_cases hB : B = []
  · subst hB
    exact ⟨nofun, fun h => absurd rfl (h.2 hin)⟩
  · have hlast := @copyRemaining B ⟨true, region f.fd.bytes (b - f.pos) n⟩ w (k + (n - k)) 0
      h.behind_ok rfl hB (Nat.zero_le _)
    rw [← Nat.cast_add, hlast]
    refine ⟨fun _ => ⟨by omega, fun _ => hB⟩, fun _ => ?_⟩
    show Except.ok (handedBytes n (_, ((0 : Nat) : Int))) = _
    rw [region_zero, patch_nil, handedBytes_real (by rw [length_region]; omega),
      region_region _ _ (by omega), h.files, region_flat_inside h.pos hle hin, Nat.add_zero]

-- The zeros up to the size of the sub-file, and what is then written behind them.
-- Where the sub-file is longer on disk, what was copied too much is overwritten.
theorem Located.fillZeros_behind (h : Located t w b A f B)
    (hmc : ¬ b + n ≤ f.pos + f.currentLen) (hcur : b ≤ f.pos + f.currentLen) {k m : Nat}
    (hk : f.pos + f.currentLen - b = k) (hm : f.pos + f.len - b = m) (hmn : m ≤ n) :
    ∃ bytes, fillZeros ⟨true, region f.fd.bytes (b - f.pos) k⟩ k
        ((f.len : Int) - f.currentLen) = .ok ⟨true, bytes⟩ ∧
      ∀ ys : Bytes, ys.length = n - m →
        patch bytes m ys = region f.fd.bytes (b - f.pos) m ++ ys := by
  have hle := h.pos_le
  have hge := h.le_end
  have hlen := h.ok.currentLen
  by_cases hshort : f.currentLen ≤ f.len
  · have hz : (f.len : Int) - f.currentLen = (m - k : Nat) := by omega
    refine ⟨_, by rw [hz]; exact fillZeros_spec rfl k (m - k), fun ys _ => ?_⟩
    have hzero : region f.fd.bytes (b - f.pos + k) (m - k) = List.replicate (m - k) 0 :=
      region_of_length_le (by omega)
    have hend : patch (region f.fd.bytes (b - f.pos) k) k (List.replicate (m - k) 0) =
        region f.fd.bytes (b - f.pos) m := by
      rw [patch_end (length_region _ _ _), ← hzero, ← region_append,
        Nat.add_sub_cancel' (by omega)]
    show patch (patch (region f.fd.bytes (b - f.pos) k) k (List.replicate (m - k) 0)) m ys = _
    rw [hend, patch_end (length_region _ _ _)]
  · refine ⟨_, fillZeros_of_nonpos (by omega), fun ys hys => ?_⟩
    have hcut : region f.fd.bytes (b - f.pos) k = patch (region f.fd.bytes (b - f.pos) m) m
        (region f.fd.bytes (b - f.pos + m) (k - m)) := by
      rw [patch_end (by rw [length_region]), ← region_append, Nat.add_sub_cancel' (by omega)]
    show patch (region f.fd.bytes (b - f.pos) k) m ys = _
    rw [hcut, patch_patch _ _ (by rw [length_region]; omega), patch_end (by rw [length_region])]

-- It goes on in the next ones.
theorem Located.applyOnChunk_across (h : Located t w b A f B)
    (hmc : ¬ b + n ≤ f.pos + f.currentLen) (hcur : b ≤ f.pos + f.currentLen)
    (hin : ¬ b + n ≤ f.pos + f.len) (hb : b + n ≤ total t.files) :
    (t.applyOnChunk b n).map (handedBytes n) = .ok (region (flat t.files) b n) ↔
      t.ChunkFits b n := by
  have hle := h.pos_le
  have hge := h.le_end
  have hlen := h.ok.currentLen
  have htotal := h.total_eq
  have hsub : (b : Int) - f.pos = (b - f.pos : Nat) := by omega
  generalize hk : f.pos + f.currentLen - b = k
  generalize hm : f.pos + f.len - b = m
  have hinLen : ((f.pos + f.currentLen : Nat) : Int) - b = k := by omega
  have hzeros : min ((n : Int) - k) ((f.len : Int) - f.currentLen) =
      (f.len : Int) - f.currentLen := by omega
  have hstart : (k : Int) + ((f.len : Int) - f.currentLen) = m := by omega
  have hrest : (n : Int) - m = (n - m : Nat) := by omega
  have hB : B ≠ [] := by
    rintro rfl
    simp at htotal
    omega
  obtain ⟨bytes, hfill, hpatch⟩ := h.fillZeros_behind hmc hcur hk hm (by omega)
  have hlast := @copyRemaining B ⟨true, bytes⟩ w m (n - m) h.behind_ok rfl hB (by omega)
  rw [ChunkFits, h.drop, applyOnChunk, h.drop]
  simp only [hsub]
  rw [if_neg hmc, if_neg hmc]
  simp only [hinLen, h.copyChunk_present hcur hk, ok_bind, hzeros, hfill, hstart, hrest, hlast]
  refine ⟨fun _ => ⟨by omega, fun hle => absurd hle hin⟩, fun _ => ?_⟩
  show Except.ok (handedBytes n (_, ((0 : Nat) : Int))) = _
  rw [hpatch _ (by rw [length_region]),
    handedBytes_real (by rw [List.length_append, length_region, length_region]; omega), h.files,
    region_flat_split h.pos hle (show b + m = f.pos + f.len by omega) (by omega)]
  have hsize : (region f.fd.bytes (b - f.pos) m ++ region (flat B) 0 (n - m)).length = n := by
    rw [List.length_append, length_region, length_region]
    omega
  have hall := region_all (region f.fd.bytes (b - f.pos) m ++ region (flat B) 0 (n - m))
  rw [hsize] at hall
  exact congrArg Except.ok hall

-- Zeros would be written before the begin of the temporary file.
theorem Located.applyOnChunk_past (h : Located t w b A f B)
    (hmc : ¬ b + n ≤ f.pos + f.currentLen) (hcur : f.pos + f.currentLen < b) :
    (t.applyOnChunk b n).map (handedBytes n) = .ok (region (flat t.files) b n) ↔
      t.ChunkFits b n := by
  have hle := h.pos_le
  have hge := h.le_end
  have hsub : (b : Int) - f.pos = (b - f.pos : Nat) := by omega
  have hzeros : min ((n : Int) - ((f.pos + f.currentLen : Nat) - b)) (f.len - f.currentLen) =
      (min (n + (b - (f.pos + f.currentLen))) (f.len - f.currentLen) : Nat) := by omega
  rw [ChunkFits, h.drop, applyOnChunk, h.drop]
  simp only [hsub]
  rw [if_neg hmc, if_neg hmc, FdCache.copyChunk_of_nonpos (by omega), ok_bind, hzeros,
    fillZeros_neg rfl (by omega) (by omega)]
  exact ⟨nofun, fun hle => by omega⟩

theorem Wf.applyOnChunk_iff (h : t.Wf w) (hb : b + n ≤ total t.files) :
    (t.applyOnChunk b n).map (handedBytes n) = .ok (region (flat t.files) b n) ↔
      t.ChunkFits b n := by
  obtain ⟨A, f, B, hat⟩ := h.located (b := b) (by omega)
  by_cases hmc : b + n ≤ f.pos + f.currentLen
  · exact hat.applyOnChunk_present hmc
  · by_cases hpast : f.pos + f.currentLen < b
    · exact hat.applyOnChunk_past hmc hpast
    · by_cases hin : b + n ≤ f.pos + f.len
      · exact hat.applyOnChunk_inside hmc (by omega) hin
      · exact hat.applyOnChunk_across hmc (by omega) hin hb

end MultiFile

-- The callback sees what read returns exactly when the chunk fits.
theorem applyOnChunk_of_read {t : MultiFile} (h : t.Reachable) {b n : Nat}
    (hb : b + n ≤ total t.files) {s bs : Bytes} (hs : s.length = n)
    (hread : t.read b s 0 n = .ok bs) :
    (t.applyOnChunk b n).map (handedBytes n) = .ok bs ↔ t.ChunkFits b n := by
  obtain ⟨w, hwf⟩ := h.wf
  rcases hwf.read_cases (s := s) (q := 0) hb (by omega) with ⟨-, hok⟩ | ⟨-, herror⟩
  · have hbs : bs = region (flat t.files) b n := by
      rw [← Except.ok.inj (hok.symm.trans hread)]
      have := region_patch_self s 0 (region (flat t.files) b n)
      rw [length_region] at this
      refine (region_all _).symm.trans ?_
      rw [length_patch_of_le (by rw [length_region]; omega), hs, this]
    rw [hbs]
    exact hwf.applyOnChunk_iff hb
  · exact nomatch herror.symm.trans hread

-- Two sub-files of size 2, each with one byte on disk.
def halfFull : MultiFile :=
  match MultiFile.create true [(2, [97]), (2, [98])] with
  | .ok t => t
  | .error _ => ⟨0, [], .leaf 0⟩

theorem applyOnChunk_of_read_half :
    (halfFull.applyOnChunk 0 4).map (handedBytes 4) = .ok [97, 0, 98, 0] := by
  have h : halfFull.Reachable := @MultiFile.Reachable.create true [(2, [97]), (2, [98])] _ rfl
  exact (applyOnChunk_of_read h (b := 0) (n := 4) (s := [0, 0, 0, 0]) (by decide) rfl
    (by decide)).mpr (by decide)

-- The last byte of the last sub-file is not on disk.
theorem applyOnChunk_of_read_false : ¬ ∀ (t : MultiFile), t.Reachable → ∀ (b n : Nat),
    b + n ≤ total t.files → ∀ (s bs : Bytes), s.length = n → t.read b s 0 n = .ok bs →
    (t.applyOnChunk b n).map (handedBytes n) = .ok bs := by
  intro h
  have hreach : halfFull.Reachable := @MultiFile.Reachable.create true [(2, [97]), (2, [98])] _ rfl
  obtain ⟨w, hwf⟩ := hreach.wf
  have := h halfFull hreach 2 2 (by decide) [0, 0] [98, 0] rfl (by decide)
  have hfits := (hwf.applyOnChunk_iff (b := 2) (n := 2) (by decide)).mp this
  exact absurd hfits (by decide)

end Mldonkey.Unix32
