import Mldonkey.Donkey.Md4

-- The two computations of the ed2k hash of a file: when the file is shared on
-- the donkey network, and when one of its identifiers is asked for.
namespace Mldonkey.Donkey

-- block_size, and ed2k_block_size.
def blockSize : Nat := 9728000

def getNchunks (size : Nat) : Nat := size / blockSize + 1

-- The hash function and the content of the file.
variable (md4 : Bytes → Md4) (content : Bytes)

-- The result of the job of CommonHasher.compute_md4.
def computeMd4 (pos len : Nat) : Md4 := md4 ((content.drop pos).take len)

section DonkeyShare

structure Shared where
  list : List Md4
  pos : Nat
  chunk : Nat

def Shared.hashChunk (sh : Shared) : Shared :=
  let endPos := min (sh.pos + blockSize) content.length
  ⟨computeMd4 md4 content sh.pos (endPos - sh.pos) :: sh.list, endPos, sh.chunk + 1⟩

-- One job after the other; `fuel` is a bound on their number.
def checkSharedFiles : Nat → Shared → Option (List Md4)
  | 0, _ => none
  | fuel + 1, sh =>
      let sh := sh.hashChunk md4 content
      if sh.chunk = getNchunks content.length then some sh.list.reverse
      else checkSharedFiles fuel sh

-- Each hash goes to its place of 16 bytes.
def md4OfArray (md4s : List Md4) : Md4 := md4 (md4s.flatMap Md4.bytes)

def newFileToShare : List Md4 → Option Md4
  | [h] => some h
  | [] => none
  | md4s => some (md4OfArray md4 md4s)

def donkeyShareId : Option Md4 := do
  let md4s ← checkSharedFiles md4 content (getNchunks content.length) ⟨[], 0, 0⟩
  newFileToShare md4 md4s

end DonkeyShare

section CommonUploads

def md4OfList (md4s : List Md4) : Md4 := md4 (md4s.flatMap Md4.bytes)

-- The positions that the job goes through; `fuel` is one more than their number.
def iterEd2k : Nat → Nat → List Md4 → Option (List Md4)
  | 0, _, _ => none
  | fuel + 1, pos, hashes =>
      if pos < content.length then
        let len := min (content.length - pos) blockSize
        iterEd2k fuel (pos + blockSize) (computeMd4 md4 content pos len :: hashes)
      else some hashes.reverse

def commonUploadsId : Option Md4 := do
  let hashes ← iterEd2k md4 content (getNchunks content.length + 1) 0 []
  return md4OfList md4 hashes

end CommonUploads

-- The hash of the chunk with a given number.
def chunkMd4 (i : Nat) : Md4 :=
  computeMd4 md4 content (i * blockSize) (min (content.length - i * blockSize) blockSize)

def chunkMd4s (n : Nat) : List Md4 := (List.range n).map (chunkMd4 md4 content)

lemma chunkMd4s_succ (n : ℕ) :
    chunkMd4s md4 content (n + 1) = chunkMd4s md4 content n ++ [chunkMd4 md4 content n] := by
  rw [chunkMd4s, List.range_succ, List.map_append]
  rfl

-- The state in front of a chunk.
def Shared.before (n : Nat) : Shared := ⟨(chunkMd4s md4 content n).reverse, n * blockSize, n⟩

lemma hashChunk_before {n : ℕ} (h : n * blockSize ≤ content.length) :
    (Shared.before md4 content n).hashChunk md4 content =
      { Shared.before md4 content (n + 1) with
        pos := min ((n + 1) * blockSize) content.length } := by
  have hend : n * blockSize + blockSize = (n + 1) * blockSize := by ring
  have hlen : min ((n + 1) * blockSize) content.length - n * blockSize
      = min (content.length - n * blockSize) blockSize := by omega
  simp only [Shared.hashChunk, Shared.before, chunkMd4s_succ, List.reverse_append, hend, hlen]
  rfl

lemma checkSharedFiles_before (fuel n : ℕ) (h : n + fuel = getNchunks content.length)
    (hpos : 0 < fuel) :
    checkSharedFiles md4 content fuel (Shared.before md4 content n)
      = some (chunkMd4s md4 content (getNchunks content.length)) := by
  induction fuel generalizing n with
  | zero => exact absurd hpos (lt_irrefl 0)
  | succ fuel ih =>
    have hle : n * blockSize ≤ content.length := by
      have : n ≤ content.length / blockSize := by
        unfold getNchunks at h
        omega
      calc n * blockSize ≤ content.length / blockSize * blockSize := Nat.mul_le_mul_right _ this
        _ ≤ content.length := Nat.div_mul_le_self _ _
    rw [checkSharedFiles, hashChunk_before md4 content hle]
    cases fuel with
    | zero =>
      have hn : n + 1 = getNchunks content.length := h
      simp [Shared.before, hn]
    | succ fuel =>
      have hn : n + 1 ≠ getNchunks content.length := by omega
      have hmin : min ((n + 1) * blockSize) content.length = (n + 1) * blockSize := by
        have : n + 1 ≤ content.length / blockSize := by
          unfold getNchunks at h
          omega
        have := Nat.mul_le_mul_right blockSize this
        have := Nat.div_mul_le_self content.length blockSize
        omega
      simp only [Shared.before, hn, if_false, hmin]
      exact ih (n + 1) (by omega) (by omega)

lemma checkSharedFiles_eq :
    checkSharedFiles md4 content (getNchunks content.length) ⟨[], 0, 0⟩
      = some (chunkMd4s md4 content (getNchunks content.length)) := by
  have hstart : Shared.before md4 content 0 = ⟨[], 0, 0⟩ := by simp [Shared.before, chunkMd4s]
  rw [← hstart]
  exact checkSharedFiles_before md4 content _ 0 (Nat.zero_add _) (Nat.succ_pos _)

-- The number of chunks that start before the end.
def startedChunks (size : Nat) : Nat := (size + blockSize - 1) / blockSize

lemma lt_startedChunks (n size : ℕ) : n < startedChunks size ↔ n * blockSize < size := by
  rw [startedChunks, Nat.lt_iff_add_one_le, Nat.le_div_iff_mul_le (by decide), blockSize]
  omega

lemma iterEd2k_chunk (fuel n : ℕ) (hn : n ≤ startedChunks content.length)
    (h : startedChunks content.length < n + fuel) :
    iterEd2k md4 content fuel (n * blockSize) (chunkMd4s md4 content n).reverse
      = some (chunkMd4s md4 content (startedChunks content.length)) := by
  induction fuel generalizing n with
  | zero => omega
  | succ fuel ih =>
    rw [iterEd2k]
    by_cases hlt : n * blockSize < content.length
    · have hn' := (lt_startedChunks n content.length).mpr hlt
      have hnext : n * blockSize + blockSize = (n + 1) * blockSize := by ring
      have hrev : chunkMd4 md4 content n :: (chunkMd4s md4 content n).reverse
          = (chunkMd4s md4 content (n + 1)).reverse := by
        rw [chunkMd4s_succ, List.reverse_append]
        rfl
      have := ih (n + 1) (by omega) (by omega)
      rw [← hrev] at this
      rw [if_pos hlt, hnext]
      exact this
    · have hge : ¬n < startedChunks content.length := by
        rw [lt_startedChunks]
        exact hlt
      have heq : n = startedChunks content.length := by omega
      rw [if_neg hlt, List.reverse_reverse, ← heq]

lemma iterEd2k_eq :
    iterEd2k md4 content (getNchunks content.length + 1) 0 []
      = some (chunkMd4s md4 content (startedChunks content.length)) := by
  have hle : startedChunks content.length ≤ getNchunks content.length := by
    unfold startedChunks getNchunks blockSize
    omega
  have := iterEd2k_chunk md4 content (getNchunks content.length + 1) 0 (Nat.zero_le _) (by omega)
  rwa [Nat.zero_mul, chunkMd4s, List.range_zero, List.map_nil, List.reverse_nil] at this

section SizeClasses

variable {md4 content}

lemma commonUploadsId_eq : commonUploadsId md4 content
    = some (md4 ((chunkMd4s md4 content (startedChunks content.length)).flatMap Md4.bytes)) := by
  rw [commonUploadsId, iterEd2k_eq]
  rfl

lemma length_chunkMd4s (n : ℕ) : (chunkMd4s md4 content n).length = n := by simp [chunkMd4s]

lemma newFileToShare_of_two_le {md4s : List Md4} (h : 2 ≤ md4s.length) :
    newFileToShare md4 md4s = some (md4 (md4s.flatMap Md4.bytes)) := by
  rcases md4s with - | ⟨x, - | ⟨y, l⟩⟩
  · simp at h
  · simp at h
  · rfl

lemma donkeyShareId_of_lt (h : content.length < blockSize) :
    donkeyShareId md4 content = some (md4 content) := by
  have hn : getNchunks content.length = 1 := by
    rw [getNchunks, Nat.div_eq_of_lt h]
  have hchunk : chunkMd4 md4 content 0 = md4 content := by
    rw [chunkMd4, computeMd4, Nat.zero_mul, List.drop_zero, Nat.sub_zero,
      List.take_of_length_le (le_min le_rfl h.le)]
  rw [donkeyShareId, checkSharedFiles_eq, hn]
  simp [chunkMd4s, newFileToShare, hchunk]

lemma donkeyShareId_of_le (h : blockSize ≤ content.length) : donkeyShareId md4 content
    = some (md4 ((chunkMd4s md4 content (getNchunks content.length)).flatMap Md4.bytes)) := by
  have hn : 2 ≤ getNchunks content.length := by
    have := Nat.div_pos h (by decide)
    unfold getNchunks
    omega
  rw [donkeyShareId, checkSharedFiles_eq]
  exact newFileToShare_of_two_le (by rwa [length_chunkMd4s])

-- A chunk behind the end of the file.
lemma chunkMd4_of_le {i : ℕ} (h : content.length ≤ i * blockSize) :
    chunkMd4 md4 content i = md4 [] := by
  rw [chunkMd4, computeMd4, List.drop_of_length_le h, List.take_nil]

lemma startedChunks_of_dvd {size : ℕ} (h : blockSize ∣ size) :
    startedChunks size = size / blockSize := by
  obtain ⟨k, rfl⟩ := h
  unfold startedChunks blockSize
  omega

lemma startedChunks_of_not_dvd {size : ℕ} (h : ¬blockSize ∣ size) :
    startedChunks size = getNchunks size := by
  unfold startedChunks getNchunks blockSize at *
  omega

lemma startedChunks_of_lt {size : ℕ} (hpos : 0 < size) (h : size < blockSize) :
    startedChunks size = 1 := by
  unfold startedChunks blockSize at *
  omega

-- The ids that the two computations give to the file are one.
variable (md4 content) in
def Agree : Prop :=
  ∃ id, donkeyShareId md4 content = some id ∧ commonUploadsId md4 content = some id

lemma agree_of_lt (hpos : 0 < content.length) (h : content.length < blockSize) :
    Agree md4 content ↔ md4 (md4 content).bytes = md4 content := by
  have hchunk : chunkMd4 md4 content 0 = md4 content := by
    rw [chunkMd4, computeMd4, Nat.zero_mul, List.drop_zero, Nat.sub_zero,
      List.take_of_length_le (le_min le_rfl h.le)]
  have hcommon : commonUploadsId md4 content = some (md4 (md4 content).bytes) := by
    rw [commonUploadsId_eq, startedChunks_of_lt hpos h]
    simp [chunkMd4s, hchunk]
  simp [Agree, donkeyShareId_of_lt h, hcommon, eq_comm]

lemma agree_of_dvd (hpos : 0 < content.length) (h : blockSize ∣ content.length) :
    Agree md4 content ↔
      md4 ((chunkMd4s md4 content (content.length / blockSize)).flatMap Md4.bytes
        ++ (md4 []).bytes)
      = md4 ((chunkMd4s md4 content (content.length / blockSize)).flatMap Md4.bytes) := by
  have hle : blockSize ≤ content.length := Nat.le_of_dvd hpos h
  have hlast : chunkMd4 md4 content (content.length / blockSize) = md4 [] :=
    chunkMd4_of_le (Nat.div_mul_cancel h).ge
  simp [Agree, donkeyShareId_of_le hle, commonUploadsId_eq, startedChunks_of_dvd h, getNchunks,
    chunkMd4s_succ, hlast, eq_comm]

lemma agree_of_not_dvd (hle : blockSize < content.length) (h : ¬blockSize ∣ content.length) :
    Agree md4 content := by
  refine ⟨_, donkeyShareId_of_le hle.le, ?_⟩
  rw [commonUploadsId_eq, startedChunks_of_not_dvd h]

end SizeClasses

section Converse

-- Two functions that could hash files.
def flip (s : Bytes) : Md4 :=
  if s = List.replicate 16 0 then ⟨List.replicate 16 1, by simp⟩ else ⟨List.replicate 16 0, by simp⟩

lemma flip_flip (s : Bytes) : flip (flip s).bytes ≠ flip s := by
  unfold flip
  split <;> decide

def count (s : Bytes) : Md4 := ⟨List.replicate 16 (.ofNat (s.length / 16)), by simp⟩

lemma count_append (s t : Bytes) (ht : t.length = 16) : count (s ++ t) ≠ count s := by
  intro h
  have hb := congrArg (fun m => (m.bytes.headD 0).toNat) h
  simp only [count, List.length_append, ht, List.replicate_succ, List.headD_cons,
    UInt8.toNat_ofNat'] at hb
  omega

end Converse

-- The two agree for every hash function just above one chunk and beside its
-- multiples. The other sizes need a hash that is its own hash, or one of the
-- chunk hashes that does not change with the hash of an empty chunk behind them.
theorem ed2k_ids_agree (content : Bytes) (hpos : 0 < content.length) :
    ((∀ md4, Agree md4 content) ↔ blockSize < content.length ∧ ¬blockSize ∣ content.length) ∧
    ∀ md4, Agree md4 content ↔
      (blockSize < content.length ∧ ¬blockSize ∣ content.length) ∨
      (content.length < blockSize ∧ md4 (md4 content).bytes = md4 content) ∨
      (blockSize ∣ content.length ∧
        md4 ((chunkMd4s md4 content (content.length / blockSize)).flatMap Md4.bytes
          ++ (md4 []).bytes)
        = md4 ((chunkMd4s md4 content (content.length / blockSize)).flatMap Md4.bytes)) := by
  rcases lt_or_ge content.length blockSize with hlt | hge
  · have hndvd : ¬blockSize ∣ content.length := Nat.not_dvd_of_pos_of_lt hpos hlt
    refine ⟨⟨fun h => ?_, fun h => absurd h.1 hlt.not_gt⟩, fun md4 => ?_⟩
    · exact absurd ((agree_of_lt hpos hlt).mp (h flip)) (flip_flip content)
    · simp [agree_of_lt hpos hlt, hlt, hlt.not_gt, hndvd]
  · by_cases hdvd : blockSize ∣ content.length
    · refine ⟨⟨fun h => ?_, fun h => absurd hdvd h.2⟩, fun md4 => ?_⟩
      · exact absurd ((agree_of_dvd hpos hdvd).mp (h count))
          (count_append _ _ (count []).length_bytes)
      · simp [agree_of_dvd hpos hdvd, hdvd, hge.not_gt]
    · have hlt : blockSize < content.length := by
        rcases hge.lt_or_eq with h | h
        · exact h
        · exact absurd (dvd_of_eq h) hdvd
      refine ⟨⟨fun _ => ⟨hlt, hdvd⟩, fun _ md4 => agree_of_not_dvd hlt hdvd⟩, fun md4 => ?_⟩
      simp [agree_of_not_dvd hlt hdvd, hlt, hdvd]

-- A file of two chunks and a part of a third, and one of exactly two chunks
theorem ed2k_ids_agree_chunks :
    Agree Md4.string (List.replicate 20000000 0) ∧
    ¬ ∀ md4, Agree md4 (List.replicate (2 * blockSize) 7) := by
  constructor
  · refine ((ed2k_ids_agree (List.replicate 20000000 0) ?_).2 Md4.string).mpr (.inl ?_)
    · rw [List.length_replicate]
      decide
    · rw [List.length_replicate]
      decide
  · intro h
    refine ((ed2k_ids_agree (List.replicate (2 * blockSize) 7) ?_).1.mp h).2 ?_
    · rw [List.length_replicate]
      decide
    · rw [List.length_replicate]
      exact dvd_mul_left blockSize 2

-- A file of one byte.
theorem ed2k_ids_agree_false :
    ¬∀ content : Bytes, 0 < content.length → Agree Md4.string content := by
  intro h
  have hne : Md4.string (Md4.string [0]).bytes ≠ Md4.string [0] := by decide +kernel
  have hbyte := @agree_of_lt Md4.string [0] Nat.one_pos (by decide)
  exact hne (hbyte.mp (h [0] Nat.one_pos))

end Mldonkey.Donkey
