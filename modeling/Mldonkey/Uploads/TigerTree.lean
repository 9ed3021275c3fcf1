import Mldonkey.Lib.PairTree

-- The tiger tree of a file, as commonUploads computes it from the hashes of the
-- blocks.
namespace Mldonkey.Uploads

open PairTree

-- A hash of TigerTree.
structure Digest where
  bytes : List UInt8
  length : bytes.length = 24
  deriving DecidableEq

def Digest.null : Digest := ⟨List.replicate 24 0, List.length_replicate⟩

-- The library's Tiger.string.
variable (tiger : List UInt8 → Digest)

def tigerNode (d1 d2 : Digest) : Digest := tiger (1 :: (d1.bytes ++ d2.bytes))

-- The recursive tiger_of_array. An access outside the array raises an exception.
def tigerOfBlocks (array : List Digest) (pos block : Nat) (hblock : 0 < block) : Option Digest :=
  if h : block = 1 then array[pos]?
  else if array.length ≤ pos + block / 2 then tigerOfBlocks array pos (block / 2) (by omega)
  else do
    let d1 ← tigerOfBlocks array pos (block / 2) (by omega)
    let d2 ← tigerOfBlocks array (pos + block / 2) (block / 2) (by omega)
    return tigerNode tiger d1 d2
termination_by block

def tigerMaxBlockSize (block len : Nat) (hblock : 0 < block) : Nat :=
  if len ≤ block then block else tigerMaxBlockSize (block * 2) len (by omega)
termination_by len - block

theorem tigerMaxBlockSize_pos (block len : Nat) (hblock : 0 < block) :
    0 < tigerMaxBlockSize block len hblock := by
  fun_induction tigerMaxBlockSize block len hblock with
  | case1 block hblock h => exact hblock
  | case2 block hblock h ih => exact ih

def tigerOfArray (array : List Digest) : Option Digest :=
  tigerOfBlocks tiger array 0 (tigerMaxBlockSize 1 array.length Nat.one_pos)
    (tigerMaxBlockSize_pos 1 array.length Nat.one_pos)

def tigerPos (nblocks : Nat) : Nat :=
  if nblocks < 2 then 0
  else
    let half := nblocks / 2
    let acc := nblocks - 2 * half
    let half := half + acc
    half + tigerPos half
termination_by nblocks

def tigerPos2 (nblocks : Nat) : Nat × List (Nat × Nat) :=
  if nblocks < 2 then (0, [])
  else
    let half := nblocks / 2
    let acc := nblocks - 2 * half
    let half := half + acc
    let (pos, list) := tigerPos2 half
    (half + pos, (nblocks, pos) :: list)
termination_by nblocks

-- s.(i) <- d
def store (s : List Digest) (i : Nat) (d : Digest) : Option (List Digest) :=
  if i < s.length then some (s.set i d) else none

-- for i = 0 to count - 1 do s.(pos+i) <- value s i done
def storeFrom (pos count : Nat) (value : List Digest → Nat → Option Digest) (s : List Digest) :
    Option (List Digest) :=
  (List.range count).foldlM (fun s i => do store s (pos + i) (← value s i)) s

def fillTigerTree : List Digest → List (Nat × Nat) → Option (List Digest)
  | s, [] => some s
  | s, (nblocks, pos) :: tail => do
      let half := nblocks / 2
      let acc := nblocks - 2 * half
      let nextPos := pos + half + acc
      let s ← storeFrom pos half (fun s i => do
        let d1 ← s[nextPos + 2 * i]?
        let d2 ← s[nextPos + 2 * i + 1]?
        return tigerNode tiger d1 d2) s
      let s ← if acc = 1 then do store s (pos + half) (← s[nextPos + 2 * half]?) else some s
      fillTigerTree s tail

def flattenTigerArray (array : List Digest) : List UInt8 := array.flatMap Digest.bytes

-- The array that make_tiger_tree fills, and the string it returns.
def tigerTreeArray (array : List Digest) : Option (List Digest) := do
  let (pos, list) := tigerPos2 array.length
  let s := List.replicate (pos + array.length) Digest.null
  let s ← storeFrom pos array.length (fun _ i => array[i]?) s
  fillTigerTree tiger s list

def makeTigerTree (array : List Digest) : Option (List UInt8) :=
  (tigerTreeArray tiger array).map flattenTigerArray

variable {tiger} {l array s : List Digest} {p k pos count : Nat}

theorem tigerPos_small (h : l.length < 2) : tigerPos2 l.length = (0, []) := by
  rw [tigerPos2, if_pos h]

theorem tigerPos2_pairUp (h : 2 ≤ l.length) :
    tigerPos2 l.length =
      ((pairUp (tigerNode tiger) l).length + (tigerPos2 (pairUp (tigerNode tiger) l).length).1,
        (l.length, (tigerPos2 (pairUp (tigerNode tiger) l).length).1) ::
          (tigerPos2 (pairUp (tigerNode tiger) l).length).2) := by
  have hhalf : l.length / 2 + (l.length - 2 * (l.length / 2)) = (l.length + 1) / 2 := by omega
  rw [tigerPos2, if_neg (by omega), length_pairUp]
  simp only [hhalf]

theorem tigerPos2_fst (n : Nat) : (tigerPos2 n).1 = tigerPos n := by
  fun_induction tigerPos n with
  | case1 n h => rw [tigerPos2, if_pos h]
  | case2 n h half acc half' ih =>
      rw [tigerPos2, if_neg h]
      exact congrArg (half' + ·) ih

-- A block of a level is the block of half the size of the level above it. By
-- induction on the logarithm of the size.
theorem tigerOfBlocks_pairUp (hp : 2 * p < l.length) :
    tigerOfBlocks tiger l (2 * p) (2 ^ (k + 1)) (Nat.two_pow_pos _) =
      tigerOfBlocks tiger (pairUp (tigerNode tiger) l) p (2 ^ k) (Nat.two_pow_pos _) := by
  have hlength := @length_pairUp Digest (tigerNode tiger) l
  have hhalf : ∀ k, 2 ^ (k + 1) / 2 = 2 ^ k := fun k => by
    rw [pow_succ]
    exact Nat.mul_div_cancel _ Nat.two_pos
  have hne : ∀ k, 2 ^ (k + 1) ≠ 1 := fun k => by
    have := Nat.two_pow_pos k
    rw [pow_succ]
    omega
  induction k generalizing p with
  | zero =>
      rw [tigerOfBlocks, dif_neg (hne 0)]
      simp only [hhalf, pow_zero]
      rw [tigerOfBlocks, dif_pos rfl]
      rw [tigerOfBlocks, dif_pos rfl]
      rw [tigerOfBlocks, dif_pos rfl]
      split
      · next hlast => rw [getElem?_pairUp_last hlast]
      · next hpair =>
          rw [getElem?_pairUp_pair (Nat.lt_of_not_le hpair), List.getElem?_eq_getElem hp,
            List.getElem?_eq_getElem (Nat.lt_of_not_le hpair)]
          rfl
  | succ k ih =>
      have hdouble : 2 * p + 2 ^ (k + 1) = 2 * (p + 2 ^ k) := by rw [pow_succ]; ring
      rw [tigerOfBlocks, dif_neg (hne (k + 1))]
      conv_rhs => rw [tigerOfBlocks, dif_neg (hne k)]
      simp only [hhalf, hdouble]
      by_cases hend : l.length ≤ 2 * (p + 2 ^ k)
      · rw [if_pos hend, if_pos (by omega)]
        exact ih hp
      · rw [if_neg hend, if_neg (by omega), ih hp, ih (by omega)]

-- A block that spans the array has the root of the tree as its hash.
theorem tigerOfBlocks_levels (hl : l ≠ []) (hk : l.length ≤ 2 ^ k) :
    tigerOfBlocks tiger l 0 (2 ^ k) (Nat.two_pow_pos _) =
      (levels (tigerNode tiger) l).head?.bind List.head? := by
  induction k generalizing l with
  | zero =>
      have hone : l.length = 1 := le_antisymm hk (List.length_pos_of_ne_nil hl)
      obtain ⟨a, rfl⟩ := List.length_eq_one_iff.mp hone
      rw [tigerOfBlocks, dif_pos (pow_zero 2), levels_small (show [a].length < 2 by simp)]
      rfl
  | succ k ih =>
      have hpos := List.length_pos_of_ne_nil hl
      by_cases hlt : l.length < 2
      · -- Both halves but the first hash are behind the end.
        have hone : l.length = 1 := by omega
        have hk1 := Nat.one_le_two_pow (n := k)
        have hhalf : 2 ^ (k + 1) / 2 = 2 ^ k := by
          rw [pow_succ]
          exact Nat.mul_div_cancel _ Nat.two_pos
        rw [tigerOfBlocks, dif_neg (by rw [pow_succ]; omega)]
        simp only [hhalf]
        rw [if_pos (by omega)]
        exact ih hl (by omega)
      · have hlength := @length_pairUp Digest (tigerNode tiger) l
        have hup : pairUp (tigerNode tiger) l ≠ [] := List.ne_nil_of_length_pos (by omega)
        have hroot := @tigerOfBlocks_pairUp tiger l 0 k hpos
        rw [Nat.mul_zero] at hroot
        have hk' : (pairUp (tigerNode tiger) l).length ≤ 2 ^ k := by
          rw [pow_succ] at hk
          omega
        obtain ⟨root, htree⟩ := @isTree_levels Digest (tigerNode tiger) _ hup
        rw [hroot, ih hup hk', @levels_pairUp _ _ l (by omega), List.head?_append, htree.root]
        rfl

theorem tigerMaxBlockSize_eq (len : Nat) :
    ∃ k, len ≤ 2 ^ k ∧ tigerMaxBlockSize 1 len Nat.one_pos = 2 ^ k := by
  have hgeneral : ∀ block (hblock : 0 < block), (∃ j, block = 2 ^ j) →
      ∃ k, len ≤ 2 ^ k ∧ tigerMaxBlockSize block len hblock = 2 ^ k := by
    intro block hblock hpow
    fun_induction tigerMaxBlockSize block len hblock with
    | case1 block hblock h =>
        obtain ⟨j, rfl⟩ := hpow
        exact ⟨j, h, rfl⟩
    | case2 block hblock h ih =>
        obtain ⟨j, rfl⟩ := hpow
        exact ih ⟨j + 1, (pow_succ 2 j).symm⟩
  exact hgeneral 1 Nat.one_pos ⟨0, rfl⟩

theorem tigerOfArray_levels (hl : l ≠ []) :
    tigerOfArray tiger l = (levels (tigerNode tiger) l).head?.bind List.head? := by
  obtain ⟨k, hlen, hk⟩ := tigerMaxBlockSize_eq l.length
  rw [tigerOfArray]
  simp only [hk]
  exact tigerOfBlocks_levels hl hlen

theorem store_append {pre suf : List Digest} {a d : Digest} :
    store (pre ++ a :: suf) pre.length d = some (pre ++ d :: suf) := by
  have hlt : pre.length < (pre ++ a :: suf).length := by
    rw [List.length_append, List.length_cons]
    omega
  rw [store, if_pos hlt, List.set_append_right _ _ le_rfl, Nat.sub_self, List.set_cons_zero]

theorem storeFrom_eq {value : List Digest → Nat → Option Digest} {pre mid suf vals : List Digest}
    (hlen : vals.length ≤ mid.length)
    (hvalue : ∀ mid' : List Digest, mid'.length = mid.length → ∀ i, (hi : i < vals.length) →
      value (pre ++ (mid' ++ suf)) i = some vals[i]) :
    storeFrom pre.length vals.length value (pre ++ (mid ++ suf)) =
      some (pre ++ (vals ++ (mid.drop vals.length ++ suf))) := by
  have hloop : ∀ k ≤ vals.length, storeFrom pre.length k value (pre ++ (mid ++ suf)) =
      some (pre ++ (vals.take k ++ (mid.drop k ++ suf))) := by
    intro k hk
    induction k with
    | zero => rfl
    | succ k ih =>
        have hmid : (vals.take k ++ mid.drop k).length = mid.length := by
          rw [List.length_append, List.length_take, List.length_drop]
          omega
        have hread := hvalue _ hmid k hk
        rw [List.append_assoc] at hread
        have hstore : pre.length + k = (pre ++ vals.take k).length := by
          rw [List.length_append, List.length_take, Nat.min_eq_left (by omega)]
        have hk' : k < mid.length := by omega
        rw [storeFrom] at ih ⊢
        rw [List.range_succ, List.foldlM_append, ih (by omega)]
        simp only [Option.bind_eq_bind, Option.bind_some, List.foldlM_cons, List.foldlM_nil, hread]
        rw [hstore, List.drop_eq_getElem_cons hk', List.cons_append, ← List.append_assoc pre,
          store_append, List.take_succ_eq_append_getElem hk]
        simp only [List.append_assoc, List.singleton_append]
        rfl
  rw [hloop _ le_rfl, List.take_length]

theorem getElem?_next {pre mid rest : List Digest} {i : Nat} (hi : i < l.length) :
    (pre ++ (mid ++ (l ++ rest)))[pre.length + mid.length + i]? = l[i]? := by
  rw [List.getElem?_append_right (by omega), List.getElem?_append_right (by omega),
    List.getElem?_append_left (by omega)]
  congr 1
  omega

theorem fillTigerTree_cons {pre mid rest : List Digest} {tail : List (Nat × Nat)}
    (hmid : mid.length = (pairUp (tigerNode tiger) l).length) :
    fillTigerTree tiger (pre ++ (mid ++ (l ++ rest))) ((l.length, pre.length) :: tail) =
      fillTigerTree tiger (pre ++ (pairUp (tigerNode tiger) l ++ (l ++ rest))) tail := by
  have hlength := @length_pairUp Digest (tigerNode tiger) l
  set up := pairUp (tigerNode tiger) l with hup
  set half := l.length / 2 with hhalf
  have hnext : pre.length + half + (l.length - 2 * half) = pre.length + mid.length := by omega
  have htake : (up.take half).length = half := by
    rw [List.length_take]
    omega
  have hloop := @storeFrom_eq (fun s i => do
      let d1 ← s[pre.length + mid.length + 2 * i]?
      let d2 ← s[pre.length + mid.length + 2 * i + 1]?
      return tigerNode tiger d1 d2) pre mid (l ++ rest) (up.take half) (by omega) (by
    intro mid' hmid' i hi
    have hpair : 2 * i + 1 < l.length := by omega
    have hread := @getElem?_pairUp_pair Digest (tigerNode tiger) l i hpair
    have h1 := @getElem?_next l pre mid' rest (2 * i) (by omega)
    have h2 := @getElem?_next l pre mid' rest (2 * i + 1) hpair
    rw [hmid'] at h1 h2
    rw [← hup, List.getElem?_eq_getElem (by omega)] at hread
    rw [h1, Nat.add_assoc, h2, List.getElem?_eq_getElem (by omega),
      List.getElem?_eq_getElem hpair, List.getElem_take, Option.some.inj hread]
    rfl)
  rw [htake] at hloop
  simp only [Option.bind_eq_bind] at hloop
  rw [fillTigerTree]
  simp only [← hhalf, hnext, hloop, Option.bind_eq_bind, Option.bind_some]
  by_cases hodd : l.length - 2 * half = 1
  · -- The odd last node goes up.
    have hlast := @getElem?_pairUp_last Digest (tigerNode tiger) l half (by omega)
    have hlt : half < up.length := by omega
    rw [← hup, List.getElem?_eq_getElem hlt] at hlast
    have hread := @getElem?_next l pre (up.take half ++ mid.drop half) rest (2 * half) (by omega)
    have hboth : (up.take half ++ mid.drop half).length = mid.length := by
      rw [List.length_append, htake, List.length_drop]
      omega
    rw [hboth, List.append_assoc, ← hlast] at hread
    have hdrop : mid.drop half = [mid[half]] := by
      rw [List.drop_eq_getElem_cons (by omega), List.drop_eq_nil_of_le (by omega)]
    have hstore : pre.length + half = (pre ++ up.take half).length := by
      rw [List.length_append, htake]
    rw [if_pos hodd, hread]
    simp only [Option.bind_some]
    rw [hdrop, List.singleton_append, hstore, ← List.append_assoc pre, store_append]
    have hall : up.take half ++ [up[half]] = up := by
      rw [← List.take_succ_eq_append_getElem hlt, List.take_of_length_le (by omega)]
    conv_rhs => rw [← hall]
    simp only [Option.bind_some, List.append_assoc, List.singleton_append]
  · have hall : up.take half = up := List.take_of_length_le (by omega)
    have hdrop : mid.drop half = [] := List.drop_eq_nil_of_le (by omega)
    rw [if_neg hodd, hall, hdrop, List.nil_append]

theorem fillTigerTree_levels (hl : l ≠ []) : ∀ pre rest : List Digest,
    pre.length = (tigerPos2 l.length).1 →
    fillTigerTree tiger (pre ++ (l ++ rest)) (tigerPos2 l.length).2 =
      some ((levels (tigerNode tiger) l).flatten ++ rest) := by
  refine @level_induction Digest (tigerNode tiger) l (fun l => ∀ pre rest : List Digest,
    pre.length = (tigerPos2 l.length).1 →
    fillTigerTree tiger (pre ++ (l ++ rest)) (tigerPos2 l.length).2 =
      some ((levels (tigerNode tiger) l).flatten ++ rest)) ?_ ?_ hl
  · intro a pre rest hpre
    have hone : [a].length < 2 := Nat.lt_succ_self 1
    rw [tigerPos_small hone] at hpre ⊢
    obtain rfl := List.eq_nil_of_length_eq_zero hpre
    rw [levels_small hone, fillTigerTree]
    rfl
  · intro l h ih pre rest hpre
    rw [@tigerPos2_pairUp tiger l h] at hpre ⊢
    set up := pairUp (tigerNode tiger) l with hup
    set pos := (tigerPos2 up.length).1 with hpos
    have htake : (pre.take pos).length = pos := by
      rw [List.length_take, hpre]
      omega
    have hdrop : (pre.drop pos).length = up.length := by
      rw [List.length_drop, hpre]
      omega
    have hcons := @fillTigerTree_cons tiger l (pre.take pos) (pre.drop pos) rest
      (tigerPos2 up.length).2 hdrop
    rw [htake, ← List.append_assoc (pre.take pos), List.take_append_drop] at hcons
    rw [hcons, ← hup, ih (pre.take pos) (l ++ rest) htake, levels_pairUp h, List.flatten_concat,
      List.append_assoc]

theorem tigerTreeArray_levels (hl : l ≠ []) :
    tigerTreeArray tiger l = some (levels (tigerNode tiger) l).flatten := by
  have hfill := @fillTigerTree_levels tiger l hl
    (List.replicate (tigerPos2 l.length).1 Digest.null) [] List.length_replicate
  have hleaves := @storeFrom_eq (fun _ i => l[i]?)
    (List.replicate (tigerPos2 l.length).1 Digest.null) (List.replicate l.length Digest.null) [] l
    List.length_replicate.ge fun _ _ i hi => List.getElem?_eq_getElem hi
  rw [List.drop_eq_nil_of_le List.length_replicate.le, List.length_replicate] at hleaves
  simp only [List.append_nil] at hleaves hfill
  rw [tigerTreeArray]
  simp only [List.replicate_add, hleaves, Option.bind_eq_bind, Option.bind_some]
  exact hfill

theorem length_levels (hl : l ≠ []) :
    (levels (tigerNode tiger) l).flatten.length = tigerPos l.length + l.length := by
  refine @level_induction Digest (tigerNode tiger) l (fun l =>
    (levels (tigerNode tiger) l).flatten.length = tigerPos l.length + l.length) ?_ ?_ hl
  · intro a
    rw [levels_small (show [a].length < 2 from Nat.lt_succ_self 1), ← tigerPos2_fst,
      tigerPos_small (show [a].length < 2 from Nat.lt_succ_self 1)]
    rfl
  · intro l h ih
    rw [levels_pairUp h, List.flatten_concat, List.length_append, ih, ← tigerPos2_fst,
      ← tigerPos2_fst, @tigerPos2_pairUp tiger l h]
    dsimp only
    omega

-- The hash at an index of the flattened array.
theorem take_drop_flatten : ∀ (array : List Digest) (i : Nat) (hi : i < array.length),
    ((flattenTigerArray array).drop (24 * i)).take 24 = array[i].bytes
  | d :: array, 0, _ => by
      rw [flattenTigerArray, List.flatMap_cons, Nat.mul_zero, List.drop_zero,
        List.take_append_of_le_length d.length.ge, List.take_of_length_le d.length.le]
      rfl
  | d :: array, i + 1, hi => by
      have hsize : 24 * (i + 1) = d.bytes.length + 24 * i := by
        rw [d.length]
        ring
      rw [flattenTigerArray, List.flatMap_cons, hsize, List.drop_length_add_append]
      exact take_drop_flatten array i (Nat.lt_of_succ_lt_succ hi)

-- The array that is filled from the bottom up holds the levels of the tree that
-- tiger_of_array goes through from the root down.
theorem makeTigerTree_levels (tiger : List UInt8 → Digest) (array : List Digest)
    (harray : array ≠ []) :
    ∃ root levels s, tigerOfArray tiger array = some root ∧
      IsTree (tigerNode tiger) root array levels ∧
      tigerTreeArray tiger array = some levels.flatten ∧
      levels.flatten.length = tigerPos array.length + array.length ∧
      levels.flatten[0]? = some root ∧
      makeTigerTree tiger array = some s ∧
      ∀ i, (hi : i < levels.flatten.length) →
        (s.drop (24 * i)).take 24 = levels.flatten[i].bytes := by
  obtain ⟨root, htree⟩ := @isTree_levels Digest (tigerNode tiger) array harray
  have harr := @tigerTreeArray_levels tiger array harray
  refine ⟨root, levels (tigerNode tiger) array,
    flattenTigerArray (levels (tigerNode tiger) array).flatten, ?_, htree, harr,
    length_levels harray, ?_, ?_, fun i hi => take_drop_flatten _ i hi⟩
  · rw [tigerOfArray_levels harray, htree.root]
    rfl
  · obtain ⟨rest, hrest⟩ := List.head?_eq_some_iff.mp htree.root
    rw [hrest]
    rfl
  · rw [makeTigerTree, harr]
    rfl

-- Three leaves: the third one goes up beside the node of the others.
theorem makeTigerTree_levels_three :
    [Digest.null, Digest.null, Digest.null] ≠ [] ∧
      ∃ root, ∃ levels : List (List Digest), ∃ s, tigerOfArray (fun _ => Digest.null)
          [Digest.null, Digest.null, Digest.null] = some root ∧
        levels.flatten.length = tigerPos 3 + 3 ∧ levels.flatten[0]? = some root ∧
        makeTigerTree (fun _ => Digest.null) [Digest.null, Digest.null, Digest.null] = some s := by
  have hne : [Digest.null, Digest.null, Digest.null] ≠ [] := List.cons_ne_nil _ _
  obtain ⟨root, levels, s, hroot, -, -, hlength, hzero, hs, -⟩ :=
    makeTigerTree_levels (fun _ => Digest.null) [Digest.null, Digest.null, Digest.null] hne
  exact ⟨hne, root, levels, s, hroot, hlength, hzero, hs⟩

end Mldonkey.Uploads
