import Mldonkey.Kademlia.Table
import Mldonkey.Lib.HalfOpen
import Mathlib.Data.Nat.Bitwise
import Mathlib.Tactic.Ring

-- The buckets of a table as aligned pieces of the id space.
namespace Mldonkey.Kademlia

open HalfOpen

variable {self id h x y : Id} {a k : Nat} {b b' : Bucket} {t : Tree} {step : Bucket → Pass}

-- The distance of two ids is small when they agree but for their last bits.
theorem distance_div (x y : Id) (k : Nat) :
    distance x y / 2 ^ k = (x.toNat / 2 ^ k) ^^^ (y.toNat / 2 ^ k) := by
  rw [distance, BitVec.toNat_xor, ← Nat.shiftRight_eq_div_pow, ← Nat.shiftRight_eq_div_pow,
    ← Nat.shiftRight_eq_div_pow, Nat.shiftRight_xor_distrib]

theorem distance_lt_iff : distance x y < 2 ^ k ↔ x.toNat / 2 ^ k = y.toNat / 2 ^ k := by
  rw [← Nat.xor_eq_zero_iff, ← distance_div, Nat.div_eq_zero_iff]
  have := Nat.two_pow_pos k
  omega

-- The ids that begin with the bits of `a`, up to the last `k` ones.
def Bucket.Laid (a k : Nat) (b : Bucket) : Prop :=
  b.lo.toNat = a * 2 ^ k ∧ b.hi.toNat + 1 = (a + 1) * 2 ^ k

theorem Bucket.Laid.inside_iff (hb : b.Laid a k) : inside b h = true ↔ h.toNat / 2 ^ k = a := by
  have hpos := Nat.two_pow_pos k
  obtain ⟨hlo, hhi⟩ := hb
  simp only [inside, BitVec.lt_def, decide_eq_true_eq, not_or, not_lt]
  rw [Nat.div_eq_iff hpos]
  have : (a + 1) * 2 ^ k = a * 2 ^ k + 2 ^ k := by ring
  omega

theorem Bucket.Laid.splittable_eq (hb : b.Laid a k) (hb' : b'.Laid a k) :
    Kademlia.splittable self b' = Kademlia.splittable self b := by
  have hlo : b'.lo = b.lo := BitVec.eq_of_toNat_eq (hb'.1.trans hb.1.symm)
  have hhi : b'.hi = b.hi := BitVec.eq_of_toNat_eq (Nat.succ_inj.mp (hb'.2.trans hb.2.symm))
  rw [Kademlia.splittable, Kademlia.splittable, inside, inside, hlo, hhi]

-- A tree whose buckets were halved while they had self in them and more than
-- 256 ids.
def Tree.Laid (self : Id) : Tree → Nat → Nat → Prop
  | .leaf b, a, k => b.Laid a k
  | .node l mid r, a, k =>
      ∃ j, k = j + 1 ∧ mid.toNat + 1 = (2 * a + 1) * 2 ^ j ∧
        (∀ b : Bucket, b.Laid a k → splittable self b = true) ∧
        l.Laid self (2 * a) j ∧ r.Laid self (2 * a + 1) j

-- The comparison with the split point tells the two halves apart.
theorem le_mid_iff {mid : Id} (hmid : mid.toNat + 1 = (2 * a + 1) * 2 ^ k)
    (hid : id.toNat / 2 ^ (k + 1) = a) :
    (id ≤ mid → id.toNat / 2 ^ k = 2 * a) ∧ (¬ id ≤ mid → id.toNat / 2 ^ k = 2 * a + 1) := by
  have hpos := Nat.two_pow_pos k
  have hdiv : id.toNat / 2 ^ k / 2 = a := by rw [Nat.div_div_eq_div_mul, ← pow_succ, hid]
  have hlt : id ≤ mid ↔ id.toNat / 2 ^ k < 2 * a + 1 := by
    rw [BitVec.le_def, Nat.div_lt_iff_lt_mul hpos]
    omega
  rw [hlt]
  omega

theorem Tree.Laid.leafAt (ht : t.Laid self a k) (hid : id.toNat / 2 ^ k = a) :
    ∃ c j, (t.leafAt id).Laid c j ∧ id.toNat / 2 ^ j = c := by
  induction t generalizing a k with
  | leaf b => exact ⟨a, k, ht, hid⟩
  | node l mid r ihl ihr =>
      obtain ⟨k, rfl, hmid, -, hl, hr⟩ := ht
      rw [Tree.leafAt]
      split
      case isTrue h => exact ihl hl ((le_mid_iff hmid hid).1 h)
      case isFalse h => exact ihr hr ((le_mid_iff hmid hid).2 h)

theorem Tree.Laid.inside_leafAt (ht : t.Laid self a k) (hid : id.toNat / 2 ^ k = a) :
    inside (t.leafAt id) id = true := by
  obtain ⟨c, j, hb, hj⟩ := ht.leafAt hid
  exact hb.inside_iff.mpr hj

theorem Tree.leafAt_mem (t : Tree) (id : Id) : t.leafAt id ∈ t.leaves := by
  induction t with
  | leaf b => simp [Tree.leafAt, leaves]
  | node l mid r ihl ihr =>
      rw [Tree.leafAt, leaves, List.mem_append]
      split
      · exact .inl ihl
      · exact .inr ihr

def Bucket.range (b : Bucket) : Nat × Nat := (b.lo.toNat, b.hi.toNat + 1)

theorem Tree.Laid.tiles (ht : t.Laid self a k) :
    Tiles (a * 2 ^ k) (t.leaves.map Bucket.range) ((a + 1) * 2 ^ k) := by
  induction t generalizing a k with
  | leaf b =>
      have := Nat.two_pow_pos k
      refine ⟨ht.1, ?_, ht.2⟩
      show b.lo.toNat < b.hi.toNat + 1
      rw [ht.1, ht.2, Nat.add_mul]
      omega
  | node l mid r ihl ihr =>
      obtain ⟨k, rfl, -, -, hl, hr⟩ := ht
      rw [leaves, List.map_append, tiles_append]
      refine ⟨(2 * a + 1) * 2 ^ k, ?_, ?_⟩
      · have := ihl hl
        rwa [show a * 2 ^ (k + 1) = 2 * a * 2 ^ k by ring]
      · have := ihr hr
        rwa [show (a + 1) * 2 ^ (k + 1) = (2 * a + 1 + 1) * 2 ^ k by ring]

theorem Tree.Laid.leaf (ht : t.Laid self a k) (hb : b ∈ t.leaves) : ∃ c j, b.Laid c j := by
  induction t generalizing a k with
  | leaf b' =>
      obtain rfl : b = b' := by simpa [leaves] using hb
      exact ⟨a, k, ht⟩
  | node l mid r ihl ihr =>
      obtain ⟨k, rfl, -, -, hl, hr⟩ := ht
      rcases List.mem_append.mp hb with hb | hb
      · exact ihl hl hb
      · exact ihr hr hb

def Pass.tree : Pass → Tree
  | .nothing b _ => .leaf b
  | .new t => t

theorem Tree.leaf_loop (b : Bucket) : ((leaf b).loop id step).1 = (step b).tree := by
  rw [Tree.loop]
  cases step b <;> rfl

theorem Tree.Laid.loop (ht : t.Laid self a k)
    (hstep : ∀ b a k, b.Laid a k → (step b).tree.Laid self a k) :
    (t.loop id step).1.Laid self a k := by
  induction t generalizing a k with
  | leaf b =>
      rw [Tree.leaf_loop]
      exact hstep b a k ht
  | node l mid r ihl ihr =>
      obtain ⟨k, rfl, hmid, hself, hl, hr⟩ := ht
      rw [Tree.loop]
      split
      · exact ⟨k, rfl, hmid, hself, ihl hl, hr⟩
      · exact ⟨k, rfl, hmid, hself, hl, ihr hr⟩

theorem Tree.Laid.mapLeaves {f : Bucket → Bucket} (ht : t.Laid self a k)
    (hf : ∀ b, (f b).lo = b.lo ∧ (f b).hi = b.hi) : (t.mapLeaves f).Laid self a k := by
  induction t generalizing a k with
  | leaf b =>
      show (f b).Laid a k
      rw [Bucket.Laid, (hf b).1, (hf b).2]
      exact ht
  | node l mid r ihl ihr =>
      obtain ⟨k, rfl, hmid, hself, hl, hr⟩ := ht
      exact ⟨k, rfl, hmid, hself, ihl hl, ihr hr⟩

theorem Tree.mem_loop (hb : b ∈ (t.loop id step).1.leaves) :
    b ∈ t.leaves ∨ b ∈ (step (t.leafAt id)).tree.leaves := by
  induction t with
  | leaf b' =>
      rw [Tree.leaf_loop] at hb
      exact .inr hb
  | node l mid r ihl ihr =>
      rw [Tree.loop] at hb
      rw [Tree.leafAt, leaves, List.mem_append]
      split at hb
      case isTrue h =>
          rw [if_pos h]
          rcases List.mem_append.mp hb with hb | hb
          · exact (ihl hb).imp_left .inl
          · exact .inl (.inr hb)
      case isFalse h =>
          rw [if_neg h]
          rcases List.mem_append.mp hb with hb | hb
          · exact .inl (.inl hb)
          · exact (ihr hb).imp_left .inr

theorem Tree.mem_mapLeaves {f : Bucket → Bucket} (hb : b ∈ (t.mapLeaves f).leaves) :
    ∃ c ∈ t.leaves, b = f c := by
  induction t with
  | leaf c => exact ⟨c, by simp [leaves], by simpa [Tree.mapLeaves, leaves] using hb⟩
  | node l mid r ihl ihr =>
      rcases List.mem_append.mp hb with hb | hb
      · obtain ⟨c, hc, h⟩ := ihl hb
        exact ⟨c, List.mem_append.mpr (.inl hc), h⟩
      · obtain ⟨c, hc, h⟩ := ihr hb
        exact ⟨c, List.mem_append.mpr (.inr hc), h⟩

-- A bucket that may be split has more than one id.
theorem Bucket.Laid.splittable (hb : b.Laid a k) (h : splittable self b = true) :
    ∃ j, k = j + 1 := by
  cases k with
  | succ j => exact ⟨j, rfl⟩
  | zero =>
      have heq : b.lo = b.hi := by
        have := hb.1
        have := hb.2
        refine BitVec.eq_of_toNat_eq ?_
        omega
      simp [Kademlia.splittable, distance, heq] at h

theorem Bucket.Laid.split (hb : b.Laid a (k + 1)) :
    (Kademlia.split b.lo b.hi).toNat + 1 = (2 * a + 1) * 2 ^ k ∧
      (succ (Kademlia.split b.lo b.hi)).toNat = (2 * a + 1) * 2 ^ k := by
  obtain ⟨hlo, hhi⟩ := hb
  have hpos := Nat.two_pow_pos k
  have hlt := b.hi.isLt
  have h1 : a * 2 ^ (k + 1) = 2 * (a * 2 ^ k) := by ring
  have h2 : (a + 1) * 2 ^ (k + 1) = 2 * (a * 2 ^ k) + 2 * 2 ^ k := by ring
  have h3 : (2 * a + 1) * 2 ^ k = 2 * (a * 2 ^ k) + 2 ^ k := by ring
  have hsplit : (Kademlia.split b.lo b.hi).toNat = 2 * (a * 2 ^ k) + 2 ^ k - 1 := by
    rw [Kademlia.split, BitVec.toNat_ofNat, Nat.mod_eq_of_lt] <;> omega
  refine ⟨by omega, ?_⟩
  rw [succ, BitVec.toNat_ofNat, Nat.mod_eq_of_lt] <;> omega

theorem Bucket.Laid.splitBucket {f : List Node → Int} (hb : b.Laid a k)
    (h : Kademlia.splittable self b = true) : (splitBucket f b).Laid self a k := by
  obtain ⟨j, rfl⟩ := hb.splittable h
  have hs := hb.split
  refine ⟨j, rfl, hs.1, fun b' hb' => (hb.splittable_eq hb').trans h, ⟨?_, hs.1⟩, ⟨hs.2, ?_⟩⟩
  · rw [hb.1]
    ring
  · show b.hi.toNat + 1 = _
    rw [hb.2]
    ring

theorem updateLeaf_laid {now : Int} {st : Status} {new : Node} (hb : b.Laid a k) :
    (updateLeaf now self st new b).tree.Laid self a k := by
  unfold updateLeaf
  split
  · exact hb
  split
  · exact hb
  split
  · exact hb
  split
  · split
    case isTrue h => exact Bucket.Laid.splitBucket (b := { b with nodes := _ }) (f := fun _ => _) hb h
    case isFalse => exact hb
  · exact hb

theorem insertLeaf_laid {new : Node} (hb : b.Laid a k) :
    (insertLeaf self new b).tree.Laid self a k := by
  unfold insertLeaf
  split
  · exact hb
  split
  · exact hb
  split
  case isTrue h => exact hb.splitBucket h
  case isFalse => exact hb

theorem Tree.Laid.passes {fuel : Nat} (ht : t.Laid self a k)
    (hstep : ∀ b a k, b.Laid a k → (step b).tree.Laid self a k) :
    (t.passes id step fuel).1.Laid self a k := by
  induction fuel generalizing t with
  | zero => exact ht
  | succ fuel ih =>
      have hl : (t.loop id step).1.Laid self a k := ht.loop hstep
      rw [Tree.passes]
      split
      case h_1 t' heq => exact ih (by simpa [heq] using hl)
      case h_2 t' r heq => simpa [heq] using hl

def Table.Laid (t : Table) : Prop := t.root.Laid t.self 0 160

theorem Table.Laid.update {t : Table} {now : Int} {st : Status} {id : Id} {data : Addr}
    (ht : t.Laid) : (t.update now st id data).1.Laid := by
  unfold Table.update
  split
  · exact ht
  · exact Tree.Laid.passes ht fun _ _ _ => updateLeaf_laid

theorem Table.Laid.insertNode {t : Table} {node : Node} (ht : t.Laid) :
    (t.insertNode node).Laid :=
  Tree.Laid.passes ht fun _ _ _ => insertLeaf_laid

theorem State.table_update (s : State) (now : Int) (st : Status) (id : Id) (data : Addr) :
    (s.update now st id data).table = (s.table.update now st id data).1 := by
  unfold State.update
  split <;> simp_all

theorem Table.Laid.mark {s : State} {ref : Nat} {now : Int} {st : Status} (hs : s.table.Laid) :
    (s.mark ref now st).table.Laid :=
  Tree.Laid.mapLeaves hs fun _ => ⟨rfl, rfl⟩

theorem Table.Laid.touch {s : State} {lo hi : Id} {now : Int} (hs : s.table.Laid) :
    (s.touch lo hi now).table.Laid :=
  Tree.Laid.mapLeaves hs fun b => by split <;> exact ⟨rfl, rfl⟩

theorem Table.Laid.answered {s : State} {now : Int} {k ref : Nat} {r : Retry} {res : Bool}
    (hs : s.table.Laid) : (s.answered now k r ref res).table.Laid :=
  Table.Laid.mark (s := { s with retries := _ }) hs

theorem Table.Laid.answer {s : State} {now : Int} {k ref : Nat} {res : Bool}
    (hs : s.table.Laid) : (s.answer now k ref res).table.Laid := by
  unfold State.answer
  split
  · exact hs
  · split
    · rw [State.table_update]
      exact hs.answered.touch.update
    · exact hs.answered

theorem Table.Laid.create (now : Int) (self : Id) : (Table.create now self).Laid := by
  refine ⟨by simp, ?_⟩
  show (BitVec.allOnes 160).toNat + 1 = (0 + 1) * 2 ^ 160
  simp

-- In every run the buckets are aligned pieces that fill the id space.
theorem Reachable.laid {ok : State → Op → Prop} {s : State} (h : Reachable ok s) :
    s.table.Laid := by
  refine Runs.Reach.inv (I := fun s => s.table.Laid) ?_ ?_ h
  · rintro _ ⟨now, self, rfl⟩
    exact .create now self
  · intro s op hs _
    cases op with
    | update now st id data =>
        show (s.update now st id data).table.Laid
        rw [State.table_update]
        exact hs.update
    | insertNode node => exact hs.insertNode
    | refresh now => exact hs
    | answer now k ref res => exact hs.answer

end Mldonkey.Kademlia
