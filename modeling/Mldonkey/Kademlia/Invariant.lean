import Mldonkey.Kademlia.Sound

-- The buckets of a table in every run.
namespace Mldonkey.Kademlia

open HalfOpen

variable {self id : Id} {a k : Nat} {b : Bucket} {t : Tree} {step : Bucket → Pass}
  {ok : Bucket → Prop} {now : Int} {st : Status}

structure Table.Sound (t : Table) : Prop where
  tiles : Tiles 0 (t.root.leaves.map Bucket.range) (2 ^ 160)
  inside : ∀ b ∈ t.root.leaves, ∀ n ∈ b.nodes, inside b n.id = true
  room : ∀ b ∈ t.root.leaves, b.nodes.length ≤ bucketNodes
  ids : (t.allNodes.map (·.id)).Nodup
  addrs : ∀ b ∈ t.root.leaves, (b.nodes.map (·.addr)).Nodup
  foreign : ∀ n ∈ t.allNodes, n.id ≠ t.self

theorem allNodes_loop_perm (acc : List Node) :
    (Table.allNodes.loop acc t).Perm (t.leaves.flatMap (·.nodes) ++ acc) := by
  induction t generalizing acc with
  | leaf b => simp [Table.allNodes.loop, Tree.leaves]
  | node l mid r ihl ihr =>
      rw [Table.allNodes.loop, Tree.leaves, List.flatMap_append, List.append_assoc]
      refine (ihr _).trans (((ihl acc).append_left _).trans ?_)
      exact (List.perm_append_comm_assoc ..)

theorem allNodes_perm (t : Table) : t.allNodes.Perm (t.root.leaves.flatMap (·.nodes)) := by
  have := allNodes_loop_perm (t := t.root) []
  rwa [List.append_nil] at this

-- Buckets that hold what they should have no id in common.
theorem Tree.Laid.nodup (ht : t.Laid self a k) (hb : ∀ b ∈ t.leaves, b.Sound self) :
    ((t.leaves.flatMap (·.nodes)).map (·.id)).Nodup := by
  induction t generalizing a k with
  | leaf b => simpa [Tree.leaves] using (hb b (by simp [Tree.leaves])).ids
  | node l mid r ihl ihr =>
      obtain ⟨k, rfl, -, -, hl, hr⟩ := ht
      simp only [Tree.leaves, List.mem_append] at hb
      rw [Tree.leaves, List.flatMap_append, List.map_append, List.nodup_append]
      refine ⟨ihl hl fun b h => hb b (.inl h), ihr hr fun b h => hb b (.inr h), ?_⟩
      intro x hx y hy hxy
      obtain ⟨n, hn, rfl⟩ := List.mem_map.mp hx
      obtain ⟨m, hm, rfl⟩ := List.mem_map.mp hy
      obtain ⟨c, hc, hnc⟩ := List.mem_flatMap.mp hn
      obtain ⟨d, hd, hmd⟩ := List.mem_flatMap.mp hm
      have h1 := hl.inside_bounds hc ((hb c (.inl hc)).inside n hnc)
      have h2 := hr.inside_bounds hd ((hb d (.inr hd)).inside m hmd)
      rw [hxy] at h1
      omega

theorem Table.Laid.sound {t : Table} (ht : t.Laid)
    (hb : ∀ b ∈ t.root.leaves, b.Sound t.self) : t.Sound where
  tiles := by simpa using Tree.Laid.tiles ht
  inside := fun b h => (hb b h).inside
  room := fun b h => (hb b h).room
  ids := ((allNodes_perm t).map _).nodup_iff.mpr (Tree.Laid.nodup ht hb)
  addrs := fun b h => (hb b h).addrs
  foreign := fun n hn => by
    obtain ⟨b, hbt, hnb⟩ := mem_allNodes.mp hn
    exact (hb b hbt).foreign n hnb

-- All leaves that the passes over a tree come to meet a condition.
def Tree.Meets (id : Id) (step : Bucket → Pass) (ok : Bucket → Prop) : Nat → Tree → Prop
  | 0, _ => True
  | fuel + 1, t =>
      ok (t.leafAt id) ∧ ((t.loop id step).2 = none → (t.loop id step).1.Meets id step ok fuel)

theorem Tree.Laid.passes_sound {fuel : Nat} (ht : t.Laid self a k) (hid : id.toNat / 2 ^ k = a)
    (hb : ∀ b ∈ t.leaves, b.Sound self) (hm : t.Meets id step ok fuel)
    (hlaid : ∀ b a k, b.Laid a k → (step b).tree.Laid self a k)
    (hsound : ∀ b a k, b.Laid a k → b.Sound self → Kademlia.inside b id = true → ok b →
      ∀ c ∈ (step b).tree.leaves, c.Sound self) :
    ∀ b ∈ (t.passes id step fuel).1.leaves, b.Sound self := by
  induction fuel generalizing t with
  | zero => exact hb
  | succ fuel ih =>
      obtain ⟨hok, hnext⟩ := hm
      have hl : (t.loop id step).1.Laid self a k := ht.loop hlaid
      have hs : ∀ b ∈ (t.loop id step).1.leaves, b.Sound self := by
        intro b hbl
        rcases Tree.mem_loop hbl with hbl | hbl
        · exact hb b hbl
        · obtain ⟨c, j, hc, -⟩ := ht.leafAt hid
          exact hsound _ c j hc (hb _ (t.leafAt_mem id)) (ht.inside_leafAt hid) hok b hbl
      rw [Tree.passes]
      split
      case h_1 t' heq =>
          rw [heq] at hl hs hnext
          exact ih hl hs (hnext rfl)
      case h_2 t' r heq =>
          rw [heq] at hs
          exact hs

instance (b : Bucket) (id : Id) (addr : Addr) : Decidable (b.Clash id addr) := by
  unfold Bucket.Clash
  infer_instance

instance (b : Bucket) : Decidable b.MidFree := by
  unfold Bucket.MidFree
  infer_instance

instance : (p : Pass) → Decidable p.Splits
  | .nothing _ _ => isFalse (by simp [Pass.Splits])
  | .new t => isTrue ⟨t, rfl⟩

instance decidableMeets [DecidablePred ok] :
    (fuel : Nat) → (t : Tree) → Decidable (t.Meets id step ok fuel)
  | 0, _ => isTrue trivial
  | fuel + 1, t =>
      have := decidableMeets fuel (t.loop id step).1
      inferInstanceAs (Decidable (_ ∧ (_ → _)))

-- The id of an update does not come with the address of another node of its
-- bucket, and no bucket is split at the id of one of its nodes.
def Table.UpdateFits (t : Table) (now : Int) (st : Status) (id : Id) (data : Addr) : Prop :=
  id ≠ t.self → t.root.Meets id (updateLeaf now t.self st (t.makeNode now st id data))
    (fun b => ¬ b.Clash id data ∧
      ((updateLeaf now t.self st (t.makeNode now st id data) b).Splits → b.MidFree)) splitFuel

-- The node is not the table's own one, and no bucket is split at the id of one
-- of its nodes.
def Table.InsertFits (t : Table) (node : Node) : Prop :=
  node.id ≠ t.self ∧ t.root.Meets node.id (insertLeaf t.self node)
    (fun b => (insertLeaf t.self node b).Splits → b.MidFree) splitFuel

instance (t : Table) (now : Int) (st : Status) (id : Id) (data : Addr) :
    Decidable (t.UpdateFits now st id data) := by
  unfold Table.UpdateFits
  infer_instance

instance (t : Table) (node : Node) : Decidable (t.InsertFits node) := by
  unfold Table.InsertFits
  infer_instance

def Table.Kept (t : Table) : Prop := ∀ b ∈ t.root.leaves, b.Sound t.self

theorem Table.Kept.update {t : Table} {data : Addr} (ht : t.Laid) (hb : t.Kept)
    (hfits : t.UpdateFits now st id data) : (t.update now st id data).1.Kept := by
  unfold Table.update
  split
  case isTrue => exact hb
  case isFalse hself =>
      refine Tree.Laid.passes_sound ht (Table.Laid.in_space id) hb (hfits hself)
        (fun _ _ _ => updateLeaf_laid) ?_
      intro b a k hlaid hb hin ⟨hclash, hmid⟩
      exact updateLeaf_sound hb hlaid hin hself hclash hmid

theorem Table.Kept.insertNode {t : Table} {node : Node} (ht : t.Laid) (hb : t.Kept)
    (hfits : t.InsertFits node) : (t.insertNode node).Kept := by
  refine Tree.Laid.passes_sound ht (Table.Laid.in_space node.id) hb hfits.2
    (fun _ _ _ => insertLeaf_laid) ?_
  intro b a k hlaid hb hin hmid
  exact insertLeaf_sound hb hlaid hin hfits.1 hmid

theorem Table.Kept.mapLeaves {t : Table} {f : Bucket → Bucket} (hb : t.Kept)
    (hf : ∀ b, b.Sound t.self → (f b).Sound t.self) :
    { t with root := t.root.mapLeaves f }.Kept := by
  intro b hbt
  obtain ⟨c, hc, rfl⟩ := Tree.mem_mapLeaves hbt
  exact hf c (hb c hc)

theorem Table.Kept.answered {s : State} {k ref : Nat} {r : Retry} {res : Bool}
    (hb : s.table.Kept) : (s.answered now k r ref res).table.Kept := by
  refine Table.Kept.mapLeaves hb fun b hb => hb.keys ?_
  rw [List.map_map]
  refine List.map_congr_left fun n _ => ?_
  simp only [Function.comp]
  split <;> rfl

theorem Table.Kept.touch {s : State} {lo hi : Id} (hb : s.table.Kept) :
    (s.touch lo hi now).table.Kept := by
  refine Table.Kept.mapLeaves hb fun b hb => ?_
  split
  · exact hb.touch now
  · exact hb

-- An operation, with the update that the last answer to a ping starts again.
def Op.Fits (s : State) : Op → Prop
  | .update now st id data => s.table.UpdateFits now st id data
  | .insertNode node => s.table.InsertFits node
  | .refresh _ => True
  | .answer now k ref res => ∀ r, s.retries[k]? = some r → r.count - 1 = 0 →
      ((s.answered now k r ref res).touch r.lo r.hi now).table.UpdateFits now r.st r.id r.addr

instance (s : State) : (op : Op) → Decidable (op.Fits s)
  | .update now st id data => inferInstanceAs (Decidable (s.table.UpdateFits now st id data))
  | .insertNode node => inferInstanceAs (Decidable (s.table.InsertFits node))
  | .refresh _ => isTrue trivial
  | .answer now k ref res => inferInstanceAs (Decidable (∀ r ∈ s.retries[k]?, r.count - 1 = 0 →
      ((s.answered now k r ref res).touch r.lo r.hi now).table.UpdateFits now r.st r.id r.addr))

theorem Table.Kept.answer {s : State} {k ref : Nat} {res : Bool} (hs : s.table.Laid)
    (hb : s.table.Kept) (hfits : (Op.answer now k ref res).Fits s) :
    (s.answer now k ref res).table.Kept := by
  unfold State.answer
  split
  · exact hb
  case h_2 r hr =>
      split
      case isTrue hcount =>
          rw [State.table_update]
          exact hb.answered.touch.update hs.answered.touch (hfits r hr hcount)
      case isFalse => exact hb.answered

theorem Table.Kept.create (now : Int) (self : Id) : (Table.create now self).Kept := by
  intro b hb
  obtain rfl := List.mem_singleton.mp hb
  exact ⟨by simp, Nat.zero_le _, by simp, by simp, by simp⟩

theorem Reachable.kept {s : State} (h : Reachable (fun s op => op.Fits s) s) : s.table.Kept := by
  refine Runs.Reach.inv_of (I := fun s => s.table.Kept) (fun _ => Reachable.laid) ?_ ?_ h
  · rintro _ ⟨now, self, rfl⟩
    exact .create now self
  · intro s op hs hb hfits
    cases op with
    | update now st id data =>
        show (s.update now st id data).table.Kept
        rw [State.table_update]
        exact hb.update hs hfits
    | insertNode node => exact Table.Kept.insertNode hs hb hfits
    | refresh now => exact hb
    | answer now k ref res => exact Table.Kept.answer hs hb hfits

theorem reachable_sound {s : State} (h : Reachable (fun s op => op.Fits s) s) : s.table.Sound :=
  h.laid.sound h.kept

-- The ninth update splits the root bucket, none of whose ids is its split point.
theorem reachable_sound_ninth : ninth.table.Sound ∧ ninth.table.root.leaves.length = 2 := by
  refine ⟨reachable_sound ((Runs.Reach.start (start_create 0 0)).run ?_), by decide⟩
  decide

-- The first id is the split point of the whole space, which belongs to the
-- lower half but is kept in the upper one.
theorem reachable_sound_false :
    ¬ ∀ s, Reachable (fun _ _ => True) s → s.table.Sound := by
  intro h
  have hs := h _ (Runs.Reach.foldl (.start (start_create 0 0))
    (updates [BitVec.ofNat 160 (2 ^ 159 - 1), 1, 2, 3, 4, 5, 6, 7, 8]) fun _ _ _ => trivial)
  exact absurd hs.inside (by decide)

end Mldonkey.Kademlia
