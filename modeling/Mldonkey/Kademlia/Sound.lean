import Mldonkey.Kademlia.Shape

-- What find_node returns, in the XOR metric.
namespace Mldonkey.Kademlia

open HalfOpen

variable {self id h x y : Id} {a k : Nat} {b : Bucket} {t : Tree}

theorem mem_allNodes_loop {n : Node} {acc : List Node} :
    n ∈ Table.allNodes.loop acc t ↔ (∃ b ∈ t.leaves, n ∈ b.nodes) ∨ n ∈ acc := by
  induction t generalizing acc with
  | leaf b => simp [Table.allNodes.loop, Tree.leaves]
  | node l mid r ihl ihr =>
      rw [Table.allNodes.loop, ihr, ihl, Tree.leaves]
      simp only [List.mem_append, or_and_right, exists_or]
      rw [or_left_comm, or_assoc]

theorem mem_allNodes {t : Table} {n : Node} :
    n ∈ t.allNodes ↔ ∃ b ∈ t.root.leaves, n ∈ b.nodes := by
  simp [Table.allNodes, mem_allNodes_loop]

theorem Tree.Laid.inside_bounds (ht : t.Laid self a k) (hb : b ∈ t.leaves)
    (h : inside b x = true) : x.toNat / 2 ^ k = a := by
  have hpos := Nat.two_pow_pos k
  have hcov : Covers (t.leaves.map Bucket.range) x.toNat := by
    refine ⟨_, List.mem_map_of_mem hb, ?_⟩
    simp only [inside, BitVec.lt_def, decide_eq_true_eq, not_or, not_lt] at h
    show b.lo.toNat ≤ x.toNat ∧ x.toNat < b.hi.toNat + 1
    omega
  rw [ht.tiles.covers] at hcov
  rw [Nat.div_eq_iff hpos]
  have : (a + 1) * 2 ^ k = a * 2 ^ k + 2 ^ k := by ring
  omega

theorem Tree.Laid.leafAt_eq (ht : t.Laid self a k) (hx : x.toNat / 2 ^ k = a)
    (hy : y.toNat / 2 ^ k = a) (h : inside (t.leafAt x) y = true) : t.leafAt y = t.leafAt x := by
  induction t generalizing a k with
  | leaf b => rfl
  | node l mid r ihl ihr =>
      obtain ⟨k, rfl, hmid, -, hl, hr⟩ := ht
      have hx' := le_mid_iff hmid hx
      have hy' := le_mid_iff hmid hy
      rw [Tree.leafAt] at h ⊢
      by_cases hle : x ≤ mid
      · rw [if_pos hle] at h
        have hyl := hl.inside_bounds (l.leafAt_mem x) h
        have hyle : y ≤ mid := by
          by_contra hgt
          have := hy'.2 hgt
          omega
        rw [if_pos hyle, Tree.leafAt, if_pos hle]
        exact ihl hl (hx'.1 hle) hyl h
      · rw [if_neg hle] at h
        have hyr := hr.inside_bounds (r.leafAt_mem x) h
        have hyle : ¬ y ≤ mid := by
          intro hle'
          have := hy'.1 hle'
          omega
        rw [if_neg hyle, Tree.leafAt, if_neg hle]
        exact ihr hr (hx'.2 hle) hyr h

theorem Table.Laid.in_space (id : Id) : id.toNat / 2 ^ 160 = 0 :=
  Nat.div_eq_of_lt id.isLt

-- Every node lies in the leaf that its id routes to.
def Table.Routed (t : Table) : Prop :=
  ∀ b ∈ t.root.leaves, ∀ n ∈ b.nodes, t.root.leafAt n.id = b

instance (t : Table) : Decidable t.Routed := by
  unfold Table.Routed
  infer_instance

theorem Table.Laid.closest {t : Table} {n m : Node} (ht : t.Laid) (hr : t.Routed)
    (hn : n ∈ t.findNode h) (hm : m ∈ t.allNodes) (hmn : m ∉ t.findNode h) :
    distance h n.id < distance h m.id := by
  obtain ⟨c, j, hb, hj⟩ := Tree.Laid.leafAt ht (Table.Laid.in_space h)
  -- The nodes of the leaf share all bits but the last `j` with the target.
  have hclose : distance h n.id < 2 ^ j := by
    have hin := Tree.Laid.inside_leafAt ht (Table.Laid.in_space n.id)
    rw [hr _ (t.root.leafAt_mem h) n hn, hb.inside_iff] at hin
    rw [distance_lt_iff, hj, hin]
  have hfar : ¬ distance h m.id < 2 ^ j := by
    intro hlt
    rw [distance_lt_iff, hj] at hlt
    have hin : inside (t.root.leafAt h) m.id = true := hb.inside_iff.mpr hlt.symm
    obtain ⟨b, hbt, hmb⟩ := mem_allNodes.mp hm
    have heq := Tree.Laid.leafAt_eq ht (Table.Laid.in_space h) (Table.Laid.in_space m.id) hin
    rw [hr b hbt m hmb] at heq
    exact hmn (by rw [Table.findNode, ← heq]; exact hmb)
  omega

theorem start_create (now : Int) (self : Id) :
    Start { table := .create now self, retries := [] } :=
  ⟨now, self, rfl⟩

-- Nodes heard of at one time, each from an address of its own.
def updates (ids : List Id) : List Op :=
  ids.map fun id => .update 0 .good id ⟨id.setWidth 32, 6881⟩

-- In every table that runs reach with each node where its id routes to,
-- find_node returns the nodes closest to the target.
theorem findNode_closest {s : State} {n m : Node} (hs : Reachable (fun _ _ => True) s)
    (hr : s.table.Routed) (hn : n ∈ s.table.findNode h) (hm : m ∈ s.table.allNodes)
    (hmn : m ∉ s.table.findNode h) : distance h n.id < distance h m.id :=
  hs.laid.closest hr hn hm hmn

-- The ninth node is alone in the upper half of the space.
def ninth : State := (updates [1, 2, 3, 4, 5, 6, 7, 8, BitVec.ofNat 160 (2 ^ 159)]).foldl
  (fun s op => op.next s) { table := .create 0 0, retries := [] }

theorem findNode_closest_ninth :
    distance (BitVec.ofNat 160 (2 ^ 159 + 5)) (BitVec.ofNat 160 (2 ^ 159)) <
      distance (BitVec.ofNat 160 (2 ^ 159 + 5)) 1 := by
  refine findNode_closest (s := ninth) (n := ⟨8, BitVec.ofNat 160 (2 ^ 159), ⟨0, 6881⟩, 0, .good⟩)
    (m := ⟨0, 1, ⟨1, 6881⟩, 0, .good⟩) ?_ ?_ ?_ ?_ ?_
  · exact Runs.Reach.foldl (.start (start_create 0 0)) _ fun _ _ _ => trivial
  all_goals decide

end Mldonkey.Kademlia

-- The buckets of a table hold what they should.
namespace Mldonkey.Kademlia

open HalfOpen

variable {self id : Id} {a k : Nat} {b b' : Bucket} {t : Tree} {step : Bucket → Pass}
  {now : Int} {st : Status} {new n : Node} {ns : List Node}

structure Bucket.Sound (own : Id) (b : Bucket) : Prop where
  inside : ∀ n ∈ b.nodes, inside b n.id = true
  room : b.nodes.length ≤ bucketNodes
  ids : (b.nodes.map (·.id)).Nodup
  addrs : (b.nodes.map (·.addr)).Nodup
  foreign : ∀ n ∈ b.nodes, n.id ≠ own

def Node.key (n : Node) : Id × Addr := (n.id, n.addr)

theorem map_id_key (ns : List Node) : ns.map (·.id) = (ns.map Node.key).map Prod.fst := by
  simp [Node.key]

theorem map_addr_key (ns : List Node) : ns.map (·.addr) = (ns.map Node.key).map Prod.snd := by
  simp [Node.key]

theorem mem_of_key {ns ns' : List Node} (h : ns'.map Node.key = ns.map Node.key) (hn : n ∈ ns') :
    ∃ m ∈ ns, m.id = n.id ∧ m.addr = n.addr := by
  have hk : n.key ∈ ns.map Node.key := h ▸ List.mem_map_of_mem hn
  obtain ⟨m, hm, he⟩ := List.mem_map.mp hk
  exact ⟨m, hm, congrArg Prod.fst he, congrArg Prod.snd he⟩

-- Times and statuses do not matter.
theorem Bucket.Sound.congr (hb : b.Sound self) (hk : b'.nodes.map Node.key = b.nodes.map Node.key)
    (hlo : b'.lo = b.lo) (hhi : b'.hi = b.hi) : b'.Sound self where
  inside := by
    intro n hn
    obtain ⟨m, hm, he, -⟩ := mem_of_key hk hn
    have := hb.inside m hm
    rwa [Kademlia.inside, hlo, hhi, ← he]
  room := by
    have := congrArg List.length hk
    simp only [List.length_map] at this
    rw [this]
    exact hb.room
  ids := by
    rw [map_id_key, hk, ← map_id_key]
    exact hb.ids
  addrs := by
    rw [map_addr_key, hk, ← map_addr_key]
    exact hb.addrs
  foreign := by
    intro n hn
    obtain ⟨m, hm, he, -⟩ := mem_of_key hk hn
    exact he ▸ hb.foreign m hm

theorem Bucket.Sound.touch (hb : b.Sound self) (now : Int) : (b.touch now).Sound self := hb.congr rfl rfl rfl

-- A node with a new id and a new address comes into a bucket.
theorem Bucket.Sound.cons (new : Node) (hb : b.Sound self) (hroom : b.nodes.length < bucketNodes)
    (hin : Kademlia.inside b new.id = true) (hself : new.id ≠ self)
    (hnew : ∀ n ∈ b.nodes, n.id ≠ new.id ∧ n.addr ≠ new.addr) :
    { b with nodes := new :: b.nodes }.Sound self where
  inside := List.forall_mem_cons.mpr ⟨hin, hb.inside⟩
  room := hroom
  ids := by
    rw [List.map_cons, List.nodup_cons]
    exact ⟨by simpa using fun n hn => (hnew n hn).1, hb.ids⟩
  addrs := by
    rw [List.map_cons, List.nodup_cons]
    exact ⟨by simpa using fun n hn => (hnew n hn).2, hb.addrs⟩
  foreign := List.forall_mem_cons.mpr ⟨hself, hb.foreign⟩

-- Some of the nodes go.
theorem Bucket.Sound.sublist (hb : b.Sound self) (hsub : ns.Sublist b.nodes) :
    { b with nodes := ns }.Sound self where
  inside := fun n hn => hb.inside n (hsub.subset hn)
  room := hsub.length_le.trans hb.room
  ids := hb.ids.sublist (hsub.map _)
  addrs := hb.addrs.sublist (hsub.map _)
  foreign := fun n hn => hb.foreign n (hsub.subset hn)

theorem Bucket.Sound.perm (hb : b.Sound self) (hp : ns.Perm b.nodes) :
    { b with nodes := ns }.Sound self where
  inside := fun n hn => hb.inside n (hp.mem_iff.mp hn)
  room := hp.length_eq ▸ hb.room
  ids := (hp.map _).nodup_iff.mpr hb.ids
  addrs := (hp.map _).nodup_iff.mpr hb.addrs
  foreign := fun n hn => hb.foreign n (hp.mem_iff.mp hn)

-- One node takes the place of another.
theorem Bucket.Sound.replace (new : Node) {pre post : List Node} (hb : b.Sound self)
    (he : b.nodes = pre ++ n :: post) (hin : Kademlia.inside b new.id = true)
    (hself : new.id ≠ self)
    (hnew : ∀ m ∈ pre ++ post, m.id ≠ new.id ∧ m.addr ≠ new.addr) :
    { b with nodes := pre ++ new :: post }.Sound self := by
  have hsub : (pre ++ post).Sublist b.nodes := by
    rw [he]
    exact (List.sublist_cons_self n post).append_left pre
  have hlen : (pre ++ post).length < bucketNodes := by
    have := hb.room
    rw [he] at this
    simp only [List.length_append, List.length_cons] at this ⊢
    omega
  have hcons := (hb.sublist hsub).cons new hlen hin hself hnew
  exact hcons.perm List.perm_middle

-- The id of one node of the bucket comes with the address of another one.
def Bucket.Clash (b : Bucket) (id : Id) (addr : Addr) : Prop :=
  (∃ n ∈ b.nodes, n.id = id ∧ n.addr ≠ addr) ∧ ∃ n ∈ b.nodes, n.addr = addr ∧ n.id ≠ id

theorem refreshNodes_some {ns' : List Node} (h : refreshNodes now st new ns = some ns') :
    ∃ pre n n' post, ns = pre ++ n :: post ∧ ns' = pre ++ n' :: post ∧
      (n.id = new.id ∨ n.addr = new.addr) ∧ n'.id = new.id ∧ n'.addr = new.addr := by
  induction ns generalizing ns' with
  | nil => simp [refreshNodes] at h
  | cons n ns ih =>
      rw [refreshNodes] at h
      split at h
      case isTrue hboth =>
          obtain rfl := Option.some.inj h
          exact ⟨[], n, n.mark now st, ns, rfl, rfl, .inl hboth.1, hboth.1, hboth.2⟩
      case isFalse =>
          split at h
          case isTrue hone =>
              obtain rfl := Option.some.inj h
              exact ⟨[], n, new, ns, rfl, rfl, hone, rfl, rfl⟩
          case isFalse =>
              obtain ⟨ns'', hns, rfl⟩ := Option.map_eq_some_iff.mp h
              obtain ⟨pre, m, m', post, rfl, rfl, hm⟩ := ih hns
              exact ⟨n :: pre, m, m', post, rfl, rfl, hm⟩

theorem refreshNodes_none (h : refreshNodes now st new ns = none) :
    ∀ n ∈ ns, n.id ≠ new.id ∧ n.addr ≠ new.addr := by
  induction ns with
  | nil => simp
  | cons n ns ih =>
      rw [refreshNodes] at h
      split at h
      · simp at h
      split at h
      · simp at h
      case isFalse hone =>
          rw [List.forall_mem_cons]
          exact ⟨not_or.mp hone, ih (Option.map_eq_none_iff.mp h)⟩

@[simp] theorem expire_key : (n.expire now).key = n.key := by
  unfold Node.expire
  split <;> rfl

theorem replaceBad_true (h : (replaceBad now new ns).2 = true) :
    ∃ pre n post, ns = pre ++ n :: post ∧
      (replaceBad now new ns).1.map Node.key = (pre ++ new :: post).map Node.key := by
  induction ns with
  | nil => simp [replaceBad] at h
  | cons n ns ih =>
      rw [replaceBad] at h ⊢
      split
      · exact ⟨[], n, ns, rfl, rfl⟩
      case isFalse hbad =>
          rw [if_neg hbad] at h
          obtain ⟨pre, m, post, rfl, hk⟩ := ih h
          refine ⟨n :: pre, m, post, rfl, ?_⟩
          rw [List.map_cons, hk, expire_key]
          rfl

theorem replaceBad_false (now : Int) (new : Node) (h : (replaceBad now new ns).2 = false) :
    (replaceBad now new ns).1.map Node.key = ns.map Node.key := by
  induction ns with
  | nil => rfl
  | cons n ns ih =>
      rw [replaceBad] at h ⊢
      split
      case isTrue hbad => simp [if_pos hbad] at h
      case isFalse hbad =>
          rw [if_neg hbad] at h
          rw [List.map_cons, ih h, expire_key, List.map_cons]

-- No node of the bucket has the split point as its id.
def Bucket.MidFree (b : Bucket) : Prop := ∀ n ∈ b.nodes, n.id ≠ split b.lo b.hi

theorem Bucket.Sound.split {f : List Node → Int} (hb : b.Sound self) (hlaid : b.Laid a k)
    (hs : splittable self b = true) (hmid : b.MidFree) :
    ∀ c ∈ (splitBucket f b).leaves, c.Sound self := by
  obtain ⟨j, rfl⟩ := hlaid.splittable hs
  obtain ⟨hm, hsucc⟩ := hlaid.split
  have hin (n) (hn : n ∈ b.nodes) : b.lo.toNat ≤ n.id.toNat ∧ n.id.toNat ≤ b.hi.toNat := by
    have := hb.inside n hn
    simp only [Kademlia.inside, BitVec.lt_def, decide_eq_true_eq, not_or, not_lt] at this
    omega
  simp only [splitBucket, Tree.leaves, List.partition_eq_filter_filter, List.mem_append,
    List.mem_singleton]
  rintro c (rfl | rfl)
  · have hsub := hb.sublist (List.filter_sublist (p := fun n => n.id < Kademlia.split b.lo b.hi))
    refine { hsub with inside := fun n hn => ?_ }
    obtain ⟨hn, hlt⟩ := List.mem_filter.mp hn
    have := hin n hn
    simp only [BitVec.lt_def, decide_eq_true_eq] at hlt
    simp only [Kademlia.inside, BitVec.lt_def, decide_eq_true_eq, not_or, not_lt]
    omega
  · have hsub := hb.sublist
      (List.filter_sublist (p := not ∘ fun n : Node => decide (n.id < Kademlia.split b.lo b.hi)))
    refine { hsub with inside := fun n hn => ?_ }
    obtain ⟨hn, hlt⟩ := List.mem_filter.mp hn
    have := hin n hn
    have hne := hmid n hn
    rw [Ne, ← BitVec.toNat_inj] at hne
    simp only [Function.comp, BitVec.lt_def, Bool.not_eq_true', decide_eq_false_iff_not, not_lt]
      at hlt
    simp only [Kademlia.inside, BitVec.lt_def, decide_eq_true_eq, not_or, not_lt]
    omega

def Pass.Splits (p : Pass) : Prop := ∃ t, p = .new t

theorem Bucket.Sound.keys (hb : b.Sound self) (hk : ns.map Node.key = b.nodes.map Node.key) :
    { b with nodes := ns }.Sound self :=
  hb.congr hk rfl rfl

theorem Bucket.MidFree.keys (hb : b.MidFree) (hk : ns.map Node.key = b.nodes.map Node.key) :
    { b with nodes := ns }.MidFree := by
  intro n hn
  obtain ⟨m, hm, he, -⟩ := mem_of_key hk hn
  exact he ▸ hb m hm

theorem updateLeaf_sound (hb : b.Sound self) (hlaid : b.Laid a k)
    (hin : inside b new.id = true) (hself : new.id ≠ self) (hclash : ¬ b.Clash new.id new.addr)
    (hmid : (updateLeaf now self st new b).Splits → b.MidFree) :
    ∀ c ∈ (updateLeaf now self st new b).tree.leaves, c.Sound self := by
  unfold updateLeaf at hmid ⊢
  cases hr : refreshNodes now st new b.nodes with
  | some ns =>
      obtain ⟨pre, n, n', post, he, rfl, hone, hid, haddr⟩ := refreshNodes_some hr
      have hnodup := hb.ids
      have hnodup' := hb.addrs
      rw [he, List.map_append, List.map_cons, List.nodup_middle, List.nodup_cons] at hnodup hnodup'
      simp only [← List.map_append, List.mem_map, not_exists, not_and] at hnodup hnodup'
      have hmem (m) (hm : m ∈ pre ++ post) : m ∈ b.nodes := by
        rw [he]
        simp only [List.mem_append, List.mem_cons] at hm ⊢
        tauto
      have hn : n ∈ b.nodes := by simp [he]
      -- A second node with the id or the address would be a clash.
      have hnew : ∀ m ∈ pre ++ post, m.id ≠ n'.id ∧ m.addr ≠ n'.addr := by
        intro m hm
        have h1 := hnodup.1 m hm
        have h2 := hnodup'.1 m hm
        rw [hid, haddr]
        rcases hone with hone | hone
        · rw [hone] at h1
          refine ⟨h1, fun hma => hclash ⟨⟨n, hn, hone, ?_⟩, ⟨m, hmem m hm, hma, h1⟩⟩⟩
          exact hma ▸ Ne.symm h2
        · rw [hone] at h2
          refine ⟨fun hmi => hclash ⟨⟨m, hmem m hm, hmi, h2⟩, ⟨n, hn, hone, ?_⟩⟩, h2⟩
          exact hmi ▸ Ne.symm h1
      have := hb.replace n' he (hid ▸ hin) (hid ▸ hself) hnew
      simpa [Pass.tree, Tree.leaves] using (this.touch now)
  | none =>
      have hnew := refreshNodes_none hr
      simp only [hr] at hmid ⊢
      split
      case isTrue hroom =>
          have hlt : b.nodes.length < bucketNodes := lt_of_le_of_ne hb.room hroom
          have := hb.cons new hlt hin hself hnew
          simpa [Pass.tree, Tree.leaves] using (this.touch now)
      case isFalse hroom =>
          rw [if_neg hroom] at hmid
          cases hbad : replaceBad now new b.nodes with
          | mk ns found =>
              simp only [hbad] at hmid ⊢
              cases found with
              | true =>
                  obtain ⟨pre, n, post, he, hk⟩ := replaceBad_true (by rw [hbad])
                  rw [hbad] at hk
                  have hsub (m) (hm : m ∈ pre ++ post) := hnew m (by
                    rw [he]
                    simp only [List.mem_append, List.mem_cons] at hm ⊢
                    tauto)
                  have := ((hb.replace new he hin hself hsub).keys (b := { b with nodes := _ }) hk).touch now
                  simpa [Pass.tree, Tree.leaves] using this
              | false =>
                  have hk := replaceBad_false now new (by rw [hbad])
                  rw [hbad] at hk
                  dsimp only at hmid ⊢
                  cases hunk : (ns.filter (·.status = .unknown)).reverse with
                  | nil =>
                      simp only [hunk] at hmid ⊢
                      split
                      case isTrue hs =>
                          rw [if_pos hs] at hmid
                          exact (hb.keys hk).split (b := { b with nodes := ns })
                            (f := fun _ => _) hlaid hs ((hmid ⟨_, rfl⟩).keys hk)
                      case isFalse => simpa [Pass.tree, Tree.leaves] using hb.keys hk
                  | cons m unk =>
                      have hmark : (ns.map fun n => if n.status = .unknown then n.mark now .pinged
                          else n).map Node.key = b.nodes.map Node.key := by
                        rw [← hk, List.map_map]
                        refine List.map_congr_left fun n _ => ?_
                        simp only [Function.comp]
                        split <;> rfl
                      simpa [Pass.tree, Tree.leaves] using hb.keys hmark

theorem insertLeaf_sound (hb : b.Sound self) (hlaid : b.Laid a k)
    (hin : inside b new.id = true) (hself : new.id ≠ self)
    (hmid : (insertLeaf self new b).Splits → b.MidFree) :
    ∀ c ∈ (insertLeaf self new b).tree.leaves, c.Sound self := by
  unfold insertLeaf at hmid ⊢
  split
  · simpa [Pass.tree, Tree.leaves] using hb
  case isFalse hany =>
      rw [if_neg hany] at hmid
      have hnew : ∀ n ∈ b.nodes, n.id ≠ new.id ∧ n.addr ≠ new.addr := by
        simpa [not_or] using hany
      split
      case isTrue hroom =>
          have hlt : b.nodes.length < bucketNodes := lt_of_le_of_ne hb.room hroom
          simpa [Pass.tree, Tree.leaves] using hb.cons new hlt hin hself hnew
      case isFalse hroom =>
          rw [if_neg hroom] at hmid
          split
          case isTrue hs => exact hb.split hlaid hs (hmid (by simp [hs, Pass.Splits]))
          case isFalse => simpa [Pass.tree, Tree.leaves] using hb

end Mldonkey.Kademlia
