import Mldonkey.Kademlia.Invariant
import Mldonkey.Kademlia.Saved

-- A tree that is filled again with the nodes of another one.
namespace Mldonkey.Kademlia

open HalfOpen

variable {self id : Id} {a k : Nat} {b : Bucket} {t o l r : Tree} {mid : Id} {y : Node}
  {P rest : List (Id × Addr)}

-- The nodes of a tree in the order in which all_nodes lists them.
def Tree.keys : Tree → List (Id × Addr)
  | leaf b => b.nodes.map Node.key
  | node l _ r => r.keys ++ l.keys

def Tree.nodes (t : Tree) : List Node := t.leaves.flatMap (·.nodes)

theorem allNodes_loop_keys (acc : List Node) :
    (Table.allNodes.loop acc t).map Node.key = t.keys ++ acc.map Node.key := by
  induction t generalizing acc with
  | leaf b => simp [Table.allNodes.loop, Tree.keys]
  | node l mid r ihl ihr => rw [Table.allNodes.loop, ihr, ihl, Tree.keys, List.append_assoc]

theorem allNodes_keys (t : Table) : t.allNodes.map Node.key = t.root.keys := by
  have := allNodes_loop_keys (t := t.root) []
  rwa [List.map_nil, List.append_nil] at this

theorem Tree.mem_keys {x : Id × Addr} (h : x ∈ t.keys) :
    ∃ b ∈ t.leaves, ∃ n ∈ b.nodes, n.key = x := by
  induction t with
  | leaf b =>
      obtain ⟨n, hn, he⟩ := List.mem_map.mp h
      exact ⟨b, by simp [leaves], n, hn, he⟩
  | node l mid r ihl ihr =>
      rw [leaves]
      rcases List.mem_append.mp h with h | h
      · obtain ⟨b, hb, hn⟩ := ihr h
        exact ⟨b, List.mem_append.mpr (.inr hb), hn⟩
      · obtain ⟨b, hb, hn⟩ := ihl h
        exact ⟨b, List.mem_append.mpr (.inl hb), hn⟩

-- A tree from which nodes are taken: each is where it belongs and no bucket
-- has too many.
structure Tree.Source (own : Id) (a k : Nat) (o : Tree) : Prop where
  laid : o.Laid own a k
  inside : ∀ b ∈ o.leaves, ∀ n ∈ b.nodes, Kademlia.inside b n.id = true
  room : ∀ b ∈ o.leaves, b.nodes.length ≤ bucketNodes
  ids : (o.keys.map Prod.fst).Nodup
  addrs : (o.keys.map Prod.snd).Nodup

theorem Tree.Source.region (ho : o.Source self a k) {x : Id × Addr} (h : x ∈ o.keys) :
    x.1.toNat / 2 ^ k = a := by
  obtain ⟨b, hb, n, hn, rfl⟩ := mem_keys h
  exact ho.laid.inside_bounds hb (ho.inside b hb n hn)

theorem Tree.Source.halves (ho : (node l mid r).Source self a k) :
    ∃ j, k = j + 1 ∧ mid.toNat + 1 = (2 * a + 1) * 2 ^ j ∧ l.Source self (2 * a) j ∧
      r.Source self (2 * a + 1) j := by
  obtain ⟨⟨j, rfl, hmid, -, hl, hr⟩, hin, hroom, hids, haddrs⟩ := ho
  simp only [leaves, List.mem_append, keys, List.map_append] at hin hroom hids haddrs
  rw [List.nodup_append] at hids haddrs
  exact ⟨j, rfl, hmid,
    ⟨hl, fun b h => hin b (.inl h), fun b h => hroom b (.inl h), hids.2.1, haddrs.2.1⟩,
    ⟨hr, fun b h => hin b (.inr h), fun b h => hroom b (.inr h), hids.1, haddrs.1⟩⟩

-- A tree that the nodes `P` of the tree `o` were put into and that the nodes
-- `rest` are still to come to. A bucket that waits for more has no nodes but
-- those of its own range; one that is done may have been given the node at the
-- split point below it.
def Tree.Fits : Tree → Tree → List (Id × Addr) → List (Id × Addr) → Prop
  | .leaf b, o, P, rest =>
      P ++ rest = o.keys ∧ (rest ≠ [] → (b.nodes.map Node.key).Nodup ∧
        ∀ n ∈ b.nodes, n.key ∈ P)
  | .node l _ r, .node l' _ r', P, rest =>
      ∃ Pr restr Pl restl, P = Pr ++ Pl ∧ rest = restr ++ restl ∧ (restr ≠ [] → Pl = []) ∧
        r.Fits r' Pr restr ∧ l.Fits l' Pl restl
  | .node _ _ _, .leaf _, _, _ => False

theorem Tree.Fits.keys (h : t.Fits o P rest) : P ++ rest = o.keys := by
  induction t generalizing o P rest with
  | leaf b => exact h.1
  | node l mid r ihl ihr =>
      cases o with
      | leaf b => exact h.elim
      | node l' mid' r' =>
          obtain ⟨Pr, restr, Pl, restl, rfl, rfl, hnil, hr, hl⟩ := h
          rw [Tree.keys, ← ihr hr, ← ihl hl]
          cases restr with
          | nil => simp
          | cons x xs => simp [hnil]

def Tree.depthAt (id : Id) : Tree → Nat
  | leaf _ => 0
  | node l mid r => (if id ≤ mid then l.depthAt id else r.depthAt id) + 1

theorem Tree.Laid.depthAt_le (ht : t.Laid self a k) : t.depthAt id ≤ k := by
  induction t generalizing a k with
  | leaf b => exact Nat.zero_le _
  | node l mid r ihl ihr =>
      obtain ⟨k, rfl, -, -, hl, hr⟩ := ht
      rw [Tree.depthAt]
      split
      · exact Nat.succ_le_succ (ihl hl)
      · exact Nat.succ_le_succ (ihr hr)

-- A full bucket that waits for a node of its range covers more than one bucket
-- of the source.
theorem Tree.Source.split_of_full (ho : o.Source self a k)
    (hfits : (leaf b).Fits o P (y.key :: rest)) (hfull : b.nodes.length = bucketNodes) :
    ∃ l mid r, o = node l mid r := by
  cases o with
  | node l mid r => exact ⟨l, mid, r, rfl⟩
  | leaf c =>
      obtain ⟨hkeys, hb⟩ := hfits
      obtain ⟨hnodup, hsub⟩ := hb (by simp)
      have hle : (b.nodes.map Node.key).length ≤ P.length :=
        (List.subperm_of_subset hnodup fun x hx => by
          obtain ⟨n, hn, rfl⟩ := List.mem_map.mp hx
          exact hsub n hn).length_le
      have hroom := ho.room c (by simp [leaves])
      have := congrArg List.length hkeys
      simp only [List.length_append, List.length_cons, Tree.keys, List.length_map] at this hle
      omega

theorem splitBucket_nodes (change : List Node → Int) (b : Bucket) :
    (splitBucket change b).nodes.Perm b.nodes := by
  simp only [splitBucket, Tree.nodes, Tree.leaves, List.partition_eq_filter_filter,
    List.flatMap_append, List.flatMap_cons, List.flatMap_nil, List.append_nil]
  exact List.filter_append_perm _ _

-- A bucket that waits for a node is split: its nodes are all on the side that
-- was filled first, or the rest is for the other side only.
theorem Tree.Source.split_fits {change : List Node → Int} {l' r' : Tree} (hb : b.Laid a k)
    (ho : (node l' mid r').Source self a k)
    (hfits : (leaf b).Fits (node l' mid r') P (y.key :: rest)) :
    (splitBucket change b).Fits (node l' mid r') P (y.key :: rest) := by
  obtain ⟨j, rfl, -, hl, hr⟩ := ho.halves
  obtain ⟨hmid, -⟩ := hb.split
  obtain ⟨hkeys, hbn⟩ := hfits
  obtain ⟨hnodup, hsub⟩ := hbn (by simp)
  have hright {x : Id × Addr} (hx : x ∈ r'.keys) : ¬ x.1 < split b.lo b.hi := by
    have := hr.region hx
    have hpos := Nat.two_pow_pos j
    rw [Nat.div_eq_iff hpos] at this
    rw [BitVec.lt_def]
    omega
  have hfilter (p : Node → Bool) : ((b.nodes.filter p).map Node.key).Nodup :=
    hnodup.sublist (List.filter_sublist.map _)
  simp only [splitBucket, List.partition_eq_filter_filter]
  rw [Tree.keys, List.append_eq_append_iff] at hkeys
  rcases hkeys with ⟨restr, hP, hrest⟩ | ⟨Pl, hP, hrest⟩
  · refine ⟨P, restr, [], l'.keys, by simp, hrest, fun _ => rfl, ⟨hP.symm, fun _ =>
      ⟨hfilter _, fun n hn => hsub n (List.mem_filter.mp hn).1⟩⟩, ⟨rfl, fun _ =>
      ⟨hfilter _, fun n hn => ?_⟩⟩⟩
    obtain ⟨hn, hlt⟩ := List.mem_filter.mp hn
    have := hright (x := n.key) (hP ▸ List.mem_append_left _ (hsub n hn))
    exact absurd (of_decide_eq_true hlt) this
  · refine ⟨r'.keys, [], Pl, y.key :: rest, hP, rfl, fun h => absurd rfl h, ⟨by simp, fun h =>
      absurd rfl h⟩, ⟨hrest.symm, fun _ => ⟨hfilter _, fun n hn => ?_⟩⟩⟩
    obtain ⟨hn, hlt⟩ := List.mem_filter.mp hn
    have hmem := hsub n hn
    rw [hP] at hmem
    exact (List.mem_append.mp hmem).resolve_left fun h =>
      hright h (of_decide_eq_true hlt)

-- What a pass of insert_node does for the next node that is to come.
def Tree.Passed (t o : Tree) (P : List (Id × Addr)) (y : Node) (rest : List (Id × Addr))
    (p : Tree × Option (Bucket × List Node)) : Prop :=
  (p.2 = none ∧ p.1.Fits o P (y.key :: rest) ∧ p.1.nodes.Perm t.nodes ∧
    p.1.depthAt y.id = t.depthAt y.id + 1) ∨
  (p.2.isSome ∧ p.1.Fits o (P ++ [y.key]) rest ∧ p.1.nodes.Perm (y :: t.nodes))

theorem Tree.Source.leaf_passed (hb : b.Laid a k) (ho : o.Source self a k)
    (hfits : (leaf b).Fits o P (y.key :: rest)) :
    (leaf b).Passed o P y rest ((leaf b).loop y.id (insertLeaf self y)) := by
  have hkeys := hfits.1
  obtain ⟨hnodup, hsub⟩ := hfits.2 (by simp)
  have hids := ho.ids
  have haddrs := ho.addrs
  rw [← hkeys, List.map_append, List.map_cons, List.nodup_middle, List.nodup_cons] at hids haddrs
  simp only [← List.map_append, List.mem_map, not_exists, not_and] at hids haddrs
  have hnew : ¬ (b.nodes.any fun n => n.id = y.id ∨ n.addr = y.addr) = true := by
    simp only [List.any_eq_true, decide_eq_true_eq, not_exists, not_and, not_or]
    intro n hn
    have hmem := List.mem_append_left rest (hsub n hn)
    exact ⟨hids.1 n.key hmem, haddrs.1 n.key hmem⟩
  rw [Tree.loop, insertLeaf, if_neg hnew]
  by_cases hfull : b.nodes.length = bucketNodes
  · obtain ⟨l', mid', r', rfl⟩ := ho.split_of_full hfits hfull
    obtain ⟨j, -, -, hs, -, -⟩ := ho.laid
    rw [if_neg (by simpa using hfull), if_pos (hs b hb)]
    refine .inl ⟨rfl, ho.split_fits hb hfits, ?_, ?_⟩
    · simpa [Tree.nodes, leaves] using splitBucket_nodes _ b
    · simp [splitBucket, depthAt]
  · rw [if_pos (by simpa using hfull)]
    refine .inr ⟨rfl, ⟨by rw [List.append_assoc]; exact hkeys, fun _ => ⟨?_, ?_⟩⟩, ?_⟩
    · rw [List.map_cons, List.nodup_cons]
      refine ⟨fun h => ?_, hnodup⟩
      obtain ⟨n, hn, he⟩ := List.mem_map.mp h
      exact hids.1 _ (List.mem_append_left rest (hsub n hn)) (congrArg Prod.fst he)
    · refine List.forall_mem_cons.mpr ⟨by simp, fun n hn => ?_⟩
      exact List.mem_append_left _ (hsub n hn)
    · simp [Tree.nodes, leaves]

theorem Tree.Source.passed (ht : t.Laid self a k) (ho : o.Source self a k)
    (hfits : t.Fits o P (y.key :: rest)) :
    t.Passed o P y rest (t.loop y.id (insertLeaf self y)) := by
  induction t generalizing o a k P rest with
  | leaf b => exact ho.leaf_passed ht hfits
  | node l mid r ihl ihr =>
      cases o with
      | leaf c => exact hfits.elim
      | node l' mid' r' =>
          obtain ⟨j, rfl, hmid, -, hl, hr⟩ := ht
          obtain ⟨j', hj, -, hol, hor⟩ := ho.halves
          obtain rfl : j = j' := Nat.succ_inj.mp hj
          have hy : y.id.toNat / 2 ^ (j + 1) = a :=
            ho.region (x := y.key) (hfits.keys ▸ by simp)
          obtain ⟨Pr, restr, Pl, restl, rfl, hrest, hnil, hfr, hfl⟩ := hfits
          have hle := le_mid_iff hmid hy
          cases restr with
          | cons x restr =>
              -- The node goes to the right, where nothing of the left side came yet.
              obtain ⟨rfl, rfl⟩ := List.cons.inj hrest
              obtain rfl := hnil (by simp)
              have hright := hor.region (x := y.key) (hfr.keys ▸ by simp)
              have hgt : ¬ y.id ≤ mid := fun h => by
                have := hle.1 h
                have : y.id.toNat / 2 ^ j = 2 * a + 1 := hright
                omega
              rw [Tree.loop, if_neg hgt]
              rcases ihr hr hor hfr with ⟨hn, hf, hp, hd⟩ | ⟨hn, hf, hp⟩
              · refine .inl ⟨hn, ⟨Pr, y.key :: restr, [], restl, rfl, rfl, fun _ => rfl, hf, hfl⟩,
                  ?_, ?_⟩
                · simp only [Tree.nodes, leaves, List.flatMap_append]
                  exact hp.append_left _
                · simp [depthAt, hgt, hd]
              · refine .inr ⟨hn, ⟨Pr ++ [y.key], restr, [], restl, by simp, rfl, fun _ => rfl, hf,
                  hfl⟩, ?_⟩
                simp only [Tree.nodes, leaves, List.flatMap_append]
                exact (hp.append_left _).trans List.perm_middle
          | nil =>
              rw [List.nil_append] at hrest
              subst hrest
              have hleft := hol.region (x := y.key) (hfl.keys ▸ by simp)
              have hley : y.id ≤ mid := by
                by_contra h
                have := hle.2 h
                have : y.id.toNat / 2 ^ j = 2 * a := hleft
                omega
              rw [Tree.loop, if_pos hley]
              rcases ihl hl hol hfl with ⟨hn, hf, hp, hd⟩ | ⟨hn, hf, hp⟩
              · refine .inl ⟨hn, ⟨Pr, [], Pl, y.key :: rest, rfl, rfl, fun h => absurd rfl h, hfr,
                  hf⟩, ?_, ?_⟩
                · simp only [Tree.nodes, leaves, List.flatMap_append]
                  exact hp.append_right _
                · simp [depthAt, hley, hd]
              · refine .inr ⟨hn, ⟨Pr, [], Pl ++ [y.key], rest, by simp, rfl, fun h => absurd rfl h,
                  hfr, hf⟩, ?_⟩
                simp only [Tree.nodes, leaves, List.flatMap_append]
                exact hp.append_right _

-- insert_node ends with the node in the tree.
theorem Tree.Source.passes {f : Nat} (ht : t.Laid self a k) (ho : o.Source self a k)
    (hfits : t.Fits o P (y.key :: rest)) (hfuel : k < f + t.depthAt y.id) :
    (t.passes y.id (insertLeaf self y) f).1.Fits o (P ++ [y.key]) rest ∧
      (t.passes y.id (insertLeaf self y) f).1.nodes.Perm (y :: t.nodes) := by
  induction f generalizing t with
  | zero =>
      have : t.depthAt y.id ≤ k := ht.depthAt_le
      omega
  | succ f ih =>
      have hl : (t.loop y.id (insertLeaf self y)).1.Laid self a k :=
        ht.loop fun _ _ _ => insertLeaf_laid
      have hp := ho.passed ht hfits
      rw [Tree.passes]
      split
      case h_1 t' heq =>
          rw [heq] at hl hp
          obtain ⟨-, hf, hperm, hd⟩ := hp.resolve_right (by simp)
          dsimp only at hd hperm
          obtain ⟨hf', hperm'⟩ := ih hl hf (by dsimp only; omega)
          exact ⟨hf', hperm'.trans (hperm.cons y)⟩
      case h_2 t' r heq =>
          rw [heq] at hp
          exact (hp.resolve_left (by simp)).2

theorem Table.refill {t : Table} {ns : List Node} (ht : t.Laid) (ho : o.Source t.self 0 160)
    (hfits : t.root.Fits o P (ns.map Node.key)) :
    (ns.foldl Table.insertNode t).root.nodes.Perm (ns ++ t.root.nodes) ∧
      (ns.foldl Table.insertNode t).self = t.self := by
  induction ns generalizing t P with
  | nil => exact ⟨.refl _, rfl⟩
  | cons y ns ih =>
      obtain ⟨hf, hp⟩ := ho.passes (f := splitFuel) ht hfits (Nat.lt_add_right _ (by decide))
      obtain ⟨hp', hself⟩ := ih (t := t.insertNode y) ht.insertNode ho hf
      refine ⟨hp'.trans ?_, hself⟩
      exact ((hp.append_left ns).trans List.perm_middle)

end Mldonkey.Kademlia

-- Tables that are saved and read back.
namespace Mldonkey.Kademlia

open HalfOpen

variable {self id : Id} {b : Bucket} {t : Tree} {step : Bucket → Pass} {Q : Bucket → Prop}

theorem Tree.forall_passes {fuel : Nat} (ht : ∀ b ∈ t.leaves, Q b)
    (hstep : ∀ b, Q b → ∀ c ∈ (step b).tree.leaves, Q c) :
    ∀ b ∈ (t.passes id step fuel).1.leaves, Q b := by
  induction fuel generalizing t with
  | zero => exact ht
  | succ fuel ih =>
      have hl : ∀ b ∈ (t.loop id step).1.leaves, Q b := fun b hb =>
        (Tree.mem_loop hb).elim (ht b) (hstep _ (ht _ (t.leafAt_mem id)) b)
      rw [Tree.passes]
      split
      case h_1 t' heq =>
          rw [heq] at hl
          exact ih hl
      case h_2 t' r heq =>
          rw [heq] at hl
          exact hl

def Bucket.Room (b : Bucket) : Prop := b.nodes.length ≤ bucketNodes

theorem splitBucket_room {f : List Node → Int} (hb : b.Room) :
    ∀ c ∈ (splitBucket f b).leaves, c.Room := by
  simp only [splitBucket, Tree.leaves, List.partition_eq_filter_filter, List.mem_append,
    List.mem_singleton]
  rintro c (rfl | rfl) <;> exact (List.length_filter_le _ _).trans hb

theorem updateLeaf_room {now : Int} {st : Status} {new : Node} (hb : b.Room) :
    ∀ c ∈ (updateLeaf now self st new b).tree.leaves, c.Room := by
  have hkeep {ns : List Node} (h : ns.length = b.nodes.length) : ns.length ≤ bucketNodes := h ▸ hb
  have hbad : (replaceBad now new b.nodes).1.length = b.nodes.length := by
    cases hr : (replaceBad now new b.nodes).2 with
    | true =>
        obtain ⟨pre, n, post, he, hk⟩ := replaceBad_true hr
        have := congrArg List.length hk
        simpa [he] using this
    | false => simpa using congrArg List.length (replaceBad_false now new hr)
  unfold updateLeaf
  split
  case h_1 ns hr =>
      obtain ⟨pre, n, n', post, he, rfl, -⟩ := refreshNodes_some hr
      have : (pre ++ n' :: post).length ≤ bucketNodes := hkeep (by simp [he])
      simpa [Pass.tree, Tree.leaves, Bucket.Room, Bucket.touch] using this
  split
  case h_2.isTrue hroom =>
      have : b.nodes.length + 1 ≤ bucketNodes := lt_of_le_of_ne hb hroom
      simpa [Pass.tree, Tree.leaves, Bucket.Room, Bucket.touch] using this
  split
  case h_1 ns hr =>
      rw [hr] at hbad
      simpa [Pass.tree, Tree.leaves, Bucket.Room, Bucket.touch] using hkeep hbad
  case h_2 ns hr =>
      rw [hr] at hbad
      split
      · split
        · exact splitBucket_room (b := { b with nodes := ns }) (f := fun _ => _) (hkeep hbad)
        · simpa [Pass.tree, Tree.leaves, Bucket.Room] using hkeep hbad
      · simpa [Pass.tree, Tree.leaves, Bucket.Room] using hkeep hbad

theorem insertLeaf_room {new : Node} (hb : b.Room) :
    ∀ c ∈ (insertLeaf self new b).tree.leaves, c.Room := by
  unfold insertLeaf
  split
  · simpa [Pass.tree, Tree.leaves] using hb
  split
  case isFalse.isTrue hroom =>
      have : b.nodes.length + 1 ≤ bucketNodes := lt_of_le_of_ne hb hroom
      simpa [Pass.tree, Tree.leaves, Bucket.Room] using this
  split
  · exact splitBucket_room hb
  · simpa [Pass.tree, Tree.leaves] using hb

theorem Table.room_update {t : Table} {now : Int} {st : Status} {id : Id} {data : Addr}
    (ht : ∀ b ∈ t.root.leaves, b.Room) :
    ∀ b ∈ (t.update now st id data).1.root.leaves, b.Room := by
  unfold Table.update
  split
  · exact ht
  · exact Tree.forall_passes ht fun _ => updateLeaf_room

theorem Table.room_mapLeaves {f : Bucket → Bucket} (ht : ∀ b ∈ t.leaves, b.Room)
    (hf : ∀ b, (f b).nodes.length = b.nodes.length) : ∀ b ∈ (t.mapLeaves f).leaves, b.Room := by
  intro b hb
  obtain ⟨c, hc, rfl⟩ := Tree.mem_mapLeaves hb
  exact (hf c).trans_le (ht c hc)

-- No bucket ever has too many nodes.
theorem Reachable.room {ok : State → Op → Prop} {s : State} (h : Reachable ok s) :
    ∀ b ∈ s.table.root.leaves, b.Room := by
  have hanswered {s : State} {now : Int} {k ref : Nat} {r : Retry} {res : Bool}
      (hs : ∀ b ∈ s.table.root.leaves, b.Room) :
      ∀ b ∈ (s.answered now k r ref res).table.root.leaves, b.Room :=
    Table.room_mapLeaves hs fun b => by simp
  refine Runs.Reach.inv (I := fun s => ∀ b ∈ s.table.root.leaves, b.Room) ?_ ?_ h
  · rintro _ ⟨now, self, rfl⟩ b hb
    obtain rfl := List.mem_singleton.mp hb
    exact Nat.zero_le _
  · intro s op hs _
    cases op with
    | update now st id data =>
        show ∀ b ∈ (s.update now st id data).table.root.leaves, b.Room
        rw [State.table_update]
        exact Table.room_update hs
    | insertNode node => exact Tree.forall_passes hs fun _ => insertLeaf_room
    | refresh now => exact hs
    | answer now k ref res =>
        show ∀ b ∈ (s.answer now k ref res).table.root.leaves, b.Room
        unfold State.answer
        split
        · exact hs
        · split
          · rw [State.table_update]
            refine Table.room_update (Table.room_mapLeaves (hanswered hs) fun b => ?_)
            split <;> rfl
          · exact hanswered hs

-- What a saved table says about a node.
def Node.data (n : Node) : Id × Addr × Int × Status := (n.id, n.addr, n.last, n.status)

theorem reparseList_nodes (ns : List Node) :
    reparseList (ns.map nodeToValue) = ns.map nodeToValue := by
  induction ns with
  | nil => rfl
  | cons n ns ih => rw [List.map_cons, reparseList, reparse_nodeToValue, ih]

theorem valueToList_nodes {random : Value → Int} {ns : List Node}
    (hports : ∀ n ∈ ns, 0 ≤ n.addr.port ∧ n.addr.port ≤ 65535) :
    valueToList (valueToNode random) (.list (ns.map nodeToValue)) =
      some (ns.map fun n => { n with ref := 0 }) := by
  rw [valueToList]
  induction ns with
  | nil => rfl
  | cons n ns ih =>
      rw [List.forall_mem_cons] at hports
      simp only [List.map_cons, List.mapM_cons, valueToNode_nodeToValue hports.1, ih hports.2]
      rfl

theorem map_mapIdx_ref {α : Type} {f : Node → α} (hf : ∀ n i, f { n with ref := i } = f n)
    (ns : List Node) :
    ((ns.map fun n => { n with ref := 0 }).mapIdx fun i n => { n with ref := i }).map f =
      ns.map f := by
  refine List.ext_getElem (by simp) fun i h _ => ?_
  simp [hf]

theorem Table.Laid.source {t : Table} (ht : t.Laid) (hr : t.Routed)
    (hroom : ∀ b ∈ t.root.leaves, b.Room) (hids : (t.allNodes.map (·.id)).Nodup)
    (haddrs : (t.allNodes.map (·.addr)).Nodup) : t.root.Source t.self 0 160 where
  laid := ht
  inside := fun b hb n hn => by
    have := Tree.Laid.inside_leafAt ht (Table.Laid.in_space n.id)
    rwa [hr b hb n hn] at this
  room := hroom
  ids := by rwa [← allNodes_keys, ← map_id_key]
  addrs := by rwa [← allNodes_keys, ← map_addr_key]

-- A table that a run reached and in which every node lies where its id routes
-- to is read back with all its nodes.
theorem reload_keeps {random : Value → Int} {s : State} (hs : Reachable (fun _ _ => True) s)
    (hids : (s.table.allNodes.map (·.id)).Nodup) (haddrs : (s.table.allNodes.map (·.addr)).Nodup)
    (hrouted : s.table.Routed)
    (hports : ∀ n ∈ s.table.allNodes, 0 ≤ n.addr.port ∧ n.addr.port ≤ 65535) :
    ∃ t, s.table.reload random = some t ∧ t.self = s.table.self ∧
      (t.allNodes.map Node.data).Perm (s.table.allNodes.map Node.data) := by
  have hsource := hs.laid.source hrouted hs.room hids haddrs
  let ns := (s.table.allNodes.map fun n => { n with ref := 0 }).mapIdx fun i n =>
    { n with ref := i }
  let t0 := Table.empty s.table.self ns.length
  have hreload : s.table.reload random = some (ns.foldl Table.insertNode t0) := by
    simp [Table.reload, valueToTable, tableToValue, Value.reparse, reparseProps, Value.get,
      List.lookup_cons, valueToString, reparseList_nodes, valueToList_nodes hports, ns, t0]
  have hkeys : ns.map Node.key = s.table.root.keys := by
    rw [← allNodes_keys]
    exact map_mapIdx_ref (fun _ _ => rfl) _
  have hlaid : t0.Laid := Table.Laid.create 0 s.table.self
  have hfits : t0.root.Fits s.table.root [] (ns.map Node.key) :=
    ⟨hkeys, fun _ => ⟨.nil, by simp [t0, Table.empty]⟩⟩
  obtain ⟨hperm, hself⟩ := Table.refill hlaid hsource hfits
  refine ⟨_, hreload, hself, ?_⟩
  have hall := ((allNodes_perm _).trans hperm).map Node.data
  have hdata : ns.map Node.data = s.table.allNodes.map Node.data :=
    map_mapIdx_ref (fun _ _ => rfl) _
  rwa [List.map_append, show t0.root.nodes = [] from rfl, List.map_nil, List.append_nil, hdata]
    at hall

theorem reload_keeps_ninth : ∃ t, ninth.table.reload (fun _ => 2000) = some t ∧
    t.self = ninth.table.self ∧
      (t.allNodes.map Node.data).Perm (ninth.table.allNodes.map Node.data) := by
  refine reload_keeps (s := ninth) ?_ ?_ ?_ ?_ ?_
  · exact Runs.Reach.foldl (.start (start_create 0 0)) _ fun _ _ _ => trivial
  all_goals decide

-- The first node has the split point of the whole space as its id and is moved
-- to the upper half with the seven after it. Then each half has eight nodes of
-- its own, but the first one is put back into the lower half.
def misplaced : State :=
  (updates (BitVec.ofNat 160 (2 ^ 159 - 1) ::
    ([0, 1, 2, 3, 4, 5, 6].map fun i => BitVec.ofNat 160 (3 * 2 ^ 158 + i)) ++
      [99, BitVec.ofNat 160 (3 * 2 ^ 158 + 7), 100, 101, 102, 103, 104, 105, 106])).foldl
    (fun s op => op.next s) { table := .create 0 (BitVec.allOnes 160), retries := [] }

theorem reload_keeps_false : ¬ ∀ s : State, Reachable (fun _ _ => True) s →
    (s.table.allNodes.map (·.id)).Nodup → (s.table.allNodes.map (·.addr)).Nodup →
    (∀ n ∈ s.table.allNodes, n.id ≠ s.table.self) → ∃ t, s.table.reload (fun _ => 2000) = some t ∧
      ∀ x, x ∈ t.allNodes.map Node.data ↔ x ∈ s.table.allNodes.map Node.data := by
  intro h
  obtain ⟨t, ht, hsame⟩ := h misplaced
    (Runs.Reach.foldl (.start (start_create 0 _)) _ fun _ _ _ => trivial)
    (by decide) (by decide) (by decide)
  have hlost : (misplaced.table.reload fun _ => 2000).all fun t =>
      decide ((99, ⟨99, 6881⟩, 0, .good) ∉ t.allNodes.map Node.data) := by decide
  rw [ht] at hlost
  refine of_decide_eq_true hlost ((hsame _).mpr ?_)
  decide

end Mldonkey.Kademlia
