import Mldonkey.Swarming.Cutting
import Mldonkey.Swarming.Ranges.Whole

-- Lists of blocks that lie one after another in a file, and what cutting one of them in two keeps.
namespace Mldonkey.Swarming

open HalfOpen

-- Where a list of blocks begins in a file of some size
def listBegin (size : Int) : List NewBlock → Int
  | [] => size
  | new :: _ => new.pos

-- Each block with the offset where it begins, and the one where the next block does.
def extents (size : Int) : List NewBlock → List (NewBlock × Int × Int)
  | [] => []
  | new :: l => (new, new.pos, listBegin size l) :: extents size l

-- The block with the byte at `x` is of a kind.
def ByteIn (size : Int) (l : List NewBlock) (x : Int) (p : NewBlock → Prop) : Prop :=
  ∃ e ∈ extents size l, e.2.1 ≤ x ∧ x < e.2.2 ∧ p e.1

theorem extents_append (size : Int) (l l' : List NewBlock) :
    extents size (l ++ l') = extents (listBegin size l') l ++ extents size l' := by
  induction l with
  | nil => rfl
  | cons new l ih =>
    have hbegin : listBegin size (l ++ l') = listBegin (listBegin size l') l := by
      cases l <;> rfl
    rw [List.cons_append, extents, ih, hbegin]
    rfl

theorem mem_of_mem_extents {size : Int} {l : List NewBlock} {e : NewBlock × Int × Int}
    (he : e ∈ extents size l) : e.1 ∈ l := by
  induction l with
  | nil => cases he
  | cons new l ih =>
    rcases List.mem_cons.mp he with rfl | he
    · exact List.mem_cons_self
    · exact List.mem_cons_of_mem _ (ih he)

theorem exists_extent {size : Int} {l : List NewBlock} {new : NewBlock} (h : new ∈ l) :
    ∃ e ∈ extents size l, e.1 = new := by
  induction l with
  | nil => cases h
  | cons x l ih =>
    rcases List.mem_cons.mp h with rfl | h
    · exact ⟨_, List.mem_cons_self, rfl⟩
    · obtain ⟨e, he, hx⟩ := ih h
      exact ⟨e, List.mem_cons_of_mem _ he, hx⟩

namespace Store

variable {s s' s'' : Store} {l l' l'' A B : List NewBlock} {old left right : NewBlock}
  {cutPos hi : Int}

-- The ranges of each partial block of a list lie in it.
structure Divided (s : Store) (l : List NewBlock) : Prop where
  sound : ∀ e ∈ extents s.size l, ∀ b : BlockId, e.1.block = .partialBlock b →
    s.Sound b e.2.1 e.2.2
  apart : l.Pairwise fun x y => ∀ b : BlockId, x.block = .partialBlock b → y.block ≠ .partialBlock b
  owned : ∀ b, ∀ r ∈ s.ranges b, (s.range r).block = b ∧ r < s.nextRange
  owner_lt : ∀ r < s.nextRange, (s.range r).block < s.nextBlock

-- A range that still misses bytes is linked if its block is in the list.
def KeptIn (s : Store) (l : List NewBlock) (r : RangeId) : Prop :=
  s.Void r ∨ ((∃ new ∈ l, new.block = .partialBlock (s.range r).block) →
    r ∈ s.ranges (s.range r).block)

-- The blocks lie in other places; what they say of each byte is the same.
structure Redivides (s : Store) (l : List NewBlock) (s' : Store) (l' : List NewBlock) : Prop where
  size : s'.size = s.size
  nextBlock : s.nextBlock ≤ s'.nextBlock
  nextRange : s.nextRange ≤ s'.nextRange
  missing : ∀ x, ByteIn s.size l' x (fun new => s'.MissingIn new.block x) ↔
    ByteIn s.size l x fun new => s.MissingIn new.block x
  verified : ∀ x, ByteIn s.size l' x (fun new => new.block = .verifiedBlock) ↔
    ByteIn s.size l x fun new => new.block = .verifiedBlock
  states : (∀ new ∈ l, new.state = new.block.state) → ∀ new ∈ l', new.state = new.block.state
  whole : (∀ new ∈ l, IsWhole new.block) → ∀ new ∈ l', IsWhole new.block
  nuploading : ∀ r < s.nextRange, (s'.range r).nuploading = (s.range r).nuploading
  kept : ∀ r < s.nextRange, s.KeptIn l r → s'.KeptIn l' r

-- The arrays of the blocks have no part in this.
theorem Divided.arrays (h : s.Divided l) (blocks : List BlockV) (blockPos : List Int) :
    Store.Divided { s with blocks := blocks, blockPos := blockPos } l where
  sound e he b hb := (h.sound e he b hb).frame ⟨le_rfl, le_rfl, rfl, fun _ _ _ => rfl⟩
  apart := h.apart
  owned := h.owned
  owner_lt := h.owner_lt

theorem Redivides.arrays (s : Store) (l : List NewBlock) (blocks : List BlockV)
    (blockPos : List Int) :
    Redivides s l { s with blocks := blocks, blockPos := blockPos } l :=
  ⟨rfl, le_rfl, le_rfl, fun _ => Iff.rfl, fun _ => Iff.rfl, fun h => h, fun h => h,
    fun _ _ => rfl, fun _ _ h => h⟩

theorem Redivides.refl (s : Store) (l : List NewBlock) : Redivides s l s l :=
  ⟨rfl, le_rfl, le_rfl, fun _ => Iff.rfl, fun _ => Iff.rfl, fun h => h, fun h => h,
    fun _ _ => rfl, fun _ _ h => h⟩

theorem Redivides.trans (h : Redivides s l s' l') (h' : Redivides s' l' s'' l'') :
    Redivides s l s'' l'' where
  size := h'.size.trans h.size
  nextBlock := h.nextBlock.trans h'.nextBlock
  nextRange := h.nextRange.trans h'.nextRange
  missing x := (h.size ▸ h'.missing x).trans (h.missing x)
  verified x := (h.size ▸ h'.verified x).trans (h.verified x)
  states hs := h'.states (h.states hs)
  whole hw := h'.whole (h.whole hw)
  nuploading r hr := (h'.nuploading r (hr.trans_le h.nextRange)).trans (h.nuploading r hr)
  kept r hr hk := h'.kept r (hr.trans_le h.nextRange) (h.kept r hr hk)

-- The block `old` becomes the blocks `left` and `right`.
structure Parts (old left right : NewBlock) (cutPos hi : Int) (s s' : Store) : Prop where
  size : s'.size = s.size
  nextBlock : s.nextBlock ≤ s'.nextBlock
  nextRange : s.nextRange ≤ s'.nextRange
  left_pos : left.pos = old.pos
  right_pos : right.pos = cutPos
  left_missing : ∀ x, old.pos ≤ x → x < cutPos →
    (s'.MissingIn left.block x ↔ s.MissingIn old.block x)
  right_missing : ∀ x, cutPos ≤ x → x < hi →
    (s'.MissingIn right.block x ↔ s.MissingIn old.block x)
  verified : (left.block = .verifiedBlock ↔ old.block = .verifiedBlock) ∧
    (right.block = .verifiedBlock ↔ old.block = .verifiedBlock)
  states : old.state = old.block.state →
    left.state = left.block.state ∧ right.state = right.block.state
  whole : IsWhole old.block → IsWhole left.block ∧ IsWhole right.block
  left_sound : ∀ b : BlockId, left.block = .partialBlock b → s'.Sound b old.pos cutPos ∧
    old.block = .partialBlock b
  right_sound : ∀ b : BlockId, right.block = .partialBlock b → s'.Sound b cutPos hi ∧
    b = s.nextBlock
  same : ∀ b < s.nextBlock, old.block ≠ .partialBlock b → SameBlock b s s'
  owned : ∀ b, ∀ r ∈ s'.ranges b, (s'.range r).block = b ∧ r < s'.nextRange
  owner_lt : ∀ r < s'.nextRange, (s'.range r).block < s'.nextBlock
  nuploading : ∀ r < s.nextRange, (s'.range r).nuploading = (s.range r).nuploading
  kept : ∀ r < s.nextRange, old.block = .partialBlock (s.range r).block →
    r ∈ s.ranges (s.range r).block → r ∈ s'.ranges (s'.range r).block
  void : ∀ r < s.nextRange, s.Void r → s'.Void r

theorem Divided.id_lt (h : s.Divided l) {new : NewBlock} (hnew : new ∈ l) {b : BlockId}
    (hb : new.block = .partialBlock b) : b < s.nextBlock := by
  obtain ⟨e, he, rfl⟩ : ∃ e ∈ extents s.size l, e.1 = new := exists_extent hnew
  exact (h.sound e he b hb).lt

section Parts

variable (hp : Parts old left right cutPos hi s s') (hhi : hi = listBegin s.size B)
  (hlo : old.pos < cutPos) (hlt : cutPos < hi) (h : s.Divided (A ++ old :: B))

include hp hhi

theorem Parts.extents_eq : extents s.size (A ++ left :: right :: B) =
    extents old.pos A ++ (left, old.pos, cutPos) :: (right, cutPos, hi) :: extents s.size B := by
  rw [extents_append, hhi]
  simp only [extents, listBegin, hp.left_pos, hp.right_pos]

omit hp in
theorem extents_old : extents s.size (A ++ old :: B) =
    extents old.pos A ++ (old, old.pos, hi) :: extents s.size B := by
  rw [extents_append, hhi]
  rfl

include hlo hlt in
-- Every other block is of the same kind as before.
theorem Parts.byteIn {p q : NewBlock → Prop} {x : Int}
    (hother : ∀ new ∈ A ++ B, p new ↔ q new)
    (hleft : old.pos ≤ x → x < cutPos → (p left ↔ q old))
    (hright : cutPos ≤ x → x < hi → (p right ↔ q old)) :
    ByteIn s.size (A ++ left :: right :: B) x p ↔ ByteIn s.size (A ++ old :: B) x q := by
  have hA : ∀ e ∈ extents old.pos A, p e.1 ↔ q e.1 := fun e he =>
    hother _ (List.mem_append_left _ (mem_of_mem_extents he))
  have hB : ∀ e ∈ extents s.size B, p e.1 ↔ q e.1 := fun e he =>
    hother _ (List.mem_append_right _ (mem_of_mem_extents he))
  have hand : ∀ (l : List (NewBlock × Int × Int)), (∀ e ∈ l, p e.1 ↔ q e.1) →
      ((∃ e ∈ l, e.2.1 ≤ x ∧ x < e.2.2 ∧ p e.1) ↔ ∃ e ∈ l, e.2.1 ≤ x ∧ x < e.2.2 ∧ q e.1) :=
    fun l hl => exists_congr fun e => and_congr_right fun he => by rw [hl e he]
  unfold ByteIn
  rw [hp.extents_eq hhi, extents_old hhi]
  simp only [List.mem_append, List.mem_cons, or_and_right, exists_or, exists_eq_left]
  rw [hand _ hA, hand _ hB]
  have hmid : (old.pos ≤ x ∧ x < cutPos ∧ p left) ∨ (cutPos ≤ x ∧ x < hi ∧ p right) ↔
      old.pos ≤ x ∧ x < hi ∧ q old := by
    by_cases hx : x < cutPos
    · have hx' : ¬ cutPos ≤ x := by omega
      have hx'' : x < hi := by omega
      simp only [hx, hx', hx'', true_and, false_and, or_false]
      exact and_congr_right fun h₁ => hleft h₁ hx
    · have hx' : cutPos ≤ x := by omega
      have hx'' : old.pos ≤ x := by omega
      simp only [hx, hx', hx'', true_and, false_and, and_false, false_or]
      exact and_congr_right fun h₂ => hright hx' h₂
  rw [← hmid, or_assoc]

include h in
omit hhi in
theorem Parts.other {new : NewBlock} (hnew : new ∈ A ++ B) {b : BlockId}
    (hb : new.block = .partialBlock b) : SameBlock b s s' := by
  have hap := List.pairwise_append.mp h.apart
  have hmem : new ∈ A ++ old :: B := by
    rcases List.mem_append.mp hnew with hnew | hnew
    · exact List.mem_append_left _ hnew
    · exact List.mem_append_right _ (List.mem_cons_of_mem _ hnew)
  refine hp.same b (h.id_lt hmem hb) fun ho => ?_
  rcases List.mem_append.mp hnew with hnew | hnew
  · exact hap.2.2 new hnew old List.mem_cons_self b hb ho
  · exact (List.pairwise_cons.mp hap.2.1).1 new hnew b ho hb

include h in
-- Cutting a block keeps the list in order, and what it says of each byte.
theorem Parts.divided : s'.Divided (A ++ left :: right :: B) := by
  have hmem : ∀ e ∈ extents s.size (A ++ left :: right :: B),
      (e = (left, old.pos, cutPos) ∨ e = (right, cutPos, hi)) ∨
        e.1 ∈ A ++ B ∧ e ∈ extents s.size (A ++ old :: B) := by
    intro e he
    rw [hp.extents_eq hhi, List.mem_append, List.mem_cons, List.mem_cons] at he
    simp only [extents_old hhi, List.mem_append, List.mem_cons]
    rcases he with he | he | he | he
    · exact .inr ⟨.inl (mem_of_mem_extents he), .inl he⟩
    · exact .inl (.inl he)
    · exact .inl (.inr he)
    · exact .inr ⟨.inr (mem_of_mem_extents he), .inr (.inr he)⟩
  have hap := List.pairwise_append.mp h.apart
  have hapB := List.pairwise_cons.mp hap.2.1
  refine ⟨fun e he b hb => ?_, ?_, hp.owned, hp.owner_lt⟩
  · rw [hp.size] at he
    rcases hmem e he with (rfl | rfl) | ⟨hnew, he⟩
    · exact (hp.left_sound b hb).1
    · exact (hp.right_sound b hb).1
    · exact (h.sound e he b hb).frame (hp.other h hnew hb)
  · have hnew : ∀ new ∈ A ++ B, ∀ b : BlockId, new.block = .partialBlock b → b < s.nextBlock :=
      fun new hnew b hb => h.id_lt (by
        rcases List.mem_append.mp hnew with hnew | hnew
        · exact List.mem_append_left _ hnew
        · exact List.mem_append_right _ (List.mem_cons_of_mem _ hnew)) hb
    have hright : ∀ new ∈ A ++ B, ∀ b : BlockId, new.block = .partialBlock b →
        right.block ≠ .partialBlock b := fun new hn b hb hr =>
      (hnew new hn b hb).ne (hp.right_sound b hr).2
    refine List.pairwise_append.mpr ⟨hap.1, List.pairwise_cons.mpr ⟨?_, List.pairwise_cons.mpr
      ⟨?_, hapB.2⟩⟩, ?_⟩
    · intro new hn b hb
      obtain ⟨-, ho⟩ := hp.left_sound b hb
      rcases List.mem_cons.mp hn with rfl | hn
      · intro hr
        exact (h.id_lt (List.mem_append_right _ List.mem_cons_self) ho).ne
          (hp.right_sound b hr).2
      · exact hapB.1 new hn b ho
    · exact fun new hn b hb hn' => hright new (List.mem_append_right _ hn) b hn' hb
    · intro x hx y hy b hb
      rcases List.mem_cons.mp hy with rfl | hy
      · exact fun hl => hap.2.2 x hx old List.mem_cons_self b hb (hp.left_sound b hl).2
      · rcases List.mem_cons.mp hy with rfl | hy
        · exact hright x (List.mem_append_left _ hx) b hb
        · exact hap.2.2 x hx y (List.mem_cons_of_mem _ hy) b hb

include hlo hlt h in
theorem Parts.redivides : Redivides s (A ++ old :: B) s' (A ++ left :: right :: B) where
  size := hp.size
  nextBlock := hp.nextBlock
  nextRange := hp.nextRange
  missing x := by
    refine hp.byteIn hhi hlo hlt (fun new hnew => ?_) (hp.left_missing x) (hp.right_missing x)
    cases hb : new.block with
    | partialBlock b =>
      have hs := hp.other h hnew hb
      have hspans : s'.spans (s'.ranges b) = s.spans (s.ranges b) := by
        rw [hs.ranges]
        exact spans_congr fun r hr => hs.range r (h.owned b r hr).2 (h.owned b r hr).1
      simp only [MissingIn, hspans]
    | _ => rfl
  verified x := hp.byteIn hhi hlo hlt (fun _ _ => Iff.rfl) (fun _ _ => hp.verified.1)
    fun _ _ => hp.verified.2
  states hs new hnew := by
    obtain ⟨hl, hr⟩ := hp.states (hs old (by simp))
    simp only [List.mem_append, List.mem_cons] at hnew
    rcases hnew with hnew | rfl | rfl | hnew
    · exact hs new (by simp [hnew])
    · exact hl
    · exact hr
    · exact hs new (by simp [hnew])
  whole hw new hnew := by
    obtain ⟨hl, hr⟩ := hp.whole (hw old (by simp))
    simp only [List.mem_append, List.mem_cons] at hnew
    rcases hnew with hnew | rfl | rfl | hnew
    · exact hw new (by simp [hnew])
    · exact hl
    · exact hr
    · exact hw new (by simp [hnew])
  nuploading := hp.nuploading
  kept r hr hk := by
    rcases hk with hv | hk
    · exact .inl (hp.void r hr hv)
    by_cases ho : old.block = .partialBlock (s.range r).block
    · exact .inr fun _ => hp.kept r hr ho (hk ⟨old, by simp, ho⟩)
    · have hs := hp.same _ (h.owner_lt r hr) ho
      have hrange := hs.range r hr rfl
      refine .inr ?_
      rintro ⟨new, hnew, hb⟩
      rw [hrange] at hb ⊢
      rw [hs.ranges]
      refine hk ⟨new, ?_, hb⟩
      simp only [List.mem_append, List.mem_cons] at hnew ⊢
      rcases hnew with hnew | rfl | rfl | hnew
      · exact .inl hnew
      · exact absurd (hp.left_sound _ hb).2 ho
      · exact absurd (hp.right_sound _ hb).2 (h.owner_lt r hr).ne
      · exact .inr (.inr hnew)

end Parts

-- Both parts of a block without ranges are like it.
theorem Parts.of_whole (h : s.Divided l) (old : NewBlock) (cutPos hi : Int)
    (hw : IsWhole old.block) :
    Parts old ⟨old.block, old.pos, old.state⟩ ⟨old.block, cutPos, old.state⟩ cutPos hi s s where
  size := rfl
  nextBlock := le_rfl
  nextRange := le_rfl
  left_pos := rfl
  right_pos := rfl
  left_missing _ _ _ := Iff.rfl
  right_missing _ _ _ := Iff.rfl
  verified := ⟨Iff.rfl, Iff.rfl⟩
  states h := ⟨h, h⟩
  whole h := ⟨h, h⟩
  left_sound b hb := absurd hb (hw b)
  right_sound b hb := absurd hb (hw b)
  same _ _ _ := ⟨le_rfl, le_rfl, rfl, fun _ _ _ => rfl⟩
  owned := h.owned
  owner_lt := h.owner_lt
  nuploading _ _ := rfl
  kept _ _ ho := absurd ho (hw _)
  void _ _ h := h

-- What a part of a partial block becomes: its ranges may cover all of it, or nothing.
def partBlock (s : Store) (b : BlockId) : BlockV :=
  if s.blockIsFull b then .completeBlock
  else if s.blockIsEmpty b then .emptyBlock
  else .partialBlock b

def partState (s : Store) (b : BlockId) (c : PartState) : PartState :=
  if s.blockIsFull b then .stateComplete
  else if s.blockIsEmpty b then .stateMissing
  else c

theorem partState_eq (s : Store) (b : BlockId) :
    s.partState b .statePartial = (s.partBlock b).state := by
  unfold partState partBlock
  split
  · rfl
  · split <;> rfl

theorem partBlock_ne (s : Store) (b : BlockId) : s.partBlock b ≠ .verifiedBlock := by
  unfold partBlock
  split
  · exact fun h => nomatch h
  · split <;> exact fun h => nomatch h

theorem partBlock_partial {b b' : BlockId} (h : s.partBlock b = .partialBlock b') :
    b' = b ∧ s.blockIsFull b = false := by
  unfold partBlock at h
  split at h
  · cases h
  · next hfull =>
    split at h
    · cases h
    · cases h
      exact ⟨rfl, Bool.eq_false_iff.mpr hfull⟩

theorem covers_of_coversFrom {blockEnd pos x : Int} {l : List RangeId}
    (h : s.coversFrom blockEnd pos l = true) (hpos : pos ≤ x) (hx : x < blockEnd) :
    Covers (s.spans l) x := by
  induction l generalizing pos with
  | nil =>
    have : pos = blockEnd := by simpa [coversFrom] using h
    omega
  | cons r l ih =>
    simp only [coversFrom, Bool.and_eq_true, decide_eq_true_eq] at h
    rw [spans_cons, covers_cons]
    by_cases hr : x < (s.range r).rangeEnd
    · exact .inl ⟨h.1.trans_le hpos, hr⟩
    · exact .inr (ih h.2 (by omega))

theorem Half.missingIn {m : List RangeId} {lo : Int} {b : BlockId} (h : Half m lo hi s s' b) {x : Int}
    (hlo : lo ≤ x) (hx : x < hi) :
    s'.MissingIn (s'.partBlock b) x ↔ Covers (s.spans m) x := by
  rw [← h.covers x hlo hx]
  unfold partBlock
  split
  · next hfull =>
    refine iff_of_false (fun h => h) ?_
    unfold blockIsFull at hfull
    split at hfull
    · next r hr =>
      have hr' : s'.ranges b = [r] := hr
      have := of_decide_eq_true hfull
      rw [hr', spans_cons, covers_cons]
      simp only [Range.span, spans_nil, covers_nil, or_false]
      omega
    · cases hfull
  · split
    · next hempty =>
      refine iff_of_true trivial (covers_of_coversFrom hempty ?_ ?_)
      · rw [h.blockBegin]
        exact hlo
      · rw [h.blockEnd]
        exact hx
    · exact Iff.rfl

theorem Parts.of_partial {b1 : BlockId} (h : s.Divided l) (old : NewBlock) (cutPos : Int)
    (hs : s.Sound b1 old.pos hi) (ho : old.block = .partialBlock b1) (hlo : old.pos ≤ cutPos) :
    Parts old
      ⟨(s.cutPartial b1 cutPos).partBlock b1, old.pos,
        (s.cutPartial b1 cutPos).partState b1 old.state⟩
      ⟨(s.cutPartial b1 cutPos).partBlock s.nextBlock, cutPos,
        (s.cutPartial b1 cutPos).partState s.nextBlock old.state⟩
      cutPos hi s (s.cutPartial b1 cutPos) := by
  have hcut := cutPartial_spec hs hlo
  generalize s.cutPartial b1 cutPos = s' at hcut
  have hlinked : ∀ r < s.nextRange, (s.range r).block ≠ b1 → r ∉ s.ranges b1 :=
    fun r _ hb hr => hb (h.owned b1 r hr).1
  have hother : ∀ b, b ≠ b1 → b ≠ s.nextBlock → ∀ r ∈ s'.ranges b, s'.range r = s.range r ∧
      r < s.nextRange ∧ (s.range r).block = b := by
    intro b h₁ h₂ r hr
    have hr' : r ∈ s.ranges b := by
      have : s'.ranges b = s.ranges b := congrArg Block.ranges (hcut.block b h₁ h₂)
      exact this ▸ hr
    obtain ⟨hb, hlt⟩ := h.owned b r hr'
    exact ⟨hcut.range r hlt (hlinked r hlt (hb ▸ h₁)), hlt, hb⟩
  have hnew : ∀ b, b = b1 ∨ b = s.nextBlock → ∀ r ∈ s'.ranges b, r < s'.nextRange := by
    intro b hb r hr
    have : r ∈ s'.ranges b1 ∨ r ∈ s'.ranges s.nextBlock := by
      rcases hb with rfl | rfl
      · exact .inl hr
      · exact .inr hr
    rcases (hcut.linked r).mp this with hr | hr
    · exact (h.owned b1 r hr).2.trans_le hcut.nextRange
    · exact hr.2
  refine ⟨hcut.map.size, hcut.nextBlock ▸ Nat.le_succ _, hcut.nextRange, rfl, rfl,
    fun x h₁ h₂ => ?_, fun x h₁ h₂ => ?_, ⟨?_, ?_⟩, fun hst => ?_, fun hw => absurd ho (hw b1),
    fun b hb => ?_, fun b hb => ?_, fun b hb hne => ?_, fun b r hr => ?_, fun r hr => ?_,
    hcut.nuploading, fun r hr hb hmem => ?_, fun r hr hv => ?_⟩
  · rw [ho]
    exact hcut.left.missingIn h₁ h₂
  · rw [ho]
    exact hcut.right.missingIn h₁ h₂
  · rw [ho]
    exact iff_of_false (s'.partBlock_ne b1) fun h => nomatch h
  · rw [ho]
    exact iff_of_false (s'.partBlock_ne _) fun h => nomatch h
  · rw [ho] at hst
    rw [hst]
    exact ⟨s'.partState_eq b1, s'.partState_eq _⟩
  · obtain ⟨rfl, hfull⟩ := partBlock_partial hb
    exact ⟨hcut.left.sound hfull, ho⟩
  · obtain ⟨rfl, hfull⟩ := partBlock_partial hb
    exact ⟨hcut.right.sound hfull, rfl⟩
  · have hne' : b ≠ b1 := fun e => hne (e ▸ ho)
    exact ⟨hcut.nextBlock ▸ Nat.le_succ _, hcut.nextRange, hcut.block b hne' hb.ne,
      fun r hr he => hcut.range r hr (hlinked r hr (he ▸ hne'))⟩
  · by_cases hb : b = b1 ∨ b = s.nextBlock
    · exact ⟨hcut.owned b hb r hr, hnew b hb r hr⟩
    · push Not at hb
      obtain ⟨h₁, h₂, h₃⟩ := hother b hb.1 hb.2 r hr
      rw [h₁]
      exact ⟨h₃, h₂.trans_le hcut.nextRange⟩
  · rw [hcut.nextBlock]
    by_cases hl : r ∈ s'.ranges b1 ∨ r ∈ s'.ranges s.nextBlock
    · rcases hl with hl | hl
      · rw [hcut.owned b1 (.inl rfl) r hl]
        exact hs.lt.trans (Nat.lt_succ_self _)
      · rw [hcut.owned _ (.inr rfl) r hl]
        exact Nat.lt_succ_self _
    · have hn := fun hr => hl ((hcut.linked r).mpr hr)
      have hr' : r < s.nextRange := by
        by_contra hge
        exact hn (.inr ⟨Nat.not_lt.mp hge, hr⟩)
      rw [hcut.range r hr' fun hr => hn (.inl hr)]
      exact (h.owner_lt r hr').trans (Nat.lt_succ_self _)
  · cases ho.symm.trans hb
    rcases (hcut.linked r).mpr (.inl hmem) with hl | hl
    · rwa [hcut.owned _ (.inl rfl) r hl]
    · rwa [hcut.owned _ (.inr rfl) r hl]
  · have hr' : r ∉ s.ranges b1 := fun hmem => by
      have := (hs.of_mem hmem).2.1
      exact this.ne hv
    rw [Void, hcut.range r hr hr']
    exact hv

end Store

end Mldonkey.Swarming
