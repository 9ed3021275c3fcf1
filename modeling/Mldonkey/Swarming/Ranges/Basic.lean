import Mldonkey.Lib.HalfOpen
import Mldonkey.Swarming.Blocks

namespace Mldonkey.Swarming

open HalfOpen

def Range.span (x : Range) : Int × Int := (x.rangeBegin, x.rangeEnd)

-- The parts of the ranges that no uploader selected.
def unselectedSpans (l : List Range) : List (Int × Int) :=
  (l.filter fun x => x.nuploading = 0).map Range.span

@[simp] theorem unselectedSpans_append (l l' : List Range) :
    unselectedSpans (l ++ l') = unselectedSpans l ++ unselectedSpans l' := by
  simp [unselectedSpans]

namespace Store

-- Where the blocks lie. No operation but the attaching of a frontend moves them.
def layout (s : Store) : Int × List Int × Nat := (s.size, s.blockPos, s.blocks.length)

theorem computeBlockBegin_congr {s s' : Store} (h : s'.layout = s.layout) (i : Nat) :
    s'.computeBlockBegin i = s.computeBlockBegin i := by
  simp only [layout, Prod.mk.injEq] at h
  simp only [computeBlockBegin, h.2.1]

theorem computeBlockEnd_congr {s s' : Store} (h : s'.layout = s.layout) (i : Nat) :
    s'.computeBlockEnd i = s.computeBlockEnd i := by
  simp only [layout, Prod.mk.injEq] at h
  simp only [computeBlockEnd, h.1, h.2.1]

theorem blockAt_setBlockAt (s : Store) (i i' : Nat) (v : BlockV) :
    (s.setBlockAt i v).blockAt i' = if i' = i ∧ i < s.blocks.length then v else s.blockAt i' := by
  simp only [blockAt, setBlockAt, List.getD_eq_getElem?_getD, List.getElem?_set]
  by_cases h : i = i'
  · subst h
    by_cases hi : i < s.blocks.length <;> simp [hi]
  · have h' : i' ≠ i := Ne.symm h
    simp [h, h']

def ranges (s : Store) (b : BlockId) : List RangeId := (s.block b).ranges

def spans (s : Store) (l : List RangeId) : List (Int × Int) := l.map fun r => (s.range r).span

@[simp] theorem spans_nil (s : Store) : s.spans [] = [] := rfl

@[simp] theorem spans_cons (s : Store) (r : RangeId) (l : List RangeId) :
    s.spans (r :: l) = (s.range r).span :: s.spans l := rfl

@[simp] theorem spans_append (s : Store) (l l' : List RangeId) :
    s.spans (l ++ l') = s.spans l ++ s.spans l' := List.map_append

theorem spans_congr {s s' : Store} {l : List RangeId} (h : ∀ r ∈ l, s'.range r = s.range r) :
    s'.spans l = s.spans l := List.map_congr_left fun r hr => by rw [h r hr]

theorem records_congr {s s' : Store} {l : List RangeId} (h : ∀ r ∈ l, s'.range r = s.range r) :
    l.map s'.range = l.map s.range := List.map_congr_left h

-- The ranges of block `b` follow each other inside the block.
structure Sound (s : Store) (b : BlockId) (lo hi : Int) : Prop where
  lt : b < s.nextBlock
  blockBegin : (s.block b).blockBegin = lo
  blockEnd : (s.block b).blockEnd = hi
  ranges_ne : s.ranges b ≠ []
  owned : ∀ r ∈ s.ranges b, (s.range r).block = b ∧ r < s.nextRange
  chain : Chain lo (s.spans (s.ranges b)) hi

-- What the record of the block at `i` says is true of its ranges. The two sums
-- are only claimed where `c` and `d` hold.
structure Tidy (c d : Prop) (s : Store) (i : Nat) (b : BlockId) : Prop
    extends Sound s b (s.computeBlockBegin i) (s.computeBlockEnd i) where
  num : (s.block b).num = i
  remaining : c → (s.block b).remaining = total (s.spans (s.ranges b))
  unselected : d → (s.block b).unselectedRemaining =
    total (unselectedSpans ((s.ranges b).map s.range))

theorem Sound.nodup {s : Store} {b : BlockId} {lo hi : Int} (h : s.Sound b lo hi) :
    (s.ranges b).Nodup := List.Nodup.of_map _ h.chain.nodup

-- A range of the block with those before and after it.
theorem Sound.split {s : Store} {b : BlockId} {lo hi : Int} (h : s.Sound b lo hi)
    {r : RangeId} (hr : r ∈ s.ranges b) :
    ∃ l₁ l₂, s.ranges b = l₁ ++ [r] ++ l₂ ∧ ∀ r' ∈ l₁ ++ l₂, r' ≠ r := by
  obtain ⟨l₁, l₂, hl⟩ := List.append_of_mem hr
  refine ⟨l₁, l₂, by simpa using hl, fun r' hr' he => ?_⟩
  have hn := h.nodup
  rw [hl, List.nodup_middle, List.nodup_cons] at hn
  exact hn.1 (he ▸ hr')

theorem Sound.of_mem {s : Store} {b : BlockId} {lo hi : Int} (h : s.Sound b lo hi) {r : RangeId}
    (hr : r ∈ s.ranges b) : lo ≤ (s.range r).rangeBegin ∧
      (s.range r).rangeBegin < (s.range r).rangeEnd ∧ (s.range r).rangeEnd ≤ hi :=
  h.chain.of_mem (p := (s.range r).span) (List.mem_map_of_mem hr)

-- What block `b` reads is the same.
structure SameBlock (b : BlockId) (s s' : Store) : Prop where
  nextBlock : s.nextBlock ≤ s'.nextBlock
  nextRange : s.nextRange ≤ s'.nextRange
  block : s'.block b = s.block b
  range : ∀ r < s.nextRange, (s.range r).block = b → s'.range r = s.range r

theorem SameBlock.ranges {s s' : Store} {b : BlockId} (h : SameBlock b s s') :
    s'.ranges b = s.ranges b := by simp only [Store.ranges, h.block]

theorem Sound.frame {s s' : Store} {b : BlockId} {lo hi : Int} (h : s.Sound b lo hi)
    (hs : SameBlock b s s') : s'.Sound b lo hi := by
  have hr : ∀ r ∈ s.ranges b, s'.range r = s.range r := fun r hr =>
    hs.range r (h.owned r hr).2 (h.owned r hr).1
  refine ⟨h.lt.trans_le hs.nextBlock, ?_, ?_, ?_, ?_, ?_⟩
  · rw [hs.block]; exact h.blockBegin
  · rw [hs.block]; exact h.blockEnd
  · rw [hs.ranges]; exact h.ranges_ne
  · rw [hs.ranges]
    intro r hmem
    rw [hr r hmem]
    exact ⟨(h.owned r hmem).1, (h.owned r hmem).2.trans_le hs.nextRange⟩
  · rw [hs.ranges, spans_congr hr]; exact h.chain

theorem Tidy.frame {c d : Prop} {s s' : Store} {i : Nat} {b : BlockId} (h : s.Tidy c d i b)
    (hl : s'.layout = s.layout) (hs : SameBlock b s s') : s'.Tidy c d i b := by
  have hr : ∀ r ∈ s.ranges b, s'.range r = s.range r := fun r hr =>
    hs.range r (h.owned r hr).2 (h.owned r hr).1
  refine ⟨?_, ?_, ?_, ?_⟩
  · rw [computeBlockBegin_congr hl, computeBlockEnd_congr hl]; exact h.toSound.frame hs
  · rw [hs.block]; exact h.num
  · rw [hs.block, hs.ranges, spans_congr hr]; exact h.remaining
  · rw [hs.block, hs.ranges, records_congr hr]; exact h.unselected

-- Only block `b` and its ranges differ.
structure Only (b : BlockId) (s s' : Store) : Prop where
  layout : s'.layout = s.layout
  blocks : s'.blocks = s.blocks
  nextBlock : s'.nextBlock = s.nextBlock
  nextRange : s.nextRange ≤ s'.nextRange
  block : ∀ b' ≠ b, s'.block b' = s.block b'
  range : ∀ r < s.nextRange, (s.range r).block ≠ b → s'.range r = s.range r
  owner : ∀ r < s.nextRange, (s'.range r).block = (s.range r).block
  fresh : ∀ r, s.nextRange ≤ r → r < s'.nextRange → (s'.range r).block = b

theorem Only.refl (b : BlockId) (s : Store) : Only b s s :=
  ⟨rfl, rfl, rfl, le_rfl, fun _ _ => rfl, fun _ _ _ => rfl, fun _ _ => rfl,
    fun _ h h' => absurd h' (Nat.not_lt.mpr h)⟩

theorem Only.trans {b : BlockId} {s s' s'' : Store} (h : Only b s s') (h' : Only b s' s'') :
    Only b s s'' := by
  refine ⟨h'.layout.trans h.layout, h'.blocks.trans h.blocks, h'.nextBlock.trans h.nextBlock,
    h.nextRange.trans h'.nextRange, fun b' hb => (h'.block b' hb).trans (h.block b' hb),
    fun r hr hb => ?_, fun r hr => ?_, fun r h₁ h₂ => ?_⟩
  · have hr' := hr.trans_le h.nextRange
    exact (h'.range r hr' (by rw [h.owner r hr]; exact hb)).trans (h.range r hr hb)
  · exact (h'.owner r (hr.trans_le h.nextRange)).trans (h.owner r hr)
  · by_cases hlt : r < s'.nextRange
    · rw [h'.owner r hlt]; exact h.fresh r h₁ hlt
    · exact h'.fresh r (Nat.not_lt.mp hlt) h₂

theorem Only.sameBlock {b b' : BlockId} {s s' : Store} (h : Only b s s') (hb : b' ≠ b) :
    SameBlock b' s s' :=
  ⟨h.nextBlock.ge, h.nextRange, h.block b' hb, fun r hr he => h.range r hr (he ▸ hb)⟩

theorem Only.blockAt {b : BlockId} {s s' : Store} (h : Only b s s') (i : Nat) :
    s'.blockAt i = s.blockAt i := by simp only [Store.blockAt, h.blocks]

-- In the middle of the ranges of block `b`, `m` gives way to `m'`.
structure Exchange (b : BlockId) (m m' : List RangeId) (s s' : Store) : Prop
    extends Only b s s' where
  num : (s'.block b).num = (s.block b).num
  blockBegin : (s'.block b).blockBegin = (s.block b).blockBegin
  blockEnd : (s'.block b).blockEnd = (s.block b).blockEnd
  ranges : ∃ l₁ l₂, s.ranges b = l₁ ++ m ++ l₂ ∧ s'.ranges b = l₁ ++ m' ++ l₂ ∧
    ∀ r ∈ l₁ ++ l₂, s'.range r = s.range r
  owned : ∀ r ∈ m', (s'.range r).block = b ∧ r < s'.nextRange
  chain : ∀ lo hi, Chain lo (s.spans m) hi → Chain lo (s'.spans m') hi
  remaining : (s'.block b).remaining - (s.block b).remaining =
    total (s'.spans m') - total (s.spans m)

theorem Exchange.tidy {c d : Prop} {b : BlockId} {m m' : List RangeId} {s s' : Store} {i : Nat}
    (h : Exchange b m m' s s') (ht : s.Tidy c d i b) (hne : s'.ranges b ≠ [])
    (hun : d → (s'.block b).unselectedRemaining - (s.block b).unselectedRemaining =
      total (unselectedSpans (m'.map s'.range)) - total (unselectedSpans (m.map s.range))) :
    s'.Tidy c d i b := by
  obtain ⟨l₁, l₂, hl, hl', hrange⟩ := h.ranges
  have h₁ : ∀ r ∈ l₁, s'.range r = s.range r := fun r hr => hrange r (List.mem_append_left _ hr)
  have h₂ : ∀ r ∈ l₂, s'.range r = s.range r := fun r hr => hrange r (List.mem_append_right _ hr)
  have howned := ht.owned
  have hchain := ht.chain
  rw [hl] at howned hchain
  refine ⟨⟨?_, ?_, ?_, hne, ?_, ?_⟩, ?_, fun hc => ?_, fun hd => ?_⟩
  · rw [h.nextBlock]; exact ht.lt
  · rw [h.blockBegin, computeBlockBegin_congr h.layout]; exact ht.blockBegin
  · rw [h.blockEnd, computeBlockEnd_congr h.layout]; exact ht.blockEnd
  · rw [hl']
    intro r hr
    simp only [List.mem_append] at hr
    have hold : ∀ r ∈ l₁ ++ l₂, (s'.range r).block = b ∧ r < s'.nextRange := fun r hr => by
      have := howned r (by simp only [List.mem_append] at hr ⊢; tauto)
      rw [hrange r hr]
      exact ⟨this.1, this.2.trans_le h.nextRange⟩
    rcases hr with (hr | hr) | hr
    · exact hold r (List.mem_append_left _ hr)
    · exact h.owned r hr
    · exact hold r (List.mem_append_right _ hr)
  · rw [hl', computeBlockBegin_congr h.layout, computeBlockEnd_congr h.layout]
    simp only [spans_append] at hchain ⊢
    rw [spans_congr h₁, spans_congr h₂]
    exact hchain.replace h.chain
  · rw [h.num]; exact ht.num
  · have hr := ht.remaining hc
    rw [hl] at hr
    rw [hl']
    have := h.remaining
    simp only [spans_append, total_append] at hr ⊢
    rw [spans_congr h₁, spans_congr h₂]
    omega
  · have hr := ht.unselected hd
    have := hun hd
    rw [hl] at hr
    rw [hl']
    simp only [List.map_append, unselectedSpans_append, total_append] at hr ⊢
    rw [records_congr h₁, records_congr h₂]
    omega

-- Where the exchanged ranges lose points they had, so do all of them.
theorem Exchange.covers {b : BlockId} {m m' : List RangeId} {s s' : Store} {lo hi x : Int}
    {p : Prop} (h : Exchange b m m' s s') (hs : s.Sound b lo hi)
    (hx : Covers (s'.spans m') x ↔ Covers (s.spans m) x ∧ p)
    (hp : ¬ p → Covers (s.spans m) x) :
    Covers (s'.spans (s'.ranges b)) x ↔ Covers (s.spans (s.ranges b)) x ∧ p := by
  obtain ⟨l₁, l₂, hl, hl', hrange⟩ := h.ranges
  have hchain := hs.chain
  rw [hl, spans_append, spans_append] at hchain
  rw [hl, hl']
  simp only [spans_append, covers_append, hx]
  rw [spans_congr fun r hr => hrange r (List.mem_append_left _ hr),
    spans_congr fun r hr => hrange r (List.mem_append_right _ hr)]
  by_cases hp' : p
  · simp only [hp', and_true]
  · have := hchain.not_covers_outside (hp hp')
    rw [covers_append] at this
    tauto

end Store

end Mldonkey.Swarming
