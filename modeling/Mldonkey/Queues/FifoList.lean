import Mldonkey.Queues.Fifo

-- The ring buffer as a list.
namespace Mldonkey.Queues

open Lib.Refine

namespace Fifo

variable {α : Type} {t : Fifo α} {a l : List α} {e : α} {n : Nat}

section Arrays

theorem setAt_append {p q : List α} {x : α} {i : Nat} (h : i = p.length) :
    setAt (p ++ x :: q) i e = some (p ++ e :: q) := by
  subst h
  rw [setAt, if_pos (by simp)]
  simp

theorem blit_append {pre mid post front old back : List α} {ofs dofs len : Nat}
    (hofs : ofs = pre.length) (hlen : len = mid.length) (hdofs : dofs = front.length)
    (hold : old.length = len) :
    blit (pre ++ (mid ++ post)) ofs (front ++ (old ++ back)) dofs len =
      some (front ++ (mid ++ back)) := by
  subst hofs hdofs hlen
  rw [blit, if_pos (by simp; omega)]
  congr 2
  · rw [List.take_left]
  · rw [List.drop_left, List.take_left, ← List.drop_drop, List.drop_left, ← hold, List.drop_left]

theorem makeLike_eq (ha : a ≠ []) (n : Nat) : ∃ x, makeLike a n = some (List.replicate n x) := by
  obtain ⟨x, a, rfl⟩ := List.exists_cons_of_ne_nil ha
  exact ⟨x, rfl⟩

theorem blit_fresh {pre mid post : List α} {x : α} {ofs len : Nat} (hofs : ofs = pre.length)
    (hlen : len = mid.length) (hn : len ≤ n) :
    blit (pre ++ (mid ++ post)) ofs (List.replicate n x) 0 len =
      some (mid ++ List.replicate (n - len) x) := by
  have hsplit : List.replicate n x = [] ++ (List.replicate len x ++ List.replicate (n - len) x) := by
    rw [List.nil_append, List.replicate_append_replicate, Nat.add_sub_cancel' hn]
  rw [hsplit]
  exact @blit_append α pre mid post [] _ _ ofs 0 len hofs hlen rfl (by simp)

theorem blit_both {l₂ g l₁ : List α} {x : α} {ofs len₁ len₂ : Nat} (hofs : ofs = l₂.length + g.length)
    (hlen₁ : len₁ = l₁.length) (hlen₂ : len₂ = l₂.length) (hn : len₁ + len₂ ≤ n) :
    ((blit (l₂ ++ (g ++ l₁)) ofs (List.replicate n x) 0 len₁).bind fun tab =>
      blit (l₂ ++ (g ++ l₁)) 0 tab len₁ len₂) =
        some (l₁ ++ (l₂ ++ List.replicate (n - len₁ - len₂) x)) := by
  have hfirst := @blit_fresh α n (l₂ ++ g) l₁ [] x ofs len₁ (by simp [hofs]) hlen₁ (by omega)
  have hsplit : List.replicate (n - len₁) x =
      List.replicate len₂ x ++ List.replicate (n - len₁ - len₂) x := by
    rw [List.replicate_append_replicate, Nat.add_sub_cancel' (by omega)]
  rw [List.append_nil, List.append_assoc] at hfirst
  rw [hfirst, Option.bind_some, hsplit]
  exact @blit_append α [] l₂ (g ++ l₁) l₁ _ _ 0 len₁ len₂ rfl hlen₂ hlen₁ (by simp)

end Arrays

-- The array has a power of two cells, and size is the mask of their indices.
structure Sized (t : Fifo α) : Prop where
  pow : ∃ k, t.size + 1 = 2 ^ (k + 2)
  cells : t.array.length = t.size + 1

-- The queue stands between outpos and inpos, or from outpos to the end of the array and
-- from its beginning to inpos.
inductive Shape (t : Fifo α) : List α → Prop
  | linear {p l q : List α} (hempty : t.empty = l.isEmpty) (ha : t.array = p ++ (l ++ q))
      (hq : q ≠ []) (hout : t.outpos = p.length) (hin : t.inpos = p.length + l.length) : Shape t l
  | wrapped {l₂ g l₁ : List α} (hempty : t.empty = false) (ha : t.array = l₂ ++ (g ++ l₁))
      (hl₁ : l₁ ≠ []) (hin : t.inpos = l₂.length) (hout : t.outpos = l₂.length + g.length) :
      Shape t (l₁ ++ l₂)

structure Holds (t : Fifo α) (l : List α) : Prop where
  sized : t.Sized
  shape : t.Shape l

theorem Sized.ne_nil (h : t.Sized) : t.array ≠ [] := by
  intro hnil
  have := h.cells
  rw [hnil, List.length_nil] at this
  omega

theorem landSize_succ (h : t.Sized) {i : Nat} (hi : i ≤ t.size) :
    landSize (i + 1 : Nat) t.size = if i = t.size then 0 else i + 1 := by
  obtain ⟨k, hk⟩ := h.pow
  have hsize : t.size = 2 ^ (k + 2) - 1 := by omega
  show (i + 1) &&& t.size = _
  rw [hsize, Nat.and_two_pow_sub_one_eq_mod, ← hk]
  split
  · rw [show i + 1 = t.size + 1 by omega, Nat.mod_self]
  · exact Nat.mod_eq_of_lt (by omega)

theorem landSize_pred (h : t.Sized) {i : Nat} (hi : i ≤ t.size) :
    landSize (i - 1 : Int) t.size = if i = 0 then t.size else i - 1 := by
  obtain ⟨k, hk⟩ := h.pow
  have hsize : t.size = 2 ^ (k + 2) - 1 := by omega
  cases i with
  | zero =>
      show t.size - (0 &&& t.size) = _
      rw [Nat.zero_and]
      rfl
  | succ i =>
      rw [show ((i + 1 : Nat) : Int) - 1 = (i : Int) by omega]
      show i &&& t.size = _
      rw [hsize, Nat.and_two_pow_sub_one_eq_mod, ← hk, Nat.mod_eq_of_lt (by omega)]
      rfl

theorem Holds.empty_iff (h : t.Holds l) : t.empty = l.isEmpty := by
  cases h.shape with
  | linear hempty => exact hempty
  | wrapped hempty _ hl₁ => simp [hempty, hl₁]

theorem holds_create (magic : α) : (create magic).Holds [] :=
  ⟨⟨⟨0, rfl⟩, rfl⟩, @Shape.linear α (create magic) [] [] (List.replicate 4 magic) rfl rfl (by simp) rfl rfl⟩

theorem Holds.clear (h : t.Sized) : ∃ t', t.clear = some t' ∧ t'.Holds [] := by
  obtain ⟨x, hx⟩ := makeLike_eq h.ne_nil 4
  exact ⟨create x, by rw [Fifo.clear, hx]; rfl, holds_create x⟩

theorem Holds.length_eq (h : t.Holds l) : t.length = l.length := by
  cases h.shape with
  | @linear p l q hempty ha hq hout hin =>
      rw [Fifo.length, hempty, hin, hout]
      cases l with
      | nil => rfl
      | cons e l =>
          rw [if_neg (by simp), if_pos (by simp)]
          omega
  | @wrapped l₂ g l₁ hempty ha hl₁ hin hout =>
      rw [Fifo.length, hempty, hin, hout, ha, if_neg (by simp), if_neg (by omega)]
      simp
      omega

-- No cell is free, and the queue is not empty.
def Full (t : Fifo α) : Prop := t.inpos = t.outpos ∧ t.empty = false

theorem Holds.grown (h : t.Holds l) : ∃ t', t.grown = some t' ∧ t'.Holds l ∧ ¬ t'.Full := by
  by_cases hfull : t.Full
  · obtain ⟨hpos, hempty⟩ := hfull
    rw [Fifo.grown, if_pos ⟨hpos, by simp [hempty]⟩]
    obtain ⟨⟨⟨k, hk⟩, hcells⟩, hshape⟩ := h
    cases hshape with
    | @linear p l q hempty' ha hq hout hin =>
        have hnil : l = [] := List.length_eq_zero_iff.mp (by omega)
        rw [hempty', hnil] at hempty
        exact absurd hempty (by simp)
    | @wrapped l₂ g l₁ _ ha hl₁ hin hout =>
        have hg : g = [] := List.length_eq_zero_iff.mp (by omega)
        subst hg
        have hlen : t.array.length = l₂.length + l₁.length := by
          rw [ha]
          simp
        obtain ⟨x, hx⟩ := makeLike_eq (Sized.ne_nil ⟨⟨k, hk⟩, hcells⟩) (2 * t.array.length)
        have hboth := @blit_both α (2 * t.array.length) l₂ [] l₁ x t.inpos (t.array.length - t.inpos)
          (t.array.length - (t.array.length - t.inpos)) (by simpa using hin) (by omega) (by omega)
          (by omega)
        rw [← ha] at hboth
        obtain ⟨m, hm⟩ : ∃ m, m = 2 * t.array.length - (t.array.length - t.inpos) -
          (t.array.length - (t.array.length - t.inpos)) := ⟨_, rfl⟩
        rw [← hm] at hboth
        refine ⟨⟨false, t.array.length, 0, l₁ ++ (l₂ ++ List.replicate m x), t.size * 2 + 1⟩, ?_,
          ⟨⟨⟨k + 1, ?_⟩, ?_⟩, ?_⟩, ?_⟩
        · rw [realloc, hx]
          simp only [Option.bind_eq_bind, Option.bind_some]
          rw [← Option.bind_assoc, hboth, hempty]
          rfl
        · show t.size * 2 + 1 + 1 = 2 ^ (k + 1 + 2)
          rw [Nat.pow_succ, ← Nat.add_right_comm, ← hk]
          omega
        · simp
          omega
        · rw [← List.append_assoc]
          refine @Shape.linear α _ [] (l₁ ++ l₂) _ (by simp [hl₁]) rfl ?_ rfl (by simp; omega)
          intro hrep
          have := congrArg List.length hrep
          simp at this
          omega
        · rintro ⟨hpos, -⟩
          have : t.array.length = 0 := hpos
          omega
  · have hroom : ¬ (t.inpos = t.outpos ∧ (!t.empty) = true) := fun hf =>
      hfull ⟨hf.1, by simpa using hf.2⟩
    exact ⟨t, by rw [Fifo.grown, if_neg hroom], h, hfull⟩

theorem Holds.put (h : t.Holds l) (e : α) : ∃ t', t.put e = some t' ∧ t'.Holds (l ++ [e]) := by
  obtain ⟨t, hgrown, ⟨hsized, hshape⟩, hfull⟩ := h.grown
  rw [Fifo.put, hgrown]
  simp only [Option.bind_eq_bind, Option.bind_some]
  have hcells := hsized.cells
  cases hshape with
  | @linear p l q hempty ha hq hout hin =>
      obtain ⟨x, q, rfl⟩ := List.exists_cons_of_ne_nil hq
      have hput := @setAt_append α e (p ++ l) q x t.inpos (by simp [hin])
      rw [List.append_assoc, ← ha, List.append_assoc] at hput
      rw [ha] at hcells
      simp only [List.length_append, List.length_cons] at hcells
      rw [hput, Option.bind_some, landSize_succ hsized (by omega)]
      refine ⟨_, rfl, ⟨hsized.pow, by simp; omega⟩, ?_⟩
      cases q with
      | nil =>
          rw [List.length_nil] at hcells
          rw [if_pos (by omega)]
          have hw := @Shape.wrapped α ⟨false, 0, t.outpos, p ++ (l ++ [e]), t.size⟩ [] p (l ++ [e]) rfl rfl
            (by simp) rfl (by simpa using hout)
          rw [List.append_nil] at hw
          exact hw
      | cons y q =>
          rw [List.length_cons] at hcells
          rw [if_neg (by omega)]
          exact @Shape.linear α _ p (l ++ [e]) (y :: q) (by simp) (by simp) (by simp) hout
            (by simp; omega)
  | @wrapped l₂ g l₁ hempty ha hl₁ hin hout =>
      obtain ⟨x, g, rfl⟩ := List.exists_cons_of_ne_nil
        (show g ≠ [] by
          rintro rfl
          exact hfull ⟨by simpa [hout] using hin, hempty⟩)
      have hpos := List.length_pos_iff.mpr hl₁
      have hput := @setAt_append α e l₂ (g ++ l₁) x t.inpos hin
      rw [← List.cons_append, ← ha] at hput
      rw [ha] at hcells
      simp only [List.length_append, List.length_cons] at hcells
      rw [hput, Option.bind_some, landSize_succ hsized (by omega), if_neg (by omega)]
      refine ⟨_, rfl, ⟨hsized.pow, by simp; omega⟩, ?_⟩
      rw [List.append_assoc]
      refine @Shape.wrapped α _ (l₂ ++ [e]) g l₁ rfl (by simp) hl₁ (by simp [hin]) ?_
      rw [List.length_cons] at hout
      simp
      omega

theorem Holds.putBackEle (h : t.Holds l) (e : α) :
    ∃ t', t.putBackEle e = some t' ∧ t'.Holds (e :: l) := by
  obtain ⟨t, hgrown, ⟨hsized, hshape⟩, hfull⟩ := h.grown
  rw [Fifo.putBackEle, hgrown]
  simp only [Option.bind_eq_bind, Option.bind_some]
  have hcells := hsized.cells
  cases hshape with
  | @linear p l q hempty ha hq hout hin =>
      have hpos := List.length_pos_iff.mpr hq
      rw [ha] at hcells
      simp only [List.length_append] at hcells
      rw [landSize_pred hsized (by omega)]
      rcases List.eq_nil_or_concat' p with rfl | ⟨p, x, rfl⟩
      · obtain ⟨q, x, rfl⟩ := (List.eq_nil_or_concat' q).resolve_left hq
        simp only [List.length_append, List.length_singleton, List.length_nil] at hcells hout hin
        rw [hout, if_pos rfl]
        have hput := @setAt_append α e (l ++ q) [] x t.size (by simp; omega)
        rw [List.append_assoc] at hput
        rw [ha, List.nil_append, hput, Option.bind_some]
        refine ⟨_, rfl, ⟨hsized.pow, by simp; omega⟩, ?_⟩
        exact @Shape.wrapped α ⟨false, t.inpos, t.size, (l ++ q) ++ [e], t.size⟩ l q [e] rfl (by simp) (by simp)
          (by simpa using hin) (by simp; omega)
      · simp only [List.length_append, List.length_singleton] at hcells hout hin
        rw [if_neg (by omega)]
        have hput := @setAt_append α e p (l ++ q) x (t.outpos - 1) (by omega)
        rw [ha, List.append_assoc, List.singleton_append, hput, Option.bind_some]
        refine ⟨_, rfl, ⟨hsized.pow, by simp; omega⟩, ?_⟩
        exact @Shape.linear α _ p (e :: l) q rfl rfl hq (by simp; omega) (by simp; omega)
  | @wrapped l₂ g l₁ hempty ha hl₁ hin hout =>
      obtain ⟨g, x, rfl⟩ := (List.eq_nil_or_concat' g).resolve_left (by
        rintro rfl
        exact hfull ⟨by simpa [hout] using hin, hempty⟩)
      have hpos := List.length_pos_iff.mpr hl₁
      rw [ha] at hcells
      simp only [List.length_append, List.length_singleton] at hcells hout
      rw [landSize_pred hsized (by omega), if_neg (by omega)]
      have hput := @setAt_append α e (l₂ ++ g) l₁ x (t.outpos - 1) (by simp; omega)
      rw [List.append_assoc] at hput
      rw [ha, List.append_assoc, List.singleton_append, hput, Option.bind_some]
      refine ⟨_, rfl, ⟨hsized.pow, by simp; omega⟩, ?_⟩
      exact @Shape.wrapped α ⟨false, t.inpos, t.outpos - 1, (l₂ ++ g) ++ e :: l₁, t.size⟩ l₂ g (e :: l₁) rfl
        (by simp) (by simp) hin (by simp; omega)

theorem Holds.putBack (h : t.Holds l) (list : List α) :
    ∃ t', t.putBack list = some t' ∧ t'.Holds (list ++ l) := by
  induction list with
  | nil => exact ⟨t, rfl, h⟩
  | cons e list ih =>
      obtain ⟨t', hput, h'⟩ := ih
      obtain ⟨t'', hele, h''⟩ := h'.putBackEle e
      exact ⟨t'', by rw [Fifo.putBack, hput]; exact hele, h''⟩

theorem Holds.toList (h : t.Holds l) : t.toList = some l := by
  have hne := h.sized.ne_nil
  cases h.shape with
  | @linear p l q hempty ha hq hout hin =>
      rw [Fifo.toList, hempty]
      cases l with
      | nil => rfl
      | cons e l =>
          obtain ⟨x, hx⟩ := makeLike_eq hne (t.inpos - t.outpos)
          have hblit := @blit_fresh α (t.inpos - t.outpos) p (e :: l) q x t.outpos (t.inpos - t.outpos)
            hout (by omega) (le_refl _)
          rw [← ha, Nat.sub_self, List.replicate_zero, List.append_nil] at hblit
          rw [if_neg (by simp), if_pos (by rw [hin, hout]; simp)]
          simp only [hx, Option.bind_eq_bind, Option.bind_some, hblit]
  | @wrapped l₂ g l₁ hempty ha hl₁ hin hout =>
      have hlen : t.array.length = l₂.length + g.length + l₁.length := by
        rw [ha]
        simp
        omega
      obtain ⟨x, hx⟩ := makeLike_eq hne (t.array.length + t.inpos - t.outpos)
      have hboth := @blit_both α (t.array.length + t.inpos - t.outpos) l₂ g l₁ x t.outpos
        (t.array.length - t.outpos) t.inpos hout (by omega) hin (by omega)
      rw [← ha, show t.array.length + t.inpos - t.outpos - (t.array.length - t.outpos) - t.inpos = 0 by
        omega, List.replicate_zero, List.append_nil] at hboth
      rw [Fifo.toList, hempty, if_neg (by simp), if_neg (by omega)]
      simp only [hx, Option.bind_eq_bind, Option.bind_some, hboth]

theorem half_sized {size cells k : Nat} (hk : size + 1 = 2 ^ (k + 2)) (hcells : cells = size + 1)
    (hbig : 3 < size) : (∃ k', (size - 1) / 2 + 1 = 2 ^ (k' + 2)) ∧ cells / 2 = (size - 1) / 2 + 1 := by
  cases k with
  | zero => omega
  | succ k =>
      refine ⟨⟨k, ?_⟩, by omega⟩
      have hpow : 2 ^ (k + 1 + 2) = 2 ^ (k + 2) * 2 := by rw [← Nat.pow_succ]
      omega

-- A queue that fills less than a quarter of the cells fits in half of them.
theorem Holds.shrink (h : t.Holds l) (hl : l ≠ []) (hfew : l.length < (t.size + 1) / 4) :
    ∃ t', t.shrink = some t' ∧ t'.Holds l := by
  obtain ⟨⟨⟨k, hk⟩, hcells⟩, hshape⟩ := h
  by_cases hbig : 3 < t.size
  · obtain ⟨hpow, hhalf⟩ := half_sized hk hcells hbig
    obtain ⟨x, hx⟩ := makeLike_eq (Sized.ne_nil ⟨⟨k, hk⟩, hcells⟩) (t.array.length / 2)
    have hfit : l.length < t.array.length / 2 := by omega
    rw [Fifo.shrink, if_pos hbig]
    simp only [hx, Option.bind_eq_bind, Option.bind_some]
    clear hfew hbig hcells hk
    generalize t.array.length / 2 = half at hx hfit hhalf ⊢
    cases hshape with
    | @linear p l q hempty ha hq hout hin =>
        have hpos := List.length_pos_iff.mpr hl
        have hblit := @blit_fresh α half p l q x t.outpos (t.inpos - t.outpos) hout
          (by omega) (by omega)
        rw [← ha] at hblit
        rw [if_pos (by omega), hblit, Option.bind_some]
        refine ⟨_, rfl, ⟨hpow, by simp; omega⟩, ?_⟩
        exact @Shape.linear α _ [] l _ hempty rfl
          (by rw [ne_eq, List.replicate_eq_nil_iff]; omega) rfl (by simp; omega)
    | @wrapped l₂ g l₁ hempty ha hl₁ hin hout =>
        have hlen : t.array.length = l₂.length + g.length + l₁.length := by
          rw [ha]
          simp
          omega
        rw [List.length_append] at hfit
        have hboth := @blit_both α half l₂ g l₁ x t.outpos (t.array.length - t.outpos)
          t.inpos hout (by omega) hin (by omega)
        rw [← ha] at hboth
        rw [if_neg (by omega), ← Option.bind_assoc, hboth, Option.bind_some]
        refine ⟨_, rfl, ⟨hpow, by simp; omega⟩, ?_⟩
        rw [← List.append_assoc]
        exact @Shape.linear α _ [] (l₁ ++ l₂) _ (by simp [hempty, hl₁]) rfl
          (by rw [ne_eq, List.replicate_eq_nil_iff]; omega) rfl (by simp; omega)
  · exact ⟨t, by rw [Fifo.shrink, if_neg hbig], ⟨⟨k, hk⟩, hcells⟩, hshape⟩

theorem Holds.takeOut {whole : List α} (h : t.Holds whole) (hl : whole = e :: l) :
    ∃ t', t.takeOut = some (t', e) ∧ t'.Holds l := by
  obtain ⟨hsized, hshape⟩ := h
  have hcells := hsized.cells
  rw [Fifo.takeOut]
  cases hshape with
  | @linear p _ q hempty ha hq hout hin =>
      subst hl
      have hpos := List.length_pos_iff.mpr hq
      have hget : t.array[t.outpos]? = some e := by
        rw [ha, hout]
        simp
      rw [ha] at hcells
      simp only [List.length_append, List.length_cons] at hcells hin
      rw [hget, landSize_succ hsized (by omega), if_neg (by omega)]
      simp only [Option.bind_eq_bind, Option.bind_some]
      cases l with
      | nil =>
          obtain ⟨t', hclear, hholds⟩ :=
            @Holds.clear α { t with outpos := t.outpos + 1 } ⟨hsized.pow, hsized.cells⟩
          rw [List.length_nil] at hin
          rw [if_pos (by omega), hclear]
          exact ⟨t', rfl, hholds⟩
      | cons y l =>
          rw [List.length_cons] at hin
          rw [if_neg (by omega)]
          refine ⟨_, rfl, ⟨hsized.pow, hsized.cells⟩, ?_⟩
          exact @Shape.linear α _ (p ++ [e]) (y :: l) q hempty (by simp [ha]) hq (by simp [hout])
            (by simp; omega)
  | @wrapped l₂ g l₁ hempty ha hl₁ hin hout =>
      obtain ⟨e', l₁, rfl⟩ := List.exists_cons_of_ne_nil hl₁
      obtain ⟨rfl, htail⟩ := List.cons.inj hl
      obtain rfl : l = l₁ ++ l₂ := htail.symm
      have hget : t.array[t.outpos]? = some e' := by
        rw [ha, hout, ← List.append_assoc, List.getElem?_append_right (by simp)]
        simp
      rw [ha] at hcells
      simp only [List.length_append, List.length_cons] at hcells
      rw [hget, landSize_succ hsized (by omega)]
      simp only [Option.bind_eq_bind, Option.bind_some]
      cases l₁ with
      | nil =>
          rw [List.length_nil] at hcells
          have hnext : (if t.outpos = t.size then 0 else t.outpos + 1) = 0 := if_pos (by omega)
          rw [hnext, List.nil_append]
          cases l₂ with
          | nil =>
              obtain ⟨t', hclear, hholds⟩ :=
                @Holds.clear α { t with outpos := 0 } ⟨hsized.pow, hsized.cells⟩
              rw [if_pos (by simpa using hin.symm), hclear]
              exact ⟨t', rfl, hholds⟩
          | cons y l₂ =>
              rw [if_neg (by rw [hin]; simp)]
              refine ⟨_, rfl, ⟨hsized.pow, hsized.cells⟩, ?_⟩
              exact @Shape.linear α _ [] (y :: l₂) (g ++ [e']) (by simp [hempty]) (by simp [ha])
                (by simp) rfl (by simpa using hin)
      | cons y l₁ =>
          rw [List.length_cons] at hcells
          have hnext : (if t.outpos = t.size then 0 else t.outpos + 1) = t.outpos + 1 :=
            if_neg (by omega)
          rw [hnext, if_neg (by omega)]
          refine ⟨_, rfl, ⟨hsized.pow, hsized.cells⟩, ?_⟩
          exact @Shape.wrapped α _ l₂ (g ++ [e']) (y :: l₁) hempty (by simp [ha]) (by simp) hin
            (by simp; omega)

theorem Holds.taken (h : t.Holds (e :: l)) : ∃ t', t.taken = some (t', e) ∧ t'.Holds l := by
  rw [Fifo.taken]
  by_cases hfew : t.length < (t.size + 1) / 4
  · rw [h.length_eq] at hfew
    obtain ⟨t', hshrink, h'⟩ := h.shrink (by simp) hfew
    rw [h.length_eq, if_pos hfew, hshrink]
    exact h'.takeOut rfl
  · rw [if_neg hfew]
    exact h.takeOut rfl

theorem Holds.head (h : t.Holds (e :: l)) : t.array[t.outpos]? = some e := by
  obtain ⟨t', htake, -⟩ := h.takeOut rfl
  rw [Fifo.takeOut] at htake
  cases hget : t.array[t.outpos]? with
  | none =>
      rw [hget] at htake
      cases htake
  | some e' =>
      rw [hget] at htake
      simp only [Option.bind_eq_bind, Option.bind_some] at htake
      split at htake
      · cases hclear : ({ t with outpos := landSize (t.outpos + 1 : Nat) t.size } : Fifo α).clear with
        | none =>
            rw [hclear] at htake
            cases htake
        | some t'' =>
            rw [hclear] at htake
            exact congrArg some (Prod.mk.inj (Option.some.inj htake)).2
      · exact congrArg some (Prod.mk.inj (Option.some.inj htake)).2

-- The queue in one piece, which may reach the end of the array.
theorem Holds.reformat (h : t.Holds l) (hl : l ≠ []) :
    ∃ t' p q, (if t.inpos ≤ t.outpos then t.reformat else some t) = some t' ∧ t'.Sized ∧
      t'.array = p ++ (l ++ q) ∧ t'.empty = false ∧ t'.outpos = p.length ∧
        t'.inpos = p.length + l.length ∧ (q = [] → t.Full) := by
  obtain ⟨hsized, hshape⟩ := h
  cases hshape with
  | @linear p l q hempty ha hq hout hin =>
      have hpos := List.length_pos_iff.mpr hl
      exact ⟨t, p, q, if_neg (by omega), hsized, ha, by rw [hempty]; simpa using hl, hout, hin,
        fun hnil => absurd hnil hq⟩
  | @wrapped l₂ g l₁ hempty ha hl₁ hin hout =>
      have hlen : t.array.length = l₂.length + g.length + l₁.length := by
        rw [ha]
        simp
        omega
      obtain ⟨x, hx⟩ := makeLike_eq hsized.ne_nil t.array.length
      have hboth := @blit_both α t.array.length l₂ g l₁ x t.outpos (t.array.length - t.outpos) t.inpos
        hout (by omega) hin (by omega)
      rw [← ha] at hboth
      obtain ⟨m, hm⟩ : ∃ m, m = t.array.length - (t.array.length - t.outpos) - t.inpos := ⟨_, rfl⟩
      rw [← hm] at hboth
      refine ⟨{ t with
        array := l₁ ++ (l₂ ++ List.replicate m x), inpos := t.array.length + t.inpos - t.outpos,
        outpos := 0 }, [], List.replicate m x, ?_, ⟨hsized.pow, ?_⟩, by simp, hempty, rfl, ?_, ?_⟩
      · rw [if_pos (by omega), Fifo.reformat, hempty, if_neg (by simp)]
        simp only [hx, Option.bind_eq_bind, Option.bind_some]
        rw [← Option.bind_assoc, hboth]
        rfl
      · have := hsized.cells
        simp
        omega
      · simp
        omega
      · intro hnil
        rw [List.replicate_eq_nil_iff] at hnil
        exact ⟨by omega, hempty⟩

-- The cells of a full ring are those of the queue.
theorem Holds.mem_of_full (h : t.Holds l) (hfull : t.Full) (hmem : e ∈ t.array) : e ∈ l := by
  obtain ⟨hpos, hempty⟩ := hfull
  cases h.shape with
  | @linear p l q hempty' ha hq hout hin =>
      have hnil : l = [] := List.length_eq_zero_iff.mp (by omega)
      rw [hempty', hnil] at hempty
      exact absurd hempty (by simp)
  | @wrapped l₂ g l₁ _ ha hl₁ hin hout =>
      have hg : g = [] := List.length_eq_zero_iff.mp (by omega)
      rw [ha, hg] at hmem
      simp only [List.nil_append, List.mem_append] at hmem ⊢
      exact hmem.symm

section Remove

variable [DecidableEq α]

-- The elements that are left.
abbrev without (l : List α) (e : α) : List α := l.filter fun x => e ≠ x

-- Between j and i are cells whose elements have been moved or dropped.
theorem removeIter_eq {kept gone rest q : List α} {i j : Nat}
    (ha : t.array = kept ++ (gone ++ (rest ++ q))) (hj : j = kept.length)
    (hi : i = kept.length + gone.length) (hin : t.inpos = i + rest.length) :
    ∃ a junk, a = kept ++ (without rest e ++ junk) ∧ a.length = t.array.length ∧
      removeIter e rest.length t i j = removeIter e 0 { t with array := a } t.inpos
        (kept.length + (without rest e).length) := by
  induction rest generalizing t kept gone i j with
  | nil =>
      obtain rfl : i = t.inpos := by
        rw [hin]
        rfl
      refine ⟨t.array, gone ++ q, by rw [ha]; simp, rfl, ?_⟩
      rw [hj]
      rfl
  | cons x rest ih =>
      have hget : t.array[i]? = some x := by
        rw [ha, hi, List.getElem?_append_right (by omega), Nat.add_sub_cancel_left,
          List.getElem?_append_right (by omega)]
        simp
      rw [List.length_cons] at hin ⊢
      rw [removeIter, hget]
      simp only [Option.bind_eq_bind, Option.bind_some]
      by_cases hx : e = x
      · rw [if_pos hx]
        have hfilter : without (x :: rest) e = without rest e := by simp [without, hx]
        rw [hfilter]
        exact @ih t kept (gone ++ [x]) (i + 1) j (by rw [ha]; simp) hj (by simp; omega) (by omega)
      · rw [if_neg hx]
        have hfilter : without (x :: rest) e = x :: without rest e := by simp [without, hx]
        rw [hfilter]
        -- the element is moved to j, unless it stands there
        obtain ⟨a, gone', hset, hmoved, hgone⟩ : ∃ a gone',
            (if j < i then setAt t.array j x else some t.array) = some a ∧
              a = (kept ++ [x]) ++ (gone' ++ (rest ++ q)) ∧ gone'.length = gone.length := by
          cases gone with
          | nil =>
              rw [List.length_nil] at hi
              exact ⟨t.array, [], if_neg (by omega), by rw [ha]; simp, rfl⟩
          | cons y gone =>
              have hput := @setAt_append α x kept (gone ++ (x :: rest ++ q)) y j hj
              rw [← List.cons_append, ← ha] at hput
              rw [List.length_cons] at hi
              exact ⟨_, gone ++ [x], by rw [if_pos (by omega), hput], by simp, by simp⟩
        rw [hset, Option.bind_some]
        obtain ⟨a', junk, ha', hlen, hrun⟩ := @ih { t with array := a } (kept ++ [x]) gone' (i + 1) (j + 1)
          hmoved (by simp [hj]) (by simp; omega) (by simp only; omega)
        refine ⟨a', junk, by rw [ha']; simp, ?_, ?_⟩
        · rw [hlen, hmoved, ha]
          simp
          omega
        · rw [hrun, List.length_append, List.length_singleton, List.length_cons]
          simp only [Nat.add_assoc, Nat.add_comm 1]

-- remove drops the elements equal to e; in a full ring there must be one.
theorem Holds.remove (h : t.Holds l) (hok : t.Full → e ∈ l) :
    ∃ t', t.remove e = some t' ∧ t'.Holds (without l e) := by
  by_cases hl : l = []
  · subst hl
    exact ⟨t, by rw [Fifo.remove, h.empty_iff]; rfl, h⟩
  · have hempty : t.empty = false := by
      rw [h.empty_iff]
      simpa using hl
    obtain ⟨t', p, q, hform, hsized, ha, hempty', hout, hin, hfull⟩ := h.reformat hl
    obtain ⟨a, junk, hout', hlen, hrun⟩ := @removeIter_eq α t' e _ p [] l q t'.outpos t'.outpos
      ha hout hout (by rw [hin, hout])
    have hsplit : t'.inpos - t'.outpos = l.length := by omega
    have hle : (without l e).length ≤ l.length := List.length_filter_le _ _
    rw [Fifo.remove, hempty, if_neg (by simp), hform]
    simp only [Option.bind_eq_bind, Option.bind_some]
    rw [hsplit, hrun, removeIter]
    have hcells : a.length = t'.size + 1 := hlen.trans hsized.cells
    have hacells := hcells
    rw [hout'] at hacells
    simp only [List.length_append] at hacells
    have htcells := hsized.cells
    rw [ha] at htcells
    simp only [List.length_append] at htcells
    by_cases hmove : p.length + (without l e).length < t'.inpos
    · rw [if_pos hmove]
      by_cases hnone : p.length + (without l e).length = t'.outpos
      · have hnil : without l e = [] := List.length_eq_zero_iff.mp (by omega)
        obtain ⟨t'', hclear, hholds⟩ := @Holds.clear α
          { t' with array := a, inpos := p.length + (without l e).length } ⟨hsized.pow, hcells⟩
        rw [if_pos hnone, hclear, hnil]
        exact ⟨t'', rfl, hholds⟩
      · rw [if_neg hnone]
        refine ⟨_, rfl, ⟨hsized.pow, hcells⟩, ?_⟩
        refine @Shape.linear α _ p (without l e) junk ?_ hout' ?_ hout rfl
        · rw [show t'.empty = false from hempty']
          cases hw : without l e with
          | nil =>
              rw [hw, List.length_nil] at hnone
              omega
          | cons => rfl
        · rintro rfl
          rw [List.length_nil] at hacells
          omega
    · -- nothing was dropped
      rw [if_neg hmove]
      have hsame : without l e = l := List.filter_eq_self.mpr (by
        have := List.length_filter_eq_length_iff.mp (show (without l e).length = l.length by omega)
        exact this)
      have habsent : e ∉ l := by
        intro hmem
        rw [without, List.filter_eq_self] at hsame
        have := hsame e hmem
        simp at this
      refine ⟨_, rfl, ⟨hsized.pow, hcells⟩, ?_⟩
      refine @Shape.linear α _ p (without l e) junk ?_ hout' ?_ hout (by rw [hsame]; exact hin)
      · rw [hsame, show t'.empty = false from hempty']
        simpa using hl
      · rintro rfl
        rw [List.length_nil] at hacells
        exact habsent (hok (hfull (List.length_eq_zero_iff.mp (by omega))))

-- A remove from a full ring finds an element to drop.
def RemoveOk (t : Fifo α) : FifoOp α → Prop
  | .remove e => t.Full → e ∈ t.array
  | _ => True

-- One operation on the ring is the operation on the list.
theorem Holds.step (h : t.Holds l) (op : FifoOp α) (hok : RemoveOk t op) :
    ∃ t', t.step op = some (t', (listStep without l op).2) ∧ t'.Holds (listStep without l op).1 := by
  have hempty := h.empty_iff
  cases op with
  | put e =>
      obtain ⟨t', hput, h'⟩ := h.put e
      exact ⟨t', by rw [Fifo.step, hput]; rfl, h'⟩
  | take =>
      rw [Fifo.step, hempty]
      cases l with
      | nil => exact ⟨t, rfl, h⟩
      | cons e l =>
          obtain ⟨t', htake, h'⟩ := h.taken
          exact ⟨t', by rw [if_neg (by simp), htake]; rfl, h'⟩
  | head =>
      rw [Fifo.step, hempty]
      cases l with
      | nil => exact ⟨t, rfl, h⟩
      | cons e l => exact ⟨t, by rw [if_neg (by simp), h.head]; rfl, h⟩
  | putBackEle e =>
      obtain ⟨t', hput, h'⟩ := h.putBackEle e
      exact ⟨t', by rw [Fifo.step, hput]; rfl, h'⟩
  | putBack list =>
      obtain ⟨t', hput, h'⟩ := h.putBack list
      exact ⟨t', by rw [Fifo.step, hput]; rfl, h'⟩
  | remove e =>
      obtain ⟨t', hremove, h'⟩ := h.remove fun hfull => h.mem_of_full hfull (hok hfull)
      exact ⟨t', by rw [Fifo.step, hremove]; rfl, h'⟩
  | clear =>
      obtain ⟨t', hclear, h'⟩ := Holds.clear h.sized
      exact ⟨t', by rw [Fifo.step, hclear]; rfl, h'⟩
  | length => exact ⟨t, by rw [Fifo.step, h.length_eq]; rfl, h⟩
  | empty => exact ⟨t, by rw [Fifo.step, hempty]; rfl, h⟩
  | toList => exact ⟨t, by rw [Fifo.step, h.toList]; rfl, h⟩

end Remove

end Fifo

-- Every run of operations answers as the list does, and no index is out of bounds, when
-- no remove of an absent element meets a full ring.
theorem fifo_refines_list {α : Type} [DecidableEq α] (magic : α) {ops : List (FifoOp α)}
    (hok : AllOk Fifo.step Fifo.RemoveOk (Fifo.create magic) ops) :
    ∃ t, run Fifo.step (Fifo.create magic) ops =
      some (t, results (listStep Fifo.without) [] ops) := by
  obtain ⟨t, ht⟩ := run_results (fun _ _ op h hop => Fifo.Holds.step h op hop)
    (Fifo.holds_create magic) hok
  exact ⟨t, ht⟩

-- A wrapped queue from which two elements are removed at once.
theorem fifo_refines_list_wrapped :
    ∃ t, run Fifo.step (Fifo.create 0) [.put 1, .putBackEle 2, .put 1, .remove 1, .toList] =
      some (t, results (listStep Fifo.without) [] [.put 1, .putBackEle 2, .put 1, .remove 1, .toList]) :=
  fifo_refines_list 0 (.cons trivial rfl (.cons trivial rfl (.cons trivial rfl
    (.cons (fun _ => by decide) rfl (.cons trivial rfl trivial)))))

-- remove drops both elements that are equal to 1, not only the first one.
theorem fifo_refines_list_false : ¬ ∀ (magic : Nat) (ops : List (FifoOp Nat)),
    ∃ t, run Fifo.step (Fifo.create magic) ops =
      some (t, results (listStep List.erase) [] ops) := by
  intro h
  obtain ⟨t, ht⟩ := h 0 [.put 1, .put 2, .put 1, .remove 1, .toList]
  have hbad : (run Fifo.step (Fifo.create 0) [.put 1, .put 2, .put 1, .remove 1, .toList]).map Prod.snd =
      some (results (listStep List.erase) [] [.put 1, .put 2, .put 1, .remove 1, .toList]) := by
    rw [ht]
    rfl
  exact absurd hbad (by decide)

end Mldonkey.Queues
