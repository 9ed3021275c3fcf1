import Mldonkey.Sockets.Buffers

-- The strings of the buffers and of the pool are apart, and a buffer holds its queue.
namespace Mldonkey.Sockets

namespace World

structure Inv (w : World) (q : BufId → Bytes) : Prop where
  null : w.heap 0 = []
  next_pos : 0 < w.next
  nodup : w.oldStrings.Nodup
  pool : ∀ s ∈ w.oldStrings, s ≠ 0 ∧ s < w.next ∧ (w.heap s).length = minBufferRead
  pool_apart : ∀ i, (w.buf i).loc ∉ w.oldStrings
  apart : ∀ i j, i ≠ j → (w.buf i).loc = (w.buf j).loc → (w.buf i).loc = 0
  loc_lt : ∀ i, (w.buf i).loc < w.next
  inside : ∀ i, (w.buf i).pos + (w.buf i).len ≤ (w.string i).length
  queue : ∀ i, w.content i = q i
  idle : ∀ i, (w.buf i).len = 0 → (w.buf i).pos = 0

variable {w w' : World} {q : BufId → Bytes} {i : BufId} {s : Loc} {data : Bytes}

theorem inv_initial (max : BufId → Nat) : (initial max).Inv fun _ => [] where
  null := rfl
  next_pos := Nat.one_pos
  nodup := List.nodup_nil
  pool := by simp [initial]
  pool_apart := by simp [initial]
  apart := fun _ _ _ _ => rfl
  loc_lt := fun _ => Nat.one_pos
  inside := fun _ => le_refl 0
  queue := fun _ => rfl
  idle := fun _ _ => rfl

theorem Inv.length_queue (h : w.Inv q) (i : BufId) : (q i).length = (w.buf i).len := by
  have hin := h.inside i
  rw [← h.queue i, content, List.length_take, List.length_drop]
  omega

theorem Inv.of_empty (h : w.Inv q) (he : w.string i = []) :
    (w.buf i).pos = 0 ∧ (w.buf i).len = 0 ∧ q i = [] := by
  have hin := h.inside i
  have hq := h.length_queue i
  rw [he, List.length_nil] at hin
  exact ⟨by omega, by omega, List.length_eq_zero_iff.mp (by omega)⟩

-- What an operation on one buffer may do: it changes this buffer and the string that the
-- buffer has afterwards, which no other buffer has, and may give its old string away.
theorem Inv.replace (h : w.Inv q) {b : Buf} (hbuf : w'.buf = Function.update w.buf i b)
    (hheap : ∀ s, s ≠ b.loc → w'.heap s = w.heap s) (hnull : w'.heap 0 = [])
    (hnext : w.next ≤ w'.next) (hlt : b.loc < w'.next) (hnodup : w'.oldStrings.Nodup)
    (hmem : b.loc ∉ w'.oldStrings) (hpool : ∀ s ∈ w'.oldStrings, s ∈ w.oldStrings)
    (hfree : ∀ j, j ≠ i → (w.buf j).loc = b.loc → b.loc = 0)
    (hin : b.pos + b.len ≤ (w'.heap b.loc).length) (hidle : b.len = 0 → b.pos = 0) :
    w'.Inv (Function.update q i (((w'.heap b.loc).drop b.pos).take b.len)) := by
  have hself : w'.buf i = b := by rw [hbuf, Function.update_self]
  have hother : ∀ j, j ≠ i → w'.buf j = w.buf j := fun j hj => by
    rw [hbuf, Function.update_of_ne hj]
  have hstring : ∀ j, j ≠ i → w'.string j = w.string j := by
    intro j hj
    rw [string, string, hother j hj]
    by_cases hl : (w.buf j).loc = b.loc
    · rw [hl, hfree j hj hl, hnull, h.null]
    · exact hheap _ hl
  refine ⟨hnull, h.next_pos.trans_le hnext, hnodup, ?_, ?_, ?_, ?_, ?_, ?_, ?_⟩
  · intro s hs
    obtain ⟨h1, h2, h3⟩ := h.pool s (hpool s hs)
    exact ⟨h1, h2.trans_le hnext, by rw [hheap s (fun he => hmem (he ▸ hs)), h3]⟩
  · intro j hj
    by_cases hji : j = i
    · subst hji
      rw [hself] at hj
      exact hmem hj
    · rw [hother j hji] at hj
      exact h.pool_apart j (hpool _ hj)
  · intro j k hne heq
    by_cases hj : j = i
    · subst hj
      rw [hself] at heq ⊢
      rw [hother k (Ne.symm hne)] at heq
      exact hfree k (Ne.symm hne) heq.symm
    · rw [hother j hj] at heq ⊢
      by_cases hk : k = i
      · subst hk
        rw [hself] at heq
        rw [heq]
        exact hfree j hj heq
      · rw [hother k hk] at heq
        exact h.apart j k hne heq
  · intro j
    by_cases hj : j = i
    · subst hj
      rw [hself]
      exact hlt
    · rw [hother j hj]
      exact (h.loc_lt j).trans_le hnext
  · intro j
    by_cases hj : j = i
    · subst hj
      rw [string, hself]
      exact hin
    · rw [hstring j hj, hother j hj]
      exact h.inside j
  · intro j
    by_cases hj : j = i
    · subst hj
      rw [Function.update_self, content, string, hself]
    · rw [Function.update_of_ne hj, content, hstring j hj, hother j hj]
      exact h.queue j
  · intro j
    by_cases hj : j = i
    · subst hj
      rw [hself]
      exact hidle
    · rw [hother j hj]
      exact h.idle j

theorem Inv.deleteString (h : w.Inv q) (hs : s < w.next) (hmem : s ∉ w.oldStrings)
    (hfree : s ≠ 0 → ∀ i, (w.buf i).loc ≠ s) : (w.deleteString s).Inv q := by
  rw [World.deleteString]
  split
  · next hlen =>
      have hne : s ≠ 0 := by
        rintro rfl
        rw [h.null] at hlen
        exact absurd hlen.2 (by decide)
      refine ⟨h.null, h.next_pos, List.nodup_cons.mpr ⟨hmem, h.nodup⟩, ?_, ?_, h.apart, h.loc_lt,
        h.inside, h.queue, h.idle⟩
      · intro t ht
        rcases List.mem_cons.mp ht with rfl | ht
        · exact ⟨hne, hs, hlen.2⟩
        · exact h.pool t ht
      · intro i hi
        rcases List.mem_cons.mp hi with hi | hi
        · exact hfree hne i hi
        · exact h.pool_apart i hi
  · exact h

theorem deleteString_setBuf (w : World) (s : Loc) (i : BufId) (b : Buf) :
    (w.deleteString s).setBuf i b = (w.setBuf i b).deleteString s := by
  rw [World.deleteString, World.deleteString]
  split
  · next hs => exact (if_pos hs).symm
  · next hs => exact (if_neg hs).symm

@[simp] theorem closing_deleteString (w : World) (s : Loc) :
    (w.deleteString s).closing = w.closing := by
  rw [World.deleteString]
  split <;> rfl

@[simp] theorem heap_deleteString (w : World) (s : Loc) : (w.deleteString s).heap = w.heap := by
  rw [World.deleteString]
  split <;> rfl

@[simp] theorem buf_setBuf (w : World) (i : BufId) (b : Buf) : (w.setBuf i b).buf i = b :=
  Function.update_self _ _ _

@[simp] theorem buf_deleteString (w : World) (s : Loc) : (w.deleteString s).buf = w.buf := by
  rw [World.deleteString]
  split <;> rfl

-- A buffer that has nothing left loses its string.
theorem Inv.reset (h : w.Inv q) (i : BufId) {b : Buf} (hloc : b.loc = 0) (hpos : b.pos = 0)
    (hlen : b.len = 0) :
    ((w.deleteString (w.buf i).loc).setBuf i b).Inv (Function.update q i []) := by
  have hset : (w.setBuf i b).Inv (Function.update q i []) := by
    have hr := @Inv.replace w (w.setBuf i b) q i h b rfl (fun _ _ => rfl) h.null (le_refl _)
      (hloc ▸ h.next_pos) h.nodup
      (fun hmem => (h.pool _ hmem).1 hloc) (fun _ hs => hs) (fun _ _ _ => hloc)
      (by rw [hpos, hlen]; exact Nat.zero_le _) (fun _ => hpos)
    rwa [hlen, List.take_zero] at hr
  rw [deleteString_setBuf]
  refine hset.deleteString (h.loc_lt i) (h.pool_apart i) fun hne j => ?_
  show (Function.update w.buf i b j).loc ≠ _
  by_cases hj : j = i
  · subst hj
    rw [Function.update_self, hloc]
    exact hne.symm
  · rw [Function.update_of_ne hj]
    exact fun heq => hne (h.apart j i hj heq ▸ heq.symm)

-- In w', which comes from w, the string s is there for buffer i alone.
structure Grants (w w' : World) (i : BufId) (s : Loc) : Prop where
  buf : w'.buf = w.buf
  closing : w'.closing = w.closing
  heap : ∀ t, t ≠ s → w'.heap t = w.heap t
  own : w'.heap (w.buf i).loc = w.heap (w.buf i).loc
  ne_null : s ≠ 0
  next_le : w.next ≤ w'.next
  lt : s < w'.next
  nodup : w'.oldStrings.Nodup
  not_mem : s ∉ w'.oldStrings
  pool : ∀ t ∈ w'.oldStrings, t ∈ w.oldStrings
  free : ∀ j, j ≠ i → (w.buf j).loc ≠ s

theorem Inv.grants_own (h : w.Inv q) (hne : w.string i ≠ []) : w.Grants w i (w.buf i).loc where
  buf := rfl
  closing := rfl
  heap := fun _ _ => rfl
  own := rfl
  ne_null := fun h0 => hne (by rw [string, h0, h.null])
  next_le := le_refl _
  lt := h.loc_lt i
  nodup := h.nodup
  not_mem := h.pool_apart i
  pool := fun _ ht => ht
  free := fun j hj heq => hne (by rw [string, ← heq, h.apart j i hj heq, h.null])

theorem Inv.grants_create (h : w.Inv q) (i : BufId) (n : Nat) :
    w.Grants (w.create n).1 i w.next where
  buf := rfl
  closing := rfl
  heap := fun _ ht => Function.update_of_ne ht _ _
  own := Function.update_of_ne (Nat.ne_of_lt (h.loc_lt i)) _ _
  ne_null := Nat.ne_of_gt h.next_pos
  next_le := Nat.le_succ _
  lt := Nat.lt_succ_self _
  nodup := h.nodup
  not_mem := fun hmem => Nat.lt_irrefl _ (h.pool _ hmem).2.1
  pool := fun _ ht => ht
  free := fun j _ => Nat.ne_of_lt (h.loc_lt j)

@[simp] theorem heap_create (w : World) (n : Nat) :
    (w.create n).1.heap w.next = List.replicate n 0 := Function.update_self _ _ _

-- Out of the pool or not, a new string has the same length.
theorem Inv.grants_newString (h : w.Inv q) (i : BufId) :
    w.Grants w.newString.1 i w.newString.2 ∧
      (w.newString.1.heap w.newString.2).length = minBufferRead := by
  rw [newString]
  split
  · refine ⟨h.grants_create i _, ?_⟩
    show ((w.create minBufferRead).1.heap w.next).length = _
    rw [heap_create, List.length_replicate]
  · next s rest hold =>
      have hmem : s ∈ w.oldStrings := by rw [hold]; exact List.mem_cons_self
      obtain ⟨hne, hlt, hlen⟩ := h.pool s hmem
      have hnodup := h.nodup
      rw [hold, List.nodup_cons] at hnodup
      exact ⟨⟨rfl, rfl, fun _ _ => rfl, rfl, hne, le_refl _, hlt, hnodup.2, hnodup.1,
        fun t ht => by rw [hold]; exact List.mem_cons_of_mem _ ht,
        fun j _ heq => h.pool_apart j (heq ▸ hmem)⟩, hlen⟩

-- The string of the buffer becomes t.
def put (w : World) (i : BufId) (t : Bytes) (b : Buf) : World :=
  World.setBuf { w with heap := Function.update w.heap b.loc t } i b

theorem Inv.put (h : w.Inv q) {b : Buf} {t : Bytes} (hg : w.Grants w' i b.loc)
    (hin : b.pos + b.len ≤ t.length) (hidle : b.len = 0 → b.pos = 0) :
    (w'.put i t b).Inv (Function.update q i ((t.drop b.pos).take b.len)) := by
  have hself : (w'.put i t b).heap b.loc = t := Function.update_self _ _ _
  have hne : ∀ s, s ≠ b.loc → (w'.put i t b).heap s = w.heap s := fun s hs =>
    (Function.update_of_ne hs _ _).trans (hg.heap s hs)
  have hbuf : (w'.put i t b).buf = Function.update w.buf i b := by
    show Function.update w'.buf i b = _
    rw [hg.buf]
  have hinv := h.replace hbuf hne ((hne 0 hg.ne_null.symm).trans h.null) hg.next_le hg.lt
    hg.nodup hg.not_mem hg.pool (fun j hj heq => absurd heq (hg.free j hj))
    (hself.symm ▸ hin) hidle
  rwa [hself] at hinv

theorem blit_eq {w : World} {pos : Nat} (hin : pos + data.length ≤ (w.heap s).length) :
    blit data w s pos = some { w with heap := (Function.update w.heap s
      ((w.heap s).take pos ++ (data ++ (w.heap s).drop (pos + data.length)))) } := if_pos hin

theorem sub_eq {pos len : Nat} (hin : pos + len ≤ (w.heap s).length) :
    w.sub s pos len = some (((w.heap s).drop pos).take len) := if_pos hin

theorem moveTo_eq (hin : (w.buf i).pos + (w.buf i).len ≤ (w.string i).length)
    (hroom : (w.buf i).len + data.length ≤ (w.heap s).length) :
    w.moveTo i s data = some (w.put i
      (w.content i ++ (data ++ (w.heap s).drop ((w.buf i).len + data.length)))
      { w.buf i with loc := s, pos := 0, len := (w.buf i).len + data.length }) := by
  have hlen : (w.content i).length = (w.buf i).len := by
    rw [content, List.length_take, List.length_drop]
    omega
  have hfirst : blit (w.content i) w s 0 = some { w with heap := (Function.update w.heap s
      (w.content i ++ (w.heap s).drop (w.buf i).len)) } := by
    rw [blit_eq (by omega), List.take_zero, List.nil_append, Nat.zero_add, hlen]
  rw [moveTo, sub_eq hin]
  show (do
    let w' ← blit (w.content i) w s 0
    let w'' ← blit data w' s (w.buf i).len
    return w''.setBuf i _) = _
  rw [hfirst, Option.bind_eq_bind, Option.bind_some, blit_eq]
  · simp only [Option.bind_some, Function.update_self, Function.update_idem]
    rw [List.take_left' hlen, ← List.drop_drop, List.drop_left' hlen, List.drop_drop]
    rfl
  · simp only [Function.update_self, List.length_append, List.length_drop, hlen]
    omega

-- The bytes of the buffer are moved to a string that is there for it.
theorem Inv.moveTo (h : w.Inv q) (data : Bytes) (hg : w.Grants w' i s)
    (hroom : (w.buf i).len + data.length ≤ (w'.heap s).length) :
    ∃ w'', w'.moveTo i s data = some w'' ∧
      w''.Inv (Function.update q i (q i ++ data)) ∧ w''.closing = w.closing ∧
      w''.oldStrings = w'.oldStrings ∧ w''.next = w'.next ∧
      w''.buf = Function.update w.buf i
        { w.buf i with loc := s, pos := 0, len := (w.buf i).len + data.length } := by
  have hstring : w'.string i = w.string i := by
    rw [string, string, hg.buf, hg.own]
  have hcontent : w'.content i = q i := by
    rw [content, hstring, hg.buf]
    exact h.queue i
  have hmove : w'.moveTo i s data = some _ := moveTo_eq
    (by rw [hstring, hg.buf]; exact h.inside i) (by rw [hg.buf]; exact hroom)
  rw [hcontent, hg.buf] at hmove
  refine ⟨_, hmove, ?_, hg.closing, rfl, rfl, ?_⟩
  · have hlen : (w.buf i).len + data.length = (q i ++ data).length := by
      rw [List.length_append, h.length_queue i]
    have hput := h.put (b := ⟨s, 0, (w.buf i).len + data.length, (w.buf i).maxBufSize,
      (w.buf i).minBufSize⟩) (t := q i ++ (data ++ (w'.heap s).drop
        ((w.buf i).len + data.length))) hg ?_ (fun _ => rfl)
    · rw [List.drop_zero, ← List.append_assoc, List.take_left' hlen.symm] at hput
      rw [List.append_assoc] at hput
      exact hput
    · rw [← List.append_assoc, List.length_append, ← hlen]
      exact Nat.le_add_right _ _ |>.trans' (le_of_eq (Nat.zero_add _))
  · show Function.update w'.buf i _ = _
    rw [hg.buf]

end World

end Mldonkey.Sockets
