import Mldonkey.Sockets.Strings

-- What every operation on a socket makes of the queues of its buffers.
namespace Mldonkey.Sockets

namespace World

variable {w w' : World} {q : BufId → Bytes} {i : BufId} {s : Loc} {data : Bytes} {k : Nat}

theorem Inv.setBuf_grants (h : w.Inv q) (hg : w.Grants w' i s) (he : w.string i = []) :
    (w'.setBuf i { w.buf i with loc := s }).Inv q := by
  obtain ⟨hpos, hlen, hq⟩ := h.of_empty he
  have hput := h.put (b := { w.buf i with loc := s }) (t := w'.heap s) hg
    (by rw [hpos, hlen]; exact Nat.zero_le _) (fun _ => hpos)
  have hworld : w'.put i (w'.heap s) { w.buf i with loc := s } =
      w'.setBuf i { w.buf i with loc := s } := by
    rw [World.put, Function.update_eq_self]
  have hqueue : Function.update q i [] = q := by
    rw [← hq, Function.update_eq_self]
  rw [hworld, hlen, List.take_zero, hqueue] at hput
  exact hput

theorem Inv.withString (h : w.Inv q) (i : BufId) :
    (w.withString i).Inv q ∧ (w.withString i).string i ≠ [] ∧
      (w.withString i).closing = w.closing := by
  rw [World.withString]
  split
  · next he =>
      obtain ⟨hg, hlen⟩ := h.grants_newString i
      refine ⟨h.setBuf_grants hg he, ?_, hg.closing⟩
      apply List.ne_nil_of_length_pos
      show 0 < (w.newString.1.heap (Function.update w.newString.1.buf i _ i).loc).length
      rw [Function.update_self, hlen]
      decide
  · next he => exact ⟨h, he, rfl⟩

theorem Inv.setBuf (h : w.Inv q) {b : Buf} (hloc : b.loc = (w.buf i).loc)
    (hpos : b.pos = (w.buf i).pos) (hlen : b.len = (w.buf i).len) : (w.setBuf i b).Inv q := by
  have hr := @Inv.replace w (w.setBuf i b) q i h b rfl (fun _ _ => rfl) h.null (le_refl _)
    (hloc ▸ h.loc_lt i) h.nodup (hloc ▸ h.pool_apart i) (fun _ hs => hs)
    (fun j hj heq => heq ▸ h.apart j i hj (heq.trans hloc))
    (by rw [hpos, hlen, hloc]; exact h.inside i) (by rw [hpos, hlen]; exact h.idle i)
  have hq : (((w.setBuf i b).heap b.loc).drop b.pos).take b.len = q i := by
    rw [hpos, hlen, hloc]
    exact h.queue i
  rwa [hq, Function.update_eq_self] at hr

theorem setBuf_setBuf (w : World) (i : BufId) (b b' : Buf) :
    (w.setBuf i b).setBuf i b' = w.setBuf i b' := by
  rw [World.setBuf, World.setBuf, Function.update_idem]
  rfl

theorem Inv.bufUsed (h : w.Inv q) {nused : Nat} (hn : nused ≤ (w.buf i).len) :
    (w.bufUsed i nused).Inv (Function.update q i ((q i).drop nused)) := by
  have hlen := h.length_queue i
  have hin := h.inside i
  rw [World.bufUsed]
  split
  · next heq =>
      rw [List.drop_eq_nil_of_le (by omega)]
      exact h.reset i rfl rfl rfl
  · next hne =>
      have hr := @Inv.replace w (w.setBuf i { w.buf i with
        len := (w.buf i).len - nused, pos := (w.buf i).pos + nused }) q i h _ rfl
        (fun _ _ => rfl) h.null (le_refl _) (h.loc_lt i) h.nodup (h.pool_apart i)
        (fun _ hs => hs) (fun j hj heq => heq ▸ h.apart j i hj heq)
        (by show (w.buf i).pos + nused + ((w.buf i).len - nused) ≤ (w.string i).length; omega)
        (fun hzero => by
          have hzero : (w.buf i).len - nused = 0 := hzero
          omega)
      have hq : (q i).drop nused = ((w.string i).drop ((w.buf i).pos + nused)).take
          ((w.buf i).len - nused) := by
        rw [← h.queue i, content, List.drop_take, List.drop_drop]
      rw [hq]
      exact hr

theorem Inv.readInto (h : w.Inv q) (hne : w.string i ≠ [])
    (hroom : (w.buf i).pos + (w.buf i).len + data.length ≤ (w.string i).length) :
    ∃ w', w.readInto i data = some w' ∧ w'.Inv (Function.update q i (q i ++ data)) ∧
      w'.closing = w.closing := by
  have hblit : w.readInto i data = some (w.put i ((w.string i).take
      ((w.buf i).pos + (w.buf i).len) ++ (data ++ (w.string i).drop
        ((w.buf i).pos + (w.buf i).len + data.length)))
      { w.buf i with len := (w.buf i).len + data.length }) := by
    rw [World.readInto]
    show (blit data w (w.buf i).loc ((w.buf i).pos + (w.buf i).len)).bind _ = _
    rw [blit_eq hroom, Option.bind_some]
    rfl
  refine ⟨_, hblit, ?_, rfl⟩
  have hput := h.put (b := { w.buf i with len := (w.buf i).len + data.length })
    (t := (w.string i).take ((w.buf i).pos + (w.buf i).len) ++ (data ++ (w.string i).drop
        ((w.buf i).pos + (w.buf i).len + data.length))) (h.grants_own hne) ?_ ?_
  · have hfront : ((w.string i).take ((w.buf i).pos + (w.buf i).len)).drop (w.buf i).pos = q i := by
      rw [List.drop_take, Nat.add_sub_cancel_left]
      exact h.queue i
    have hq : (((w.string i).take ((w.buf i).pos + (w.buf i).len) ++ (data ++ (w.string i).drop
        ((w.buf i).pos + (w.buf i).len + data.length))).drop (w.buf i).pos).take
          ((w.buf i).len + data.length) = q i ++ data := by
      rw [List.drop_append_of_le_length, hfront, ← List.append_assoc, List.take_left']
      · rw [List.length_append, h.length_queue i]
      · rw [List.length_take]
        omega
    rw [hq] at hput
    exact hput
  · show (w.buf i).pos + ((w.buf i).len + data.length) ≤ _
    simp only [List.length_append, List.length_take, List.length_drop]
    omega
  · intro hzero
    have hzero : (w.buf i).len + data.length = 0 := hzero
    exact h.idle i (by omega)

-- The bytes are moved to a new string, and the old one may go to the pool.
theorem Inv.grow (h : w.Inv q) (data : Bytes) {n : Nat} (hroom : (w.buf i).len + data.length ≤ n) :
    ∃ w', (w.create n).1.moveTo i (w.create n).2 data = some w' ∧
      w'.Inv (Function.update q i (q i ++ data)) ∧
      (w'.deleteString (w.buf i).loc).Inv (Function.update q i (q i ++ data)) ∧
      w'.closing = w.closing := by
  have hg := h.grants_create i n
  obtain ⟨w', hmove, hinv, hc, hold, hnext, hbuf⟩ := h.moveTo data hg
    (by rw [heap_create, List.length_replicate]; exact hroom)
  refine ⟨w', hmove, hinv, ?_, hc⟩
  refine hinv.deleteString ((h.loc_lt i).trans_le (hnext ▸ hg.next_le))
    (hold ▸ h.pool_apart i) fun hnull j => ?_
  rw [hbuf]
  by_cases hj : j = i
  · subst hj
    rw [Function.update_self]
    exact Nat.ne_of_gt (h.loc_lt j)
  · rw [Function.update_of_ne hj]
    exact fun heq => hnull (heq ▸ h.apart j i hj heq)

theorem Inv.bufAdd (h : w.Inv q) (data : Bytes) (hno : ¬ w.Overflows i data.length) :
    ∃ w', w.bufAdd i data = some w' ∧ w'.Inv (Function.update q i (q i ++ data)) ∧
      w'.closing = w.closing := by
  obtain ⟨hv, hne, hclosing⟩ := h.withString i
  rw [World.bufAdd]
  rw [Overflows] at hno
  generalize w.withString i = v at hv hne hclosing hno ⊢
  dsimp only at hno ⊢
  rw [← hclosing]
  by_cases hfull : (v.string i).length < (v.buf i).pos + (v.buf i).len + data.length
  · rw [if_pos hfull]
    by_cases hroom : (v.buf i).len + data.length < (v.string i).length
    · rw [if_pos hroom]
      obtain ⟨w', hmove, hinv, hc, -⟩ := hv.moveTo data (hv.grants_own hne)
        (Nat.le_of_lt hroom)
      exact ⟨w', hmove, hinv, hc⟩
    · rw [if_neg hroom]
      have hover : ¬ (v.buf i).maxBufSize < (v.buf i).len + data.length := fun hover =>
        hno ⟨hfull, hroom, hover⟩
      rw [if_neg hover]
      obtain ⟨w', hmove, hinv, hdelete, hc⟩ := hv.grow (i := i) data
        (n := min (max (2 * (v.string i).length) ((v.buf i).len + data.length))
          (v.buf i).maxBufSize) (by omega)
      rw [hmove, Option.bind_eq_bind, Option.bind_some]
      refine ⟨_, rfl, ?_⟩
      split
      · exact ⟨hdelete, (closing_deleteString _ _).trans hc⟩
      · exact ⟨hinv, hc⟩
  · rw [if_neg hfull]
    exact hv.readInto hne (Nat.le_of_not_lt hfull)

theorem Inv.makeRoom (h : w.Inv q) (hno : ¬ w.Overfull i) :
    ∃ w', w.makeRoom i = some w' ∧ w'.Inv q ∧ w'.closing = w.closing := by
  have hsame : Function.update q i (q i ++ []) = q := by
    rw [List.append_nil, Function.update_eq_self]
  rw [World.makeRoom]
  dsimp only
  by_cases he : w.string i = []
  · rw [if_pos he]
    split
    · obtain ⟨hv, -, hc⟩ := h.withString i
      exact ⟨_, rfl, hv, hc⟩
    · exact ⟨_, rfl, h.setBuf_grants (h.grants_create i _) he, rfl⟩
  · rw [if_neg he]
    split
    · next hfull =>
        have hsize : ¬ (w.buf i).maxBufSize < (w.buf i).len + minReadSize := fun hsize =>
          hno ⟨he, hfull, hsize⟩
        split
        · next hroom =>
            obtain ⟨w', hmove, hinv, hc, -⟩ := h.moveTo [] (h.grants_own he)
              (Nat.le_of_lt ((Nat.le_add_right _ _).trans_lt hroom))
            exact ⟨w', hmove, hsame ▸ hinv, hc⟩
        · obtain ⟨w', hmove, hinv, -, hc⟩ := h.grow (i := i) []
            (n := min (max (2 * (w.string i).length) ((w.buf i).len + minReadSize))
              (w.buf i).maxBufSize) (by rw [List.length_nil]; omega)
          exact ⟨w', hmove, hsame ▸ hinv, hc⟩
    · exact ⟨w, rfl, h, rfl⟩

theorem Inv.reset_both (h : w.Inv q) {j : BufId} (hij : j ≠ i) (hi : (w.buf i).len = 0)
    (hj : (w.buf j).len = 0) :
    ((((w.deleteString (w.buf i).loc).deleteString (w.buf j).loc).setBuf i
      { w.buf i with loc := 0 }).setBuf j { w.buf j with loc := 0 }).Inv q := by
  have hsame : ∀ m, (w.buf m).len = 0 → Function.update q m [] = q := by
    intro m hm
    have hempty : q m = [] := List.length_eq_zero_iff.mp ((h.length_queue m).trans hm)
    rw [← hempty, Function.update_eq_self]
  have hfirst := h.reset i (b := { w.buf i with loc := 0 }) rfl (h.idle i hi) hi
  have hbuf : ((w.deleteString (w.buf i).loc).setBuf i { w.buf i with loc := 0 }).buf j =
      w.buf j :=
    (Function.update_of_ne hij _ _).trans (congrFun (buf_deleteString _ _) j)
  have hsecond := hfirst.reset j (b := { w.buf j with loc := 0 }) rfl (h.idle j hj) hj
  rw [hbuf, hsame i hi, hsame j hj, ← deleteString_setBuf _ (w.buf j).loc i] at hsecond
  exact hsecond

-- A close takes the strings away from both buffers.
theorem Inv.close (h : w.Inv q) (hk : w.Closable k) : (w.close k).Inv q := by
  rw [World.close]
  split
  · exact h
  · next hclosing =>
      obtain ⟨hr, hw⟩ := hk.resolve_left hclosing
      have hv : World.Inv { w with closing := Function.update w.closing k true } q :=
        ⟨h.null, h.next_pos, h.nodup, h.pool, h.pool_apart, h.apart, h.loc_lt, h.inside,
          h.queue, h.idle⟩
      have hboth := hv.reset_both (i := (k, .rbuf)) (j := (k, .wbuf)) (by simp) hr hw
      simp only [buf_deleteString] at hboth ⊢
      exact hboth

-- The end of a read, after which the socket is closed when nothing came.
theorem Inv.afterRead (h : w.Inv q) {nread : Nat} (hk : nread = 0 → w.Closable k) :
    (w.afterRead k nread).Inv q := by
  have hset : (w.setBuf (k, .rbuf) { w.buf (k, .rbuf) with
      minBufSize := min (w.buf (k, .rbuf)).maxBufSize (max (nread + nread / 2) minReadSize) }).Inv
        q := h.setBuf rfl rfl rfl
  rw [World.afterRead]
  split
  · next hzero =>
      refine hset.close ?_
      rcases hk hzero with hclosing | ⟨hr, hw⟩
      · exact Or.inl hclosing
      · refine Or.inr ⟨?_, ?_⟩
        · show (Function.update w.buf (k, Side.rbuf) _ (k, Side.rbuf)).len = 0
          rw [Function.update_self]
          exact hr
        · show (Function.update w.buf (k, Side.rbuf) _ (k, Side.wbuf)).len = 0
          rw [Function.update_of_ne (by simp)]
          exact hw
  · exact hset

-- Whether a socket may be closed is seen in the queues.
theorem Inv.closable (h : w.Inv q) (h' : w'.Inv q) (hc : w'.closing = w.closing)
    (hk : w.Closable k) : w'.Closable k := by
  rcases hk with hclosing | ⟨hr, hw⟩
  · exact Or.inl (by rw [hc, hclosing])
  · exact Or.inr ⟨by rw [← h'.length_queue, h.length_queue, hr],
      by rw [← h'.length_queue, h.length_queue, hw]⟩

theorem update_append_nil (q : BufId → Bytes) (i : BufId) :
    Function.update q i (q i ++ []) = q := by
  rw [List.append_nil, Function.update_eq_self]

-- What can_read_handler does with the answer, once the bytes have a place.
theorem Inv.afterRead_map (h : w.Inv q) {v : Option World}
    (hv : ∃ w', v = some w' ∧ w'.Inv (Function.update q (k, .rbuf) (q (k, .rbuf) ++ data)) ∧
      w'.closing = w.closing) (hk : data.length = 0 → w.Closable k) :
    ∃ w', v.map (·.afterRead k data.length) = some w' ∧
      w'.Inv (Function.update q (k, .rbuf) (q (k, .rbuf) ++ data)) := by
  obtain ⟨w', rfl, hinv, hc⟩ := hv
  refine ⟨_, rfl, hinv.afterRead fun hzero => ?_⟩
  have hnil : data = [] := List.length_eq_zero_iff.mp hzero
  subst hnil
  rw [update_append_nil] at hinv
  exact h.closable hinv hc (hk hzero)

-- A call that asks Unix.read for nothing leaves the queue as it is.
theorem queueStep_canRead {copyReadBuffer : Bool} {maxLen : Nat} {answer : Answer Bytes}
    (ha : w.Allowed (.canRead k copyReadBuffer maxLen answer))
    (hzero : w.canRead k copyReadBuffer maxLen = 0) :
    queueStep q (.canRead k copyReadBuffer maxLen answer) = q := by
  cases answer with
  | done data =>
      have ha : data.length ≤ w.canRead k copyReadBuffer maxLen := ha
      have hnil : data = [] := List.length_eq_zero_iff.mp (by omega)
      rw [queueStep, hnil, update_append_nil]
  | wouldBlock => rfl
  | failed => rfl

theorem Inv.canReadHandler (h : w.Inv q) {copyReadBuffer : Bool} {maxLen : Nat}
    {answer : Answer Bytes} (ha : w.Allowed (.canRead k copyReadBuffer maxLen answer))
    (hk : w.Keeps (.canRead k copyReadBuffer maxLen answer)) :
    ∃ w', w.canReadHandler k copyReadBuffer maxLen answer = some w' ∧
      w'.Inv (queueStep q (.canRead k copyReadBuffer maxLen answer)) := by
  obtain ⟨hover, hfull, hends⟩ := hk
  by_cases hread : 0 < w.canRead k copyReadBuffer maxLen
  · have hclosable := hends hread
    cases copyReadBuffer with
    | true =>
        have hread : 0 < min maxLen bigBufferLen := hread
        rw [World.canReadHandler.eq_def, if_pos rfl, if_pos hread]
        cases answer with
        | done data => exact h.afterRead_map (h.bufAdd data (hover rfl data rfl)) hclosable
        | wouldBlock => exact ⟨w, rfl, h⟩
        | failed => exact ⟨_, rfl, h.close (hclosable trivial)⟩
    | false =>
        have hno : ¬ w.Overfull (k, .rbuf) := fun hover => by
          rw [canRead, if_neg Bool.false_ne_true, if_pos hover] at hread
          exact Nat.lt_irrefl 0 hread
        obtain ⟨v, hv, hinv, hc⟩ := h.makeRoom hno
        have hcanRead : w.canRead k false maxLen = min maxLen (v.room (k, .rbuf)) := by
          rw [canRead, if_neg Bool.false_ne_true, if_neg hno, hv]
          rfl
        rw [hcanRead] at hread
        rw [World.canReadHandler.eq_def, if_neg Bool.false_ne_true, if_neg hno]
        simp only [hv, Option.bind_eq_bind, Option.bind_some, if_pos hread]
        have hroom : 0 < v.room (k, .rbuf) := (Nat.lt_min.mp hread).2
        cases answer with
        | done data =>
            have ha : data.length ≤ w.canRead k false maxLen := ha
            rw [hcanRead] at ha
            rw [room] at hroom ha
            have hne : v.string (k, .rbuf) ≠ [] := fun he => by
              rw [he, List.length_nil, Nat.zero_sub] at hroom
              exact Nat.lt_irrefl 0 hroom
            exact hinv.afterRead_map (hinv.readInto hne (by omega))
              fun hzero => h.closable hinv hc (hclosable hzero)
        | wouldBlock => exact ⟨v, rfl, hinv⟩
        | failed => exact ⟨_, rfl, hinv.close (h.closable hinv hc (hclosable trivial))⟩
  · rw [queueStep_canRead ha (Nat.eq_zero_of_not_pos hread)]
    cases copyReadBuffer with
    | true =>
        have hread : ¬ 0 < min maxLen bigBufferLen := hread
        rw [World.canReadHandler.eq_def, if_pos rfl, if_neg hread]
        exact ⟨w, rfl, h⟩
    | false =>
        rw [World.canReadHandler.eq_def, if_neg Bool.false_ne_true]
        by_cases hno : w.Overfull (k, .rbuf)
        · rw [if_pos hno]
          exact ⟨_, rfl, h.close (hfull rfl hno)⟩
        · obtain ⟨v, hv, hinv, -⟩ := h.makeRoom hno
          rw [canRead, if_neg Bool.false_ne_true, if_neg hno, hv] at hread
          have hread : ¬ 0 < min maxLen (v.room (k, .rbuf)) := hread
          simp only [hno, if_false, hv, Option.bind_eq_bind, Option.bind_some, if_neg hread]
          exact ⟨v, rfl, hinv⟩

theorem Inv.canWriteHandler (h : w.Inv q) {answer : Answer Nat}
    (ha : w.Allowed (.canWrite k answer)) (hk : w.Keeps (.canWrite k answer)) :
    (w.canWriteHandler k answer).Inv (queueStep q (.canWrite k answer)) := by
  have hlen := h.length_queue (k, .wbuf)
  rw [World.canWriteHandler.eq_def]
  dsimp only
  by_cases hpos : 0 < (w.buf (k, .wbuf)).len
  · rw [if_pos hpos]
    have hclosable := hk hpos
    cases answer with
    | done nw =>
        have ha : nw ≤ (w.buf (k, .wbuf)).len := ha
        dsimp only
        by_cases hnw : nw = 0
        · subst hnw
          rw [if_pos rfl]
          have hset := h.setBuf (b := { w.buf (k, .wbuf) with
            len := (w.buf (k, .wbuf)).len - 0, pos := (w.buf (k, .wbuf)).pos + 0 })
            (i := (k, .wbuf)) rfl rfl rfl
          have hqueue : queueStep q (.canWrite k (.done 0)) = q := by
            rw [queueStep, List.drop_zero, Function.update_eq_self]
          rw [hqueue]
          exact hset.close (h.closable hset rfl (hclosable rfl))
        · rw [if_neg hnw]
          have hused := h.bufUsed ha
          rw [World.bufUsed] at hused
          by_cases hall : nw = (w.buf (k, .wbuf)).len
          · rw [if_pos (by omega), deleteString_setBuf, setBuf_setBuf, ← deleteString_setBuf]
            rw [if_pos hall] at hused
            exact hused
          · rw [if_neg (by omega)]
            rw [if_neg hall] at hused
            exact hused
    | wouldBlock => exact h
    | failed => exact h.close (hclosable trivial)
  · rw [if_neg hpos]
    cases answer with
    | done nw =>
        have hnil : q (k, .wbuf) = [] := List.length_eq_zero_iff.mp (by omega)
        rw [queueStep, hnil, List.drop_nil, ← hnil, Function.update_eq_self]
        exact h
    | wouldBlock => exact h
    | failed => exact h

theorem Inv.afterRefill (h : w.Inv q) (hk : w.Keeps (.refilled k)) : (w.afterRefill k).Inv q := by
  rw [World.afterRefill]
  split
  · next hzero =>
      have hkeep : w.deleteString (w.buf (k, .wbuf)).loc = w := by
        have hnil : w.heap (w.buf (k, .wbuf)).loc = [] := hk hzero
        rw [World.deleteString, hnil]
        exact if_neg fun hlen => absurd hlen.2 (by decide)
      rw [hkeep]
      exact h.setBuf rfl (h.idle _ hzero).symm rfl
  · exact h

-- Nothing is sent or read yet, so that bytes that fit the size do not overflow.
theorem not_overflows_initial {max : BufId → Nat} (data : Bytes) (hlen : data.length ≤ max i) :
    ¬ (initial max).Overflows i data.length := by
  intro hover
  have hbuf : ((initial max).withString i).buf i = { bufCreate (max i) with loc := 1 } := by
    rw [World.withString, if_pos (show (initial max).string i = [] from rfl)]
    exact Function.update_self _ _ _
  have hmax := hover.2.2
  rw [hbuf] at hmax
  have hmax : max i < 0 + data.length := hmax
  omega

theorem close_wbuf (hk : w.closing k = false) :
    (w.close k).string (k, .wbuf) = w.heap 0 ∧
      ((w.close k).buf (k, .wbuf)).len = (w.buf (k, .wbuf)).len := by
  have hne : ¬ w.closing k = true := by rw [hk]; exact Bool.false_ne_true
  rw [World.close, if_neg hne]
  refine ⟨?_, ?_⟩
  · rw [string, buf_setBuf]
    exact (congrFun (heap_deleteString _ _) 0).trans (congrFun (heap_deleteString _ _) 0)
  · rw [buf_setBuf, buf_deleteString, buf_deleteString]

-- What one operation does.
theorem Inv.step (h : w.Inv q) (op : SocketOp) (ha : w.Allowed op) (hk : w.Keeps op) :
    ∃ w', w.step op = some w' ∧ w'.Inv (queueStep q op) := by
  cases op with
  | bufAdd i data =>
      obtain ⟨w', hw, hinv, -⟩ := h.bufAdd data hk
      exact ⟨w', hw, hinv⟩
  | bufUsed i nused => exact ⟨_, rfl, h.bufUsed ha⟩
  | canRead k copyReadBuffer maxLen answer => exact h.canReadHandler ha hk
  | canWrite k answer => exact ⟨_, rfl, h.canWriteHandler ha hk⟩
  | refilled k => exact ⟨_, rfl, h.afterRefill hk⟩
  | close k => exact ⟨_, rfl, h.close hk⟩

end World

variable {max : BufId → Nat} {w : World} {q : BufId → Bytes}

theorem Runs.inv (hr : Runs (fun w op => w.Allowed op ∧ w.Keeps op) max w q) : w.Inv q := by
  induction hr with
  | start => exact World.inv_initial max
  | step hr hop hw ih =>
      obtain ⟨w', hstep, hinv⟩ := ih.step _ hop.1 hop.2
      rw [hw] at hstep
      cases hstep
      exact hinv

-- Every buffer holds its queue, inside its string, and no operation raises an exception.
theorem buffers_queue (hr : Runs (fun w op => w.Allowed op ∧ w.Keeps op) max w q) :
    (∀ i, (w.buf i).pos + (w.buf i).len ≤ (w.string i).length ∧
      w.sub (w.buf i).loc (w.buf i).pos (w.buf i).len = some (q i)) ∧
    ∀ op, w.Allowed op → w.Keeps op → ∃ w', w.step op = some w' := by
  have h := hr.inv
  refine ⟨fun i => ⟨h.inside i, ?_⟩, fun op ha hk => ?_⟩
  · rw [World.sub_eq (h.inside i)]
    exact congrArg some (h.queue i)
  · obtain ⟨w', hstep, -⟩ := h.step op ha hk
    exact ⟨w', hstep⟩

-- Of two bytes one is written.
theorem buffers_queue_written : ∃ w : World,
    w.sub (w.buf (0, .wbuf)).loc (w.buf (0, .wbuf)).pos (w.buf (0, .wbuf)).len = some [66] := by
  have hadd : ¬ (initial fun _ => 4000).Overflows (0, .wbuf) [65, 66].length :=
    World.not_overflows_initial [65, 66] (by decide)
  obtain ⟨w, hw, hinv⟩ := (World.inv_initial fun _ => 4000).step
    (.bufAdd (0, .wbuf) [65, 66]) trivial hadd
  have hrun : Runs (fun w op => w.Allowed op ∧ w.Keeps op) _ w _ :=
    @Runs.step _ _ _ _ _ (.bufAdd (0, .wbuf) [65, 66]) .start ⟨trivial, hadd⟩ hw
  have hlen : (w.buf (0, .wbuf)).len = 2 := (hinv.length_queue (0, .wbuf)).symm
  have ha : w.Allowed (.canWrite 0 (.done 1)) := by
    show 1 ≤ (w.buf (0, .wbuf)).len
    rw [hlen]
    decide
  have hk : w.Keeps (.canWrite 0 (.done 1)) := fun _ hends => absurd hends Nat.one_ne_zero
  exact ⟨_, ((buffers_queue (.step hrun ⟨ha, hk⟩ rfl)).1 (0, .wbuf)).2⟩

-- A socket is closed while there is a byte to write. What is left of the buffer is one
-- byte of the string "".
theorem buffers_queue_false : ¬ ∀ (max : BufId → Nat) (w : World) (q : BufId → Bytes),
    Runs World.Allowed max w q →
      ∀ i, (w.buf i).pos + (w.buf i).len ≤ (w.string i).length := by
  intro hall
  obtain ⟨w, hw, hinv, hc⟩ := (World.inv_initial fun _ => 4000).bufAdd (i := (0, .wbuf))
    [65] (World.not_overflows_initial [65] (by decide))
  have hrun : Runs World.Allowed (fun _ => 4000) w _ :=
    @Runs.step _ _ _ _ _ (.bufAdd (0, .wbuf) [65]) .start trivial hw
  have hclose := hall _ _ _ (@Runs.step _ _ _ _ _ (.close 0) hrun trivial rfl) (0, .wbuf)
  obtain ⟨hstring, hlen⟩ := World.close_wbuf (w := w) (k := 0) (by rw [hc]; rfl)
  have hone : (w.buf (0, .wbuf)).len = 1 := (hinv.length_queue (0, .wbuf)).symm
  rw [hstring, hinv.null, hlen, hone, List.length_nil] at hclose
  omega

end Mldonkey.Sockets
