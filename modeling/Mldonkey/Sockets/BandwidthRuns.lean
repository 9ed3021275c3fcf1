import Mldonkey.Lib.Runs
import Mldonkey.Sockets.Bandwidth

-- Between two resets, the sockets of a limited controler move no more than it allows.
namespace Mldonkey.TcpBandwidth

open Runs (Reach)

variable {z : Sizes} {s s' s'' : State} {t c n : ℕ} {k : Sock}

section Sizes

-- More is charged than moved.
lemma Sizes.le_frames (z : Sizes) (n : ℕ) : n ≤ z.frames n := by
  simp only [Sizes.frames, packetFrameSize, Nat.div_one, mul_one]
  omega

-- The frames are single bytes, so that the rounding adds one byte.
lemma Sizes.bestPacketSize_eq (z : Sizes) (n : ℤ) :
    z.bestPacketSize n = max n z.minimalPacketSize + 1 := by
  simp only [Sizes.bestPacketSize, packetFrameSize, Nat.cast_one, Int.tdiv_one, mul_one]
  ring

lemma share_le {rem n : ℤ} (hrem : 0 < rem) : max 1 (rem.tdiv (max n 1)) ≤ rem := by
  refine max_le hrem ?_
  rw [Int.tdiv_eq_ediv_of_nonneg hrem.le]
  exact Int.ediv_le_self _ hrem.le

end Sizes

namespace Bc

-- The bytes that have been moved since the reset
def moved (b : Bc) : ℕ := (b.packets.map Prod.snd).sum

-- A limited controler moves nothing, and what remains does not grow.
structure Kept (b b' : Bc) : Prop where
  totalBytes : b'.totalBytes = b.totalBytes
  budget : b'.budget = b.budget
  connections : b'.connections = b.connections
  remaining_le : 0 < b.totalBytes → b'.remainingBytes ≤ b.remainingBytes
  packets : 0 < b.totalBytes → b'.packets = b.packets

variable {b b' b'' : Bc}

lemma Kept.refl (b : Bc) : Kept b b := ⟨rfl, rfl, rfl, fun _ => le_rfl, fun _ => rfl⟩

lemma Kept.trans (h : Kept b b') (h' : Kept b' b'') : Kept b b'' where
  totalBytes := h'.totalBytes.trans h.totalBytes
  budget := h'.budget.trans h.budget
  connections := h'.connections.trans h.connections
  remaining_le hb := (h'.remaining_le (h.totalBytes ▸ hb)).trans (h.remaining_le hb)
  packets hb := (h'.packets (h.totalBytes ▸ hb)).trans (h.packets hb)

lemma kept_registerBytes (n : ℕ) (b : Bc) : Kept b (b.registerBytes z n) :=
  ⟨rfl, rfl, rfl, fun _ => Int.sub_le_self _ (Int.natCast_nonneg _), fun _ => rfl⟩

lemma kept_addForecast (n : ℕ) (b : Bc) : Kept b (b.addForecast z n) :=
  ⟨rfl, rfl, rfl, fun _ => le_rfl, fun _ => rfl⟩

-- Only the transfers of limited controlers matter.
lemma kept_count (hb : b.totalBytes = 0) : Kept b (b.count n) :=
  ⟨rfl, rfl, rfl, fun _ => le_rfl, fun h => absurd hb h.ne'⟩

end Bc

namespace State

-- What went out and what is in the buffer is what write has accepted.
def Ordered (s : State) : Prop := ∀ t, (s.sock t).sent ++ (s.sock t).wbuf.data = (s.sock t).accepted

-- What handlers do to the controlers
structure Calm (s s' : State) : Prop where
  reads : ∀ c, Bc.Kept (s.readBc c) (s'.readBc c)
  writes : ∀ c, Bc.Kept (s.writeBc c) (s'.writeBc c)
  readControl : ∀ t, (s'.sock t).readControl = (s.sock t).readControl
  writeControl : ∀ t, (s'.sock t).writeControl = (s.sock t).writeControl
  nwrite : ∀ t c, (s.sock t).writeControl = some c → 0 < (s.writeBc c).totalBytes →
    (s'.sock t).nwrite = (s.sock t).nwrite
  ordered : s.Ordered → s'.Ordered

namespace Calm

lemma refl (s : State) : Calm s s :=
  ⟨fun _ => .refl _, fun _ => .refl _, fun _ => rfl, fun _ => rfl, fun _ _ _ _ => rfl, id⟩

lemma trans (h : Calm s s') (h' : Calm s' s'') : Calm s s'' where
  reads c := (h.reads c).trans (h'.reads c)
  writes c := (h.writes c).trans (h'.writes c)
  readControl t := (h'.readControl t).trans (h.readControl t)
  writeControl t := (h'.writeControl t).trans (h.writeControl t)
  nwrite t c hc hb :=
    (h'.nwrite t c ((h.writeControl t).trans hc) ((h.writes c).totalBytes ▸ hb)).trans
      (h.nwrite t c hc hb)
  ordered hs := h'.ordered (h.ordered hs)

lemma onReadBc {f : Bc → Bc} (hf : (s.readBc c).Kept (f (s.readBc c))) :
    Calm s (s.onReadBc c f) := by
  refine ⟨fun c' => ?_, fun _ => .refl _, fun _ => rfl, fun _ => rfl, fun _ _ _ _ => rfl, id⟩
  by_cases hc : c' = c
  · subst hc
    simpa only [State.onReadBc, Function.update_self] using hf
  · simp only [State.onReadBc, Function.update_of_ne hc]
    exact .refl _

lemma onWriteBc {f : Bc → Bc} (hf : (s.writeBc c).Kept (f (s.writeBc c))) :
    Calm s (s.onWriteBc c f) := by
  refine ⟨fun _ => .refl _, fun c' => ?_, fun _ => rfl, fun _ => rfl, fun _ _ _ _ => rfl, id⟩
  by_cases hc : c' = c
  · subst hc
    simpa only [State.onWriteBc, Function.update_self] using hf
  · simp only [State.onWriteBc, Function.update_of_ne hc]
    exact .refl _

lemma onReadControl {f : Bc → Bc}
    (hf : ∀ c, (s.sock t).readControl = some c → (s.readBc c).Kept (f (s.readBc c))) :
    Calm s (s.onReadControl t f) := by
  rw [State.onReadControl]
  split
  · exact .refl s
  · exact onReadBc (hf _ ‹_›)

lemma onWriteControl {f : Bc → Bc}
    (hf : ∀ c, (s.sock t).writeControl = some c → (s.writeBc c).Kept (f (s.writeBc c))) :
    Calm s (s.onWriteControl t f) := by
  rw [State.onWriteControl]
  split
  · exact .refl s
  · exact onWriteBc (hf _ ‹_›)

-- A socket that stays with its controlers
lemma setSock (hr : k.readControl = (s.sock t).readControl)
    (hw : k.writeControl = (s.sock t).writeControl)
    (hn : ∀ c, (s.sock t).writeControl = some c → 0 < (s.writeBc c).totalBytes →
      k.nwrite = (s.sock t).nwrite)
    (ho : (s.sock t).sent ++ (s.sock t).wbuf.data = (s.sock t).accepted →
      k.sent ++ k.wbuf.data = k.accepted) : Calm s (s.setSock t k) := by
  have hother (t' : ℕ) (ht : t' ≠ t) : (s.setSock t k).sock t' = s.sock t' :=
    Function.update_of_ne ht _ _
  have hself : (s.setSock t k).sock t = k := Function.update_self _ _ _
  refine ⟨fun _ => .refl _, fun _ => .refl _, fun t' => ?_, fun t' => ?_, fun t' c hc hb => ?_,
    fun hs t' => ?_⟩
  all_goals
    by_cases ht : t' = t
    · subst ht
      rw [hself]
      first | exact hr | exact hw | exact hn c hc hb | exact ho (hs t')
    · rw [hother t' ht]
      try exact hs t'

lemma registerDownload : Calm s (s.registerDownload z t n) :=
  onReadControl fun _ _ => Bc.kept_registerBytes n _

lemma registerUpload : Calm s (s.registerUpload z t n) :=
  onWriteControl fun _ _ => Bc.kept_registerBytes n _

lemma forecastDownload : Calm s (s.forecastDownload z t n) :=
  onReadControl fun _ _ => Bc.kept_addForecast n _

lemma forecastUpload : Calm s (s.forecastUpload z t n) :=
  onWriteControl fun _ _ => Bc.kept_addForecast n _

lemma close : Calm s (s.close z t) := by
  have hclosing : Calm s (s.setSock t { s.sock t with closing := true }) :=
    setSock rfl rfl (fun _ _ _ => rfl) id
  simp only [State.close]
  split
  · exact .refl s
  · split
    · exact (hclosing.trans registerUpload).trans forecastDownload
    · exact hclosing

end Calm

lemma add_data (b : Buf) (bytes : List UInt8) :
    (b.add bytes).data = if b.overflows bytes then b.data else b.data ++ bytes := by
  simp only [Buf.add]
  split
  · rfl
  · split
    · split <;> rfl
    · rfl

lemma taken_data (b : Buf) (nw : ℕ) : (b.taken nw).data = b.data.drop nw := by
  rw [Buf.taken]
  split
  · exact (List.drop_of_length_le ‹_›).symm
  · rfl

namespace Calm

lemma bufAdd (bytes : List UInt8) : Calm s (s.bufAdd t bytes) := by
  simp only [State.bufAdd]
  split
  · exact .refl s
  · refine setSock rfl rfl (fun _ _ _ => rfl) fun ho => ?_
    simp only [add_data]
    split
    · exact ho
    · rw [← ho, List.append_assoc]

-- A write moves bytes at once only if no limit holds for the socket.
lemma write (bytes : List UInt8) (out : IoResult) : Calm s (s.write z t bytes out) := by
  simp only [State.write]
  split
  case isTrue => exact .refl s
  case isFalse =>
    split
    case isTrue hdirect =>
      have hfree (c : ℕ) (hc : (s.sock t).writeControl = some c) :
          (s.writeBc c).totalBytes = 0 := by
        have hun := hdirect.2.2
        rw [State.unlimitedWrite, hc] at hun
        simpa using hun
      split
      case h_1 n =>
        set nw := min n bytes.length
        set registered := (s.registerUpload z t bytes.length).forecastDownload z t 0
          with hregistered
        have hreg : Calm s registered := registerUpload.trans forecastDownload
        have hsock : registered.sock = s.sock := by
          simp only [hregistered, State.forecastDownload, State.registerUpload,
            State.onReadControl, State.onWriteControl]
          split <;> split <;> rfl
        set counted := registered.onWriteControl t (.count nw) with hcounted
        have hcount : Calm registered counted := by
          refine onWriteControl fun c hc => Bc.kept_count ?_
          rw [hsock] at hc
          rw [(hreg.writes c).totalBytes]
          exact hfree c hc
        have hsock' : counted.sock = s.sock := by
          rw [← hsock, hcounted, State.onWriteControl]
          split <;> rfl
        have hset : Calm counted (counted.setSock t { s.sock t with
            nwrite := (s.sock t).nwrite + nw
            sent := (s.sock t).sent ++ bytes.take nw
            accepted := (s.sock t).accepted ++ bytes.take nw }) := by
          refine setSock (by rw [hsock']) (by rw [hsock']) (fun c hc hb => ?_) fun ho => ?_
          · rw [hsock'] at hc
            rw [((hreg.trans hcount).writes c).totalBytes, hfree c hc] at hb
            exact absurd hb (lt_irrefl 0)
          · rw [hsock'] at ho
            simp only [hdirect.1, List.append_nil] at ho ⊢
            rw [ho]
        refine ((hreg.trans hcount).trans hset).trans ?_
        split
        · exact close
        · exact bufAdd _
      case h_2 => exact bufAdd _
      case h_3 => exact close
    case isFalse => exact bufAdd _

lemma act (action : Action) : Calm s (s.act z action) := by
  cases action with
  | write t bytes out => exact write bytes out
  | close t => exact close
  | forecastDownload t n => exact forecastDownload
  | forecastUpload t n => exact forecastUpload
  | registerDownload t n => exact registerDownload
  | registerUpload t n => exact registerUpload

lemma acts (actions : List Action) : Calm s (s.acts z actions) :=
  List.foldlRecOn actions _ (.refl s) fun _ hs action _ => hs.trans (act action)

lemma refill (w : Write) : Calm s (s.refill z t w) := by
  simp only [State.refill]
  split
  · exact .refl s
  · split
    · exact acts _
    · split
      · exact (acts _).trans (acts _)
      · exact acts _

end Calm

end State

namespace Bc

-- One transfer of n bytes, which is charged
structure Moved (n : ℕ) (b b' : Bc) : Prop where
  totalBytes : b'.totalBytes = b.totalBytes
  budget : b'.budget = b.budget
  connections : b'.connections = b.connections
  remaining_le : 0 < b.totalBytes → b'.remainingBytes ≤ b.remainingBytes - n
  packets : 0 < b.totalBytes → ∃ rem, b'.packets = (rem, n) :: b.packets

variable {b b' b'' : Bc}

lemma Kept.moved (h : Kept b b') (h' : Moved n b' b'') : Moved n b b'' where
  totalBytes := h'.totalBytes.trans h.totalBytes
  budget := h'.budget.trans h.budget
  connections := h'.connections.trans h.connections
  remaining_le hb := by
    have := h'.remaining_le (h.totalBytes ▸ hb)
    have := h.remaining_le hb
    omega
  packets hb := by
    obtain ⟨rem, hrem⟩ := h'.packets (h.totalBytes ▸ hb)
    exact ⟨rem, by rw [hrem, h.packets hb]⟩

lemma Moved.kept (h : Moved n b b') (h' : Kept b' b'') : Moved n b b'' where
  totalBytes := h'.totalBytes.trans h.totalBytes
  budget := h'.budget.trans h.budget
  connections := h'.connections.trans h.connections
  remaining_le hb := (h'.remaining_le (h.totalBytes ▸ hb)).trans (h.remaining_le hb)
  packets hb := by
    obtain ⟨rem, hrem⟩ := h.packets hb
    exact ⟨rem, by rw [h'.packets (h.totalBytes ▸ hb), hrem]⟩

-- The size of the last packet
def lastPacket (packet : ℤ → ℤ) : List (ℤ × ℕ) → ℤ
  | [] => 0
  | (rem, _) :: _ => packet rem

-- All that has been moved has been charged, and is bounded.
structure Within (packet : ℤ → ℤ) (b : Bc) : Prop where
  left : b.remainingBytes + b.moved ≤ b.budget
  bound : (b.moved : ℤ) ≤ max 0 b.budget + lastPacket packet b.packets

variable {packet : ℤ → ℤ}

lemma Kept.within (h : Kept b b') (hb : 0 < b.totalBytes) (hw : b.Within packet) :
    b'.Within packet := by
  have hmoved : b'.moved = b.moved := by rw [Bc.moved, Bc.moved, h.packets hb]
  refine ⟨?_, ?_⟩
  · have := hw.left
    have := h.remaining_le hb
    rw [hmoved, h.budget]
    omega
  · rw [hmoved, h.budget, h.packets hb]
    exact hw.bound

lemma Moved.within (hpacket : ∀ r r', 0 < r → packet r - r ≤ packet r') (h : Moved n b b')
    (hb : 0 < b.totalBytes) (hrem : 0 < b.remainingBytes) (hn : n ≤ packet b.remainingBytes)
    (hw : b.Within packet) : b'.Within packet := by
  obtain ⟨rem, hpackets⟩ := h.packets hb
  have hmoved : b'.moved = n + b.moved := by
    rw [Bc.moved, Bc.moved, hpackets, List.map_cons, List.sum_cons]
  have hleft := hw.left
  refine ⟨?_, ?_⟩
  · have := h.remaining_le hb
    rw [hmoved, h.budget]
    push_cast
    omega
  · have hlast := hpacket b.remainingBytes rem hrem
    have hbudget := le_max_right 0 b.budget
    rw [hmoved, h.budget, hpackets, lastPacket]
    push_cast
    omega

-- What remains does not grow, and nothing is moved when nothing remains.
structure Slower (b b' : Bc) : Prop where
  totalBytes : b'.totalBytes = b.totalBytes
  budget : b'.budget = b.budget
  remaining_le : 0 < b.totalBytes → b'.remainingBytes ≤ b.remainingBytes
  packets : 0 < b.totalBytes → b.remainingBytes ≤ 0 → b'.packets = b.packets

lemma Slower.refl (b : Bc) : Slower b b := ⟨rfl, rfl, fun _ => le_rfl, fun _ _ => rfl⟩

lemma Slower.trans (h : Slower b b') (h' : Slower b' b'') : Slower b b'' where
  totalBytes := h'.totalBytes.trans h.totalBytes
  budget := h'.budget.trans h.budget
  remaining_le hb := (h'.remaining_le (h.totalBytes ▸ hb)).trans (h.remaining_le hb)
  packets hb hrem :=
    (h'.packets (h.totalBytes ▸ hb) ((h.remaining_le hb).trans hrem)).trans (h.packets hb hrem)

lemma Kept.slower (h : Kept b b') : Slower b b' :=
  ⟨h.totalBytes, h.budget, h.remaining_le, fun hb _ => h.packets hb⟩

lemma Moved.slower (h : Moved n b b') (hrem : 0 < b.remainingBytes) : Slower b b' := by
  refine ⟨h.totalBytes, h.budget, fun hb => ?_, fun _ hle => absurd hrem (not_lt.mpr hle)⟩
  have := h.remaining_le hb
  omega

end Bc

section Turns

-- The largest read
def readPacket (z : Sizes) (rem : ℤ) : ℤ := max (z.ipPacketSize : ℤ) rem

lemma readPacket_sub (r r' : ℤ) (hr : 0 < r) : readPacket z r - r ≤ readPacket z r' := by
  simp only [readPacket]
  omega

lemma bestPacketSize_sub (r r' : ℤ) (hr : 0 < r) :
    z.bestPacketSize r - r ≤ z.bestPacketSize r' := by
  rw [z.bestPacketSize_eq, z.bestPacketSize_eq]
  omega

-- What a turn of one of the loops does: the controlers in `own` are those of the loop.
structure Turn (own other : State → ℕ → Bc) (c : ℕ) (size : ℤ) (s s' : State) : Prop where
  self : (own s c).Kept (own s' c) ∨ ∃ n : ℕ, n ≤ size ∧ (own s c).Moved n (own s' c)
  others : ∀ c', c' ≠ c → (own s c').Kept (own s' c')
  kept : ∀ c, (other s c).Kept (other s' c)
  readControl : ∀ t, (s'.sock t).readControl = (s.sock t).readControl
  writeControl : ∀ t, (s'.sock t).writeControl = (s.sock t).writeControl
  ordered : s.Ordered → s'.Ordered

variable {size : ℤ} {own other : State → ℕ → Bc}

-- A family of controlers that handlers leave alone
def Follows (own : State → ℕ → Bc) : Prop :=
  ∀ s s' : State, s.Calm s' → ∀ c, (own s c).Kept (own s' c)

lemma follows_readBc : Follows State.readBc := fun _ _ h => h.reads

lemma follows_writeBc : Follows State.writeBc := fun _ _ h => h.writes

lemma Turn.of_calm (ho : Follows own) (ho' : Follows other) (h : s.Calm s') :
    Turn own other c size s s' :=
  ⟨.inl (ho _ _ h c), fun c' _ => ho _ _ h c', ho' _ _ h, h.readControl, h.writeControl, h.ordered⟩

lemma Turn.calm (ho : Follows own) (ho' : Follows other) (h : Turn own other c size s s')
    (h' : s'.Calm s'') : Turn own other c size s s'' where
  self := by
    rcases h.self with hk | ⟨n, hn, hm⟩
    · exact .inl (hk.trans (ho _ _ h' c))
    · exact .inr ⟨n, hn, hm.kept (ho _ _ h' c)⟩
  others c' hc' := (h.others c' hc').trans (ho _ _ h' c')
  kept c' := (h.kept c').trans (ho' _ _ h' c')
  readControl t := (h'.readControl t).trans (h.readControl t)
  writeControl t := (h'.writeControl t).trans (h.writeControl t)
  ordered hs := h'.ordered (h.ordered hs)

lemma Turn.after (ho : Follows own) (ho' : Follows other) (h : s.Calm s')
    (h' : Turn own other c size s' s'') : Turn own other c size s s'' where
  self := by
    rcases h'.self with hk | ⟨n, hn, hm⟩
    · exact .inl ((ho _ _ h c).trans hk)
    · exact .inr ⟨n, hn, (ho _ _ h c).moved hm⟩
  others c' hc' := (ho _ _ h c').trans (h'.others c' hc')
  kept c' := (ho' _ _ h c').trans (h'.kept c')
  readControl t := (h'.readControl t).trans (h.readControl t)
  writeControl t := (h'.writeControl t).trans (h.writeControl t)
  ordered hs := h'.ordered (h.ordered hs)

-- A transfer that changes the controler of the loop
lemma turn_onReadBc {f : Bc → Bc} (hn : n ≤ size) (hf : (s.readBc c).Moved n (f (s.readBc c))) :
    Turn State.readBc State.writeBc c size s (s.onReadBc c f) := by
  refine ⟨.inr ⟨n, hn, ?_⟩, fun c' hc' => ?_, fun _ => .refl _, fun _ => rfl, fun _ => rfl, id⟩
  · simpa only [State.onReadBc, Function.update_self] using hf
  · simp only [State.onReadBc, Function.update_of_ne hc']
    exact .refl _

lemma canReadHandler_turn (r : Read) (size : ℤ) (hc : (s.sock t).readControl = some c) :
    Turn State.readBc State.writeBc c (max 0 size) s (s.canReadHandler z t size r) := by
  have hnothing {s' : State} (h : s.Calm s') :
      Turn State.readBc State.writeBc c (max 0 size) s s' :=
    Turn.of_calm follows_readBc follows_writeBc h
  simp only [State.canReadHandler]
  split
  · exact hnothing (.refl s)
  · exact hnothing .close
  · rename_i n _
    set nread := min n size.toNat with hnread
    have hle : (nread : ℤ) ≤ max 0 size := by omega
    set s1 := s.acts z r.bufferOverflow
    have h1 : s.Calm s1 := .acts _
    have hc1 : (s1.sock t).readControl = some c := (h1.readControl t).trans hc
    have hcount : s1.onReadControl t (.count nread) = s1.onReadBc c (.count nread) := by
      rw [State.onReadControl, hc1]
    rw [hcount]
    have hsock (s2 : State) : s2.Calm (s2.setSock t
        { s2.sock t with nread := (s2.sock t).nread + nread }) :=
      .setSock rfl rfl (fun _ _ _ => rfl) id
    refine Turn.after follows_readBc follows_writeBc h1 ?_
    split
    case isTrue hzero =>
      refine (Turn.calm follows_readBc follows_writeBc ?_ (hsock _)).calm follows_readBc
        follows_writeBc .close
      refine turn_onReadBc hle ⟨rfl, rfl, rfl, fun _ => ?_, fun _ => ⟨_, rfl⟩⟩
      rw [hzero]
      simp [Bc.count]
    case isFalse =>
      -- the transfer and its charge
      have hcharge : ((s1.onReadBc c (.count nread)).setSock t
            { (s1.onReadBc c (.count nread)).sock t with
              nread := ((s1.onReadBc c (.count nread)).sock t).nread + nread }).registerDownload z
            t nread =
          (s1.setSock t { s1.sock t with nread := (s1.sock t).nread + nread }).onReadBc c
            fun bc => (bc.count nread).registerBytes z nread := by
        simp only [State.registerDownload, State.onReadControl, State.setSock,
          Function.update_self, State.onReadBc, hc1, Function.update_idem]
      rw [hcharge]
      have hmoved : Turn State.readBc State.writeBc c (max 0 size) s1
          ((s1.setSock t { s1.sock t with nread := (s1.sock t).nread + nread }).onReadBc c
            fun bc => (bc.count nread).registerBytes z nread) := by
        refine Turn.after follows_readBc follows_writeBc (hsock s1) (turn_onReadBc hle ?_)
        refine ⟨rfl, rfl, rfl, fun _ => ?_, fun _ => ⟨_, rfl⟩⟩
        have := z.le_frames nread
        simp only [Bc.registerBytes, Bc.count]
        omega
      have hdone := (hmoved.calm follows_readBc follows_writeBc
        (.registerUpload (z := z) (t := t) (n := 0))).calm follows_readBc follows_writeBc
        (.acts (z := z) r.readDone)
      split
      · exact hdone.calm follows_readBc follows_writeBc .close
      · exact hdone

lemma readTurn_turn (r : Read) (hc : (s.sock t).readControl = some c)
    (hrem : 0 < (s.readBc c).remainingBytes) :
    Turn State.readBc State.writeBc c (readPacket z (s.readBc c).remainingBytes) s
      (s.readTurn z c (t, r)) := by
  have hshare := share_le (n := (s.readBc c).nconnections) hrem
  simp only [State.readTurn, if_pos hrem, readPower, mul_one]
  refine Turn.calm follows_readBc follows_writeBc ?_ (.onReadBc ⟨rfl, rfl, rfl, fun _ => le_rfl,
    fun _ => rfl⟩)
  have hturn := canReadHandler_turn (z := z) r (max (z.ipPacketSize : ℤ)
    (max 1 ((s.readBc c).remainingBytes.tdiv (max (s.readBc c).nconnections 1)))) hc
  refine ⟨?_, hturn.others, hturn.kept, hturn.readControl, hturn.writeControl, hturn.ordered⟩
  rcases hturn.self with hk | ⟨n, hn, hm⟩
  · exact .inl hk
  · refine .inr ⟨n, hn.trans ?_, hm⟩
    simp only [readPacket]
    omega

lemma written_writeBc (hc : (s.sock t).writeControl = some c) :
    (s.written t n).writeBc = Function.update s.writeBc c ((s.writeBc c).count n) := by
  simp only [State.written, State.onWriteControl, hc, State.onWriteBc, State.setSock]

lemma written_readBc : (s.written t n).readBc = s.readBc := by
  simp only [State.written, State.onWriteControl]
  split <;> rfl

lemma written_sock : (s.written t n).sock = Function.update s.sock t
    { s.sock t with
      nwrite := (s.sock t).nwrite + n
      wbuf := (s.sock t).wbuf.taken n
      sent := (s.sock t).sent ++ (s.sock t).wbuf.data.take n } := by
  simp only [State.written, State.onWriteControl]
  split <;> rfl

lemma written_control (t' : ℕ) :
    ((s.written t n).sock t').readControl = (s.sock t').readControl ∧
      ((s.written t n).sock t').writeControl = (s.sock t').writeControl := by
  rw [written_sock]
  by_cases ht : t' = t
  · subst ht
    rw [Function.update_self]
    exact ⟨rfl, rfl⟩
  · rw [Function.update_of_ne ht]
    exact ⟨rfl, rfl⟩

lemma ordered_written (h : s.Ordered) : (s.written t n).Ordered := by
  intro t'
  rw [written_sock]
  by_cases ht : t' = t
  · subst ht
    rw [Function.update_self]
    dsimp only
    rw [State.taken_data, List.append_assoc, List.take_append_drop]
    exact h t'
  · rw [Function.update_of_ne ht]
    exact h t'

lemma canWriteHandler_spec (w : Write) (size : ℤ) :
    ∃ s1, (s1 = s ∨ ∃ n : ℕ, n ≤ max 0 size ∧ s1 = s.written t n) ∧
      s1.Calm (s.canWriteHandler z t size w) := by
  simp only [State.canWriteHandler]
  split
  · exact ⟨s, .inl rfl, .refl s⟩
  · split
    · exact ⟨s, .inl rfl, .refill w⟩
    · split
      · rename_i n _
        refine ⟨s.written t (min n size.toNat), .inr ⟨_, by omega, rfl⟩, ?_⟩
        split
        · exact State.Calm.close.trans (.refill w)
        · exact .refill w
      · exact ⟨s, .inl rfl, .refl s⟩
      · exact ⟨s, .inl rfl, .close⟩

lemma writeTurn_turn (w : Write) (hc : (s.sock t).writeControl = some c)
    (hrem : 0 < (s.writeBc c).remainingBytes) :
    Turn State.writeBc State.readBc c (z.bestPacketSize (s.writeBc c).remainingBytes) s
      (s.writeTurn z c (t, w)) := by
  have hshare := share_le (n := (s.writeBc c).nconnections) hrem
  have hbest := z.bestPacketSize_eq (s.writeBc c).remainingBytes
  simp only [State.writeTurn, if_pos hrem, writePower, mul_one, z.bestPacketSize_eq]
  set maxLen := min (max (max 1 ((s.writeBc c).remainingBytes.tdiv
    (max (s.writeBc c).nconnections 1))) (z.minimalPacketSize : ℤ) + 1)
    ((s.sock t).wbuf.data.length : ℤ) with hmax
  obtain ⟨s1, h1, hcalm⟩ := canWriteHandler_spec (z := z) (s := s) (t := t) w maxLen
  set s2 := s.canWriteHandler z t maxLen w
  rcases h1 with rfl | ⟨n, hn, rfl⟩
  · -- nothing is written
    refine Turn.calm follows_writeBc follows_readBc (.of_calm follows_writeBc follows_readBc hcalm)
      (.onWriteBc ⟨rfl, rfl, rfl, fun hb => ?_, fun _ => rfl⟩)
    have hb' : 0 < (s1.writeBc c).totalBytes := (hcalm.writes c).totalBytes ▸ hb
    have hnwrite := hcalm.nwrite t c hc hb'
    dsimp only
    omega
  · have hc1 : ((s.written t n).sock t).writeControl = some c := (written_control t).2.trans hc
    have hself : (s.written t n).writeBc c = (s.writeBc c).count n := by
      rw [written_writeBc hc, Function.update_self]
    have hkept := hcalm.writes c
    rw [hself] at hkept
    refine ⟨?_, fun c' hc' => ?_, fun c' => ?_, fun t' => ?_, fun t' => ?_, fun ho => ?_⟩
    · by_cases hb : 0 < (s.writeBc c).totalBytes
      · refine .inr ⟨n, by omega, ?_⟩
        have hnwrite : (s2.sock t).nwrite = (s.sock t).nwrite + n := by
          rw [hcalm.nwrite t c hc1 (by rw [hself]; exact hb), written_sock, Function.update_self]
        have hle := hkept.remaining_le hb
        refine ⟨?_, ?_, ?_, fun _ => ?_, fun _ => ⟨(s.writeBc c).remainingBytes, ?_⟩⟩
        all_goals simp only [State.onWriteBc, Function.update_self]
        · exact hkept.totalBytes
        · exact hkept.budget
        · exact hkept.connections
        · have hsame : ((s.writeBc c).count n).remainingBytes = (s.writeBc c).remainingBytes := rfl
          omega
        · exact hkept.packets hb
      · refine .inl ⟨?_, ?_, ?_, fun h => absurd h hb, fun h => absurd h hb⟩
        all_goals simp only [State.onWriteBc, Function.update_self]
        · exact hkept.totalBytes
        · exact hkept.budget
        · exact hkept.connections
    · have hother := hcalm.writes c'
      rw [written_writeBc hc, Function.update_of_ne hc'] at hother
      simpa only [State.onWriteBc, Function.update_of_ne hc'] using hother
    · have hread := hcalm.reads c'
      rwa [written_readBc] at hread
    · exact (hcalm.readControl t').trans (written_control t').1
    · exact (hcalm.writeControl t').trans (written_control t').2
    · exact hcalm.ordered (ordered_written ho)

end Turns

-- What the runs keep
structure Inv (z : Sizes) (s : State) : Prop where
  reads : ∀ c, 0 < (s.readBc c).totalBytes → (s.readBc c).Within (readPacket z)
  writes : ∀ c, 0 < (s.writeBc c).totalBytes → (s.writeBc c).Within z.bestPacketSize
  readers : ∀ c, ∀ t ∈ (s.readBc c).connections, (s.sock t).readControl = some c
  writers : ∀ c, ∀ t ∈ (s.writeBc c).connections, (s.sock t).writeControl = some c
  ordered : s.Ordered

-- What a step does to the controlers
structure Moves (s s' : State) : Prop where
  reads : ∀ c, (s.readBc c).Slower (s'.readBc c)
  writes : ∀ c, (s.writeBc c).Slower (s'.writeBc c)
  readControl : ∀ t, (s'.sock t).readControl = (s.sock t).readControl
  writeControl : ∀ t, (s'.sock t).writeControl = (s.sock t).writeControl

section Steps

lemma Moves.refl (s : State) : Moves s s :=
  ⟨fun _ => .refl _, fun _ => .refl _, fun _ => rfl, fun _ => rfl⟩

lemma Moves.trans (h : Moves s s') (h' : Moves s' s'') : Moves s s'' where
  reads c := (h.reads c).trans (h'.reads c)
  writes c := (h.writes c).trans (h'.writes c)
  readControl t := (h'.readControl t).trans (h.readControl t)
  writeControl t := (h'.writeControl t).trans (h.writeControl t)

-- A step that keeps the invariant
structure Sound (z : Sizes) (s s' : State) : Prop where
  inv : Inv z s'
  moves : Moves s s'

lemma Sound.trans (h : Sound z s s') (h' : Sound z s' s'') : Sound z s s'' :=
  ⟨h'.inv, h.moves.trans h'.moves⟩

lemma Inv.calm (h : Inv z s) (hc : s.Calm s') : Sound z s s' where
  inv := by
    refine ⟨fun c hb => ?_, fun c hb => ?_, fun c t ht => ?_, fun c t ht => ?_,
      hc.ordered h.ordered⟩
    · have hb' := (hc.reads c).totalBytes ▸ hb
      exact (hc.reads c).within hb' (h.reads c hb')
    · have hb' := (hc.writes c).totalBytes ▸ hb
      exact (hc.writes c).within hb' (h.writes c hb')
    · rw [hc.readControl]
      exact h.readers c t ((hc.reads c).connections ▸ ht)
    · rw [hc.writeControl]
      exact h.writers c t ((hc.writes c).connections ▸ ht)
  moves := ⟨fun c => (hc.reads c).slower, fun c => (hc.writes c).slower, hc.readControl,
    hc.writeControl⟩

section Loop

variable {own other : State → ℕ → Bc} {packet : ℤ → ℤ}

lemma Turn.within (hpacket : ∀ r r', 0 < r → packet r - r ≤ packet r')
    (h : Turn own other c (packet (own s c).remainingBytes) s s')
    (hrem : 0 < (own s c).remainingBytes)
    (hw : ∀ c, 0 < (own s c).totalBytes → (own s c).Within packet) (c' : ℕ)
    (hb : 0 < (own s' c').totalBytes) : (own s' c').Within packet := by
  by_cases hc : c' = c
  · subst hc
    rcases h.self with hk | ⟨n, hn, hm⟩
    · exact hk.within (hk.totalBytes ▸ hb) (hw c' (hk.totalBytes ▸ hb))
    · exact hm.within hpacket (hm.totalBytes ▸ hb) hrem hn (hw c' (hm.totalBytes ▸ hb))
  · have hk := h.others c' hc
    exact hk.within (hk.totalBytes ▸ hb) (hw c' (hk.totalBytes ▸ hb))

lemma Turn.slower {size : ℤ} (h : Turn own other c size s s')
    (hrem : 0 < (own s c).remainingBytes) (c' : ℕ) : (own s c').Slower (own s' c') := by
  by_cases hc : c' = c
  · subst hc
    rcases h.self with hk | ⟨n, -, hm⟩
    · exact hk.slower
    · exact hm.slower hrem
  · exact (h.others c' hc).slower

lemma Turn.connections {size : ℤ} (h : Turn own other c size s s') (c' : ℕ) :
    (own s' c').connections = (own s c').connections := by
  by_cases hc : c' = c
  · subst hc
    rcases h.self with hk | ⟨n, -, hm⟩
    · exact hk.connections
    · exact hm.connections
  · exact (h.others c' hc).connections

end Loop

lemma Inv.readTurn (h : Inv z s) (r : Read) (hc : (s.sock t).readControl = some c) :
    Sound z s (s.readTurn z c (t, r)) := by
  by_cases hrem : 0 < (s.readBc c).remainingBytes
  case neg =>
    rw [State.readTurn, if_neg hrem]
    exact ⟨h, .refl s⟩
  case pos =>
    have hturn := readTurn_turn (z := z) r hc hrem
    refine ⟨⟨hturn.within readPacket_sub hrem h.reads, fun c' hb => ?_, fun c' t' ht => ?_,
      fun c' t' ht => ?_, hturn.ordered h.ordered⟩,
      ⟨hturn.slower hrem, fun c' => (hturn.kept c').slower, hturn.readControl,
        hturn.writeControl⟩⟩
    · have hk := hturn.kept c'
      exact hk.within (hk.totalBytes ▸ hb) (h.writes c' (hk.totalBytes ▸ hb))
    · rw [hturn.readControl]
      exact h.readers c' t' (hturn.connections c' ▸ ht)
    · rw [hturn.writeControl]
      exact h.writers c' t' ((hturn.kept c').connections ▸ ht)

lemma Inv.writeTurn (h : Inv z s) (w : Write) (hc : (s.sock t).writeControl = some c) :
    Sound z s (s.writeTurn z c (t, w)) := by
  by_cases hrem : 0 < (s.writeBc c).remainingBytes
  case neg =>
    rw [State.writeTurn, if_neg hrem]
    exact ⟨h, .refl s⟩
  case pos =>
    have hturn := writeTurn_turn (z := z) w hc hrem
    refine ⟨⟨fun c' hb => ?_, hturn.within bestPacketSize_sub hrem h.writes, fun c' t' ht => ?_,
      fun c' t' ht => ?_, hturn.ordered h.ordered⟩,
      ⟨fun c' => (hturn.kept c').slower, hturn.slower hrem, hturn.readControl,
        hturn.writeControl⟩⟩
    · have hk := hturn.kept c'
      exact hk.within (hk.totalBytes ▸ hb) (h.reads c' (hk.totalBytes ▸ hb))
    · rw [hturn.readControl]
      exact h.readers c' t' ((hturn.kept c').connections ▸ ht)
    · rw [hturn.writeControl]
      exact h.writers c' t' (hturn.connections c' ▸ ht)

-- Controlers that may have new connections, which are attached to them
structure Reconnected (control : ℕ → Option ℕ) (own own' : ℕ → Bc) : Prop where
  same : ∀ c, ∃ conns ncon, own' c = { own c with connections := conns, nconnections := ncon }
  attached : ∀ c, ∀ t ∈ (own' c).connections, control t = some c

namespace Reconnected

variable {control : ℕ → Option ℕ} {own own' : ℕ → Bc} {packet : ℤ → ℤ}

lemma update {b : Bc} {conns : List ℕ} {ncon : ℤ}
    (hold : ∀ c, ∀ t ∈ (own c).connections, control t = some c)
    (hb : b = { own c with connections := conns, nconnections := ncon })
    (hconns : ∀ t ∈ conns, control t = some c) :
    Reconnected control own (Function.update own c b) where
  same c' := by
    by_cases hc : c' = c
    · subst hc
      exact ⟨conns, ncon, by rw [Function.update_self, hb]⟩
    · exact ⟨(own c').connections, (own c').nconnections, by rw [Function.update_of_ne hc]⟩
  attached c' t ht := by
    by_cases hc : c' = c
    · subst hc
      rw [Function.update_self, hb] at ht
      exact hconns t ht
    · rw [Function.update_of_ne hc] at ht
      exact hold c' t ht

lemma within (h : Reconnected control own own')
    (hw : ∀ c, 0 < (own c).totalBytes → (own c).Within packet) (c : ℕ)
    (hb : 0 < (own' c).totalBytes) : (own' c).Within packet := by
  obtain ⟨conns, ncon, heq⟩ := h.same c
  rw [heq] at hb ⊢
  exact ⟨(hw c hb).left, (hw c hb).bound⟩

lemma slower (h : Reconnected control own own') (c : ℕ) : (own c).Slower (own' c) := by
  obtain ⟨conns, ncon, heq⟩ := h.same c
  rw [heq]
  exact ⟨rfl, rfl, fun _ => le_rfl, fun _ _ => rfl⟩

end Reconnected

lemma Inv.onReadBc {f : Bc → Bc} (h : Inv z s) {conns : List ℕ} {ncon : ℤ}
    (hf : f (s.readBc c) = { s.readBc c with connections := conns, nconnections := ncon })
    (hconns : ∀ t ∈ conns, (s.sock t).readControl = some c) : Sound z s (s.onReadBc c f) := by
  have hnew : Reconnected (fun t => (s.sock t).readControl) s.readBc (s.onReadBc c f).readBc :=
    .update h.readers hf hconns
  exact ⟨⟨hnew.within h.reads, h.writes, hnew.attached, h.writers, h.ordered⟩,
    ⟨hnew.slower, fun _ => .refl _, fun _ => rfl, fun _ => rfl⟩⟩

lemma Inv.onWriteBc {f : Bc → Bc} (h : Inv z s) {conns : List ℕ} {ncon : ℤ}
    (hf : f (s.writeBc c) = { s.writeBc c with connections := conns, nconnections := ncon })
    (hconns : ∀ t ∈ conns, (s.sock t).writeControl = some c) : Sound z s (s.onWriteBc c f) := by
  have hnew : Reconnected (fun t => (s.sock t).writeControl) s.writeBc
      (s.onWriteBc c f).writeBc := .update h.writers hf hconns
  exact ⟨⟨h.reads, hnew.within h.writes, h.readers, hnew.attached, h.ordered⟩,
    ⟨fun _ => .refl _, hnew.slower, fun _ => rfl, fun _ => rfl⟩⟩

lemma Inv.readPass (h : Inv z s) (reads : ℕ → ℕ → Read) (c : ℕ) :
    Sound z s (s.readPass z reads c) := by
  have hend {s' : State} (hs : Sound z s s') : Sound z s (s'.onReadBc c State.emptied) :=
    hs.trans (hs.inv.onReadBc rfl fun t ht => absurd ht List.not_mem_nil)
  simp only [State.readPass]
  split
  case isFalse => exact hend ⟨h, .refl s⟩
  case isTrue =>
    set connections := (s.readBc c).connections.insertionSort fun t1 t2 =>
      (s.sock t1).nread ≤ (s.sock t2).nread with hsort
    have hconns (t : ℕ) (ht : t ∈ connections) : (s.sock t).readControl = some c :=
      h.readers c t ((List.perm_insertionSort _ _).mem_iff.mp ht)
    refine hend (List.foldlRecOn _ _ (h.onReadBc rfl hconns) ?_)
    rintro s' hs' ⟨t, r⟩ ht
    refine hs'.trans (hs'.inv.readTurn r ?_)
    rw [hs'.moves.readControl]
    exact hconns t (List.of_mem_zip ht).1

lemma Inv.writePass (h : Inv z s) (writes : ℕ → ℕ → Write) (c : ℕ) :
    Sound z s (s.writePass z writes c) := by
  have hend {s' : State} (hs : Sound z s s') : Sound z s (s'.onWriteBc c State.emptied) :=
    hs.trans (hs.inv.onWriteBc rfl fun t ht => absurd ht List.not_mem_nil)
  simp only [State.writePass]
  split
  case isFalse => exact hend ⟨h, .refl s⟩
  case isTrue =>
    set connections := (s.writeBc c).connections.insertionSort fun t1 t2 =>
      (s.sock t1).wbuf.data.length ≤ (s.sock t2).wbuf.data.length with hsort
    have hconns (t : ℕ) (ht : t ∈ connections) : (s.sock t).writeControl = some c :=
      h.writers c t ((List.perm_insertionSort _ _).mem_iff.mp ht)
    refine hend (List.foldlRecOn _ _ (h.onWriteBc rfl hconns) ?_)
    rintro s' hs' ⟨t, w⟩ ht
    refine hs'.trans (hs'.inv.writeTurn w ?_)
    rw [hs'.moves.writeControl]
    exact hconns t (List.of_mem_zip ht).1

lemma Inv.afterSelect (h : Inv z s) (reads : ℕ → ℕ → Read) (writes : ℕ → ℕ → Write) :
    Sound z s (s.afterSelect z reads writes) := by
  rw [State.afterSelect]
  refine List.foldlRecOn _ _ (List.foldlRecOn _ _ ⟨h, .refl s⟩ ?_) ?_
  · exact fun s' hs' c _ => hs'.trans (hs'.inv.readPass reads c)
  · exact fun s' hs' c _ => hs'.trans (hs'.inv.writePass writes c)

-- Outside the loops, a socket moves bytes only if no limit holds for it.
lemma calm_canReadHandler (r : Read)
    (hfree : ∀ c, (s.sock t).readControl = some c → (s.readBc c).totalBytes = 0) (size : ℤ) :
    s.Calm (s.canReadHandler z t size r) := by
  simp only [State.canReadHandler]
  split
  · exact .refl s
  · exact .close
  · rename_i n _
    set nread := min n size.toNat
    set s1 := s.acts z r.bufferOverflow
    have h1 : s.Calm s1 := .acts _
    have hcount : s1.Calm (s1.onReadControl t (.count nread)) := by
      refine .onReadControl fun c hc => Bc.kept_count ?_
      rw [h1.readControl] at hc
      rw [(h1.reads c).totalBytes]
      exact hfree c hc
    set s2 := s1.onReadControl t (.count nread)
    have h3 : s.Calm (s2.setSock t { s2.sock t with nread := (s2.sock t).nread + nread }) :=
      (h1.trans hcount).trans (.setSock rfl rfl (fun _ _ _ => rfl) id)
    split
    · exact h3.trans .close
    · have hdone := ((h3.trans (.registerDownload (z := z) (t := t) (n := nread))).trans
        (.registerUpload (z := z) (t := t) (n := 0))).trans (.acts (z := z) r.readDone)
      split
      · exact hdone.trans .close
      · exact hdone

lemma calm_written (hfree : ∀ c, (s.sock t).writeControl = some c → (s.writeBc c).totalBytes = 0) :
    s.Calm (s.written t n) where
  reads c := by
    rw [written_readBc]
    exact .refl _
  writes c := by
    by_cases hc : (s.sock t).writeControl = some c
    · rw [written_writeBc hc, Function.update_self]
      exact Bc.kept_count (hfree c hc)
    · have hsame : (s.written t n).writeBc c = s.writeBc c := by
        simp only [State.written, State.onWriteControl]
        split
        · rfl
        · rename_i c' hc'
          have hne : c ≠ c' := by
            rintro rfl
            exact hc hc'
          simp only [State.onWriteBc, State.setSock, Function.update_of_ne hne]
      rw [hsame]
      exact .refl _
  readControl t' := (written_control t').1
  writeControl t' := (written_control t').2
  nwrite t' c hc hb := by
    rw [written_sock]
    by_cases ht : t' = t
    · subst ht
      exact absurd (hfree c hc) hb.ne'
    · rw [Function.update_of_ne ht]
  ordered := ordered_written

lemma calm_canWriteHandler (w : Write)
    (hfree : ∀ c, (s.sock t).writeControl = some c → (s.writeBc c).totalBytes = 0) (size : ℤ) :
    s.Calm (s.canWriteHandler z t size w) := by
  obtain ⟨s1, rfl | ⟨n, -, rfl⟩, hcalm⟩ :=
    canWriteHandler_spec (z := z) (s := s) (t := t) w size
  · exact hcalm
  · exact (calm_written hfree).trans hcalm

lemma Inv.canRead (h : Inv z s) (r : Read) : Sound z s (s.canRead z t r) := by
  rw [State.canRead]
  split
  case h_1 hnone =>
    exact h.calm (calm_canReadHandler r (fun c hc => by rw [hnone] at hc; cases hc) _)
  case h_2 c hc =>
    dsimp only
    split
    case isTrue hzero =>
      refine h.calm (calm_canReadHandler r (fun c' hc' => ?_) _)
      cases hc.symm.trans hc'
      exact hzero
    case isFalse =>
      split
      · refine h.onReadBc rfl fun t' ht' => ?_
        rcases List.mem_cons.mp ht' with rfl | ht'
        · exact hc
        · exact h.readers c t' ht'
      · exact ⟨h, .refl s⟩

lemma Inv.tcpHandlerWrite (h : Inv z s) (w : Write) : Sound z s (s.tcpHandlerWrite z t w) := by
  rw [State.tcpHandlerWrite]
  split
  case h_1 hnone =>
    exact h.calm (calm_canWriteHandler w (fun c hc => by rw [hnone] at hc; cases hc) _)
  case h_2 c hc =>
    split
    case isTrue hzero =>
      refine h.calm (calm_canWriteHandler w (fun c' hc' => ?_) _)
      cases hc.symm.trans hc'
      exact hzero
    case isFalse =>
      refine h.onWriteBc rfl fun t' ht' => ?_
      rcases List.mem_cons.mp ht' with rfl | ht'
      · exact hc
      · exact h.writers c t' ht'

lemma Inv.canWrite (h : Inv z s) (connected : List Action) (w : Write) :
    Sound z s (s.canWrite z t connected w) := by
  rw [State.canWrite]
  dsimp only
  split
  case isTrue =>
    have hset : s.Calm (s.setSock t { s.sock t with connecting := false }) :=
      .setSock rfl rfl (fun _ _ _ => rfl) id
    have hcalm : s.Calm ((s.setSock t { s.sock t with connecting := false }).acts z connected) :=
      hset.trans (.acts _)
    have hsound := h.calm hcalm
    split
    · exact hsound.trans (hsound.inv.tcpHandlerWrite w)
    · exact hsound
  case isFalse => exact h.tcpHandlerWrite w

-- One step keeps the invariant.
lemma Inv.step (h : Inv z s) (op : Op) : Sound z s (step z op s) := by
  cases op with
  | canRead t r => exact h.canRead r
  | canWrite t connected w => exact h.canWrite connected w
  | afterSelect reads writes => exact h.afterSelect reads writes
  | act action => exact h.calm (.act action)

end Steps

section Runs

-- The sockets in the lists of the controlers are attached to these.
structure Attached (s : State) : Prop where
  readers : ∀ c, ∀ t ∈ (s.readBc c).connections, (s.sock t).readControl = some c
  writers : ∀ c, ∀ t ∈ (s.writeBc c).connections, (s.sock t).writeControl = some c

-- The runs that begin with a reset and have no other
def Runs (z : Sizes) (start : State) : State → Prop :=
  Reach (step z) (fun s => s = start.resetBandwidthControlers) fun _ _ => True

lemma within_reset {packet : ℤ → ℤ} (b : Bc) : b.reset.Within packet := by
  refine ⟨?_, ?_⟩
  · simp [Bc.reset, Bc.moved]
  · simp [Bc.reset, Bc.moved, Bc.lastPacket]

lemma Runs.sound {start : State} (ha : Attached start) (h : Runs z start s) :
    Sound z start.resetBandwidthControlers s := by
  refine Reach.inv (I := Sound z start.resetBandwidthControlers) ?_
    (fun s op hs _ => hs.trans (hs.inv.step op)) h
  rintro s rfl
  exact ⟨⟨fun _ _ => within_reset _, fun _ _ => within_reset _, ha.readers, ha.writers,
    fun _ => rfl⟩, .refl _⟩

end Runs

def idle : Sock := ⟨⟨0, 0, [], 2000⟩, 0, 0, some 0, some 0, false, false, false, [], []⟩

end Mldonkey.TcpBandwidth
