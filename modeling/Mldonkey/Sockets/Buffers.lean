import Mathlib.Tactic

-- The buffers of TcpBufferedSocket. Strings are cells of a heap, since a string that is
-- given to the pool may be handed out again.
namespace Mldonkey.Sockets

abbrev Bytes := List UInt8

abbrev Loc := Nat

def bigBufferLen : Nat := 65536

def minBufferRead : Nat := 2000

def minReadSize : Nat := minBufferRead - 100

def oldStringsSize : Nat := 20

-- `loc` is the string of the field buf.
structure Buf where
  loc : Loc
  pos : Nat
  len : Nat
  maxBufSize : Nat
  minBufSize : Nat
  deriving DecidableEq, Repr

inductive Side where
  | rbuf
  | wbuf
  deriving DecidableEq, Repr

-- A buffer of the socket with a number.
abbrev BufId := Nat × Side

-- At location 0 is the string "", and from `next` on nothing has been created.
structure World where
  heap : Loc → Bytes
  next : Loc
  oldStrings : List Loc
  buf : BufId → Buf
  closing : Nat → Bool

def bufCreate (max : Nat) : Buf := ⟨0, 0, 0, max, minReadSize⟩

-- Sockets of which nothing has been used yet, with the sizes of their buffers.
def initial (max : BufId → Nat) : World where
  heap := fun _ => []
  next := 1
  oldStrings := []
  buf := fun i => bufCreate (max i)
  closing := fun _ => false

namespace World

def string (w : World) (i : BufId) : Bytes := w.heap (w.buf i).loc

-- The bytes that a buffer holds.
def content (w : World) (i : BufId) : Bytes := ((w.string i).drop (w.buf i).pos).take (w.buf i).len

def setBuf (w : World) (i : BufId) (b : Buf) : World := { w with buf := Function.update w.buf i b }

def create (w : World) (n : Nat) : World × Loc :=
  ({ w with
      heap := Function.update w.heap w.next (List.replicate n 0)
      next := w.next + 1 }, w.next)

def newString (w : World) : World × Loc :=
  match w.oldStrings with
  | [] => w.create minBufferRead
  | s :: rest => ({ w with oldStrings := rest }, s)

def deleteString (w : World) (s : Loc) : World :=
  if w.oldStrings.length < oldStringsSize ∧ (w.heap s).length = minBufferRead then
    { w with oldStrings := s :: w.oldStrings }
  else w

-- String.sub and String.blit raise an exception outside the bounds.
def sub (w : World) (s : Loc) (pos len : Nat) : Option Bytes :=
  if pos + len ≤ (w.heap s).length then some (((w.heap s).drop pos).take len) else none

def blit (data : Bytes) (w : World) (s : Loc) (pos : Nat) : Option World :=
  if pos + data.length ≤ (w.heap s).length then
    let t := (w.heap s).take pos ++ (data ++ (w.heap s).drop (pos + data.length))
    some { w with heap := Function.update w.heap s t }
  else none

def bufUsed (w : World) (i : BufId) (nused : Nat) : World :=
  let b := w.buf i
  if nused = b.len then (w.deleteString b.loc).setBuf i { b with loc := 0, pos := 0, len := 0 }
  else w.setBuf i { b with len := b.len - nused, pos := b.pos + nused }

-- The bytes of the buffer are moved to the string s, which may be their own, and `data`
-- is put behind them.
def moveTo (w : World) (i : BufId) (s : Loc) (data : Bytes) : Option World := do
  let b := w.buf i
  let moved ← w.sub b.loc b.pos b.len
  let w ← blit moved w s 0
  let w ← blit data w s b.len
  return w.setBuf i { b with loc := s, pos := 0, len := b.len + data.length }

-- A buffer without a string gets one.
def withString (w : World) (i : BufId) : World :=
  if w.string i = [] then
    let out := w.newString
    out.1.setBuf i { w.buf i with loc := out.2 }
  else w

-- The test of buf_add for BUFFER_OVERFLOW, after which it does nothing.
def Overflows (w : World) (i : BufId) (len : Nat) : Prop :=
  let b := (w.withString i).buf i
  let maxLen := ((w.withString i).string i).length
  maxLen < b.pos + b.len + len ∧ ¬ b.len + len < maxLen ∧ b.maxBufSize < b.len + len

instance (w : World) (i : BufId) (len : Nat) : Decidable (w.Overflows i len) :=
  inferInstanceAs (Decidable (_ ∧ _ ∧ _))

-- buf_add of the bytes from pos1 on.
def bufAdd (w : World) (i : BufId) (data : Bytes) : Option World :=
  let w := w.withString i
  let b := w.buf i
  let maxLen := (w.string i).length
  if maxLen < b.pos + b.len + data.length then
    if b.len + data.length < maxLen then w.moveTo i b.loc data
    else if b.maxBufSize < b.len + data.length then some w
    else do
      let newLen := min (max (2 * maxLen) (b.len + data.length)) b.maxBufSize
      let out := w.create newLen
      let w ← out.1.moveTo i out.2 data
      return if maxLen = minBufferRead then w.deleteString b.loc else w
  else do
    let w ← blit data w b.loc (b.pos + b.len)
    return w.setBuf i { b with len := b.len + data.length }

def close (w : World) (k : Nat) : World :=
  if w.closing k then w
  else
    let w := { w with closing := Function.update w.closing k true }
    let w := (w.deleteString (w.buf (k, .rbuf)).loc).deleteString (w.buf (k, .wbuf)).loc
    (w.setBuf (k, .rbuf) { w.buf (k, .rbuf) with loc := 0 }).setBuf (k, .wbuf)
      { w.buf (k, .wbuf) with loc := 0 }

-- How a call of Unix.read or Unix.write ends: with a result, with EWOULDBLOCK or EAGAIN,
-- or with another exception.
inductive Answer (α : Type) where
  | done (a : α)
  | wouldBlock
  | failed

-- The test of can_read_handler for BUFFER_OVERFLOW, after which it closes the socket.
def Overfull (w : World) (i : BufId) : Prop :=
  let b := w.buf i
  w.string i ≠ [] ∧ (w.string i).length < b.pos + b.len + minReadSize ∧
    b.maxBufSize < b.len + minReadSize

instance (w : World) (i : BufId) : Decidable (w.Overfull i) :=
  inferInstanceAs (Decidable (_ ∧ _ ∧ _))

-- The room that can_read_handler makes in the buffer when it does not copy.
def makeRoom (w : World) (i : BufId) : Option World :=
  let b := w.buf i
  if w.string i = [] then
    if b.minBufSize ≤ minBufferRead then some (w.withString i)
    else
      let out := w.create b.minBufSize
      some (out.1.setBuf i { b with loc := out.2 })
  else
    let bufLen := (w.string i).length
    if bufLen < b.pos + b.len + minReadSize then
      if b.len + minReadSize < bufLen then w.moveTo i b.loc []
      else
        let out := w.create (min (max (2 * bufLen) (b.len + minReadSize)) b.maxBufSize)
        out.1.moveTo i out.2 []
    else some w

-- The bytes behind those of the buffer.
def room (w : World) (i : BufId) : Nat :=
  (w.string i).length - ((w.buf i).pos + (w.buf i).len)

-- The bytes that have been read are in the buffer; the next size depends on their number.
def afterRead (w : World) (k : Nat) (nread : Nat) : World :=
  let b := w.buf (k, .rbuf)
  let w := w.setBuf (k, .rbuf)
    { b with minBufSize := min b.maxBufSize (max (nread + nread / 2) minReadSize) }
  if nread = 0 then w.close k else w

-- Unix.read puts its bytes right behind those of the buffer.
def readInto (w : World) (i : BufId) (data : Bytes) : Option World := do
  let b := w.buf i
  let w ← blit data w b.loc (b.pos + b.len)
  return w.setBuf i { b with len := b.len + data.length }

-- can_read_handler, up to the event READ_DONE.
def canReadHandler (w : World) (k : Nat) (copyReadBuffer : Bool) (maxLen : Nat)
    (answer : Answer Bytes) : Option World :=
  let i : BufId := (k, .rbuf)
  if copyReadBuffer then
    if 0 < min maxLen bigBufferLen then
      match answer with
      | .done data => (w.bufAdd i data).map (·.afterRead k data.length)
      | .wouldBlock => some w
      | .failed => some (w.close k)
    else some w
  else if w.Overfull i then some (w.close k)
  else do
    let w ← w.makeRoom i
    if 0 < min maxLen (w.room i) then
      match answer with
      | .done data => (w.readInto i data).map (·.afterRead k data.length)
      | .wouldBlock => some w
      | .failed => some (w.close k)
    else some w

-- The number of bytes that can_read_handler asks Unix.read for.
def canRead (w : World) (k : Nat) (copyReadBuffer : Bool) (maxLen : Nat) : Nat :=
  if copyReadBuffer then min maxLen bigBufferLen
  else if w.Overfull (k, .rbuf) then 0
  else ((w.makeRoom (k, .rbuf)).map fun w => min maxLen (w.room (k, .rbuf))).getD 0

-- can_write_handler, up to the event CAN_REFILL.
def canWriteHandler (w : World) (k : Nat) (answer : Answer Nat) : World :=
  let i : BufId := (k, .wbuf)
  let b := w.buf i
  if 0 < b.len then
    match answer with
    | .done nw =>
        let w := w.setBuf i { b with len := b.len - nw, pos := b.pos + nw }
        if nw = 0 then w.close k
        else if b.len - nw = 0 then
          (w.deleteString b.loc).setBuf i { b with len := 0, pos := 0, loc := 0 }
        else w
    | .wouldBlock => w
    | .failed => w.close k
  else w

-- The end of can_write_handler, behind the handlers of CAN_REFILL, which may have closed
-- the socket.
def afterRefill (w : World) (k : Nat) : World :=
  let b := w.buf (k, .wbuf)
  if b.len = 0 then (w.deleteString b.loc).setBuf (k, .wbuf) { b with pos := 0 } else w

end World

-- What happens to the sockets. The handlers of events are operations that follow, and
-- those of CAN_REFILL stand between `canWrite` and `refilled`.
inductive SocketOp where
  | bufAdd (i : BufId) (data : Bytes)
  | bufUsed (i : BufId) (nused : Nat)
  | canRead (k : Nat) (copyReadBuffer : Bool) (maxLen : Nat) (answer : World.Answer Bytes)
  | canWrite (k : Nat) (answer : World.Answer Nat)
  | refilled (k : Nat)
  | close (k : Nat)

-- None stands for an exception of String.blit or String.sub.
def World.step (w : World) : SocketOp → Option World
  | .bufAdd i data => w.bufAdd i data
  | .bufUsed i nused => some (w.bufUsed i nused)
  | .canRead k copyReadBuffer maxLen answer => w.canReadHandler k copyReadBuffer maxLen answer
  | .canWrite k answer => some (w.canWriteHandler k answer)
  | .refilled k => some (w.afterRefill k)
  | .close k => some (w.close k)

-- The bytes that have been added to each buffer and not been used yet.
def queueStep (q : BufId → Bytes) : SocketOp → BufId → Bytes
  | .bufAdd i data => Function.update q i (q i ++ data)
  | .bufUsed i nused => Function.update q i ((q i).drop nused)
  | .canRead k _ _ (.done data) => Function.update q (k, .rbuf) (q (k, .rbuf) ++ data)
  | .canWrite k (.done nw) => Function.update q (k, .wbuf) ((q (k, .wbuf)).drop nw)
  | _ => q

-- No more is used than there is, Unix.read does not return more than it was asked for, and
-- Unix.write not more than it was given.
def World.Allowed (w : World) : SocketOp → Prop
  | .bufUsed i nused => nused ≤ (w.buf i).len
  | .canRead k copyReadBuffer maxLen (.done data) =>
      data.length ≤ w.canRead k copyReadBuffer maxLen
  | .canWrite k (.done nw) => nw ≤ (w.buf (k, .wbuf)).len
  | _ => True

-- The runs in which every operation meets `C`, with the queues that belong to them.
inductive Runs (C : World → SocketOp → Prop) (max : BufId → Nat) :
    World → (BufId → Bytes) → Prop where
  | start : Runs C max (initial max) fun _ => []
  | step {w w' : World} {q : BufId → Bytes} {op : SocketOp} (hr : Runs C max w q)
      (hop : C w op) (hw : w.step op = some w') : Runs C max w' (queueStep q op)

-- A close of the socket forgets nothing.
def World.Closable (w : World) (k : Nat) : Prop :=
  w.closing k = true ∨ (w.buf (k, .rbuf)).len = 0 ∧ (w.buf (k, .wbuf)).len = 0

-- Unix.read or Unix.write fails or reports the end.
def World.Answer.Ends {α : Type} (amount : α → Nat) : World.Answer α → Prop
  | .done a => amount a = 0
  | .wouldBlock => False
  | .failed => True

-- No addition overflows, a socket is only closed when its buffers are empty, and the
-- string of an empty write buffer is not given to the pool from under it.
def World.Keeps (w : World) : SocketOp → Prop
  | .bufAdd i data => ¬ w.Overflows i data.length
  | .bufUsed _ _ => True
  | .canRead k copyReadBuffer maxLen answer =>
      (copyReadBuffer = true → ∀ data, answer = .done data →
        ¬ w.Overflows (k, .rbuf) data.length) ∧
      (copyReadBuffer = false → w.Overfull (k, .rbuf) → w.Closable k) ∧
      (0 < w.canRead k copyReadBuffer maxLen → answer.Ends List.length → w.Closable k)
  | .canWrite k answer => 0 < (w.buf (k, .wbuf)).len → answer.Ends id → w.Closable k
  | .refilled k => (w.buf (k, .wbuf)).len = 0 → w.string (k, .wbuf) = []
  | .close k => w.Closable k

end Mldonkey.Sockets
