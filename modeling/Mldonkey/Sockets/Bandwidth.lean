import Mathlib

-- The bandwidth controlers of the TCP sockets. The latencies and the sums of all traffic are left
-- out.
namespace Mldonkey.TcpBandwidth

-- The sizes that the options set
structure Sizes where
  mtuPacketSize : ℕ
  ipPacketSize : ℕ
  minimalPacketSize : ℕ
  mtu_pos : 0 < mtuPacketSize

def packetFrameSize : ℕ := 1

def readPower : ℤ := 1

def writePower : ℤ := 1

def minBufferRead : ℕ := 2000

-- The bytes that register_bytes and forecast_bytes count for a transfer
def Sizes.frames (z : Sizes) (nbytes : ℕ) : ℕ :=
  let nipPackets := 1 + nbytes / z.mtuPacketSize
  let nbytes := nbytes + nipPackets * z.ipPacketSize
  let nframes := 1 + nbytes / packetFrameSize
  nframes * packetFrameSize

def Sizes.bestPacketSize (z : Sizes) (nbytes : ℤ) : ℤ :=
  let nbytes := max nbytes z.minimalPacketSize
  let nipPackets := 1 + nbytes.tdiv z.mtuPacketSize
  let headers := nipPackets * z.ipPacketSize
  let nframes := 1 + (nbytes + headers).tdiv packetFrameSize
  nframes * packetFrameSize - headers

-- The last two fields are not in the code: what was left at the reset, and the transfers since
-- then, newest first, with what remained before them.
structure Bc where
  totalBytes : ℤ
  remainingBytes : ℤ
  forecastBytes : ℤ
  connections : List ℕ
  nconnections : ℤ
  budget : ℤ
  packets : List (ℤ × ℕ)

namespace Bc

def registerBytes (z : Sizes) (nbytes : ℕ) (bc : Bc) : Bc :=
  { bc with remainingBytes := bc.remainingBytes - z.frames nbytes }

def addForecast (z : Sizes) (nbytes : ℕ) (bc : Bc) : Bc :=
  { bc with forecastBytes := bc.forecastBytes + z.frames nbytes }

-- In the code, nbytes is added to moved_bytes.
def count (nbytes : ℕ) (bc : Bc) : Bc :=
  { bc with packets := (bc.remainingBytes, nbytes) :: bc.packets }

def reset (bc : Bc) : Bc :=
  { bc with
    remainingBytes := bc.totalBytes - bc.forecastBytes
    forecastBytes := 0
    budget := bc.totalBytes - bc.forecastBytes
    packets := [] }

end Bc

-- `size` is the length of the string, and `data` is its part that is used.
structure Buf where
  size : ℕ
  pos : ℕ
  data : List UInt8
  maxBufSize : ℕ

namespace Buf

def allocated (b : Buf) : ℕ := if b.size = 0 then minBufferRead else b.size

-- The bytes go behind the others, unless the buffer would be too long.
def overflows (b : Buf) (s : List UInt8) : Bool :=
  b.allocated < b.pos + b.data.length + s.length && b.allocated ≤ b.data.length + s.length &&
    b.maxBufSize < b.data.length + s.length

def add (b : Buf) (s : List UInt8) : Buf :=
  let maxLen := b.allocated
  if b.overflows s then { b with size := maxLen }
  else if maxLen < b.pos + b.data.length + s.length then
    if b.data.length + s.length < maxLen then
      { b with size := maxLen, pos := 0, data := b.data ++ s }
    else
      { b with
        size := min (max (2 * maxLen) (b.data.length + s.length)) b.maxBufSize
        pos := 0
        data := b.data ++ s }
  else { b with size := maxLen, data := b.data ++ s }

-- What a write has taken is gone. An empty buffer gives its string back.
def taken (b : Buf) (nw : ℕ) : Buf :=
  if b.data.length ≤ nw then { b with size := 0, pos := 0, data := [] }
  else { b with pos := b.pos + nw, data := b.data.drop nw }

end Buf

-- The last two fields are not in the code: the bytes that went out, and those that write has
-- accepted.
structure Sock where
  wbuf : Buf
  nread : ℤ
  nwrite : ℤ
  readControl : Option ℕ
  writeControl : Option ℕ
  connecting : Bool
  noproxy : Bool
  closing : Bool
  sent : List UInt8
  accepted : List UInt8

-- The read buffers are left out: whether one overflows is up to what is outside.
structure State where
  sock : ℕ → Sock
  readBc : ℕ → Bc
  writeBc : ℕ → Bc
  readBandwidthControlers : List ℕ
  writeBandwidthControlers : List ℕ

-- What the system does with a read or a write. The bytes are never more than were asked for.
inductive IoResult
  | moved (n : ℕ)
  | again
  | failed

-- What handlers call. The handler of BUFFER_OVERFLOW is the last thing that write calls, so that
-- what it does comes next in the list.
inductive Action
  | write (t : ℕ) (s : List UInt8) (out : IoResult)
  | close (t : ℕ)
  | forecastDownload (t n : ℕ)
  | forecastUpload (t n : ℕ)
  | registerDownload (t n : ℕ)
  | registerUpload (t n : ℕ)

-- What happens in can_read_handler. A handler may raise an exception, but for BUFFER_OVERFLOW.
structure Read where
  out : IoResult
  bufferOverflow : List Action
  readDone : List Action
  raises : Bool

structure Write where
  out : IoResult
  canRefill : List Action
  raises : Bool
  writeDone : List Action

namespace State

variable (z : Sizes) (s : State)

def setSock (t : ℕ) (k : Sock) : State := { s with sock := Function.update s.sock t k }

def onReadBc (c : ℕ) (f : Bc → Bc) : State :=
  { s with readBc := Function.update s.readBc c (f (s.readBc c)) }

def onWriteBc (c : ℕ) (f : Bc → Bc) : State :=
  { s with writeBc := Function.update s.writeBc c (f (s.writeBc c)) }

def onReadControl (t : ℕ) (f : Bc → Bc) : State :=
  match (s.sock t).readControl with
  | none => s
  | some c => s.onReadBc c f

def onWriteControl (t : ℕ) (f : Bc → Bc) : State :=
  match (s.sock t).writeControl with
  | none => s
  | some c => s.onWriteBc c f

def forecastDownload (t n : ℕ) : State := s.onReadControl t (.addForecast z n)

def forecastUpload (t n : ℕ) : State := s.onWriteControl t (.addForecast z n)

def registerDownload (t n : ℕ) : State := s.onReadControl t (.registerBytes z n)

def registerUpload (t n : ℕ) : State := s.onWriteControl t (.registerBytes z n)

def close (t : ℕ) : State :=
  let k := s.sock t
  if k.closing then s
  else
    let s := s.setSock t { k with closing := true }
    if 0 < k.nread then (s.registerUpload z t 0).forecastDownload z t 0 else s

-- The end of write
def bufAdd (t : ℕ) (bytes : List UInt8) : State :=
  let k := s.sock t
  if bytes = [] then s
  else s.setSock t
    { k with
      wbuf := k.wbuf.add bytes
      accepted := if k.wbuf.overflows bytes then k.accepted else k.accepted ++ bytes }

def unlimitedWrite (t : ℕ) : Bool :=
  match (s.sock t).writeControl with
  | none => true
  | some c => (s.writeBc c).totalBytes = 0

def write (t : ℕ) (bytes : List UInt8) (out : IoResult) : State :=
  let k := s.sock t
  if bytes = [] ∨ k.closing = true then s
  else if k.wbuf.data = [] ∧ k.connecting = false ∧ s.unlimitedWrite t = true then
    match out with
    | .moved n =>
      let nw := min n bytes.length
      let s := (s.registerUpload z t bytes.length).forecastDownload z t 0
      let s := s.onWriteControl t (.count nw)
      let s := s.setSock t
        { k with
          nwrite := k.nwrite + nw
          sent := k.sent ++ bytes.take nw
          accepted := k.accepted ++ bytes.take nw }
      if nw = 0 then s.close z t else s.bufAdd t (bytes.drop nw)
    | .again => s.bufAdd t bytes
    | .failed => s.close z t
  else s.bufAdd t bytes

def act (s : State) : Action → State
  | .write t bytes out => s.write z t bytes out
  | .close t => s.close z t
  | .forecastDownload t n => s.forecastDownload z t n
  | .forecastUpload t n => s.forecastUpload z t n
  | .registerDownload t n => s.registerDownload z t n
  | .registerUpload t n => s.registerUpload z t n

def acts (actions : List Action) : State := actions.foldl (act z) s

-- The bytes are counted before the handler of READ_DONE, and after that of BUFFER_OVERFLOW.
def canReadHandler (t : ℕ) (maxLen : ℤ) (r : Read) : State :=
  -- a closed socket has no descriptor
  match if (s.sock t).closing then .failed else r.out with
  | .again => s
  | .failed => s.close z t
  | .moved n =>
    let nread := min n maxLen.toNat
    let s := s.acts z r.bufferOverflow
    let s := s.onReadControl t (.count nread)
    let s := s.setSock t { s.sock t with nread := (s.sock t).nread + nread }
    if nread = 0 then s.close z t
    else
      let s := (s.registerDownload z t nread).registerUpload z t 0
      let s := s.acts z r.readDone
      if r.raises then s.close z t else s

-- The bytes leave the buffer.
def written (t nw : ℕ) : State :=
  let k := s.sock t
  (s.onWriteControl t (.count nw)).setSock t
    { k with
      nwrite := k.nwrite + nw
      wbuf := k.wbuf.taken nw
      sent := k.sent ++ k.wbuf.data.take nw }

-- The end of can_write_handler
def refill (t : ℕ) (w : Write) : State :=
  if (s.sock t).closing then s
  else
    let s := s.acts z w.canRefill
    if w.raises then s
    else if (s.sock t).wbuf.data = [] then s.acts z w.writeDone
    else s

def canWriteHandler (t : ℕ) (maxLen : ℤ) (w : Write) : State :=
  let k := s.sock t
  if k.connecting then s
  else if k.wbuf.data = [] then s.refill z t w
  else
    match if k.closing then .failed else w.out with
    | .moved n =>
      let nw := min n maxLen.toNat
      let s := s.written t nw
      (if nw = 0 then s.close z t else s).refill z t w
    | .again => s
    | .failed => s.close z t

-- The turn of a socket in the after-select loop for a read controler
def readTurn (c : ℕ) (s : State) (turn : ℕ × Read) : State :=
  let bc := s.readBc c
  if 0 < bc.remainingBytes then
    let nconnections := max bc.nconnections 1
    let canRead := max 1 (bc.remainingBytes.tdiv nconnections)
    let canRead := max (z.ipPacketSize : ℤ) (canRead * readPower)
    (s.canReadHandler z turn.1 canRead turn.2).onReadBc c fun bc =>
      { bc with nconnections := bc.nconnections - readPower }
  else s

def writeTurn (c : ℕ) (s : State) (turn : ℕ × Write) : State :=
  let bc := s.writeBc c
  if 0 < bc.remainingBytes then
    let nconnections := max bc.nconnections 1
    let canWrite := max 1 (bc.remainingBytes.tdiv nconnections)
    let canWrite := z.bestPacketSize (canWrite * writePower)
    let t := turn.1
    let k := s.sock t
    let s := s.canWriteHandler z t (min canWrite k.wbuf.data.length) turn.2
    s.onWriteBc c fun bc =>
      { bc with
        remainingBytes := bc.remainingBytes - (s.sock t).nwrite + k.nwrite
        nconnections := bc.nconnections - writePower }
  else s

def emptied (bc : Bc) : Bc := { bc with connections := [], nconnections := 0 }

-- `reads` tells what happens at each turn.
def readPass (reads : ℕ → ℕ → Read) (s : State) (c : ℕ) : State :=
  let bc := s.readBc c
  let s :=
    if 0 < bc.remainingBytes then
      let connections := bc.connections.insertionSort fun t1 t2 =>
        (s.sock t1).nread ≤ (s.sock t2).nread
      let s := s.onReadBc c fun bc => { bc with connections := connections }
      (connections.zip ((List.range connections.length).map (reads c))).foldl (readTurn z c) s
    else s
  s.onReadBc c emptied

def writePass (writes : ℕ → ℕ → Write) (s : State) (c : ℕ) : State :=
  let bc := s.writeBc c
  let s :=
    if 0 < bc.remainingBytes then
      let connections := bc.connections.insertionSort fun t1 t2 =>
        (s.sock t1).wbuf.data.length ≤ (s.sock t2).wbuf.data.length
      let s := s.onWriteBc c fun bc => { bc with connections := connections }
      (connections.zip ((List.range connections.length).map (writes c))).foldl (writeTurn z c) s
    else s
  s.onWriteBc c emptied

def afterSelect (reads : ℕ → ℕ → Read) (writes : ℕ → ℕ → Write) : State :=
  let s := s.readBandwidthControlers.foldl (readPass z reads) s
  s.writeBandwidthControlers.foldl (writePass z writes) s

def canRead (t : ℕ) (r : Read) : State :=
  match (s.sock t).readControl with
  | none => s.canReadHandler z t 1000000 r
  | some c =>
    let bc := s.readBc c
    if bc.totalBytes = 0 then s.canReadHandler z t 1000000 r
    else if 0 < bc.remainingBytes then
      s.onReadBc c fun bc =>
        { bc with
          connections := t :: bc.connections
          nconnections := readPower + bc.nconnections }
    else s

def tcpHandlerWrite (t : ℕ) (w : Write) : State :=
  match (s.sock t).writeControl with
  | none => s.canWriteHandler z t (s.sock t).wbuf.data.length w
  | some c =>
    if (s.writeBc c).totalBytes = 0 then s.canWriteHandler z t (s.sock t).wbuf.data.length w
    else
      s.onWriteBc c fun bc =>
        { bc with
          connections := t :: bc.connections
          nconnections := writePower + bc.nconnections }

def canWrite (t : ℕ) (connected : List Action) (w : Write) : State :=
  let k := s.sock t
  if k.nwrite = 0 ∧ k.noproxy = true ∧ k.connecting = true then
    let s := (s.setSock t { k with connecting := false }).acts z connected
    if (s.sock t).nwrite = 0 then s.tcpHandlerWrite z t w else s
  else s.tcpHandlerWrite z t w

-- Every controler is in one of the lists. The bytes that are sent and accepted are counted from
-- here on.
def resetBandwidthControlers : State :=
  { s with
    sock := fun t => { s.sock t with sent := [], accepted := (s.sock t).wbuf.data }
    readBc := fun c => (s.readBc c).reset
    writeBc := fun c => (s.writeBc c).reset }

end State

inductive Op
  | canRead (t : ℕ) (r : Read)
  | canWrite (t : ℕ) (connected : List Action) (w : Write)
  | afterSelect (reads : ℕ → ℕ → Read) (writes : ℕ → ℕ → Write)
  | act (action : Action)

def step (z : Sizes) : Op → State → State
  | .canRead t r, s => s.canRead z t r
  | .canWrite t connected w, s => s.canWrite z t connected w
  | .afterSelect reads writes, s => s.afterSelect z reads writes
  | .act action, s => s.act z action

end Mldonkey.TcpBandwidth
