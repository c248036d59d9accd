import CosmoOS.Lib.Serial
import Mathlib.Data.List.Basic

/-!
# A TCP connection

The state of one connection and every function that changes it under the connection's lock: what
arrives (`inputLocked`), the timers' work (`workLocked`), the calls of the socket layer, and the
output they all end in (`outputLocked`).  The model is `tcp.cee`'s, cut where the source's long
functions have their comments.

* Sequence numbers are `BitVec 32`.  Counts and windows are natural numbers: none of them comes near
  its type's bound.
* The rings and the packets of the out-of-order queue are lists of bytes, of any type.
* What a call transmits is collected in its `Batch`.  `luck` says which of its allocations fail
  (`true`), and `challenge` whether the host's budget of challenge acknowledgements has room.
* A timer that is armed may fire at any time; what it then does is done by `pcbWork`, later.  Clock
  readings (round-trip times, keepalive's idle time) are left out, or are arguments.
* The table of connections, their addresses and the listener's queue are left out.
-/

namespace CosmoOS.Network.Tcp

/-! ## Sequence numbers -/

abbrev Seq := BitVec 32

def seqLt (a b : Seq) : Bool := (a - b).toInt < 0

def seqLeq (a b : Seq) : Bool := (a - b).toInt ≤ 0

def seqGt (a b : Seq) : Bool := (a - b).toInt > 0

def seqGeq (a b : Seq) : Bool := (a - b).toInt ≥ 0

/-! ## The state -/

/-- `TCP_CLOSED` and the others. -/
inductive State
  | closed
  | listen
  | synSent
  | synRcvd
  | established
  | finWait1
  | finWait2
  | closeWait
  | closing
  | lastAck
  | timeWait
  deriving DecidableEq, Repr

/-- The flags of a segment. -/
structure Flags where
  fin : Bool := false
  syn : Bool := false
  rst : Bool := false
  psh : Bool := false
  ack : Bool := false
  deriving DecidableEq, Repr

/-- A bit for each timer: armed, or fired and not worked on (`work_flags`). -/
structure Timers where
  rexmit : Bool := false
  delack : Bool := false
  timewait : Bool := false
  keep : Bool := false
  deriving DecidableEq, Repr

structure OooSeg (β : Type) where
  seq : Seq
  data : List β
  fin : Bool
  deriving DecidableEq, Repr

/-- `struct tcp_pcb`. -/
structure Pcb (β : Type) where
  state : State
  iss : Seq
  sndUna : Seq
  sndNxt : Seq
  sndMax : Seq
  sndWnd : ℕ
  sndWl1 : Seq
  sndWl2 : Seq
  maxSndwnd : ℕ
  mss : ℕ
  pathMss : ℕ
  sndbuf : List β
  irs : Seq
  rcvNxt : Seq
  rcvWnd : ℕ
  rcvbuf : List β
  cwnd : ℕ
  ssthresh : ℕ
  dupacks : ℕ
  ooo : List (OooSeg β)
  oooBytes : ℕ
  armed : Timers
  work : Timers
  rexmitCount : ℕ
  keepProbes : ℕ
  delackPending : Bool
  finQueued : Bool
  finSent : Bool
  finRcvd : Bool
  killed : Bool
  ackNow : Bool
  /-- A socket points at it. -/
  sock : Bool
  error : Int
  deriving DecidableEq, Repr

def tcpSndbuf : ℕ := 65536
def tcpRcvbuf : ℕ := 65536
def tcpMaxRexmit : ℕ := 8
def tcpMaxWindow : ℕ := 65535
def tcpOooMax : ℕ := 32
def tcpMinMss : ℕ := 536

def eperm : Int := 1
def eagain : Int := 11
def epipe : Int := 32
def econnreset : Int := 104
def enotconn : Int := 107
def etimedout : Int := 110
def econnrefused : Int := 111

variable {β : Type}

/-- `ringSpace` of the receive ring. -/
def Pcb.rcvSpace (p : Pcb β) : ℕ := tcpRcvbuf - p.rcvbuf.length

/-- `ringSpace` of the send ring. -/
def Pcb.sndSpace (p : Pcb β) : ℕ := tcpSndbuf - p.sndbuf.length

/-! ## Segments -/

structure Seg (β : Type) where
  flags : Flags
  seq : Seq
  ack : Seq
  wnd : ℕ
  mss : Option ℕ
  data : List β
  deriving DecidableEq, Repr

/-- Segments built under a lock, sent after it. -/
structure Batch (β : Type) where
  segs : List (Seg β) := []
  quiet : Bool := false
  luck : List Bool := []
  challenge : Bool := true
  deriving DecidableEq, Repr

/-- The slots of a batch. -/
def batchMax : ℕ := 16

/-- A segment into the batch: no room, or no memory, and it is not sent. -/
def Batch.push (b : Batch β) (s : Seg β) : Bool × Batch β :=
  if b.segs.length = batchMax then (false, b)
  else
    match b.luck with
    | true :: luck => (false, { b with luck := luck })
    | luck => (true, { b with segs := b.segs ++ [s], luck := luck.tail })

/-- What `sendBatch` transmits. -/
def Batch.sent (b : Batch β) : List (Seg β) := if b.quiet then [] else b.segs

section

variable (p : Pcb β) (b : Batch β)

/-- `buildSegment`: its data copied from the send ring at `seq - snd_una`. -/
def buildSegment (flags : Flags) (seq : Seq) (datalen : ℕ) (mssOption : Bool) : Bool × Batch β :=
  b.push
    { flags := flags, seq := seq, ack := p.rcvNxt, wnd := min p.rcvWnd tcpMaxWindow
      mss := if mssOption then some p.pathMss else none
      data := (p.sndbuf.drop (seq - p.sndUna).toNat).take datalen }

/-- `buildRst`: a reset in reply to a segment. -/
def buildRst (flags : Flags) (seq ack : Seq) (seglen : ℕ) : Batch β :=
  if flags.rst then b
  else if flags.ack then
    (b.push { flags := { rst := true }, seq := ack, ack := 0, wnd := 0, mss := none, data := [] }).2
  else
    (b.push
      { flags := { rst := true, ack := true }, seq := 0
        ack := seq + BitVec.ofNat 32 seglen + (if flags.syn then 1 else 0) +
          (if flags.fin then 1 else 0)
        wnd := 0, mss := none, data := [] }).2

def challengeAck : Batch β :=
  if b.quiet || !b.challenge then b
  else (buildSegment p b { ack := true } p.sndNxt 0 false).2

/-! ## The end of a connection -/

def oooFlush : Pcb β := { p with ooo := [], oooBytes := 0 }

/-- `killLocked`. -/
def killLocked : Pcb β :=
  if p.killed then p
  else { oooFlush p with killed := true, armed := {}, state := .closed, sock := false }

def retireLocked : Pcb β := { oooFlush p with state := .closed, armed := {} }

def endLocked : Pcb β := if p.sock then retireLocked p else killLocked p

/-! ## Output -/

def setSndWnd (win : ℕ) : Pcb β :=
  { p with sndWnd := win, maxSndwnd := if win > p.maxSndwnd then win else p.maxSndwnd }

def establishedLocked : Pcb β :=
  { p with state := .established, rexmitCount := 0, keepProbes := 0
           armed := { p.armed with keep := true } }

def orphanFinWait2 : Pcb β :=
  if !p.sock && p.state = .finWait2 then { p with armed := { p.armed with keep := true } } else p

/-- The length of the next data segment, zero to stop: one turn of `outputLocked`'s loop up to
the segment.  The retransmission timer's bit lets a one-byte probe into a zero window. -/
def sendLen : ℕ :=
  let inflight := (p.sndNxt - p.sndUna).toNat
  if inflight > p.sndbuf.length then 0
  else
    let avail := p.sndbuf.length - inflight
    let wnd := min p.sndWnd p.cwnd
    let room := wnd - inflight
    let seglen := min (min avail p.mss) room
    if 0 < seglen && seglen < p.mss && seglen < avail && 0 < inflight &&
        seglen < p.maxSndwnd / 2 then 0
    else if seglen = 0 then
      if avail ≠ 0 && p.sndWnd = 0 && inflight = 0 && p.work.rexmit then 1 else 0
    else seglen

/-- `snd_nxt` moves up, and `snd_max` with it. -/
def advance (n : ℕ) : Pcb β :=
  let nxt := p.sndNxt + BitVec.ofNat 32 n
  { p with sndNxt := nxt, sndMax := if seqGt nxt p.sndMax then nxt else p.sndMax }

/-- The flags of a data segment: pushed when it is the last of what is queued. -/
def dataFlags (n : ℕ) : Flags :=
  { ack := true, psh := n = p.sndbuf.length - (p.sndNxt - p.sndUna).toNat }

/-- `outputLocked`'s loop.  Every turn that does not stop fills a slot of the batch, so that
`batchMax + 1` turns are enough. -/
def outputLoop : ℕ → Pcb β → Batch β → Bool → Pcb β × Batch β × Bool
  | 0, p, b, sent => (p, b, sent)
  | turns + 1, p, b, sent =>
    let n := sendLen p
    if n = 0 then (p, b, sent)
    else
      match buildSegment p b (dataFlags p n) p.sndNxt n false with
      | (false, b) => (p, b, sent)
      | (true, b) => outputLoop turns (advance p n) b true

/-- The FIN, behind everything that is queued. -/
def outputFin (sent : Bool) : Pcb β × Batch β × Bool :=
  if p.finQueued && !p.finSent && (p.sndNxt - p.sndUna).toNat = p.sndbuf.length then
    match buildSegment p b { fin := true, ack := true } p.sndNxt 0 false with
    | (false, b) => (p, b, sent)
    | (true, b) => ({ advance p 1 with finSent := true }, b, true)
  else (p, b, sent)

/-- The states in which data and the FIN are sent. -/
def State.sends : State → Bool
  | .established | .closeWait | .finWait1 | .closing | .lastAck => true
  | _ => false

/-- The data and the FIN. -/
def outputData : Pcb β × Batch β × Bool :=
  if p.state.sends then
    match outputLoop (batchMax + 1) p b false with
    | (p, b, sent) => outputFin p b sent
  else (p, b, false)

/-- A pure acknowledgement, if one is wanted now. -/
def outputAck (sent : Bool) : Pcb β × Batch β × Bool :=
  if !sent && p.ackNow && p.state ≠ .closed && p.state ≠ .listen && p.state ≠ .synSent then
    (p, (buildSegment p b { ack := true } p.sndNxt 0 false).2, true)
  else (p, b, sent)

/-- The timers, and the acknowledgement that is no longer owed. -/
def outputTimers (sent : Bool) : Pcb β :=
  let p := if sent then
      { p with delackPending := false, ackNow := false, armed := { p.armed with delack := false } }
    else p
  { p with armed := { p.armed with
      rexmit := seqGt p.sndNxt p.sndUna || (p.sndbuf.length ≠ 0 && p.sndWnd = 0) } }

/-- `outputLocked`. -/
def outputLocked : Pcb β × Batch β :=
  match outputData p b with
  | (p, b, sent) =>
    match outputAck p b sent with
    | (p, b, sent) => (outputTimers p sent, b)

/-! ## The out-of-order queue -/

/-- The first loop of `oooInsert`, over the queue: what stays, the bytes that go, whether a FIN
went with them, and whether the new segment may be queued. -/
def oooScan (seq fin : Seq) : List (OooSeg β) → List (OooSeg β) × ℕ × Bool × Bool
  | [] => ([], 0, false, true)
  | e :: es =>
    let eend := e.seq + BitVec.ofNat 32 e.data.length
    if seqLeq eend seq || seqGeq e.seq fin then
      match oooScan seq fin es with
      | (kept, bytes, f, ok) => (e :: kept, bytes, f, ok)
    else if seqLeq seq e.seq && seqGeq fin eend then
      -- the new one covers it
      match oooScan seq fin es with
      | (kept, bytes, f, ok) => (kept, e.data.length + bytes, e.fin || f, ok)
    else (e :: es, 0, false, false)

/-- The second loop of `oooInsert`: the place in the order. -/
def oooPlace (x : OooSeg β) : List (OooSeg β) → List (OooSeg β)
  | [] => [x]
  | e :: es => if seqLt e.seq x.seq then e :: oooPlace x es else x :: e :: es

/-- `oooInsert`. -/
def oooInsert (seq : Seq) (data : List β) (finIn : Bool) : Pcb β :=
  match oooScan seq (seq + BitVec.ofNat 32 data.length) p.ooo with
  | (kept, bytes, f, ok) =>
    let p := { p with ooo := kept, oooBytes := p.oooBytes - bytes }
    if !ok then p
    else if kept.length = tcpOooMax || p.oooBytes + data.length > p.rcvSpace then p
    else { p with ooo := oooPlace ⟨seq, data, finIn || f⟩ kept
                  oooBytes := p.oooBytes + data.length }

/-- `oooDrain`, over the queue; the flag is set when a segment that carried a FIN was delivered. -/
def oooDrain (p : Pcb β) : List (OooSeg β) → Bool → Pcb β × Bool
  | [], fin => ({ p with ooo := [] }, fin)
  | e :: es, fin =>
    if !seqLeq e.seq p.rcvNxt then ({ p with ooo := e :: es }, fin)
    else
      let eend := e.seq + BitVec.ofNat 32 e.data.length
      if seqLeq eend p.rcvNxt then
        oooDrain { p with oooBytes := p.oooBytes - e.data.length } es
          (fin || (e.fin && eend = p.rcvNxt))
      else
        let skip := (p.rcvNxt - e.seq).toNat
        let want := e.data.length - skip
        let n := min want p.rcvSpace
        let q := { p with rcvbuf := p.rcvbuf ++ (e.data.drop skip).take n
                          rcvNxt := p.rcvNxt + BitVec.ofNat 32 n }
        if n < want then
          -- the ring is full: the rest is kept for later
          ({ q with
              oooBytes := p.oooBytes - (skip + n)
              ooo := ⟨e.seq + BitVec.ofNat 32 (skip + n), e.data.drop (skip + n), e.fin⟩ :: es },
            fin)
        else
          oooDrain { q with oooBytes := p.oooBytes - e.data.length } es (fin || e.fin)

end

/-! ## Input -/

/-- What `tcp_input` parsed from one segment. -/
structure In (β : Type) where
  seq : Seq
  ack : Seq
  data : List β
  win : ℕ
  flags : Flags
  mss : Option ℕ
  deriving DecidableEq, Repr

section

variable (p : Pcb β) (g : In β) (b : Batch β)

def parseMss (mss : Option ℕ) (dflt : ℕ) : ℕ :=
  match mss with
  | none => dflt
  | some m => if m < tcpMinMss then tcpMinMss else m

/-- `enterTimeWait`. -/
def enterTimeWait : Pcb β :=
  { p with state := .timeWait, armed := { timewait := true } }

/-- The peer's SYN in `SYN_SENT`: what it says of itself. -/
def takeSyn : Pcb β :=
  let mss := min (parseMss g.mss p.mss) p.pathMss
  { setSndWnd { p with irs := g.seq, rcvNxt := g.seq + 1, mss := mss, cwnd := 2 * mss } g.win with
    sndWl1 := g.seq, sndWl2 := g.ack }

/-- `inputLocked` in `SYN_SENT`. -/
def inputSynSent : Pcb β × Batch β :=
  if g.flags.ack && (seqLeq g.ack p.iss || seqGt g.ack p.sndNxt) then
    (p, if g.flags.rst then b else buildRst b g.flags g.seq g.ack g.data.length)
  else if g.flags.rst then
    if g.flags.ack then
      (endLocked { p with error := -econnrefused }, { b with quiet := false })
    else (p, b)
  else if !g.flags.syn then (p, b)
  else
    let b := { b with quiet := false }
    let p := takeSyn p g
    if g.flags.ack then
      let p := establishedLocked { p with sndUna := g.ack }
      outputLocked { p with armed := { p.armed with rexmit := false }, ackNow := true } b
    else
      -- simultaneous open
      let p := { p with state := .synRcvd }
      let b := (buildSegment p b { syn := true, ack := true } p.iss 0 true).2
      ({ p with armed := { p.armed with rexmit := true } }, b)

/-- `inputLocked` in `TIME_WAIT`. -/
def inputTimeWait : Pcb β × Batch β :=
  if g.flags.rst then (p, b)
  else if g.flags.syn then (p, challengeAck p b)
  else if g.flags.fin && g.seq + BitVec.ofNat 32 g.data.length + 1 = p.rcvNxt then
    let b := { b with quiet := false }
    ({ p with armed := { p.armed with timewait := true } },
      (buildSegment p b { ack := true } p.sndNxt 0 false).2)
  else (p, b)

/-- The acceptability of a segment. -/
def acceptable : Bool :=
  let wndEnd := p.rcvNxt + BitVec.ofNat 32 p.rcvWnd
  if g.data.length = 0 then
    if p.rcvWnd = 0 then g.seq = p.rcvNxt
    else seqGeq g.seq p.rcvNxt && seqLt g.seq wndEnd
  else
    let last := g.seq + BitVec.ofNat 32 g.data.length - 1
    p.rcvWnd ≠ 0 &&
      ((seqGeq g.seq p.rcvNxt && seqLt g.seq wndEnd) ||
        (seqGeq last p.rcvNxt && seqLt last wndEnd))

/-- Data before `rcv_nxt` trimmed. -/
def trim : In β :=
  if seqLt g.seq p.rcvNxt then
    let skip := min (p.rcvNxt - g.seq).toNat g.data.length
    { g with seq := g.seq + BitVec.ofNat 32 skip, data := g.data.drop skip
             flags := { g.flags with syn := false } }
  else g

/-- The congestion window after an acknowledgement. -/
def growCwnd : ℕ :=
  let cwnd := if p.cwnd < p.ssthresh then p.cwnd + p.mss
    else p.cwnd + p.mss * p.mss / (if p.cwnd ≠ 0 then p.cwnd else 1)
  if cwnd > tcpSndbuf then tcpSndbuf else cwnd

/-- The connection's own FIN was acknowledged; true when that ends it. -/
def finAcked : Pcb β × Bool :=
  match p.state with
  | .finWait1 => (orphanFinWait2 { p with state := .finWait2 }, false)
  | .closing => (enterTimeWait p, false)
  | .lastAck => (endLocked p, true)
  | _ => (p, false)

/-- An acknowledgement of something new. -/
def newAck (ack : Seq) : Pcb β × Bool :=
  let acked := (ack - p.sndUna).toNat
  let fin := p.finSent && ack = p.sndMax
  let dataAcked := if fin then acked - 1 else acked
  let q := { p with
    sndbuf := p.sndbuf.drop dataAcked, sndUna := ack
    sndNxt := if seqLt p.sndNxt ack then ack else p.sndNxt
    rexmitCount := 0, dupacks := 0, cwnd := growCwnd p }
  if fin then finAcked q else (q, false)

/-- Half of what is in flight, or two segments. -/
def halfFlight : ℕ :=
  let inflight := (p.sndMax - p.sndUna).toNat
  if inflight / 2 > 2 * p.mss then inflight / 2 else 2 * p.mss

/-- The length of a fast retransmit. -/
def fastLen : ℕ := min p.sndbuf.length p.mss

/-- A duplicate acknowledgement; the third is answered by a fast retransmit. -/
def dupAck : Pcb β × Batch β :=
  let p := { p with dupacks := p.dupacks + 1 }
  if p.dupacks = 3 then
    let p := { p with ssthresh := halfFlight p, cwnd := halfFlight p }
    if fastLen p ≠ 0 then
      (p, (buildSegment p b { ack := true } p.sndUna (fastLen p) false).2)
    else (p, b)
  else (p, b)

def isDupAck : Bool :=
  g.ack = p.sndUna && g.data.length = 0 && seqGt p.sndMax p.sndUna && g.win = p.sndWnd

def isNewAck : Bool := seqGt g.ack p.sndUna && seqLeq g.ack p.sndMax

/-- `inputLocked`'s acknowledgement; true when the connection has ended. -/
def ackInput : Pcb β × Batch β × Bool :=
  if isNewAck p g then
    match newAck p g.ack with
    | (p, ended) => (p, b, ended)
  else if isDupAck p g then
    match dupAck p b with
    | (p, b) => (p, b, false)
  else (p, b, false)

/-- The peer's window, from a segment no older than the last that set it. -/
def updateWindow : Pcb β :=
  if seqLt p.sndWl1 g.seq || (p.sndWl1 = g.seq && seqLeq p.sndWl2 g.ack) then
    { setSndWnd p g.win with sndWl1 := g.seq, sndWl2 := g.ack }
  else p

/-- The peer's FIN is taken. -/
def takeFin : Pcb β :=
  let p := { p with finRcvd := true, rcvNxt := p.rcvNxt + 1 }
  match p.state with
  | .established => { p with state := .closeWait }
  | .finWait1 =>
    if p.finSent && p.sndUna = p.sndMax then enterTimeWait p else { p with state := .closing }
  | .finWait2 => enterTimeWait p
  | _ => p

/-- The FIN, and what may be sent now. -/
def finInput (finNow drainedFin : Bool) : Pcb β × Batch β :=
  let finHere := finNow && g.seq + BitVec.ofNat 32 g.data.length = p.rcvNxt
  if (finHere || drainedFin) && !p.finRcvd then
    let p := takeFin p
    outputLocked { p with
      delackPending := false, armed := { p.armed with delack := false }, ackNow := true } b
  else if p.state ≠ .closed && p.state ≠ .timeWait then outputLocked p b
  else (p, b)

/-- The states that take data. -/
def State.takes : State → Bool
  | .established | .finWait1 | .finWait2 => true
  | _ => false

/-- In-order data into the ring, and what the queue has behind it. -/
def takeData (data : List β) : Pcb β × Bool :=
  let n := min data.length p.rcvSpace
  let q := { p with rcvbuf := p.rcvbuf ++ data.take n, rcvNxt := p.rcvNxt + BitVec.ofNat 32 n }
  match (if n < data.length then (q, false) else oooDrain q q.ooo false) with
  | (q, fin) => ({ q with rcvWnd := q.rcvSpace }, fin)

/-- In-order data is acknowledged: every second segment, or with a gap behind it, now. -/
def ackData : Pcb β × Batch β :=
  if p.delackPending || p.ooo.length ≠ 0 then outputLocked { p with ackNow := true } b
  else ({ p with delackPending := true, armed := { p.armed with delack := true } }, b)

def dataInput : Pcb β × Batch β :=
  if g.data.length ≠ 0 && p.state.takes then
    if g.seq = p.rcvNxt then
      let whole := g.data.length ≤ p.rcvSpace
      match takeData p g.data with
      | (p, drainedFin) =>
        match ackData p b with
        | (p, b) => finInput p g b (g.flags.fin && whole) drainedFin
    else
      -- a hole before this segment: it is kept, and the sender told where we are
      let p := oooInsert p g.seq g.data g.flags.fin
      let b := (buildSegment p b { ack := true } p.sndNxt 0 false).2
      finInput p g b false false
  else finInput p g b (g.flags.fin && g.data.length = 0) false

/-- `inputLocked` from where every rejection is behind. -/
def inputAccepted : Pcb β × Batch β :=
  let b := { b with quiet := false }
  let p := { p with keepProbes := 0 }
  match ackInput p g b with
  | (p, b, true) => (p, b)
  | (p, b, false) => dataInput (updateWindow p g) g b

/-- The acknowledgement that opens a connection from `SYN_RCVD`. -/
def openSynRcvd : Pcb β :=
  let p := { setSndWnd { p with sndUna := g.ack } g.win with sndWl1 := g.seq, sndWl2 := g.ack }
  establishedLocked { p with armed := { p.armed with rexmit := false } }

/-- `inputLocked` on an acceptable segment, trimmed; `g₀` is the segment as it came. -/
def inputAcceptable (g g₀ : In β) (b : Batch β) : Pcb β × Batch β :=
  if g.flags.rst then
    if g.seq ≠ p.rcvNxt then (p, challengeAck p b)
    else
      let e := if p.state = .synRcvd then econnrefused else econnreset
      (endLocked { p with error := -e }, { b with quiet := false })
  else if g.flags.syn then (p, challengeAck p b)
  else if !g.flags.ack then (p, b)
  else if seqLt g.ack (p.sndUna - BitVec.ofNat 32 tcpMaxWindow) || seqGt g.ack p.sndMax then
    (p, challengeAck p b)
  else if p.state = .synRcvd then
    if seqLt g.ack p.sndUna || seqGt g.ack p.sndNxt then
      (p, buildRst b g₀.flags g₀.seq g₀.ack g.data.length)
    else inputAccepted (openSynRcvd p g) g b
  else inputAccepted p g b

/-- `inputLocked`. -/
def inputLocked : Pcb β × Batch β :=
  if p.state = .synSent then inputSynSent p g b
  else if p.state = .timeWait then inputTimeWait p g b
  else if !acceptable p g then
    (p, if g.flags.rst then b else (buildSegment p b { ack := true } p.sndNxt 0 false).2)
  else inputAcceptable p (trim p g) g b

/-! ## The timers' work -/

/-- `keepFire`: `idle` says whether the peer has been silent for the idle time, `cnt` is the
number of probes that may go unanswered. -/
def keepFire (idle : Bool) (cnt : ℕ) : Pcb β × Batch β :=
  if p.state = .finWait2 then (if p.sock then p else endLocked p, b)
  else if p.state ≠ .established && p.state ≠ .closeWait then (p, b)
  else if !idle then ({ p with armed := { p.armed with keep := true } }, b)
  else if p.keepProbes ≥ cnt then (endLocked { p with error := -etimedout }, b)
  else
    let p := { p with keepProbes := p.keepProbes + 1 }
    ({ p with armed := { p.armed with keep := true } },
      (buildSegment p b { ack := true } (p.sndNxt - 1) 0 false).2)

/-- There is something to retransmit, or a window to probe. -/
def rexmitDue : Bool :=
  seqGt p.sndMax p.sndUna || p.state = .synSent || p.state = .synRcvd ||
    (p.sndbuf.length ≠ 0 && p.sndWnd = 0)

/-- The retransmission timer: the last part of `workLocked`. -/
def rexmitFire : Pcb β × Batch β :=
  let p := { p with rexmitCount := p.rexmitCount + 1 }
  if p.rexmitCount > tcpMaxRexmit then (endLocked { p with error := -etimedout }, b)
  else
    let p := { p with ssthresh := halfFlight p, cwnd := p.mss }
    if p.state = .synSent then
      ({ p with armed := { p.armed with rexmit := true } },
        (buildSegment p b { syn := true } p.iss 0 true).2)
    else if p.state = .synRcvd then
      ({ p with armed := { p.armed with rexmit := true } },
        (buildSegment p b { syn := true, ack := true } p.iss 0 true).2)
    else
      -- back to snd_una; a sent FIN is sent again too
      match outputLocked { p with
          sndNxt := p.sndUna, finSent := false, work := { p.work with rexmit := true } } b with
      | (p, b) => ({ p with work := { p.work with rexmit := false } }, b)

/-- `workLocked` after the keepalive timer. -/
def workAcks (flags : Timers) (b : Batch β) : Pcb β × Batch β :=
  match (if flags.delack then outputLocked { p with ackNow := p.delackPending } b else (p, b)) with
  | (p, b) =>
    if !flags.rexmit || p.state = .listen || p.state = .timeWait || !rexmitDue p then (p, b)
    else rexmitFire p b

/-- `workLocked`. -/
def workLocked (flags : Timers) (b : Batch β) (idle : Bool) (cnt : ℕ) : Pcb β × Batch β :=
  if p.state = .closed then (p, b)
  else if flags.timewait && p.state = .timeWait then (endLocked p, b)
  else
    match (if flags.keep then keepFire p b idle cnt else (p, b)) with
    | (p, b) => if p.state = .closed then (p, b) else workAcks p flags b

/-- `pcbWork`: the bits are taken, and worked on. -/
def pcbWork (idle : Bool) (cnt : ℕ) : Pcb β × Batch β :=
  workLocked { p with work := {} } p.work b idle cnt

/-- The timers. -/
inductive Timer
  | rexmit
  | delack
  | timewait
  | keep
  deriving DecidableEq, Repr

def Timers.get (t : Timers) : Timer → Bool
  | .rexmit => t.rexmit
  | .delack => t.delack
  | .timewait => t.timewait
  | .keep => t.keep

def Timers.set (t : Timers) (v : Bool) : Timer → Timers
  | .rexmit => { t with rexmit := v }
  | .delack => { t with delack := v }
  | .timewait => { t with timewait := v }
  | .keep => { t with keep := v }

/-- `timerKick`: an armed timer fires, and leaves the work to the worker. -/
def timerKick (t : Timer) : Pcb β :=
  if p.armed.get t then { p with armed := p.armed.set false t, work := p.work.set true t } else p

/-! ## The calls of the socket layer -/

def connResetLocked : Pcb β :=
  { oooFlush p with
    sndbuf := [], rcvbuf := [], rcvWnd := tcpRcvbuf, error := 0, finQueued := false
    finSent := false, finRcvd := false, delackPending := false, ackNow := false
    rexmitCount := 0, dupacks := 0, keepProbes := 0, ssthresh := 0x7fffffff }

/-- `connect`, once the local address is bound: the SYN is sent. -/
def connect (iss : Seq) (pathMss : ℕ) (b : Batch β) : Pcb β × Batch β :=
  let p := { connResetLocked p with
    iss := iss, sndUna := iss, sndNxt := iss + 1, sndMax := iss + 1
    pathMss := pathMss, mss := pathMss }
  let p := { setSndWnd p p.mss with cwnd := 2 * p.mss, state := .synSent }
  ({ p with armed := { p.armed with rexmit := true } },
    (buildSegment p b { syn := true } p.iss 0 true).2)

/-- `send`: what it returns, with the bytes that were taken. -/
def send (data : List β) (b : Batch β) : Int × Pcb β × Batch β :=
  if p.error ≠ 0 then (p.error, p, b)
  else if p.state ≠ .established && p.state ≠ .closeWait then
    (if p.state = .synSent ∨ p.state = .synRcvd then -eagain else -epipe, p, b)
  else if p.finQueued then (-epipe, p, b)
  else
    let n := min data.length p.sndSpace
    let p := { p with sndbuf := p.sndbuf ++ data.take n }
    match (if n ≠ 0 then outputLocked p b else (p, b)) with
    | (p, b) => (n, p, b)

/-- The bytes `send` takes. -/
def sendTakes (data : List β) : List β :=
  if p.error ≠ 0 || (p.state ≠ .established && p.state ≠ .closeWait) || p.finQueued then []
  else data.take (min data.length p.sndSpace)

/-- `recv`: the bytes, and whether the peer has closed. -/
def recv (len : ℕ) (b : Batch β) : List β × Bool × Pcb β × Batch β :=
  let n := min p.rcvbuf.length len
  let data := p.rcvbuf.take n
  match (if n ≠ 0 then
      let old := p.rcvWnd
      let p := { p with rcvbuf := p.rcvbuf.drop n }
      let p := { p with rcvWnd := p.rcvSpace }
      if (old < p.mss && p.rcvWnd ≥ p.mss && p.state = .established) || p.delackPending then
        outputLocked { p with ackNow := true } b
      else (p, b)
    else (p, b)) with
  | (p, b) => (data, p.finRcvd && p.rcvbuf.length = 0, p, b)

/-- `shutdownWrite`. -/
def shutdownWrite : Int × Pcb β × Batch β :=
  match p.state with
  | .established | .synRcvd =>
    match outputLocked { p with state := .finWait1, finQueued := true } b with
    | (p, b) => (0, p, b)
  | .closeWait =>
    match outputLocked { p with state := .lastAck, finQueued := true } b with
    | (p, b) => (0, p, b)
  | _ => (if p.finQueued then 0 else -enotconn, p, b)

/-- `close`, of a connection. -/
def close : Pcb β × Batch β :=
  let p := { p with sock := false }
  match p.state with
  | .closed | .synSent | .listen => (killLocked p, b)
  | .synRcvd | .established | .closeWait =>
    if p.rcvbuf.length > 0 || p.ooo.length > 0 then
      -- unread data: the peer learns through a reset
      (killLocked p, (buildSegment p b { rst := true, ack := true } p.sndNxt 0 false).2)
    else
      outputLocked { p with
        state := if p.state = .closeWait then .lastAck else .finWait1, finQueued := true } b
  | _ => (orphanFinWait2 p, b)

/-- `pmtuNotify`: `overhead` is the headers' length in the connection's family. -/
def pmtuNotify (seq : Seq) (mtu overhead : ℕ) (b : Batch β) : Bool × Pcb β × Batch β :=
  let mss := if mtu > overhead + 256 then mtu - overhead else 256
  if p.state = .listen || p.state = .closed || p.state = .timeWait || p.state = .synSent ||
      !(seqGeq seq p.sndUna && seqLt seq p.sndMax) || mss ≥ p.pathMss then (false, p, b)
  else
    let p := { p with pathMss := mss, mss := if p.mss > mss then mss else p.mss }
    let p := { p with cwnd := if p.cwnd < p.mss then p.mss else p.cwnd }
    -- what was too large, resent in the new size
    match outputLocked { p with sndNxt := p.sndUna, finSent := false } b with
    | (p, b) => (true, p, b)

/-- `outputResult`: the firewall refused what was sent, or let it pass. -/
def outputResult (refused : Bool) : Pcb β :=
  if refused then
    match p.state with
    | .synSent | .synRcvd => endLocked { p with error := -eperm }
    | .established | .finWait1 | .finWait2 | .closeWait | .closing | .lastAck =>
      if p.error = 0 then { p with error := -eperm } else p
    | _ => p
  else if p.error = -eperm && p.state ≠ .closed then { p with error := 0 }
  else p

end

/-- The child that `listenInput` makes of the acknowledgement that completes a handshake. -/
def child (iss irs : Seq) (peerMss pathMss : ℕ) (g : In β) : Pcb β :=
  { state := .established, iss := iss, sndUna := iss + 1, sndNxt := iss + 1, sndMax := iss + 1
    sndWnd := g.win, sndWl1 := g.seq, sndWl2 := g.ack, maxSndwnd := g.win
    mss := if peerMss < pathMss then peerMss else pathMss, pathMss := pathMss
    sndbuf := [], irs := irs, rcvNxt := irs + 1, rcvWnd := tcpRcvbuf, rcvbuf := []
    cwnd := 2 * (if peerMss < pathMss then peerMss else pathMss), ssthresh := 0x7fffffff
    dupacks := 0, ooo := [], oooBytes := 0, armed := { keep := true }, work := {}
    rexmitCount := 0, keepProbes := 0, delackPending := false, finQueued := false
    finSent := false, finRcvd := false, killed := false, ackNow := false, sock := false
    error := 0 }

/-! ## Calls -/

/-- What happens to a connection under its lock, but for the close of its listener, which resets and
kills the children that wait to be accepted. -/
inductive Call (β : Type)
  | input (g : In β)
  | timer (t : Timer)
  | work (idle : Bool) (cnt : ℕ)
  | send (data : List β)
  | recv (len : ℕ)
  | shutdownWrite
  | close
  | pmtuNotify (seq : Seq) (mtu overhead : ℕ)
  | outputResult (refused : Bool)
  /-- `tcp_accept`: a socket takes the connection. -/
  | accept

/-- A call, with the batch it begins with: what it does to the connection and what it sends.  A
segment for a connection that has ended is not this connection's. -/
def perform (p : Pcb β) (b : Batch β) : Call β → Pcb β × Batch β
  | .input g => if p.state = .closed || p.state = .listen then (p, b) else inputLocked p g b
  | .timer t => (timerKick p t, b)
  | .work idle cnt => pcbWork p b idle cnt
  | .send data => (send p data b).2
  | .recv len => (recv p len b).2.2
  | .shutdownWrite => (shutdownWrite p b).2
  | .close => close p b
  | .pmtuNotify seq mtu overhead => (pmtuNotify p seq mtu overhead b).2
  | .outputResult refused => (outputResult p refused, b)
  | .accept => ({ p with sock := true }, b)

end CosmoOS.Network.Tcp
