import PlxNative.Lib.Scan

/-! One plaintext HTTP response read off a socket: the blocking reader and the drain that never
blocks, over one buffer, one chunk counter and one trailer state. -/
namespace PlxNative.Http
open Scan

/-- What answers a read in place of bytes: its clock, or its checkpoint. -/
inductive Fired
  | deadline
  | stopped
deriving DecidableEq

def Fired.code : Fired → Int
  | .deadline => -2
  | .stopped => -3

/-- What the socket brings: a byte, the end of what one `recv` returns, or a while with nothing
queued, in which the clock of a read that has one fires. Behind the last item the peer has
closed. -/
inductive Item
  | byte (b : UInt8)
  | cut
  | pause (fired : Fired)

inductive Wait
  | blocks
  | clocked
  | now

/-- The clock that ends a wait, where one does. -/
def Wait.fires (wait : Wait) (fired : Fired) : Option Fired :=
  match wait with
  | .blocks => none
  | .clocked => some fired
  | .now => some .deadline

inductive Recv
  | bytes (read : List UInt8)
  | eof
  | waits (fired : Fired)
deriving DecidableEq

def Recv.brought : Recv → List UInt8
  | .bytes read => read
  | _ => []

def takeBytes : Nat → List Item → List UInt8 × List Item
  | n + 1, .byte b :: rest => ((takeBytes n rest).map (b :: ·) id)
  | _, items => ([], items)

def recvItems (wait : Wait) (n : Nat) : List Item → Recv × List Item
  | [] => (.eof, [])
  | .cut :: rest => recvItems wait n rest
  | .pause fired :: rest => match wait.fires fired with
    | some fired => (.waits fired, rest)
    | none => recvItems wait n rest
  | .byte b :: rest => ((takeBytes n (.byte b :: rest)).map .bytes id)

/-- Bytes are taken one by one until the automaton has what it looks for. -/
def scanItems {σ ρ : Type} (step : σ → UInt8 → σ ⊕ ρ) (wait : Wait) : List Item → σ → Scanned σ ρ Fired × List Item
  | [], s => (.ended s, [])
  | .cut :: rest, s => scanItems step wait rest s
  | .pause fired :: rest, s => match wait.fires fired with
    | some fired => (.waits fired s, rest)
    | none => scanItems step wait rest s
  | .byte b :: rest, s => match step s b with
    | .inl s => scanItems step wait rest s
    | .inr found => (.stopped found, rest)

inductive Stop
  | full
  | eof
  | waits (fired : Fired)
deriving DecidableEq

/-- One `recv` after another, until this many bytes are there. -/
def fillItems (wait : Wait) : Nat → List Item → (List UInt8 × Stop) × List Item
  | 0, items => (([], .full), items)
  | _ + 1, [] => (([], .eof), [])
  | n + 1, .cut :: rest => fillItems wait (n + 1) rest
  | n + 1, .pause fired :: rest => match wait.fires fired with
    | some fired => (([], .waits fired), rest)
    | none => fillItems wait (n + 1) rest
  | n + 1, .byte b :: rest => ((fillItems wait n rest).map (·.map (b :: ·) id) id)

structure HttpStream where
  fd : Bool
  interrupted : Bool
  buf : List UInt8
  contentLength : Int
  consumed : Int
  chunked : Bool
  chunkLeft : Int
  keepAlive : Bool
  bodyDone : Bool
  trailerLineHasContent : Bool
  peerHost : List UInt8
  peerPort : Int
  wire : List Item

/-- What a read returns, and what it has copied out. -/
structure Reply where
  code : Int
  bytes : List UInt8

def Reply.of (bytes : List UInt8) : Reply := ⟨bytes.length, bytes⟩

def Reply.none (code : Int) : Reply := ⟨code, []⟩

def capacity : Nat := 65536

namespace HttpStream

def samePeer (hs : HttpStream) (host : List UInt8) (port : Int) : Bool := hs.peerPort == port && hs.peerHost == host

/-- May this open send its request on the live socket instead of dialling? -/
def canReuse (hs : HttpStream) (host : List UInt8) (port : Int) : Bool :=
  hs.fd && !hs.interrupted && hs.keepAlive && hs.bodyDone && hs.buf.isEmpty && hs.samePeer host port

def closeOwned (hs : HttpStream) : HttpStream := { hs with fd := false }

/-- Body complete: keep the socket when the server offered that, otherwise close. -/
def finishBody (hs : HttpStream) : HttpStream := { hs with bodyDone := true, fd := hs.fd && hs.keepAlive }

def abandoned (hs : HttpStream) : HttpStream := { hs with keepAlive := false, fd := false }

def bodyIncomplete (hs : HttpStream) : Bool :=
  !hs.bodyDone && (hs.chunked || (decide (0 ≤ hs.contentLength) && decide (hs.consumed < hs.contentLength)))

def closedOrIdleReadResult (hs : HttpStream) : Int := if !hs.fd && !hs.bodyIncomplete then 0 else -1

def recv (hs : HttpStream) (wait : Wait) (n : Nat) : Recv × HttpStream :=
  ((recvItems wait n hs.wire).map id fun wire => { hs with wire := wire })

def getb (hs : HttpStream) (wait : Wait) : Except Fired (Option UInt8) × HttpStream :=
  match hs.buf with
  | b :: rest => (.ok (some b), { hs with buf := rest })
  | [] =>
    if hs.fd then
      match hs.recv wait 1 with
      | (.bytes read, hs) => (.ok read.head?, hs)
      | (.eof, hs) => (.ok none, hs.closeOwned)
      | (.waits fired, hs) => (.error fired, hs)
    else (.ok none, hs)

/-- Byte after byte, the buffered ones first. -/
def scan {σ ρ : Type} (step : σ → UInt8 → σ ⊕ ρ) (hs : HttpStream) (wait : Wait) (s : σ) : Scanned σ ρ Fired × HttpStream :=
  match feed step hs.buf s with
  | (.inr found, rest) => (.stopped found, { hs with buf := rest })
  | (.inl s, _) =>
    if hs.fd then
      match scanItems step wait hs.wire s with
      | (.ended s, wire) => (.ended s, { hs with buf := [], wire := wire, fd := false })
      | (found, wire) => (found, { hs with buf := [], wire := wire })
    else (.ended s, { hs with buf := [] })

end HttpStream

def hexDigit (b : UInt8) : Option Int :=
  if 48 ≤ b ∧ b ≤ 57 then some (b.toNat - 48)
  else if 97 ≤ b ∧ b ≤ 102 then some (b.toNat - 87)
  else if 65 ≤ b ∧ b ≤ 70 then some (b.toNat - 55)
  else none

def wrapped (n : Int) : Int := n.bmod 18446744073709551616

def isCr (b : UInt8) : Bool := b == 13

def isLf (b : UInt8) : Bool := b == 10

/-- How far a chunk-size line is read: the line ends left by the chunk before it, its digits, and
the rest of it. -/
inductive SizeLine
  | lead
  | digits (size : Int)
  | rest (size : Option Int)
deriving DecidableEq

namespace SizeLine

def restStep (size : Option Int) (b : UInt8) : SizeLine ⊕ Option Int := if isLf b then .inr size else .inl (.rest size)

def digitStep (size : Option Int) (b : UInt8) : SizeLine ⊕ Option Int :=
  match hexDigit b with
  | some d => .inl (.digits (wrapped (size.getD 0 * 16 + d)))
  | none => restStep size b

def step : SizeLine → UInt8 → SizeLine ⊕ Option Int
  | .lead, b => if isCr b || isLf b then .inl .lead else digitStep none b
  | .digits size, b => digitStep (some size) b
  | .rest size, b => restStep size b

/-- What is known of the size where the socket ends the line. -/
def size : SizeLine → Option Int
  | .lead => none
  | .digits size => some size
  | .rest size => size

end SizeLine

/-- A trailer line, and whether anything stands on it yet. -/
def trailerStep (hasContent : Bool) (b : UInt8) : Bool ⊕ Unit :=
  if isLf b then (if hasContent then .inl false else .inr ())
  else .inl (hasContent || !isCr b)

/-- How many of the bytes a read asks for the body still holds. -/
def bodyTake (n : Nat) (remaining : Int) : Nat := if remaining ≤ 0 then 0 else min n remaining.toNat

namespace HttpStream

def nextChunk (hs : HttpStream) (wait : Wait) : Except Fired (Option Int) × HttpStream :=
  match hs.scan SizeLine.step wait .lead with
  | (.stopped size, hs) => (.ok size, hs)
  | (.ended line, hs) => (.ok line.size, hs)
  | (.waits fired _, hs) => (.error fired, hs)

/-- The trailer fields and the empty line behind them. -/
def skipChunkedTrailers (hs : HttpStream) (wait : Wait) : Except Int Unit × HttpStream :=
  match hs.scan trailerStep wait hs.trailerLineHasContent with
  | (.stopped _, hs) => (.ok (), { hs with trailerLineHasContent := false })
  | (.ended hasContent, hs) => (.error (-1), { hs with trailerLineHasContent := hasContent })
  | (.waits fired hasContent, hs) => (.error fired.code, { hs with trailerLineHasContent := hasContent })

def readTrailers (hs : HttpStream) (wait : Wait) : Reply × HttpStream :=
  match hs.skipChunkedTrailers wait with
  | (.ok _, hs) => (.none 0, hs.finishBody)
  | (.error code, hs) => (.none code, hs.abandoned)

def readChunk (hs : HttpStream) (wait : Wait) (n : Nat) : Reply × HttpStream :=
  let want := min n hs.chunkLeft.toNat
  let front := hs.buf.take want
  let ((more, stop), wire) := if hs.fd then fillItems wait (want - front.length) hs.wire else (([], .full), hs.wire)
  let got := front ++ more
  let hs := { hs with buf := hs.buf.drop want, wire := wire, fd := hs.fd && stop != .eof }
  match got, stop with
  | [], .waits fired => (.none fired.code, hs)
  | [], .eof => (.none (-1), hs)
  | [], .full => (.none hs.closedOrIdleReadResult, hs)
  | got, _ => (.of got, { hs with chunkLeft := hs.chunkLeft - got.length, consumed := hs.consumed + got.length })

def readChunked (hs : HttpStream) (wait : Wait) (n : Nat) : Reply × HttpStream :=
  if hs.chunkLeft < 0 then hs.readTrailers wait
  else if hs.chunkLeft = 0 then
    match hs.nextChunk wait with
    | (.ok (some size), hs) =>
      if size = 0 then hs.readTrailers wait
      else if size < 0 then (.none (-1), hs.abandoned)
      else readChunk { hs with chunkLeft := size } wait n
    | (.error fired, hs) => (.none fired.code, hs)
    | (.ok none, hs) => (.none 0, hs.abandoned)
  else hs.readChunk wait n

/-- Body bytes counted, and the end of the body seen where its length says so. -/
def took (hs : HttpStream) (bytes : List UInt8) : HttpStream :=
  let hs := { hs with consumed := hs.consumed + bytes.length }
  if 0 ≤ hs.contentLength ∧ hs.contentLength ≤ hs.consumed then hs.finishBody else hs

def readSized (hs : HttpStream) (wait : Wait) (n : Nat) : Reply × HttpStream :=
  if !hs.fd && hs.buf.isEmpty then (.none hs.closedOrIdleReadResult, hs)
  else if 0 ≤ hs.contentLength ∧ hs.contentLength ≤ hs.consumed then (.none 0, hs.finishBody)
  else
    let n := if 0 ≤ hs.contentLength then bodyTake n (hs.contentLength - hs.consumed) else n
    if n = 0 then (.none 0, hs.finishBody)
    else if !hs.buf.isEmpty then (.of (hs.buf.take n), took { hs with buf := hs.buf.drop n } (hs.buf.take n))
    else if !hs.fd then (.none hs.closedOrIdleReadResult, hs)
    else
      -- The clock is asked before the socket is, and again by the `recv`.
      match hs.recv wait n with
      | (.bytes bytes, hs) => (.of bytes, hs.took bytes)
      | (.eof, hs) =>
        (.none (if 0 ≤ hs.contentLength ∧ hs.consumed < hs.contentLength then -1 else 0), hs.closeOwned)
      | (.waits fired, hs) => (.none fired.code, hs)

def httpReadUntil (hs : HttpStream) (wait : Wait) (n : Int) : Reply × HttpStream :=
  if n ≤ 0 then (.none (if n = 0 then 0 else -1), hs)
  -- A finished body is the clean end, answered before any framing is parsed.
  else if hs.bodyDone then (.none 0, hs)
  else if hs.chunked then hs.readChunked wait n.toNat
  else hs.readSized wait n.toNat

/-- One `recv` into the space the buffer has. -/
def fillBufDontwait (hs : HttpStream) : HttpStream :=
  let space := capacity - hs.buf.length
  if space = 0 || !hs.fd then hs else
    match hs.recv .now space with
    | (.bytes bytes, hs) => { hs with buf := hs.buf ++ bytes }
    | (.eof, hs) => hs.closeOwned
    | (.waits _, hs) => hs

/-- The buffer holds a whole chunk-size line, and not only the line end of the chunk before it. -/
def chunkSizeLineReady (hs : HttpStream) : Bool := (hs.buf.dropWhile (fun b => isCr b || isLf b)).any isLf

def finishChunkedTrailersDontwait (hs : HttpStream) : Reply × HttpStream :=
  match hs.fillBufDontwait.skipChunkedTrailers .now with
  | (.ok _, hs) => (.none 0, hs.finishBody)
  | (.error code, hs) => if code = Fired.deadline.code then (.none 0, hs) else (.none code, hs.abandoned)

/-- What is waiting of the body, as far as the destination has room. -/
def drainBody (hs : HttpStream) (room : Nat) : Reply × HttpStream :=
  let remain := if hs.chunked then bodyTake room hs.chunkLeft
    else if 0 ≤ hs.contentLength then bodyTake room (hs.contentLength - hs.consumed) else room
  if remain = 0 then (.none 0, if hs.chunked then hs else hs.finishBody)
  else
    let want := min room remain
    let front := hs.buf.take want
    let (received, wire) := if hs.fd && decide (front.length < want) then recvItems .now (want - front.length) hs.wire
      else (.waits .deadline, hs.wire)
    let got := front ++ received.brought
    let hs := { hs with buf := hs.buf.drop want, wire := wire, fd := hs.fd && received != .eof }
    if got = [] then (.none (if received = .eof then hs.closedOrIdleReadResult else 0), hs)
    else if hs.chunked then
      (.of got, { hs with chunkLeft := hs.chunkLeft - got.length, consumed := hs.consumed + got.length })
    else (.of got, hs.took got)

/-- The next chunk's size off the buffer, and what is waiting of the chunk. -/
def drainSizeLine (hs : HttpStream) (room : Nat) : Reply × HttpStream :=
  match hs.nextChunk .now with
  | (.ok (some size), hs) =>
    if size = 0 then finishChunkedTrailersDontwait { hs with chunkLeft := -1 }
    else if size < 0 then (.none (-1), hs.abandoned)
    else drainBody { hs with chunkLeft := size } room
  | (.ok none, hs) => (.none (-1), hs.abandoned)
  | (.error fired, hs) => (.none (if fired = .deadline then 0 else fired.code), hs)

/-- Bytes already waiting on the socket, without blocking. -/
def httpDrainAvailable (hs : HttpStream) (room : Nat) : Reply × HttpStream :=
  if room = 0 || hs.bodyDone then (.none 0, hs)
  else if !hs.fd && hs.buf.isEmpty then (.none hs.closedOrIdleReadResult, hs)
  else if 0 ≤ hs.contentLength ∧ hs.contentLength ≤ hs.consumed then (.none 0, hs.finishBody)
  else if hs.chunked && decide (hs.chunkLeft < 0) then hs.finishChunkedTrailersDontwait
  else if hs.chunked && decide (hs.chunkLeft = 0) then
    if hs.chunkSizeLineReady then hs.drainSizeLine room
    else
      let hs := hs.fillBufDontwait
      if hs.chunkSizeLineReady then hs.drainSizeLine room
      else if !hs.fd then (.none hs.closedOrIdleReadResult, hs)
      else (.none 0, hs)
  else hs.drainBody room

/-- The stream behind a head: what came with the head is in the buffer. -/
def opened (contentLength : Int) (chunked keepAlive : Bool) (peerHost : List UInt8) (peerPort : Int) (buf : List UInt8)
    (wire : List Item) : HttpStream :=
  let hs : HttpStream := ⟨true, false, buf, contentLength, 0, chunked, 0, keepAlive, false, false, peerHost, peerPort, wire⟩
  if contentLength = 0 ∧ chunked = false then hs.finishBody else hs

end HttpStream

inductive Call
  | read (wait : Wait) (n : Int)
  | drain (room : Nat)

def Call.on (call : Call) (hs : HttpStream) : Reply × HttpStream :=
  match call with
  | .read wait n => hs.httpReadUntil wait n
  | .drain room => hs.httpDrainAvailable room

end PlxNative.Http
