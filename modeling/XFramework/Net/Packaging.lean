/-
The sender: `PackageProxy::Packaging` and `BuildPackage` (Net/DataHandle.h).

The frames of a request are buffers in one memory. `BuildPackage` writes a
message at a cursor that runs over the frames, and a message that does not fit
in the rest of a frame goes on in the next one. Its two lengths are known only
after the data are cut, so they are patched into the head last, wherever its
bytes fell.
-/
import XFramework.Net.Message

open Bytes

/-- A frame of a request: its buffer and how much of it is to be sent. -/
structure MsgFrame where
  len : Nat
  m_nValidLen : Nat
  m_index : Int
  m_buf : Int
  deriving DecidableEq

namespace MsgFrame

/-- `new MsgFrame`: no buffer. -/
def new : MsgFrame := ⟨0, 0, -1, 0⟩

def capacity (f : MsgFrame) : Nat := f.len

/-- The length is kept in an `unsigned short`. -/
def resetValidDataLen (f : MsgFrame) (len : Nat) : MsgFrame := { f with m_nValidLen := len % 65536 }

end MsgFrame

/-- `T`, the session handle: encryption, compression, and the bytes they left. `none` is `NULL`. -/
structure SessionHandle where
  code : NetPackage → Nat
  compress : NetPackage → Nat → Nat
  getData : NetPackage → Nat × Option (List UInt8)

/-- The codec that changes nothing. -/
def SessionHandle.identity : SessionHandle :=
  ⟨fun p => p.m_len, fun _ srcLen => srcLen, fun p => (p.m_len, p.m_pData)⟩

/-- How `Packaging` can fail: what it throws, and what C++ leaves undefined. `outOfFuel` is a
loop that has not ended. -/
inductive PackError
  | thrown (what : String)
  | outOfRange
  | overflow
  | outOfFuel
  deriving DecidableEq

/-- Where the next message goes (`pStart`), and what the sender believes of that place: the
frame and the offset in it. -/
structure Cursor where
  mem : Mem
  frames : List MsgFrame
  pStart : Int
  fIndex : Nat
  nOffset : Nat

namespace PackageProxy

/-- `frames[i]`. -/
def frameAt (frames : List MsgFrame) (i : Nat) : Except PackError MsgFrame :=
  match frames[i]? with
  | some f => .ok f
  | none => .error .outOfRange

/-- `frames[i]->ResetValidDataLen(len)`. -/
def resetValid (frames : List MsgFrame) (i len : Nat) : List MsgFrame :=
  frames.modify i (·.resetValidDataLen len)

/-- The head as `BuildPackage` fills it in first, the lengths of this frame left at 0. -/
def frameHead (nFrameNo srcLen totalFrames : Nat) (curPackage : NetPackage) : MsgHead where
  tFrames := .ofNat totalFrames
  nFrames := .ofNat nFrameNo
  nVerifyLen := .ofInt curPackage.m_nVerifyLen
  nProtoType := curPackage.m_nBaseProtol
  nReserved := 0
  nRetState := 0
  nDataLen := 0
  tSrcLen := .ofNat srcLen
  tDataLen := .ofNat srcLen
  nFrameLen := 0
  nUserProto := curPackage.m_nUserProtol
  ntimestamp := curPackage.m_timestamp

/-- The message fits in the rest of the frame. -/
def buildWhole (c : Cursor) (frame : MsgHead) (data : List UInt8) (available : Nat) : Except PackError Cursor :=
  let len := data.length
  let head := { frame with nDataLen := .ofNat len, nFrameLen := .ofNat (24 + len) }
  let mem := write (write c.mem c.pStart head.bytes) (c.pStart + 24) data
  let nOffset := c.nOffset + (len + 24)
  let frames := resetValid c.frames c.fIndex nOffset
  if len + 24 = available then do
    let next ← frameAt frames (c.fIndex + 1)
    .ok ⟨mem, frames, next.m_buf, c.fIndex + 1, 0⟩
  else
    .ok ⟨mem, frames, c.pStart + (len + 24 : Nat), c.fIndex, nOffset⟩

/-- The head fits, the data go on in the next frame. -/
def buildSplitData (c : Cursor) (frame : MsgHead) (data : List UInt8) (capacity available : Nat) :
    Except PackError Cursor :=
  if c.fIndex + 1 = c.frames.length then .error (.thrown "buildPackage error")
  else do
    let tmpOffset := available - 24
    let mem := write (write c.mem c.pStart frame.bytes) (c.pStart + 24) (data.take tmpOffset)
    let frames := resetValid c.frames c.fIndex capacity
    let next ← frameAt frames (c.fIndex + 1)
    let left := data.length - tmpOffset
    let lastLen := if left > 1000 - tmpOffset then 1000 - tmpOffset else left
    let mem := write mem next.m_buf ((data.drop tmpOffset).take lastLen)
    let sent := tmpOffset + lastLen
    let mem := writeLE (writeLE mem (c.pStart + 12) 2 (24 + sent)) (c.pStart + 6) 2 sent
    .ok ⟨mem, resetValid frames (c.fIndex + 1) lastLen, next.m_buf + lastLen, c.fIndex + 1, lastLen⟩

/-- Where the bytes of a patched length lie. -/
structure LengthAddrs where
  pAFrameLen : Int × Int
  pADataLen : Int × Int

/-- The head is cut after `available` bytes: `pTmp` is where it starts, `pStart` the next frame. -/
def lengthAddrs (available : Nat) (pTmp pStart : Int) : LengthAddrs :=
  if available ≥ 13 then ⟨(pTmp + 12, pTmp + 13), (pTmp + 6, pTmp + 7)⟩
  else if available = 12 then ⟨(pTmp + 12, pStart), (pTmp + 6, pTmp + 7)⟩
  else if available ≥ 7 then ⟨(pStart + 12 - available, pStart + 12 - available + 1), (pTmp + 6, pTmp + 7)⟩
  else if available = 6 then ⟨(pStart + 12 - available, pStart + 12 - available + 1), (pTmp + 6, pStart)⟩
  else ⟨(pStart + 12 - available, pStart + 12 - available + 1), (pStart + 6 - available, pStart + 6 - available + 1)⟩

/-- `*p[0] = daA[0]; *p[1] = daA[1];`. -/
def patch (m : Mem) (p : Int × Int) (v : Nat) : Mem :=
  write (write m p.1 [MsgHead.lo (.ofNat v)]) p.2 [MsgHead.hi (.ofNat v)]

/-- The head itself is cut. -/
def buildSplitHead (c : Cursor) (frame : MsgHead) (data : List UInt8) (capacity available : Nat) :
    Except PackError Cursor := do
  let mem := write c.mem c.pStart (frame.bytes.take available)
  let frames := resetValid c.frames c.fIndex capacity
  let next ← frameAt frames (c.fIndex + 1)
  let addrs := lengthAddrs available c.pStart next.m_buf
  let mem := write mem next.m_buf (frame.bytes.drop available)
  let pStart := next.m_buf + (24 - available : Nat)
  let lastLen := if data.length > 1000 then 1000 else data.length
  let mem := write mem pStart (data.take lastLen)
  let mem := patch (patch mem addrs.pAFrameLen (24 + lastLen)) addrs.pADataLen lastLen
  .ok ⟨mem, resetValid frames (c.fIndex + 1) (lastLen + 24 - available), pStart + lastLen, c.fIndex + 1, lastLen⟩

/-- `BuildPackage`. `pSrc` is the data with their length, `none` for `NULL` and length 0. The
offset stays below the capacity of the frame, so that the room left is no negative number. -/
def buildPackage (c : Cursor) (pSrc : Option (List UInt8)) (nFrameNo srcLen totalFrames : Nat)
    (curPackage : NetPackage) : Except PackError Cursor := do
  let cur ← frameAt c.frames c.fIndex
  let available := cur.capacity - c.nOffset
  let frame := frameHead nFrameNo srcLen totalFrames curPackage
  let data := pSrc.getD []
  if pSrc = none ∧ (nFrameNo ≠ 0 ∨ srcLen ≠ 0 ∨ totalFrames ≠ 1) then .error (.thrown "BuildPackage unknow error")
  else if data.length + 24 ≤ available then buildWhole c frame data available
  else if 24 ≤ available then buildSplitData c frame data cur.capacity available
  else buildSplitHead c frame data cur.capacity available

/-- The number of chunks of `len` bytes. -/
def totalFrames (len : Nat) : Nat := len / 1000 + if len - len / 1000 * 1000 > 0 then 1 else 0

/-- The chunks of `pData`, `ci` counted from 0. -/
def transFrames (pData : List UInt8) (len : Nat) : List (List UInt8) :=
  (List.range (totalFrames len)).map fun ci =>
    (pData.drop (ci * 1000)).take (if (ci + 1) * 1000 < len then 1000 else len - ci * 1000)

/-- All the messages of one package. -/
def sendPackage (h : SessionHandle) (c : Cursor) (p : NetPackage) (validLen : Nat) : Except PackError Cursor :=
  match h.getData p with
  | (_, none) => .error (.thrown "process error")
  | (len, some pData) =>
    if len ≠ validLen then .error (.thrown "process error")
    else if len > 0 then
      (transFrames pData len).zipIdx.foldlM
        (fun c t => buildPackage c (some t.1) t.2 p.m_len (totalFrames len) p) c
    else buildPackage c none 0 0 1 p

/-- How a pass over the queue ends: the first package does not fit, or `count` packages are out. -/
inductive Outcome
  | restart
  | done (c : Cursor) (count : Nat)

/-- The pass over the queue, with `i` packages behind it. -/
def queueLoop (h : SessionHandle) (totalCapacity : Nat) :
    List NetPackage → Nat → Nat → Cursor → Except PackError Outcome
  | [], i, _, c => .ok (.done c i)
  | p :: theQueue, i, totalSend, c =>
    let validLen := h.compress p (h.code p)
    if 2 ^ 31 ≤ totalSend + validLen then .error .overflow
    else if totalSend + validLen + (i + 1) * 24 > totalCapacity then
      if i = 0 then .ok .restart
      else if c.nOffset > 0 then .ok (.done { c with frames := resetValid c.frames c.fIndex c.nOffset } i)
      else .ok (.done c i)
    else do
      let c ← sendPackage h c p validLen
      if c.fIndex = c.frames.length then .ok (.done c (i + 1))
      else queueLoop h totalCapacity theQueue (i + 1) (totalSend + validLen) c

/-- What `Packaging` leaves: the memory and the frames, and the two counts it returns. -/
structure Packed where
  mem : Mem
  frames : List MsgFrame
  count : Nat
  nFrameCount : Nat

/-- From the label `RESTART` on. -/
def packFrom (h : SessionHandle) (theQueue : List NetPackage) : Nat → Cursor → Except PackError Packed
  | 0, _ => .error .outOfFuel
  | fuel + 1, c =>
    let totalCapacity := (c.frames.map MsgFrame.capacity).sum
    if 2 ^ 31 ≤ totalCapacity then .error .overflow
    else
      match queueLoop h totalCapacity theQueue 0 0 c with
      | .error e => .error e
      | .ok .restart => packFrom h theQueue fuel { c with frames := c.frames ++ [MsgFrame.new] }
      | .ok (.done c count) => .ok ⟨c.mem, c.frames, count, c.fIndex + 1⟩

/-- `Packaging`. -/
def packaging (fuel : Nat) (h : SessionHandle) (m : Mem) (frames : List MsgFrame) (theQueue : List NetPackage) :
    Except PackError Packed := do
  let first ← frameAt frames 0
  packFrom h theQueue fuel ⟨m, frames, first.m_buf, 0, 0⟩

/-- The bytes that go out: the valid part of every frame in use. -/
def Packed.validBytes (r : Packed) : List UInt8 :=
  (r.frames.take r.nFrameCount).flatMap fun f => read r.mem f.m_buf f.m_nValidLen

end PackageProxy

/-- The frames `SocketSession` makes: slices of one buffer, emptied by `PostSend`. -/
def sendFrames (base : Int) (n : Nat) : List MsgFrame :=
  (List.range n).map fun i : Nat => ⟨PERIOPOSTSIZE, 0, i, base + PERIOPOSTSIZE * (i : Int)⟩
