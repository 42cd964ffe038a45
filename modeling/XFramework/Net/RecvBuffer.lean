/-
The receiving half of a buffer (Net/PackPerData.cpp).

A request is completed with bytes in its buffer. When the buffer posted before
was left with a part of a frame, that part is moved to the start of its buffer
and completed from the new bytes (`joinPrev`); the rest of these is moved to
the start of the new buffer, and is a frame when it is long enough
(`recvOwn`). Further frames behind it are found by `GetOtherFrameCount`.
-/
import XFramework.Net.PackPerData

open Bytes

/-- What the receiver throws, what C++ leaves undefined, and the step of a network that cannot be made. -/
inductive RecvError
  | thrown (what : String)
  | outOfRange
  | waiting
  deriving DecidableEq

/-- The loops that copy byte by byte, lowest first: the bytes lie above the place they are moved to, so
none is read after it was written. -/
def moveBytes (m : Mem) (dst src : Int) (n : Nat) : Mem := write m dst (read m src n)

/-- What is thrown for a head whose lengths do not agree. -/
def checkHead (h : MsgHead) : Except RecvError Unit :=
  if h.tSrcLen ≠ h.tDataLen ∨ h.nDataLen > h.nFrameLen then .error (.thrown "error frame")
  else if h.nDataLen > h.nFrameLen ∨ h.nDataLen > h.tDataLen ∨ h.nDataLen > h.tSrcLen then .error (.thrown "recv error")
  else .ok ()

/-- The buffer with the part of a frame after the new bytes, the bytes left over of these, and
whether the frame is complete. -/
structure JoinedPrev where
  prev : PackPerData
  mem : Mem
  len : Nat
  nFlag : Bool

namespace PackPerData

/-- `MoveExtendData`. -/
def moveExtendData (d : PackPerData) (m : Mem) : PackPerData × Mem :=
  match d.m_pExtendStart with
  | some pArr =>
    if d.m_nExtendLen > 0 then ({ d with m_pExtendStart := none }, moveBytes m d.m_frame.m_buf pArr d.m_nExtendLen)
    else (d, m)
  | none => (d, m)

/-- The copies of `RecvData` from the new bytes at `buf` to the part of a frame at `p`: the memory, how
many bytes were copied and how many are left. -/
def copyToPrev (m : Mem) (p buf : Int) (nPrevLen len : Nat) : Except RecvError (Mem × Nat × Nat) :=
  if len > 24 then do
    let m := if nPrevLen < 24 then write m (p + nPrevLen) (read m buf (24 - nPrevLen)) else m
    let h := MsgHead.load m p
    if h.tFrames = 0 then .error (.thrown "error recv")
    else do
      checkHead h
      if h.nFrameLen.toNat ≤ nPrevLen then .error (.thrown "logic error")
      else
        let nTotalCopy := h.nFrameLen.toNat - nPrevLen
        if len ≥ nTotalCopy then
          let m := write m (p + nPrevLen) (read m buf nTotalCopy)
          .ok (moveBytes m buf (buf + nTotalCopy) (len - nTotalCopy), nTotalCopy, len - nTotalCopy)
        else .ok (write m (p + nPrevLen) (read m buf len), len, 0)
  else .ok (write m (p + nPrevLen) (read m buf len), len, 0)

/-- The part of a frame at `prev` has grown by `copied` bytes. -/
def joined (prev : PackPerData) (m : Mem) (copied len : Nat) : Except RecvError JoinedPrev :=
  let prev := { prev with m_nExtendLen := (prev.m_nExtendLen + copied) % 65536 }
  let h := MsgHead.load m prev.m_frame.m_buf
  if prev.m_nExtendLen = h.nFrameLen.toNat then do
    checkHead h
    .ok ⟨{ prev with m_isFinish := true, m_nExtendLen := 0 }, m, len, true⟩
  else .ok ⟨prev, m, len, false⟩

/-- The first part of `RecvData`: `prev` was left with a part of a frame, and `len` bytes are at `buf`. -/
def joinPrev (m : Mem) (buf : Int) (prev : PackPerData) (len : Nat) : Except RecvError JoinedPrev := do
  let moved := prev.moveExtendData m
  let (m, copied, len) ← copyToPrev moved.2 prev.m_frame.m_buf buf prev.m_nExtendLen len
  moved.1.joined m copied len

/-- The second part of `RecvData`: the `len` bytes from `pdata` on are those of this buffer. -/
def recvOwn (d : PackPerData) (m : Mem) (pdata : Int) (len : Nat) (pPrev : Option Nat) :
    Except RecvError (PackPerData × Option PostReq × Int) :=
  let cur := pdata + (len : Int)
  let d := { d with m_pDataCur := some cur }
  let buf := d.m_frame.m_buf
  if len = 0 then .ok (d, none, -3)
  else if cur - buf > 24 then
    let nFrameLen := (MsgHead.load m buf).nFrameLen.toNat
    if nFrameLen = 0 then .error (.thrown "error frame")
    else if nFrameLen > d.m_frame.len then .ok ({ d with m_pDataCur := some buf, m_isFinish := false }, none, -2)
    else
      let rlen := buf + (nFrameLen : Int) - cur
      if rlen ≤ 0 then
        let d := { d with
          m_pDataCur := some buf
          m_isFinish := true
          m_nExtendLen := if len > nFrameLen then (len - nFrameLen) % 65536 else d.m_nExtendLen }
        if d.m_nExtendLen > PERIOPOSTSIZE then .error (.thrown "error extend data")
        else .ok ({ d with m_pExtendStart := some (buf + nFrameLen) }, none, 0)
      -- the result -1 of a request that is not posted is overwritten
      else .ok (d, some ⟨cur, rlen.toNat, d.m_index, pPrev⟩, 2)
  else .ok (d, none, 1)

/-- `GetCurComplateFrame`. -/
def getCurComplateFrame (d : PackPerData) (m : Mem) : MsgFrame :=
  ⟨(MsgHead.load m d.m_frame.m_buf).nFrameLen.toNat, 0, d.m_index, d.m_frame.m_buf⟩

/-- The loop of `GetOtherFrameCount`: the frames in the `extendLen` bytes from `p` on, where the loop
stops and what is left there. Every frame takes at least 24 bytes. -/
def otherFrames (m : Mem) (index : Nat) : Nat → Int → Nat → List MsgFrame × Int × Nat
  | 0, p, extendLen => ([], p, extendLen)
  | fuel + 1, p, extendLen =>
    if extendLen > 24 then
      let nDataLen := (MsgHead.load m p).nDataLen.toNat
      if extendLen - 24 ≥ nDataLen then
        let r := otherFrames m index fuel (p + (24 + nDataLen : Nat)) (extendLen - 24 - nDataLen)
        (⟨nDataLen, 0, index, p⟩ :: r.1, r.2)
      else ([], p, extendLen)
    else ([], p, extendLen)

/-- `GetOtherFrameCount`. -/
def getOtherFrameCount (d : PackPerData) (m : Mem) : PackPerData × List MsgFrame :=
  let pStart := d.m_frame.m_buf + ((MsgHead.load m d.m_frame.m_buf).nFrameLen.toNat : Int)
  let r := otherFrames m d.m_index d.m_nExtendLen pStart d.m_nExtendLen
  ({ d with m_nExtendLen := r.2.2, m_pExtendStart := some r.2.1 }, r.1)

/-- `PostRecv`. -/
def postRecv (d : PackPerData) (pStart : Option Nat) : PackPerData × Option PostReq :=
  if d.m_nPost > 2 then ({ d with m_nPost := 0 }, none)
  else if d.m_frame.m_buf = 0 then (d, none)
  else
    let d := { d with m_pDataCur := some d.m_frame.m_buf, m_nExtendLen := 0, m_nPost := 0, m_pPrevPerData := pStart }
    (d, some ⟨d.m_frame.m_buf, d.m_frame.len, d.m_index, pStart⟩)

/-- `ResetIndex`; the place has four bits. -/
def resetIndex (d : PackPerData) (index : Nat) : PackPerData :=
  { d with m_index := index % 16, m_frame := { d.m_frame with m_index := (index % 16 : Nat) } }

end PackPerData
