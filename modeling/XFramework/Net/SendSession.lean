/-
The sending half of a session (Net/SocketSession.h, Net/SocketSession.cpp).

`PostSend` packs the queue into the send buffers and posts the first of them.
The network reports how much of a request went out; `NoticeComplateSend` asks
for the rest of the buffer, or goes on to the next one.
-/
import XFramework.Net.PackPerData
import XFramework.Lib.Fallible

open Bytes

/-- The sending half of `SocketSession`; `posted` are the requests the network has. -/
structure SendSession where
  mem : Mem
  m_bOnline : Bool
  m_finishW : Nat
  m_wPostIndex : Nat
  m_nWriteCount : Nat
  m_SendBuf : List PackPerData
  m_sendQueue : List NetPackage
  posted : List PostReq

namespace SendSession

/-- The send buffers of `InitFrames`: `SEND_BUFFER_SIZE` is twice `PERIOPOSTSIZE`. -/
def initFrames (m_tmpSendBuf : Int) : List PackPerData :=
  (List.range 2).map fun i : Nat => .new i (m_tmpSendBuf + PERIOPOSTSIZE * (i : Int)) PERIOPOSTSIZE

/-- A session after `Init`. -/
def init (m : Mem) (m_tmpSendBuf : Int) : SendSession where
  mem := m
  m_bOnline := true
  m_finishW := 1
  m_wPostIndex := 0
  m_nWriteCount := 0
  m_SendBuf := initFrames m_tmpSendBuf
  m_sendQueue := []
  posted := []

/-- `SendNetPackage`. -/
def sendNetPackage (s : SendSession) (p : NetPackage) : SendSession :=
  if s.m_bOnline then { s with m_sendQueue := s.m_sendQueue ++ [p] } else s

/-- A buffer is stored back, and its request posted. -/
def store (s : SendSession) (i : Nat) (r : PackPerData × Option PostReq) : SendSession :=
  { s with m_SendBuf := s.m_SendBuf.set i r.1, posted := s.posted ++ r.2.toList }

/-- `m_SendBuf[m_wPostIndex]->PostSend()`. -/
def postCurrent (s : SendSession) : Except PackError SendSession :=
  match s.m_SendBuf[s.m_wPostIndex]? with
  | some d => .ok (s.store s.m_wPostIndex d.postSend)
  | none => .error .outOfRange

/-- `NoticeComplateSend`. The fields of the counters have four bits. -/
def noticeComplateSend (s : SendSession) (index : Nat) (pBuf : Int) (len : Nat) : Except PackError SendSession :=
  match s.m_SendBuf[index]? with
  | none => .ok s
  | some d =>
    let (d, req, _) := d.recordSendData pBuf len
    if d.m_isFinish then
      let s := s.store index (d.setNoticeStatus false, req)
      if s.m_wPostIndex + 1 = s.m_nWriteCount then
        .ok { s with m_wPostIndex := 0, m_nWriteCount := 0, m_finishW := 1 }
      else postCurrent { s with m_wPostIndex := (s.m_wPostIndex + 1) % 16 }
    else .ok (s.store index (d, req))

/-- `SetNoticeStatus` and `ResetData` of every buffer. -/
def resetBuffers (s : SendSession) : SendSession :=
  { s with
    mem := s.m_SendBuf.foldl (fun m d => write m d.m_frame.m_buf (List.replicate d.m_frame.len 0)) s.mem
    m_SendBuf := s.m_SendBuf.map fun d => { d.setNoticeStatus false with m_frame := d.m_frame.resetValidDataLen 0 } }

/-- `PostSend`. The frames `Packaging` adds to its vector belong to no buffer. -/
def postSend (fuel : Nat) (h : SessionHandle) (s : SendSession) : Except PackError SendSession :=
  if s.m_bOnline = true ∧ s.m_finishW = 1 ∧ s.m_sendQueue ≠ [] then do
    let s := s.resetBuffers
    let r ← PackageProxy.packaging fuel h s.mem (s.m_SendBuf.map (·.m_frame)) s.m_sendQueue
    let s := { s with mem := r.mem, m_SendBuf := s.m_SendBuf.zipWith (fun d f => { d with m_frame := f }) r.frames }
    if r.count > 0 then
      postCurrent { s with
        m_sendQueue := s.m_sendQueue.drop r.count, m_wPostIndex := 0, m_nWriteCount := r.nFrameCount % 16, m_finishW := 0 }
    else .ok s
  else .ok s

end SendSession
