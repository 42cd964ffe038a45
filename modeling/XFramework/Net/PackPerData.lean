/-
The buffers of a session (Net/PackPerData.h, Net/PackPerData.cpp): what they
record, and the calls of the sending side.

A `PackPerData*` is the place of the buffer in the vector of its session. A
call that posts a request gives the request back; the session hands it to the
network.
-/
import XFramework.Net.Packaging

/-- A buffer of a session. `none` is `NULL`; `m_pPrevPerData` is the place of another buffer. -/
structure PackPerData where
  m_isFinish : Bool
  m_index : Nat
  m_nPost : Nat
  m_nExtendLen : Nat
  m_pExtendStart : Option Int
  m_pPrevPerData : Option Nat
  m_pDataCur : Option Int
  m_frame : MsgFrame
  deriving DecidableEq

/-- What the network is asked for: `PostRecvReq` or `PostSendReq` of a session. -/
structure PostReq where
  pStart : Int
  len : Nat
  nIndex : Nat
  pExtend : Option Nat
  deriving DecidableEq

namespace PackPerData

/-- The constructor. -/
def new (nIndex : Nat) (buf : Int) (size : Nat) : PackPerData where
  m_isFinish := false
  m_index := nIndex
  m_nPost := 0
  m_nExtendLen := 0
  m_pExtendStart := none
  m_pPrevPerData := none
  m_pDataCur := none
  m_frame := ⟨size, 0, nIndex, buf⟩

def setNoticeStatus (d : PackPerData) (f : Bool) : PackPerData := { d with m_isFinish := f }

/-- `RecordSendData`: the bytes from `pdata` on have gone out, and the rest of them is asked for. -/
def recordSendData (d : PackPerData) (pdata : Int) (len : Nat) : PackPerData × Option PostReq × Int :=
  if len = 0 then (d, none, -1)
  else
    let cur := pdata + (len : Int)
    let d := { d with m_pDataCur := some cur }
    let last := d.m_frame.m_buf + (d.m_frame.m_nValidLen : Int)
    if cur ≤ last then
      let wlen := last - cur
      if wlen = 0 then
        ({ d with m_pDataCur := some d.m_frame.m_buf, m_frame := d.m_frame.resetValidDataLen 0, m_isFinish := true }, none, 0)
      else (d, some ⟨cur, wlen.toNat, d.m_index, none⟩, 0)
    else (d, none, 1)

/-- `PostSend`. -/
def postSend (d : PackPerData) : PackPerData × Option PostReq :=
  if d.m_nPost > 2 then ({ d with m_nPost := 0 }, none)
  else
    let d := { d with m_pDataCur := some d.m_frame.m_buf }
    if d.m_frame.m_buf = 0 then (d, none)
    else if d.m_frame.m_nValidLen > 0 then (d, some ⟨d.m_frame.m_buf, d.m_frame.m_nValidLen, d.m_index, none⟩)
    else (d, none)

end PackPerData
