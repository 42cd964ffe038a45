/-
The receiving half of a session (Net/SocketSession.h, Net/SocketSession.cpp).

`DispatchData` queues what the network reports, and `ParseData` works the queue
off: it takes the bytes (`takeData`), enters the frames they complete in
`m_mapFrames`, posts the next request when the last package is not complete
(`postNext`), and hands out the packages that are (`handOut`), after which it
posts the next request when the last one was.

A buffer is named by its place. The loops that push the last element of
`m_RecvBuf` back and pop it again leave the vector as it was.
-/
import XFramework.Net.RecvBuffer
import XFramework.Lib.StdMap
import XFramework.Lib.Fallible
import Mathlib.Data.List.Sort

open Bytes

/-- A completed request. -/
structure TmpPerIO where
  nIndex : Nat
  len : Nat
  pBuf : Int
  pPrevIOData : Option Nat
  deriving DecidableEq

/-- The session as the code to be supplied: whether `Alloc` succeeds, `SetPackageInfo`, and what
`encode` and `uncompress` make of the data. `sort` is `std::sort` by `m_index`. -/
structure RecvHandle where
  alloc : Nat → Bool
  setPackageInfo : Nat → Nat → Bool
  process : List UInt8 → Option (List UInt8)
  sort : List MsgFrame → List MsgFrame

/-- A session that changes nothing. -/
def RecvHandle.plain : RecvHandle where
  alloc _ := true
  setPackageInfo _ _ := true
  process := some
  sort := List.insertionSort fun a b => a.m_index ≤ b.m_index

/-- Several frames are sorted, a single one is not. -/
def RecvHandle.sortMany (h : RecvHandle) (frames : List MsgFrame) : List MsgFrame :=
  if frames.length > 1 then h.sort frames else frames

/-- What the standard says of `sort`: the order of equal elements is left open. -/
structure RecvHandle.Sorts (h : RecvHandle) : Prop where
  perm : ∀ l, (h.sort l).Perm l
  sorted : ∀ l, (h.sort l).Pairwise fun a b => a.m_index ≤ b.m_index

theorem RecvHandle.sorts_plain : RecvHandle.plain.Sorts where
  perm _ := List.perm_insertionSort _ _
  sorted _ := List.pairwise_insertionSort _ _

/-- A package of `m_recvQueue`. -/
structure RecvPackage where
  m_pData : List UInt8
  m_len : Nat
  deriving DecidableEq

/-- The receiving half of `SocketSession`; `posted` are the requests the network has. -/
structure RecvSession where
  mem : Mem
  m_bOnline : Bool
  m_rPostIndex : Nat
  m_heartbitTime : Int
  m_RecvBuf : List PackPerData
  m_perIoDatas : List TmpPerIO
  m_mapFrames : StdMap Int (List MsgFrame)
  m_recvQueue : List RecvPackage
  posted : List PostReq

/-- `FrameKey`: the timestamp of the frame at an address. -/
def frameKey (m : Mem) (p : Int) : Int := (MsgHead.load m p).ntimestamp.toInt

/-- `GetTotalFrames`. -/
def totalFrames (m : Mem) (f : MsgFrame) : Nat := (MsgHead.load m f.m_buf).tFrames.toNat

namespace RecvSession

variable (h : RecvHandle) (now : Int)

/-- The receive buffers of `InitFrames`: `RECV_BUFFER_SIZE` is four times `PERIOPOSTSIZE`. -/
def initFrames (m_tmpRecvBuf : Int) : List PackPerData :=
  (List.range 4).map fun i : Nat => .new i (m_tmpRecvBuf + PERIOPOSTSIZE * (i : Int)) PERIOPOSTSIZE

/-- A session after `Init`. -/
def init (m : Mem) (m_tmpRecvBuf : Int) : RecvSession where
  mem := m
  m_bOnline := true
  m_rPostIndex := 0
  m_heartbitTime := now
  m_RecvBuf := initFrames m_tmpRecvBuf
  m_perIoDatas := []
  m_mapFrames := .empty
  m_recvQueue := []
  posted := []

/-- `m_RecvBuf[i]`. -/
def buf (s : RecvSession) (i : Nat) : Except RecvError PackPerData :=
  match s.m_RecvBuf[i]? with
  | some d => .ok d
  | none => .error .outOfRange

/-- A buffer is stored back, and its request posted. -/
def store (s : RecvSession) (i : Nat) (d : PackPerData) (req : Option PostReq) : RecvSession :=
  { s with m_RecvBuf := s.m_RecvBuf.set i d, posted := s.posted ++ req.toList }

/-- `DispatchData`. -/
def dispatchData (s : RecvSession) (io : TmpPerIO) : Except RecvError RecvSession :=
  if io.nIndex > s.m_RecvBuf.length then .error (.thrown "dispatchData failed error index")
  else if io.pBuf = 0 then .ok s
  else .ok { s with m_perIoDatas := s.m_perIoDatas ++ [io] }

/-- `PostRecv`. -/
def postRecv (s : RecvSession) (index : Int) (pStart : Option Nat) : Except RecvError RecvSession :=
  if s.m_bOnline then
    if index < 0 ∨ index ≥ s.m_RecvBuf.length then .error (.thrown "invalid index")
    else do
      let d ← s.buf index.toNat
      let (d, req) := d.postRecv pStart
      .ok (s.store index.toNat d req)
  else .ok s

/-- The base protocols: 1 verifies the client, which always succeeds, and 2 is taken for the
heartbeat. The result is true for all of them. -/
def parseBaseProtocol (s : RecvSession) (nProtoType : UInt8) : RecvSession :=
  if nProtoType = 2 then { s with m_heartbitTime := now } else s

/-- `DataHandle::IsBaseProtocolPackage`, which `PackageProxy` does not override. -/
def isBaseProtocolPackage (_nProto : UInt8) : Bool := false

/-! ## Taking the data -/

/-- The first part of `RecvData`, when the request was posted behind a part of a frame: the memory and the
buffers, the bytes left and `nFlag`. -/
def joinData (s : RecvSession) (cur : Nat) (io : TmpPerIO) : Except RecvError (Mem × List PackPerData × Nat × Bool) :=
  match io.pPrevIOData with
  | none => .ok (s.mem, s.m_RecvBuf, io.len, false)
  | some p => do
    let d ← s.buf cur
    let prev ← s.buf p
    if prev.m_nExtendLen > 0 then do
      let j ← PackPerData.joinPrev s.mem d.m_frame.m_buf prev io.len
      .ok (j.mem, s.m_RecvBuf.set p j.prev, j.len, j.nFlag)
    else .ok (s.mem, s.m_RecvBuf, io.len, false)

/-- `RecvData` of the buffer at `cur`: the session, its result and `nFlag`. -/
def recvData (s : RecvSession) (cur : Nat) (io : TmpPerIO) : Except RecvError (RecvSession × Int × Bool) := do
  let (m, bufs, len, nFlag) ← s.joinData cur io
  let s := { s with mem := m, m_RecvBuf := bufs }
  let d ← s.buf cur
  let (d, req, ret) ← d.recvOwn s.mem io.pBuf len io.pPrevIOData
  .ok (s.store cur d req, ret, nFlag)

/-- A frame joins those of its timestamp. -/
def enterIn (m : Mem) (map : StdMap Int (List MsgFrame)) (f : MsgFrame) : StdMap Int (List MsgFrame) :=
  let key := frameKey m f.m_buf
  match map.find? key with
  | some fs => map.set key (fs ++ [f])
  | none => map.insert key [f]

def enterFrame (s : RecvSession) (f : MsgFrame) : RecvSession := { s with m_mapFrames := enterIn s.mem s.m_mapFrames f }

/-- The frame of the buffer before, when it is complete. The timestamp is that of the last frame
entered, if any (`bComplateOne`). -/
def takePrev (s : RecvSession) (cur : Nat) (nFlag : Bool) : Except RecvError (RecvSession × Option Int) :=
  if nFlag then do
    let d ← s.buf cur
    match d.m_pPrevPerData with
    | none => .ok (s, none)
    | some p => do
      let prev ← s.buf p
      let prev ← s.buf prev.m_index
      let f := prev.getCurComplateFrame s.mem
      .ok (s.enterFrame f, some (frameKey s.mem f.m_buf))
  else .ok (s, none)

/-- The frames of this buffer, when the first one is complete. -/
def takeOwn (s : RecvSession) (cur : Nat) (ret : Int) (stamp : Option Int) : Except RecvError (RecvSession × Option Int) := do
  let d ← s.buf cur
  if ret ≥ 0 ∧ d.m_isFinish then
    let (d, others) := (d.setNoticeStatus false).getOtherFrameCount s.mem
    let frames := d.getCurComplateFrame s.mem :: others
    let s := s.store cur d none
    .ok (frames.foldl enterFrame s, (frames.getLast?.map fun f => frameKey s.mem f.m_buf).orElse fun _ => stamp)
  else .ok (s, stamp)

/-- What a completed request brings: the session, the timestamp of the last frame entered, and `bFlag`:
that only the frame of the buffer before is complete. -/
def takeData (s : RecvSession) (cur : Nat) (io : TmpPerIO) : Except RecvError (RecvSession × Option Int × Bool) := do
  let (s, ret, nFlag) ← s.recvData cur io
  let (s, stamp) ← s.takePrev cur nFlag
  let (s, stamp) ← s.takeOwn cur ret stamp
  .ok (s, stamp, nFlag && decide (ret > 0))

/-! ## Going on -/

/-- Where the next request goes when the last package is not complete. The frames of the package are
`frames`, in the order of their buffers; the places have four bits. -/
def nextPlace (s : RecvSession) (cur : Nat) (frames : List MsgFrame) : RecvSession :=
  if s.m_rPostIndex + 1 = s.m_RecvBuf.length then
    let nIndex := (frames.head?.map (·.m_index)).getD (-1)
    if nIndex > 0 then { s with
      m_RecvBuf := s.m_RecvBuf.mapIdx fun i d => d.resetIndex i
      m_rPostIndex := (((cur : Int) - nIndex + 1) % 16).toNat }
    else s
  else { s with m_rPostIndex := (s.m_rPostIndex + 1) % 16 }

/-- After the last frame, which has the timestamp `stamp`: the next request is posted, or its package is
complete (`bFinshPackage`). -/
def postNext (s : RecvSession) (cur : Nat) (stamp : Int) : Except RecvError (RecvSession × Bool) :=
  match s.m_mapFrames.find? stamp with
  | none => .ok ({ s with m_rPostIndex := 0 }, true)
  | some [] => .error .outOfRange
  | some (f :: fs) =>
    if (f :: fs).length < totalFrames s.mem f then do
      let d ← s.buf cur
      let pExtendStart := if d.m_nExtendLen > 0 then some cur else none
      let frames := h.sort (f :: fs)
      let s := { s with m_mapFrames := s.m_mapFrames.set stamp frames }
      let s := s.nextPlace cur frames
      let d ← s.buf s.m_rPostIndex
      let (d, req) := d.postRecv pExtendStart
      .ok (s.store s.m_rPostIndex d req, false)
    else .ok ({ s with m_rPostIndex := 0 }, true)

/-- The frames of an entry that is complete. -/
def isComplete (m : Mem) (fs : List MsgFrame) : Bool :=
  match fs with
  | [] => false
  | f :: _ => fs.length = totalFrames m f

/-- The loop that looks for a complete entry. -/
def hasComplete (m : Mem) : List (Int × List MsgFrame) → Except RecvError Bool
  | [] => .ok false
  | (key, fs) :: rest =>
    if fs.any fun f => frameKey m f.m_buf ≠ key then .error (.thrown "error")
    else if fs = [] then .error .outOfRange
    else if isComplete m fs then .ok true
    else hasComplete m rest

/-- `vecFrames`: the complete entries. -/
def completeEntries (m : Mem) : List (Int × List MsgFrame) → Except RecvError (List (List MsgFrame))
  | [] => .ok []
  | (key, fs) :: rest =>
    if fs = [] then .error .outOfRange
    else if isComplete m fs then
      if fs.any fun f => frameKey m f.m_buf ≠ key then .error (.thrown "xxx")
      else do
        let more ← completeEntries m rest
        .ok (fs :: more)
    else completeEntries m rest

/-! ## Handing out -/

/-- `setMsgFrames`: the data of the frames one after the other, in memory of `m_len` bytes. -/
def setMsgFrames (m : Mem) (m_len : Nat) : List MsgFrame → List UInt8 → Except RecvError (List UInt8)
  | [], data => .ok data
  | f :: fs, data =>
    let nDataLen := (MsgHead.load m f.m_buf).nDataLen.toNat
    if data.length > m_len ∨ data.length + nDataLen > m_len then
      .error (.thrown "setMsgFrames the recv data datalen not same as dataLen")
    else setMsgFrames m m_len fs (data ++ read m (f.m_buf + 24) nDataLen)

/-- A complete package. -/
def handOutOne (s : RecvSession) (frames : List MsgFrame) : Except RecvError RecvSession :=
  match frames with
  | [] => .ok s
  | f :: _ =>
    let head := MsgHead.load s.mem f.m_buf
    let totalLen := head.tDataLen.toNat
    let tSrcLen := head.tSrcLen.toNat
    if totalLen > 0 then
      if h.setPackageInfo totalLen tSrcLen then
        -- nothing is copied to memory that could not be allocated
        if h.alloc tSrcLen then do
          let data ← setMsgFrames s.mem tSrcLen frames []
          if totalLen = data.length then
            match h.process data with
            | none => .ok s
            | some data =>
              if isBaseProtocolPackage head.nProtoType then .ok (s.parseBaseProtocol now head.nProtoType)
              else .ok { s with m_recvQueue := s.m_recvQueue ++ [⟨data, tSrcLen⟩] }
          else .ok s
        else .ok s
      else .ok s
    else if isBaseProtocolPackage head.nProtoType then .ok (s.parseBaseProtocol now head.nProtoType)
    else .ok s

/-- The first buffer with bytes left over. -/
def firstExtend (s : RecvSession) : Option Nat := s.m_RecvBuf.findIdx? fun d => d.m_nExtendLen > 0

/-- `nLastIndex`, looked for when the bytes left over are in the last buffer: the place of the first frame
behind the last complete package, or of its last one. -/
def lastIndex (s : RecvSession) (vecFrames : List (List MsgFrame)) : Except RecvError (RecvSession × Int) :=
  match vecFrames.getLast? with
  | some (f :: _) =>
    let key := frameKey s.mem f.m_buf
    match s.m_mapFrames.find? key with
    | none => .error (.thrown "unknow error")
    | some fs =>
      match s.m_mapFrames.entries.find? fun e => key < e.1 with
      | some (next, fs) =>
        let fs := h.sortMany fs
        .ok ({ s with m_mapFrames := s.m_mapFrames.set next fs }, (fs.head?.map (·.m_index)).getD (-1))
      | none =>
        let fs := h.sortMany fs
        .ok ({ s with m_mapFrames := s.m_mapFrames.set key fs }, (fs.getLast?.map (·.m_index)).getD (-1))
  | _ => .error .outOfRange

/-- `nLastIndex` matters only when the bytes left over are in the last buffer. -/
def lastPlace (s : RecvSession) (nIndex : Option Nat) (vecFrames : List (List MsgFrame)) : Except RecvError (RecvSession × Int) :=
  if nIndex.map (· + 1) = some s.m_RecvBuf.length then lastIndex h s vecFrames else .ok (s, -1)

/-- The entries that are handed out leave the map. -/
def eraseEntries (s : RecvSession) : List (List MsgFrame) → Except RecvError RecvSession
  | [] => .ok s
  | [] :: _ => .error .outOfRange
  | (f :: _) :: rest =>
    let key := frameKey s.mem f.m_buf
    match s.m_mapFrames.find? key with
    | none => .error (.thrown "unknow error")
    | some _ => eraseEntries { s with m_mapFrames := s.m_mapFrames.erase key } rest

/-- `ResetRecvFlagInfo`. -/
def resetRecvFlagInfo (s : RecvSession) (nIndex : Int) : RecvSession :=
  if nIndex ≥ 0 ∧ nIndex < s.m_RecvBuf.length then
    { s with m_RecvBuf := s.m_RecvBuf.mapIdx fun i d => if (i : Int) < nIndex then { d with m_pPrevPerData := none } else d }
  else s

/-- Where the next request goes after a complete package: behind the bytes left over, if any. -/
def placeAfter (s : RecvSession) (nIndex : Option Nat) (nLastIndex : Int) : Except RecvError (RecvSession × Int) :=
  match nIndex with
  | none => .ok (s, 0)
  | some i =>
    if i + 1 = s.m_RecvBuf.length then
      if nLastIndex > 0 then
        .ok ({ s with m_RecvBuf := s.m_RecvBuf.mapIdx fun i d => d.resetIndex i }, (i : Int) - nLastIndex + 1)
      else .error (.thrown "need new more memory")
    else .ok (s, (i : Int) + 1)

/-- The request after a complete package; the place has four bits, also as an argument. -/
def postAfter (s : RecvSession) (place : Int) (nIndex : Option Nat) : Except RecvError RecvSession :=
  let s := s.resetRecvFlagInfo place
  postRecv { s with m_rPostIndex := (place % 16).toNat } (place % 16) nIndex

/-- The second half of `ParseData`, when a package is complete. -/
def handOut (s : RecvSession) (bFinshPackage : Bool) : Except RecvError RecvSession := do
  let vecFrames ← completeEntries s.mem s.m_mapFrames.entries
  let nIndex := s.firstExtend
  let (s, nLastIndex) ← s.lastPlace h nIndex vecFrames
  let s ← s.eraseEntries vecFrames
  let s ← vecFrames.foldlM (handOutOne h now) s
  let (s, place) ← s.placeAfter nIndex nLastIndex
  if bFinshPackage then s.postAfter place nIndex else .ok s

/-- After the last frame, unless that was the one of the buffer before and a request is posted already. -/
def goOn (s : RecvSession) (cur : Nat) (stamp : Int) (bFlag : Bool) : Except RecvError (RecvSession × Bool) :=
  if bFlag then .ok (s, false) else postNext h s cur stamp

/-- What is complete is handed out. -/
def deliver (s : RecvSession) (bFinshPackage : Bool) : Except RecvError RecvSession := do
  let bfinishR ← hasComplete s.mem s.m_mapFrames.entries
  if bfinishR then handOut h now s bFinshPackage else .ok s

/-- One pass of the loop of `ParseData`. -/
def parseOne (s : RecvSession) (io : TmpPerIO) : Except RecvError RecvSession :=
  if io.nIndex < s.m_RecvBuf.length then do
    let (s, stamp, bFlag) ← s.takeData io.nIndex io
    match stamp with
    | none => .ok s
    | some stamp => do
      let (s, bFinshPackage) ← goOn h s io.nIndex stamp bFlag
      deliver h now s bFinshPackage
  else .ok s

/-- `ParseData`. -/
def parseData (s : RecvSession) : Except RecvError RecvSession := do
  let s ← s.m_perIoDatas.foldlM (parseOne h now) s
  .ok { s with m_perIoDatas := [] }

/-! ## Runs -/

inductive Action
  | arrive (bs : List UInt8)
  | parse (now : Int)

/-- The network completes the request posted first with `bs`, as many bytes as it asks for at most. -/
def complete (s : RecvSession) (bs : List UInt8) : Except RecvError RecvSession :=
  match s.posted with
  | [] => .error .waiting
  | req :: posted =>
    if bs = [] ∨ bs.length > req.len then .error .waiting
    else dispatchData { s with mem := write s.mem req.pStart bs, posted := posted } ⟨req.nIndex, bs.length, req.pStart, req.pExtend⟩

def step (s : RecvSession) : Action → Except RecvError RecvSession
  | .arrive bs => s.complete bs
  | .parse now => s.parseData h now

end RecvSession
