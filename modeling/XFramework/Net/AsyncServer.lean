/-
The completion queue of the Linux server (Net/AsyncNetDefine.h,
Net/AsyncServer.h, Net/AsyncServer.cpp, Net/AsyncNetServerImpl_Linux.cpp).

Requests wait in a queue of their socket. A task of the thread pool takes the
front of the queue, calls `recv` or `send` and puts what is complete into
`m_data`, from where the dispatch thread takes it.

What `recv` and `send` return is not in the source: a task is given the
results it gets. A task that waits for more has not ended.
-/
import XFramework.Lib.Bytes
import XFramework.Lib.StdMap

open Bytes

namespace AsyncNet

inductive OpType
  | OP_ACCEPT
  | OP_EXIT
  | OP_READ
  | OP_WRITE
  deriving DecidableEq

/-- A request for memory to be filled or sent. `none` is `NULL`. -/
structure MemNode where
  pData : Option Int
  nCount : Nat
  nTrans : Nat
  nSize : Nat
  nIndex : Int
  m_pPrevIOData : Option Nat
  oType : OpType
  deriving DecidableEq

/-- A request together with its socket and that of the server; -1 is none. -/
structure SPostReq extends MemNode where
  cSock : Int
  sSock : Int
  ip : String
  deriving DecidableEq

/-- A request as a session posts it. -/
structure CPostReq extends MemNode where
  cSock : Int
  deriving DecidableEq

namespace MemNode

def valid (n : MemNode) : Bool := n.pData.isSome && n.nCount != 0

/-- The fields `Reset` sets. -/
def reset (n : MemNode) : MemNode := if n.pData.isSome then { n with nTrans := 0, m_pPrevIOData := none } else n

/-- The bytes `Reset` clears. -/
def clear (n : MemNode) (m : Mem) : Mem :=
  match n.pData with
  | some p => write m p (List.replicate n.nSize 0)
  | none => m

end MemNode

def SPostReq.valid (r : SPostReq) : Bool := r.cSock != -1 && r.sSock != -1

/-- What C++ leaves undefined, and a call that does not return. -/
inductive IoFault
  | undefined
  | waiting
  deriving DecidableEq

/-- The queues of the sockets. -/
abbrev DispatchData := StdMap Int (List MemNode)

namespace DispatchData

def appendNew (q : DispatchData) (sock : Int) : DispatchData := q.insert sock []

def deleteOut (q : DispatchData) (sock : Int) : DispatchData := q.erase sock

/-- A request for a socket that is not known is dropped. -/
def appendData (q : DispatchData) (sock : Int) (node : MemNode) : DispatchData :=
  match q.find? sock with
  | some l => q.set sock (l ++ [node])
  | none => q

def pushBack (q : DispatchData) (sock : Int) (node : MemNode) : DispatchData :=
  match q.find? sock with
  | some l => q.set sock (node :: l)
  | none => q

/-- The front of an empty list is taken without a test. -/
def getAndPopFront (q : DispatchData) (sock : Int) : Except IoFault (DispatchData × Option MemNode) :=
  match q.find? sock with
  | some [] => .error .undefined
  | some (node :: l) => .ok (q.set sock l, some node)
  | none => .ok (q, none)

/-- The requests in the queue of a socket. -/
def waiting (q : DispatchData) (sock : Int) : List MemNode := (q.find? sock).getD []

variable {q q' : DispatchData} {sock sock' : Int} {node : MemNode}

theorem waiting_appendNew : waiting (appendNew q sock) sock' = waiting q sock' := by
  rw [waiting, waiting, appendNew]
  by_cases hs : sock' = sock
  · subst hs
    cases hf : q.find? sock' with
    | none => rw [StdMap.find?_insert_new hf]; rfl
    | some l => rw [StdMap.find?_insert_old hf]
  · rw [StdMap.find?_insert_ne hs]

theorem waiting_deleteOut : waiting (deleteOut q sock) sock = [] := by
  rw [waiting, deleteOut, StdMap.find?_erase_self]
  rfl

theorem waiting_deleteOut_ne (hs : sock' ≠ sock) : waiting (deleteOut q sock) sock' = waiting q sock' := by
  rw [waiting, waiting, deleteOut, StdMap.find?_erase_ne hs]

theorem waiting_appendData : waiting (appendData q sock node) sock =
    if (q.find? sock).isSome then waiting q sock ++ [node] else waiting q sock := by
  rw [waiting, waiting, appendData]
  cases hf : q.find? sock with
  | none => simp [hf]
  | some l => simp [StdMap.find?_set_self hf]

theorem waiting_appendData_ne (hs : sock' ≠ sock) : waiting (appendData q sock node) sock' = waiting q sock' := by
  rw [waiting, waiting, appendData]
  cases q.find? sock with
  | none => rfl
  | some l => simp only [StdMap.find?_set_ne hs]

theorem waiting_pushBack : waiting (pushBack q sock node) sock <:+ node :: waiting q sock := by
  rw [waiting, waiting, pushBack]
  cases hf : q.find? sock with
  | none => simp [hf]
  | some l => simp [StdMap.find?_set_self hf]

theorem waiting_pushBack_ne (hs : sock' ≠ sock) : waiting (pushBack q sock node) sock' = waiting q sock' := by
  rw [waiting, waiting, pushBack]
  cases q.find? sock with
  | none => rfl
  | some l => simp only [StdMap.find?_set_ne hs]

theorem waiting_pop {n : Option MemNode} (h : getAndPopFront q sock = .ok (q', n)) :
    waiting q sock = n.toList ++ waiting q' sock ∧ (∀ sock', sock' ≠ sock → waiting q' sock' = waiting q sock') ∧
      (n = none → waiting q sock = []) := by
  rw [getAndPopFront] at h
  cases hf : q.find? sock with
  | none =>
    rw [hf] at h
    cases h
    exact ⟨rfl, fun _ _ => rfl, fun _ => by rw [waiting, hf]; rfl⟩
  | some l =>
    rw [hf] at h
    cases l with
    | nil => cases h
    | cons node l =>
      cases h
      refine ⟨?_, fun sock' hs => ?_, fun hn => by cases hn⟩
      · rw [waiting, waiting, hf, StdMap.find?_set_self hf]
        rfl
      · rw [waiting, waiting, StdMap.find?_set_ne hs]

end DispatchData

/-- `closed` are the descriptors it has closed. -/
structure AsyncServer where
  mem : Mem
  m_bRun : Bool
  m_serSocket : Nat
  m_data : List SPostReq
  m_ReadQue : DispatchData
  m_WriteQue : DispatchData
  closed : List Nat

/-- `EAGAIN` of Linux. -/
def EAGAIN : Int := 11

/-- What `recv` reports: bytes, that there are none yet, or that the peer has closed. -/
inductive RecvResult
  | data (bs : List UInt8)
  | wouldBlock
  | closed
  deriving DecidableEq

/-- A task that has ended: the server, the requests it took from the queue, what it published for
them, and the bytes `recv` has returned. -/
structure TaskRun where
  server : AsyncServer
  taken : List MemNode
  published : List SPostReq
  received : List UInt8

namespace AsyncServer

/-- `SPostReq(node)` with the sockets of a task. -/
def toReq (node : MemNode) (cSock sSock : Int) : SPostReq := ⟨node, cSock, sSock, ""⟩

def produceNode (s : AsyncServer) (node : SPostReq) : AsyncServer :=
  if s.m_bRun then { s with m_data := s.m_data ++ [node] } else s

/-- The request of a node that says no more than its type. -/
def notice (s : AsyncServer) (fd : Nat) (ip : String) (t : OpType) : SPostReq :=
  ⟨⟨none, 0, 0, 0, -1, none, t⟩, fd, s.m_serSocket, ip⟩

def fdDel (s : AsyncServer) (fd : Nat) : AsyncServer :=
  { s with
    closed := s.closed ++ [fd]
    m_ReadQue := DispatchData.deleteOut s.m_ReadQue fd
    m_WriteQue := DispatchData.deleteOut s.m_WriteQue fd }.produceNode (s.notice fd "" .OP_EXIT)

def postQuestRead (s : AsyncServer) (sock : Int) (node : MemNode) : AsyncServer :=
  if s.m_bRun then { s with m_ReadQue := DispatchData.appendData s.m_ReadQue sock node } else s

def postQuestWrite (s : AsyncServer) (sock : Int) (node : MemNode) : AsyncServer :=
  if s.m_bRun then { s with m_WriteQue := DispatchData.appendData s.m_WriteQue sock node } else s

def pushRead (s : AsyncServer) (sock : Int) (node : MemNode) : AsyncServer :=
  { s with m_ReadQue := DispatchData.pushBack s.m_ReadQue sock node }

/-- When `recv` returns -1 with `nCount` bytes of the node filled. -/
def readFailed (s : AsyncServer) (fd : Nat) (node : MemNode) (nCount : Nat) : AsyncServer :=
  if EAGAIN = -1 then
    if nCount > 0 then s.produceNode (toReq { node with nTrans := nCount } (-1) (-1)) else s.pushRead fd node
  else s.pushRead fd node

/-- The loop of `PostSockReader`, with `nCount` bytes of the node filled. To be asked for no byte,
`recv` returns 0, as it does when the peer has closed. -/
def readLoop (fd : Nat) : List RecvResult → AsyncServer → MemNode → Nat → Except IoFault TaskRun
  | results, s, node, nCount =>
    if node.nCount - nCount = 0 then .ok ⟨s.fdDel fd, [], [], []⟩
    else
      match results with
      | [] => .error .waiting
      | .wouldBlock :: _ => .ok ⟨s.readFailed fd node nCount, [], [], []⟩
      | .closed :: _ => .ok ⟨s.fdDel fd, [], [], []⟩
      | .data bs :: rest =>
        let s := { s with mem := write s.mem (node.pData.getD 0 + nCount) bs }
        if bs.length = node.nCount then do
          let req := toReq { node with nTrans := node.nCount } fd s.m_serSocket
          let s := s.produceNode req
          let s := { s with mem := node.clear s.mem }
          match ← DispatchData.getAndPopFront s.m_ReadQue fd with
          | (_, none) => .ok ⟨s, [], [req], bs⟩
          | (q, some next) =>
            let s := { s with m_ReadQue := q }
            if next.valid then do
              let r ← readLoop fd rest s next 0
              .ok ⟨r.server, next :: r.taken, req :: r.published, bs ++ r.received⟩
            else .ok ⟨s, [next], [req], bs⟩
        else do
          let r ← readLoop fd rest s node (nCount + bs.length)
          .ok ⟨r.server, r.taken, r.published, bs ++ r.received⟩

/-- `PostSockReader`. -/
def readTask (s : AsyncServer) (fd : Nat) (results : List RecvResult) : Except IoFault TaskRun := do
  match ← DispatchData.getAndPopFront s.m_ReadQue fd with
  | (_, none) => .ok ⟨s, [], [], []⟩
  | (q, some node) =>
    let s := { s with m_ReadQue := q }
    if node.valid then do
      let r ← readLoop fd results { s with mem := node.clear s.mem } node.reset 0
      .ok { r with taken := node.reset :: r.taken }
    else .ok ⟨s, [node], [], []⟩

/-- `PostSockWriter`; `wLen` is what `send` returns. -/
def writeTask (s : AsyncServer) (fd : Nat) (wLen : Int) : Except IoFault TaskRun := do
  match ← DispatchData.getAndPopFront s.m_WriteQue fd with
  | (_, none) => .ok ⟨s, [], [], []⟩
  | (q, some node) =>
    let s := { s with m_WriteQue := q }
    if node.valid then
      if wLen ≤ 0 then .ok ⟨{ s with m_WriteQue := DispatchData.pushBack s.m_WriteQue fd node }, [node], [], []⟩
      else
        let req := toReq { node with nTrans := wLen.toNat } fd s.m_serSocket
        .ok ⟨s.produceNode req, [node], [req], []⟩
    else .ok ⟨s, [node], [], []⟩

/-- `GetQueueComplateStatus`: waits while there is nothing. -/
def getQueueComplateStatus (s : AsyncServer) : Option (AsyncServer × SPostReq × Bool) :=
  match s.m_data with
  | [] => none
  | req :: rest => if s.m_bRun then some ({ s with m_data := rest }, req, req.valid) else some (s, req, false)

end AsyncServer

end AsyncNet
