/-
What becomes of a posted request on Linux (Net/TcpServerImpl_Linux.cpp).

`PostRecvReq` and `PostSendReq` write the socket into the node they are given
and queue the node: the buffer, the index and the previous buffer they are
given too are dropped. So a request is served as it was posted when the node
says all that already, and when no request that names a previous buffer is the
first one a task takes, for that one is reset (`contract_run`).

A run notes for every request in a queue the call that posted it, for every
request a task takes what became of it (`Served`), and what `EpollThread`
calls.
-/
import XFramework.Net.AsyncRead

open Fallible

namespace AsyncNet

/-- A call of `PostRecvReq` or `PostSendReq`; `pExtend` is of the first only. -/
structure Post where
  fd : Nat
  pStart : Int
  len : Nat
  nIndex : Int
  pExtend : Option Nat
  node : CPostReq
  deriving DecidableEq

/-- What `EpollThread` calls for a completed request. -/
inductive EpollCall
  | appendNewClient (sock : Int) (ip : String)
  | removeClient (sock : Int) (ip : String)
  | recvClientData (sock : Int) (pBuf : Option Int) (len : Nat) (nIndex : Int) (pPrev : Option Nat)
  | activateWrite (sock : Int) (index : Int) (pBuf : Option Int) (len : Nat)
  deriving DecidableEq

/-- The switch of `EpollThread`. -/
def epollCall (req : SPostReq) : EpollCall :=
  match req.oType with
  | .OP_ACCEPT => .appendNewClient req.cSock req.ip
  | .OP_EXIT => .removeClient req.cSock req.ip
  | .OP_READ => .recvClientData req.cSock req.pData req.nTrans req.nIndex req.m_pPrevIOData
  | .OP_WRITE => .activateWrite req.cSock req.nIndex req.pData req.nTrans

namespace AsyncServer

/-- `PostRecvReq`. -/
def postRecvReq (s : AsyncServer) (p : Post) : AsyncServer :=
  let pReq := { p.node with cSock := p.fd }
  s.postQuestRead p.fd pReq.toMemNode

/-- `PostSendReq`. -/
def postSendReq (s : AsyncServer) (p : Post) : AsyncServer :=
  let pReq := { p.node with cSock := p.fd }
  s.postQuestWrite p.fd pReq.toMemNode

/-- What `HandleThread` does for a new client. -/
def accept (s : AsyncServer) (fd : Nat) (ip : String) : AsyncServer :=
  let s := s.produceNode (s.notice fd ip .OP_ACCEPT)
  { s with
    m_ReadQue := DispatchData.appendNew s.m_ReadQue fd
    m_WriteQue := DispatchData.appendNew s.m_WriteQue fd }

/-- The write requests that wait for a socket. -/
def writeQueue (s : AsyncServer) (fd : Nat) : List MemNode := DispatchData.waiting s.m_WriteQue fd

/-! ## Runs -/

/-- A request that a task took: the call that posted it, the request as the task worked on it, and
what it published for it. -/
structure Served where
  post : Post
  node : MemNode
  req : Option SPostReq

/-- The server, the calls that posted the requests in its queues, the requests its tasks have
taken, and the calls `EpollThread` has made. -/
structure Trace where
  server : AsyncServer
  readers : Nat → List Post
  writers : Nat → List Post
  reads : List Served
  writes : List Served
  calls : List EpollCall

inductive Action
  | accept (fd : Nat) (ip : String)
  | postRecv (p : Post)
  | postSend (p : Post)
  | read (fd : Nat) (results : List RecvResult)
  | write (fd : Nat) (wLen : Int)
  | dispatch

/-- What a task has done for the requests it took. -/
def serve : List Post → List MemNode → List SPostReq → List Served
  | p :: posts, n :: taken, [] => ⟨p, n, none⟩ :: serve posts taken []
  | p :: posts, n :: taken, c :: published => ⟨p, n, some c⟩ :: serve posts taken published
  | _, _, _ => []

/-- The calls that posted what is left in a queue: requests leave it at its front. -/
def leftIn (queue : List MemNode) (posts : List Post) : List Post := posts.drop (posts.length - queue.length)

/-- A request joins the queue of a socket that is known. -/
def joins (q : DispatchData) (posts : List Post) (p : Post) : List Post :=
  if (q.find? p.fd).isSome then posts ++ [p] else posts

def Trace.step (t : Trace) : Action → Except IoFault Trace
  | .accept fd ip => .ok { t with server := t.server.accept fd ip }
  | .postRecv p => .ok { t with
      server := t.server.postRecvReq p
      readers := Function.update t.readers p.fd (joins t.server.m_ReadQue (t.readers p.fd) p) }
  | .postSend p => .ok { t with
      server := t.server.postSendReq p
      writers := Function.update t.writers p.fd (joins t.server.m_WriteQue (t.writers p.fd) p) }
  | .read fd results => do
    let r ← t.server.readTask fd results
    .ok { t with
      server := r.server
      readers := Function.update t.readers fd (leftIn (r.server.queue fd) (t.readers fd))
      writers := Function.update t.writers fd (leftIn (r.server.writeQueue fd) (t.writers fd))
      reads := t.reads ++ serve (t.readers fd) r.taken r.published }
  | .write fd wLen => do
    let r ← t.server.writeTask fd wLen
    .ok { t with
      server := r.server
      readers := Function.update t.readers fd (leftIn (r.server.queue fd) (t.readers fd))
      writers := Function.update t.writers fd (leftIn (r.server.writeQueue fd) (t.writers fd))
      writes := t.writes ++ serve (t.writers fd) r.taken r.published }
  | .dispatch =>
    match t.server.getQueueComplateStatus with
    | some (s, req, true) => .ok { t with server := s, calls := t.calls ++ [epollCall req] }
    | some (s, _, false) => .ok { t with server := s }
    | none => .error .waiting

/-- The contract of a request: what the task takes is the buffer posted, and what `EpollThread` calls
when it is complete is `call` of the post and no more bytes than posted. -/
def Contract (call : Post → Nat → EpollCall) (e : Served) : Prop :=
  e.node.pData = some e.post.pStart ∧ e.node.nCount = e.post.len ∧
    ∀ c, e.req = some c → c.valid = true ∧ ∃ n ≤ e.post.len, epollCall c = call e.post n

/-- The call for a read request. -/
def readCall (p : Post) (n : Nat) : EpollCall := .recvClientData p.fd (some p.pStart) n p.nIndex p.pExtend

/-- The call for a write request. -/
def writeCall (p : Post) (n : Nat) : EpollCall := .activateWrite p.fd p.nIndex (some p.pStart) n

/-- What a run must show: the contract of every request taken, and that every call for data is for
one of them. -/
structure Implements (t : Trace) : Prop where
  reads : ∀ e ∈ t.reads, Contract readCall e
  writes : ∀ e ∈ t.writes, Contract writeCall e
  calls : ∀ c ∈ t.calls, (∃ e ∈ t.reads ++ t.writes, e.req.map epollCall = some c) ∨
    (∃ sock ip, c = .appendNewClient sock ip) ∨ ∃ sock ip, c = .removeClient sock ip

/-- The node says what the call asks for. -/
structure Says (type : OpType) (p : Post) (n : MemNode) : Prop where
  start : n.pData = some p.pStart
  len : n.nCount = p.len
  index : n.nIndex = p.nIndex
  prev : type = .OP_READ → n.m_pPrevIOData = p.pExtend
  isType : n.oType = type

/-- When a step keeps the contract: a node that is posted says what the call asks for, and the first
request a read task takes names no previous buffer. What `send` returns is no more than it was asked
to send. -/
def Keeps (t : Trace) : Action → Prop
  | .postRecv p => Says .OP_READ p p.node.toMemNode
  | .postSend p => Says .OP_WRITE p p.node.toMemNode
  | .read fd _ => ∀ n, (t.server.queue fd).head? = some n → n.m_pPrevIOData = none
  | .write fd wLen => ∀ n, (t.server.writeQueue fd).head? = some n → wLen ≤ n.nCount
  | _ => True

/-! ## The posts of the requests in a queue -/

section

variable {R : Post → MemNode → Prop} {posts : List Post} {nodes taken q : List MemNode} {published : List SPostReq}
  {f : MemNode → SPostReq} {e : Served}

theorem forall₂_leftIn (h : List.Forall₂ R posts nodes) (hq : q <:+ nodes) : List.Forall₂ R (leftIn q posts) q := by
  obtain ⟨gone, rfl⟩ := hq
  have hlen : posts.length - q.length = gone.length := by
    rw [h.length_eq, List.length_append, Nat.add_sub_cancel]
  have hdrop := List.forall₂_drop gone.length h
  rw [List.drop_left] at hdrop
  rwa [leftIn, hlen]

/-- Every request served is one taken, with its post, and what is published for it is made of it. -/
theorem serve_spec (h : List.Forall₂ R posts nodes) (ht : taken <+: nodes) (hp : published <+: taken.map f)
    (he : e ∈ serve posts taken published) : R e.post e.node ∧ e.node ∈ taken ∧ ∀ c, e.req = some c → c = f e.node := by
  induction h generalizing taken published with
  | nil =>
    rw [List.prefix_nil.1 ht] at he
    cases he
  | cons hab hrest ih =>
    cases taken with
    | nil => cases he
    | cons n taken =>
      obtain ⟨rfl, ht'⟩ := List.cons_prefix_cons.1 ht
      cases published with
      | nil =>
        rcases List.mem_cons.1 he with rfl | he'
        · exact ⟨hab, List.mem_cons_self, fun c hc => by cases hc⟩
        · obtain ⟨hR, hmem, hreq⟩ := ih ht' List.nil_prefix he'
          exact ⟨hR, List.mem_cons_of_mem _ hmem, hreq⟩
      | cons c published =>
        obtain ⟨rfl, hp'⟩ := List.cons_prefix_cons.1 hp
        rcases List.mem_cons.1 he with rfl | he'
        · exact ⟨hab, List.mem_cons_self, fun c hc => (Option.some.inj hc).symm⟩
        · obtain ⟨hR, hmem, hreq⟩ := ih ht' hp' he'
          exact ⟨hR, List.mem_cons_of_mem _ hmem, hreq⟩

/-- All that is published is published for a request taken. -/
theorem published_serve (h : List.Forall₂ R posts nodes) (ht : taken <+: nodes) (hp : published <+: taken.map f) :
    ∀ c ∈ published, ∃ e ∈ serve posts taken published, e.req = some c := by
  induction h generalizing taken published with
  | nil =>
    rw [List.prefix_nil.1 ht] at hp
    rw [List.prefix_nil.1 hp]
    exact fun c hc => absurd hc List.not_mem_nil
  | cons hab hrest ih =>
    cases taken with
    | nil =>
      rw [List.prefix_nil.1 hp]
      exact fun c hc => absurd hc List.not_mem_nil
    | cons n taken =>
      obtain ⟨rfl, ht'⟩ := List.cons_prefix_cons.1 ht
      cases published with
      | nil => exact fun c hc => absurd hc List.not_mem_nil
      | cons c published =>
        obtain ⟨rfl, hp'⟩ := List.cons_prefix_cons.1 hp
        intro c hc
        rcases List.mem_cons.1 hc with rfl | hc'
        · exact ⟨_, List.mem_cons_self, rfl⟩
        · obtain ⟨e, he, hec⟩ := ih ht' hp' c hc'
          exact ⟨e, List.mem_cons_of_mem _ he, hec⟩

end

/-! ## What a task does to the queues -/

/-- A task for `fd` keeps all but the queues of `fd`, of which it leaves the end: `rs` and `ws` are what
it began with, in its hands or in the queues. -/
structure Works (fd : Nat) (s : AsyncServer) (rs ws : List MemNode) (r : TaskRun) : Prop where
  running : r.server.m_bRun = true
  data : ∃ out, r.server.m_data = s.m_data ++ r.published ++ out ∧ ∀ c ∈ out, c.oType = .OP_EXIT
  left : r.server.queue fd <:+ rs
  leftWrite : r.server.writeQueue fd <:+ ws
  reads : ∀ fd', fd' ≠ fd → r.server.queue fd' = s.queue fd'
  writes : ∀ fd', fd' ≠ fd → r.server.writeQueue fd' = s.writeQueue fd'

/-- It takes the first of the requests and publishes `f` of the first of these. -/
structure Takes (nodes : List MemNode) (f : MemNode → SPostReq) (r : TaskRun) : Prop where
  taken : r.taken <+: nodes
  published : r.published <+: r.taken.map f

variable {fd : Nat} {s : AsyncServer} {node : MemNode} {rs ws nodes : List MemNode} {r : TaskRun} {results : List RecvResult}

theorem works_self (h : s.m_bRun = true) {taken : List MemNode} {bs : List UInt8} :
    Works fd s (s.queue fd) (s.writeQueue fd) ⟨s, taken, [], bs⟩ :=
  ⟨h, ⟨[], by simp, by simp⟩, List.suffix_rfl, List.suffix_rfl, fun _ _ => rfl, fun _ _ => rfl⟩

theorem works_fdDel (h : s.m_bRun = true) : Works fd s rs ws ⟨s.fdDel fd, [], [], []⟩ := by
  have hdel : s.fdDel fd = { s with
      closed := s.closed ++ [fd]
      m_ReadQue := DispatchData.deleteOut s.m_ReadQue fd
      m_WriteQue := DispatchData.deleteOut s.m_WriteQue fd
      m_data := s.m_data ++ [s.notice fd "" .OP_EXIT] } := produceNode_running (by exact h) _
  rw [hdel]
  refine ⟨h, ⟨[s.notice fd "" .OP_EXIT], by simp, ?_⟩, ?_, ?_, fun fd' hne => ?_, fun fd' hne => ?_⟩
  · intro c hc
    rw [List.mem_singleton.1 hc]
    rfl
  · rw [queue, ← DispatchData.waiting, DispatchData.waiting_deleteOut]
    exact List.nil_suffix
  · rw [writeQueue, DispatchData.waiting_deleteOut]
    exact List.nil_suffix
  · exact DispatchData.waiting_deleteOut_ne (by exact_mod_cast hne)
  · exact DispatchData.waiting_deleteOut_ne (by exact_mod_cast hne)

theorem works_pushRead (h : s.m_bRun = true) :
    Works fd s (node :: s.queue fd) (s.writeQueue fd) ⟨s.pushRead fd node, [], [], []⟩ :=
  ⟨h, ⟨[], by simp [pushRead], by simp⟩, DispatchData.waiting_pushBack, List.suffix_rfl,
    fun _ hne => DispatchData.waiting_pushBack_ne (by exact_mod_cast hne), fun _ _ => rfl⟩

/-- What has been published and taken before a task went on. -/
theorem Works.after {s₁ : AsyncServer} {taken : List MemNode} {bs : List UInt8} (h : Works fd s₁ rs ws r) (cs : List SPostReq)
    (hdata : s₁.m_data = s.m_data ++ cs) (hr : ∀ fd', fd' ≠ fd → s₁.queue fd' = s.queue fd')
    (hw : ∀ fd', fd' ≠ fd → s₁.writeQueue fd' = s.writeQueue fd') :
    Works fd s rs ws ⟨r.server, taken, cs ++ r.published, bs⟩ := by
  obtain ⟨out, hout, hexit⟩ := h.data
  refine ⟨h.running, ⟨out, ?_, hexit⟩, h.left, h.leftWrite, fun fd' hne => ?_, fun fd' hne => ?_⟩
  · rw [hout, hdata]
    simp only [List.append_assoc]
  · rw [h.reads fd' hne, hr fd' hne]
  · rw [h.writes fd' hne, hw fd' hne]

theorem Works.weaken {rs' : List MemNode} (h : Works fd s rs ws r) (hrs : rs <:+ rs') : Works fd s rs' ws r :=
  ⟨h.running, h.data, h.left.trans hrs, h.leftWrite, h.reads, h.writes⟩

/-- What a read task publishes for a request. -/
def readDone (s : AsyncServer) (fd : Nat) (n : MemNode) : SPostReq := toReq { n with nTrans := n.nCount } fd s.m_serSocket

theorem readLoop_works {k : Nat} (hrun : s.m_bRun = true) (h : readLoop fd results s node k = .ok r) :
    Works fd s (node :: s.queue fd) (s.writeQueue fd) r ∧
      Takes (node :: s.queue fd) (s.readDone fd) { r with taken := node :: r.taken } := by
  induction results generalizing s node k r with
  | nil =>
    rw [readLoop] at h
    split_ifs at h
    cases h
    exact ⟨works_fdDel hrun, ⟨s.queue fd, rfl⟩, List.nil_prefix⟩
  | cons x results ih =>
    rw [readLoop.eq_def] at h
    dsimp only at h
    split_ifs at h with hzero
    · cases h
      exact ⟨works_fdDel hrun, ⟨s.queue fd, rfl⟩, List.nil_prefix⟩
    · cases x with
      | wouldBlock =>
        cases h
        have hfailed : s.readFailed fd node k = s.pushRead fd node := if_neg (by decide)
        rw [hfailed]
        exact ⟨works_pushRead hrun, ⟨s.queue fd, rfl⟩, List.nil_prefix⟩
      | closed =>
        cases h
        exact ⟨works_fdDel hrun, ⟨s.queue fd, rfl⟩, List.nil_prefix⟩
      | data bs =>
        dsimp only at h
        split_ifs at h with hfull
        · rw [produceNode_running (by exact hrun)] at h
          obtain ⟨⟨q, next⟩, hpop, h⟩ := bind_eq_ok.1 h
          obtain ⟨hqueue, hother, hnone⟩ := DispatchData.waiting_pop hpop
          have hreads : ∀ fd', fd' ≠ fd → DispatchData.waiting q fd' = s.queue fd' := fun fd' hne =>
            hother fd' (by exact_mod_cast hne)
          cases next with
          | none =>
            cases h
            exact ⟨⟨hrun, ⟨[], by simp, by simp⟩, List.suffix_cons _ _, List.suffix_rfl, fun _ _ => rfl, fun _ _ => rfl⟩,
              ⟨s.queue fd, rfl⟩, List.prefix_rfl⟩
          | some next =>
            have hqueue' : s.queue fd = next :: DispatchData.waiting q fd := hqueue
            dsimp only at h
            split_ifs at h with hv
            · obtain ⟨r', hr', h⟩ := bind_eq_ok.1 h
              cases h
              obtain ⟨hworks, htaken, hpublished⟩ := ih (by exact hrun) hr'
              rw [hqueue']
              refine ⟨(hworks.weaken (List.suffix_cons node _)).after [s.readDone fd node] rfl hreads fun _ _ => rfl, ?_, ?_⟩
              · exact List.cons_prefix_cons.2 ⟨rfl, htaken⟩
              · exact List.cons_prefix_cons.2 ⟨rfl, hpublished⟩
            · cases h
              rw [hqueue']
              refine ⟨⟨hrun, ⟨[], by simp, by simp⟩, ?_, List.suffix_rfl, hreads, fun _ _ => rfl⟩, ?_, ?_⟩
              · exact (List.suffix_cons next _).trans (List.suffix_cons node _)
              · exact ⟨DispatchData.waiting q fd, rfl⟩
              · exact ⟨[s.readDone fd next], rfl⟩
        · obtain ⟨r', hr', h⟩ := bind_eq_ok.1 h
          cases h
          obtain ⟨hworks, htakes⟩ := ih (by exact hrun) hr'
          exact ⟨hworks.after [] (by simp) (fun _ _ => rfl) (fun _ _ => rfl), htakes.taken, htakes.published⟩

/-- The requests of a queue as a read task takes them. -/
def resetFirst : List MemNode → List MemNode
  | [] => []
  | n :: nodes => (if n.valid then n.reset else n) :: nodes

theorem readTask_works (hrun : s.m_bRun = true) (h : readTask s fd results = .ok r) :
    Works fd s (resetFirst (s.queue fd)) (s.writeQueue fd) r ∧ Takes (resetFirst (s.queue fd)) (s.readDone fd) r := by
  obtain ⟨⟨q, node⟩, hpop, h⟩ := bind_eq_ok.1 h
  obtain ⟨hqueue, hother, hnone⟩ := DispatchData.waiting_pop hpop
  cases node with
  | none =>
    cases h
    have hnil : s.queue fd = [] := hnone rfl
    have hreset : resetFirst (s.queue fd) = s.queue fd := by
      rw [hnil]
      rfl
    rw [hreset]
    exact ⟨works_self hrun, List.nil_prefix, List.nil_prefix⟩
  | some node =>
    have hqueue' : s.queue fd = node :: DispatchData.waiting q fd := hqueue
    have hreads : ∀ fd', fd' ≠ fd → DispatchData.waiting q fd' = s.queue fd' := fun fd' hne =>
      hother fd' (by exact_mod_cast hne)
    rw [hqueue', resetFirst]
    dsimp only at h
    split_ifs at h ⊢ with hv
    · obtain ⟨r', hr', h⟩ := bind_eq_ok.1 h
      cases h
      obtain ⟨hworks, htakes⟩ := readLoop_works (by exact hrun) hr'
      exact ⟨hworks.after [] (by simp) hreads (fun _ _ => rfl), htakes.taken, htakes.published⟩
    · cases h
      refine ⟨⟨hrun, ⟨[], by simp, by simp⟩, List.suffix_cons _ _, List.suffix_rfl, hreads, fun _ _ => rfl⟩, ?_, List.nil_prefix⟩
      exact ⟨DispatchData.waiting q fd, rfl⟩

/-- What a write task publishes for a request. -/
def writeDone (s : AsyncServer) (fd : Nat) (wLen : Int) (n : MemNode) : SPostReq :=
  toReq { n with nTrans := wLen.toNat } fd s.m_serSocket

theorem writeTask_works {wLen : Int} (hrun : s.m_bRun = true) (h : writeTask s fd wLen = .ok r) :
    Works fd s (s.queue fd) (s.writeQueue fd) r ∧ Takes (s.writeQueue fd) (s.writeDone fd wLen) r ∧
      ∀ n ∈ r.taken, (s.writeQueue fd).head? = some n := by
  obtain ⟨⟨q, node⟩, hpop, h⟩ := bind_eq_ok.1 h
  obtain ⟨hqueue, hother, hnone⟩ := DispatchData.waiting_pop hpop
  cases node with
  | none =>
    cases h
    exact ⟨works_self hrun, ⟨List.nil_prefix, List.nil_prefix⟩, fun n hn => absurd hn List.not_mem_nil⟩
  | some node =>
    have hqueue' : s.writeQueue fd = node :: DispatchData.waiting q fd := hqueue
    have hwrites : ∀ fd', fd' ≠ fd → DispatchData.waiting q fd' = s.writeQueue fd' := fun fd' hne =>
      hother fd' (by exact_mod_cast hne)
    have htaken : [node] <+: node :: DispatchData.waiting q fd := ⟨DispatchData.waiting q fd, rfl⟩
    have hfirst : ∀ n ∈ [node], (node :: DispatchData.waiting q fd).head? = some n := by simp
    rw [hqueue']
    dsimp only at h
    split_ifs at h with hv hw
    · cases h
      refine ⟨⟨hrun, ⟨[], by simp, by simp⟩, List.suffix_rfl, DispatchData.waiting_pushBack, fun _ _ => rfl, fun fd' hne => ?_⟩,
        ⟨htaken, List.nil_prefix⟩, hfirst⟩
      rw [← hwrites fd' hne]
      exact DispatchData.waiting_pushBack_ne (by exact_mod_cast hne)
    · cases h
      rw [produceNode_running (by exact hrun)]
      exact ⟨⟨hrun, ⟨[], by simp, by simp⟩, List.suffix_rfl, List.suffix_cons _ _, fun _ _ => rfl, hwrites⟩,
        ⟨htaken, List.prefix_rfl⟩, hfirst⟩
    · cases h
      exact ⟨⟨hrun, ⟨[], by simp, by simp⟩, List.suffix_rfl, List.suffix_cons _ _, fun _ _ => rfl, hwrites⟩,
        ⟨htaken, List.nil_prefix⟩, hfirst⟩

/-! ## What a run keeps -/

section

variable {R : Nat → Post → MemNode → Prop} {posts : Nat → List Post} {before after : Nat → List MemNode}

/-- After a task, the queues still hold the requests of the posts. -/
theorem forall₂_task (h : ∀ fd, List.Forall₂ (R fd) (posts fd) (before fd)) (hfd : List.Forall₂ (R fd) (posts fd) nodes)
    (hleft : after fd <:+ nodes) (hother : ∀ fd', fd' ≠ fd → after fd' = before fd') (fd' : Nat) :
    List.Forall₂ (R fd') (Function.update posts fd (leftIn (after fd) (posts fd)) fd') (after fd') := by
  by_cases hne : fd' = fd
  · rw [hne, Function.update_self]
    exact forall₂_leftIn hfd hleft
  · rw [Function.update_of_ne hne, hother fd' hne]
    exact h fd'

/-- After a post they do. -/
theorem forall₂_post {q : DispatchData} {p : Post} (h : ∀ fd : Nat, List.Forall₂ (R fd) (posts fd) (DispatchData.waiting q fd))
    (hp : R p.fd p node) (fd' : Nat) : List.Forall₂ (R fd') (Function.update posts p.fd (joins q (posts p.fd) p) fd')
      (DispatchData.waiting (DispatchData.appendData q p.fd node) fd') := by
  by_cases hne : fd' = p.fd
  · rw [hne, Function.update_self, DispatchData.waiting_appendData, joins]
    split_ifs
    · exact List.rel_append (h p.fd) (.cons hp .nil)
    · exact h p.fd
  · rw [Function.update_of_ne hne, DispatchData.waiting_appendData_ne (by exact_mod_cast hne)]
    exact h fd'

end

/-- A request that waits was posted for its socket and says so. -/
def Waits (type : OpType) (fd : Nat) (p : Post) (n : MemNode) : Prop := p.fd = fd ∧ Says type p n

structure Holds (t : Trace) : Prop where
  running : t.server.m_bRun = true
  readers : ∀ fd, List.Forall₂ (Waits .OP_READ fd) (t.readers fd) (t.server.queue fd)
  writers : ∀ fd, List.Forall₂ (Waits .OP_WRITE fd) (t.writers fd) (t.server.writeQueue fd)
  data : ∀ c ∈ t.server.m_data, (∃ e ∈ t.reads ++ t.writes, e.req = some c) ∨ c.oType = .OP_ACCEPT ∨ c.oType = .OP_EXIT
  implements : Implements t

variable {t t' : Trace} {a : Action} {type : OpType} {posts : List Post} {e : Served}

theorem Says.contract_read {p : Post} {n : MemNode} {c : Option SPostReq} (h : Waits .OP_READ fd p n)
    (hc : ∀ x, c = some x → x = s.readDone fd n) : Contract readCall ⟨p, n, c⟩ := by
  obtain ⟨rfl, h⟩ := h
  refine ⟨h.start, h.len, fun x hx => ?_⟩
  rw [hc x hx]
  refine ⟨by simp [readDone, toReq, SPostReq.valid], p.len, le_refl _, ?_⟩
  simp only [epollCall, readDone, toReq, h.isType, h.start, h.len, h.index, h.prev rfl, readCall]

theorem Says.contract_write {p : Post} {n : MemNode} {c : Option SPostReq} {wLen : Int} (h : Waits .OP_WRITE fd p n)
    (hw : wLen ≤ n.nCount) (hc : ∀ x, c = some x → x = s.writeDone fd wLen n) : Contract writeCall ⟨p, n, c⟩ := by
  obtain ⟨rfl, h⟩ := h
  have hle : wLen.toNat ≤ p.len := by
    rw [h.len] at hw
    omega
  refine ⟨h.start, h.len, fun x hx => ?_⟩
  rw [hc x hx]
  refine ⟨by simp [writeDone, toReq, SPostReq.valid], wLen.toNat, hle, ?_⟩
  simp only [epollCall, writeDone, toReq, h.isType, h.start, h.index, writeCall]

/-- A request that names no previous buffer says as much after `Reset`. -/
theorem forall₂_resetFirst (h : List.Forall₂ (Waits .OP_READ fd) posts nodes)
    (hfirst : ∀ n, nodes.head? = some n → n.m_pPrevIOData = none) :
    List.Forall₂ (Waits .OP_READ fd) posts (resetFirst nodes) := by
  cases h with
  | nil => exact .nil
  | @cons p n posts nodes hpn hrest =>
    rw [resetFirst]
    split_ifs
    · refine .cons ⟨hpn.1, ?_⟩ hrest
      rw [MemNode.reset]
      split_ifs
      · refine ⟨hpn.2.start, hpn.2.len, hpn.2.index, fun _ => ?_, hpn.2.isType⟩
        rw [← hpn.2.prev rfl, hfirst n rfl]
      · exact hpn.2
    · exact .cons hpn hrest

theorem Holds.data_task {l : List Served} (h : Holds t) (hw : Works fd t.server rs ws r)
    (hold : ∀ e ∈ t.reads ++ t.writes, e ∈ l) (hnew : ∀ c ∈ r.published, ∃ e ∈ l, e.req = some c) :
    ∀ c ∈ r.server.m_data, (∃ e ∈ l, e.req = some c) ∨ c.oType = .OP_ACCEPT ∨ c.oType = .OP_EXIT := by
  obtain ⟨out, hdata, hexit⟩ := hw.data
  intro c hc
  rw [hdata] at hc
  rcases List.mem_append.1 hc with hc | hc
  · rcases List.mem_append.1 hc with hc | hc
    · rcases h.data c hc with ⟨e, he, hec⟩ | hother
      · exact .inl ⟨e, hold e he, hec⟩
      · exact .inr hother
    · exact .inl (hnew c hc)
  · exact .inr (.inr (hexit c hc))

theorem Implements.calls_more {l : List Served} (h : Implements t) (hold : ∀ e ∈ t.reads ++ t.writes, e ∈ l) :
    ∀ c ∈ t.calls, (∃ e ∈ l, e.req.map epollCall = some c) ∨
      (∃ sock ip, c = .appendNewClient sock ip) ∨ ∃ sock ip, c = .removeClient sock ip := by
  intro c hc
  rcases h.calls c hc with ⟨e, he, hec⟩ | hother
  · exact .inl ⟨e, hold e he, hec⟩
  · exact .inr hother

theorem accept_eq {ip : String} (h : s.m_bRun = true) : s.accept fd ip = { s with
    m_data := s.m_data ++ [s.notice fd ip .OP_ACCEPT]
    m_ReadQue := DispatchData.appendNew s.m_ReadQue fd
    m_WriteQue := DispatchData.appendNew s.m_WriteQue fd } := by
  rw [AsyncServer.accept, produceNode_running h]

theorem Holds.accept {ip : String} (h : Holds t) : Holds { t with server := t.server.accept fd ip } := by
  rw [accept_eq h.running]
  refine ⟨h.running, fun fd' => ?_, fun fd' => ?_, fun c hc => ?_, h.implements.reads, h.implements.writes, h.implements.calls⟩
  · have hreaders : List.Forall₂ _ (t.readers fd') (DispatchData.waiting t.server.m_ReadQue fd') := h.readers fd'
    rw [← DispatchData.waiting_appendNew] at hreaders
    exact hreaders
  · have hwriters : List.Forall₂ _ (t.writers fd') (DispatchData.waiting t.server.m_WriteQue fd') := h.writers fd'
    rw [← DispatchData.waiting_appendNew] at hwriters
    exact hwriters
  · rcases List.mem_append.1 hc with hc | hc
    · exact h.data c hc
    · rw [List.mem_singleton.1 hc]
      exact .inr (.inl rfl)

theorem Holds.postRecv {p : Post} (h : Holds t) (hk : Keeps t (.postRecv p))
    (hstep : t.step (.postRecv p) = .ok t') : Holds t' := by
  cases hstep
  have hpost : t.server.postRecvReq p = { t.server with
      m_ReadQue := DispatchData.appendData t.server.m_ReadQue p.fd p.node.toMemNode } := if_pos h.running
  rw [hpost]
  exact ⟨h.running, forall₂_post h.readers ⟨rfl, hk⟩, h.writers, h.data,
    h.implements.reads, h.implements.writes, h.implements.calls⟩

theorem Holds.postSend {p : Post} (h : Holds t) (hk : Keeps t (.postSend p))
    (hstep : t.step (.postSend p) = .ok t') : Holds t' := by
  cases hstep
  have hpost : t.server.postSendReq p = { t.server with
      m_WriteQue := DispatchData.appendData t.server.m_WriteQue p.fd p.node.toMemNode } := if_pos h.running
  rw [hpost]
  exact ⟨h.running, h.readers, forall₂_post h.writers ⟨rfl, hk⟩, h.data,
    h.implements.reads, h.implements.writes, h.implements.calls⟩

theorem Holds.read (h : Holds t) (hk : Keeps t (.read fd results))
    (hstep : t.step (.read fd results) = .ok t') : Holds t' := by
  obtain ⟨r, hr, hstep⟩ := bind_eq_ok.1 hstep
  cases hstep
  obtain ⟨hworks, htaken, hpublished⟩ := readTask_works h.running hr
  have hreset := forall₂_resetFirst (h.readers fd) hk
  have hold : ∀ e ∈ t.reads ++ t.writes, e ∈ (t.reads ++ serve (t.readers fd) r.taken r.published) ++ t.writes := by
    intro e he
    simp only [List.mem_append] at he ⊢
    tauto
  refine ⟨hworks.running, forall₂_task h.readers hreset hworks.left hworks.reads,
    forall₂_task h.writers (h.writers fd) hworks.leftWrite hworks.writes, h.data_task hworks hold fun c hc => ?_, ?_, ?_, ?_⟩
  · obtain ⟨e, he, hec⟩ := published_serve hreset htaken hpublished c hc
    exact ⟨e, by simp [he], hec⟩
  · intro e he
    rcases List.mem_append.1 he with he | he
    · exact h.implements.reads e he
    · obtain ⟨hwaits, -, hreq⟩ := serve_spec hreset htaken hpublished he
      exact Says.contract_read hwaits hreq
  · exact h.implements.writes
  · exact h.implements.calls_more hold

theorem Holds.write {wLen : Int} (h : Holds t) (hk : Keeps t (.write fd wLen))
    (hstep : t.step (.write fd wLen) = .ok t') : Holds t' := by
  obtain ⟨r, hr, hstep⟩ := bind_eq_ok.1 hstep
  cases hstep
  obtain ⟨hworks, ⟨htaken, hpublished⟩, hfirst⟩ := writeTask_works h.running hr
  have hold : ∀ e ∈ t.reads ++ t.writes, e ∈ t.reads ++ (t.writes ++ serve (t.writers fd) r.taken r.published) := by
    intro e he
    simp only [List.mem_append] at he ⊢
    tauto
  refine ⟨hworks.running, forall₂_task h.readers (h.readers fd) hworks.left hworks.reads,
    forall₂_task h.writers (h.writers fd) hworks.leftWrite hworks.writes, h.data_task hworks hold fun c hc => ?_, ?_, ?_, ?_⟩
  · obtain ⟨e, he, hec⟩ := published_serve (h.writers fd) htaken hpublished c hc
    exact ⟨e, by simp [he], hec⟩
  · exact h.implements.reads
  · intro e he
    rcases List.mem_append.1 he with he | he
    · exact h.implements.writes e he
    · obtain ⟨hwaits, hmem, hreq⟩ := serve_spec (h.writers fd) htaken hpublished he
      exact Says.contract_write hwaits (hk e.node (hfirst e.node hmem)) hreq
  · exact h.implements.calls_more hold

theorem Holds.dispatch (h : Holds t) (hstep : t.step .dispatch = .ok t') : Holds t' := by
  rw [Trace.step, getQueueComplateStatus] at hstep
  cases hd : t.server.m_data with
  | nil =>
    rw [hd] at hstep
    cases hstep
  | cons c rest =>
    rw [hd] at hstep
    dsimp only at hstep
    rw [if_pos h.running] at hstep
    have hdata : ∀ c ∈ rest, (∃ e ∈ t.reads ++ t.writes, e.req = some c) ∨ c.oType = .OP_ACCEPT ∨ c.oType = .OP_EXIT :=
      fun c hc => h.data c (by rw [hd]; exact List.mem_cons_of_mem _ hc)
    cases hv : c.valid with
    | false =>
      rw [hv] at hstep
      cases hstep
      exact ⟨h.running, h.readers, h.writers, hdata, h.implements.reads, h.implements.writes, h.implements.calls⟩
    | true =>
      rw [hv] at hstep
      cases hstep
      refine ⟨h.running, h.readers, h.writers, hdata, h.implements.reads, h.implements.writes, fun call hcall => ?_⟩
      rcases List.mem_append.1 hcall with hcall | hcall
      · exact h.implements.calls call hcall
      · rw [List.mem_singleton.1 hcall]
        rcases h.data c (by rw [hd]; exact List.mem_cons_self) with ⟨e, he, hec⟩ | haccept | hexit
        · exact .inl ⟨e, he, by rw [hec]; rfl⟩
        · exact .inr (.inl ⟨c.cSock, c.ip, by rw [epollCall, haccept]⟩)
        · exact .inr (.inr ⟨c.cSock, c.ip, by rw [epollCall, hexit]⟩)

theorem Holds.step (h : Holds t) (hk : Keeps t a) (hstep : t.step a = .ok t') : Holds t' := by
  cases a with
  | accept fd ip =>
    cases hstep
    exact h.accept
  | postRecv p => exact h.postRecv hk hstep
  | postSend p => exact h.postSend hk hstep
  | read fd results => exact h.read hk hstep
  | write fd wLen => exact h.write hk hstep
  | dispatch => exact h.dispatch hstep

/-- A server that runs, with no request posted and none complete. -/
structure Idle (s : AsyncServer) : Prop where
  running : s.m_bRun = true
  reads : ∀ fd, s.queue fd = []
  writes : ∀ fd, s.writeQueue fd = []
  data : s.m_data = []

/-- The trace of a run from its start. -/
def Trace.start (s : AsyncServer) : Trace := ⟨s, fun _ => [], fun _ => [], [], [], []⟩

theorem Idle.holds (h : Idle s) : Holds (Trace.start s) where
  running := h.running
  readers fd := (h.reads fd).symm ▸ .nil
  writers fd := (h.writes fd).symm ▸ .nil
  data c hc := by
    rw [Trace.start, h.data] at hc
    cases hc
  implements := ⟨fun e he => absurd he List.not_mem_nil, fun e he => absurd he List.not_mem_nil,
    fun e he => absurd he List.not_mem_nil⟩

/-- In every run in which nodes say what the calls ask for and no request that names a previous buffer
is first when a read task begins, every request is served as it was posted. -/
theorem contract_run {actions : List Action} (hs : Idle s) (hk : Along Trace.step Keeps (Trace.start s) actions)
    (hrun : actions.foldlM Trace.step (Trace.start s) = .ok t) : Implements t :=
  (hk.keeps Holds hrun hs.holds fun _ _ _ h hk hstep => h.step hk hstep).implements

/-- A server that has just been started. -/
def started : AsyncServer := ⟨fun _ => 0, true, 3, [], StdMap.empty, StdMap.empty, []⟩

theorem idle_started : Idle started := ⟨rfl, fun _ => rfl, fun _ => rfl, rfl⟩

/-- A receive request of 2 bytes for the socket 5, in the node `node`. -/
def recvPost (node : CPostReq) : Post := ⟨5, 1000, 2, 0, none, node⟩

/-- A send request of 3 bytes. -/
def sendPost (node : CPostReq) : Post := ⟨5, 2000, 3, 1, none, node⟩

def contractActions : List Action :=
  [.accept 5 "127.0.0.1", .postRecv (recvPost ⟨⟨some 1000, 2, 0, 0, 0, none, .OP_READ⟩, -1⟩),
    .postSend (sendPost ⟨⟨some 2000, 3, 0, 0, 1, none, .OP_WRITE⟩, -1⟩), .dispatch, .write 5 3, .dispatch,
    .postRecv (recvPost ⟨⟨some 1000, 2, 0, 0, 0, none, .OP_READ⟩, -1⟩), .read 5 [.data [7, 8], .wouldBlock], .dispatch]

instance decSays (type : OpType) (p : Post) (n : MemNode) : Decidable (Says type p n) :=
  decidable_of_iff (n.pData = some p.pStart ∧ n.nCount = p.len ∧ n.nIndex = p.nIndex ∧
    (type = .OP_READ → n.m_pPrevIOData = p.pExtend) ∧ n.oType = type)
    ⟨fun ⟨h₁, h₂, h₃, h₄, h₅⟩ => ⟨h₁, h₂, h₃, h₄, h₅⟩, fun h => ⟨h.start, h.len, h.index, h.prev, h.isType⟩⟩

instance decKeeps : ∀ t a, Decidable (Keeps t a)
  | _, .postRecv p => decSays .OP_READ p _
  | _, .postSend p => decSays .OP_WRITE p _
  | t, .read fd _ => inferInstanceAs (Decidable (∀ n, (t.server.queue fd).head? = some n → n.m_pPrevIOData = none))
  | t, .write fd wLen => inferInstanceAs (Decidable (∀ n, (t.server.writeQueue fd).head? = some n → wLen ≤ n.nCount))
  | _, .accept _ _ => isTrue trivial
  | _, .dispatch => isTrue trivial


theorem contract_run_both : ∃ t, contractActions.foldlM Trace.step (Trace.start started) = .ok t ∧
    t.calls = [.appendNewClient 5 "127.0.0.1", .activateWrite 5 1 (some 2000) 3, .recvClientData 5 (some 1000) 2 0 none] ∧
    Implements t := by
  have hended : ∃ t, contractActions.foldlM Trace.step (Trace.start started) = .ok t ∧
      t.calls = [.appendNewClient 5 "127.0.0.1", .activateWrite 5 1 (some 2000) 3, .recvClientData 5 (some 1000) 2 0 none] := by
    decide +kernel
  obtain ⟨t, ht, hcalls⟩ := hended
  have hkeeps : Along Trace.step Keeps (Trace.start started) contractActions := by decide +kernel
  exact ⟨t, ht, hcalls, contract_run idle_started hkeeps ht⟩

/-- A node as it is made says nothing, so the request taken is for no memory. -/
theorem contract_broken : Idle started ∧
    ∃ t, [.accept 5 "127.0.0.1", .postRecv (recvPost ⟨⟨none, 0, 0, 0, -1, none, .OP_READ⟩, -1⟩), .read 5 []].foldlM Trace.step
      (Trace.start started) = .ok t ∧ ¬Implements t := by
  have hended : ∃ t, [.accept 5 "127.0.0.1", .postRecv (recvPost ⟨⟨none, 0, 0, 0, -1, none, .OP_READ⟩, -1⟩),
      .read 5 []].foldlM Trace.step (Trace.start started) = .ok t ∧ t.reads.map (fun e => e.node.pData) = [none] := by
    decide +kernel
  obtain ⟨t, ht, hnodes⟩ := hended
  refine ⟨idle_started, t, ht, fun h => ?_⟩
  obtain ⟨e, he⟩ : ∃ e, t.reads = [e] := List.length_eq_one_iff.1 (by rw [← List.length_map, hnodes]; rfl)
  have hcontract := (h.reads e (by rw [he]; exact List.mem_singleton_self e)).1
  rw [he] at hnodes
  rw [List.map_singleton, List.cons.injEq] at hnodes
  rw [hnodes.1] at hcontract
  cases hcontract

end AsyncServer

end AsyncNet
