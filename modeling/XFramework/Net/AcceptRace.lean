/-
A client is accepted by one thread while another one serves it
(Net/AsyncNetServerImpl_Linux.cpp, Net/BalanceHandle_Linux.cpp).

`HandleThread` announces the new socket before it makes its queues, and
`AppendData` drops a request for a socket that has no queue. So the first
receive request stays exactly when the queue is made before the dispatch
thread posts (`accept_keeps_request`).

Until it is posted the request is owed once: the announcement is yet to be
made, in `m_data`, or in the hands of the dispatch thread (`Pending`).
-/
import XFramework.Net.RequestContract

open Fallible

namespace AsyncNet

/-- What `HandleThread` does for a new client. -/
inductive HandleStep
  | fdAdd
  | produceNode
  | readAppendNew
  | writeAppendNew
  deriving DecidableEq

/-- In the order of the source. -/
def handleSteps : List HandleStep := [.fdAdd, .produceNode, .readAppendNew, .writeAppendNew]

/-- Where `EpollThread` is: before `GetQueueComplateStatus`, in `AppendNewClient`, or before its
`PostRecv`. -/
inductive DispatchStep
  | idle
  | appendNewClient (req : SPostReq)
  | postRecv (req : SPostReq)
  deriving DecidableEq

/-- `handle` is what `HandleThread` has yet to do. -/
structure Accepting where
  server : AsyncServer
  epoll : List Nat
  handle : List HandleStep
  dispatch : DispatchStep
  m_clientInfos : List Int

inductive Thread
  | handle
  | dispatch
  deriving DecidableEq

namespace Accepting

open AsyncServer

/-- A step of one of the two threads, while `fd` is accepted from `ip`. `first` is the node in which a
session posts its first receive request. -/
def step (fd : Nat) (ip : String) (first : Int → MemNode) (t : Accepting) : Thread → Except IoFault Accepting
  | .handle =>
    match t.handle with
    | [] => .error .waiting
    | .fdAdd :: rest => .ok { t with epoll := t.epoll ++ [fd], handle := rest }
    | .produceNode :: rest =>
      .ok { t with server := t.server.produceNode (t.server.notice fd ip .OP_ACCEPT), handle := rest }
    | .readAppendNew :: rest =>
      .ok { t with server := { t.server with m_ReadQue := DispatchData.appendNew t.server.m_ReadQue fd }, handle := rest }
    | .writeAppendNew :: rest =>
      .ok { t with server := { t.server with m_WriteQue := DispatchData.appendNew t.server.m_WriteQue fd }, handle := rest }
  | .dispatch =>
    match t.dispatch with
    | .idle =>
      match t.server.getQueueComplateStatus with
      | none => .error .waiting
      | some (s, req, ok) =>
        -- the calls for other completions post nothing to read
        .ok { t with server := s, dispatch := if ok ∧ req.oType = .OP_ACCEPT then .appendNewClient req else .idle }
    | .appendNewClient req => .ok { t with m_clientInfos := t.m_clientInfos ++ [req.cSock], dispatch := .postRecv req }
    | .postRecv req => .ok { t with server := t.server.postQuestRead req.cSock (first req.cSock), dispatch := .idle }

/-- `fd` is about to be accepted: nothing is known of it. -/
structure Begun (fd : Nat) (t : Accepting) : Prop where
  running : t.server.m_bRun = true
  handle : t.handle = handleSteps
  dispatch : t.dispatch = .idle
  unknown : t.server.m_ReadQue.find? fd = none
  data : ∀ c ∈ t.server.m_data, c.cSock ≠ fd

/-- Both threads have nothing left to do. -/
def Finished (t : Accepting) : Prop := t.handle = [] ∧ t.dispatch = .idle ∧ t.server.m_data = []

/-- The queue of `fd` is made before a request is posted for it. -/
def Ready (fd : Nat) (t : Accepting) (a : Thread) : Prop :=
  a = .dispatch → ∀ req, t.dispatch = .postRecv req → req.cSock = fd → .readAppendNew ∉ t.handle

variable {fd : Nat} {ip : String} {first : Int → MemNode} {t t' : Accepting} {a : Thread} {schedule : List Thread}

/-- The steps of `HandleThread` one after the other. -/
theorem handle_accept (h : t.handle = handleSteps) : [Thread.handle, .handle, .handle, .handle].foldlM (step fd ip first) t =
    .ok { t with server := t.server.accept fd ip, epoll := t.epoll ++ [fd], handle := [] } := by
  simp only [List.foldlM_cons, List.foldlM_nil, step, h, handleSteps, bind, Except.bind, pure, Except.pure]
  rfl

/-- How often a request for `fd` is still to be posted. -/
def owedBy (fd : Nat) : DispatchStep → Nat
  | .idle => 0
  | .appendNewClient req => if req.cSock = fd then 1 else 0
  | .postRecv req => if req.cSock = fd then 1 else 0

def owed (fd : Nat) (t : Accepting) : Nat :=
  t.handle.count .produceNode + t.server.m_data.countP (fun c => c.cSock = (fd : Int)) + owedBy fd t.dispatch

/-- A request for `fd` is to be posted. -/
structure Pending (fd : Nat) (t : Accepting) : Prop where
  running : t.server.m_bRun = true
  nodup : t.handle.Nodup
  owed : owed fd t = 1
  accepts : ∀ c ∈ t.server.m_data, c.cSock = fd → c.valid = true ∧ c.oType = .OP_ACCEPT
  queue : t.server.m_ReadQue.find? fd = if .readAppendNew ∈ t.handle then none else some []

/-- None is. -/
structure Settled (fd : Nat) (t : Accepting) : Prop where
  running : t.server.m_bRun = true
  owed : owed fd t = 0

theorem Begun.pending (h : Begun fd t) : Pending fd t where
  running := h.running
  nodup := by rw [h.handle]; decide
  owed := by
    have hdata : t.server.m_data.countP (fun c => c.cSock = (fd : Int)) = 0 :=
      List.countP_eq_zero.2 fun c hc => by simpa using h.data c hc
    rw [Accepting.owed, hdata, h.dispatch, h.handle]
    rfl
  accepts c hc hfd := absurd hfd (h.data c hc)
  queue := by
    rw [h.unknown, h.handle]
    rfl

theorem Pending.not_finished (h : Pending fd t) : ¬Finished t := by
  intro hf
  have := h.owed
  rw [Accepting.owed, hf.1, hf.2.1, hf.2.2] at this
  cases this

/-- A step that posts nothing for `fd`. -/
theorem Settled.step (h : Settled fd t) (hstep : t.step fd ip first a = .ok t') :
    Settled fd t' ∧ DispatchData.waiting t'.server.m_ReadQue fd = DispatchData.waiting t.server.m_ReadQue fd := by
  have howed := h.owed
  rw [Accepting.owed] at howed
  cases a with
  | handle =>
    rw [Accepting.step] at hstep
    cases hh : t.handle with
    | nil =>
      rw [hh] at hstep
      cases hstep
    | cons x rest =>
      rw [hh] at hstep howed
      cases x with
      | fdAdd =>
        cases hstep
        exact ⟨⟨h.running, by simpa [Accepting.owed] using howed⟩, rfl⟩
      | produceNode => simp at howed
      | readAppendNew =>
        cases hstep
        exact ⟨⟨h.running, by simpa [Accepting.owed] using howed⟩, DispatchData.waiting_appendNew⟩
      | writeAppendNew =>
        cases hstep
        exact ⟨⟨h.running, by simpa [Accepting.owed] using howed⟩, rfl⟩
  | dispatch =>
    rw [Accepting.step] at hstep
    cases hd : t.dispatch with
    | idle =>
      rw [hd, getQueueComplateStatus] at hstep
      cases hm : t.server.m_data with
      | nil =>
        rw [hm] at hstep
        cases hstep
      | cons req rest =>
        rw [hm] at hstep howed
        dsimp only at hstep
        rw [if_pos h.running] at hstep
        cases hstep
        have hne : req.cSock ≠ fd := by
          intro he
          simp [he] at howed
        refine ⟨⟨h.running, ?_⟩, rfl⟩
        rw [List.countP_cons_of_neg (by simpa using hne)] at howed
        rw [Accepting.owed]
        split_ifs <;> simp only [owedBy, hne, if_false] <;> omega
    | appendNewClient req =>
      rw [hd] at hstep howed
      cases hstep
      exact ⟨⟨h.running, by simpa [Accepting.owed, owedBy] using howed⟩, rfl⟩
    | postRecv req =>
      rw [hd] at hstep howed
      cases hstep
      have hne : (fd : Int) ≠ req.cSock := by
        intro he
        simp [owedBy, ← he] at howed
      have hpost : t.server.postQuestRead req.cSock (first req.cSock) = { t.server with
          m_ReadQue := DispatchData.appendData t.server.m_ReadQue req.cSock (first req.cSock) } := if_pos h.running
      rw [hpost]
      refine ⟨⟨h.running, ?_⟩, DispatchData.waiting_appendData_ne hne⟩
      rw [Accepting.owed]
      dsimp only
      rw [owedBy]
      omega

/-- The step posts the request for `fd`. -/
def Posts (fd : Nat) (t : Accepting) (a : Thread) : Prop := a = .dispatch ∧ ∃ req, t.dispatch = .postRecv req ∧ req.cSock = fd

theorem Pending.handle_step (h : Pending fd t) (hstep : t.step fd ip first .handle = .ok t') : Pending fd t' := by
  have howed := h.owed
  have hnodup := h.nodup
  have hqueue := h.queue
  rw [Accepting.owed] at howed
  rw [Accepting.step] at hstep
  cases hh : t.handle with
  | nil =>
    rw [hh] at hstep
    cases hstep
  | cons x rest =>
    rw [hh] at hstep howed hnodup hqueue
    obtain ⟨hx, hrest⟩ := List.nodup_cons.1 hnodup
    cases x with
    | fdAdd =>
      cases hstep
      exact ⟨h.running, hrest, by simpa [Accepting.owed] using howed, h.accepts, by simpa using hqueue⟩
    | produceNode =>
      cases hstep
      rw [produceNode_running h.running]
      refine ⟨h.running, hrest, ?_, fun c hc hfd => ?_, by simpa using hqueue⟩
      · have hnotice : (t.server.notice fd ip .OP_ACCEPT).cSock = (fd : Int) := rfl
        rw [List.count_cons_self] at howed
        rw [Accepting.owed, List.countP_append, List.countP_singleton]
        simp only [hnotice, decide_true, if_true]
        omega
      · rcases List.mem_append.1 hc with hc | hc
        · exact h.accepts c hc hfd
        · rw [List.mem_singleton.1 hc]
          exact ⟨by simp [notice, SPostReq.valid], rfl⟩
    | readAppendNew =>
      cases hstep
      have hnone : t.server.m_ReadQue.find? fd = none := by simpa using hqueue
      refine ⟨h.running, hrest, by simpa [Accepting.owed] using howed, h.accepts, ?_⟩
      rw [if_neg hx]
      exact StdMap.find?_insert_new hnone
    | writeAppendNew =>
      cases hstep
      exact ⟨h.running, hrest, by simpa [Accepting.owed] using howed, h.accepts, by simpa using hqueue⟩

theorem Pending.dispatch_step (h : Pending fd t) (hno : ¬Posts fd t .dispatch) (hstep : t.step fd ip first .dispatch = .ok t') :
    Pending fd t' := by
  have howed := h.owed
  rw [Accepting.owed] at howed
  rw [Accepting.step] at hstep
  cases hd : t.dispatch with
  | idle =>
    rw [hd, getQueueComplateStatus] at hstep
    cases hm : t.server.m_data with
    | nil =>
      rw [hm] at hstep
      cases hstep
    | cons req rest =>
      rw [hm] at hstep howed
      dsimp only at hstep
      rw [if_pos h.running] at hstep
      cases hstep
      refine ⟨h.running, h.nodup, ?_, fun c hc => h.accepts c (by rw [hm]; exact List.mem_cons_of_mem _ hc), h.queue⟩
      rw [hd] at howed
      rw [Accepting.owed]
      by_cases hfd : req.cSock = fd
      · obtain ⟨hvalid, haccept⟩ := h.accepts req (by rw [hm]; exact List.mem_cons_self) hfd
        rw [List.countP_cons_of_pos (by simpa using hfd)] at howed
        simp only [owedBy, hvalid, haccept, hfd, and_self, if_true] at howed ⊢
        omega
      · rw [List.countP_cons_of_neg (by simpa using hfd)] at howed
        simp only [owedBy] at howed
        split_ifs <;> simp only [owedBy, hfd, if_false] <;> omega
  | appendNewClient req =>
    rw [hd] at hstep howed
    cases hstep
    exact ⟨h.running, h.nodup, by simpa [Accepting.owed, owedBy] using howed, h.accepts, h.queue⟩
  | postRecv req =>
    rw [hd] at hstep howed
    cases hstep
    have hne : (fd : Int) ≠ req.cSock := fun he => hno ⟨rfl, req, hd, he.symm⟩
    have hpost : t.server.postQuestRead req.cSock (first req.cSock) = { t.server with
        m_ReadQue := DispatchData.appendData t.server.m_ReadQue req.cSock (first req.cSock) } := if_pos h.running
    rw [hpost]
    refine ⟨h.running, h.nodup, ?_, h.accepts, ?_⟩
    · rw [Accepting.owed]
      simp only [owedBy, hne.symm, if_false] at howed ⊢
      omega
    · dsimp only
      rw [← h.queue, DispatchData.appendData]
      cases t.server.m_ReadQue.find? req.cSock with
      | none => rfl
      | some l => exact StdMap.find?_set_ne hne

/-- The step that posts the request: it joins the queue when there is one. -/
theorem Pending.posts (h : Pending fd t) (hposts : Posts fd t a) (hstep : t.step fd ip first a = .ok t') : Settled fd t' ∧
    DispatchData.waiting t'.server.m_ReadQue fd = if .readAppendNew ∈ t.handle then [] else [first fd] := by
  obtain ⟨rfl, req, hd, hfd⟩ := hposts
  have howed := h.owed
  rw [Accepting.owed] at howed
  rw [Accepting.step, hd] at hstep
  cases hstep
  have hpost : t.server.postQuestRead req.cSock (first req.cSock) = { t.server with
      m_ReadQue := DispatchData.appendData t.server.m_ReadQue req.cSock (first req.cSock) } := if_pos h.running
  rw [hpost, hfd]
  refine ⟨⟨h.running, ?_⟩, ?_⟩
  · rw [hd] at howed
    rw [Accepting.owed]
    simp only [owedBy, hfd, if_true] at howed ⊢
    omega
  · dsimp only
    rw [DispatchData.waiting_appendData, DispatchData.waiting, h.queue]
    split_ifs <;> simp_all

theorem Settled.run (h : Settled fd t) (hrun : schedule.foldlM (Accepting.step fd ip first) t = .ok t') :
    DispatchData.waiting t'.server.m_ReadQue fd = DispatchData.waiting t.server.m_ReadQue fd := by
  refine (foldlM_run (fun t₁ => Settled fd t₁ ∧ DispatchData.waiting t₁.server.m_ReadQue fd =
    DispatchData.waiting t.server.m_ReadQue fd) hrun ⟨h, rfl⟩ fun s s' a _ hs hstep => ?_).2
  obtain ⟨hsettled, hwaiting⟩ := hs.1.step hstep
  exact ⟨hsettled, hwaiting.trans hs.2⟩

theorem Settled.ready (h : Settled fd t) (hrun : schedule.foldlM (Accepting.step fd ip first) t = .ok t') :
    Along (Accepting.step fd ip first) (Ready fd) t schedule := by
  induction schedule generalizing t with
  | nil => trivial
  | cons a schedule ih =>
    obtain ⟨t₁, ht₁, hrun⟩ := foldlM_cons_ok.1 hrun
    refine ⟨fun _ req hd hfd => ?_, ?_⟩
    · have howed := h.owed
      rw [Accepting.owed, hd] at howed
      simp [owedBy, hfd] at howed
    · rw [ht₁]
      exact ih (h.step ht₁).1 hrun

/-- The first receive request for an accepted socket is in its queue when both threads are done exactly
when `HandleThread` made the queue before the request was posted. -/
theorem accept_keeps_request (h : Begun fd t) (hrun : schedule.foldlM (step fd ip first) t = .ok t') (hdone : Finished t') :
    first fd ∈ DispatchData.waiting t'.server.m_ReadQue fd ↔ Along (step fd ip first) (Ready fd) t schedule := by
  have hpending := h.pending
  clear h
  induction schedule generalizing t with
  | nil =>
    cases foldlM_nil_ok.1 hrun
    exact absurd hdone hpending.not_finished
  | cons a schedule ih =>
    obtain ⟨t₁, ht₁, hrun⟩ := foldlM_cons_ok.1 hrun
    rw [Along, ht₁]
    by_cases hposts : Posts fd t a
    · obtain ⟨hsettled, hwaiting⟩ := hpending.posts hposts ht₁
      rw [hsettled.run hrun, hwaiting]
      obtain ⟨ha, req, hd, hfd⟩ := hposts
      refine ⟨?_, ?_⟩
      · intro hmem
        refine ⟨fun _ _ _ _ hin => ?_, hsettled.ready hrun⟩
        rw [if_pos hin] at hmem
        cases hmem
      · intro hready
        rw [if_neg (hready.1 ha req hd hfd)]
        exact List.mem_singleton_self _
    · have hready : Ready fd t a := fun ha req hd hfd => absurd ⟨ha, req, hd, hfd⟩ hposts
      have hnext : Pending fd t₁ := by
        cases a with
        | handle => exact hpending.handle_step ht₁
        | dispatch => exact hpending.dispatch_step hposts ht₁
      have hrest := ih hrun hnext
      exact ⟨fun hmem => ⟨hready, hrest.1 hmem⟩, fun hall => hrest.2 hall.2⟩

/-- A server about to accept the socket 7, whose sessions post requests of 4096 bytes. -/
def aboutToAccept : Accepting := ⟨started, [], handleSteps, .idle, []⟩

def firstRequest (sock : Int) : MemNode := ⟨some (1000 * sock), 4096, 0, 0, 0, none, .OP_READ⟩

theorem begun_aboutToAccept : Begun 7 aboutToAccept := ⟨rfl, rfl, rfl, rfl, fun _ hc => absurd hc List.not_mem_nil⟩

instance decReady (fd : Nat) (t : Accepting) : ∀ a, Decidable (Ready fd t a)
  | .handle => isTrue fun ha => by cases ha
  | .dispatch =>
    match hd : t.dispatch with
    | .postRecv req => decidable_of_iff (req.cSock = fd → .readAppendNew ∉ t.handle)
        ⟨fun h _ r hr hfd => h (by rw [hd] at hr; cases hr; exact hfd), fun h hfd => h rfl req hd hfd⟩
    | .idle => isTrue fun _ _ hr => by rw [hd] at hr; cases hr
    | .appendNewClient _ => isTrue fun _ _ hr => by rw [hd] at hr; cases hr

instance (t : Accepting) : Decidable (Finished t) := inferInstanceAs (Decidable (_ ∧ _))

/-- The accept thread is done before the dispatch thread begins. -/
def lateSchedule : List Thread := [.handle, .handle, .handle, .handle, .dispatch, .dispatch, .dispatch]

/-- The dispatch thread goes on as soon as the client is announced. -/
def earlySchedule : List Thread := [.handle, .handle, .dispatch, .dispatch, .dispatch, .handle, .handle]

theorem accept_keeps_request_late : ∃ t, lateSchedule.foldlM (step 7 "127.0.0.1" firstRequest) aboutToAccept = .ok t ∧
    firstRequest 7 ∈ DispatchData.waiting t.server.m_ReadQue 7 := by
  have hended : ∃ t, lateSchedule.foldlM (step 7 "127.0.0.1" firstRequest) aboutToAccept = .ok t ∧ Finished t := by
    decide +kernel
  obtain ⟨t, ht, hdone⟩ := hended
  exact ⟨t, ht, (accept_keeps_request begun_aboutToAccept ht hdone).2 (by decide +kernel)⟩

theorem accept_loses_request : Begun 7 aboutToAccept ∧
    ∃ t, earlySchedule.foldlM (step 7 "127.0.0.1" firstRequest) aboutToAccept = .ok t ∧ Finished t ∧
      firstRequest 7 ∉ DispatchData.waiting t.server.m_ReadQue 7 := by
  have hended : ∃ t, earlySchedule.foldlM (step 7 "127.0.0.1" firstRequest) aboutToAccept = .ok t ∧ Finished t ∧
      firstRequest 7 ∉ DispatchData.waiting t.server.m_ReadQue 7 := by decide +kernel
  exact ⟨begun_aboutToAccept, hended⟩

end Accepting

end AsyncNet
