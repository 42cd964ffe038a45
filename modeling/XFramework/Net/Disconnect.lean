/-
Which connection a disconnect is for (Net/BalanceHandle_Linux.cpp,
Net/BalanceHandle_Linux.h, Net/AsyncNetServerImpl_Linux.cpp).

A connection is known by its descriptor only, and the system may give the
number away again once it is closed. `FdDel` closes it and queues an exit, of
which `RemoveClient` closes the number a second time and destroys the first
session that has it; `KickClient` does so for a handle. By then another
connection may have the number.

Calls are for their own connection in runs in which a number is not given away
while something still speaks of it, and only the last connection that had a
number is kicked (`own_run`): whatever speaks of a number then means the last
connection that got it (`Latest`).
-/
import XFramework.Net.RequestContract

open Fallible

namespace AsyncNet

/-- A session of `m_clientInfos`. -/
structure ClientInfo where
  sock : Int
  conn : Nat
  deriving DecidableEq

/-- A call of `AppendNewClient` (`OP_ACCEPT`), or of `RemoveClient` or `KickClient` (`OP_EXIT`) that has
closed the socket, with the list of sessions yet to be looked at. -/
structure ClientCall where
  oType : OpType
  sock : Int
  conn : Nat
  deriving DecidableEq

/-- The connections are numbered in the order they were accepted: `accepted` are their descriptors,
`owner` tells which one has a descriptor now, and `about` whom the entries of `m_data` are about.
`undone` notes whose descriptor was closed or session destroyed by the calls for which connection. -/
structure Clients where
  server : AsyncServer
  owner : Nat → Option Nat
  accepted : List Nat
  about : List Nat
  m_clientInfos : List ClientInfo
  calls : List ClientCall
  undone : List (Nat × Nat)

namespace Clients

open AsyncServer

inductive Action
  | accept (fd : Nat) (ip : String)
  | peerCloses (fd : Nat)
  | dispatch
  | kick (conn : Nat)
  | finish (i : Nat)

/-- `close` in a call for `conn`. -/
def close (t : Clients) (sock : Int) (conn : Nat) : Clients :=
  match t.owner sock.toNat with
  | some other => { t with owner := Function.update t.owner sock.toNat none, undone := t.undone ++ [(conn, other)] }
  | none => t

/-- The rest of `RemoveClient` and `KickClient`: `SessionCampare` compares the descriptor. -/
def destroy (t : Clients) (sock : Int) (conn : Nat) : Clients :=
  match t.m_clientInfos.find? fun c => c.sock = sock with
  | some c => { t with
      m_clientInfos := t.m_clientInfos.eraseP fun c => c.sock = sock
      undone := t.undone ++ [(conn, c.conn)] }
  | none => t

/-- A step that cannot be made waits: the system gives no descriptor away that is open. -/
def step (t : Clients) : Action → Except IoFault Clients
  | .accept fd ip =>
    if (t.owner fd).isSome then .error .waiting
    else .ok { t with
      server := t.server.accept fd ip
      owner := Function.update t.owner fd (some t.accepted.length)
      accepted := t.accepted ++ [fd]
      about := t.about ++ [t.accepted.length] }
  | .peerCloses fd =>
    match t.owner fd with
    | none => .error .waiting
    | some conn => .ok { t with
        server := t.server.fdDel fd
        owner := Function.update t.owner fd none
        about := t.about ++ [conn] }
  | .dispatch =>
    match t.server.getQueueComplateStatus, t.about with
    | some (s, req, true), conn :: about =>
      let t := { t with server := s, about := about }
      match req.oType with
      | .OP_ACCEPT => .ok { t with calls := t.calls ++ [⟨.OP_ACCEPT, req.cSock, conn⟩] }
      | .OP_EXIT =>
        let t := t.close req.cSock conn
        .ok { t with calls := t.calls ++ [⟨.OP_EXIT, req.cSock, conn⟩] }
      | _ => .ok t
    | some (s, _, false), _ :: about => .ok { t with server := s, about := about }
    | _, _ => .error .waiting
  | .kick conn =>
    match t.accepted[conn]? with
    | none => .error .waiting
    | some fd =>
      let t := t.close fd conn
      .ok { t with calls := t.calls ++ [⟨.OP_EXIT, fd, conn⟩] }
  | .finish i =>
    match t.calls[i]? with
    | none => .error .waiting
    | some call =>
      let t := { t with calls := t.calls.eraseIdx i }
      match call.oType with
      | .OP_ACCEPT => .ok { t with m_clientInfos := t.m_clientInfos ++ [⟨call.sock, call.conn⟩] }
      | _ => .ok (t.destroy call.sock call.conn)

/-- What every run must show: a call undoes what is of its own connection. -/
def Own (t : Clients) : Prop := ∀ e ∈ t.undone, e.1 = e.2

/-- `conn` is the last connection so far that got the descriptor. -/
def Latest (t : Clients) (sock : Int) (conn : Nat) : Prop :=
  t.accepted[conn]?.map Nat.cast = some sock ∧ ∀ fd ∈ t.accepted.drop (conn + 1), sock ≠ (fd : Int)

instance (t : Clients) (sock : Int) (conn : Nat) : Decidable (Latest t sock conn) := inferInstanceAs (Decidable (_ ∧ _))

/-- When a step keeps the connections apart: a descriptor is given away when no event for it waits, no
call for it is under way and no session has it; and a connection is kicked while it is the last one
that got its descriptor. -/
def Fresh (t : Clients) : Action → Prop
  | .accept fd _ => (∀ c ∈ t.server.m_data, c.cSock ≠ fd) ∧ (∀ c ∈ t.calls, c.sock ≠ fd) ∧ ∀ c ∈ t.m_clientInfos, c.sock ≠ fd
  | .kick conn => ∀ fd, t.accepted[conn]? = some fd → Latest t fd conn
  | _ => True

/-- Whatever speaks of a descriptor means the last connection that got it. -/
structure Apart (t : Clients) : Prop where
  running : t.server.m_bRun = true
  owner : ∀ fd conn, t.owner fd = some conn → Latest t fd conn
  events : List.Forall₂ (fun (c : SPostReq) conn => Latest t c.cSock conn) t.server.m_data t.about
  calls : ∀ c ∈ t.calls, Latest t c.sock c.conn
  sessions : ∀ c ∈ t.m_clientInfos, Latest t c.sock c.conn
  own : Own t

variable {t t' : Clients} {a : Action} {sock : Int} {conn other fd : Nat} {ip : String}

/-- A later connection has another descriptor. -/
theorem Latest.later {later : Nat} (h : Latest t sock conn) (hlt : conn < later) (hfd : t.accepted[later]? = some fd) :
    sock ≠ fd := by
  refine h.2 fd (List.mem_of_getElem? (i := later - (conn + 1)) ?_)
  rw [List.getElem?_drop, Nat.add_sub_of_le hlt]
  exact hfd

theorem Latest.unique (h : Latest t sock conn) (h' : Latest t sock other) : conn = other := by
  obtain ⟨fd, hfd, heq⟩ := Option.map_eq_some_iff.1 h.1
  obtain ⟨fd', hfd', heq'⟩ := Option.map_eq_some_iff.1 h'.1
  rcases Nat.lt_trichotomy conn other with hlt | rfl | hlt
  · exact absurd heq'.symm (h.later hlt hfd')
  · rfl
  · exact absurd heq.symm (h'.later hlt hfd)

/-- Another descriptor is given away. -/
theorem Latest.accept (h : Latest t sock conn) (hne : sock ≠ fd) (ht : t'.accepted = t.accepted ++ [fd]) :
    Latest t' sock conn := by
  obtain ⟨fd₀, hfd₀, -⟩ := Option.map_eq_some_iff.1 h.1
  have hlt := (List.getElem?_eq_some_iff.1 hfd₀).1
  refine ⟨?_, fun fd' hfd' => ?_⟩
  · rw [ht, List.getElem?_append_left hlt]
    exact h.1
  · rw [ht, List.drop_append_of_le_length hlt] at hfd'
    rcases List.mem_append.1 hfd' with hold | hnew
    · exact h.2 fd' hold
    · rw [List.mem_singleton.1 hnew]
      exact hne

theorem latest_accepted (ht : t'.accepted = t.accepted ++ [fd]) : Latest t' fd t.accepted.length := by
  refine ⟨by rw [ht, List.getElem?_concat_length]; rfl, fun fd' hfd' => ?_⟩
  rw [ht, List.drop_eq_nil_of_le (by rw [List.length_append, List.length_singleton])] at hfd'
  cases hfd'

/-- A call closes the descriptor of its own connection, if any. -/
theorem Apart.close (h : Apart t) (hlatest : Latest t sock conn) : Apart (t.close sock conn) := by
  obtain ⟨fd, -, hsock⟩ := Option.map_eq_some_iff.1 hlatest.1
  rw [Clients.close]
  cases ho : t.owner sock.toNat with
  | none => exact h
  | some other =>
    refine ⟨h.running, fun fd' conn' hconn' => ?_, h.events, h.calls, h.sessions, fun e he => ?_⟩
    · dsimp only at hconn'
      rw [Function.update_apply] at hconn'
      split_ifs at hconn'
      exact h.owner fd' conn' hconn'
    · rcases List.mem_append.1 he with he | he
      · exact h.own e he
      · have hother := h.owner _ other ho
        rw [← hsock, Int.toNat_natCast, hsock] at hother
        rw [List.mem_singleton.1 he]
        exact hlatest.unique hother

/-- It destroys its own session, if any. -/
theorem Apart.destroy (h : Apart t) (hlatest : Latest t sock conn) : Apart (t.destroy sock conn) := by
  rw [Clients.destroy]
  cases hf : t.m_clientInfos.find? fun c => c.sock = sock with
  | none => exact h
  | some c =>
    have hc := h.sessions c (List.mem_of_find?_eq_some hf)
    have hsock : c.sock = sock := by simpa using List.find?_some hf
    refine ⟨h.running, h.owner, h.events, h.calls, fun c' hc' => h.sessions c' (List.mem_of_mem_eraseP hc'), fun e he => ?_⟩
    rcases List.mem_append.1 he with he | he
    · exact h.own e he
    · rw [hsock] at hc
      rw [List.mem_singleton.1 he]
      exact hlatest.unique hc

theorem Apart.call (h : Apart t) (hlatest : Latest t sock conn) (type : OpType) :
    Apart { t with calls := t.calls ++ [⟨type, sock, conn⟩] } := by
  refine ⟨h.running, h.owner, h.events, fun c hc => ?_, h.sessions, h.own⟩
  rcases List.mem_append.1 hc with hc | hc
  · exact h.calls c hc
  · rw [List.mem_singleton.1 hc]
    exact hlatest

theorem accepted_close : (t.close sock conn).accepted = t.accepted := by
  rw [Clients.close]
  cases t.owner sock.toNat <;> rfl

theorem Latest.close (h : Latest t sock other) : Latest (t.close sock conn) sock other := by
  rw [Latest, accepted_close]
  exact h

theorem Apart.step_accept (h : Apart t) (hfresh : Fresh t (.accept fd ip)) (hstep : t.step (.accept fd ip) = .ok t') :
    Apart t' := by
  obtain ⟨hevents, hcalls, hsessions⟩ := hfresh
  rw [Clients.step] at hstep
  split_ifs at hstep with hopen
  cases hstep
  rw [accept_eq h.running]
  refine ⟨h.running, fun fd' conn hconn => ?_, ?_, fun c hc => ?_, fun c hc => ?_, h.own⟩
  · dsimp only at hconn
    by_cases hfd : fd' = fd
    · rw [hfd, Function.update_self] at hconn
      rw [hfd, ← Option.some.inj hconn]
      exact latest_accepted rfl
    · rw [Function.update_of_ne hfd] at hconn
      exact (h.owner fd' conn hconn).accept (by exact_mod_cast hfd) rfl
  · refine List.rel_append ?_ (.cons ?_ .nil)
    · exact ((List.forall₂_and_left _ _).2 ⟨hevents, h.events⟩).imp fun c conn hc => hc.2.accept hc.1 rfl
    · exact latest_accepted rfl
  · exact (h.calls c hc).accept (hcalls c hc) rfl
  · exact (h.sessions c hc).accept (hsessions c hc) rfl

theorem Apart.step_dispatch (h : Apart t) (hstep : t.step .dispatch = .ok t') : Apart t' := by
  rw [Clients.step, getQueueComplateStatus] at hstep
  have hevents := h.events
  generalize hm : t.server.m_data = data at hstep hevents
  generalize ha : t.about = about at hstep hevents
  cases hevents with
  | nil => cases hstep
  | @cons req conn data about hlatest hrest =>
    dsimp only at hstep
    rw [if_pos h.running] at hstep
    have htaken : Apart { t with server := { t.server with m_data := data }, about := about } :=
      ⟨h.running, h.owner, hrest, h.calls, h.sessions, h.own⟩
    cases hv : req.valid with
    | false =>
      rw [hv] at hstep
      cases hstep
      exact htaken
    | true =>
      rw [hv] at hstep
      dsimp only at hstep
      cases ht : req.oType with
      | OP_ACCEPT =>
        rw [ht] at hstep
        cases hstep
        exact htaken.call hlatest .OP_ACCEPT
      | OP_EXIT =>
        rw [ht] at hstep
        cases hstep
        have hclosed := htaken.close hlatest
        exact hclosed.call (Latest.close hlatest) .OP_EXIT
      | OP_READ =>
        rw [ht] at hstep
        cases hstep
        exact htaken
      | OP_WRITE =>
        rw [ht] at hstep
        cases hstep
        exact htaken

theorem Apart.step (h : Apart t) (hfresh : Fresh t a) (hstep : t.step a = .ok t') : Apart t' := by
  cases a with
  | accept fd ip => exact h.step_accept hfresh hstep
  | peerCloses fd =>
    rw [Clients.step] at hstep
    cases ho : t.owner fd with
    | none =>
      rw [ho] at hstep
      cases hstep
    | some conn =>
      rw [ho] at hstep
      cases hstep
      have hdel : t.server.fdDel fd = { t.server with
          closed := t.server.closed ++ [fd]
          m_ReadQue := DispatchData.deleteOut t.server.m_ReadQue fd
          m_WriteQue := DispatchData.deleteOut t.server.m_WriteQue fd
          m_data := t.server.m_data ++ [t.server.notice fd "" .OP_EXIT] } := produceNode_running (by exact h.running) _
      rw [hdel]
      refine ⟨h.running, fun fd' conn' hconn' => ?_, List.rel_append h.events (.cons (h.owner fd conn ho) .nil), h.calls,
        h.sessions, h.own⟩
      dsimp only at hconn'
      rw [Function.update_apply] at hconn'
      split_ifs at hconn'
      exact h.owner fd' conn' hconn'
  | dispatch => exact h.step_dispatch hstep
  | kick conn =>
    rw [Clients.step] at hstep
    cases ha : t.accepted[conn]? with
    | none =>
      rw [ha] at hstep
      cases hstep
    | some fd =>
      rw [ha] at hstep
      cases hstep
      exact (h.close (hfresh fd ha)).call (hfresh fd ha).close .OP_EXIT
  | finish i =>
    rw [Clients.step] at hstep
    cases hc : t.calls[i]? with
    | none =>
      rw [hc] at hstep
      cases hstep
    | some call =>
      rw [hc] at hstep
      have hlatest := h.calls call (List.mem_of_getElem? hc)
      have hleft : Apart { t with calls := t.calls.eraseIdx i } :=
        ⟨h.running, h.owner, h.events, fun c hc => h.calls c (List.mem_of_mem_eraseIdx hc), h.sessions, h.own⟩
      dsimp only at hstep
      cases ht : call.oType with
      | OP_ACCEPT =>
        rw [ht] at hstep
        cases hstep
        refine ⟨hleft.running, hleft.owner, hleft.events, hleft.calls, fun c hc => ?_, hleft.own⟩
        rcases List.mem_append.1 hc with hc | hc
        · exact h.sessions c hc
        · rw [List.mem_singleton.1 hc]
          exact hlatest
      | _ =>
        rw [ht] at hstep
        cases hstep
        exact hleft.destroy hlatest

/-- A server that runs, before its first client. -/
def begin (s : AsyncServer) : Clients := ⟨s, fun _ => none, [], [], [], [], []⟩

theorem apart_begin {s : AsyncServer} (hs : Idle s) : Apart (begin s) where
  running := hs.running
  owner _ _ ho := by cases ho
  events := by
    rw [begin, hs.data]
    exact .nil
  calls _ hc := absurd hc List.not_mem_nil
  sessions _ hc := absurd hc List.not_mem_nil
  own _ he := absurd he List.not_mem_nil

/-- In every run in which a descriptor is given away only when nothing speaks of it any more, and a
connection is kicked only while it is the last that got its descriptor, no call closes the descriptor
or destroys the session of another connection. -/
theorem own_run {s : AsyncServer} {actions : List Action} (hs : Idle s) (hk : Along step Fresh (begin s) actions)
    (hrun : actions.foldlM step (begin s) = .ok t) : Own t :=
  (hk.keeps Apart hrun (apart_begin hs) fun _ _ _ h hfresh hstep => h.step hfresh hstep).own

instance decFresh : ∀ t a, Decidable (Fresh t a)
  | t, .accept fd _ => inferInstanceAs (Decidable ((∀ c ∈ t.server.m_data, c.cSock ≠ fd) ∧ (∀ c ∈ t.calls, c.sock ≠ fd) ∧
      ∀ c ∈ t.m_clientInfos, c.sock ≠ fd))
  | t, .kick conn => inferInstanceAs (Decidable (∀ fd, t.accepted[conn]? = some fd → Latest t fd conn))
  | _, .peerCloses _ => isTrue trivial
  | _, .dispatch => isTrue trivial
  | _, .finish _ => isTrue trivial

/-- The peer of the socket 5 leaves, and the number is given away when all of that is done; then the
new connection is kicked. -/
def ownActions : List Action :=
  [.accept 5 "10.0.0.1", .dispatch, .finish 0, .peerCloses 5, .dispatch, .finish 0, .accept 5 "10.0.0.2", .dispatch, .finish 0,
    .kick 1, .finish 0]

theorem own_run_again : ∃ t, ownActions.foldlM step (begin started) = .ok t ∧ t.undone = [(0, 0), (1, 1), (1, 1)] ∧ Own t := by
  have hended : ∃ t, ownActions.foldlM step (begin started) = .ok t ∧ t.undone = [(0, 0), (1, 1), (1, 1)] := by decide +kernel
  obtain ⟨t, ht, hundone⟩ := hended
  have hfresh : Along step Fresh (begin started) ownActions := by decide +kernel
  exact ⟨t, ht, hundone, own_run idle_started hfresh ht⟩

/-- The number is given away while the exit of the first connection waits: the descriptor of the second
connection is closed. -/
def reuseActions : List Action :=
  [.accept 5 "10.0.0.1", .dispatch, .finish 0, .peerCloses 5, .accept 5 "10.0.0.2", .dispatch]

theorem not_own_reused : Idle started ∧ ∃ t, reuseActions.foldlM step (begin started) = .ok t ∧ ¬Own t := by
  have hended : ∃ t, reuseActions.foldlM step (begin started) = .ok t ∧ t.undone = [(0, 1)] := by decide +kernel
  obtain ⟨t, ht, hundone⟩ := hended
  refine ⟨idle_started, t, ht, fun h => ?_⟩
  have := h (0, 1) (by rw [hundone]; exact List.mem_singleton_self _)
  cases this

end Clients

end AsyncNet
