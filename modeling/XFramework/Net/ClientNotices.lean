/-
What the user is told of the clients (Net/BalanceHandle_Linux.cpp,
TestCase/Net/TCP/Server/TServerSession.cpp).

`AppendNewClient` lists the session and then calls `ClientEnter`;
`KickClient` and `RemoveClient` take the session out, when they find it, and
call `ClientExit` either way. They are called from several threads: by the
user, by the dispatch thread when the socket is closed, which a kick does,
and by the heartbeat monitor for each entry of its list. So a call for any
client may begin at any time, and more than one for the same client. What a
call does under `m_rwLock` is one step, and each notice another.

The notices pair up in runs in which a call finds the session of its client,
and `ClientExit` comes behind `ClientEnter` (`paired_run`): then the entry of
a client is with its `AppendNewClient`, listed, with the call that took it
out, or told, and never in two places.
-/
import XFramework.Lib.Threads
import XFramework.Net.Disconnect

open Fallible

namespace AsyncNet

/-- A notice of `SessionInterface`, for the connection. -/
inductive Notice
  | clientEnter (conn : Nat)
  | clientExit (conn : Nat)
  deriving DecidableEq

/-- What a call does next: `append` and `erase` are its section under the lock. -/
inductive NoticeCall
  | append (c : ClientInfo)
  | clientEnter (c : ClientInfo)
  | postRecv (c : ClientInfo)
  | erase (c : ClientInfo)
  | clientExit (c : ClientInfo)
  | returned
  deriving DecidableEq

/-- Why a step is not made, or `AppendNewClient` throws: there is no session for the client. -/
inductive NoticeFault
  | blocked
  | noSession
  deriving DecidableEq

/-- `accepted` counts the connections, and `listed` are those whose session has been in `m_clientInfos`. -/
structure ClientNotices where
  m_bStart : Bool
  accepted : Nat
  m_clientInfos : List ClientInfo
  calls : List NoticeCall
  listed : List Nat
  notices : List Notice

namespace ClientNotices

/-- `appendNewClient` is called for each connection once; `run` is the next step of a call. -/
inductive Action
  | appendNewClient (sock : Int) (session : Bool)
  | kickClient (c : ClientInfo)
  | removeClient (c : ClientInfo)
  | run (i : Nat)

def begin : ClientNotices := ⟨true, 0, [], [], [], []⟩

/-- `KickClient` and `RemoveClient` up to the lock. -/
def leave (t : ClientNotices) (c : ClientInfo) : ClientNotices :=
  if t.m_bStart then { t with calls := t.calls ++ [.erase c] } else t

def stepCall (t : ClientNotices) (i : Nat) : NoticeCall → Except NoticeFault ClientNotices
  | .append c => .ok { t with
      m_clientInfos := t.m_clientInfos ++ [c]
      listed := t.listed ++ [c.conn]
      calls := t.calls.set i (.clientEnter c) }
  | .clientEnter c => .ok { t with notices := t.notices ++ [.clientEnter c.conn], calls := t.calls.set i (.postRecv c) }
  | .postRecv _ => .ok { t with calls := t.calls.set i .returned }
  | .erase c => .ok { t with
      -- nothing is taken out when no session has the socket, and the exit is told all the same
      m_clientInfos := t.m_clientInfos.eraseP fun s => s.sock = c.sock
      calls := t.calls.set i (.clientExit c) }
  | .clientExit c => .ok { t with notices := t.notices ++ [.clientExit c.conn], calls := t.calls.set i .returned }
  | .returned => .error .blocked

def step (t : ClientNotices) : Action → Except NoticeFault ClientNotices
  | .appendNewClient sock session =>
    if t.m_bStart then
      if session then .ok { t with accepted := t.accepted + 1, calls := t.calls ++ [.append ⟨sock, t.accepted⟩] }
      else .error .noSession
    else .ok t
  | .kickClient c => .ok (t.leave c)
  | .removeClient c => .ok (t.leave c)
  | .run i =>
    match t.calls[i]? with
    | none => .error .blocked
    | some call => t.stepCall i call

/-- The call has yet to tell that the client enters. -/
def owesEnter (conn : Nat) : NoticeCall → Bool
  | .append c | .clientEnter c => c.conn = conn
  | _ => false

/-- The call has the entry of the client: it is yet to be listed, or was taken out. -/
def hasEntry (conn : Nat) : NoticeCall → Bool
  | .append c | .clientExit c => c.conn = conn
  | _ => false

/-- The notices for each client pair up. -/
structure Paired (t : ClientNotices) : Prop where
  enters : ∀ conn, t.notices.count (.clientEnter conn) ≤ 1
  /-- Once `AppendNewClient` has come to its end. -/
  entered : ∀ conn < t.accepted, (∀ call ∈ t.calls, owesEnter conn call = false) → t.notices.count (.clientEnter conn) = 1
  exits : ∀ conn, t.notices.count (.clientExit conn) ≤ 1
  ordered : ∀ (conn i : Nat), t.notices[i]? = some (.clientExit conn) → .clientEnter conn ∈ t.notices.take i
  listed : ∀ conn, .clientExit conn ∈ t.notices → conn ∈ t.listed

/-- A call that takes a session out finds that of its client, and tells the exit of a client that has
entered. -/
def Finds (t : ClientNotices) : Action → Prop
  | .run i => ∀ call, t.calls[i]? = some call → match call with
    | .erase c => t.m_clientInfos.find? (fun s => s.sock = c.sock) = some c
    | .clientExit c => .clientEnter c.conn ∈ t.notices
    | _ => True
  | _ => True

/-- How often a client is told to enter, or will be. -/
def enters (t : ClientNotices) (conn : Nat) : Nat :=
  t.calls.countP (owesEnter conn) + t.notices.count (.clientEnter conn)

/-- In how many places the entry of a client is: with a call, listed, or told to have left. -/
def entries (t : ClientNotices) (conn : Nat) : Nat :=
  t.calls.countP (hasEntry conn) + t.m_clientInfos.countP (fun s => s.conn = conn) + t.notices.count (.clientExit conn)

structure Inv (t : ClientNotices) : Prop where
  enters : ∀ conn, t.enters conn = if conn < t.accepted then 1 else 0
  entries : ∀ conn, t.entries conn = if conn < t.accepted then 1 else 0
  ordered : ∀ (conn i : Nat), t.notices[i]? = some (.clientExit conn) → .clientEnter conn ∈ t.notices.take i
  infos : ∀ c ∈ t.m_clientInfos, c.conn ∈ t.listed
  taken : ∀ c, .clientExit c ∈ t.calls → c.conn ∈ t.listed
  told : ∀ conn, .clientExit conn ∈ t.notices → conn ∈ t.listed

variable {t t' : ClientNotices} {a : Action} {acts : List Action} {i conn : Nat} {c : ClientInfo} {call : NoticeCall}
  {note : Notice}

theorem inv_begin : Inv begin := by
  constructor <;> simp [begin, enters, entries]

/-- A notice that is added keeps the order, when an exit comes behind its entry. -/
theorem ordered_concat {notices : List Notice}
    (h : ∀ (conn i : Nat), notices[i]? = some (.clientExit conn) → .clientEnter conn ∈ notices.take i)
    (hnote : ∀ conn, note = .clientExit conn → .clientEnter conn ∈ notices) (conn i : Nat)
    (hi : (notices ++ [note])[i]? = some (.clientExit conn)) : .clientEnter conn ∈ (notices ++ [note]).take i := by
  by_cases hlt : i < notices.length
  · rw [List.getElem?_append_left hlt] at hi
    rw [List.take_append_of_le_length hlt.le]
    exact h conn i hi
  · have hle := (List.getElem?_eq_some_iff.1 hi).1
    rw [List.length_append, List.length_singleton] at hle
    have hlast : i = notices.length := by omega
    rw [hlast, List.getElem?_concat_length] at hi
    rw [hlast, List.take_left]
    exact hnote conn (Option.some.inj hi)

theorem count_concat {notices : List Notice} {x : Notice} :
    (notices ++ [note]).count x = notices.count x + (decide (note = x)).toNat := by
  rw [List.count, Threads.countP_concat]
  rfl

theorem Inv.append (h : Inv t) (hi : t.calls[i]? = some (.append c)) : Inv { t with
    m_clientInfos := t.m_clientInfos ++ [c]
    listed := t.listed ++ [c.conn]
    calls := t.calls.set i (.clientEnter c) } := by
  constructor
  case enters =>
    intro conn
    have hcount := Threads.countP_set (p := owesEnter conn) (b := .clientEnter c) hi
    have := h.enters conn
    simp only [ClientNotices.enters, owesEnter] at hcount this ⊢
    omega
  case entries =>
    intro conn
    have hcount := Threads.countP_set (p := hasEntry conn) (b := .clientEnter c) hi
    have := h.entries conn
    simp only [ClientNotices.entries, hasEntry, Threads.countP_concat, Bool.toNat_false] at hcount this ⊢
    omega
  case ordered => exact h.ordered
  case infos =>
    intro s hs
    rcases List.mem_append.1 hs with hs | hs
    · exact List.mem_append_left _ (h.infos s hs)
    · rw [List.mem_singleton.1 hs]
      exact List.mem_append_right _ (List.mem_singleton_self _)
  case taken =>
    intro s hs
    rcases List.mem_or_eq_of_mem_set hs with hs | hs
    · exact List.mem_append_left _ (h.taken s hs)
    · cases hs
  case told => exact fun conn hconn => List.mem_append_left _ (h.told conn hconn)

theorem Inv.clientEnter (h : Inv t) (hi : t.calls[i]? = some (.clientEnter c)) : Inv { t with
    notices := t.notices ++ [.clientEnter c.conn]
    calls := t.calls.set i (.postRecv c) } := by
  constructor
  case enters =>
    intro conn
    have hcount := Threads.countP_set (p := owesEnter conn) (b := .postRecv c) hi
    have := h.enters conn
    simp only [ClientNotices.enters, owesEnter, count_concat, Notice.clientEnter.injEq, Bool.toNat_false] at hcount this ⊢
    omega
  case entries =>
    intro conn
    have hcount := Threads.countP_set (p := hasEntry conn) (b := .postRecv c) hi
    have := h.entries conn
    simp only [ClientNotices.entries, hasEntry, count_concat, reduceCtorEq, decide_false, Bool.toNat_false] at hcount this ⊢
    omega
  case ordered => exact ordered_concat h.ordered nofun
  case infos => exact h.infos
  case taken =>
    intro s hs
    rcases List.mem_or_eq_of_mem_set hs with hs | hs
    · exact h.taken s hs
    · cases hs
  case told =>
    intro conn hconn
    simp only [List.mem_append, List.mem_singleton, reduceCtorEq, or_false] at hconn
    exact h.told conn hconn

theorem Inv.postRecv (h : Inv t) (hi : t.calls[i]? = some (.postRecv c)) : Inv { t with calls := t.calls.set i .returned } := by
  constructor
  case enters =>
    intro conn
    have hcount := Threads.countP_set (p := owesEnter conn) (b := .returned) hi
    have := h.enters conn
    simp only [ClientNotices.enters, owesEnter] at hcount this ⊢
    omega
  case entries =>
    intro conn
    have hcount := Threads.countP_set (p := hasEntry conn) (b := .returned) hi
    have := h.entries conn
    simp only [ClientNotices.entries, hasEntry] at hcount this ⊢
    omega
  case ordered => exact h.ordered
  case infos => exact h.infos
  case taken =>
    intro s hs
    rcases List.mem_or_eq_of_mem_set hs with hs | hs
    · exact h.taken s hs
    · cases hs
  case told => exact h.told

/-- A call takes the session of its client out. -/
theorem Inv.erase (h : Inv t) (hi : t.calls[i]? = some (.erase c))
    (hfind : t.m_clientInfos.find? (fun s => s.sock = c.sock) = some c) : Inv { t with
    m_clientInfos := t.m_clientInfos.eraseP fun s => s.sock = c.sock
    calls := t.calls.set i (.clientExit c) } := by
  obtain ⟨-, l₁, l₂, hl, hne⟩ := List.find?_eq_some_iff_append.1 hfind
  have herase : t.m_clientInfos.eraseP (fun s => s.sock = c.sock) = l₁ ++ l₂ := by
    rw [hl, List.eraseP_append_right _ (by simpa using hne), List.eraseP_cons_of_pos (by simp)]
  constructor
  case enters =>
    intro conn
    have hcount := Threads.countP_set (p := owesEnter conn) (b := .clientExit c) hi
    have := h.enters conn
    simp only [ClientNotices.enters, owesEnter] at hcount this ⊢
    omega
  case entries =>
    intro conn
    have hcount := Threads.countP_set (p := hasEntry conn) (b := .clientExit c) hi
    have := h.entries conn
    simp only [ClientNotices.entries, hasEntry, herase] at hcount this ⊢
    rw [hl, List.append_cons, List.countP_append, Threads.countP_concat] at this
    rw [List.countP_append]
    simp only [Bool.toNat_false] at hcount
    omega
  case ordered => exact h.ordered
  case infos => exact fun s hs => h.infos s (List.mem_of_mem_eraseP hs)
  case taken =>
    intro s hs
    rcases List.mem_or_eq_of_mem_set hs with hs | hs
    · exact h.taken s hs
    · cases hs
      exact h.infos c (List.mem_of_find?_eq_some hfind)
  case told => exact h.told

/-- The exit of a client is told that was told to enter. -/
theorem Inv.clientExit (h : Inv t) (hi : t.calls[i]? = some (.clientExit c)) (henter : .clientEnter c.conn ∈ t.notices) : Inv { t with
    notices := t.notices ++ [.clientExit c.conn]
    calls := t.calls.set i .returned } := by
  constructor
  case enters =>
    intro conn
    have hcount := Threads.countP_set (p := owesEnter conn) (b := .returned) hi
    have := h.enters conn
    simp only [ClientNotices.enters, owesEnter, count_concat, reduceCtorEq, decide_false, Bool.toNat_false] at hcount this ⊢
    omega
  case entries =>
    intro conn
    have hcount := Threads.countP_set (p := hasEntry conn) (b := .returned) hi
    have := h.entries conn
    simp only [ClientNotices.entries, hasEntry, count_concat, Notice.clientExit.injEq, Bool.toNat_false] at hcount this ⊢
    omega
  case ordered =>
    refine ordered_concat h.ordered fun conn hnote => ?_
    cases hnote
    exact henter
  case infos => exact h.infos
  case taken =>
    intro s hs
    rcases List.mem_or_eq_of_mem_set hs with hs | hs
    · exact h.taken s hs
    · cases hs
  case told =>
    intro conn hconn
    simp only [List.mem_append, List.mem_singleton, Notice.clientExit.injEq] at hconn
    rcases hconn with hconn | rfl
    · exact h.told conn hconn
    · exact h.taken c (List.mem_of_getElem? hi)

/-- `AppendNewClient` begins, for a connection of which nothing was told before. -/
theorem Inv.accept (h : Inv t) (sock : Int) : Inv { t with
    accepted := t.accepted + 1
    calls := t.calls ++ [.append ⟨sock, t.accepted⟩] } := by
  constructor
  case enters =>
    intro conn
    have := h.enters conn
    simp only [ClientNotices.enters, owesEnter, Threads.countP_concat] at this ⊢
    by_cases hconn : t.accepted = conn
    · rw [if_neg (by omega)] at this
      simp only [hconn, decide_true, Bool.toNat_true, Nat.lt_succ_self, if_true]
      omega
    · have hlt : conn < t.accepted + 1 ↔ conn < t.accepted := by omega
      simp only [hconn, decide_false, Bool.toNat_false, hlt]
      exact this
  case entries =>
    intro conn
    have := h.entries conn
    simp only [ClientNotices.entries, hasEntry, Threads.countP_concat] at this ⊢
    by_cases hconn : t.accepted = conn
    · rw [if_neg (by omega)] at this
      simp only [hconn, decide_true, Bool.toNat_true, Nat.lt_succ_self, if_true]
      omega
    · have hlt : conn < t.accepted + 1 ↔ conn < t.accepted := by omega
      simp only [hconn, decide_false, Bool.toNat_false, hlt]
      exact this
  case ordered => exact h.ordered
  case infos => exact h.infos
  case taken =>
    intro s hs
    simp only [List.mem_append, List.mem_singleton, reduceCtorEq, or_false] at hs
    exact h.taken s hs
  case told => exact h.told

/-- `KickClient` and `RemoveClient` begin. -/
theorem Inv.leave (h : Inv t) (c : ClientInfo) : Inv (t.leave c) := by
  rw [ClientNotices.leave]
  split_ifs
  case neg => exact h
  constructor
  case enters =>
    intro conn
    rw [← h.enters conn]
    simp [ClientNotices.enters, owesEnter]
  case entries =>
    intro conn
    rw [← h.entries conn]
    simp [ClientNotices.entries, hasEntry]
  case ordered => exact h.ordered
  case infos => exact h.infos
  case taken =>
    intro s hs
    simp only [List.mem_append, List.mem_singleton, reduceCtorEq, or_false] at hs
    exact h.taken s hs
  case told => exact h.told

theorem Inv.step (h : Inv t) (hok : Finds t a) (hstep : t.step a = .ok t') : Inv t' := by
  cases a with
  | appendNewClient sock session =>
    simp only [ClientNotices.step] at hstep
    split_ifs at hstep
    all_goals cases hstep
    · exact h.accept sock
    · exact h
  | kickClient c =>
    cases hstep
    exact h.leave c
  | removeClient c =>
    cases hstep
    exact h.leave c
  | run i =>
    simp only [ClientNotices.step] at hstep
    split at hstep
    case h_1 => cases hstep
    case h_2 call hi =>
      have hfinds := hok call hi
      cases call <;> cases hstep
      case append => exact h.append hi
      case clientEnter => exact h.clientEnter hi
      case postRecv => exact h.postRecv hi
      case erase => exact h.erase hi hfinds
      case clientExit => exact h.clientExit hi hfinds

theorem Inv.paired (h : Inv t) : Paired t := by
  constructor
  case enters =>
    intro conn
    have := h.enters conn
    simp only [ClientNotices.enters] at this
    split_ifs at this <;> omega
  case entered =>
    intro conn hconn hcalls
    have := h.enters conn
    rw [if_pos hconn, ClientNotices.enters, List.countP_eq_zero.2 (by simpa using hcalls), Nat.zero_add] at this
    exact this
  case exits =>
    intro conn
    have := h.entries conn
    simp only [ClientNotices.entries] at this
    split_ifs at this <;> omega
  case ordered => exact h.ordered
  case listed => exact h.told

/-- In every run in which calls find the session of their client, which has entered by the time its exit is
told, the notices pair up. -/
theorem paired_run (hk : Along step Finds begin acts) (hrun : acts.foldlM step begin = .ok t) : Paired t :=
  (hk.keeps Inv hrun inv_begin fun _ _ _ h hok hstep => h.step hok hstep).paired

instance decFinds (t : ClientNotices) : ∀ a, Decidable (Finds t a)
  | .run i =>
    have : DecidablePred fun call : NoticeCall => match call with
        | .erase c => t.m_clientInfos.find? (fun s => s.sock = c.sock) = some c
        | .clientExit c => .clientEnter c.conn ∈ t.notices
        | _ => True := fun call => by cases call <;> infer_instance
    decForallSome (t.calls[i]?)
  | .appendNewClient .. | .kickClient _ | .removeClient _ => isTrue trivial

/-- A client is accepted and entered, and is kicked. -/
def kickedActions : List Action :=
  [.appendNewClient 7 true, .run 0, .run 0, .run 0, .kickClient ⟨7, 0⟩, .run 1, .run 1]

theorem paired_run_kicked : ∃ t, kickedActions.foldlM step begin = .ok t ∧
    t.notices = [.clientEnter 0, .clientExit 0] ∧ Paired t := by
  have hended : ∃ t, kickedActions.foldlM step begin = .ok t ∧ t.notices = [.clientEnter 0, .clientExit 0] := by decide
  obtain ⟨t, ht, hnotices⟩ := hended
  exact ⟨t, ht, hnotices, paired_run (by decide) ht⟩

/-- The dispatch thread is told that the socket of the kicked client is closed. -/
def removedActions : List Action := kickedActions ++ [Action.removeClient ⟨7, 0⟩, Action.run 2, Action.run 2]

theorem not_paired_removed : ∃ t, removedActions.foldlM step begin = .ok t ∧
    t.notices = [.clientEnter 0, .clientExit 0, .clientExit 0] ∧ ¬Paired t := by
  have hended : ∃ t, removedActions.foldlM step begin = .ok t ∧
      t.notices = [.clientEnter 0, .clientExit 0, .clientExit 0] := by decide
  obtain ⟨t, ht, hnotices⟩ := hended
  refine ⟨t, ht, hnotices, fun h => ?_⟩
  have hexits := h.exits 0
  rw [hnotices] at hexits
  exact absurd hexits (by decide)

end ClientNotices

end AsyncNet
