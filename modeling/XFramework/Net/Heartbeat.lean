/-
The heartbeat (Net/TcpClientImpl_Linux.cpp, Net/SocketSession.cpp,
Net/BalanceHandle_Linux.cpp, XDefine.h).

A client sends an empty package of the base protocol every
`HEARTBIT_INTERVAL` seconds, and `HeartBitHandle` notes the clients from
which none has come for a tenth longer. `ParseBaseProtocol` keeps the time
for it, but takes `BASEPROTO_CLOSE` for the heartbeat, and no package reaches
it: `PackageProxy` has no `IsBaseProtocolPackage` of its own. The time stays
that of `Init` (`heartbit_run`).
-/
import XFramework.Net.RecvKept

open Fallible

abbrev HEARTBIT_INTERVAL : Int := 30

def BASEPROTO_CLOSE : UInt8 := 2

def BASEPROTO_HEARTBIT : UInt8 := 3

/-- An empty package of the base protocol, as `TimerProc` and `DisconnServer` send it: the other fields
are those of the constructor, which leaves `m_nUserProtol` as it is. -/
def basePackage (proto : UInt8) (stamp : Int64) (nUserProtol : UInt16) : NetPackage where
  m_len := 0
  m_nBaseProtol := proto
  m_nUserProtol := nUserProtol
  m_nVerifyLen := 0
  m_pData := none
  m_timestamp := stamp
  sized := nofun

/-- A session of the server and its socket. -/
structure Client where
  sock : Int
  session : RecvSession

/-- What `HeartBitHandle` sees of the server. -/
structure HeartbitServer where
  m_clientInfos : List Client
  m_lostHeartbit : List Int

namespace HeartbitServer

variable (h : RecvHandle)

inductive Action
  | session (i : Nat) (a : RecvSession.Action)
  | heartBitHandle (now : Int)

/-- The test of `HeartBitHandle`. -/
def lost (now : Int) (c : Client) : Bool :=
  now - c.session.m_heartbitTime > HEARTBIT_INTERVAL + HEARTBIT_INTERVAL / 10

/-- `HeartBitHandle`. -/
def heartBitHandle (t : HeartbitServer) (now : Int) : HeartbitServer :=
  { t with m_lostHeartbit := t.m_lostHeartbit ++ (t.m_clientInfos.filter (lost now)).map Client.sock }

def step (t : HeartbitServer) : Action → Except RecvError HeartbitServer
  | .session i a =>
    match t.m_clientInfos[i]? with
    | none => .error .outOfRange
    | some c => do
      let session ← c.session.step h a
      .ok { t with m_clientInfos := t.m_clientInfos.set i { c with session := session } }
  | .heartBitHandle now => .ok (t.heartBitHandle now)

/-- The clients and when they were last heard of. -/
def times (t : HeartbitServer) : List (Int × Int) := t.m_clientInfos.map fun c => (c.sock, c.session.m_heartbitTime)

/-- The client `sock`, last heard of at `time`, is noted by one of the passes. -/
def Late (actions : List Action) (time : Int) : Prop :=
  ∃ now, .heartBitHandle now ∈ actions ∧ HEARTBIT_INTERVAL + HEARTBIT_INTERVAL / 10 < now - time

/-- A heartbeat that reached `ParseBaseProtocol` would not be taken for one, and a close would. -/
theorem parseBaseProtocol_codes (s : RecvSession) (now : Int) : s.parseBaseProtocol now BASEPROTO_HEARTBIT = s ∧
    (s.parseBaseProtocol now BASEPROTO_CLOSE).m_heartbitTime = now := ⟨rfl, rfl⟩

variable {h} {t t' : HeartbitServer} {a : Action} {actions : List Action} {sock time : Int}

/-- Nothing a session does changes when its client was last heard of. -/
theorem times_step (hstep : t.step h a = .ok t') : t'.times = t.times := by
  cases a with
  | session i a =>
    rw [step] at hstep
    cases hc : t.m_clientInfos[i]? with
    | none =>
      rw [hc] at hstep
      cases hstep
    | some c =>
      rw [hc] at hstep
      obtain ⟨session, hsession, hstep⟩ := bind_eq_ok.1 hstep
      cases hstep
      have htime := (RecvSession.kept_step hsession).heartbitTime
      refine List.ext_getElem? fun k => ?_
      simp only [times, List.getElem?_map, List.getElem?_set]
      by_cases hk : i = k
      · subst hk
        obtain ⟨hlt, hget⟩ := List.getElem?_eq_some_iff.1 hc
        simp [hlt, hget, htime]
      · rw [if_neg hk]
  | heartBitHandle now =>
    cases hstep
    rfl

theorem mem_lost {now : Int} (hsocks : (t.times.map Prod.fst).Nodup) (hc : (sock, time) ∈ t.times) :
    sock ∈ (t.m_clientInfos.filter (lost now)).map Client.sock ↔ HEARTBIT_INTERVAL + HEARTBIT_INTERVAL / 10 < now - time := by
  obtain ⟨c, hmem, hc⟩ := List.mem_map.1 hc
  cases hc
  refine ⟨?_, ?_⟩
  · intro hlost
    obtain ⟨c', hc', hsock⟩ := List.mem_map.1 hlost
    obtain ⟨hmem', hlost'⟩ := List.mem_filter.1 hc'
    have hsame := List.inj_on_of_nodup_map (f := Prod.fst) hsocks (List.mem_map_of_mem hmem') (List.mem_map_of_mem hmem) hsock
    have htime : c'.session.m_heartbitTime = c.session.m_heartbitTime := congrArg Prod.snd hsame
    rw [← htime]
    exact of_decide_eq_true hlost'
  · intro hlate
    exact List.mem_map.2 ⟨c, List.mem_filter.2 ⟨hmem, decide_eq_true hlate⟩, rfl⟩

theorem mem_lostHeartbit_step (hsocks : (t.times.map Prod.fst).Nodup) (hc : (sock, time) ∈ t.times)
    (hstep : t.step h a = .ok t') : sock ∈ t'.m_lostHeartbit ↔ sock ∈ t.m_lostHeartbit ∨ Late [a] time := by
  cases a with
  | session i a =>
    have hsame : t'.m_lostHeartbit = t.m_lostHeartbit := by
      rw [step] at hstep
      cases hi : t.m_clientInfos[i]? with
      | none =>
        rw [hi] at hstep
        cases hstep
      | some c =>
        rw [hi] at hstep
        obtain ⟨session, -, hstep⟩ := bind_eq_ok.1 hstep
        cases hstep
        rfl
    simp [hsame, Late]
  | heartBitHandle now =>
    cases hstep
    rw [heartBitHandle, List.mem_append, mem_lost hsocks hc]
    simp [Late]

/-- Whatever comes from a client, heartbeats too, it is taken to be last heard of when its session was
made: it is noted as lost by every pass that is late for that, and by no other. -/
theorem heartbit_run (hsocks : (t.times.map Prod.fst).Nodup) (hrun : actions.foldlM (step h) t = .ok t') :
    t'.times = t.times ∧
      ∀ sock time, (sock, time) ∈ t.times → (sock ∈ t'.m_lostHeartbit ↔ sock ∈ t.m_lostHeartbit ∨ Late actions time) := by
  induction actions generalizing t with
  | nil =>
    cases foldlM_nil_ok.1 hrun
    exact ⟨rfl, fun sock time _ => by simp [Late]⟩
  | cons a actions ih =>
    obtain ⟨t₁, hstep, hrun⟩ := foldlM_cons_ok.1 hrun
    have htimes := times_step hstep
    obtain ⟨hkept, hlost⟩ := ih (htimes ▸ hsocks) hrun
    refine ⟨hkept.trans htimes, fun sock time hc => ?_⟩
    rw [hlost sock time (htimes ▸ hc), mem_lostHeartbit_step hsocks hc hstep, or_assoc]
    simp only [Late, List.mem_cons, List.not_mem_nil, or_false]
    refine ⟨?_, ?_⟩
    · rintro (h | ⟨now, rfl, hnow⟩ | ⟨now, hmem, hnow⟩)
      · exact .inl h
      · exact .inr ⟨now, .inl rfl, hnow⟩
      · exact .inr ⟨now, .inr hmem, hnow⟩
    · rintro (h | ⟨now, rfl | hmem, hnow⟩)
      · exact .inl h
      · exact .inr (.inl ⟨now, rfl, hnow⟩)
      · exact .inr (.inr ⟨now, hmem, hnow⟩)

/-! ## A heartbeat that arrives -/

/-- The codec that changes nothing and has a buffer for an empty package, too. -/
def emptyCodec : SessionHandle := { SessionHandle.identity with getData := fun p => (p.m_len, some (p.m_pData.getD [])) }

/-- What `Packaging` makes of a heartbeat and a package behind it. -/
def beat : Except PackError (List UInt8) := do
  let queue := [basePackage BASEPROTO_HEARTBIT 20000 0, ⟨5, 0, 0, 0, some [1, 2, 3, 4, 5], 20010, by decide⟩]
  let r ← PackageProxy.packaging 1 emptyCodec (fun _ => 0) (sendFrames 0 2) queue
  .ok r.validBytes

/-- A server with one client, at the time 0. -/
def begun : Except RecvError HeartbitServer := do
  let session ← (RecvSession.init 0 (fun _ => 0) 4096).postRecv 0 none
  .ok ⟨[⟨7, session⟩], []⟩

/-- The heartbeat comes after 20 seconds, and the next one would be in time. -/
def beatActions (bs : List UInt8) : List Action :=
  [.session 0 (.arrive bs), .session 0 (.parse 20), .heartBitHandle 30, .heartBitHandle 40]

/-- What came is parsed: the package behind the heartbeat is there, and no frame waits. -/
def Parsed (t : HeartbitServer) : Prop :=
  ∀ c ∈ t.m_clientInfos, c.session.m_recvQueue = [⟨[1, 2, 3, 4, 5], 5⟩] ∧ c.session.m_mapFrames.entries = []

instance (t : HeartbitServer) : Decidable (Parsed t) := inferInstanceAs (Decidable (∀ c ∈ _, _))

theorem heartbit_run_beat : ∃ t, begun = .ok t ∧ t.times = [(7, 0)] ∧
    ∃ bs, beat = .ok bs ∧ ∃ t', (beatActions bs).foldlM (step .plain) t = .ok t' ∧ t'.times = [(7, 0)] ∧
      (7 ∈ t'.m_lostHeartbit ↔ 7 ∈ t.m_lostHeartbit ∨ Late (beatActions bs) 0) := by
  have hended : ∃ t, begun = .ok t ∧ (t.times = [(7, 0)] ∧ ∃ bs, beat = .ok bs ∧
      ∃ t', (beatActions bs).foldlM (step .plain) t = .ok t' ∧ True) := by decide +kernel
  obtain ⟨t, ht, htimes, bs, hbs, t', ht', -⟩ := hended
  have hsocks : (t.times.map Prod.fst).Nodup := by
    rw [htimes]
    decide
  obtain ⟨hkept, hlost⟩ := heartbit_run hsocks ht'
  refine ⟨t, ht, htimes, bs, hbs, t', ht', hkept.trans htimes, hlost 7 0 ?_⟩
  rw [htimes]
  exact List.mem_singleton_self _

/-- The heartbeat has come and is parsed, and 20 seconds later the client is noted as lost. -/
theorem beat_lost : ∃ t, begun = .ok t ∧ ∃ bs, beat = .ok bs ∧
    ∃ t', (beatActions bs).foldlM (step .plain) t = .ok t' ∧ (Parsed t' ∧ t'.times = [(7, 0)] ∧ 7 ∈ t'.m_lostHeartbit) := by
  decide +kernel

end HeartbitServer
