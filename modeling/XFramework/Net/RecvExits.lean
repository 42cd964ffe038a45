/-
How a call of `ParseData` is left (Net/SocketSession.cpp).

`ParseData` locks `m_recvLock` by hand at its start and unlocks it at its end,
takes a completion from `m_perIoDatas` when its pass is over, and locks
`m_rlock` around a package it queues. What is thrown in between passes all of
this by. The label at the end is never jumped to: no package is one of the base
protocol, and `ParseBaseProtocol` is true of every one.
-/
import XFramework.Net.RecvGuards
import XFramework.Net.RecvRun

open Bytes Fallible

/-- The locks and the queue during a call, and how many passes of its loop were begun. -/
structure Held where
  m_recvLock : Bool
  m_rlock : Bool
  m_perIoDatas : List TmpPerIO
  begun : Nat
  deriving DecidableEq

/-- A call that throws leaves the locks and the queue as they are then. -/
abbrev Holding := ExceptT RecvError (StateM Held)

namespace Holding

variable {α β : Type}

/-- A part of the call that neither locks nor takes anything. -/
def quietly (r : Except RecvError α) : Holding α := ExceptT.mk (pure r)

def lockRecv : Holding Unit := modify fun g => { g with m_recvLock := true }
def unlockRecv : Holding Unit := modify fun g => { g with m_recvLock := false }
def lockR : Holding Unit := modify fun g => { g with m_rlock := true }
def unlockR : Holding Unit := modify fun g => { g with m_rlock := false }
def begin : Holding Unit := modify fun g => { g with begun := g.begun + 1 }
def popFront : Holding Unit := modify fun g => { g with m_perIoDatas := g.m_perIoDatas.tail }

end Holding

namespace RecvSession

open Holding

variable (h : RecvHandle) (now : Int)

/-- A complete package, as in `handOutOne`; `m_rlock` is held around the queue. -/
def handOutOneHeld (s : RecvSession) (frames : List MsgFrame) : Holding RecvSession :=
  match frames with
  | [] => pure s
  | f :: _ =>
    let head := MsgHead.load s.mem f.m_buf
    let totalLen := head.tDataLen.toNat
    let tSrcLen := head.tSrcLen.toNat
    if totalLen > 0 then
      if h.setPackageInfo totalLen tSrcLen then
        if h.alloc tSrcLen then do
          let data ← quietly (setMsgFrames s.mem tSrcLen frames [])
          if totalLen = data.length then
            match h.process data with
            | none => pure s
            | some data =>
              if isBaseProtocolPackage head.nProtoType then pure (s.parseBaseProtocol now head.nProtoType)
              else do
                lockR
                let s := { s with m_recvQueue := s.m_recvQueue ++ [⟨data, tSrcLen⟩] }
                unlockR
                pure s
          else pure s
        else pure s
      else pure s
    else if isBaseProtocolPackage head.nProtoType then pure (s.parseBaseProtocol now head.nProtoType)
    else pure s

def handOutHeld (s : RecvSession) (bFinshPackage : Bool) : Holding RecvSession := do
  let vecFrames ← quietly (completeEntries s.mem s.m_mapFrames.entries)
  let nIndex := s.firstExtend
  let (s, nLastIndex) ← quietly (s.lastPlace h nIndex vecFrames)
  let s ← quietly (s.eraseEntries vecFrames)
  let s ← vecFrames.foldlM (handOutOneHeld h now) s
  let (s, place) ← quietly (s.placeAfter nIndex nLastIndex)
  if bFinshPackage then quietly (s.postAfter place nIndex) else pure s

def deliverHeld (s : RecvSession) (bFinshPackage : Bool) : Holding RecvSession := do
  let bfinishR ← quietly (hasComplete s.mem s.m_mapFrames.entries)
  if bfinishR then handOutHeld h now s bFinshPackage else pure s

/-- One pass of the loop. -/
def parseOneHeld (s : RecvSession) (io : TmpPerIO) : Holding RecvSession :=
  if io.nIndex < s.m_RecvBuf.length then do
    let (s, stamp, bFlag) ← quietly (s.takeData io.nIndex io)
    match stamp with
    | none => pure s
    | some stamp => do
      let (s, bFinshPackage) ← quietly (goOn h s io.nIndex stamp bFlag)
      deliverHeld h now s bFinshPackage
  else pure s

/-- A pass, and the completion leaves the queue. -/
def passHeld (s : RecvSession) (io : TmpPerIO) : Holding RecvSession := do
  begin
  let s ← parseOneHeld h now s io
  popFront
  pure s

/-- `ParseData`, with its locks. -/
def parseDataHeld (s : RecvSession) : Holding RecvSession := do
  lockRecv
  let s ← s.m_perIoDatas.foldlM (passHeld h now) s
  unlockRecv
  pure { s with m_perIoDatas := [] }

/-- What is held when a call that begins with nothing held is left, and what it returns or throws. -/
def exit (s : RecvSession) : Except RecvError RecvSession × Held := (parseDataHeld h now s).run.run ⟨false, false, s.m_perIoDatas, 0⟩

/-- Both locks are free, and the completions whose passes were begun have left the queue. -/
def Released (s : RecvSession) (g : Held) : Prop :=
  g.m_recvLock = false ∧ g.m_rlock = false ∧ g.m_perIoDatas = s.m_perIoDatas.drop g.begun

instance (s : RecvSession) (g : Held) : Decidable (s.Released g) := inferInstanceAs (Decidable (_ ∧ _ ∧ _))

end RecvSession

/-! ## What a part of the call leaves -/

namespace Holding

variable {α β : Type} {g : Held}

/-- A part of the call that computes `r` and leaves what is held as it found it, `m_rlock` being free. -/
def Computes (x : Holding α) (r : Except RecvError α) : Prop := ∀ g : Held, g.m_rlock = false → x.run.run g = (r, g)

theorem computes_quietly (r : Except RecvError α) : Computes (quietly r) r := fun _ _ => rfl

theorem computes_pure (a : α) : Computes (pure a : Holding α) (.ok a) := fun _ _ => rfl

theorem Computes.bind {x : Holding α} {f : α → Holding β} {r : Except RecvError α} {f' : α → Except RecvError β}
    (hx : Computes x r) (hf : ∀ a, Computes (f a) (f' a)) : Computes (x >>= f) (r >>= f') := by
  intro g hg
  rw [ExceptT.run_bind, StateT.run_bind, hx g hg]
  cases r with
  | error e => rfl
  | ok a => exact hf a g hg

theorem Computes.foldlM {σ ι : Type} {f : σ → ι → Holding σ} {f' : σ → ι → Except RecvError σ} {l : List ι} {s : σ}
    (hf : ∀ s a, Computes (f s a) (f' s a)) : Computes (l.foldlM f s) (l.foldlM f' s) := by
  induction l generalizing s with
  | nil => exact computes_pure s
  | cons a l ih =>
    rw [List.foldlM_cons, List.foldlM_cons]
    exact (hf s a).bind fun t => ih

end Holding

namespace RecvSession

open Holding

variable {h : RecvHandle} {now : Int} {s : RecvSession} {io : TmpPerIO} {g : Held} {e : RecvError}

theorem computes_handOutOneHeld (s : RecvSession) (frames : List MsgFrame) :
    Computes (s.handOutOneHeld h now frames) (s.handOutOne h now frames) := by
  cases frames with
  | nil => exact computes_pure s
  | cons f fs =>
    simp only [handOutOneHeld, handOutOne, isBaseProtocolPackage, Bool.false_eq_true, if_false]
    split_ifs
    · refine (computes_quietly _).bind fun data => ?_
      split_ifs
      · cases h.process data with
        | none => exact computes_pure s
        | some data =>
          intro g hg
          obtain ⟨m_recvLock, m_rlock, m_perIoDatas, begun⟩ := g
          cases hg
          rfl
      · exact computes_pure s
    all_goals exact computes_pure s

theorem computes_handOutHeld (s : RecvSession) (b : Bool) : Computes (s.handOutHeld h now b) (s.handOut h now b) := by
  refine (computes_quietly _).bind fun vecFrames => (computes_quietly _).bind fun last => (computes_quietly _).bind fun s₁ =>
    (Computes.foldlM computes_handOutOneHeld).bind fun s₂ => (computes_quietly _).bind fun place => ?_
  dsimp only
  split_ifs
  · exact computes_quietly _
  · exact computes_pure _

theorem computes_deliverHeld (s : RecvSession) (b : Bool) : Computes (s.deliverHeld h now b) (s.deliver h now b) := by
  refine (computes_quietly _).bind fun bfinishR => ?_
  split_ifs
  · exact computes_handOutHeld s b
  · exact computes_pure s

theorem computes_parseOneHeld (s : RecvSession) (io : TmpPerIO) : Computes (s.parseOneHeld h now io) (s.parseOne h now io) := by
  rw [parseOneHeld, parseOne]
  split_ifs
  · refine (computes_quietly _).bind fun r => ?_
    obtain ⟨s₁, stamp, bFlag⟩ := r
    cases stamp with
    | none => exact computes_pure s₁
    | some stamp => exact (computes_quietly _).bind fun r => computes_deliverHeld r.1 r.2
  · exact computes_pure s

/-! ## How the loop is left -/

/-- A pass that throws keeps its completion at the front of the queue. -/
theorem run_passHeld (hg : g.m_rlock = false) :
    (s.passHeld h now io).run.run g = match s.parseOne h now io with
      | .ok s' => (.ok s', { g with m_perIoDatas := g.m_perIoDatas.tail, begun := g.begun + 1 })
      | .error e => (.error e, { g with begun := g.begun + 1 }) := by
  rw [passHeld, ExceptT.run_bind, StateT.run_bind]
  change ((parseOneHeld h now s io >>= fun s' => popFront >>= fun _ => pure s').run.run { g with begun := g.begun + 1 }) = _
  rw [ExceptT.run_bind, StateT.run_bind, computes_parseOneHeld s io { g with begun := g.begun + 1 } hg]
  cases s.parseOne h now io with
  | error e => rfl
  | ok s' => rfl

theorem run_loop_ok {l : List TmpPerIO} {s' : RecvSession} (hg : g.m_rlock = false) (hl : g.m_perIoDatas = l)
    (hr : l.foldlM (parseOne h now) s = .ok s') :
    (l.foldlM (passHeld h now) s).run.run g = (.ok s', { g with m_perIoDatas := [], begun := g.begun + l.length }) := by
  induction l generalizing s g with
  | nil =>
    cases foldlM_nil_ok.1 hr
    obtain ⟨m_recvLock, m_rlock, m_perIoDatas, begun⟩ := g
    cases hl
    rfl
  | cons io l ih =>
    obtain ⟨t, ht, hr⟩ := foldlM_cons_ok.1 hr
    rw [List.foldlM_cons, ExceptT.run_bind, StateT.run_bind, run_passHeld hg, ht]
    have hrest := ih (g := { g with m_perIoDatas := g.m_perIoDatas.tail, begun := g.begun + 1 }) hg (by rw [hl]; rfl) hr
    rw [List.length_cons, Nat.add_comm l.length 1, ← Nat.add_assoc]
    exact hrest

theorem run_loop_error {l : List TmpPerIO} (hg : g.m_rlock = false) (hl : g.m_perIoDatas = l)
    (hr : l.foldlM (parseOne h now) s = .error e) :
    ∃ k < l.length, (l.foldlM (passHeld h now) s).run.run g =
      (.error e, { g with m_perIoDatas := l.drop k, begun := g.begun + k + 1 }) := by
  induction l generalizing s g with
  | nil => cases hr
  | cons io l ih =>
    rw [List.foldlM_cons] at hr ⊢
    rw [ExceptT.run_bind, StateT.run_bind, run_passHeld hg]
    cases ht : s.parseOne h now io with
    | error e' =>
      rw [ht] at hr
      cases hr
      refine ⟨0, Nat.succ_pos _, ?_⟩
      rw [List.drop_zero, ← hl]
      rfl
    | ok t =>
      rw [ht] at hr
      obtain ⟨k, hk, hrest⟩ := ih (s := t) (g := { g with m_perIoDatas := g.m_perIoDatas.tail, begun := g.begun + 1 }) hg
        (by rw [hl]; rfl) hr
      refine ⟨k + 1, Nat.succ_lt_succ hk, ?_⟩
      rw [List.drop_succ_cons, ← Nat.add_assoc, Nat.add_right_comm g.begun]
      exact hrest

theorem exit_ok {s' : RecvSession} (hr : s.parseData h now = .ok s') :
    s.exit h now = (.ok s', ⟨false, false, [], s.m_perIoDatas.length⟩) := by
  obtain ⟨t, hloop, hr⟩ := bind_eq_ok.1 hr
  cases hr
  have hrun := run_loop_ok (g := ⟨true, false, s.m_perIoDatas, 0⟩) rfl rfl hloop
  rw [exit, parseDataHeld, ExceptT.run_bind, StateT.run_bind]
  change ((s.m_perIoDatas.foldlM (passHeld h now) s >>= fun s' => unlockRecv >>= fun _ => pure { s' with m_perIoDatas := [] }).run.run
    ⟨true, false, s.m_perIoDatas, 0⟩) = _
  rw [ExceptT.run_bind, StateT.run_bind, hrun, Nat.zero_add]
  rfl

/-- A call that throws leaves `m_recvLock` locked, and the completion of its pass at the front of the queue. -/
theorem exit_error (hr : s.parseData h now = .error e) :
    ∃ k < s.m_perIoDatas.length, s.exit h now = (.error e, ⟨true, false, s.m_perIoDatas.drop k, k + 1⟩) := by
  have hloop : s.m_perIoDatas.foldlM (parseOne h now) s = .error e := by
    rw [parseData] at hr
    cases hloop : s.m_perIoDatas.foldlM (parseOne h now) s with
    | error e' =>
      rw [hloop] at hr
      exact hr
    | ok t =>
      rw [hloop] at hr
      cases hr
  obtain ⟨k, hk, hrun⟩ := run_loop_error (g := ⟨true, false, s.m_perIoDatas, 0⟩) rfl rfl hloop
  refine ⟨k, hk, ?_⟩
  rw [exit, parseDataHeld, ExceptT.run_bind, StateT.run_bind]
  change ((s.m_perIoDatas.foldlM (passHeld h now) s >>= fun s' => unlockRecv >>= fun _ => pure { s' with m_perIoDatas := [] }).run.run
    ⟨true, false, s.m_perIoDatas, 0⟩) = _
  rw [ExceptT.run_bind, StateT.run_bind, hrun, Nat.zero_add]
  rfl

theorem released_exit : s.Released (s.exit h now).2 ↔ Returns (s.parseData h now) := by
  cases hr : s.parseData h now with
  | ok s' =>
    rw [exit_ok hr]
    exact iff_of_true ⟨rfl, rfl, List.drop_length.symm⟩ returns_ok
  | error e =>
    obtain ⟨k, -, hexit⟩ := exit_error hr
    rw [hexit]
    exact iff_of_false (fun h => Bool.noConfusion h.1) not_returns_error

/-! ## Every exit of a run -/

/-- Nothing is held, and no completion that was begun is left, when `ParseData` is left. -/
def ReleasesAll (h : RecvHandle) (s : RecvSession) : Action → Prop
  | .arrive _ => True
  | .parse now => s.Released (s.exit h now).2

instance (s : RecvSession) (a : Action) : Decidable (s.ReleasesAll h a) :=
  match a with
  | .arrive _ => isTrue trivial
  | .parse now => inferInstanceAs (Decidable (s.Released (s.exit h now).2))

/-- Every pass of a call of `ParseData` meets its guards. -/
def Guarded (h : RecvHandle) (s : RecvSession) : Action → Prop
  | .arrive _ => True
  | .parse now => Along (parseOne h now) (Passes h) s s.m_perIoDatas

end RecvSession
