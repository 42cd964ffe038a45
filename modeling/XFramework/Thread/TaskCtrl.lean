/-
The repeated barrier (Thread/TaskCtrlImpl_Linux.cpp,
Thread/MultiThreadSync_Linux.cpp).

A flag for each worker says that it may work once; `Signal` sets them all, and
`Wait` takes the own one back. `done` posts a semaphore on which the
coordinator waits for as many posts as there are workers. The steps are the
sections under the two mutexes, and the waiters of each condition variable may
wake without a signal.

In every reachable state each worker has had as many signals as the
coordinator gave, and works on the last of them, has yet to take it, or is
done with it (`Worker.At`); the semaphore counts those that are done. So the
rounds are kept apart, and no signal is lost (`barrier_run`).
-/
import XFramework.Lib.StdMap
import XFramework.Lib.Threads
import XFramework.Thread.SemaphoreEx

open Fallible

/-- Why a step of a thread is not made: it waits, or `find` of a key that is gone is dereferenced. -/
inductive SyncFault
  | blocked
  | dangling
  deriving DecidableEq

structure MultiThreadSync where
  m_threads : StdMap Nat Int
  m_cond : CondVar Nat

namespace MultiThreadSync

def init : MultiThreadSync := ⟨.empty, .new⟩

def addThread (s : MultiThreadSync) (param : Nat) : MultiThreadSync := { s with m_threads := s.m_threads.insert param 0 }

/-- The loop of `Wait` from a test on, with the flag found, and whether the call returns. -/
def tryWait (s : MultiThreadSync) (param : Nat) (flag : Int) : MultiThreadSync × Bool :=
  if flag = 0 then ({ s with m_cond := s.m_cond.sleep param }, false)
  else ({ s with m_threads := s.m_threads.set param 0 }, true)

/-- A thread that was not added does not wait. -/
def wait (s : MultiThreadSync) (param : Nat) : MultiThreadSync × Bool :=
  match s.m_threads.find? param with
  | none => (s, true)
  | some flag => s.tryWait param flag

/-- The thread was woken and tests again. -/
def resume (s : MultiThreadSync) (param : Nat) : Except SyncFault (MultiThreadSync × Bool) :=
  if param ∈ s.m_cond.woken then
    match s.m_threads.find? param with
    | none => .error .dangling
    | some flag => .ok ({ s with m_cond := s.m_cond.resume param }.tryWait param flag)
  else .error .blocked

def signal (s : MultiThreadSync) : MultiThreadSync :=
  if s.m_threads.entries = [] then s else ⟨s.m_threads.setAll 1, s.m_cond.broadcast⟩

end MultiThreadSync

/-- Where a worker is: before `wait`, in its `pthread_cond_wait`, at work, or before `done`. -/
inductive WorkerPlace
  | wait
  | waiting
  | work
  | done
  deriving DecidableEq

/-- `started` and `dones` count how often the worker went to work and called `done`. -/
structure Worker where
  key : Nat
  place : WorkerPlace
  started : Nat
  dones : Nat
  deriving DecidableEq

/-- Where the coordinator is: before `SyncTaskOneTime`, before its `SemWait`, or waiting there. -/
inductive MainPlace
  | signal
  | semWait
  | waiting
  deriving DecidableEq

/-- `rounds` counts the calls of `SyncTaskOneTime` that have returned. -/
structure TaskCtrlImpl where
  m_semaEx : SemaphoreExImpl
  m_multSync : MultiThreadSync
  workers : List Worker
  main : MainPlace
  rounds : Nat

namespace Worker

/-- The worker waits, or is about to. -/
def Rests (w : Worker) : Prop := w.place = .wait ∨ w.place = .waiting

/-- The worker has gone to work and not called `done` for it. -/
def Busy (w : Worker) : Prop := w.place = .work ∨ w.place = .done

/-- Where a worker can be after so many signals: done with all of them, about to take the last, or at work
on it. -/
def At (w : Worker) (flag : Option Int) (signals : Nat) : Prop :=
  (w.Rests ∧ flag = some 0 ∧ w.started = signals ∧ w.dones = signals) ∨
  (w.Rests ∧ flag = some 1 ∧ w.started + 1 = signals ∧ w.dones + 1 = signals) ∨
  (w.Busy ∧ flag = some 0 ∧ w.started = signals ∧ w.dones + 1 = signals)

end Worker

namespace TaskCtrlImpl

inductive Action
  | worker (i : Nat)
  | main
  | wakeWorker (key : Nat)
  | wakeMain

/-- `Init(n)` and `AddThread` for each key, before the threads begin. -/
def begin (n : Nat) (keys : List Nat) : TaskCtrlImpl where
  m_semaEx := .init 0 n 1
  m_multSync := keys.foldl MultiThreadSync.addThread .init
  workers := keys.map fun key => ⟨key, .wait, 0, 0⟩
  main := .signal
  rounds := 0

/-- The worker has tested its flag. -/
def waited (t : TaskCtrlImpl) (i : Nat) (w : Worker) (r : MultiThreadSync × Bool) : TaskCtrlImpl :=
  { t with
    m_multSync := r.1
    workers := t.workers.set i (if r.2 then { w with place := .work, started := w.started + 1 } else { w with place := .waiting }) }

/-- The coordinator has tested the counter. -/
def mainWaited (t : TaskCtrlImpl) (r : SemaphoreExImpl × Bool) : TaskCtrlImpl :=
  { t with
    m_semaEx := r.1
    main := if r.2 then .signal else .waiting
    rounds := if r.2 then t.rounds + 1 else t.rounds }

/-- `nWait` of `SyncTaskOneTime`. -/
def nWait (t : TaskCtrlImpl) : Int := t.m_semaEx.waitAmount (-1)

/-- A step of a worker. Only the coordinator waits on the semaphore, so a signal picks it. -/
def stepWorker (t : TaskCtrlImpl) (i : Nat) (w : Worker) : Except SyncFault TaskCtrlImpl :=
  match w.place with
  | .wait => .ok (t.waited i w (t.m_multSync.wait w.key))
  | .waiting => do
    let r ← t.m_multSync.resume w.key
    .ok (t.waited i w r)
  | .work => .ok { t with workers := t.workers.set i { w with place := .done } }
  | .done => .ok { t with
      m_semaEx := t.m_semaEx.semSignal (-1) t.nWait
      workers := t.workers.set i { w with place := .wait, dones := w.dones + 1 } }

def step (t : TaskCtrlImpl) : Action → Except SyncFault TaskCtrlImpl
  | .worker i =>
    match t.workers[i]? with
    | none => .error .blocked
    | some w => t.stepWorker i w
  | .main =>
    match t.main with
    | .signal => .ok { t with m_multSync := t.m_multSync.signal, main := .semWait }
    | .semWait => .ok (t.mainWaited (t.m_semaEx.tryWait t.nWait))
    | .waiting =>
      if t.nWait ∈ t.m_semaEx.m_cond.woken then .ok (t.mainWaited (t.m_semaEx.resume t.nWait)) else .error .blocked
  | .wakeWorker key =>
    if key ∈ t.m_multSync.m_cond.asleep then
      .ok { t with m_multSync := { t.m_multSync with m_cond := t.m_multSync.m_cond.signal key } }
    else .error .blocked
  | .wakeMain =>
    if t.nWait ∈ t.m_semaEx.m_cond.asleep then
      .ok { t with m_semaEx := { t.m_semaEx with m_cond := t.m_semaEx.m_cond.signal t.nWait } }
    else .error .blocked

/-- How many calls of `Signal` the coordinator has made. -/
def signals (t : TaskCtrlImpl) : Nat := if t.main = .signal then t.rounds else t.rounds + 1

/-- What the threads may rely on. -/
structure Barrier (t : TaskCtrlImpl) : Prop where
  /-- When the coordinator has come back for the `rounds`-th time, every worker has called `done` so often. -/
  together : t.main = .signal → ∀ w ∈ t.workers, w.dones = t.rounds
  /-- Nobody begins a round before the coordinator came back from the one before. -/
  early : ∀ w ∈ t.workers, w.started ≤ t.rounds + 1
  /-- A worker that has not taken the last signal goes to work in its next step, wherever it is. -/
  proceeds : ∀ i w, t.workers[i]? = some w → w.started < t.signals →
    ∃ t', t.step (.worker i) = .ok t' ∧ t'.workers[i]? = some { w with place := .work, started := w.started + 1 }
  /-- When all are done the coordinator comes back in its next step. -/
  returns : t.main ≠ .signal → (∀ w ∈ t.workers, w.dones = t.signals) →
    ∃ t', t.step .main = .ok t' ∧ t'.rounds = t.rounds + 1

/-- The keys of the workers that wait, asleep or woken. -/
def waiters (t : TaskCtrlImpl) : Multiset Nat := t.m_multSync.m_cond.asleep + t.m_multSync.m_cond.woken

/-- How many workers are done with `k` signals. -/
def doneWith (workers : List Worker) (k : Nat) : Nat := workers.countP fun w => w.dones = k

/-- How many workers are done with the last signal. -/
def ready (t : TaskCtrlImpl) : Nat := doneWith t.workers t.signals

structure Inv (n : Nat) (t : TaskCtrlImpl) : Prop where
  length : t.workers.length = n
  keys : (t.workers.map Worker.key).Nodup
  places : ∀ w ∈ t.workers, w.At (t.m_multSync.m_threads.find? w.key) t.signals
  waiting : ∀ w ∈ t.workers, w.place = .waiting → w.key ∈ t.waiters
  asleep : ∀ key ∈ t.m_multSync.m_cond.asleep, t.m_multSync.m_threads.find? key = some 0
  nWait : t.m_semaEx.m_nWait = n
  nPost : t.m_semaEx.m_nPost = 1
  count : t.m_semaEx.m_nCount = if t.main = .signal then 0 else t.ready
  together : t.main = .signal → t.ready = n
  alone : t.main ≠ .waiting → t.m_semaEx.m_cond.asleep = 0 ∧ t.m_semaEx.m_cond.woken = 0
  waits : t.main = .waiting → (t.m_semaEx.m_cond.asleep = {(n : Int)} ∧ t.m_semaEx.m_cond.woken = 0 ∧ t.ready < n) ∨
    (t.m_semaEx.m_cond.asleep = 0 ∧ t.m_semaEx.m_cond.woken = {(n : Int)})

variable {n i : Nat} {keys : List Nat} {t t' : TaskCtrlImpl} {w w' : Worker} {a : Action} {acts : List Action}
  {m : MultiThreadSync}

theorem Inv.nWait_eq (h : Inv n t) : t.nWait = n := by
  rw [TaskCtrlImpl.nWait, SemaphoreExImpl.waitAmount, if_neg (by omega), h.nWait]

/-- The worker that makes a step, and the others, which have other keys. -/
theorem Inv.split (h : Inv n t) (hi : t.workers[i]? = some w) : ∃ l₁ l₂, t.workers = l₁ ++ w :: l₂ ∧
    (∀ b, t.workers.set i b = l₁ ++ b :: l₂) ∧
    ∀ b, ∀ x ∈ t.workers.set i b, x = b ∨ x ∈ t.workers ∧ x.key ≠ w.key := by
  obtain ⟨l₁, l₂, hl, hset⟩ := Threads.split hi
  refine ⟨l₁, l₂, hl, hset, fun b x hx => ?_⟩
  have hnodup := h.keys
  rw [hl, List.map_append, List.map_cons, List.nodup_middle, ← List.map_append] at hnodup
  rw [hset, List.mem_append, List.mem_cons, or_left_comm, ← List.mem_append] at hx
  cases hx with
  | inl hx => exact .inl hx
  | inr hx =>
    refine .inr ⟨?_, fun hkey => (List.nodup_cons.1 hnodup).1 (hkey ▸ List.mem_map_of_mem hx)⟩
    rw [hl, List.mem_append, List.mem_cons, or_left_comm, ← List.mem_append]
    exact .inr hx

theorem doneWith_split {k : Nat} {l₁ l₂ : List Worker} :
    doneWith (l₁ ++ w :: l₂) k = doneWith (l₁ ++ l₂) k + if w.dones = k then 1 else 0 := by
  simp only [doneWith, List.countP_append, List.countP_cons, decide_eq_true_eq]
  omega

theorem Inv.map_key (h : Inv n t) (hi : t.workers[i]? = some w) (w' : Worker) (hkey : w'.key = w.key) :
    (t.workers.set i w').map Worker.key = t.workers.map Worker.key := by
  obtain ⟨l₁, l₂, hl, hset, -⟩ := h.split hi
  rw [hset, hl]
  simp [hkey]

/-- A worker changes its place and its flag. -/
theorem Inv.move (h : Inv n t) (hi : t.workers[i]? = some w) (hkey : w'.key = w.key) (hdones : w'.dones = w.dones)
    (hat : w'.At (m.m_threads.find? w.key) t.signals)
    (hother : ∀ key, key ≠ w.key → m.m_threads.find? key = t.m_multSync.m_threads.find? key)
    (hwaiters : ∀ key, key ≠ w.key → key ∈ t.waiters → key ∈ m.m_cond.asleep + m.m_cond.woken)
    (hwaits : w'.place = .waiting → w.key ∈ m.m_cond.asleep + m.m_cond.woken)
    (hasleep : ∀ key ∈ m.m_cond.asleep, m.m_threads.find? key = some 0) :
    Inv n { t with m_multSync := m, workers := t.workers.set i w' } := by
  obtain ⟨l₁, l₂, hl, hset, hmem⟩ := h.split hi
  have hready : ({ t with m_multSync := m, workers := t.workers.set i w' } : TaskCtrlImpl).ready = t.ready := by
    show doneWith (t.workers.set i w') t.signals = doneWith t.workers t.signals
    rw [hset, hl, doneWith_split, doneWith_split, hdones]
  constructor
  case length => exact (List.length_set ..).trans h.length
  case keys => exact h.map_key hi w' hkey ▸ h.keys
  case places =>
    intro x hx
    cases hmem w' x hx with
    | inl hx =>
      rw [hx, hkey]
      exact hat
    | inr hx =>
      have := h.places x hx.1
      rwa [← hother x.key hx.2] at this
  case waiting =>
    intro x hx hplace
    cases hmem w' x hx with
    | inl hx =>
      rw [hx, hkey]
      exact hwaits (hx ▸ hplace)
    | inr hx => exact hwaiters x.key hx.2 (h.waiting x hx.1 hplace)
  case asleep => exact hasleep
  case nWait => exact h.nWait
  case nPost => exact h.nPost
  case count => exact h.count.trans (by rw [hready])
  case together => exact fun hmain => hready.trans (h.together hmain)
  case alone => exact h.alone
  case waits =>
    intro hmain
    rw [hready]
    exact h.waits hmain

/-- A worker tests its flag: it sleeps when it has taken the last signal, and takes it otherwise. -/
theorem Inv.waited {flag : Int} (h : Inv n t) (hi : t.workers[i]? = some w) (hrests : w.Rests)
    (hflag : t.m_multSync.m_threads.find? w.key = some flag) (hthreads : m.m_threads = t.m_multSync.m_threads)
    (hasleep : m.m_cond.asleep = t.m_multSync.m_cond.asleep)
    (hwoken : ∀ key, key ≠ w.key → key ∈ t.m_multSync.m_cond.woken → key ∈ m.m_cond.woken) :
    Inv n (t.waited i w (m.tryWait w.key flag)) := by
  have hat := h.places w (List.mem_of_getElem? hi)
  rw [hflag] at hat
  have hwaiters : ∀ key, key ≠ w.key → key ∈ t.waiters → key ∈ m.m_cond.asleep + m.m_cond.woken := by
    intro key hne hkey
    rw [Multiset.mem_add, hasleep]
    exact (Multiset.mem_add.1 hkey).imp_right (hwoken key hne)
  rw [MultiThreadSync.tryWait]
  split_ifs with h₀
  · -- there is no signal for it
    refine h.move hi rfl rfl ?_ (fun key _ => by rw [hthreads]) (fun key hne hkey => ?_) (fun _ => ?_) fun key hkey => ?_
    · rw [hthreads, hflag, h₀]
      rcases hat with ⟨-, -, hcounts⟩ | ⟨-, hone, -⟩ | ⟨hbusy, -, -⟩
      · exact .inl ⟨.inr rfl, rfl, hcounts⟩
      · cases hone
        cases h₀
      · cases hrests with
        | inl hw => simp [Worker.Busy, hw] at hbusy
        | inr hw => simp [Worker.Busy, hw] at hbusy
    · rw [CondVar.asleep_sleep, CondVar.woken_sleep, Multiset.cons_add]
      exact Multiset.mem_cons_of_mem (hwaiters key hne hkey)
    · rw [CondVar.asleep_sleep, CondVar.woken_sleep, Multiset.cons_add]
      exact Multiset.mem_cons_self ..
    · rw [hthreads]
      rcases Multiset.mem_cons.1 hkey with rfl | hkey
      · rw [hflag, h₀]
      · exact h.asleep key (hasleep ▸ hkey)
  · -- it takes the signal
    refine h.move hi rfl rfl ?_ (fun key hne => ?_) hwaiters (fun hplace => nomatch hplace) fun key hkey => ?_
    · rw [hthreads, StdMap.find?_set_self hflag]
      rcases hat with ⟨-, hzero, -⟩ | ⟨-, -, hstarted, hdones⟩ | ⟨-, hzero, -⟩
      · cases hzero
        exact absurd rfl h₀
      · exact .inr (.inr ⟨.inl rfl, rfl, hstarted, hdones⟩)
      · cases hzero
        exact absurd rfl h₀
    · rw [hthreads]
      exact StdMap.find?_set_ne hne
    · rw [hthreads]
      by_cases hne : key = w.key
      · rw [hne, StdMap.find?_set_self hflag]
      · rw [StdMap.find?_set_ne hne]
        exact h.asleep key (hasleep ▸ hkey)

theorem Inv.le (h : Inv n t) : t.ready ≤ n := h.length ▸ List.countP_le_length

/-- When all workers are done with the last signal, each is. -/
theorem Inv.all_ready (h : Inv n t) (hready : t.ready = n) (hw : w ∈ t.workers) : w.dones = t.signals := by
  rw [ready, doneWith, ← h.length, List.countP_eq_length] at hready
  simpa using hready w hw

/-- A worker calls `done`. -/
theorem Inv.done (h : Inv n t) (hn : n ≤ 255) (hi : t.workers[i]? = some w) (hplace : w.place = .done) :
    Inv n { t with
      m_semaEx := t.m_semaEx.semSignal (-1) t.nWait
      workers := t.workers.set i { w with place := .wait, dones := w.dones + 1 } } := by
  obtain ⟨l₁, l₂, hl, hset, hmem⟩ := h.split hi
  have hin := List.mem_of_getElem? hi
  have hat := h.places w hin
  rcases hat with ⟨hrests, -⟩ | ⟨hrests, -⟩ | ⟨-, hflag, hstarted, hdones⟩
  · simp [Worker.Rests, hplace] at hrests
  · simp [Worker.Rests, hplace] at hrests
  have hmain : t.main ≠ .signal := by
    intro hmain
    have := h.all_ready (h.together hmain) hin
    omega
  have hready : ({ t with
      m_semaEx := t.m_semaEx.semSignal (-1) t.nWait
      workers := t.workers.set i { w with place := .wait, dones := w.dones + 1 } } : TaskCtrlImpl).ready = t.ready + 1 := by
    have hne : w.dones ≠ t.signals := by omega
    show doneWith (t.workers.set i { w with place := .wait, dones := w.dones + 1 }) t.signals = doneWith t.workers t.signals + 1
    rw [hset, hl, doneWith_split, doneWith_split, if_pos hdones, if_neg hne]
  have hlt : t.ready < n := by
    refine lt_of_le_of_ne h.le fun hall => ?_
    have := h.all_ready hall hin
    omega
  have hcount := h.count
  rw [if_neg hmain] at hcount
  constructor
  case length => exact (List.length_set ..).trans h.length
  case keys => exact h.map_key hi { w with place := .wait, dones := w.dones + 1 } rfl ▸ h.keys
  case places =>
    intro x hx
    cases hmem _ x hx with
    | inl hx =>
      rw [hx]
      exact .inl ⟨.inl rfl, hflag, hstarted, hdones⟩
    | inr hx => exact h.places x hx.1
  case waiting =>
    intro x hx hwaiting
    cases hmem _ x hx with
    | inl hx =>
      rw [hx] at hwaiting
      cases hwaiting
    | inr hx => exact h.waiting x hx.1 hwaiting
  case asleep => exact h.asleep
  case nWait => exact h.nWait
  case nPost => exact h.nPost
  case count =>
    have hamount : t.m_semaEx.postAmount (-1) = 1 := by rw [SemaphoreExImpl.postAmount, if_neg (by omega), h.nPost]; rfl
    rw [hready, if_neg hmain]
    simp only [SemaphoreExImpl.semSignal, uchar, hamount, hcount]
    omega
  case together => exact fun hsignal => absurd hsignal hmain
  case alone =>
    intro hwaiting
    obtain ⟨hasleep, hwoken⟩ := h.alone hwaiting
    simp [SemaphoreExImpl.semSignal, CondVar.signal, hasleep, hwoken]
  case waits =>
    intro hwaiting
    -- it wakes the coordinator, when that is asleep
    rw [h.nWait_eq]
    rcases h.waits hwaiting with ⟨hasleep, hwoken, -⟩ | ⟨hasleep, hwoken⟩
    · simp [SemaphoreExImpl.semSignal, CondVar.signal, hasleep, hwoken]
    · simp [SemaphoreExImpl.semSignal, CondVar.signal, hasleep, hwoken]

/-- The coordinator signals: everybody may go to work. -/
theorem Inv.signal (h : Inv n t) (hn : 1 ≤ n) (hmain : t.main = .signal) :
    Inv n { t with m_multSync := t.m_multSync.signal, main := .semWait } := by
  have hall := fun w hw => h.all_ready (h.together hmain) (w := w) hw
  have hsignals : ({ t with m_multSync := t.m_multSync.signal, main := .semWait } : TaskCtrlImpl).signals = t.signals + 1 := by
    rw [signals, signals, if_pos hmain, if_neg (by simp)]
  have hrests : ∀ w ∈ t.workers, w.Rests ∧ t.m_multSync.m_threads.find? w.key = some 0 ∧ w.started = t.signals := by
    intro w hw
    rcases h.places w hw with ⟨hrests, hflag, hstarted, -⟩ | ⟨-, -, -, hdones⟩ | ⟨-, -, -, hdones⟩
    · exact ⟨hrests, hflag, hstarted⟩
    · have := hall w hw
      omega
    · have := hall w hw
      omega
  have hset : t.m_multSync.signal = ⟨t.m_multSync.m_threads.setAll 1, t.m_multSync.m_cond.broadcast⟩ := by
    obtain ⟨w, hw⟩ := List.exists_mem_of_length_pos (h.length.symm ▸ hn)
    refine if_neg fun hempty => ?_
    have := (hrests w hw).2.1
    rw [StdMap.find?, hempty] at this
    cases this
  have halone := h.alone (by rw [hmain]; nofun)
  constructor
  case length => exact h.length
  case keys => exact h.keys
  case places =>
    intro w hw
    obtain ⟨hr, hflag, hstarted⟩ := hrests w hw
    rw [hsignals, hset]
    refine .inr (.inl ⟨hr, StdMap.find?_setAll hflag, ?_, ?_⟩)
    · rw [hstarted]
    · rw [hall w hw]
  case waiting =>
    intro w hw hwaiting
    have := h.waiting w hw hwaiting
    rw [waiters, hset]
    exact (Multiset.zero_add t.waiters).symm ▸ this
  case asleep =>
    rw [hset]
    intro key hkey
    simp at hkey
  case nWait => exact h.nWait
  case nPost => exact h.nPost
  case count =>
    have hzero : ({ t with m_multSync := t.m_multSync.signal, main := .semWait } : TaskCtrlImpl).ready = 0 := by
      rw [ready, hsignals, doneWith, List.countP_eq_zero]
      intro w hw
      simp [hall w hw]
    have := h.count
    rw [if_pos hmain] at this
    rw [hzero]
    exact this
  case together => exact fun hsignal => nomatch hsignal
  case alone => exact fun _ => halone
  case waits => exact fun hwaiting => nomatch hwaiting

/-- The coordinator comes to another place behind the same signal. -/
theorem Inv.coordinate {s : SemaphoreExImpl} {main : MainPlace} {rounds : Nat} (h : Inv n t)
    (hsignals : ({ t with m_semaEx := s, main := main, rounds := rounds } : TaskCtrlImpl).signals = t.signals)
    (hwait : s.m_nWait = t.m_semaEx.m_nWait) (hpost : s.m_nPost = t.m_semaEx.m_nPost)
    (hcount : s.m_nCount = if main = .signal then 0 else t.ready) (htogether : main = .signal → t.ready = n)
    (halone : main ≠ .waiting → s.m_cond.asleep = 0 ∧ s.m_cond.woken = 0)
    (hwaits : main = .waiting → (s.m_cond.asleep = {(n : Int)} ∧ s.m_cond.woken = 0 ∧ t.ready < n) ∨
      (s.m_cond.asleep = 0 ∧ s.m_cond.woken = {(n : Int)})) :
    Inv n { t with m_semaEx := s, main := main, rounds := rounds } := by
  have hready : ({ t with m_semaEx := s, main := main, rounds := rounds } : TaskCtrlImpl).ready = t.ready := by
    rw [ready, hsignals]
    rfl
  constructor
  case length => exact h.length
  case keys => exact h.keys
  case places => exact hsignals ▸ h.places
  case waiting => exact h.waiting
  case asleep => exact h.asleep
  case nWait => exact hwait.trans h.nWait
  case nPost => exact hpost.trans h.nPost
  case count => exact hready.symm ▸ hcount
  case together => exact fun hsignal => hready.trans (htogether hsignal)
  case alone => exact halone
  case waits => exact hready.symm ▸ hwaits

theorem signals_of_ne (hmain : t.main ≠ .signal) : t.signals = t.rounds + 1 := if_neg hmain

/-- The coordinator tests the counter: it comes back when all workers are done. -/
theorem Inv.mainWaited {s : SemaphoreExImpl} (h : Inv n t) (hmain : t.main ≠ .signal) (hcount : s.m_nCount = t.m_semaEx.m_nCount)
    (hwait : s.m_nWait = t.m_semaEx.m_nWait) (hpost : s.m_nPost = t.m_semaEx.m_nPost)
    (hcond : s.m_cond.asleep = 0 ∧ s.m_cond.woken = 0) : Inv n (t.mainWaited (s.tryWait n)) := by
  have hready := h.count
  rw [if_neg hmain, ← hcount] at hready
  rw [SemaphoreExImpl.tryWait]
  by_cases hlt : (s.m_nCount : Int) < n
  · rw [if_pos hlt]
    refine h.coordinate (signals_of_ne hmain).symm hwait hpost hready (fun hsignal => by cases hsignal) (fun hwaiting => absurd rfl hwaiting) fun _ => .inl ?_
    refine ⟨?_, hcond.2, by omega⟩
    rw [CondVar.asleep_sleep, hcond.1]
    rfl
  · rw [if_neg hlt]
    have hall : t.ready = n := le_antisymm h.le (by omega)
    refine h.coordinate (signals_of_ne hmain).symm hwait hpost ?_ (fun _ => hall) (fun _ => hcond) fun hwaiting => by cases hwaiting
    show uchar (s.m_nCount - n) = 0
    rw [hready, hall, sub_self]
    rfl

/-- What a worker does at each of its places. -/
theorem Inv.stepWorker (h : Inv n t) (hn : n ≤ 255) (hi : t.workers[i]? = some w) (hstep : t.stepWorker i w = .ok t') : Inv n t' := by
  have hin := List.mem_of_getElem? hi
  obtain ⟨flag, hflag⟩ : ∃ flag, t.m_multSync.m_threads.find? w.key = some flag := by
    rcases h.places w hin with ⟨-, hflag, -⟩ | ⟨-, hflag, -⟩ | ⟨-, hflag, -⟩
    · exact ⟨_, hflag⟩
    · exact ⟨_, hflag⟩
    · exact ⟨_, hflag⟩
  rw [TaskCtrlImpl.stepWorker] at hstep
  cases hplace : w.place with
  | wait =>
    rw [hplace] at hstep
    cases hstep
    rw [MultiThreadSync.wait, hflag]
    exact h.waited hi (.inl hplace) hflag rfl rfl fun _ _ hkey => hkey
  | waiting =>
    rw [hplace] at hstep
    obtain ⟨r, hr, hstep⟩ := bind_eq_ok.1 hstep
    cases hstep
    rw [MultiThreadSync.resume, hflag] at hr
    split_ifs at hr
    cases hr
    exact h.waited hi (.inr hplace) hflag rfl rfl fun _ hne hkey => (Multiset.mem_erase_of_ne hne).2 hkey
  | work =>
    rw [hplace] at hstep
    cases hstep
    refine h.move hi rfl rfl ?_ (fun _ _ => rfl) (fun _ _ hkey => hkey) nofun h.asleep
    rcases h.places w hin with ⟨hrests, -⟩ | ⟨hrests, -⟩ | ⟨-, hrest⟩
    · simp [Worker.Rests, hplace] at hrests
    · simp [Worker.Rests, hplace] at hrests
    · exact .inr (.inr ⟨.inr rfl, hrest⟩)
  | done =>
    rw [hplace] at hstep
    cases hstep
    exact h.done hn hi hplace

theorem Inv.step (h : Inv n t) (hn₁ : 1 ≤ n) (hn : n ≤ 255) (hstep : t.step a = .ok t') : Inv n t' := by
  rw [TaskCtrlImpl.step.eq_def] at hstep
  cases a with
  | worker i =>
    cases hi : t.workers[i]? with
    | none =>
      simp only [hi] at hstep
      cases hstep
    | some w =>
      simp only [hi] at hstep
      exact h.stepWorker hn hi hstep
  | main =>
    simp only [h.nWait_eq] at hstep
    cases hmain : t.main with
    | signal =>
      simp only [hmain] at hstep
      cases hstep
      exact h.signal hn₁ hmain
    | semWait =>
      simp only [hmain] at hstep
      cases hstep
      exact h.mainWaited (by rw [hmain]; nofun) rfl rfl rfl (h.alone (by rw [hmain]; nofun))
    | waiting =>
      simp only [hmain] at hstep
      split_ifs at hstep with hwoken
      cases hstep
      have hne : t.main ≠ .signal := by rw [hmain]; nofun
      rcases h.waits hmain with ⟨-, hnone, -⟩ | ⟨hasleep, hone⟩
      · rw [hnone] at hwoken
        exact absurd hwoken (Multiset.notMem_zero _)
      · refine h.mainWaited hne rfl rfl rfl ⟨hasleep, ?_⟩
        rw [CondVar.woken_resume, hone, Multiset.erase_singleton]
  | wakeWorker key =>
    dsimp only at hstep
    split_ifs at hstep with hkey
    cases hstep
    constructor
    case length => exact h.length
    case keys => exact h.keys
    case places => exact h.places
    case waiting =>
      intro w hw hwaiting
      rw [waiters, CondVar.waiters_signal]
      exact h.waiting w hw hwaiting
    case asleep => exact fun key' hkey' => h.asleep key' (CondVar.mem_asleep_of_signal hkey')
    case nWait => exact h.nWait
    case nPost => exact h.nPost
    case count => exact h.count
    case together => exact h.together
    case alone => exact h.alone
    case waits => exact h.waits
  | wakeMain =>
    simp only [h.nWait_eq] at hstep
    split_ifs at hstep with hasleep
    cases hstep
    refine h.coordinate rfl rfl rfl h.count h.together (fun hmain => ?_) fun hmain => ?_
    · rw [(h.alone hmain).1] at hasleep
      exact absurd hasleep (Multiset.notMem_zero _)
    · rcases h.waits hmain with ⟨hone, hnone, -⟩ | ⟨hnone, -⟩
      · simp [CondVar.signal, hone, hnone]
      · rw [hnone] at hasleep
        exact absurd hasleep (Multiset.notMem_zero _)

theorem find?_addThread {m₀ : MultiThreadSync} {key k : Nat} (hk : key = k ∨ m₀.m_threads.find? key = some 0)
    (hzero : ∀ flag, m₀.m_threads.find? key = some flag → flag = 0) : (m₀.addThread k).m_threads.find? key = some 0 := by
  by_cases hkey : key = k
  · subst hkey
    cases hf : m₀.m_threads.find? key with
    | none => exact StdMap.find?_insert_new hf
    | some flag => exact (StdMap.find?_insert_old hf).trans (congrArg some (hzero flag hf))
  · exact (StdMap.find?_insert_ne hkey).trans (hk.resolve_left hkey)

/-- The keys that were added are in the map, with their flag down. -/
theorem find?_addThreads {m₀ : MultiThreadSync} {key : Nat} (hkey : key ∈ keys ∨ m₀.m_threads.find? key = some 0)
    (hzero : ∀ flag, m₀.m_threads.find? key = some flag → flag = 0) :
    (keys.foldl MultiThreadSync.addThread m₀).m_threads.find? key = some 0 := by
  induction keys generalizing m₀ with
  | nil => exact hkey.resolve_left List.not_mem_nil
  | cons k keys ih =>
    by_cases hk : key = k
    · have hf : (m₀.addThread k).m_threads.find? key = some 0 := find?_addThread (.inl hk) hzero
      exact ih (.inr hf) fun flag hflag => (Option.some.inj (hf.symm.trans hflag)).symm
    · have hf : (m₀.addThread k).m_threads.find? key = m₀.m_threads.find? key := StdMap.find?_insert_ne hk
      refine ih ?_ fun flag hflag => hzero flag (hf ▸ hflag)
      rw [hf]
      exact hkey.imp_left fun hin => (List.mem_cons.1 hin).resolve_left hk

theorem cond_addThreads {m₀ : MultiThreadSync} : (keys.foldl MultiThreadSync.addThread m₀).m_cond = m₀.m_cond := by
  induction keys generalizing m₀ with
  | nil => rfl
  | cons k keys ih => exact ih

theorem inv_begin (hn : n ≤ 255) (hlen : keys.length = n) (hnodup : keys.Nodup) : Inv n (begin n keys) := by
  have hcond : (begin n keys).m_multSync.m_cond = .new := cond_addThreads
  have hall : (begin n keys).workers.map Worker.key = keys := by simp [begin, Function.comp_def]
  constructor
  case length => exact (List.length_map _).trans hlen
  case keys => exact hall.symm ▸ hnodup
  case places =>
    intro w hw
    obtain ⟨key, hkey, rfl⟩ := List.mem_map.1 hw
    exact .inl ⟨.inl rfl, find?_addThreads (.inl hkey) (fun flag hflag => by cases hflag), rfl, rfl⟩
  case waiting =>
    intro w hw hwaiting
    obtain ⟨key, -, rfl⟩ := List.mem_map.1 hw
    cases hwaiting
  case asleep =>
    rw [hcond]
    intro key hkey
    simp at hkey
  case nWait =>
    show uchar n = n
    rw [uchar]
    omega
  case nPost => rfl
  case count => rfl
  case together =>
    intro _
    rw [ready, doneWith, ← hlen, ← List.length_map (f := fun key => (⟨key, .wait, 0, 0⟩ : Worker)), begin]
    rw [List.countP_eq_length]
    intro w hw
    obtain ⟨key, -, rfl⟩ := List.mem_map.1 hw
    rfl
  case alone => exact fun _ => ⟨rfl, rfl⟩
  case waits =>
    intro hwaiting
    cases hwaiting

/-- A worker that has not taken the last signal is awake, or wakes. -/
theorem Inv.proceeds (h : Inv n t) (hi : t.workers[i]? = some w) (hlt : w.started < t.signals) :
    ∃ t', t.step (.worker i) = .ok t' ∧ t'.workers[i]? = some { w with place := .work, started := w.started + 1 } := by
  have hin := List.mem_of_getElem? hi
  have hilt := (List.getElem?_eq_some_iff.1 hi).1
  rcases h.places w hin with ⟨-, -, hstarted, -⟩ | ⟨hrests, hflag, -⟩ | ⟨-, -, hstarted, -⟩
  · omega
  · simp only [TaskCtrlImpl.step, hi, TaskCtrlImpl.stepWorker]
    cases hrests with
    | inl hplace =>
      rw [hplace]
      refine ⟨_, rfl, ?_⟩
      simp [TaskCtrlImpl.waited, MultiThreadSync.wait, hflag, MultiThreadSync.tryWait, hilt]
    | inr hplace =>
      have hwoken : w.key ∈ t.m_multSync.m_cond.woken := by
        rcases Multiset.mem_add.1 (h.waiting w hin hplace) with hasleep | hwoken
        · rw [h.asleep w.key hasleep] at hflag
          cases hflag
        · exact hwoken
      rw [hplace]
      simp only [MultiThreadSync.resume, hwoken, if_true, hflag]
      refine ⟨_, rfl, ?_⟩
      simp [TaskCtrlImpl.waited, MultiThreadSync.tryWait, hilt]
  · omega

/-- When all workers are done the coordinator is awake, or wakes. -/
theorem Inv.returns (h : Inv n t) (hmain : t.main ≠ .signal) (hall : ∀ w ∈ t.workers, w.dones = t.signals) :
    ∃ t', t.step .main = .ok t' ∧ t'.rounds = t.rounds + 1 := by
  have hready : t.ready = n := by
    rw [ready, doneWith, ← h.length, List.countP_eq_length]
    intro w hw
    simpa using hall w hw
  have hcount := h.count
  rw [if_neg hmain, hready] at hcount
  have hnot : ¬(t.m_semaEx.m_nCount : Int) < n := by omega
  simp only [TaskCtrlImpl.step, h.nWait_eq]
  cases hplace : t.main with
  | signal => exact absurd hplace hmain
  | semWait =>
    refine ⟨_, rfl, ?_⟩
    rw [SemaphoreExImpl.tryWait, if_neg hnot]
    rfl
  | waiting =>
    rcases h.waits hplace with ⟨-, -, hlt⟩ | ⟨-, hwoken⟩
    · omega
    · rw [hwoken]
      simp only [Multiset.mem_singleton, if_true]
      refine ⟨_, rfl, ?_⟩
      rw [SemaphoreExImpl.resume, SemaphoreExImpl.tryWait, if_neg hnot]
      rfl

theorem Inv.barrier (h : Inv n t) : Barrier t where
  together hmain w hw := (h.all_ready (h.together hmain) hw).trans (if_pos hmain)
  early w hw := by
    have hle : t.signals ≤ t.rounds + 1 := by
      rw [signals]
      split_ifs <;> omega
    rcases h.places w hw with ⟨-, -, hstarted, -⟩ | ⟨-, -, hstarted, -⟩ | ⟨-, -, hstarted, -⟩ <;> omega
  proceeds _ _ hi hlt := h.proceeds hi hlt
  returns hmain hall := h.returns hmain hall

/-- In every run of `n` workers and a coordinator, in any order of their sections and with wake-ups of any
kind, the rounds are kept apart and no signal is lost. -/
theorem barrier_run (hn₁ : 1 ≤ n) (hn : n ≤ 255) (hlen : keys.length = n) (hnodup : keys.Nodup)
    (hrun : acts.foldlM step (begin n keys) = .ok t) : Barrier t :=
  (foldlM_run (Inv n) hrun (inv_begin hn hlen hnodup) fun _ _ _ _ h hstep => h.step hn₁ hn hstep).barrier

/-- Two workers do two rounds; one of them sleeps when the first signal comes, the other comes late. -/
def twoRounds : List Action :=
  [.worker 0, .main, .main, .worker 0, .worker 0, .worker 0, .worker 1, .worker 1, .worker 1, .main,
    .main, .worker 1, .worker 1, .worker 1, .worker 0, .worker 0, .worker 0, .main]

theorem barrier_run_two : ∃ t, twoRounds.foldlM step (begin 2 [7, 9]) = .ok t ∧ t.rounds = 2 ∧ Barrier t := by
  have hended : ∃ t, twoRounds.foldlM step (begin 2 [7, 9]) = .ok t ∧ t.rounds = 2 := by decide +kernel
  obtain ⟨t, ht, hrounds⟩ := hended
  exact ⟨t, ht, hrounds, barrier_run (by decide) (by decide) (by decide) (by decide) ht⟩

end TaskCtrlImpl
