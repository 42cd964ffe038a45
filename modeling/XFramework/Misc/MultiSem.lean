/-
The two sampling children of `MultiSem` and the process that collects their
data, kept in step by four semaphores (`misc/MultiSem.c`).

A step is one system call of one process, with the loop head behind it. The
steps have the numbers the source gives them: the children make the first,
third, fourth, seventh and eighth, the parent the second, fifth and sixth.
`bound` is the 5 of the source's loops. `semop` and `msgsnd` on what the
parent has removed fail, and the source goes on without looking at that. A
child that is not forked yet is one that has not made its first step. The
waiting times and what is printed are left out.
-/
import XFramework.Lib.SemSet
import XFramework.Lib.Steps

namespace MultiSem

/-- The set's four semaphores. -/
inductive Sem
  | M
  | A
  | B
  | C
  deriving DecidableEq

/-- The processes `i = 1` and `i = 2` of the fork loop. -/
inductive Child
  | one
  | two
  deriving DecidableEq

instance : Fintype Child := ⟨{.one, .two}, fun c => by cases c <;> decide⟩

theorem Child.forall {P : Child → Prop} : (∀ c, P c) ↔ P .one ∧ P .two := by
  refine ⟨fun h => ⟨h _, h _⟩, fun h c => ?_⟩
  cases c with
  | one => exact h.1
  | two => exact h.2

/-- `sem_num = i`. -/
def Child.sem : Child → Sem
  | .one => .A
  | .two => .B

inductive Process
  | parent
  | child (c : Child)
  deriving DecidableEq

instance : Fintype Process := ⟨{.parent, .child .one, .child .two}, fun p => by rcases p with _ | _ | _ <;> decide⟩

inductive ChildPlace
  | step1
  | step3
  | msgsnd
  | step4
  | step7
  | step8
  | exit
  | ended
  deriving DecidableEq

inductive ParentPlace
  | step2
  | step5
  | msgrcv (j : Nat)
  | step6
  | semRmid
  | msgRmid
  | wait
  | ended
  deriving DecidableEq

/-- `struct data`, with the child for its `getpid()`. -/
structure Data where
  no : Child
  data : Nat
  deriving DecidableEq

/-- Each process with its `loop`; `sems` and `msgs` are `none` once removed. `got` is what the parent has
received, with its own `loop` then. -/
structure State where
  sems : Option (SemSet Process Sem)
  msgs : Option (List Data)
  child : Child → ChildPlace × Nat
  parent : ParentPlace × Nat
  got : List (Nat × Data)

/-- The head of the child's `for`, which goes on while `loop < bound`. -/
def childLoop (bound loop : Nat) : ChildPlace × Nat := (if loop < bound then .step1 else .exit, loop)

/-- The head of the parent's `for`. -/
def parentLoop (bound loop : Nat) : ParentPlace × Nat := (if loop < bound then .step2 else .semRmid, loop)

namespace State

variable {s s' t : State} {p : Process} {c : Child} {bound : Nat}

/-- After `SETALL` and the forks. -/
def begin (bound : Nat) : State where
  sems := some ⟨fun _ => 2, fun _ _ => 0⟩
  msgs := some []
  child _ := childLoop bound 1
  parent := parentLoop bound 1
  got := []

def semop (s : State) (p : Process) (ops : List (SemBuf Sem)) : Option State :=
  match s.sems with
  | none => some s
  | some sems => (sems.semop p ops).map fun sems => { s with sems := some sems }

def childTo (s : State) (c : Child) (place : ChildPlace × Nat) : State :=
  { s with child := Function.update s.child c place }

def parentTo (s : State) (place : ParentPlace × Nat) : State := { s with parent := place }

def childStep (bound : Nat) (s : State) (c : Child) : Option State :=
  match s.child c with
  | (.step1, loop) => (s.semop (.child c) [⟨c.sem, -1⟩, ⟨.C, -1⟩]).map (·.childTo c (.step3, loop))
  | (.step3, loop) => (s.semop (.child c) [⟨c.sem, 0⟩, ⟨.C, 1⟩]).map (·.childTo c (.msgsnd, loop))
  | (.msgsnd, loop) => some ({ s with msgs := s.msgs.map (· ++ [Data.mk c loop]) }.childTo c (.step4, loop))
  | (.step4, loop) => (s.semop (.child c) [⟨.M, -1⟩]).map (·.childTo c (.step7, loop))
  | (.step7, loop) => (s.semop (.child c) [⟨.M, 1⟩, ⟨c.sem, -1⟩]).map (·.childTo c (.step8, loop))
  | (.step8, loop) => (s.semop (.child c) [⟨c.sem, 2⟩]).map (·.childTo c (childLoop bound (loop + 1)))
  | (.exit, loop) => some ({ s with sems := s.sems.map (SemSet.exit · (.child c)) }.childTo c (.ended, loop))
  | (.ended, _) => none

/-- `msgrcv(msgid, msg + j, .., 0, 0)` takes the first message. -/
def msgrcv (s : State) (j loop : Nat) : Option State :=
  let next : ParentPlace × Nat := (if j + 1 < 2 then .msgrcv (j + 1) else .step6, loop)
  match s.msgs with
  | none => some (s.parentTo next)
  | some [] => none
  | some (d :: msgs) => some ({ s with msgs := some msgs, got := s.got ++ [(loop, d)] }.parentTo next)

def parentStep (bound : Nat) (s : State) : Option State :=
  match s.parent with
  | (.step2, loop) => (s.semop .parent [⟨.A, -1⟩, ⟨.B, -1⟩, ⟨.C, 0⟩]).map (·.parentTo (.step5, loop))
  | (.step5, loop) => (s.semop .parent [⟨.M, 0⟩]).map (·.parentTo (.msgrcv 0, loop))
  | (.msgrcv j, loop) => s.msgrcv j loop
  | (.step6, loop) => (s.semop .parent [⟨.A, 1⟩, ⟨.B, 1⟩]).map (·.parentTo (parentLoop bound (loop + 1)))
  | (.semRmid, loop) => some ({ s with sems := none }.parentTo (.msgRmid, loop))
  | (.msgRmid, loop) => some ({ s with msgs := none }.parentTo (.wait, loop))
  | (.wait, loop) =>
    if (s.child .one).1 = .ended ∧ (s.child .two).1 = .ended then some (s.parentTo (.ended, loop)) else none
  | (.ended, _) => none

/-- One step of a process; `none` while it waits, and once it has ended. -/
def step (bound : Nat) (s : State) : Process → Option State
  | .parent => s.parentStep bound
  | .child c => s.childStep bound c

end State

/-! ## What holds in every state -/

/-- What a child has taken from its own semaphore. -/
def ChildPlace.taken : ChildPlace → Int
  | .step3 | .msgsnd | .step4 | .step7 => 1
  | .step8 => 2
  | .step1 | .exit | .ended => 0

/-- What the exit of a child at this place would add to the set. -/
def ChildPlace.owed (c : Child) (place : ChildPlace) (k : Sem) : Int :=
  if k = c.sem then place.taken
  else if k = .C ∧ place = .step3 ∨ k = .M ∧ place = .step7 then 1 else 0

/-- What the parent has taken from the semaphore of each child. -/
def ParentPlace.taken : ParentPlace → Int
  | .step5 | .msgrcv _ | .step6 => 1
  | _ => 0

def ParentPlace.owed (place : ParentPlace) (k : Sem) : Int := if k = .A ∨ k = .B then place.taken else 0

/-- Where a child can be while the parent is at its place: in the same round, or at the end of the one before
while the parent waits for the next or leaves. -/
def Together (bound : Nat) : ParentPlace × Nat → ChildPlace × Nat → Prop
  | (.step2, l), (place, k) =>
    l < bound ∧ ((place = .step1 ∨ place = .step3) ∧ k = l ∨ (place = .step7 ∨ place = .step8) ∧ k + 1 = l)
  | (.step5, l), (place, k) =>
    l < bound ∧ (place = .step3 ∨ place = .msgsnd ∨ place = .step4 ∨ place = .step7) ∧ k = l
  | (.msgrcv j, l), (place, k) => l < bound ∧ j < 2 ∧ place = .step7 ∧ k = l
  | (.step6, l), (place, k) => l < bound ∧ place = .step7 ∧ k = l
  | (.ended, l), (place, k) => bound ≤ l ∧ place = .ended ∧ k = l
  | (_, l), (place, k) =>
    bound ≤ l ∧ ((place = .step7 ∨ place = .step8) ∧ k + 1 = l ∨ (place = .exit ∨ place = .ended) ∧ k = l)

/-- How many messages a child has sent. -/
def ChildPlace.sent : ChildPlace × Nat → Nat
  | (.step4, l) | (.step7, l) | (.step8, l) => l
  | (_, l) => l - 1

/-- How many messages the parent has received. -/
def ParentPlace.received : ParentPlace × Nat → Nat
  | (.msgrcv j, l) => 2 * (l - 1) + j
  | (.step6, l) => 2 * l
  | (_, l) => 2 * (l - 1)

/-- What a child sends in its first `n` rounds. -/
def samples (c : Child) (n : Nat) : List Data := (List.range' 1 n).map (Data.mk c)

/-- The parent has not removed the set yet. -/
def ParentPlace.HasSems : ParentPlace → Prop
  | .msgRmid | .wait | .ended => False
  | _ => True

/-- The parent waits for messages of its round, or takes them. -/
def ParentPlace.Collects : ParentPlace → Prop
  | .step5 | .msgrcv _ => True
  | _ => False

def ParentPlace.HasMsgs : ParentPlace → Prop
  | .wait | .ended => False
  | _ => True

section Together

variable {bound l : Nat} {parent : ParentPlace × Nat} {child : ChildPlace × Nat}

attribute [local simp] Together

theorem ParentPlace.taken_range (place : ParentPlace) : 0 ≤ place.taken ∧ place.taken ≤ 1 := by
  cases place <;> simp [taken]

theorem ChildPlace.taken_range (place : ChildPlace) : 0 ≤ place.taken := by
  cases place <;> decide

theorem Together.taken_range (h : Together bound parent child) :
    parent.1.taken + child.1.taken ≤ 2 := by
  obtain ⟨place, k⟩ := parent
  obtain ⟨place', l⟩ := child
  cases place <;> cases place' <;> simp_all [ParentPlace.taken, ChildPlace.taken]

theorem Together.step1 (h : Together bound parent (.step1, l)) : Together bound parent (.step3, l) := by
  obtain ⟨place, k⟩ := parent
  cases place <;> simp_all

/-- A child whose semaphore is zero can begin. -/
theorem Together.step3 (h : Together bound parent (.step3, l)) (htaken : parent.1.HasSems → 1 ≤ parent.1.taken) :
    Together bound parent (.msgsnd, l) := by
  obtain ⟨place, k⟩ := parent
  cases place <;> simp_all [ParentPlace.HasSems, ParentPlace.taken]

/-- While a child is at work the parent waits for it. -/
theorem Together.at_work (h : Together bound parent child) (hat : child.1 = .msgsnd ∨ child.1 = .step4) :
    parent = (.step5, child.2) := by
  obtain ⟨place, k⟩ := parent
  rcases hat with hat | hat <;> cases place <;> simp_all

theorem Together.msgsnd (h : Together bound parent (.msgsnd, l)) : Together bound parent (.step4, l) := by
  obtain ⟨place, k⟩ := parent
  cases place <;> simp_all

theorem Together.step4 (h : Together bound parent (.step4, l)) : Together bound parent (.step7, l) := by
  obtain ⟨place, k⟩ := parent
  cases place <;> simp_all

/-- A child that the parent has told to end, or finds the set removed, ends its round. -/
theorem Together.step7 (h : Together bound parent (.step7, l)) (htaken : parent.1.HasSems → parent.1.taken ≤ 0) :
    Together bound parent (.step8, l) := by
  obtain ⟨place, k⟩ := parent
  cases place <;> simp_all [ParentPlace.HasSems, ParentPlace.taken]

theorem Together.step8 (h : Together bound parent (.step8, l)) : Together bound parent (childLoop bound (l + 1)) := by
  obtain ⟨place, k⟩ := parent
  rw [childLoop]
  split <;> cases place <;> simp_all <;> omega

theorem Together.exit (h : Together bound parent (.exit, l)) : Together bound parent (.ended, l) := by
  obtain ⟨place, k⟩ := parent
  cases place <;> simp_all

/-- The parent begins a round that both children are ready for. -/
theorem Together.begin (h : Together bound (.step2, l) child) (hat : child.1 = .step3) : Together bound (.step5, l) child := by
  obtain ⟨place, k⟩ := child
  simp_all

theorem Together.collect (h : Together bound (.step5, l) child) (hat : child.1 = .step7) : Together bound (.msgrcv 0, l) child := by
  obtain ⟨place, k⟩ := child
  simp_all

theorem Together.msgrcv {j : Nat} (h : Together bound (.msgrcv j, l) child) :
    Together bound (if j + 1 < 2 then .msgrcv (j + 1) else .step6, l) child := by
  obtain ⟨place, k⟩ := child
  split <;> simp_all

/-- The parent tells the children to end the round, and is at the next one. -/
theorem Together.step6 (h : Together bound (.step6, l) child) : Together bound (parentLoop bound (l + 1)) child := by
  obtain ⟨place, k⟩ := child
  rw [parentLoop]
  split <;> simp_all

theorem Together.wait (h : Together bound (.wait, l) child) (hat : child.1 = .ended) : Together bound (.ended, l) child := by
  obtain ⟨place, k⟩ := child
  simp_all

/-- While the parent does not collect messages, it has those of the rounds each child has been through. -/
theorem Together.sent (h : Together bound parent child) (hp : ¬parent.1.Collects) :
    2 * ChildPlace.sent child = ParentPlace.received parent := by
  obtain ⟨place, k⟩ := parent
  obtain ⟨place', l⟩ := child
  cases place with
  | step2 =>
    obtain ⟨-, ⟨rfl | rfl, rfl⟩ | ⟨rfl | rfl, rfl⟩⟩ := h <;> simp [ChildPlace.sent, ParentPlace.received]
  | step5 => exact absurd trivial hp
  | msgrcv j => exact absurd trivial hp
  | step6 =>
    obtain ⟨-, rfl, rfl⟩ := h
    rfl
  | ended =>
    obtain ⟨-, rfl, rfl⟩ := h
    rfl
  | _ =>
    obtain ⟨-, ⟨rfl | rfl, rfl⟩ | ⟨rfl | rfl, rfl⟩⟩ := h <;> simp [ChildPlace.sent, ParentPlace.received]

/-- A child has sent what belongs to the rounds before the parent's. -/
theorem Together.le_sent (h : Together bound parent child) : parent.2 ≤ ChildPlace.sent child + 1 := by
  obtain ⟨place, k⟩ := parent
  obtain ⟨place', l⟩ := child
  cases place <;> cases place' <;> simp_all [ChildPlace.sent] <;> omega

end Together

/-- How many steps a process has made, counted from what would be before its first round. -/
def ChildPlace.position : ChildPlace × Nat → Nat
  | (.step1, l) | (.exit, l) => 6 * l
  | (.step3, l) | (.ended, l) => 6 * l + 1
  | (.msgsnd, l) => 6 * l + 2
  | (.step4, l) => 6 * l + 3
  | (.step7, l) => 6 * l + 4
  | (.step8, l) => 6 * l + 5

def ParentPlace.position : ParentPlace × Nat → Nat
  | (.step2, l) | (.semRmid, l) => 5 * l
  | (.step5, l) | (.msgRmid, l) => 5 * l + 1
  | (.msgrcv j, l) => 5 * l + 2 + j
  | (.wait, l) => 5 * l + 2
  | (.ended, l) => 5 * l + 3
  | (.step6, l) => 5 * l + 4

/-- How far a child can be, and the parent, while the parent is in its loop, behind it, and at its end. -/
theorem Together.position {bound : Nat} {parent : ParentPlace × Nat} {child : ChildPlace × Nat} (h : Together bound parent child) :
    parent.2 < bound ∧ ChildPlace.position child ≤ 6 * parent.2 + 5 ∧ ParentPlace.position parent ≤ 5 * parent.2 + 4 ∧ parent.1 ≠ .ended ∨
    bound ≤ parent.2 ∧ ChildPlace.position child ≤ 6 * parent.2 + 1 ∧ ParentPlace.position parent ≤ 5 * parent.2 + 2 ∧ parent.1 ≠ .ended ∨
    bound ≤ parent.2 ∧ ChildPlace.position child = 6 * parent.2 + 1 ∧ ParentPlace.position parent = 5 * parent.2 + 3 ∧ parent.1 = .ended := by
  obtain ⟨place, k⟩ := parent
  obtain ⟨place', l⟩ := child
  cases place with
  | ended =>
    obtain ⟨hle, rfl, rfl⟩ := h
    exact .inr (.inr ⟨hle, rfl, rfl, rfl⟩)
  | step2 =>
    obtain ⟨hlt, ⟨rfl | rfl, rfl⟩ | ⟨rfl | rfl, rfl⟩⟩ := h <;> simp [ChildPlace.position, ParentPlace.position] <;> omega
  | step5 =>
    obtain ⟨hlt, rfl | rfl | rfl | rfl, rfl⟩ := h <;> simp [ChildPlace.position, ParentPlace.position] <;> omega
  | msgrcv j =>
    obtain ⟨hlt, hj, rfl, rfl⟩ := h
    simp [ChildPlace.position, ParentPlace.position]
    omega
  | step6 =>
    obtain ⟨hlt, rfl, rfl⟩ := h
    simp [ChildPlace.position, ParentPlace.position]
    omega
  | _ =>
    obtain ⟨hle, ⟨rfl | rfl, rfl⟩ | ⟨rfl | rfl, rfl⟩⟩ := h <;> simp [ChildPlace.position, ParentPlace.position] <;> omega

namespace State

variable {s s' t : State} {p : Process} {c : Child} {bound : Nat}

/-- The queue, as long as there is one. -/
def queue (s : State) : List Data := s.msgs.getD []

/-- What the children have sent so far. -/
def sends (s : State) : List Data :=
  samples .one (ChildPlace.sent (s.child .one)) ++ samples .two (ChildPlace.sent (s.child .two))

/-- The set's counts and adjustments are those of the places the processes are at. -/
structure SemsAt (s : State) (sems : SemSet Process Sem) : Prop where
  balanced : sems.Balanced fun _ => 2
  child : ∀ c, sems.undo (.child c) = (s.child c).1.owed c
  parent : sems.undo .parent = s.parent.1.owed

structure Inv (bound : Nat) (s : State) : Prop where
  together : ∀ c, Together bound s.parent (s.child c)
  loop : 1 ≤ s.parent.2 ∧ s.parent.2 ≤ max 1 bound
  sems : s.sems.isSome ↔ s.parent.1.HasSems
  at_places : ∀ sems, s.sems = some sems → s.SemsAt sems
  msgs : s.msgs.isSome ↔ s.parent.1.HasMsgs
  conserved : (s.got.map Prod.snd ++ s.queue).Perm s.sends
  received : s.got.length = ParentPlace.received s.parent
  current : ∀ d ∈ s.queue, d.data = s.parent.2
  tagged : ∀ e ∈ s.got, e.2.data = e.1

/-! ## The steps -/

theorem semop_eq_some {ops : List (SemBuf Sem)} (hnodup : (ops.map SemBuf.sem_num).Nodup) :
    s.semop p ops = some s' ↔ (∀ sems, s.sems = some sems → ∀ o ∈ ops, SemSet.Ready sems.val o) ∧
      s' = { s with sems := s.sems.map (SemSet.made · p ops) } := by
  rw [semop]
  cases hsems : s.sems with
  | none =>
    have hs : { s with sems := none } = s := by rw [← hsems]
    simp [hs, eq_comm]
  | some sems =>
    rw [Option.map_eq_some_iff]
    simp [SemSet.semop_eq_some hnodup, eq_comm]

theorem sum_process (f : Process → Int) : ∑ q, f q = f .parent + f (.child .one) + f (.child .two) := by
  have huniv : (Finset.univ : Finset Process) = {.parent, .child .one, .child .two} := rfl
  rw [huniv, Finset.sum_insert (by decide), Finset.sum_pair (by decide)]
  omega

/-- A count, from the places. -/
theorem SemsAt.val {sems : SemSet Process Sem} (h : s.SemsAt sems) (k : Sem) :
    sems.val k = 2 - s.parent.1.owed k - (s.child .one).1.owed .one k - (s.child .two).1.owed .two k := by
  have hsum : sems.val k + ∑ q, sems.undo q k = 2 := h.balanced k
  rw [sum_process, h.parent, h.child, h.child] at hsum
  omega

theorem SemsAt.val_sem {sems : SemSet Process Sem} (h : s.SemsAt sems) (c : Child) :
    sems.val c.sem = 2 - s.parent.1.taken - (s.child c).1.taken := by
  cases c <;> simp [h.val, ChildPlace.owed, ParentPlace.owed, Child.sem]

theorem SemsAt.val_C {sems : SemSet Process Sem} (h : s.SemsAt sems) :
    sems.val .C = 2 - (if (s.child .one).1 = .step3 then 1 else 0) - if (s.child .two).1 = .step3 then 1 else 0 := by
  simp [h.val, ChildPlace.owed, ParentPlace.owed, Child.sem]

theorem SemsAt.val_M {sems : SemSet Process Sem} (h : s.SemsAt sems) :
    sems.val .M = 2 - (if (s.child .one).1 = .step7 then 1 else 0) - if (s.child .two).1 = .step7 then 1 else 0 := by
  simp [h.val, ChildPlace.owed, ParentPlace.owed, Child.sem]

theorem SemsAt.val_C_zero {sems : SemSet Process Sem} (h : s.SemsAt sems) :
    sems.val .C = 0 ↔ ∀ c, (s.child c).1 = .step3 := by
  rw [h.val_C, Child.forall]
  split_ifs <;> simp_all

theorem SemsAt.val_M_zero {sems : SemSet Process Sem} (h : s.SemsAt sems) :
    sems.val .M = 0 ↔ ∀ c, (s.child c).1 = .step7 := by
  rw [h.val_M, Child.forall]
  split_ifs <;> simp_all

theorem SemsAt.val_C_pos {sems : SemSet Process Sem} (h : s.SemsAt sems) (hat : (s.child c).1 ≠ .step3) : 1 ≤ sems.val .C := by
  rw [h.val_C]
  cases c <;> rw [if_neg hat] <;> split <;> omega

theorem SemsAt.val_M_pos {sems : SemSet Process Sem} (h : s.SemsAt sems) (hat : (s.child c).1 ≠ .step7) : 1 ≤ sems.val .M := by
  rw [h.val_M]
  cases c <;> rw [if_neg hat] <;> split <;> omega

/-- Every message sent is received or in the queue. -/
theorem Inv.queue_length (h : Inv bound s) :
    ParentPlace.received s.parent + s.queue.length = ChildPlace.sent (s.child .one) + ChildPlace.sent (s.child .two) := by
  have hlength := h.conserved.length_eq
  rw [List.length_append, List.length_map, h.received] at hlength
  rw [hlength]
  simp [sends, samples]

/-- No message is on its way while the parent does not collect any. -/
theorem Inv.queue_nil (h : Inv bound s) (hp : ¬s.parent.1.Collects) : s.queue = [] := by
  have hlength := h.queue_length
  have hone := (h.together .one).sent hp
  have htwo := (h.together .two).sent hp
  exact List.length_eq_zero_iff.1 (by omega)

theorem Inv.exists_sems (h : Inv bound s) (hp : s.parent.1.HasSems) : ∃ sems, s.sems = some sems ∧ s.SemsAt sems := by
  obtain ⟨sems, hsems⟩ := Option.isSome_iff_exists.1 (h.sems.2 hp)
  exact ⟨sems, hsems, h.at_places sems hsems⟩

/-- The counts stay in the range of what the source gives them. -/
theorem Inv.val_range {sems : SemSet Process Sem} (h : Inv bound s) (hsems : s.sems = some sems) (k : Sem) :
    0 ≤ sems.val k ∧ sems.val k ≤ 2 := by
  have hsat := h.at_places sems hsems
  have hsem : ∀ c : Child, 0 ≤ sems.val c.sem ∧ sems.val c.sem ≤ 2 := fun c => by
    have hrange := (h.together c).taken_range
    have htaken := s.parent.1.taken_range
    have htaken' := (s.child c).1.taken_range
    rw [hsat.val_sem]
    omega
  cases k with
  | M =>
    rw [hsat.val_M]
    split <;> split <;> omega
  | A => exact hsem .one
  | B => exact hsem .two
  | C =>
    rw [hsat.val_C]
    split <;> split <;> omega

theorem Inv.no_sems {sems : SemSet Process Sem} (h : Inv bound s) (hp : ¬s.parent.1.HasSems) (hsems : s.sems = some sems)
    {P : Prop} : P := absurd (h.sems.1 (Option.isSome_iff_exists.2 ⟨sems, hsems⟩)) hp

theorem childTo_child {place : ChildPlace × Nat} (d : Child) : (s.childTo c place).child d = if d = c then place else s.child d :=
  Function.update_apply _ _ _ _

theorem semop_nil : s.semop p [] = some s := by
  refine (semop_eq_some (by simp)).2 ⟨fun _ _ => List.forall_mem_nil _, ?_⟩
  have hmade : (SemSet.made · p []) = (id : SemSet Process Sem → SemSet Process Sem) := funext fun _ => SemSet.made_nil
  rw [hmade, Option.map_id_fun, id]

theorem SemsAt.child_made {sems : SemSet Process Sem} {ops : List (SemBuf Sem)} {place : ChildPlace × Nat} (h : s.SemsAt sems)
    (howed : ∀ k, place.1.owed c k = (s.child c).1.owed c k - SemSet.net ops k) :
    (s.childTo c place).SemsAt (sems.made (.child c) ops) := by
  refine ⟨h.balanced.made, fun d => ?_, (SemSet.made_undo_of_ne (by simp)).trans h.parent⟩
  rw [childTo_child]
  split
  case isTrue hd =>
    subst hd
    funext k
    rw [SemSet.made_undo_self, h.child, howed]
  case isFalse hd => exact (SemSet.made_undo_of_ne (by simpa using hd)).trans (h.child d)

/-- A child goes on behind a `semop` of its own that fits the places it leads from and to. -/
theorem Inv.child_semop {ops : List (SemBuf Sem)} {place : ChildPlace × Nat} (h : Inv bound s)
    (hs : s.semop (.child c) ops = some s') (hnodup : (ops.map SemBuf.sem_num).Nodup)
    (howed : ∀ k, place.1.owed c k = (s.child c).1.owed c k - SemSet.net ops k)
    (hsent : ChildPlace.sent place = ChildPlace.sent (s.child c))
    (htogether : (∀ sems, s.sems = some sems → ∀ o ∈ ops, SemSet.Ready sems.val o) → Together bound s.parent place) :
    Inv bound (s'.childTo c place) := by
  obtain ⟨hready, rfl⟩ := (semop_eq_some hnodup).1 hs
  refine ⟨fun d => ?_, h.loop, ?_, fun sems hsems => ?_, h.msgs, ?_, h.received, h.current, h.tagged⟩
  · change Together bound s.parent ((s.childTo c place).child d)
    rw [childTo_child]
    split
    · exact htogether hready
    · exact h.together d
  · exact Iff.trans (by simp [childTo]) h.sems
  · obtain ⟨sems₀, hsems₀, rfl⟩ := Option.map_eq_some_iff.1 hsems
    obtain ⟨hbalanced, hchild, hparent⟩ := (h.at_places sems₀ hsems₀).child_made howed
    exact ⟨hbalanced, hchild, hparent⟩
  · have hsends : (s.childTo c place).sends = s.sends := by cases c <;> simp [sends, childTo_child, hsent]
    exact h.conserved.trans (hsends ▸ .rfl)

/-- The parent goes on behind a `semop` of its own. -/
theorem Inv.parent_semop {ops : List (SemBuf Sem)} {place : ParentPlace × Nat} (h : Inv bound s)
    (hs : s.semop .parent ops = some s') (hnodup : (ops.map SemBuf.sem_num).Nodup)
    (howed : ∀ k, place.1.owed k = s.parent.1.owed k - SemSet.net ops k)
    (hsems : place.1.HasSems ↔ s.parent.1.HasSems) (hmsgs : place.1.HasMsgs ↔ s.parent.1.HasMsgs)
    (hreceived : ParentPlace.received place = ParentPlace.received s.parent)
    (hloop : 1 ≤ place.2 ∧ place.2 ≤ max 1 bound)
    (hcurrent : ∀ d ∈ s.queue, d.data = place.2)
    (htogether : (∀ sems, s.sems = some sems → ∀ o ∈ ops, SemSet.Ready sems.val o) → ∀ c, Together bound place (s.child c)) :
    Inv bound (s'.parentTo place) := by
  obtain ⟨hready, rfl⟩ := (semop_eq_some hnodup).1 hs
  refine ⟨htogether hready, hloop, ?_, fun sems hsems => ?_, h.msgs.trans hmsgs.symm, h.conserved, h.received.trans hreceived.symm,
    hcurrent, h.tagged⟩
  · exact (Iff.trans (by simp [parentTo]) h.sems).trans hsems.symm
  · obtain ⟨sems₀, hsems₀, rfl⟩ := Option.map_eq_some_iff.1 hsems
    have hat := h.at_places sems₀ hsems₀
    refine ⟨hat.balanced.made, fun d => (SemSet.made_undo_of_ne (by simp)).trans (hat.child d), ?_⟩
    funext k
    rw [SemSet.made_undo_self, hat.parent]
    exact (howed k).symm

theorem Inv.childStep (h : Inv bound s) (hs : s.childStep bound c = some s') : Inv bound s' := by
  have htogether := h.together c
  rw [State.childStep] at hs
  cases hat : s.child c with
  | mk place loop =>
    rw [hat] at hs htogether
    cases place with
    | step1 =>
      obtain ⟨s₁, hs₁, rfl⟩ := Option.map_eq_some_iff.1 hs
      refine h.child_semop hs₁ (by cases c <;> decide) (fun k => ?_) (by rw [hat]; rfl) fun _ => htogether.step1
      rw [hat]
      cases c <;> cases k <;> rfl
    | step3 =>
      obtain ⟨s₁, hs₁, rfl⟩ := Option.map_eq_some_iff.1 hs
      refine h.child_semop hs₁ (by cases c <;> decide) (fun k => ?_) (by rw [hat]; rfl) fun hready =>
        htogether.step3 fun hhas => ?_
      · rw [hat]
        cases c <;> cases k <;> rfl
      · obtain ⟨sems, hsems, hsat⟩ := h.exists_sems hhas
        have hzero := SemSet.ready_zero.1 (hready sems hsems ⟨c.sem, 0⟩ (by simp))
        have hone : (ChildPlace.step3).taken = 1 := rfl
        rw [hsat.val_sem, hat, hone] at hzero
        omega
    | msgsnd =>
      cases hs
      have hparent := htogether.at_work (.inl rfl)
      obtain ⟨msgs, hmsgs⟩ := Option.isSome_iff_exists.1 (h.msgs.2 (by rw [hparent]; trivial))
      have hloop := h.loop.1
      rw [hparent] at hloop
      have hsamples : samples c loop = samples c (loop - 1) ++ [⟨c, loop⟩] := by
        obtain ⟨n, rfl⟩ := Nat.exists_eq_add_of_le' hloop
        rw [samples, List.range'_concat, List.map_append]
        simp [samples, Nat.add_comm]
      have hsends : ((s.childTo c (.step4, loop)).sends).Perm (s.sends ++ [⟨c, loop⟩]) := by
        cases c with
        | one =>
          simp only [sends, childTo_child, hat, ChildPlace.sent, if_pos, reduceCtorEq, if_false, hsamples]
          rw [List.append_assoc, List.append_assoc]
          exact List.perm_append_comm.append_left _
        | two =>
          simp only [sends, childTo_child, hat, ChildPlace.sent, if_pos, reduceCtorEq, if_false, hsamples]
          rw [List.append_assoc]
      refine ⟨fun d => ?_, h.loop, h.sems, fun sems hsems => ?_, Iff.trans (by simp [childTo]) h.msgs, ?_, h.received, ?_, h.tagged⟩
      · change Together bound s.parent ((s.childTo c (.step4, loop)).child d)
        rw [childTo_child]
        split
        · exact htogether.msgsnd
        · exact h.together d
      · have howed : ∀ k, ChildPlace.step4.owed c k = (s.child c).1.owed c k - SemSet.net [] k := fun k => by
          rw [hat]
          cases c <;> cases k <;> rfl
        have hmade : (s.childTo c (.step4, loop)).SemsAt (sems.made (.child c) []) := (h.at_places sems hsems).child_made howed
        rw [SemSet.made_nil] at hmade
        exact ⟨hmade.balanced, hmade.child, hmade.parent⟩
      · refine List.Perm.trans ?_ ((h.conserved.append_right _).trans hsends.symm)
        simp [queue, hmsgs, childTo]
      · intro d hd
        have hmem : d ∈ s.queue ∨ d = ⟨c, loop⟩ := by simpa [queue, hmsgs, childTo] using hd
        rcases hmem with hmem | rfl
        · exact h.current d hmem
        · change loop = s.parent.2
          rw [hparent]
    | step4 =>
      obtain ⟨s₁, hs₁, rfl⟩ := Option.map_eq_some_iff.1 hs
      refine h.child_semop hs₁ (by simp) (fun k => ?_) (by rw [hat]; rfl) fun _ => htogether.step4
      rw [hat]
      cases c <;> cases k <;> rfl
    | step7 =>
      obtain ⟨s₁, hs₁, rfl⟩ := Option.map_eq_some_iff.1 hs
      refine h.child_semop hs₁ (by cases c <;> decide) (fun k => ?_) (by rw [hat]; rfl) fun hready =>
        htogether.step7 fun hhas => ?_
      · rw [hat]
        cases c <;> cases k <;> rfl
      · obtain ⟨sems, hsems, hsat⟩ := h.exists_sems hhas
        have hle := (SemSet.ready_of_ne (by decide)).1 (hready sems hsems ⟨c.sem, -1⟩ (by simp))
        have hone : (ChildPlace.step7).taken = 1 := rfl
        rw [hsat.val_sem, hat, hone] at hle
        omega
    | step8 =>
      obtain ⟨s₁, hs₁, rfl⟩ := Option.map_eq_some_iff.1 hs
      refine h.child_semop hs₁ (by simp) (fun k => ?_) ?_ fun _ => htogether.step8
      · rw [hat, childLoop]
        split <;> cases c <;> cases k <;> rfl
      · rw [hat, childLoop]
        split <;> rfl
    | exit =>
      cases hs
      have hkept : s.sems.map (SemSet.exit · (.child c)) = s.sems := by
        cases hsems : s.sems with
        | none => rfl
        | some sems =>
          have hsat := h.at_places sems hsems
          refine congrArg some (SemSet.exit_eq ?_ fun k => (h.val_range hsems k).1)
          rw [hsat.child, hat]
          funext k
          cases c <;> cases k <;> rfl
      rw [hkept]
      refine h.child_semop semop_nil List.nodup_nil (fun k => ?_) (by rw [hat]; rfl) fun _ => htogether.exit
      rw [hat]
      cases c <;> cases k <;> rfl
    | ended => cases hs

theorem Inv.msgrcv {j loop : Nat} (h : Inv bound s) (hat : s.parent = (.msgrcv j, loop)) (hs : s.msgrcv j loop = some s') :
    Inv bound s' := by
  have htogether := h.together
  have hreceived := h.received
  have hj : j < 2 := by
    have hone := htogether .one
    rw [hat] at hone
    exact hone.2.1
  rw [hat] at htogether hreceived
  have hnext : ∀ c, Together bound (if j + 1 < 2 then .msgrcv (j + 1) else .step6, loop) (s.child c) := fun c => (htogether c).msgrcv
  cases hmsgs : s.msgs with
  | none =>
    have hhas : s.msgs.isSome := h.msgs.2 (by rw [hat]; trivial)
    rw [hmsgs] at hhas
    cases hhas
  | some msgs =>
    cases msgs with
    | nil =>
      rw [State.msgrcv, hmsgs] at hs
      cases hs
    | cons d msgs =>
      rw [State.msgrcv, hmsgs] at hs
      cases hs
      have hloop := h.loop
      have hsems := h.sems
      rw [hat] at hloop hsems
      have hqueue : s.queue = d :: msgs := by rw [queue, hmsgs, Option.getD_some]
      have hdata : d.data = loop := by
        have hcurrent := h.current d (hqueue ▸ List.mem_cons_self)
        rwa [hat] at hcurrent
      refine ⟨hnext, hloop, hsems.trans ?_, fun sems hsems => ?_, iff_of_true rfl ?_, ?_, ?_, fun e he => ?_, fun e he => ?_⟩
      · split <;> exact Iff.rfl
      · obtain ⟨hbalanced, hchild, hparent⟩ := h.at_places sems hsems
        refine ⟨hbalanced, hchild, hparent.trans ?_⟩
        rw [hat, parentTo]
        split <;> rfl
      · split <;> trivial
      · refine List.Perm.trans ?_ h.conserved
        simp [queue, parentTo, hmsgs]
      · simp only [parentTo, List.length_append, hreceived]
        split <;> simp only [ParentPlace.received, List.length_singleton] <;> omega
      · have hcurrent := h.current e (hqueue ▸ List.mem_cons_of_mem d he)
        rwa [hat] at hcurrent
      · rcases List.mem_append.1 he with he | he
        · exact h.tagged e he
        · cases List.mem_singleton.1 he
          exact hdata

theorem Inv.parentStep (h : Inv bound s) (hs : s.parentStep bound = some s') : Inv bound s' := by
  have htogether := h.together
  have hloop := h.loop
  have hcurrent := h.current
  rw [State.parentStep] at hs
  cases hat : s.parent with
  | mk place loop =>
    rw [hat] at hs htogether hloop hcurrent
    cases place with
    | step2 =>
      obtain ⟨s₁, hs₁, rfl⟩ := Option.map_eq_some_iff.1 hs
      refine h.parent_semop hs₁ (by decide) (fun k => ?_) (by rw [hat]; exact Iff.rfl) (by rw [hat]; exact Iff.rfl)
        (by rw [hat]; rfl) hloop hcurrent fun hready c => (htogether c).begin ?_
      · rw [hat]
        cases k <;> rfl
      · obtain ⟨sems, hsems, hsat⟩ := h.exists_sems (by rw [hat]; trivial)
        exact hsat.val_C_zero.1 (SemSet.ready_zero.1 (hready sems hsems ⟨.C, 0⟩ (by simp))) c
    | step5 =>
      obtain ⟨s₁, hs₁, rfl⟩ := Option.map_eq_some_iff.1 hs
      refine h.parent_semop hs₁ (by decide) (fun k => ?_) (by rw [hat]; exact Iff.rfl) (by rw [hat]; exact Iff.rfl)
        (by rw [hat]; rfl) hloop hcurrent fun hready c => (htogether c).collect ?_
      · rw [hat]
        cases k <;> rfl
      · obtain ⟨sems, hsems, hsat⟩ := h.exists_sems (by rw [hat]; trivial)
        exact hsat.val_M_zero.1 (SemSet.ready_zero.1 (hready sems hsems ⟨.M, 0⟩ (by simp))) c
    | msgrcv j => exact h.msgrcv hat hs
    | step6 =>
      obtain ⟨s₁, hs₁, rfl⟩ := Option.map_eq_some_iff.1 hs
      have hqueue := h.queue_nil (by rw [hat]; exact id)
      have hlt : loop < bound := (htogether .one).1
      refine h.parent_semop hs₁ (by decide) (fun k => ?_) ?_ ?_ ?_ ?_ (by simp [hqueue]) fun _ c => (htogether c).step6
      · rw [hat, parentLoop]
        split <;> cases k <;> rfl
      · rw [hat, parentLoop]
        split <;> exact Iff.rfl
      · rw [hat, parentLoop]
        split <;> exact Iff.rfl
      · rw [hat, parentLoop]
        split <;> simp [ParentPlace.received]
      · simp only [parentLoop]
        omega
    | semRmid =>
      cases hs
      exact ⟨htogether, hloop, iff_of_false Bool.false_ne_true id, fun _ hsems => (by cases hsems),
        h.msgs.trans (by rw [hat]; exact Iff.rfl), h.conserved, h.received.trans (by rw [hat]; rfl), hcurrent, h.tagged⟩
    | msgRmid =>
      cases hs
      have hqueue := h.queue_nil (by rw [hat]; exact id)
      have hperm := h.conserved
      rw [hqueue] at hperm
      exact ⟨htogether, hloop, h.sems.trans (by rw [hat]; exact Iff.rfl), fun sems hsems => h.no_sems (by rw [hat]; exact id) hsems,
        iff_of_false Bool.false_ne_true id, hperm, h.received.trans (by rw [hat]; rfl), List.forall_mem_nil _, h.tagged⟩
    | wait =>
      rw [Option.ite_none_right_eq_some] at hs
      obtain ⟨hended, hs⟩ := hs
      have hended : ∀ c, (s.child c).1 = .ended := Child.forall.2 hended
      cases hs
      exact ⟨fun c => (htogether c).wait (hended c), hloop, h.sems.trans (by rw [hat]; exact Iff.rfl),
        fun sems hsems => h.no_sems (by rw [hat]; exact id) hsems, h.msgs.trans (by rw [hat]; exact Iff.rfl), h.conserved,
        h.received.trans (by rw [hat]; rfl), hcurrent, h.tagged⟩
    | ended => cases hs

theorem Inv.step (h : Inv bound s) (hs : s.step bound p = some s') : Inv bound s' := by
  cases p with
  | parent => exact h.parentStep hs
  | child c => exact h.childStep hs

theorem inv_begin : Inv bound (begin bound) := by
  refine ⟨fun c => ?_, ⟨Nat.le_refl 1, Nat.le_max_left 1 bound⟩, iff_of_true rfl ?_, fun sems hsems => ?_, iff_of_true rfl ?_, ?_, ?_,
    List.forall_mem_nil _, List.forall_mem_nil _⟩
  · simp only [begin, childLoop, parentLoop]
    split <;> simp_all [Together]
  · simp only [begin, parentLoop]
    split <;> trivial
  · cases hsems
    refine ⟨fun k => by simp, fun c => ?_, ?_⟩
    · funext k
      simp only [begin, childLoop]
      split <;> cases c <;> cases k <;> rfl
    · funext k
      simp only [begin, parentLoop]
      split <;> cases k <;> rfl
  · simp only [begin, parentLoop]
    split <;> trivial
  · simp only [begin, sends, childLoop]
    split <;> rfl
  · simp only [begin, parentLoop]
    split <;> rfl

/-! ## Whole runs -/

/-- The processes that make a step, in the order in which they make them. -/
def run (bound : Nat) (s : State) (order : List Process) : Option State := order.foldlM (State.step bound) s

theorem run_cons {order : List Process} : run bound s (p :: order) = some t ↔ ∃ s', s.step bound p = some s' ∧ run bound s' order = some t := by
  rw [run, List.foldlM_cons]
  exact Option.bind_eq_some_iff

theorem Inv.run {order : List Process} (h : Inv bound s) (hrun : run bound s order = some t) : Inv bound t := by
  induction order generalizing s with
  | nil =>
    cases hrun
    exact h
  | cons p order ih =>
    obtain ⟨s', hs, hrun⟩ := run_cons.1 hrun
    exact ih (h.step hs) hrun

/-! ## Some process can go on -/

theorem exists_semop_map {ops : List (SemBuf Sem)} {f : State → State} (hnodup : (ops.map SemBuf.sem_num).Nodup)
    (hready : ∀ sems, s.sems = some sems → ∀ o ∈ ops, SemSet.Ready sems.val o) : ∃ t, (s.semop p ops).map f = some t :=
  ⟨_, Option.map_eq_some_iff.2 ⟨_, (semop_eq_some hnodup).2 ⟨hready, rfl⟩, rfl⟩⟩

/-- The steps at which a child waits: for the other semaphores at the first and the fourth, for the parent at the
third and the seventh. -/
theorem Inv.exists_childStep (h : Inv bound s) (h₁ : (s.child c).1 = .step1 → s.parent.1.taken = 0)
    (h₃ : (s.child c).1 = .step3 → s.parent.1.taken = 1) (h₇ : (s.child c).1 = .step7 → s.parent.1.HasSems → s.parent.1.taken = 0)
    (hended : (s.child c).1 ≠ .ended) : ∃ t, s.childStep bound c = some t := by
  cases hat : s.child c with
  | mk place loop =>
    rw [hat] at h₁ h₃ h₇ hended
    rw [State.childStep, hat]
    cases place with
    | step1 =>
      refine exists_semop_map (by cases c <;> decide) fun sems hsems => ?_
      have hsat := h.at_places sems hsems
      have hval := hsat.val_sem c
      rw [hat, h₁ rfl, ChildPlace.taken] at hval
      have hC : 1 ≤ sems.val .C := hsat.val_C_pos (c := c) (by simp [hat])
      exact List.forall_mem_cons.2 ⟨(SemSet.ready_of_ne (by decide)).2 (by omega),
        List.forall_mem_singleton.2 ((SemSet.ready_of_ne (by decide)).2 (by omega))⟩
    | step3 =>
      refine exists_semop_map (by cases c <;> decide) fun sems hsems => ?_
      have hval := (h.at_places sems hsems).val_sem c
      rw [hat, h₃ rfl, ChildPlace.taken] at hval
      have hC := (h.val_range hsems .C).1
      exact List.forall_mem_cons.2 ⟨SemSet.ready_zero.2 (by omega),
        List.forall_mem_singleton.2 ((SemSet.ready_of_ne (by decide)).2 (by omega))⟩
    | msgsnd => exact ⟨_, rfl⟩
    | step4 =>
      refine exists_semop_map (by simp) fun sems hsems => ?_
      have hM : 1 ≤ sems.val .M := (h.at_places sems hsems).val_M_pos (c := c) (by simp [hat])
      exact List.forall_mem_singleton.2 ((SemSet.ready_of_ne (by decide)).2 (by omega))
    | step7 =>
      refine exists_semop_map (by cases c <;> decide) fun sems hsems => ?_
      have hval := (h.at_places sems hsems).val_sem c
      rw [hat, h₇ rfl (h.sems.1 (Option.isSome_iff_exists.2 ⟨sems, hsems⟩)), ChildPlace.taken] at hval
      have hM := (h.val_range hsems .M).1
      exact List.forall_mem_cons.2 ⟨(SemSet.ready_of_ne (by decide)).2 (by omega),
        List.forall_mem_singleton.2 ((SemSet.ready_of_ne (by decide)).2 (by omega))⟩
    | step8 =>
      refine exists_semop_map (by simp) fun sems hsems => ?_
      have hval := (h.val_range hsems c.sem).1
      exact List.forall_mem_singleton.2 ((SemSet.ready_of_ne (by decide)).2 (by omega))
    | exit => exact ⟨_, rfl⟩
    | ended => exact absurd rfl hended

theorem Inv.exists_msgrcv {j loop : Nat} (h : Inv bound s) (hat : s.parent = (.msgrcv j, loop)) : ∃ t, s.msgrcv j loop = some t := by
  have htogether := h.together
  have hlength := h.queue_length
  have hloop := h.loop.1
  rw [hat] at htogether hlength hloop
  have hsent : ∀ c, ChildPlace.sent (s.child c) = loop := fun c => by
    obtain ⟨-, -, hplace, hk⟩ := htogether c
    rw [show s.child c = (.step7, loop) from Prod.ext hplace hk, ChildPlace.sent]
  rw [hsent, hsent, ParentPlace.received] at hlength
  obtain ⟨-, hj, -⟩ := htogether .one
  rw [State.msgrcv]
  cases hmsgs : s.msgs with
  | none => exact ⟨_, rfl⟩
  | some msgs =>
    cases msgs with
    | nil =>
      rw [queue, hmsgs, Option.getD_some, List.length_nil] at hlength
      omega
    | cons d msgs => exact ⟨_, rfl⟩

/-- As long as the parent has not ended, not all processes wait. -/
theorem Inv.exists_step (h : Inv bound s) (hp : s.parent.1 ≠ .ended) : ∃ p t, s.step bound p = some t := by
  have htogether := h.together
  cases hat : s.parent with
  | mk place loop =>
    rw [hat] at htogether hp
    have hchild : ∀ c, (∃ t, s.childStep bound c = some t) → ∃ p t, s.step bound p = some t := fun c ht => ⟨.child c, ht⟩
    have hparent : (∃ t, s.parentStep bound = some t) → ∃ p t, s.step bound p = some t := fun ht => ⟨.parent, ht⟩
    cases place with
    | step2 =>
      by_cases hall : ∀ c, (s.child c).1 = .step3
      · apply hparent
        rw [State.parentStep, hat]
        refine exists_semop_map (by decide) fun sems hsems => ?_
        have hsat := h.at_places sems hsems
        have hA : sems.val .A = 1 := by rw [show Sem.A = Child.one.sem from rfl, hsat.val_sem, hat, hall]; rfl
        have hB : sems.val .B = 1 := by rw [show Sem.B = Child.two.sem from rfl, hsat.val_sem, hat, hall]; rfl
        refine List.forall_mem_cons.2 ⟨(SemSet.ready_of_ne (by decide)).2 (by omega), List.forall_mem_cons.2
          ⟨(SemSet.ready_of_ne (by decide)).2 (by omega), List.forall_mem_singleton.2 (SemSet.ready_zero.2 (hsat.val_C_zero.2 hall))⟩⟩
      · obtain ⟨c, hc⟩ := not_forall.1 hall
        refine hchild c (h.exists_childStep (fun _ => by rw [hat]; rfl) (fun h₃ => absurd h₃ hc) (fun _ _ => by rw [hat]; rfl) fun hended => ?_)
        obtain ⟨-, ⟨hplace | hplace, -⟩ | ⟨hplace | hplace, -⟩⟩ := htogether c <;> simp [hplace] at hended
    | step5 =>
      by_cases hall : ∀ c, (s.child c).1 = .step7
      · apply hparent
        rw [State.parentStep, hat]
        refine exists_semop_map (by decide) fun sems hsems => ?_
        exact List.forall_mem_singleton.2 (SemSet.ready_zero.2 ((h.at_places sems hsems).val_M_zero.2 hall))
      · obtain ⟨c, hc⟩ := not_forall.1 hall
        obtain ⟨-, hplace, -⟩ := htogether c
        refine hchild c (h.exists_childStep (fun h₁ => ?_) (fun _ => by rw [hat]; rfl) (fun h₇ => absurd h₇ hc) fun hended => ?_)
        · simp [h₁] at hplace
        · simp [hended] at hplace
    | msgrcv j =>
      apply hparent
      rw [State.parentStep, hat]
      exact h.exists_msgrcv hat
    | step6 =>
      apply hparent
      rw [State.parentStep, hat]
      refine exists_semop_map (by decide) fun sems hsems => ?_
      have hA := (h.val_range hsems .A).1
      have hB := (h.val_range hsems .B).1
      exact List.forall_mem_cons.2 ⟨(SemSet.ready_of_ne (by decide)).2 (by omega), List.forall_mem_singleton.2
        ((SemSet.ready_of_ne (by decide)).2 (by omega))⟩
    | semRmid =>
      apply hparent
      rw [State.parentStep, hat]
      exact ⟨_, rfl⟩
    | msgRmid =>
      apply hparent
      rw [State.parentStep, hat]
      exact ⟨_, rfl⟩
    | wait =>
      by_cases hall : ∀ c, (s.child c).1 = .ended
      · apply hparent
        rw [State.parentStep, hat]
        exact ⟨_, if_pos (Child.forall.1 hall)⟩
      · obtain ⟨c, hc⟩ := not_forall.1 hall
        obtain ⟨-, hplace⟩ := htogether c
        refine hchild c (h.exists_childStep (fun h₁ => ?_) (fun h₃ => ?_) (fun _ hhas => ?_) hc)
        · simp [h₁] at hplace
        · simp [h₃] at hplace
        · rw [hat] at hhas
          exact hhas.elim
    | ended => exact absurd rfl hp

/-! ## How long a run is -/

def position (s : State) : Nat :=
  ParentPlace.position s.parent + ChildPlace.position (s.child .one) + ChildPlace.position (s.child .two)

theorem semop_places {ops : List (SemBuf Sem)} (hs : s.semop p ops = some s') : s'.parent = s.parent ∧ s'.child = s.child := by
  rw [semop] at hs
  cases hsems : s.sems with
  | none =>
    rw [hsems] at hs
    cases hs
    exact ⟨rfl, rfl⟩
  | some sems =>
    rw [hsems] at hs
    obtain ⟨sems', -, rfl⟩ := Option.map_eq_some_iff.1 hs
    exact ⟨rfl, rfl⟩

theorem position_childTo {place : ChildPlace × Nat} (hs : s'.parent = s.parent ∧ s'.child = s.child)
    (hplace : ChildPlace.position place = ChildPlace.position (s.child c) + 1) : (s'.childTo c place).position = s.position + 1 := by
  have hparent : (s'.childTo c place).parent = s.parent := hs.1
  cases c with
  | one =>
    rw [position, position, childTo_child, childTo_child, if_pos rfl, if_neg (by decide), hs.2, hparent, hplace]
    omega
  | two =>
    rw [position, position, childTo_child, childTo_child, if_pos rfl, if_neg (by decide), hs.2, hparent, hplace]
    omega

theorem childStep_position (hs : s.childStep bound c = some s') : s'.position = s.position + 1 := by
  rw [State.childStep] at hs
  cases hat : s.child c with
  | mk place loop =>
    rw [hat] at hs
    cases place with
    | msgsnd =>
      cases hs
      exact position_childTo ⟨rfl, rfl⟩ (by rw [hat]; rfl)
    | exit =>
      cases hs
      exact position_childTo ⟨rfl, rfl⟩ (by rw [hat]; rfl)
    | ended => cases hs
    | step8 =>
      obtain ⟨s₁, hs₁, rfl⟩ := Option.map_eq_some_iff.1 hs
      refine position_childTo (semop_places hs₁) ?_
      rw [hat, childLoop]
      split <;> simp only [ChildPlace.position] <;> omega
    | _ =>
      obtain ⟨s₁, hs₁, rfl⟩ := Option.map_eq_some_iff.1 hs
      exact position_childTo (semop_places hs₁) (by rw [hat]; rfl)

theorem position_parentTo {place : ParentPlace × Nat} (hs : s'.child = s.child)
    (hplace : ParentPlace.position place = ParentPlace.position s.parent + 1) : (s'.parentTo place).position = s.position + 1 := by
  have hchild : (s'.parentTo place).child = s.child := hs
  have hparent : (s'.parentTo place).parent = place := rfl
  rw [position, position, hchild, hparent, hplace]
  omega

theorem Inv.parentStep_position (h : Inv bound s) (hs : s.parentStep bound = some s') : s'.position = s.position + 1 := by
  have htogether := h.together .one
  rw [State.parentStep] at hs
  cases hat : s.parent with
  | mk place loop =>
    rw [hat] at hs htogether
    cases place with
    | msgrcv j =>
      obtain ⟨-, hj, -⟩ := htogether
      have hnext : ParentPlace.position (if j + 1 < 2 then .msgrcv (j + 1) else .step6, loop) = ParentPlace.position s.parent + 1 := by
        rw [hat]
        split <;> simp only [ParentPlace.position] <;> omega
      change s.msgrcv j loop = some s' at hs
      rw [State.msgrcv] at hs
      split at hs
      · cases hs
        exact position_parentTo rfl hnext
      · cases hs
      · cases hs
        exact position_parentTo rfl hnext
    | step6 =>
      obtain ⟨s₁, hs₁, rfl⟩ := Option.map_eq_some_iff.1 hs
      refine position_parentTo (semop_places hs₁).2 ?_
      rw [hat, parentLoop]
      split <;> simp only [ParentPlace.position] <;> omega
    | semRmid =>
      cases hs
      exact position_parentTo rfl (by rw [hat]; rfl)
    | msgRmid =>
      cases hs
      exact position_parentTo rfl (by rw [hat]; rfl)
    | wait =>
      rw [Option.ite_none_right_eq_some] at hs
      cases hs.2
      exact position_parentTo rfl (by rw [hat]; rfl)
    | ended => cases hs
    | _ =>
      obtain ⟨s₁, hs₁, rfl⟩ := Option.map_eq_some_iff.1 hs
      exact position_parentTo (semop_places hs₁).2 (by rw [hat]; rfl)

theorem Inv.run_position {order : List Process} (h : Inv bound s) (hrun : State.run bound s order = some t) :
    t.position = s.position + order.length := by
  induction order generalizing s with
  | nil =>
    cases hrun
    rfl
  | cons p order ih =>
    obtain ⟨s', hs, hrun⟩ := run_cons.1 hrun
    have hstep : s'.position = s.position + 1 := by
      cases p with
      | parent => exact h.parentStep_position hs
      | child c => exact childStep_position hs
    rw [ih (h.step hs) hrun, hstep, List.length_cons]
    omega

/-- No state is further than the end, and only the end is there. -/
theorem Inv.position_le (h : Inv bound s) :
    s.position ≤ 17 * max 1 bound + 5 ∧ (s.position = 17 * max 1 bound + 5 ↔ s.parent.1 = .ended) := by
  have hloop := h.loop
  have hone := (h.together .one).position
  have htwo := (h.together .two).position
  rw [position]
  by_cases hended : s.parent.1 = .ended
  · simp only [hended, ne_eq, not_true_eq_false, and_false, false_or] at hone htwo
    exact ⟨by omega, iff_of_true (by omega) hended⟩
  · simp only [hended, and_false, or_false, ne_eq, not_false_eq_true, and_true] at hone htwo
    exact ⟨by omega, iff_of_false (by omega) hended⟩

theorem Inv.have_earlier (h : Inv bound s) {r : Nat} (hr : 1 ≤ r) (hlt : r < s.parent.2) : (r, Data.mk c r) ∈ s.got := by
  have hsent := (h.together c).le_sent
  have hsample : Data.mk c r ∈ samples c (ChildPlace.sent (s.child c)) :=
    List.mem_map_of_mem (List.mem_range'_1.2 (by omega))
  have hsends : Data.mk c r ∈ s.sends := by
    cases c with
    | one => exact List.mem_append_left _ hsample
    | two => exact List.mem_append_right _ hsample
  rcases List.mem_append.1 (h.conserved.mem_iff.2 hsends) with hgot | hqueue
  · obtain ⟨e, he, hdata⟩ := List.mem_map.1 hgot
    have htag := h.tagged e he
    rw [hdata] at htag
    have heq : e = (r, Data.mk c r) := Prod.ext htag.symm hdata
    exact heq ▸ he
  · have hcurrent : r = s.parent.2 := h.current _ hqueue
    omega

/-- A round that the second child begins and ends first. -/
def secondFirst : List Process :=
  [.child .two, .child .one, .parent, .child .two, .child .two, .child .two, .child .one, .child .one, .child .one, .parent, .parent,
    .parent, .parent, .child .two, .child .two, .child .one, .child .one]

/-- Two such rounds, and the end. -/
def twoRounds : List Process := secondFirst ++ (secondFirst ++ [Process.parent, .parent, .child .one, .child .two, .parent])

end State

end MultiSem
