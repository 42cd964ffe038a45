/-
An alarm that counts ticks: it goes off at the last of them, is answered, and
is set again when it repeats.

`Accepts` says of what happened at something that it is what happens at an
alarm. A system that moves in step with an alarm does so in all its runs
(`accepts_run`).
-/
import Mathlib.Data.List.Basic

namespace Alarm

/-- What happens at an alarm: a tick that it counts, at which it goes off or not, one that it does not count, a look at
it while it has not gone off, the answer, and that it is set again. -/
inductive Event
  | tick (expires : Bool)
  | pass
  | skip
  | call
  | rearm
  deriving DecidableEq

/-- An alarm that counts has the ticks left up to the one at which it goes off. -/
inductive Phase
  | counting (left : Nat)
  | expired
  | called
  deriving DecidableEq

/-- The alarm is set again to count `again` ticks, if it repeats. -/
def step (again : Option Nat) : Phase → Event → Option Phase
  | .counting 1, .tick true => some .expired
  | .counting (k + 2), .tick false => some (.counting (k + 1))
  | .counting k, .skip => some (.counting k)
  | .expired, .pass => some .expired
  | .expired, .call => some .called
  | .called, .pass => some .called
  | .called, .rearm => again.map .counting
  | _, _ => none

/-- The events can happen one after the other at an alarm that is at `p`, and leave it at `q`. -/
def Goes (again : Option Nat) (p : Phase) (history : List Event) (q : Phase) : Prop :=
  history.foldlM (step again) p = some q

def Accepts (again : Option Nat) (p : Phase) (history : List Event) : Prop := (history.foldlM (step again) p).isSome

instance {again : Option Nat} {p : Phase} {history : List Event} : Decidable (Accepts again p history) :=
  inferInstanceAs (Decidable (_ = true))

variable {again : Option Nat} {p q : Phase} {history l : List Event} {e : Event}

theorem Goes.accepts (h : Goes again p history q) : Accepts again p history := by
  rw [Accepts, h]
  rfl

theorem step_skip {k : Nat} : step again (.counting k) .skip = some (.counting k) := by
  match k with
  | 0 | 1 | k + 2 => rfl

theorem goes_nil : Goes again p [] p := rfl

theorem Goes.concat {q' : Phase} (h : Goes again p history q) (he : step again q e = some q') :
    Goes again p (history ++ [e]) q' := by
  rw [Goes, List.foldlM_append, h]
  simp [he]

theorem Accepts.of_append (h : Goes again p history q) : Accepts again p (history ++ l) ↔ Accepts again q l := by
  rw [Accepts, List.foldlM_append, h]
  rfl

/-- So many ticks at which the alarm does not go off are fewer than it counts. -/
theorem accepts_ticks {n k : Nat} (hk : 1 ≤ k) :
    Accepts again (.counting k) (List.replicate n (.tick false)) ↔ n < k := by
  induction n generalizing k with
  | zero => exact iff_of_true rfl hk
  | succ n ih =>
    rw [List.replicate_succ, Accepts, List.foldlM_cons]
    match k, hk with
    | 1, _ => exact iff_of_false (by simp [step]) (by omega)
    | k + 2, _ =>
      have hrest := ih (k := k + 1) (by omega)
      rw [Accepts] at hrest
      simp only [step, Option.bind_eq_bind, Option.bind_some, hrest]
      omega

theorem goes_ticks {n : Nat} : Goes again (.counting (n + 1)) (List.replicate n (.tick false)) (.counting 1) := by
  induction n with
  | zero => exact goes_nil
  | succ n ih => rwa [List.replicate_succ, Goes, List.foldlM_cons]

/-- What happens at a tick that is counted. -/
def Event.isTick : Event → Bool
  | .tick _ => true
  | _ => false

/-- The ticks up to the next at which the alarm goes off. -/
def Phase.left (again : Option Nat) : Phase → Nat
  | .counting k => k
  | .expired | .called => again.getD 0

theorem step_left (h : step again p e = some q) (he : e ≠ .tick true) :
    (if e.isTick then 1 else 0) + q.left again = p.left again ∧ (0 < p.left again → 0 < q.left again) := by
  match p, e with
  | .counting (k + 2), .tick false =>
    obtain rfl := Option.some.inj h
    exact ⟨by simp only [Event.isTick, if_true, Phase.left]; omega, fun _ => Nat.succ_pos k⟩
  | .counting k, .skip =>
    obtain rfl := Option.some.inj (step_skip.symm.trans h)
    exact ⟨Nat.zero_add _, id⟩
  | .expired, .pass | .expired, .call | .called, .pass =>
    obtain rfl := Option.some.inj h
    exact ⟨Nat.zero_add _, id⟩
  | .called, .rearm =>
    obtain ⟨k, rfl, rfl⟩ := Option.map_eq_some_iff.1 (show again.map .counting = some q from h)
    exact ⟨Nat.zero_add _, id⟩

theorem Goes.left (h : Goes again p history q) (hno : .tick true ∉ history) :
    history.countP Event.isTick + q.left again = p.left again ∧ (0 < p.left again → 0 < q.left again) := by
  induction history generalizing p with
  | nil =>
    obtain rfl := Option.some.inj h
    exact ⟨Nat.zero_add _, id⟩
  | cons e history ih =>
    rw [Goes, List.foldlM_cons, Option.bind_eq_bind, Option.bind_eq_some_iff] at h
    obtain ⟨p', he, hrest⟩ := h
    rw [List.mem_cons, not_or] at hno
    obtain ⟨hone, hpos⟩ := step_left he (Ne.symm hno.1)
    obtain ⟨hall, hpos'⟩ := ih hrest hno.2
    refine ⟨?_, fun h => hpos' (hpos h)⟩
    rw [List.countP_cons]
    omega

/-- After as many ticks as it had left, the alarm has gone off. -/
theorem Goes.due (h : Goes again p history q) (hp : 0 < p.left again) (hcount : p.left again ≤ history.countP Event.isTick) :
    .tick true ∈ history := by
  by_contra hno
  obtain ⟨heq, hpos⟩ := h.left hno
  have := hpos hp
  omega

/-- A system whose every step adds to the history what can happen at the alarm it moves in step with. -/
theorem goes_run {σ α : Type*} {stepOf : σ → α → σ} {events : σ → List Event} (R : σ → Phase → Prop)
    (hstep : ∀ s a p, R s p → ∃ l q, events (stepOf s a) = events s ++ l ∧ Goes again p l q ∧ R (stepOf s a) q)
    {s : σ} (hs : R s p) (acts : List α) :
    ∃ l q, events (acts.foldl stepOf s) = events s ++ l ∧ Goes again p l q ∧ R (acts.foldl stepOf s) q := by
  induction acts generalizing s p with
  | nil => exact ⟨[], p, (List.append_nil _).symm, goes_nil, hs⟩
  | cons a acts ih =>
    obtain ⟨l, q, hevents, hl, hR⟩ := hstep s a p hs
    obtain ⟨l', q', hevents', hl', hR'⟩ := ih hR
    refine ⟨l ++ l', q', by rw [List.foldl_cons, hevents', hevents, List.append_assoc], ?_, hR'⟩
    rw [Goes, List.foldlM_append, hl]
    exact hl'

end Alarm
