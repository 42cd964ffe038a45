/-
Runs of a deterministic system: a step function folded over a list of actions.

`Along` says that a condition holds at every step of a run, of the state the
step starts from and its action. An invariant such steps keep holds at the
end of the run (`Along.run`), and so in every state on the way, each being
the end of a shorter run.
-/
import Mathlib.Order.Basic

namespace Steps

variable {σ α : Type*} {step : σ → α → σ} {ok ok' : σ → α → Prop} {s : σ} {a : α} {l l₁ l₂ : List α}

/-- Every step of the run meets `ok`. -/
def Along (step : σ → α → σ) (ok : σ → α → Prop) : σ → List α → Prop
  | _, [] => True
  | s, a :: l => ok s a ∧ Along step ok (step s a) l

instance decAlong [∀ s a, Decidable (ok s a)] : ∀ (s : σ) (l : List α), Decidable (Along step ok s l)
  | _, [] => isTrue trivial
  | s, a :: l =>
    have := decAlong (step s a) l
    inferInstanceAs (Decidable (_ ∧ _))

theorem Along.imp (h : Along step ok s l) (himp : ∀ s a, ok s a → ok' s a) : Along step ok' s l := by
  induction l generalizing s with
  | nil => trivial
  | cons a l ih => exact ⟨himp _ _ h.1, ih h.2⟩

theorem along_of_mem {ok : α → Prop} (h : ∀ a ∈ l, ok a) : Along step (fun _ => ok) s l := by
  induction l generalizing s with
  | nil => trivial
  | cons a l ih => exact ⟨h a List.mem_cons_self, ih fun b hb => h b (List.mem_cons_of_mem _ hb)⟩

theorem Along.mem {ok : α → Prop} (h : Along step (fun _ => ok) s l) : ∀ a ∈ l, ok a := by
  induction l generalizing s with
  | nil => simp
  | cons b l ih =>
    intro a ha
    rcases List.mem_cons.1 ha with rfl | ha
    · exact h.1
    · exact ih h.2 a ha

/-- What every step that meets `ok` keeps holds at the end of the run. -/
theorem Along.run (P : σ → Prop) (h : Along step ok s l) (hs : P s)
    (hstep : ∀ s a, P s → ok s a → P (step s a)) : P (l.foldl step s) := by
  induction l generalizing s with
  | nil => exact hs
  | cons a l ih => exact ih h.2 (hstep s a hs h.1)

end Steps
