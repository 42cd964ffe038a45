/-
Loops and runs that can fail: what a fold in `Except` that came to an end has
done, and when it does come to an end.
-/
import Mathlib.Data.List.Basic
import Mathlib.Data.Int.Init

namespace Fallible

universe u v w

variable {ε : Type u} {α : Type w} {σ β γ : Type v}

theorem bind_eq_ok {x : Except ε β} {f : β → Except ε γ} {b : γ} :
    (x >>= f) = .ok b ↔ ∃ a, x = .ok a ∧ f a = .ok b := by
  cases x with
  | error e => simp [bind, Except.bind]
  | ok a => simp [bind, Except.bind]

/-- A fault that no part has. -/
theorem bind_ne_error {x : Except ε β} {f : β → Except ε γ} {e : ε} (hx : x ≠ .error e) (hf : ∀ a, x = .ok a → f a ≠ .error e) :
    (x >>= f) ≠ .error e := by
  cases x with
  | error e' => exact fun h => hx (congrArg Except.error (Except.error.inj h))
  | ok a => exact hf a rfl

/-- Only the first of two computations can fail. -/
theorem exists_bind_ok {x : Except ε β} {f : β → γ} : (∃ c, (x >>= fun a => .ok (f a)) = .ok c) ↔ ∃ a, x = .ok a := by
  cases x with
  | error e => simp [bind, Except.bind]
  | ok a => simp [bind, Except.bind]

/-- A computation that does not fail. -/
def Returns (x : Except ε β) : Prop := ∃ b, x = .ok b

@[simp] theorem returns_ok {b : β} : Returns (.ok b : Except ε β) := ⟨b, rfl⟩

@[simp] theorem not_returns_error {e : ε} : ¬Returns (.error e : Except ε β) := nofun

theorem returns_bind {x : Except ε β} {f : β → Except ε γ} :
    Returns (x >>= f) ↔ Returns x ∧ ∀ a, x = .ok a → Returns (f a) := by
  cases x with
  | error e => simp [bind, Except.bind]
  | ok a => simp [bind, Except.bind]

/-- A computation whose first part is known not to fail. -/
theorem returns_bind_of {x : Except ε β} {f : β → Except ε γ} {a : β} (hx : x = .ok a) : Returns (x >>= f) ↔ Returns (f a) := by
  rw [hx]
  exact Iff.rfl

theorem foldlM_nil_ok {f : σ → α → Except ε σ} {s s' : σ} : ([] : List α).foldlM f s = .ok s' ↔ s = s' := by
  rw [List.foldlM_nil]
  exact Except.ok.injEq s s' ▸ Iff.rfl

theorem foldlM_cons_ok {f : σ → α → Except ε σ} {a : α} {l : List α} {s s' : σ} :
    (a :: l).foldlM f s = .ok s' ↔ ∃ t, f s a = .ok t ∧ l.foldlM f t = .ok s' := by
  rw [List.foldlM_cons, bind_eq_ok]

theorem foldlM_append_ok {f : σ → α → Except ε σ} {l l' : List α} {s s' : σ} :
    (l ++ l').foldlM f s = .ok s' ↔ ∃ t, l.foldlM f s = .ok t ∧ l'.foldlM f t = .ok s' := by
  rw [List.foldlM_append, bind_eq_ok]

/-- What every step of the loop keeps holds at its end. -/
theorem foldlM_run (P : σ → Prop) {f : σ → α → Except ε σ} {l : List α} {s s' : σ} (h : l.foldlM f s = .ok s')
    (hs : P s) (hstep : ∀ s t a, a ∈ l → P s → f s a = .ok t → P t) : P s' := by
  induction l generalizing s with
  | nil => exact foldlM_nil_ok.1 h ▸ hs
  | cons a l ih =>
    obtain ⟨t, ht, h⟩ := foldlM_cons_ok.1 h
    exact ih h (hstep s t a List.mem_cons_self hs ht) fun s t b hb => hstep s t b (List.mem_cons_of_mem _ hb)

/-- A loop whose steps do what those of another one do ends as that one does. -/
theorem foldlM_imp {f g : σ → α → Except ε σ} {l : List α} {s s' : σ} (h : l.foldlM f s = .ok s')
    (hstep : ∀ s t a, a ∈ l → f s a = .ok t → g s a = .ok t) : l.foldlM g s = .ok s' := by
  induction l generalizing s with
  | nil => exact h
  | cons a l ih =>
    obtain ⟨t, ht, h⟩ := foldlM_cons_ok.1 h
    exact foldlM_cons_ok.2 ⟨t, hstep s t a List.mem_cons_self ht, ih h fun s t b hb => hstep s t b (List.mem_cons_of_mem _ hb)⟩

/-- A loop whose every step can be made comes to its end. -/
theorem foldlM_exists (P : σ → Prop) {f : σ → α → Except ε σ} {l : List α} {s : σ} (hs : P s)
    (hstep : ∀ s a, a ∈ l → P s → ∃ t, f s a = .ok t ∧ P t) : ∃ s', l.foldlM f s = .ok s' ∧ P s' := by
  induction l generalizing s with
  | nil => exact ⟨s, rfl, hs⟩
  | cons a l ih =>
    obtain ⟨t, ht, hP⟩ := hstep s a List.mem_cons_self hs
    obtain ⟨s', hrun, hP'⟩ := ih hP fun s b hb => hstep s b (List.mem_cons_of_mem _ hb)
    exact ⟨s', foldlM_cons_ok.2 ⟨t, ht, hrun⟩, hP'⟩

/-- A loop that comes to its end is followed by the pure loop `g`. -/
theorem foldlM_foldl {τ : Type*} (R : σ → τ → Prop) {f : σ → α → Except ε σ} {g : τ → α → τ} {l : List α} {s s' : σ} {t : τ}
    (h : l.foldlM f s = .ok s') (hs : R s t) (hstep : ∀ s t a s', a ∈ l → R s t → f s a = .ok s' → R s' (g t a)) :
    R s' (l.foldl g t) := by
  induction l generalizing s t with
  | nil =>
    cases foldlM_nil_ok.1 h
    exact hs
  | cons a l ih =>
    obtain ⟨s₁, h₁, h⟩ := foldlM_cons_ok.1 h
    exact ih h (hstep s t a s₁ List.mem_cons_self hs h₁) fun s t b s' hb => hstep s t b s' (List.mem_cons_of_mem _ hb)

instance decExistsOk {P : σ → Prop} [DecidablePred P] : ∀ x : Except ε σ, Decidable (∃ s, x = .ok s ∧ P s)
  | .ok s => decidable_of_iff (P s) ⟨fun h => ⟨s, rfl, h⟩, fun ⟨t, ht, h⟩ => by cases ht; exact h⟩
  | .error _ => isFalse fun ⟨_, ht, _⟩ => by cases ht

instance decForallOk {P : σ → Prop} [DecidablePred P] : ∀ x : Except ε σ, Decidable (∀ s, x = .ok s → P s)
  | .ok s => decidable_of_iff (P s) ⟨fun h t ht => by cases ht; exact h, fun h => h s rfl⟩
  | .error _ => isTrue fun _ ht => by cases ht

instance decForallSome {α : Type*} {P : α → Prop} [DecidablePred P] : ∀ x : Option α, Decidable (∀ a, x = some a → P a)
  | some a => decidable_of_iff (P a) ⟨fun h b hb => by cases hb; exact h, fun h => h a rfl⟩
  | none => isTrue fun _ ha => by cases ha

instance decExistsSome {α : Type*} {P : α → Prop} [DecidablePred P] : ∀ x : Option α, Decidable (∃ a, x = some a ∧ P a)
  | some a => decidable_of_iff (P a) ⟨fun h => ⟨a, rfl, h⟩, fun ⟨b, hb, h⟩ => by cases hb; exact h⟩
  | none => isFalse fun ⟨_, ha, _⟩ => by cases ha

/-! ## Runs -/

variable {step : σ → α → Except ε σ} {ok ok' : σ → α → Prop} {s : σ} {l : List α}

/-- Every step of the run meets `ok`, as far as the run goes. -/
def Along (step : σ → α → Except ε σ) (ok : σ → α → Prop) : σ → List α → Prop
  | _, [] => True
  | s, a :: l => ok s a ∧ match step s a with
    | .ok t => Along step ok t l
    | .error _ => True

instance decAlong [∀ s a, Decidable (ok s a)] : ∀ (s : σ) (l : List α), Decidable (Along step ok s l)
  | _, [] => isTrue trivial
  | s, a :: l =>
    have : Decidable (match step s a with
        | .ok t => Along step ok t l
        | .error _ => True) :=
      match step s a with
      | .ok t => decAlong t l
      | .error _ => isTrue trivial
    inferInstanceAs (Decidable (_ ∧ _))

/-- A loop comes to its end exactly when no step of it fails. -/
theorem returns_foldlM : Returns (l.foldlM step s) ↔ Along step (fun s a => Returns (step s a)) s l := by
  induction l generalizing s with
  | nil => exact iff_of_true ⟨s, List.foldlM_nil⟩ trivial
  | cons a l ih =>
    rw [List.foldlM_cons, returns_bind, Along]
    refine and_congr_right fun _ => ?_
    cases step s a with
    | error e => exact iff_of_true nofun trivial
    | ok t =>
      refine Iff.trans ⟨fun h => h t rfl, fun h t' ht => ?_⟩ ih
      cases ht
      exact h

theorem Along.imp (h : Along step ok s l) (himp : ∀ s a, ok s a → ok' s a) : Along step ok' s l := by
  induction l generalizing s with
  | nil => trivial
  | cons a l ih =>
    obtain ⟨hok, hrest⟩ := h
    refine ⟨himp s a hok, ?_⟩
    cases ht : step s a with
    | error e => trivial
    | ok t =>
      rw [ht] at hrest
      exact ih hrest

theorem Along.and (h : Along step ok s l) (h' : Along step ok' s l) : Along step (fun s a => ok s a ∧ ok' s a) s l := by
  induction l generalizing s with
  | nil => trivial
  | cons a l ih =>
    obtain ⟨hok, hrest⟩ := h
    obtain ⟨hok', hrest'⟩ := h'
    refine ⟨⟨hok, hok'⟩, ?_⟩
    cases ht : step s a with
    | error e => trivial
    | ok t =>
      rw [ht] at hrest hrest'
      exact ih hrest hrest'

/-- A run whose steps meet `ok` comes to its end, and what such steps keep holds there. -/
theorem Along.run (P : σ → Prop) (h : Along step ok s l) (hs : P s)
    (hstep : ∀ s a, P s → ok s a → ∃ t, step s a = .ok t ∧ P t) : ∃ s', l.foldlM step s = .ok s' ∧ P s' := by
  induction l generalizing s with
  | nil => exact ⟨s, rfl, hs⟩
  | cons a l ih =>
    obtain ⟨hok, hrest⟩ := h
    obtain ⟨t, ht, hP⟩ := hstep s a hs hok
    rw [ht] at hrest
    obtain ⟨s', hrun, hP'⟩ := ih hrest hP
    exact ⟨s', foldlM_cons_ok.2 ⟨t, ht, hrun⟩, hP'⟩

/-- A run whose steps meet `ok` comes to its end, and is followed by the pure loop `g`. -/
theorem Along.simulates {τ : Type*} (R : σ → τ → Prop) {g : τ → α → τ} {t : τ} (h : Along step ok s l) (hs : R s t)
    (hstep : ∀ s a t, R s t → ok s a → ∃ s', step s a = .ok s' ∧ R s' (g t a)) :
    ∃ s', l.foldlM step s = .ok s' ∧ R s' (l.foldl g t) := by
  induction l generalizing s t with
  | nil => exact ⟨s, rfl, hs⟩
  | cons a l ih =>
    obtain ⟨hok, hrest⟩ := h
    obtain ⟨s₁, h₁, hR⟩ := hstep s a t hs hok
    rw [h₁] at hrest
    obtain ⟨s', hrun, hR'⟩ := ih hrest hR
    exact ⟨s', foldlM_cons_ok.2 ⟨s₁, h₁, hrun⟩, hR'⟩

/-- Two conditions that agree while `P` holds hold along the same runs. -/
theorem along_congr (P : σ → Prop) (hs : P s) (hiff : ∀ s a, P s → (ok s a ↔ ok' s a))
    (hstep : ∀ s a t, P s → ok s a → step s a = .ok t → P t) : Along step ok s l ↔ Along step ok' s l := by
  induction l generalizing s with
  | nil => exact Iff.rfl
  | cons a l ih =>
    rw [Along, Along, ← hiff s a hs]
    refine and_congr_right fun hok => ?_
    cases ht : step s a with
    | error e => exact Iff.rfl
    | ok t => exact ih (hstep s a t hs hok ht)

/-- In a run that has come to its end, what the steps that meet `ok` keep holds there. -/
theorem Along.keeps (P : σ → Prop) {s' : σ} (h : Along step ok s l) (hrun : l.foldlM step s = .ok s') (hs : P s)
    (hstep : ∀ s a t, P s → ok s a → step s a = .ok t → P t) : P s' := by
  induction l generalizing s with
  | nil =>
    cases foldlM_nil_ok.1 hrun
    exact hs
  | cons a l ih =>
    obtain ⟨t, ht, hrun⟩ := foldlM_cons_ok.1 hrun
    obtain ⟨hok, hrest⟩ := h
    rw [ht] at hrest
    exact ih hrest hrun (hstep s a t hs hok ht)

/-- A measure that no step lowers, and that exactly the steps that meet `ok` leave as it is, is at the end
of a run what it was exactly when all steps of the run met `ok`. -/
theorem along_iff_measure (P : σ → Prop) (f : σ → Int) {s' : σ} (hrun : l.foldlM step s = .ok s') (hs : P s)
    (hstep : ∀ s, ∀ a ∈ l, ∀ t, P s → step s a = .ok t → P t ∧ f s ≤ f t ∧ (f t = f s ↔ ok s a)) :
    f s ≤ f s' ∧ (f s' = f s ↔ Along step ok s l) := by
  induction l generalizing s with
  | nil =>
    cases foldlM_nil_ok.1 hrun
    exact ⟨Int.le_refl _, iff_of_true rfl trivial⟩
  | cons a l ih =>
    obtain ⟨t, ht, hrun⟩ := foldlM_cons_ok.1 hrun
    obtain ⟨hP, hle, hiff⟩ := hstep s a List.mem_cons_self t hs ht
    obtain ⟨hle', hiff'⟩ := ih hrun hP fun s b hb => hstep s b (List.mem_cons_of_mem a hb)
    refine ⟨Int.le_trans hle hle', ?_⟩
    rw [Along, ht, ← hiff]
    dsimp only
    rw [← hiff']
    omega

end Fallible
