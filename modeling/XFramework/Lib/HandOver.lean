/-
Items that several hands take from one line.

An item is given, waits in the line, and is taken from its front by a hand. The
hand makes a result of it, which it hands over, or puts it back at the front.
Items can be dropped: one that is not taken in, one that a hand has, and all
that wait.

No item is lost or doubled (`Line.Conserved.step`). While no two hands have items at
a time the results are handed over in the order in which they were made, and that
is the order in which the items were given (`Line.Ordered.step`).
-/
import Mathlib.Data.List.Basic

namespace HandOver

/-- What a hand has: an item, one that goes back, or the result made of it. -/
inductive Hand (α β : Type*)
  | taken (a : α)
  | failed (a : α)
  | made (b : β)

/-- `results` are in the order in which they were made. -/
structure Line (α β : Type*) where
  given : List α
  waiting : List α
  hands : List (Hand α β)
  results : List β
  delivered : List β
  dropped : List α

variable {α β : Type*} {origin : β → α} {L L' : Line α β}

/-- The item that a hand has, or has made its result of. -/
def Hand.item (origin : β → α) : Hand α β → α
  | .taken a => a
  | .failed a => a
  | .made b => origin b

def Hand.result? : Hand α β → Option β
  | .made b => some b
  | _ => none

/-- What can happen to a line. -/
inductive Move (origin : β → α) (L : Line α β) : Line α β → Prop
  | stay : Move origin L L
  | give (a : α) : Move origin L { L with given := L.given ++ [a], waiting := L.waiting ++ [a] }
  | refuse (a : α) : Move origin L { L with given := L.given ++ [a], dropped := L.dropped ++ [a] }
  | take {a : α} {w : List α} {l₁ l₂ : List (Hand α β)} (hw : L.waiting = a :: w) (hh : L.hands = l₁ ++ l₂) :
    Move origin L { L with waiting := w, hands := l₁ ++ .taken a :: l₂ }
  | discard {a : α} {w : List α} (hw : L.waiting = a :: w) : Move origin L { L with waiting := w, dropped := L.dropped ++ [a] }
  | fail {a : α} {l₁ l₂ : List (Hand α β)} (hh : L.hands = l₁ ++ .taken a :: l₂) :
    Move origin L { L with hands := l₁ ++ .failed a :: l₂ }
  | make {a : α} {b : β} {l₁ l₂ : List (Hand α β)} (hh : L.hands = l₁ ++ .taken a :: l₂) (hb : origin b = a) :
    Move origin L { L with hands := l₁ ++ .made b :: l₂, results := L.results ++ [b] }
  | putBack {a : α} {l₁ l₂ : List (Hand α β)} (hh : L.hands = l₁ ++ .failed a :: l₂) :
    Move origin L { L with hands := l₁ ++ l₂, waiting := a :: L.waiting }
  | lose {a : α} {l₁ l₂ : List (Hand α β)} (hh : L.hands = l₁ ++ .failed a :: l₂) :
    Move origin L { L with hands := l₁ ++ l₂, dropped := L.dropped ++ [a] }
  | deliver {b : β} {l₁ l₂ : List (Hand α β)} (hh : L.hands = l₁ ++ .made b :: l₂) :
    Move origin L { L with hands := l₁ ++ l₂, delivered := L.delivered ++ [b] }
  | close : Move origin L { L with waiting := [], dropped := L.dropped ++ L.waiting }

namespace Line

/-- The items that were not dropped, from the one that came furthest. -/
def places (origin : β → α) (L : Line α β) : List α := L.delivered.map origin ++ L.hands.map (Hand.item origin) ++ L.waiting

/-- Every item that was given is at one place. -/
def Conserved (origin : β → α) (L : Line α β) : Prop := L.given.Perm (L.places origin ++ L.dropped)

/-- One hand at most has an item, the items are in the order in which they were given, and the results in that in which
they were made. -/
structure Ordered (origin : β → α) (L : Line α β) : Prop where
  alone : L.hands.length ≤ 1
  items : (L.places origin).Sublist L.given
  results : L.results = L.delivered ++ L.hands.filterMap Hand.result?

theorem Conserved.step (h : L.Conserved origin) (hm : Move origin L L') : L'.Conserved origin := by
  unfold Conserved at h ⊢
  cases hm with
  | stay => exact h
  | give a =>
    refine (h.append_right [a]).trans ?_
    simp only [places, List.append_assoc]
    exact List.Perm.append_left _ (List.Perm.append_left _ (List.Perm.append_left _ List.perm_append_comm))
  | refuse a =>
    refine (h.append_right [a]).trans ?_
    rw [List.append_assoc]
    exact .refl _
  | take hw hh =>
    refine h.trans (List.Perm.append_right _ ?_)
    simp only [places, hw, hh, List.map_append, List.map_cons, List.append_assoc, Hand.item]
    exact List.Perm.append_left _ (List.Perm.append_left _ List.perm_middle)
  | @discard a w hw =>
    refine h.trans ?_
    simp only [places, hw, List.append_assoc]
    refine List.Perm.append_left _ (List.Perm.append_left _ ?_)
    rw [← List.append_assoc]
    exact (List.perm_append_singleton a _).symm
  | fail hh =>
    refine h.trans ?_
    simp only [places, hh, List.map_append, List.map_cons, Hand.item]
    exact .refl _
  | make hh hb =>
    refine h.trans ?_
    simp only [places, hh, List.map_append, List.map_cons, Hand.item, hb]
    exact .refl _
  | putBack hh =>
    refine h.trans (List.Perm.append_right _ ?_)
    simp only [places, hh, List.map_append, List.map_cons, List.append_assoc, Hand.item, List.cons_append]
    exact List.Perm.append_left _ (List.Perm.append_left _ List.perm_middle.symm)
  | @lose a l₁ l₂ hh =>
    refine h.trans ?_
    simp only [places, hh, List.map_append, List.map_cons, List.append_assoc, Hand.item, List.cons_append]
    refine List.Perm.append_left _ (List.Perm.append_left _ ?_)
    refine (List.perm_append_singleton a _).symm.trans ?_
    simp only [List.append_assoc]
    exact .refl _
  | @deliver b l₁ l₂ hh =>
    refine h.trans (List.Perm.append_right _ ?_)
    simp only [places, hh, List.map_append, List.map_cons, List.map_nil, List.append_assoc, Hand.item, List.cons_append,
      List.nil_append]
    exact List.Perm.append_left _ List.perm_middle
  | close =>
    refine h.trans ?_
    simp only [places, List.append_assoc, List.nil_append]
    exact List.Perm.append_left _ (List.Perm.append_left _ List.perm_append_comm)

/-- Of hands that have one item at most, the one that has it is all of them. -/
theorem alone_of {x : Hand α β} {l₁ l₂ : List (Hand α β)} (h : L.hands.length ≤ 1) (hh : L.hands = l₁ ++ x :: l₂) : l₁ = [] ∧ l₂ = [] := by
  rw [hh, List.length_append, List.length_cons] at h
  exact ⟨List.eq_nil_of_length_eq_zero (by omega), List.eq_nil_of_length_eq_zero (by omega)⟩

/-- The line stays in order when no second hand takes an item. -/
theorem Ordered.step (h : L.Ordered origin) (hm : Move origin L L') (hlone : L'.hands.length ≤ 1) : L'.Ordered origin := by
  obtain ⟨halone, hitems, hresults⟩ := h
  cases hm with
  | stay => exact ⟨halone, hitems, hresults⟩
  | give a =>
    refine ⟨halone, ?_, hresults⟩
    simp only [places, ← List.append_assoc] at hitems ⊢
    exact hitems.append_right [a]
  | refuse a => exact ⟨halone, hitems.trans (List.sublist_append_left ..), hresults⟩
  | @take a w l₁ l₂ hw hh =>
    rw [List.length_append, List.length_cons] at hlone
    obtain rfl : l₁ = [] := List.eq_nil_of_length_eq_zero (by omega)
    obtain rfl : l₂ = [] := List.eq_nil_of_length_eq_zero (by omega)
    refine ⟨Nat.le_refl 1, ?_, ?_⟩
    · simp only [places, hw, hh, List.append_assoc, List.map_nil, List.nil_append] at hitems
      simp only [places, List.append_assoc]
      exact hitems
    · rw [hresults, hh]
      rfl
  | discard hw =>
    refine ⟨halone, List.Sublist.trans ?_ hitems, hresults⟩
    simp only [places, hw]
    exact List.Sublist.append_left (List.sublist_cons_self ..) _
  | fail hh =>
    obtain ⟨rfl, rfl⟩ := alone_of halone hh
    refine ⟨Nat.le_refl 1, ?_, ?_⟩
    · simp only [places, hh] at hitems
      exact hitems
    · rw [hresults, hh]
      rfl
  | make hh hb =>
    obtain ⟨rfl, rfl⟩ := alone_of halone hh
    subst hb
    refine ⟨Nat.le_refl 1, ?_, ?_⟩
    · simp only [places, hh] at hitems
      exact hitems
    · simp only [hresults, hh]
      simp [Hand.result?]
  | putBack hh =>
    obtain ⟨rfl, rfl⟩ := alone_of halone hh
    refine ⟨Nat.zero_le 1, ?_, ?_⟩
    · simp only [places, hh, List.append_assoc] at hitems
      simp only [places, List.append_assoc]
      exact hitems
    · rw [hresults, hh]
      rfl
  | lose hh =>
    obtain ⟨rfl, rfl⟩ := alone_of halone hh
    refine ⟨Nat.zero_le 1, List.Sublist.trans ?_ hitems, ?_⟩
    · simp only [places, hh, List.append_assoc]
      exact List.Sublist.append_left (List.sublist_append_right ..) _
    · rw [hresults, hh]
      rfl
  | deliver hh =>
    obtain ⟨rfl, rfl⟩ := alone_of halone hh
    refine ⟨Nat.zero_le 1, ?_, ?_⟩
    · simp only [places, hh] at hitems
      simp only [places, List.map_append]
      simpa [Hand.item] using hitems
    · simp only [hresults, hh]
      simp [Hand.result?]
  | close =>
    refine ⟨halone, List.Sublist.trans ?_ hitems, hresults⟩
    simp only [places, List.append_nil]
    exact List.sublist_append_left ..

/-- Where nothing was dropped, all items that were given are in their order. -/
theorem Ordered.all (h : L.Ordered origin) (hc : L.Conserved origin) (hnone : L.dropped = []) : L.places origin = L.given := by
  rw [Conserved, hnone, List.append_nil] at hc
  exact h.items.eq_of_length hc.length_eq.symm

/-- The results that were made are of the first items that were given. -/
theorem Ordered.made (h : L.Ordered origin) (hc : L.Conserved origin) (hnone : L.dropped = []) : L.results.map origin <+: L.given := by
  rw [← h.all hc hnone, h.results, places, List.map_append, List.append_assoc]
  refine (List.prefix_append_right_inj _).2 ?_
  have halone := h.alone
  cases hh : L.hands with
  | nil => exact List.nil_prefix
  | cons x l =>
    rw [hh, List.length_cons] at halone
    obtain rfl : l = [] := List.eq_nil_of_length_eq_zero (by omega)
    cases x with
    | taken a => exact List.nil_prefix
    | failed a => exact List.nil_prefix
    | made b => exact List.prefix_append ..

end Line

end HandOver
