/-
Nodes with a list of successors each: what is reachable from a root after one
is appended to a list, and after a node without successors is taken out of one.
-/
import Mathlib.Data.Set.Card
import Mathlib.Logic.Relation

namespace Digraph

open Relation

variable {N : Type*} {next : N → List N} {root p n m x : N}

def Reach (next : N → List N) (root n : N) : Prop := ReflTransGen (fun p c => c ∈ next p) root n

theorem Reach.mono {next' : N → List N} (h : Reach next root n) (hsub : ∀ q, ∀ c ∈ next q, c ∈ next' q) : Reach next' root n :=
  ReflTransGen.mono (show (fun p c => c ∈ next p) ≤ fun p c => c ∈ next' p from fun q c hc => hsub q c hc) root n h

/-- What is below a node whose successors are reachable is reachable, but for the node itself. -/
theorem reach_below (h : ∀ c ∈ next x, Reach next root c ∨ c = x) (hn : Reach next x n) : Reach next root n ∨ n = x := by
  induction hn with
  | refl => exact .inr rfl
  | tail _ hedge ih =>
    rcases ih with ih | rfl
    · exact .inl (ih.tail hedge)
    · exact h _ hedge

variable [DecidableEq N]

/-- `x` is appended to the list of `p`. -/
def add (next : N → List N) (p x : N) : N → List N := fun q => if q = p then next p ++ [x] else next q

/-- All `x` are taken out of the list of `p`. -/
def cut (next : N → List N) (p x : N) : N → List N := fun q => if q = p then (next p).filter (· ≠ x) else next q

theorem mem_add {q c : N} : c ∈ add next p x q ↔ c ∈ next q ∨ q = p ∧ c = x := by
  unfold add
  split
  next hq =>
    subst hq
    simp
  next hq => simp [hq]

theorem mem_cut {q c : N} : c ∈ cut next p x q ↔ c ∈ next q ∧ (q ≠ p ∨ c ≠ x) := by
  unfold cut
  split
  next hq =>
    subst hq
    simp
  next hq => simp [hq]

/-! ## An edge more -/

theorem reach_add_iff (hp : Reach next root p) : Reach (add next p x) root n ↔ Reach next root n ∨ Reach next x n := by
  have hsub : ∀ q, ∀ c ∈ next q, c ∈ add next p x q := fun q c hc => mem_add.2 (.inl hc)
  refine ⟨fun h => ?_, ?_⟩
  · induction h with
    | refl => exact .inl .refl
    | tail _ hedge ih =>
      rcases mem_add.1 hedge with hold | ⟨-, rfl⟩
      · exact ih.imp (fun h => h.tail hold) fun h => h.tail hold
      · exact .inr .refl
  · rintro (h | h)
    · exact h.mono hsub
    · exact ((hp.mono hsub).tail (mem_add.2 (.inr ⟨rfl, rfl⟩))).trans (h.mono hsub)

/-- An edge makes one more node reachable if it leads to a new one, whose successors are not new. -/
theorem ncard_add_iff [Finite N] (hp : Reach next root p) :
    {n | Reach (add next p x) root n}.ncard = {n | Reach next root n}.ncard + 1 ↔
      ¬Reach next root x ∧ ∀ c ∈ next x, Reach next root c ∨ c = x := by
  have hunion : {n | Reach (add next p x) root n} = {n | Reach next x n} ∪ {n | Reach next root n} := by
    ext n
    exact (reach_add_iff hp).trans or_comm
  have hcard := Set.ncard_sdiff_add_ncard {n | Reach next x n} {n | Reach next root n}
  rw [hunion, ← hcard, Nat.add_comm _ 1, Nat.add_right_cancel_iff, Set.ncard_eq_one]
  refine ⟨?_, ?_⟩
  · rintro ⟨a, ha⟩
    have hiff : ∀ n, Reach next x n ∧ ¬Reach next root n ↔ n = a := fun n => Set.ext_iff.1 ha n
    have hx : ¬Reach next root x := by
      intro hx
      obtain ⟨hbelow, hnot⟩ := (hiff a).2 rfl
      exact hnot (ReflTransGen.trans hx hbelow)
    have hxa : x = a := (hiff x).1 ⟨.refl, hx⟩
    refine ⟨hx, fun c hc => ?_⟩
    by_cases hroot : Reach next root c
    · exact .inl hroot
    · exact .inr (((hiff c).1 ⟨.single hc, hroot⟩).trans hxa.symm)
  · rintro ⟨hx, hbelow⟩
    refine ⟨x, Set.ext fun n => ⟨fun ⟨h, hnot⟩ => (reach_below hbelow h).resolve_left hnot, ?_⟩⟩
    rintro rfl
    exact ⟨.refl, hx⟩

/-! ## A node less -/

/-- Without a node that has no successors the others are still reached. -/
theorem reach_cut (hend : next x = []) (h : Reach next root m) (hm : m ≠ x) : Reach (cut next p x) root m := by
  induction h with
  | refl => exact .refl
  | @tail q c _ hedge ih =>
    have hq : q ≠ x := by
      rintro rfl
      rw [hend] at hedge
      cases hedge
    exact (ih hq).tail (mem_cut.2 ⟨hedge, .inr hm⟩)

theorem reach_of_cut (h : Reach (cut next p x) root m) : Reach next root m := h.mono fun _ _ hc => (mem_cut.1 hc).1

/-- The node is gone if it was in no other list. -/
theorem reach_cut_iff (hend : next x = []) (hroot : x ≠ root) (honly : ∀ q, Reach next root q → x ∈ next q → q = p) :
    Reach (cut next p x) root m ↔ Reach next root m ∧ m ≠ x := by
  refine ⟨fun h => ⟨reach_of_cut h, ?_⟩, fun ⟨h, hm⟩ => reach_cut hend h hm⟩
  rintro rfl
  rcases ReflTransGen.cases_tail h with heq | ⟨q, hq, hedge⟩
  · exact hroot heq
  · obtain ⟨hmem, hne⟩ := mem_cut.1 hedge
    have hqp := honly q (reach_of_cut hq) hmem
    exact hne.elim (fun h => h hqp) fun h => h rfl

/-- Taking a node without successors out of a list makes one node less reachable if no other list has it. -/
theorem ncard_cut_iff [Finite N] (hend : next x = []) (hroot : x ≠ root) (hx : Reach next root x) :
    {n | Reach (cut next p x) root n}.ncard + 1 = {n | Reach next root n}.ncard ↔ ∀ q, Reach next root q → x ∈ next q → q = p := by
  refine ⟨fun h => ?_, fun honly => ?_⟩
  · by_contra hother
    push Not at hother
    obtain ⟨q, hq, hmem, hqp⟩ := hother
    have hne : q ≠ x := by
      rintro rfl
      rw [hend] at hmem
      cases hmem
    have hkept : Reach (cut next p x) root x := (reach_cut hend hq hne).tail (mem_cut.2 ⟨hmem, .inl hqp⟩)
    have hsame : {n | Reach (cut next p x) root n} = {n | Reach next root n} := by
      ext n
      refine ⟨reach_of_cut, fun hn => ?_⟩
      by_cases hnx : n = x
      · exact hnx ▸ hkept
      · exact reach_cut hend hn hnx
    rw [hsame] at h
    omega
  · have hdiff : {n | Reach (cut next p x) root n} = {n | Reach next root n} \ {x} :=
      Set.ext fun n => reach_cut_iff hend hroot honly
    rw [hdiff]
    exact Set.ncard_sdiff_singleton_add_one hx

end Digraph
