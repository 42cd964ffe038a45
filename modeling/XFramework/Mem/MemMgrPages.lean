/-
Pages of cells and their flags.

What the flags of the pages say about the runs in use, and that this stays so
when a run is taken or given back, when a page is added, and when the user
writes into a run. The list of nodes does not matter here.
-/
import XFramework.Mem.MemMgr

open Bytes

namespace MemMgr

/-- The cells of a page. -/
def perPage (u : Nat) : Nat := cells u SYSMEMPAGE

/-- The address of a flag. -/
def flagAt (p : Int) (i : Nat) : Int := p + (sizeofEleNode + i : Nat)

/-- The address of a cell. -/
def cellAt (u : Nat) (p : Int) (i : Nat) : Int := p + (SYSMEMPAGE - perPage u * u + i * u : Nat)

/-- The address is in a run in use. -/
def Taken (u : Nat) (live : List (Int × Nat)) (a : Int) : Prop := ∃ r ∈ live, (span u r).Has a

structure Inv (u : Nat) (pages : List Int) (m : Mem) (live : List (Int × Nat)) : Prop where
  apart : pages.Pairwise fun p q => Span.Apart (p, (SYSMEMPAGE : Nat)) (q, (SYSMEMPAGE : Nat))
  header : ∀ p ∈ pages, ∀ a, p ≤ a → a < p + sizeofEleNode → m a = 0
  nul : ∀ p ∈ pages, m (flagAt p (perPage u)) = 0
  flags : ∀ p ∈ pages, ∀ i < perPage u,
    m (flagAt p i) = one ∧ Taken u live (cellAt u p i) ∨ m (flagAt p i) = zero ∧ ¬Taken u live (cellAt u p i)
  placed : ∀ r ∈ live, 0 < r.2 ∧ ∃ p ∈ pages, ∃ i, i + r.2 ≤ perPage u ∧ r.1 = cellAt u p i
  disjoint : live.Pairwise fun r s => Span.Apart (span u r) (span u s)

variable {u i j k n : Nat} {pages : List Int} {m m' : Mem} {live : List (Int × Nat)} {p q a : Int} {r : Int × Nat}

/-! ## The layout of a page -/

/-- The flags with their NUL and the cells fit behind the node. -/
theorem layout : perPage u * u + perPage u ≤ SYSMEMPAGE - sizeofEleNode - 1 := by
  have h := Nat.div_mul_le_self (SYSMEMPAGE - sizeofEleNode - 1) (u + 1)
  rwa [Nat.mul_succ] at h

/-- A run lies between the NUL and the end of the page. -/
theorem run_in_page (hin : i + n ≤ perPage u) :
    flagAt p (perPage u) < cellAt u p i ∧ cellAt u p i + (n * u : Nat) ≤ p + SYSMEMPAGE := by
  have hlayout := layout (u := u)
  have hmul := Nat.mul_le_mul_right u hin
  rw [Nat.add_mul] at hmul
  simp only [flagAt, cellAt, SYSMEMPAGE, sizeofEleNode] at hlayout ⊢
  omega

theorem has_in_page (hin : i + n ≤ perPage u) (ha : (span u (cellAt u p i, n)).Has a) :
    flagAt p (perPage u) < a ∧ a < p + SYSMEMPAGE := by
  have h := run_in_page (p := p) hin
  have h₁ := ha.1
  have h₂ := ha.2
  simp only [span] at h₁ h₂
  omega

/-- The flags lie behind the node. -/
theorem flag_in_page (hi : i ≤ perPage u) :
    p + sizeofEleNode ≤ flagAt p i ∧ flagAt p i ≤ flagAt p (perPage u) ∧ flagAt p (perPage u) < p + SYSMEMPAGE := by
  have hlayout := layout (u := u)
  simp only [flagAt, SYSMEMPAGE, sizeofEleNode] at hlayout ⊢
  omega

/-- A run has the start of a cell of its page exactly when it has the cell. -/
theorem has_cell (hu : 0 < u) : (span u (cellAt u p i, n)).Has (cellAt u p j) ↔ i ≤ j ∧ j < i + n := by
  have hle : i ≤ j ↔ i * u ≤ j * u := (Nat.mul_le_mul_right_iff hu).symm
  have hlt : j < i + n ↔ j * u < (i + n) * u := (Nat.mul_lt_mul_right hu).symm
  rw [Nat.add_mul] at hlt
  rw [hle, hlt]
  simp only [Span.Has, span, cellAt]
  omega

/-- Runs of a page that have no cell in common. -/
theorem apart_runs (h : i + n ≤ j ∨ j + k ≤ i) : Span.Apart (span u (cellAt u p i, n)) (span u (cellAt u p j, k)) := by
  simp only [Span.Apart, span, cellAt]
  rcases h with h | h
  · have hmul := Nat.mul_le_mul_right u h
    rw [Nat.add_mul] at hmul
    omega
  · have hmul := Nat.mul_le_mul_right u h
    rw [Nat.add_mul] at hmul
    omega

theorem Inv.pages_apart (h : Inv u pages m live) (hp : p ∈ pages) (hq : q ∈ pages) (hne : q ≠ p) :
    p + SYSMEMPAGE ≤ q ∨ q + SYSMEMPAGE ≤ p := by
  have : Std.Symm fun p q : Int => Span.Apart (p, (SYSMEMPAGE : Nat)) (q, (SYSMEMPAGE : Nat)) := ⟨fun _ _ => Or.symm⟩
  exact h.apart.forall hp hq (Ne.symm hne)

/-- A run has the start of a cell exactly when it has the cell. -/
theorem Inv.has_cell (h : Inv u pages m live) (hu : 0 < u) (hp : p ∈ pages) (hq : q ∈ pages) (hin : i + n ≤ perPage u)
    (hj : j < perPage u) : (span u (cellAt u p i, n)).Has (cellAt u q j) ↔ q = p ∧ i ≤ j ∧ j < i + n := by
  by_cases hqp : q = p
  · rw [hqp, MemMgr.has_cell hu]
    exact (and_iff_right rfl).symm
  · refine iff_of_false (fun ha => ?_) fun hmine => hqp hmine.1
    have h₁ := has_in_page hin ha
    have h₂ := has_in_page (p := q) (n := 1) hj ((MemMgr.has_cell hu).2 ⟨Nat.le_refl j, Nat.lt_succ_self j⟩)
    have h₃ := h.pages_apart hp hq hqp
    have h₄ := flag_in_page (p := p) (Nat.le_refl (perPage u))
    have h₅ := flag_in_page (p := q) (Nat.le_refl (perPage u))
    omega

/-- The flags of a run in use are '1'. -/
theorem Inv.flag_of_mem (h : Inv u pages m live) (hu : 0 < u) (hp : p ∈ pages) (hr : (cellAt u p i, n) ∈ live)
    (hij : i ≤ j) (hj : j < i + n) (hx : j < perPage u) : m (flagAt p j) = one :=
  ((h.flags p hp j hx).resolve_right fun hfree => hfree.2 ⟨_, hr, (MemMgr.has_cell hu).2 ⟨hij, hj⟩⟩).1

/-! ## What a step writes -/

/-- Nothing is written to the nodes and the flags. -/
theorem Inv.keep (h : Inv u pages m live) (hm : ∀ q ∈ pages, ∀ a, q ≤ a → a ≤ flagAt q (perPage u) → m' a = m a) :
    Inv u pages m' live := by
  constructor
  case apart => exact h.apart
  case header =>
    intro q hq a h₁ h₂
    have hnul := flag_in_page (p := q) (Nat.le_refl (perPage u))
    rw [hm q hq a h₁ (by omega), h.header q hq a h₁ h₂]
  case nul =>
    intro q hq
    have hnul := flag_in_page (p := q) (Nat.le_refl (perPage u))
    rw [hm q hq _ (by simp only [sizeofEleNode] at hnul; omega) (Int.le_refl _), h.nul q hq]
  case flags =>
    intro q hq j hj
    have hflag := flag_in_page (p := q) (Nat.le_of_lt hj)
    rw [hm q hq _ (by simp only [sizeofEleNode] at hflag; omega) hflag.2.1]
    exact h.flags q hq j hj
  case placed => exact h.placed
  case disjoint => exact h.disjoint

/-- An address of a run is not one of a node or a flag. -/
theorem Inv.not_has (h : Inv u pages m live) (hp : p ∈ pages) (hq : q ∈ pages) (hin : i + n ≤ perPage u) (h₁ : q ≤ a)
    (h₂ : a ≤ flagAt q (perPage u)) : ¬(span u (cellAt u p i, n)).Has a := by
  intro ha
  have hhas := has_in_page hin ha
  have hnul := flag_in_page (p := p) (Nat.le_refl (perPage u))
  have hnul' := flag_in_page (p := q) (Nat.le_refl (perPage u))
  by_cases hqp : q = p
  · rw [hqp] at h₂
    omega
  · have := h.pages_apart hp hq hqp
    simp only [SYSMEMPAGE, sizeofEleNode] at *
    omega

/-- The flags of a run are set. -/
theorem Inv.set (h : Inv u pages m live) (hp : p ∈ pages) (hin : i + n ≤ perPage u) {b : UInt8}
    (hm : ∀ a, m' a = if flagAt p i ≤ a ∧ a < flagAt p i + n then b else m a) :
    (∀ q ∈ pages, ∀ a, q ≤ a → a < q + sizeofEleNode → m' a = 0) ∧ (∀ q ∈ pages, m' (flagAt q (perPage u)) = 0) ∧
      ∀ q ∈ pages, ∀ j < perPage u, m' (flagAt q j) = if q = p ∧ i ≤ j ∧ j < i + n then b else m (flagAt q j) := by
  have hspan : flagAt p i + n = flagAt p (i + n) := by simp only [flagAt]; omega
  have hflag := flag_in_page (p := p) (u := u) (i := i) (by omega)
  have hflag' := flag_in_page (p := p) hin
  have hother : ∀ q ∈ pages, q ≠ p → ∀ a, q ≤ a → a < q + SYSMEMPAGE → ¬(flagAt p i ≤ a ∧ a < flagAt p i + n) := by
    intro q hq hqp a h₁ h₂
    have := h.pages_apart hp hq hqp
    simp only [SYSMEMPAGE, sizeofEleNode] at *
    omega
  refine ⟨fun q hq a h₁ h₂ => ?_, fun q hq => ?_, fun q hq j hj => ?_⟩
  · rw [hm, if_neg, h.header q hq a h₁ h₂]
    by_cases hqp : q = p
    · omega
    · exact hother q hq hqp a h₁ (by simp only [SYSMEMPAGE, sizeofEleNode] at *; omega)
  · have hnul := flag_in_page (p := q) (Nat.le_refl (perPage u))
    rw [hm, if_neg, h.nul q hq]
    by_cases hqp : q = p
    · rw [hqp]
      omega
    · exact hother q hq hqp _ (by simp only [sizeofEleNode] at hnul; omega) hnul.2.2
  · have hat := flag_in_page (p := q) (Nat.le_of_lt hj)
    rw [hm]
    refine if_congr ?_ rfl rfl
    by_cases hqp : q = p
    · rw [hqp, and_iff_right rfl]
      simp only [flagAt]
      omega
    · refine iff_of_false ?_ fun hmine => hqp hmine.1
      exact hother q hq hqp _ (by simp only [sizeofEleNode] at hat; omega) (by omega)

/-- The user writes into a run. -/
theorem Inv.write (h : Inv u pages m live) (ha : Taken u live a) (b : UInt8) : Inv u pages (Bytes.write m a [b]) live := by
  obtain ⟨⟨c, n⟩, hr, ha⟩ := ha
  obtain ⟨-, p, hp, i, hin, rfl⟩ := h.placed _ hr
  refine h.keep fun q hq x h₁ h₂ => ?_
  rw [write_one, if_neg]
  intro hxa
  rw [hxa] at h₁ h₂
  exact h.not_has hp hq hin h₁ h₂ ha

/-! ## Taking a run, and giving it back -/

theorem taken_cons : Taken u (r :: live) a ↔ (span u r).Has a ∨ Taken u live a := by
  simp only [Taken, List.mem_cons, exists_eq_or_imp]

theorem taken_erase (hr : r ∈ live) (a : Int) : Taken u live a ↔ (span u r).Has a ∨ Taken u (live.erase r) a := by
  rw [← taken_cons]
  simp only [Taken, (List.perm_cons_erase hr).mem_iff]

theorem Inv.take (h : Inv u pages m live) (hu : 0 < u) (hp : p ∈ pages) (hn : 0 < n) (hin : i + n ≤ perPage u)
    (hfree : ∀ j, i ≤ j → j < i + n → m (flagAt p j) = zero)
    (hm : ∀ a, m' a = if flagAt p i ≤ a ∧ a < flagAt p i + n then one else m a) :
    Inv u pages m' ((cellAt u p i, n) :: live) := by
  obtain ⟨hheader, hnul, hset⟩ := h.set hp hin hm
  constructor
  case apart => exact h.apart
  case header => exact hheader
  case nul => exact hnul
  case flags =>
    intro q hq j hj
    rw [taken_cons, h.has_cell hu hp hq hin hj, hset q hq j hj]
    by_cases hmine : q = p ∧ i ≤ j ∧ j < i + n
    · rw [if_pos hmine]
      exact .inl ⟨rfl, .inl hmine⟩
    · rw [if_neg hmine, or_iff_right hmine]
      exact h.flags q hq j hj
  case placed =>
    intro r hr
    rcases List.mem_cons.1 hr with rfl | hr
    · exact ⟨hn, p, hp, i, hin, rfl⟩
    · exact h.placed r hr
  case disjoint =>
    refine List.pairwise_cons.2 ⟨fun ⟨b, k⟩ hr => ?_, h.disjoint⟩
    obtain ⟨hk, q, hq, j, hjk, rfl⟩ := h.placed _ hr
    change 0 < k at hk
    change j + k ≤ perPage u at hjk
    by_cases hqp : q = p
    · rw [hqp] at hr ⊢
      refine apart_runs ?_
      -- a cell of both would be free and taken
      by_contra hboth
      have hone := h.flag_of_mem hu hp hr (j := max i j) (by omega) (by omega) (by omega)
      rw [hfree (max i j) (by omega) (by omega)] at hone
      exact absurd hone (by decide)
    · have h₁ := run_in_page (p := p) hin
      have h₂ := run_in_page (p := q) hjk
      have h₃ := h.pages_apart hp hq hqp
      have h₄ := flag_in_page (p := p) (Nat.le_refl (perPage u))
      have h₅ := flag_in_page (p := q) (Nat.le_refl (perPage u))
      simp only [Span.Apart, span]
      omega

theorem Inv.release (h : Inv u pages m live) (hu : 0 < u) (hp : p ∈ pages) (hin : i + n ≤ perPage u)
    (hr : (cellAt u p i, n) ∈ live) (hm : ∀ a, m' a = if flagAt p i ≤ a ∧ a < flagAt p i + n then zero else m a) :
    Inv u pages m' (live.erase (cellAt u p i, n)) := by
  obtain ⟨hheader, hnul, hset⟩ := h.set hp hin hm
  have hpair := ((List.perm_cons_erase hr).pairwise_iff fun {_ _} => Or.symm).1 h.disjoint
  obtain ⟨hother, hrest⟩ := List.pairwise_cons.1 hpair
  constructor
  case apart => exact h.apart
  case header => exact hheader
  case nul => exact hnul
  case flags =>
    intro q hq j hj
    have hflags := h.flags q hq j hj
    have hhas := h.has_cell hu hp hq hin hj
    rw [hset q hq j hj]
    by_cases hmine : q = p ∧ i ≤ j ∧ j < i + n
    · rw [if_pos hmine]
      refine .inr ⟨rfl, fun ⟨s, hs, ha⟩ => ?_⟩
      exact Span.Apart.not_has (hother s hs) (hhas.2 hmine) ha
    · rw [if_neg hmine]
      rwa [taken_erase hr, hhas, or_iff_right hmine] at hflags
  case placed => exact fun s hs => h.placed s (List.mem_of_mem_erase hs)
  case disjoint => exact hrest

/-- A page comes that is apart from the others, with its flags all '0'. -/
theorem Inv.page (h : Inv u pages m live) (hu : 0 < u)
    (hfresh : ∀ q ∈ pages, Span.Apart (p, (SYSMEMPAGE : Nat)) (q, (SYSMEMPAGE : Nat)))
    (hm : ∀ a, m' a = if flagAt p 0 ≤ a ∧ a < flagAt p (perPage u) then zero
      else if p ≤ a ∧ a < p + SYSMEMPAGE then 0 else m a) : Inv u (pages ++ [p]) m' live := by
  have hlen := flag_in_page (p := p) (Nat.le_refl (perPage u))
  have hlen₀ := flag_in_page (p := p) (Nat.zero_le (perPage u))
  have hout : ∀ q ∈ pages, ∀ a, q ≤ a → a ≤ flagAt q (perPage u) → m' a = m a := by
    intro q hq a h₁ h₂
    have hnul := flag_in_page (p := q) (Nat.le_refl (perPage u))
    have hapart : p + SYSMEMPAGE ≤ q ∨ q + SYSMEMPAGE ≤ p := hfresh q hq
    rw [hm, if_neg (by simp only [SYSMEMPAGE, sizeofEleNode] at *; omega),
      if_neg (by simp only [SYSMEMPAGE, sizeofEleNode] at *; omega)]
  have hold := h.keep hout
  have hmem : ∀ q, q ∈ pages ++ [p] → q ∈ pages ∨ q = p := fun q hq => by
    rwa [List.mem_append, List.mem_singleton] at hq
  constructor
  case apart =>
    refine List.pairwise_append.2 ⟨h.apart, List.pairwise_singleton .., fun q hq r hr => ?_⟩
    rw [List.mem_singleton.1 hr]
    exact Or.symm (hfresh q hq)
  case header =>
    intro q hq a h₁ h₂
    rcases hmem q hq with hq | rfl
    · exact hold.header q hq a h₁ h₂
    · rw [hm, if_neg (by omega), if_pos (by omega)]
  case nul =>
    intro q hq
    rcases hmem q hq with hq | rfl
    · exact hold.nul q hq
    · rw [hm, if_neg (by omega), if_pos (by simp only [sizeofEleNode] at hlen; omega)]
  case flags =>
    intro q hq j hj
    rcases hmem q hq with hq | rfl
    · exact hold.flags q hq j hj
    · rw [hm, if_pos (by simp only [flagAt]; omega)]
      refine .inr ⟨rfl, fun ⟨s, hs, ha⟩ => ?_⟩
      -- the runs in use are in other pages
      obtain ⟨b, n⟩ := s
      obtain ⟨-, r, hr, i, hin, rfl⟩ := h.placed _ hs
      have h₁ := has_in_page hin ha
      have h₂ := has_in_page (p := q) (n := 1) hj ((MemMgr.has_cell hu).2 ⟨Nat.le_refl j, Nat.lt_succ_self j⟩)
      have h₃ : q + SYSMEMPAGE ≤ r ∨ r + SYSMEMPAGE ≤ q := hfresh r hr
      have h₄ := flag_in_page (p := r) (Nat.le_refl (perPage u))
      omega
  case placed =>
    intro s hs
    obtain ⟨hn, q, hq, i, hin, heq⟩ := h.placed s hs
    exact ⟨hn, q, List.mem_append_left _ hq, i, hin, heq⟩
  case disjoint => exact h.disjoint

end MemMgr
