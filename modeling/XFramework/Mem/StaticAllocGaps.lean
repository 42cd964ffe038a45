/-
The gaps between blocks, as `LoadBlockArea` looks for them.

The loop adds the space before each block but the first and the last, and the
space behind the last; the space before the first is added apart. So one gap is
passed over (`lostGap`): the one before the last block, or the one behind the
block when there is only one. `covers_foundGaps` says that nothing else is.
-/
import XFramework.Mem.StaticAllocFacts

open Span

namespace XStaticAlloc

/-- The gaps `loadGaps` finds behind the block `prev`. -/
def foundGaps (pEnd : Int) (prev : Span) : List Span → List Span
  | [] => []
  | [it] => if pEnd - (it.1 + it.2) ≠ 0 then [(it.1 + it.2, pEnd - (it.1 + it.2))] else []
  | it :: it' :: rest =>
    (if it.1 - (prev.1 + prev.2) ≠ 0 then [(prev.1 + prev.2, it.1 - (prev.1 + prev.2))] else []) ++
      foundGaps pEnd it (it' :: rest)

/-- The gap it passes over: before the last block, or behind `prev` when there is no other. -/
def lostGap (pEnd : Int) (prev : Span) : List Span → Span
  | [] => (prev.1 + prev.2, pEnd - (prev.1 + prev.2))
  | [it] => (prev.1 + prev.2, it.1 - (prev.1 + prev.2))
  | it :: it' :: rest => lostGap pEnd it (it' :: rest)

/-- The ranges `LoadBlockArea` adds for blocks in the order of their starts. -/
def foundRanges (pStart pEnd : Int) : List Span → List Span
  | [] => [(pStart, pEnd - pStart)]
  | first :: rest => (if pStart < first.1 then [(pStart, first.1 - pStart)] else []) ++ foundGaps pEnd first rest

theorem loadGaps_eq {pEnd : Int} : ∀ {l : List Span} {s : StdMap Int Int} {prev : Span},
    loadGaps pEnd s prev l = s.insertAll (foundGaps pEnd prev l)
  | [], _, _ => rfl
  | [it], s, prev => by
    simp only [loadGaps, foundGaps]
    split <;> rfl
  | it :: it' :: rest, s, prev => by
    simp only [loadGaps, foundGaps]
    rw [loadGaps_eq, StdMap.insertAll_append]
    split <;> rfl

theorem loadRanges_eq {pStart pEnd : Int} {s : StdMap Int Int} {l : List Span} :
    loadRanges pStart pEnd s l = s.insertAll (foundRanges pStart pEnd l) := by
  cases l with
  | nil => rfl
  | cons first rest =>
    simp only [loadRanges, foundRanges]
    rw [loadGaps_eq, StdMap.insertAll_append]
    split <;> rfl

/-- Blocks in the order of their starts, not overlapping, up to `pEnd`. -/
structure Blocks (pEnd : Int) (l : List Span) : Prop where
  ordered : Ordered l
  pos : ∀ b ∈ l, 0 < b.2
  le : ∀ b ∈ l, b.1 + b.2 ≤ pEnd

section Gaps

variable {pEnd x : Int} {prev it : Span} {l : List Span}

theorem Blocks.tail (h : Blocks pEnd (prev :: l)) : Blocks pEnd l :=
  ⟨(List.pairwise_cons.1 h.ordered).2, fun b hb => h.pos b (List.mem_cons_of_mem _ hb),
    fun b hb => h.le b (List.mem_cons_of_mem _ hb)⟩

theorem Blocks.le_start (h : Blocks pEnd (prev :: l)) : ∀ b ∈ l, prev.1 + prev.2 ≤ b.1 :=
  (List.pairwise_cons.1 h.ordered).1

/-- What the blocks behind the first one cover is behind it. -/
theorem Blocks.covered_le (h : Blocks pEnd (prev :: l)) (hx : Covers l x) : prev.1 + prev.2 ≤ x := by
  obtain ⟨b, hb, hx⟩ := hx
  have := h.le_start b hb
  unfold Has at hx
  omega

/-- A gap that is listed unless it is empty. -/
theorem covers_gap {a b : Int} : Covers (if b - a ≠ 0 then [(a, b - a)] else []) x ↔ a ≤ x ∧ x < b ∧ b - a ≠ 0 := by
  split
  · rw [covers_cons, or_iff_left covers_nil]
    unfold Has
    simp only
    omega
  · refine iff_of_false covers_nil ?_
    omega

theorem foundGaps_in : ∀ {l : List Span} {prev : Span}, Blocks pEnd (prev :: l) →
    ∀ r ∈ foundGaps pEnd prev l, 0 < r.2 ∧ prev.1 + prev.2 ≤ r.1 ∧ r.1 + r.2 ≤ pEnd
  | [], _, _ => by simp [foundGaps]
  | [it], prev, h => by
    have h₁ := h.le_start it List.mem_cons_self
    have h₂ := h.tail.le it List.mem_cons_self
    have h₃ := h.tail.pos it List.mem_cons_self
    intro r hr
    simp only [foundGaps] at hr
    split at hr
    · rw [List.mem_singleton] at hr
      subst hr
      simp only
      omega
    · simp at hr
  | it :: it' :: rest, prev, h => by
    have h₁ := h.le_start it List.mem_cons_self
    have h₂ := h.tail.le it List.mem_cons_self
    have h₃ := h.tail.pos it List.mem_cons_self
    intro r hr
    rw [foundGaps, List.mem_append] at hr
    rcases hr with hr | hr
    · split at hr
      · rw [List.mem_singleton] at hr
        subst hr
        simp only
        omega
      · simp at hr
    · have := foundGaps_in h.tail r hr
      omega

theorem gapped_foundGaps : ∀ {l : List Span} {prev : Span}, Blocks pEnd (prev :: l) → Gapped (foundGaps pEnd prev l)
  | [], _, _ => .nil
  | [it], prev, h => by
    simp only [foundGaps]
    split
    · exact List.pairwise_singleton _ _
    · exact .nil
  | it :: it' :: rest, prev, h => by
    have h₃ := h.tail.pos it List.mem_cons_self
    rw [foundGaps]
    refine List.pairwise_append.2 ⟨?_, gapped_foundGaps h.tail, fun r hr t ht => ?_⟩
    · split
      · exact List.pairwise_singleton _ _
      · exact .nil
    · have := foundGaps_in h.tail t ht
      split at hr
      · rw [List.mem_singleton] at hr
        subst hr
        simp only
        omega
      · simp at hr

theorem lostGap_in : ∀ {l : List Span} {prev : Span}, Blocks pEnd (prev :: l) →
    0 ≤ (lostGap pEnd prev l).2 ∧ ∀ x, Has (lostGap pEnd prev l) x → prev.1 + prev.2 ≤ x ∧ x < pEnd ∧ ¬ Covers l x
  | [], prev, h => by
    have := h.le prev List.mem_cons_self
    refine ⟨by simp only [lostGap]; omega, fun x hx => ?_⟩
    unfold Has lostGap at hx
    exact ⟨hx.1, by simp only at hx; omega, covers_nil⟩
  | [it], prev, h => by
    have h₁ := h.le_start it List.mem_cons_self
    have h₂ := h.tail.le it List.mem_cons_self
    have h₃ := h.tail.pos it List.mem_cons_self
    refine ⟨by simp only [lostGap]; omega, fun x hx => ?_⟩
    unfold Has lostGap at hx
    simp only at hx
    refine ⟨hx.1, by omega, ?_⟩
    rw [covers_cons]
    rintro (hit | hnil)
    · unfold Has at hit
      omega
    · exact covers_nil hnil
  | it :: it' :: rest, prev, h => by
    have h₁ := h.le_start it List.mem_cons_self
    have h₃ := h.tail.pos it List.mem_cons_self
    obtain ⟨hpos, hin⟩ := lostGap_in h.tail
    refine ⟨hpos, fun x hx => ?_⟩
    obtain ⟨hx₁, hx₂, hx₃⟩ := hin x hx
    refine ⟨by omega, hx₂, ?_⟩
    rw [covers_cons]
    rintro (hit | hrest)
    · unfold Has at hit
      omega
    · exact hx₃ hrest

/-- The gaps found are the space behind `prev` without the blocks and the gap lost. -/
theorem covers_foundGaps : ∀ {l : List Span} {prev : Span}, Blocks pEnd (prev :: l) →
    (Covers (foundGaps pEnd prev l) x ↔
      prev.1 + prev.2 ≤ x ∧ x < pEnd ∧ ¬ Covers l x ∧ ¬ Has (lostGap pEnd prev l) x)
  | [], prev, h => by
    refine iff_of_false covers_nil ?_
    rintro ⟨h₁, h₂, -, h₄⟩
    refine h₄ ⟨h₁, ?_⟩
    simp only [lostGap]
    omega
  | [it], prev, h => by
    have h₁ := h.le_start it List.mem_cons_self
    have h₂ := h.tail.le it List.mem_cons_self
    have h₃ := h.tail.pos it List.mem_cons_self
    have hfound : Covers (foundGaps pEnd prev [it]) x ↔ it.1 + it.2 ≤ x ∧ x < pEnd ∧ pEnd - (it.1 + it.2) ≠ 0 := covers_gap
    rw [hfound, covers_cons, or_iff_left covers_nil]
    simp only [lostGap, Has]
    omega
  | it :: it' :: rest, prev, h => by
    have h₁ := h.le_start it List.mem_cons_self
    have h₂ := h.tail.le it List.mem_cons_self
    have h₃ := h.tail.pos it List.mem_cons_self
    have hlost := (lostGap_in h.tail).2 x
    have hstep : Covers (foundGaps pEnd prev (it :: it' :: rest)) x ↔
        (prev.1 + prev.2 ≤ x ∧ x < it.1 ∧ it.1 - (prev.1 + prev.2) ≠ 0) ∨ Covers (foundGaps pEnd it (it' :: rest)) x := by
      rw [← covers_gap, foundGaps]
      simp only [Covers, List.mem_append, or_and_right, exists_or]
    have hcons : Covers (it :: it' :: rest) x ↔ Has it x ∨ Covers (it' :: rest) x := covers_cons
    rw [hstep, covers_foundGaps h.tail, hcons, lostGap]
    refine ⟨?_, ?_⟩
    · rintro (⟨hx₁, hx₂, -⟩ | ⟨hx₁, hx₂, hx₃, hx₄⟩)
      · refine ⟨hx₁, by omega, ?_, fun hl => ?_⟩
        · rintro (hit | hr)
          · unfold Has at hit
            omega
          · have := h.tail.covered_le hr
            omega
        · have := hlost hl
          omega
      · refine ⟨by omega, hx₂, ?_, hx₄⟩
        rintro (hit | hr)
        · unfold Has at hit
          omega
        · exact hx₃ hr
    · rintro ⟨hx₁, hx₂, hx₃, hx₄⟩
      by_cases hlt : x < it.1
      · exact .inl ⟨hx₁, hlt, by omega⟩
      · have hnot : ¬ Has it x := fun hit => hx₃ (.inl hit)
        unfold Has at hnot
        exact .inr ⟨by omega, hx₂, fun hr => hx₃ (.inr hr), hx₄⟩

/-- The ranges found, for at least one block. -/
theorem foundRanges_spec (pStart : Int) (h : Blocks pEnd (it :: l)) :
    Gapped (foundRanges pStart pEnd (it :: l)) ∧ (∀ r ∈ foundRanges pStart pEnd (it :: l), 0 < r.2) ∧
      ∀ x, Covers (foundRanges pStart pEnd (it :: l)) x ↔ (pStart ≤ x ∧ x < it.1) ∨
        (it.1 + it.2 ≤ x ∧ x < pEnd ∧ ¬ Covers l x ∧ ¬ Has (lostGap pEnd it l) x) := by
  have hpos := h.pos it List.mem_cons_self
  have hin := foundGaps_in h
  simp only [foundRanges]
  split
  · rename_i hlt
    refine ⟨List.pairwise_cons.2 ⟨fun r hr => ?_, gapped_foundGaps h⟩, fun r hr => ?_, fun x => ?_⟩
    · have := hin r hr
      simp only
      omega
    · rcases List.mem_cons.1 hr with rfl | hr
      · simp only
        omega
      · exact (hin r hr).1
    · show Covers (_ :: foundGaps pEnd it l) x ↔ _
      rw [covers_cons, covers_foundGaps h]
      refine or_congr_left ?_
      unfold Has
      simp only
      omega
  · rename_i hle
    refine ⟨gapped_foundGaps h, fun r hr => (hin r hr).1, fun x => ?_⟩
    rw [List.nil_append, covers_foundGaps h]
    exact (or_iff_right (by omega)).symm

/-- What the loop leaves in the map, for at least one block. -/
theorem loadRanges_spec (pStart : Int) (h : Blocks pEnd (it :: l)) :
    Gapped (loadRanges pStart pEnd .empty (it :: l)).entries ∧
      (∀ r ∈ loadRanges pStart pEnd .empty (it :: l), 0 < r.2) ∧
      ∀ x, Covers (loadRanges pStart pEnd .empty (it :: l)).entries x ↔ (pStart ≤ x ∧ x < it.1) ∨
        (it.1 + it.2 ≤ x ∧ x < pEnd ∧ ¬ Covers l x ∧ ¬ Has (lostGap pEnd it l) x) := by
  obtain ⟨hg, hpos, hc⟩ := foundRanges_spec pStart h
  have hmem : ∀ r, r ∈ loadRanges pStart pEnd .empty (it :: l) ↔ r ∈ foundRanges pStart pEnd (it :: l) := fun r => by
    rw [loadRanges_eq, StdMap.mem_insertAll (hg.nodup_starts hpos) (by simp)]
    simp
  refine ⟨?_, fun r hr => hpos r ((hmem r).1 hr), fun x => ?_⟩
  · refine StdMap.pairwise_iff.2 fun a ha b hb hlt => ?_
    have := hpos b ((hmem b).1 hb)
    rcases hg.trichotomy ((hmem a).1 ha) ((hmem b).1 hb) with rfl | hab | hba
    · omega
    · exact hab
    · omega
  · rw [← hc x]
    unfold Covers
    simp only [StdMap.mem_entries, hmem]

end Gaps

end XStaticAlloc
