/-
An arena: a region of addresses with the blocks handed out of it and the
addresses free to hand out.

What an allocator is for, said without its data structures. The laws of an
arena are its fields, so an arena whose blocks overlap, or that offers an
address of a block in use, cannot be built. An address may be neither free
nor in a block: it is lost. `Tiled` says that none is.
-/
import XFramework.Lib.Span
import Mathlib.Data.Set.Basic

/-- A region `[lo, hi)`, the blocks in use in it, and its free addresses. -/
structure Arena where
  lo : Int
  hi : Int
  live : List Span
  free : Set Int
  lo_le_hi : lo ≤ hi
  live_pos : ∀ b ∈ live, 0 < b.2
  live_in : ∀ b ∈ live, lo ≤ b.1 ∧ b.1 + b.2 ≤ hi
  apart : live.Pairwise Span.Apart
  free_in : ∀ x ∈ free, lo ≤ x ∧ x < hi
  free_live : ∀ x ∈ free, ¬ Span.Covers live x

namespace Arena

open Span

/-- No address is lost. -/
def Tiled (A : Arena) : Prop := ∀ x, A.lo ≤ x → x < A.hi → x ∈ A.free ∨ Covers A.live x

theorem live_apart {A : Arena} {b c : Span} (hb : b ∈ A.live) (hc : c ∈ A.live) (hne : b ≠ c) : Apart b c :=
  A.apart.forall hb hc hne

/-- The blocks in use start at different addresses. -/
theorem live_inj {A : Arena} {b c : Span} (hb : b ∈ A.live) (hc : c ∈ A.live) (h : b.1 = c.1) : b = c := by
  by_contra hne
  have := A.live_pos b hb
  have := A.live_pos c hc
  rcases live_apart hb hc hne with h' | h' <;> omega

/-! ## Handing out -/

/-- A block cut out of the free addresses. -/
def grant (A : Arena) (b : Span) (hpos : 0 < b.2) (hfree : ∀ x, b.Has x → x ∈ A.free) : Arena where
  lo := A.lo
  hi := A.hi
  live := b :: A.live
  free := {x | x ∈ A.free ∧ ¬ b.Has x}
  lo_le_hi := A.lo_le_hi
  live_pos := by
    intro c hc
    rcases List.mem_cons.1 hc with rfl | hc
    · exact hpos
    · exact A.live_pos c hc
  live_in := by
    intro c hc
    rcases List.mem_cons.1 hc with rfl | hc
    · have h₁ := A.free_in _ (hfree c.1 ⟨Int.le_refl _, by omega⟩)
      have h₂ := A.free_in _ (hfree (c.1 + c.2 - 1) ⟨by omega, by omega⟩)
      omega
    · exact A.live_in c hc
  apart := by
    refine List.pairwise_cons.2 ⟨fun c hc => ?_, A.apart⟩
    exact apart_of_not_has hpos (A.live_pos c hc) fun x hx hxc => A.free_live x (hfree x hx) ⟨c, hc, hxc⟩
  free_in := fun x hx => A.free_in x hx.1
  free_live := by
    intro x hx hc
    rw [covers_cons] at hc
    exact hc.elim hx.2 (A.free_live x hx.1)

/-- A block put right below the region, which grows by it. -/
def extend (A : Arena) (len : Int) (hpos : 0 < len) : Arena where
  lo := A.lo - len
  hi := A.hi
  live := (A.lo - len, len) :: A.live
  free := A.free
  lo_le_hi := by
    have := A.lo_le_hi
    omega
  live_pos := by
    intro c hc
    rcases List.mem_cons.1 hc with rfl | hc
    · exact hpos
    · exact A.live_pos c hc
  live_in := by
    intro c hc
    rcases List.mem_cons.1 hc with rfl | hc
    · have := A.lo_le_hi
      simp only
      omega
    · have := A.live_in c hc
      omega
  apart := by
    refine List.pairwise_cons.2 ⟨fun c hc => .inl ?_, A.apart⟩
    have := A.live_in c hc
    simp only
    omega
  free_in := by
    intro x hx
    have := A.free_in x hx
    omega
  free_live := by
    intro x hx hc
    rw [covers_cons] at hc
    rcases hc with hc | hc
    · have := A.free_in x hx
      unfold Has at hc
      simp only at hc
      omega
    · exact A.free_live x hx hc

/-! ## Taking back -/

/-- The block at `p` is no longer in use, and its addresses are lost. -/
def forget (A : Arena) (p : Int) : Arena where
  lo := A.lo
  hi := A.hi
  live := A.live.filter fun b => b.1 ≠ p
  free := A.free
  lo_le_hi := A.lo_le_hi
  live_pos := fun b hb => A.live_pos b (List.mem_filter.1 hb).1
  live_in := fun b hb => A.live_in b (List.mem_filter.1 hb).1
  apart := A.apart.filter _
  free_in := A.free_in
  free_live := by
    rintro x hx ⟨b, hb, hxb⟩
    exact A.free_live x hx ⟨b, (List.mem_filter.1 hb).1, hxb⟩

/-- The block `b` is no longer in use, and its addresses are free. -/
def release (A : Arena) (b : Span) (hb : b ∈ A.live) : Arena where
  lo := A.lo
  hi := A.hi
  live := A.live.filter fun c => c.1 ≠ b.1
  free := {x | x ∈ A.free ∨ b.Has x}
  lo_le_hi := A.lo_le_hi
  live_pos := fun c hc => A.live_pos c (List.mem_filter.1 hc).1
  live_in := fun c hc => A.live_in c (List.mem_filter.1 hc).1
  apart := A.apart.filter _
  free_in := by
    rintro x (hx | hx)
    · exact A.free_in x hx
    · have := A.live_in b hb
      unfold Has at hx
      omega
  free_live := by
    rintro x hx ⟨c, hc, hxc⟩
    rw [List.mem_filter] at hc
    rcases hx with hx | hx
    · exact A.free_live x hx ⟨c, hc.1, hxc⟩
    · have hne : b ≠ c := fun h => by simp [h] at hc
      exact (live_apart hb hc.1 hne).not_has hx hxc

/-- The region gives up free addresses at its lower end. -/
def trim (A : Arena) (lo : Int) (h : ∀ x, A.lo ≤ x → x < lo → x ∈ A.free) (hhi : lo ≤ A.hi) : Arena where
  lo := lo
  hi := A.hi
  live := A.live
  free := {x | x ∈ A.free ∧ lo ≤ x}
  lo_le_hi := hhi
  live_pos := A.live_pos
  live_in := by
    intro b hb
    have hin := A.live_in b hb
    have hpos := A.live_pos b hb
    refine ⟨?_, hin.2⟩
    -- a block that started below `lo` would start at a free address
    by_contra hlt
    exact A.free_live b.1 (h b.1 hin.1 (by omega)) ⟨b, hb, Int.le_refl _, by omega⟩
  apart := A.apart
  free_in := fun x hx => ⟨hx.2, (A.free_in x hx.1).2⟩
  free_live := fun x hx => A.free_live x hx.1

/-! ## Nothing is lost -/

theorem Tiled.grant {A : Arena} (h : A.Tiled) {b : Span} (hpos : 0 < b.2) (hfree : ∀ x, b.Has x → x ∈ A.free) :
    (A.grant b hpos hfree).Tiled := by
  intro x h₁ h₂
  by_cases hb : b.Has x
  · exact .inr (covers_cons.2 (.inl hb))
  · exact (h x h₁ h₂).imp (fun hx => ⟨hx, hb⟩) fun hx => covers_cons.2 (.inr hx)

theorem Tiled.extend {A : Arena} (h : A.Tiled) {len : Int} (hpos : 0 < len) : (A.extend len hpos).Tiled := by
  intro x (h₁ : A.lo - len ≤ x) (h₂ : x < A.hi)
  by_cases hb : Has (A.lo - len, len) x
  · exact .inr (covers_cons.2 (.inl hb))
  · have h₃ : A.lo ≤ x := by
      unfold Has at hb
      simp only at hb
      omega
    exact (h x h₃ h₂).imp id fun hx => covers_cons.2 (.inr hx)

theorem Tiled.release {A : Arena} (h : A.Tiled) {b : Span} (hb : b ∈ A.live) : (A.release b hb).Tiled := by
  intro x h₁ h₂
  rcases h x h₁ h₂ with hx | ⟨c, hc, hx⟩
  · exact .inl (.inl hx)
  · by_cases hcb : c.1 = b.1
    · rw [live_inj hc hb hcb] at hx
      exact .inl (.inr hx)
    · exact .inr ⟨c, List.mem_filter.2 ⟨hc, by simpa using hcb⟩, hx⟩

theorem Tiled.trim {A : Arena} (h : A.Tiled) {lo : Int} (hf : ∀ x, A.lo ≤ x → x < lo → x ∈ A.free)
    (hle : A.lo ≤ lo) (hhi : lo ≤ A.hi) : (A.trim lo hf hhi).Tiled := fun x h₁ h₂ =>
  (h x (Int.le_trans hle h₁) h₂).imp (fun hx => ⟨hx, h₁⟩) id

end Arena
