/-
Spans of addresses: a start and a length.

`coalesce` is one pass over spans in the order of their starts that joins
every span to its predecessor when it starts where that one ends. It keeps
the addresses covered (`covers_coalesce`), and on spans that do not overlap
it leaves a gap after each (`gapped_coalesce`).
-/
import Mathlib.Data.List.Pairwise
import Mathlib.Order.Lattice

/-- A start and a length. -/
abbrev Span := Int × Int

namespace Span

/-- `x` is one of the addresses of `s`. -/
def Has (s : Span) (x : Int) : Prop := s.1 ≤ x ∧ x < s.1 + s.2

/-- No address in common: one ends before the other starts. -/
def Apart (a b : Span) : Prop := a.1 + a.2 ≤ b.1 ∨ b.1 + b.2 ≤ a.1

/-- Some span of `l` has `x`. -/
def Covers (l : List Span) (x : Int) : Prop := ∃ s ∈ l, s.Has x

/-- Each span ends before the later ones start. -/
def Ordered (l : List Span) : Prop := l.Pairwise fun a b => a.1 + a.2 ≤ b.1

/-- Each span ends before the later ones start, with a gap. -/
def Gapped (l : List Span) : Prop := l.Pairwise fun a b => a.1 + a.2 < b.1

instance (s : Span) (x : Int) : Decidable (s.Has x) := inferInstanceAs (Decidable (_ ∧ _))

instance (a b : Span) : Decidable (Apart a b) := inferInstanceAs (Decidable (_ ∨ _))

instance (l : List Span) : Decidable (Ordered l) := inferInstanceAs (Decidable (List.Pairwise _ l))

instance (l : List Span) : Decidable (Gapped l) := inferInstanceAs (Decidable (List.Pairwise _ l))

theorem Apart.symm {a b : Span} (h : Apart a b) : Apart b a := Or.symm h

instance : Std.Symm Apart := ⟨fun _ _ => Apart.symm⟩

theorem Apart.not_has {a b : Span} (h : Apart a b) {x : Int} (hx : a.Has x) : ¬ b.Has x := by
  unfold Apart Has at *
  omega

/-- Spans with no address in common are apart, when they have addresses. -/
theorem apart_of_not_has {a b : Span} (ha : 0 < a.2) (hb : 0 < b.2) (h : ∀ x, a.Has x → ¬ b.Has x) :
    Apart a b := by
  have h₁ := h a.1 ⟨Int.le_refl _, by omega⟩
  have h₂ : ¬ a.Has b.1 := fun hx => h _ hx ⟨Int.le_refl _, by omega⟩
  unfold Has at h₁ h₂
  unfold Apart
  omega

theorem covers_nil {x : Int} : ¬ Covers [] x := by simp [Covers]

theorem covers_cons {s : Span} {l : List Span} {x : Int} : Covers (s :: l) x ↔ s.Has x ∨ Covers l x := by
  simp [Covers]

/-- Gapped spans that cover a region exactly are one span. -/
theorem Gapped.eq_singleton {l : List Span} (h : Gapped l) (hpos : ∀ s ∈ l, 0 < s.2) {lo hi : Int} (hlt : lo < hi)
    (hc : ∀ x, Covers l x ↔ lo ≤ x ∧ x < hi) : l = [(lo, hi - lo)] := by
  cases l with
  | nil => exact absurd ((hc lo).2 ⟨Int.le_refl _, hlt⟩) covers_nil
  | cons s rest =>
    obtain ⟨hs, -⟩ := List.pairwise_cons.1 h
    have hp := hpos s List.mem_cons_self
    have h₁ := (hc s.1).1 ⟨s, List.mem_cons_self, Int.le_refl _, by omega⟩
    have h₂ := (hc (s.1 + s.2 - 1)).1 ⟨s, List.mem_cons_self, by omega, by omega⟩
    -- the first span has the lower end of the region, as the others start behind it
    have h₃ : s.1 = lo := by
      obtain ⟨t, ht, hx⟩ := (hc lo).2 ⟨Int.le_refl _, hlt⟩
      rcases List.mem_cons.1 ht with rfl | ht
      · exact Int.le_antisymm hx.1 h₁.1
      · have := hs t ht
        unfold Has at hx
        omega
    -- and the upper end, as none of the others starts right where it ends
    have h₄ : s.1 + s.2 = hi := by
      by_contra hne
      obtain ⟨t, ht, hx⟩ := (hc (s.1 + s.2)).2 ⟨by omega, by omega⟩
      unfold Has at hx
      rcases List.mem_cons.1 ht with rfl | ht
      · omega
      · have := hs t ht
        omega
    have hrest : rest = [] := by
      refine List.eq_nil_iff_forall_not_mem.2 fun t ht => ?_
      have := hs t ht
      have htp := hpos t (List.mem_cons_of_mem _ ht)
      have := (hc t.1).1 ⟨t, List.mem_cons_of_mem _ ht, Int.le_refl _, by omega⟩
      omega
    rw [hrest]
    exact congrArg (· :: []) (Prod.ext h₃ (by simp only; omega))

theorem Gapped.nodup_starts {l : List Span} (h : Gapped l) (hpos : ∀ s ∈ l, 0 < s.2) : (l.map (·.1)).Nodup := by
  refine List.pairwise_map.2 (h.imp_of_mem fun {a b} ha _ hlt he => ?_)
  have := hpos a ha
  omega

/-- Of two gapped spans one lies behind the other, with a gap. -/
theorem Gapped.trichotomy {l : List Span} (h : Gapped l) {a b : Span} (ha : a ∈ l) (hb : b ∈ l) :
    a = b ∨ a.1 + a.2 < b.1 ∨ b.1 + b.2 < a.1 := by
  obtain ⟨i, hi, rfl⟩ := List.mem_iff_getElem.1 ha
  obtain ⟨j, hj, rfl⟩ := List.mem_iff_getElem.1 hb
  rcases Nat.lt_trichotomy i j with hij | rfl | hij
  · exact .inr (.inl (List.pairwise_iff_getElem.1 h i j hi hj hij))
  · exact .inl rfl
  · exact .inr (.inr (List.pairwise_iff_getElem.1 h j i hj hi hij))

/-- Gapped spans are the longest runs of the addresses they cover. -/
theorem Gapped.mem_iff {l : List Span} (h : Gapped l) (hpos : ∀ s ∈ l, 0 < s.2) {s : Span} :
    s ∈ l ↔ 0 < s.2 ∧ (∀ x, s.Has x → Covers l x) ∧ ¬ Covers l (s.1 - 1) ∧ ¬ Covers l (s.1 + s.2) := by
  refine ⟨?_, ?_⟩
  · intro hs
    have hp := hpos s hs
    refine ⟨hp, fun x hx => ⟨s, hs, hx⟩, ?_, ?_⟩
    · rintro ⟨t, ht, hx⟩
      unfold Has at hx
      rcases h.trichotomy hs ht with rfl | hlt | hlt <;> omega
    · rintro ⟨t, ht, hx⟩
      unfold Has at hx
      rcases h.trichotomy hs ht with rfl | hlt | hlt <;> omega
  · rintro ⟨hp, hin, hbefore, hafter⟩
    obtain ⟨t, ht, hx⟩ := hin s.1 ⟨Int.le_refl _, by omega⟩
    have hp' := hpos t ht
    unfold Has at hx
    -- a span that starts before `s` has the address before `s`, one that ends behind it the one after
    have h₁ : t.1 = s.1 := by
      by_contra hne
      exact hbefore ⟨t, ht, by unfold Has; omega⟩
    have h₂ : t.1 + t.2 ≤ s.1 + s.2 := by
      by_contra hlt
      exact hafter ⟨t, ht, by unfold Has; omega⟩
    have h₃ : s.1 + s.2 ≤ t.1 + t.2 := by
      by_contra hlt
      obtain ⟨u, hu, hxu⟩ := hin (t.1 + t.2) (by unfold Has; omega)
      unfold Has at hxu
      rcases h.trichotomy ht hu with rfl | hlt' | hlt' <;> omega
    have : t = s := Prod.ext h₁ (by omega)
    exact this ▸ ht

theorem Gapped.ordered {l : List Span} (h : Gapped l) : Ordered l := h.imp Int.le_of_lt

/-! ## Joining neighbours -/

/-- The pass over the spans behind `prev`. -/
def mergeFrom (prev : Span) : List Span → List Span
  | [] => [prev]
  | it :: rest =>
    if prev.1 + prev.2 = it.1 then mergeFrom (prev.1, prev.2 + it.2) rest
    else prev :: mergeFrom it rest

/-- Every span joined to its predecessor when it starts where that one ends. -/
def coalesce : List Span → List Span
  | [] => []
  | s :: rest => mergeFrom s rest

theorem covers_mergeFrom {x : Int} : ∀ {l : List Span} {prev : Span}, 0 ≤ prev.2 → (∀ s ∈ l, 0 ≤ s.2) →
    (Covers (mergeFrom prev l) x ↔ prev.Has x ∨ Covers l x)
  | [], prev, _, _ => by rw [mergeFrom, covers_cons]
  | it :: rest, prev, hp, hl => by
    have hit := hl it List.mem_cons_self
    have hr : ∀ s ∈ rest, 0 ≤ s.2 := fun s hs => hl s (List.mem_cons_of_mem _ hs)
    rw [mergeFrom]
    split
    · rename_i he
      rw [covers_mergeFrom (by simp only; omega) hr, covers_cons, ← or_assoc]
      refine or_congr_left ?_
      simp only [Has]
      omega
    · rw [covers_cons, covers_mergeFrom hit hr, covers_cons]

theorem covers_coalesce {l : List Span} {x : Int} (h : ∀ s ∈ l, 0 ≤ s.2) :
    Covers (coalesce l) x ↔ Covers l x := by
  cases l with
  | nil => rfl
  | cons s rest =>
    rw [coalesce, covers_cons]
    exact covers_mergeFrom (h s List.mem_cons_self) fun t ht => h t (List.mem_cons_of_mem _ ht)

/-- A joined span starts where `prev` or one of the spans behind it starts. -/
theorem mergeFrom_starts : ∀ {l : List Span} {prev s : Span}, s ∈ mergeFrom prev l →
    s.1 = prev.1 ∨ ∃ t ∈ l, s.1 = t.1
  | [], prev, s, h => by
    rw [mergeFrom, List.mem_singleton] at h
    exact .inl (congrArg Prod.fst h)
  | it :: rest, prev, s, h => by
    rw [mergeFrom] at h
    split at h
    · rcases mergeFrom_starts h with h | ⟨t, ht, h⟩
      · exact .inl h
      · exact .inr ⟨t, List.mem_cons_of_mem _ ht, h⟩
    · rcases List.mem_cons.1 h with rfl | h
      · exact .inl rfl
      · rcases mergeFrom_starts h with h | ⟨t, ht, h⟩
        · exact .inr ⟨it, List.mem_cons_self, h⟩
        · exact .inr ⟨t, List.mem_cons_of_mem _ ht, h⟩

theorem pairwise_mergeFrom : ∀ {l : List Span} {prev : Span}, (prev :: l).Pairwise (fun a b => a.1 < b.1) →
    (mergeFrom prev l).Pairwise fun a b => a.1 < b.1
  | [], prev, _ => by simp [mergeFrom]
  | it :: rest, prev, h => by
    rw [List.pairwise_cons, List.pairwise_cons] at h
    obtain ⟨hp, hi, hr⟩ := h
    rw [mergeFrom]
    split
    · refine pairwise_mergeFrom (List.pairwise_cons.2 ⟨fun b hb => ?_, hr⟩)
      exact hp b (List.mem_cons_of_mem _ hb)
    · refine List.pairwise_cons.2 ⟨fun b hb => ?_, pairwise_mergeFrom (List.pairwise_cons.2 ⟨hi, hr⟩)⟩
      rcases mergeFrom_starts hb with h | ⟨t, ht, h⟩
      · rw [h]; exact hp it List.mem_cons_self
      · rw [h]; exact hp t (List.mem_cons_of_mem _ ht)

theorem pairwise_coalesce {l : List Span} (h : l.Pairwise fun a b => a.1 < b.1) :
    (coalesce l).Pairwise fun a b => a.1 < b.1 := by
  cases l with
  | nil => exact .nil
  | cons s rest => exact pairwise_mergeFrom h

theorem mergeFrom_pos : ∀ {l : List Span} {prev : Span}, 0 < prev.2 → (∀ s ∈ l, 0 < s.2) →
    ∀ s ∈ mergeFrom prev l, 0 < s.2
  | [], prev, hp, _, s, h => by
    rw [mergeFrom, List.mem_singleton] at h
    exact h ▸ hp
  | it :: rest, prev, hp, hl, s, h => by
    have hit := hl it List.mem_cons_self
    have hr : ∀ s ∈ rest, 0 < s.2 := fun s hs => hl s (List.mem_cons_of_mem _ hs)
    rw [mergeFrom] at h
    split at h
    · exact mergeFrom_pos (by simp only; omega) hr s h
    · rcases List.mem_cons.1 h with rfl | h
      · exact hp
      · exact mergeFrom_pos hit hr s h

theorem coalesce_pos {l : List Span} (h : ∀ s ∈ l, 0 < s.2) : ∀ s ∈ coalesce l, 0 < s.2 := by
  cases l with
  | nil => simp [coalesce]
  | cons s rest => exact mergeFrom_pos (h s List.mem_cons_self) fun t ht => h t (List.mem_cons_of_mem _ ht)

/-- What the pass leaves has a gap after each span. The induction carries that
`prev` ends before the spans behind it start. -/
theorem gapped_mergeFrom : ∀ {l : List Span} {prev : Span}, (∀ s ∈ l, 0 ≤ s.2) → Ordered (prev :: l) →
    Gapped (mergeFrom prev l)
  | [], prev, _, _ => by simp [mergeFrom, Gapped]
  | it :: rest, prev, hl, h => by
    have hr : ∀ s ∈ rest, 0 ≤ s.2 := fun s hs => hl s (List.mem_cons_of_mem _ hs)
    have hit := hl it List.mem_cons_self
    unfold Ordered at h
    rw [List.pairwise_cons, List.pairwise_cons] at h
    obtain ⟨hp, hi, ho⟩ := h
    rw [mergeFrom]
    split
    · rename_i he
      refine gapped_mergeFrom hr (List.pairwise_cons.2 ⟨fun b hb => ?_, ho⟩)
      have := hi b hb
      simp only
      omega
    · rename_i hne
      have hlt : prev.1 + prev.2 < it.1 := lt_of_le_of_ne (hp it List.mem_cons_self) hne
      refine List.pairwise_cons.2 ⟨fun b hb => ?_, gapped_mergeFrom hr (List.pairwise_cons.2 ⟨hi, ho⟩)⟩
      rcases mergeFrom_starts hb with h | ⟨t, ht, h⟩
      · omega
      · have := hi t ht
        omega

theorem gapped_coalesce {l : List Span} (h : ∀ s ∈ l, 0 ≤ s.2) (ho : Ordered l) : Gapped (coalesce l) := by
  cases l with
  | nil => exact .nil
  | cons s rest => exact gapped_mergeFrom (fun t ht => h t (List.mem_cons_of_mem _ ht)) ho

end Span
