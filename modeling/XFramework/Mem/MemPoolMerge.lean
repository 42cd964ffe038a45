/-
What `MergeFree` does to the tree of one node (Mem/MemPool.cpp).

It merges the chips of its node before the node itself, and a chip that it has
merged is free without being listed. So it comes to its end, and does what it
should, just when no node below which nothing is used has a chip in pieces
(`Flat`).
-/
import XFramework.Mem.MemPoolLists
import XFramework.Mem.MemPoolRemain
import XFramework.Lib.Descents

open Fallible Bytes Relation Descents

namespace MemPool

variable {s s' t : MemPool} {L : Blocks} {n m ni nj : MemNode} {x y z i j fuel : Nat} {free : Bool} {b : Int}

/-! ## The tree of a node -/

/-- The node at `y` is a chip of that at `x`. -/
def Child (s : MemPool) (x y : Nat) : Prop := ∃ n, s.nodes.read x = some n ∧ ChipOf y n

/-- `y` is in the tree of `x`. -/
abbrev Inside (s : MemPool) (x y : Nat) : Prop := ReflTransGen (Child s) x y

/-- A node of the tree is used. -/
def UsedIn (s : MemPool) (x : Nat) : Prop := ∃ y m, Inside s x y ∧ s.nodes.read y = some m ∧ m.eStatus = .UF_USE

/-- A node of the tree that has a chip in pieces has a used node below it. -/
def Flat (s : MemPool) (x : Nat) : Prop := ∀ y z m, Inside s x y → Child s y z → s.nodes.read z = some m → m.eStatus = .UF_ALLOC →
  UsedIn s y

theorem Shape.child_lt (h : Shape s) (x y : Nat) (hc : Child s x y) : x < y := by
  obtain ⟨n, hn, hy⟩ := hc
  exact (h.standing.chips x n y hn hy).1

theorem Shape.child_one (h : Shape s) (x y z : Nat) (hx : Child s x z) (hy : Child s y z) : x = y := by
  obtain ⟨n, hn, hz⟩ := hx
  obtain ⟨m, hm, hz'⟩ := hy
  exact h.forest.parent x y n m z hn hm hz hz'

/-- A node that is not in pieces is all of its tree. -/
theorem inside_whole (h : Shape s) (hx : s.nodes.read x = some n) (hn : n.eStatus ≠ .UF_ALLOC) : Inside s x y ↔ y = x := by
  rw [Inside, ReflTransGen.cases_head_iff]
  refine ⟨?_, ?_⟩
  · intro hy
    cases hy with
    | inl hy => exact hy.symm
    | inr hy =>
      obtain ⟨c, ⟨m, hm, hc⟩, -⟩ := hy
      cases hx.symm.trans hm
      exact absurd hc (not_chipOf_of_whole h.forest hx hn)
  · exact fun hy => .inl hy.symm

theorem usedIn_whole (h : Shape s) (hx : s.nodes.read x = some n) (hn : n.eStatus ≠ .UF_ALLOC) : UsedIn s x ↔ n.eStatus = .UF_USE := by
  refine ⟨?_, ?_⟩
  · intro ⟨y, m, hy, hm, hst⟩
    rw [(inside_whole h hx hn).1 hy, hx] at hm
    cases hm
    exact hst
  · exact fun hst => ⟨x, n, .refl, hx, hst⟩

theorem flat_whole (h : Shape s) (hx : s.nodes.read x = some n) (hn : n.eStatus ≠ .UF_ALLOC) : Flat s x := by
  intro y z m hy hz _ _
  obtain ⟨c, hc, hzc⟩ := hz
  rw [(inside_whole h hx hn).1 hy, hx] at hc
  cases hc
  exact absurd hzc (not_chipOf_of_whole h.forest hx hn)

section Cut

variable (hx : s.nodes.read x = some n) (hc : Cut s.nodes.read n i j ni nj)

include hx hc in
theorem child_cut : Child s x z ↔ z = i ∨ z = j := by
  refine ⟨?_, ?_⟩
  · intro ⟨m, hm, hz⟩
    cases hx.symm.trans hm
    exact hc.chipOf_iff.1 hz
  · exact fun hz => ⟨n, hx, hc.chipOf_iff.2 hz⟩

include hx hc in
theorem inside_cut : Inside s x y ↔ y = x ∨ Inside s i y ∨ Inside s j y := by
  rw [Inside, ReflTransGen.cases_head_iff]
  refine ⟨?_, ?_⟩
  · intro hy
    cases hy with
    | inl hy => exact .inl hy.symm
    | inr hy =>
      obtain ⟨z, hz, hzy⟩ := hy
      cases (child_cut hx hc).1 hz with
      | inl hz => exact .inr (.inl (hz ▸ hzy))
      | inr hz => exact .inr (.inr (hz ▸ hzy))
  · intro hy
    rcases hy with hy | hy | hy
    · exact .inl hy.symm
    · exact .inr ⟨i, (child_cut hx hc).2 (.inl rfl), hy⟩
    · exact .inr ⟨j, (child_cut hx hc).2 (.inr rfl), hy⟩

include hx hc in
/-- What is used in the tree of a node in pieces is used in that of a chip. -/
theorem usedIn_cut (hst : n.eStatus = .UF_ALLOC) : UsedIn s x ↔ UsedIn s i ∨ UsedIn s j := by
  refine ⟨?_, ?_⟩
  · intro ⟨y, m, hy, hm, hused⟩
    rcases (inside_cut hx hc).1 hy with hy | hy | hy
    · rw [hy, hx] at hm
      cases hm
      rw [hst] at hused
      cases hused
    · exact .inl ⟨y, m, hy, hm, hused⟩
    · exact .inr ⟨y, m, hy, hm, hused⟩
  · intro hu
    cases hu with
    | inl hu =>
      obtain ⟨y, m, hy, hrest⟩ := hu
      exact ⟨y, m, (inside_cut hx hc).2 (.inr (.inl hy)), hrest⟩
    | inr hu =>
      obtain ⟨y, m, hy, hrest⟩ := hu
      exact ⟨y, m, (inside_cut hx hc).2 (.inr (.inr hy)), hrest⟩

include hx hc in
theorem flat_cut : Flat s x ↔ Flat s i ∧ Flat s j ∧ (ni.eStatus = .UF_ALLOC ∨ nj.eStatus = .UF_ALLOC → UsedIn s x) := by
  refine ⟨?_, ?_⟩
  · intro hf
    refine ⟨fun y z m hy => hf y z m ((inside_cut hx hc).2 (.inr (.inl hy))),
      fun y z m hy => hf y z m ((inside_cut hx hc).2 (.inr (.inr hy))), fun hst => ?_⟩
    cases hst with
    | inl hst => exact hf x i ni .refl ((child_cut hx hc).2 (.inl rfl)) hc.readL hst
    | inr hst => exact hf x j nj .refl ((child_cut hx hc).2 (.inr rfl)) hc.readR hst
  · intro ⟨hi, hj, hroot⟩ y z m hy hz hm hst
    rcases (inside_cut hx hc).1 hy with rfl | hy | hy
    · rcases (child_cut hx hc).1 hz with rfl | rfl
      · cases hc.readL.symm.trans hm
        exact hroot (.inl hst)
      · cases hc.readR.symm.trans hm
        exact hroot (.inr hst)
    · exact hi y z m hy hz hm hst
    · exact hj y z m hy hz hm hst

end Cut

/-! ## What is the same at the nodes of a tree -/

section Same

variable (hsame : ∀ y, Inside s x y → s'.nodes.read y = s.nodes.read y)

include hsame in
theorem child_same (hy : Inside s x y) : Child s' y z ↔ Child s y z := by rw [Child, Child, hsame y hy]

include hsame in
theorem inside_same : Inside s' x y ↔ Inside s x y := descends_congr fun _ _ hb => child_same hsame hb

include hsame in
theorem usedIn_same : UsedIn s' x ↔ UsedIn s x := by
  refine exists_congr fun y => exists_congr fun m => ?_
  rw [inside_same hsame]
  exact and_congr_right fun hy => by rw [hsame y hy]

include hsame in
theorem flat_same : Flat s' x ↔ Flat s x := by
  have hbelow {y : Nat} (hy : Inside s x y) : ∀ z, Inside s y z → s'.nodes.read z = s.nodes.read z :=
    fun z hz => hsame z (hy.trans hz)
  refine forall_congr' fun y => forall_congr' fun z => forall_congr' fun m => ?_
  rw [inside_same hsame]
  refine imp_congr_right fun hy => ?_
  rw [child_same hsame hy, usedIn_same (hbelow hy)]
  exact imp_congr_right fun hz => by rw [hsame z (hy.tail hz)]

end Same

/-! ## A merge that comes to its end -/

theorem unlist_mem (h : unlist s x = .ok t) : t.mem = s.mem := by
  obtain ⟨n, -, h⟩ := bind_eq_ok.1 h
  cases hfind : s.m_poolset.find? n.nLen with
  | none =>
    rw [hfind] at h
    cases h
  | some l =>
    rw [hfind] at h
    dsimp only at h
    split_ifs at h
    cases h
    rfl

theorem mergeChips_mem {r : MemPool × Bool} (h : mergeChips s x n = .ok r) : r.1.mem = s.mem := by
  obtain ⟨t, ht, h⟩ := bind_eq_ok.1 h
  cases h
  exact foldlM_run (fun t => t.mem = s.mem) ht rfl fun _ _ _ _ hu hv => (unlist_mem hv).trans hu

/-- What the merge of the tree of `x` has done: whether the tree is free; nothing outside of it, and to no node in use;
and of the free list, what it has taken out. -/
structure MergedTo (s s' : MemPool) (x : Nat) (free : Bool) : Prop where
  free_iff : free = true ↔ ¬UsedIn s x
  other : ∀ y, ¬Inside s x y → s'.nodes.read y = s.nodes.read y
  used : ∀ y m, s.nodes.read y = some m → m.eStatus = .UF_USE → s'.nodes.read y = some m
  listed : ∀ k y, InSet s'.m_poolset k y → InSet s.m_poolset k y
  kept : ∀ k y, InSet s.m_poolset k y → (Inside s x y → y = x) → InSet s'.m_poolset k y
  whole : free = true → (∃ m, s'.nodes.read x = some m ∧ m.eStatus = .UF_NONE ∧ m.mChips = .empty) ∧
    ∀ k y, Inside s x y → y ≠ x → ¬InSet s'.m_poolset k y
  record : s'.m_record = s.m_record
  mem : s'.mem = s.mem
  long : s'.nodes.length = s.nodes.length

/-- A node that is not in pieces stays as it is. -/
theorem mergedTo_whole (h : Shape s) (hx : s.nodes.read x = some n) (hn : n.eStatus ≠ .UF_ALLOC) :
    MergedTo s s x (decide (n.eStatus = .UF_NONE)) where
  free_iff := by
    rw [usedIn_whole h hx hn, decide_eq_true_iff]
    cases hst : n.eStatus with
    | UF_NONE => simp
    | UF_USE => simp
    | UF_ALLOC => exact absurd hst hn
  other _ _ := rfl
  used _ _ hy _ := hy
  listed _ _ hy := hy
  kept _ _ hy _ := hy
  whole hfree := by
    refine ⟨⟨n, hx, of_decide_eq_true hfree, h.forest.whole x n hx hn⟩, fun k y hy hne => ?_⟩
    exact absurd ((inside_whole h hx hn).1 hy) hne
  record := rfl
  mem := rfl
  long := rfl

section Pieces

variable {s₁ s₂ : MemPool} {b₁ b₂ : Bool} (h : Shape s) (hx : s.nodes.read x = some n) (hst : n.eStatus = .UF_ALLOC)
  (hc : Cut s.nodes.read n i j ni nj) (h₁ : MergedTo s s₁ i b₁)

include h hx hc in
/-- The tree of a chip is not that of the other one, and has not the node itself. -/
theorem inside_apart : (∀ y, Inside s j y → ¬Inside s i y) ∧ ¬Inside s i x ∧ ¬Inside s j x := by
  have hi := (child_cut hx hc).2 (.inl rfl)
  have hj := (child_cut hx hc).2 (.inr rfl)
  exact ⟨fun y hy hy' => siblings_apart h.child_one h.child_lt hi hj hc.idx_ne hy' hy,
    not_descends_parent h.child_lt hi, not_descends_parent h.child_lt hj⟩

include h hx hc h₁ in
/-- The merge of the first chip leaves the tree of the second one. -/
theorem MergedTo.second : ∀ y, Inside s j y → s₁.nodes.read y = s.nodes.read y :=
  fun y hy => h₁.other y ((inside_apart h hx hc).1 y hy)

include h hx hst hc h₁ in
/-- Both chips have had their turn, and one is not free. -/
theorem MergedTo.busy (h₂ : MergedTo s₁ s₂ j b₂) (hbusy : ¬(b₁ = true ∧ b₂ = true)) : MergedTo s s₂ x false := by
  have hsame := h₁.second h hx hc
  obtain ⟨hapart, hxi, hxj⟩ := inside_apart h hx hc
  refine ⟨?_, fun y hy => ?_, fun y m hy hu => h₂.used y m (h₁.used y m hy hu) hu, fun k y hy => h₁.listed k y (h₂.listed k y hy),
    fun k y hy hroot => ?_, nofun, h₂.record.trans h₁.record, h₂.mem.trans h₁.mem, h₂.long.trans h₁.long⟩
  · rw [usedIn_cut hx hc hst, ← usedIn_same hsame]
    have hf₁ := h₁.free_iff
    have hf₂ := h₂.free_iff
    refine iff_of_false nofun fun hnone => hbusy ⟨hf₁.2 fun hu => hnone (.inl hu), hf₂.2 fun hu => hnone (.inr hu)⟩
  · rw [inside_cut hx hc, not_or, not_or] at hy
    rw [h₂.other y (by rw [inside_same hsame]; exact hy.2.2), h₁.other y hy.2.1]
  · refine h₂.kept k y (h₁.kept k y hy fun hi => ?_) fun hj => ?_
    · exact absurd (hroot ((inside_cut hx hc).2 (.inr (.inl hi))) ▸ hi) hxi
    · rw [inside_same hsame] at hj
      exact absurd (hroot ((inside_cut hx hc).2 (.inr (.inr hj))) ▸ hj) hxj

include h hx hst hc h₁ in
/-- Both are free, and the node is made whole. -/
theorem MergedTo.merged (h₂ : MergedTo s₁ s₂ j true) (hb₁ : b₁ = true) {ni' nj' : MemNode} (hm : Merges s₂ s' x i j n ni' nj')
    (hmem : s'.mem = s₂.mem) : MergedTo s s' x true := by
  have hsame := h₁.second h hx hc
  obtain ⟨hapart, hxi, hxj⟩ := inside_apart h hx hc
  have hfree₁ := h₁.free_iff.1 hb₁
  have hfree₂ := h₂.free_iff.1 rfl
  rw [usedIn_same hsame] at hfree₂
  refine ⟨?_, fun y hy => ?_, fun y m hy hu => ?_, fun k y hy => h₁.listed k y (h₂.listed k y ((hm.set k y).1 hy).1),
    fun k y hy hroot => ?_, fun _ => ⟨⟨_, hm.self, rfl, rfl⟩, fun k y hy hne hin => ?_⟩,
    hm.record.trans (h₂.record.trans h₁.record), hmem.trans (h₂.mem.trans h₁.mem), hm.long.trans (h₂.long.trans h₁.long)⟩
  · rw [usedIn_cut hx hc hst]
    exact iff_of_true rfl (not_or.2 ⟨hfree₁, hfree₂⟩)
  · rw [inside_cut hx hc, not_or, not_or] at hy
    rw [hm.other hy.1 (fun he => hy.2.1 (he ▸ .refl)) (fun he => hy.2.2 (he ▸ .refl)),
      h₂.other y (by rw [inside_same hsame]; exact hy.2.2), h₁.other y hy.2.1]
  · exact hm.used_keep (h₂.used y m (h₁.used y m hy hu) hu) hu
  · have hi : ¬Inside s i y := fun hi => absurd (hroot ((inside_cut hx hc).2 (.inr (.inl hi))) ▸ hi) hxi
    have hj : ¬Inside s j y := fun hj => absurd (hroot ((inside_cut hx hc).2 (.inr (.inr hj))) ▸ hj) hxj
    have hy₂ := h₂.kept k y (h₁.kept k y hy fun h => absurd h hi) fun h => absurd ((inside_same hsame).1 h) hj
    exact (hm.set k y).2 ⟨hy₂, fun he => hi (he ▸ .refl), fun he => hj (he ▸ .refl)⟩
  · obtain ⟨hin, hyi, hyj⟩ := (hm.set k y).1 hin
    rcases (inside_cut hx hc).1 hy with hy | hy | hy
    · exact hne hy
    · exact (h₁.whole hb₁).2 k y hy hyi (h₂.listed k y hin)
    · exact (h₂.whole rfl).2 k y ((inside_same hsame).2 hy) hyj hin

end Pieces

theorem mergeFree_whole_ok {r : MemPool × Bool} (hx : s.nodes.read x = some n) (hst : n.eStatus ≠ .UF_ALLOC)
    (hrun : mergeFree fuel s x = .ok r) : r = (s, decide (n.eStatus = .UF_NONE)) := by
  cases fuel with
  | zero => cases hrun
  | succ fuel => exact (Except.ok.inj ((mergeFree_whole fuel hx hst).symm.trans hrun)).symm

/-- `MergeFree` that comes to its end has done what it should, and found no chip in pieces below a free node. -/
theorem mergeFree_merged {r : MemPool × Bool} (h : Shape s) (hx : s.nodes.read x = some n) (hrun : mergeFree fuel s x = .ok r) :
    MergedTo s r.1 x r.2 ∧ Flat s x := by
  induction fuel generalizing s x n r with
  | zero => cases hrun
  | succ fuel ih =>
    by_cases hst : n.eStatus = .UF_ALLOC
    · obtain ⟨i, j, ni, nj, hc, hxi, hxj⟩ := h.forest.cut x n hx hst
      obtain ⟨⟨s₁, b₁⟩, ⟨s₂, b₂⟩, hr₁, hr₂, hend⟩ := (mergeFree_pieces hx hst hc).1 hrun
      obtain ⟨hapart, hxi', hxj'⟩ := inside_apart h hx hc
      -- the first chip
      obtain ⟨h₁, hf₁⟩ := ih h hc.readL hr₁
      have hs₁ : Shape s₁ := (mergeFree_merging fuel h hc.readL hr₁).1.keeps Shape (fun _ _ _ _ _ _ _ _ ht hm => ht.merge hm) h
      have hsame := h₁.second h hx hc
      -- the second one
      obtain ⟨h₂, hf₂⟩ := ih hs₁ ((hsame j .refl).trans hc.readR) hr₂
      have hs₂ : Shape s₂ := (mergeFree_merging fuel hs₁ ((hsame j .refl).trans hc.readR) hr₂).1.keeps Shape
        (fun _ _ _ _ _ _ _ _ ht hm => ht.merge hm) hs₁
      have hflat := fun hroot => (flat_cut hx hc).2 ⟨hf₁, (flat_same hsame).1 hf₂, hroot⟩
      dsimp only at h₁ h₂ hend
      by_cases hboth : b₁ = true ∧ b₂ = true
      · rw [if_pos hboth] at hend
        obtain ⟨hb₁, rfl⟩ := hboth
        have hx₂ : s₂.nodes.read x = some n := by
          rw [h₂.other x (by rw [inside_same hsame]; exact hxj'), h₁.other x hxi', hx]
        obtain ⟨i', j', ni', nj', hc', -, -⟩ := hs₂.forest.cut x n hx₂ hst
        have hchips := hc'.chips.symm.trans hc.chips
        simp only [List.cons.injEq, Prod.mk.injEq, and_true] at hchips
        obtain ⟨⟨-, rfl⟩, -, rfl⟩ := hchips
        obtain ⟨⟨mi, hmi, hist, -⟩, -⟩ := h₁.whole hb₁
        obtain ⟨⟨mj, hmj, hjst, -⟩, -⟩ := h₂.whole rfl
        have hmi₂ : s₂.nodes.read i' = some mi := by
          rw [h₂.other i' (by rw [inside_same hsame]; exact fun hj => hapart i' hj .refl), hmi]
        cases hc'.readL.symm.trans hmi₂
        cases hc'.readR.symm.trans hmj
        obtain ⟨hini, hinj⟩ := mergeChips_listed hc' hxi hxj hend
        have hmerges := mergeChips_ok hs₂ hx₂ hst hc' hxi hxj hist hjst hend
        have htrue : r.2 = true := by
          obtain ⟨t, -, hend⟩ := bind_eq_ok.1 hend
          cases hend
          rfl
        rw [htrue]
        refine ⟨h₁.merged h hx hst hc h₂ hb₁ hmerges (mergeChips_mem hend), hflat fun hpieces => ?_⟩
        -- a chip that was in pieces is not listed
        rcases hpieces with hp | hp
        · obtain ⟨c, hcr, hcst, -⟩ := h.listed _ _ (h₁.listed _ _ (h₂.listed _ _ hini))
          cases hc.readL.symm.trans hcr
          rw [hcst] at hp
          cases hp
        · obtain ⟨c, hcr, hcst, -⟩ := h.listed _ _ (h₁.listed _ _ (h₂.listed _ _ hinj))
          cases hc.readR.symm.trans hcr
          rw [hcst] at hp
          cases hp
      · rw [if_neg hboth] at hend
        cases hend
        have hbusy := h₁.busy h hx hst hc h₂ hboth
        exact ⟨hbusy, hflat fun _ => not_not.1 fun hnone => Bool.noConfusion (hbusy.free_iff.2 hnone)⟩
    · rw [mergeFree_whole_ok hx hst hrun]
      exact ⟨mergedTo_whole h hx hst, flat_whole h hx hst⟩

/-- While every free chip of the tree is listed and no free node has a chip in pieces, `MergeFree` comes to its end. -/
theorem mergeFree_returns (h : Shape s) (hx : s.nodes.read x = some n) (hfuel : s.nodes.length < fuel + x)
    (hlisted : ∀ y z c, Inside s x y → Child s y z → s.nodes.read z = some c → c.eStatus = .UF_NONE → InSet s.m_poolset c.nLen z)
    (hflat : Flat s x) : Fallible.Returns (mergeFree fuel s x) := by
  induction fuel generalizing s x n with
  | zero =>
    have := Heap.lt_of_read hx
    omega
  | succ fuel ih =>
    by_cases hst : n.eStatus = .UF_ALLOC
    · obtain ⟨i, j, ni, nj, hc, hxi, hxj⟩ := h.forest.cut x n hx hst
      obtain ⟨hapart, hxi', hxj'⟩ := inside_apart h hx hc
      obtain ⟨hfi, hfj, hroot⟩ := (flat_cut hx hc).1 hflat
      -- the first chip
      obtain ⟨⟨s₁, b₁⟩, hr₁⟩ := ih h hc.readL (by omega) (fun y z c hy => hlisted y z c ((inside_cut hx hc).2 (.inr (.inl hy)))) hfi
      have h₁ := (mergeFree_merged h hc.readL hr₁).1
      have hs₁ : Shape s₁ := (mergeFree_merging fuel h hc.readL hr₁).1.keeps Shape (fun _ _ _ _ _ _ _ _ ht hm => ht.merge hm) h
      have hsame := h₁.second h hx hc
      have hlong := h₁.long
      dsimp only at h₁ hlong
      -- the second one
      obtain ⟨⟨s₂, b₂⟩, hr₂⟩ := ih hs₁ ((hsame j .refl).trans hc.readR) (by omega) (fun y z c hy hz hcr hcst => by
        rw [inside_same hsame] at hy
        rw [child_same hsame hy] at hz
        rw [hsame z (hy.tail hz)] at hcr
        exact h₁.kept _ _ (hlisted y z c ((inside_cut hx hc).2 (.inr (.inr hy))) hz hcr hcst)
          fun hi => absurd hi (hapart z (hy.tail hz))) ((flat_same hsame).2 hfj)
      have h₂ := (mergeFree_merged hs₁ ((hsame j .refl).trans hc.readR) hr₂).1
      dsimp only at h₂
      by_cases hboth : b₁ = true ∧ b₂ = true
      · -- both chips are free as they are, and listed
        have hnone : ¬UsedIn s x := by
          rw [usedIn_cut hx hc hst, ← usedIn_same hsame]
          exact not_or.2 ⟨h₁.free_iff.1 hboth.1, h₂.free_iff.1 hboth.2⟩
        have hstatus {k : Nat} {nk : MemNode} (hk : s.nodes.read k = some nk) (hchild : Child s x k)
            (hp : nk.eStatus ≠ .UF_ALLOC) : nk.eStatus = .UF_NONE := by
          cases hk' : nk.eStatus with
          | UF_NONE => rfl
          | UF_USE => exact absurd ⟨k, nk, .single hchild, hk, hk'⟩ hnone
          | UF_ALLOC => exact absurd hk' hp
        have hi := (child_cut hx hc).2 (.inl rfl)
        have hj := (child_cut hx hc).2 (.inr rfl)
        have hist := hstatus hc.readL hi fun hp => hnone (hroot (.inl hp))
        have hjst := hstatus hc.readR hj fun hp => hnone (hroot (.inr hp))
        cases mergeFree_whole_ok hc.readL (by rw [hist]; simp) hr₁
        cases mergeFree_whole_ok hc.readR (by rw [hjst]; simp) hr₂
        obtain ⟨t, ht, -⟩ := mergeChips_merges h hx hst hc hxi hxj hist hjst (hlisted x i ni .refl hi hc.readL hist)
          (hlisted x j nj .refl hj hc.readR hjst)
        refine ⟨(t, true), (mergeFree_pieces hx hst hc).2 ⟨_, _, hr₁, hr₂, ?_⟩⟩
        rw [if_pos hboth, ht]
      · exact ⟨(s₂, false), (mergeFree_pieces hx hst hc).2 ⟨_, _, hr₁, hr₂, if_neg hboth⟩⟩
    · rw [mergeFree, deref_eq hx]
      simp only [bind, Except.bind]
      cases hn : n.eStatus with
      | UF_NONE => exact returns_ok
      | UF_USE => exact returns_ok
      | UF_ALLOC => exact absurd hn hst

/-! ## The blocks in a node -/

/-- The block lies in the node. -/
def BlockIn (e : Int × Nat) (n : MemNode) : Prop := n.pStart ≤ e.1 ∧ e.1 + (e.2 : Int) ≤ n.pStart + n.nLen

instance (e : Int × Nat) (n : MemNode) : Decidable (BlockIn e n) := inferInstanceAs (Decidable (_ ∧ _))

/-- A chip lies in its node. -/
theorem Cut.sub (hc : Cut s.nodes.read n i j ni nj) : Sub ni n ∧ Sub nj n := by
  have hlens := hc.lens
  have hplace := hc.place
  simp only [Sub]
  omega

theorem Shape.sub_inside (h : Shape s) (hx : s.nodes.read x = some n) (hy : Inside s x y) (hm : s.nodes.read y = some m) : Sub m n := by
  induction hy generalizing m with
  | refl =>
    cases hx.symm.trans hm
    exact ⟨le_refl _, le_refl _⟩
  | tail _ hchild ih =>
    obtain ⟨c, hcr, hz⟩ := hchild
    obtain ⟨h₁, h₂⟩ := ih hcr
    have hst : c.eStatus = .UF_ALLOC := by
      by_contra hst
      exact not_chipOf_of_whole h.forest hcr hst hz
    obtain ⟨i, j, ni, nj, hc, -, -⟩ := h.forest.cut _ c hcr hst
    have hsub : Sub m c := by
      rcases hc.chipOf_iff.1 hz with rfl | rfl
      · cases hc.readL.symm.trans hm
        exact hc.sub.1
      · cases hc.readR.symm.trans hm
        exact hc.sub.2
    exact ⟨h₁.trans hsub.1, hsub.2.trans h₂⟩

/-- A used node that is not in a tree is apart from all of it. -/
theorem Counted.apart_tree (h : Counted b s L) (hy : s.nodes.read y = some m) (hm : m.eStatus = .UF_USE)
    (hx : s.nodes.read x = some n) (hout : ¬Inside s x y) : Apart m n := by
  generalize hk : s.nodes.length - x = k
  induction k using Nat.strong_induction_on generalizing x n with
  | h k ih =>
    by_cases hst : n.eStatus = .UF_ALLOC
    · obtain ⟨i, j, ni, nj, hc, hxi, hxj⟩ := h.forest.cut x n hx hst
      rw [inside_cut hx hc, not_or, not_or] at hout
      have hlt := Heap.lt_of_read hx
      have hL := ih _ (by omega) hc.readL hout.2.1 rfl
      have hR := ih _ (by omega) hc.readR hout.2.2 rfl
      have hpos := h.pos hy
      have hlens := hc.lens
      have hplace := hc.place
      simp only [Apart] at hL hR ⊢
      omega
    · exact h.apart hy hm hx hst fun he => hout (he ▸ .refl)

/-- The live blocks that lie in a node are the used nodes of its tree. -/
theorem Counted.blockIn_iff (h : Counted b s L) (hx : s.nodes.read x = some n) : (∃ e ∈ L, BlockIn e n) ↔ UsedIn s x := by
  refine ⟨?_, ?_⟩
  · rintro ⟨e, he, h₁, h₂⟩
    obtain ⟨y, c, hr, hc, hlen⟩ := h.live e.1 e.2 he
    obtain ⟨d, hd, hused, hp⟩ := h.recorded e.1 y hr
    cases hc.symm.trans hd
    refine ⟨y, c, ?_, hc, hused⟩
    by_contra hout
    have hapart := h.apart_tree hc hused hx hout
    have hpos := h.pos hc
    have hle : 0 < e.2 := by
      by_contra hzero
      rw [Nat.eq_zero_of_not_pos hzero] at hlen
      exact absurd hpos (by rw [hlen]; decide)
    simp only [Apart] at hapart
    omega
  · rintro ⟨y, m, hy, hm, hst⟩
    obtain ⟨len, hlen, hround⟩ := h.used y m hm hst
    obtain ⟨h₁, h₂⟩ := h.toShape.sub_inside hx hy hm
    have := le_getCorrectLessChipLen len
    exact ⟨_, hlen, h₁, by simp only; omega⟩

/-! ## Runs -/

/-- `MergeFree` of the node `n` at `x` came to its end, and did what it should: it says whether no live block lies in the node;
if so, the node is free and whole, and just the chips of its tree have left the free list; and no live block has changed. -/
structure MergesSoundly (s : MemPool) (L : Blocks) (x : Nat) (n : MemNode) (s' : MemPool) (free : Bool) : Prop where
  free_iff : free = true ↔ ¬∃ e ∈ L, BlockIn e n
  whole : free = true → ∃ m, s'.nodes.read x = some m ∧ m.eStatus = .UF_NONE ∧ m.mChips = .empty
  set : free = true → ∀ k y, InSet s'.m_poolset k y ↔ InSet s.m_poolset k y ∧ ¬(y ≠ x ∧ Inside s x y)
  live : ∀ e ∈ L, ∀ y, (e.1, y) ∈ s.m_record → (e.1, y) ∈ s'.m_record ∧ s'.nodes.read y = s.nodes.read y
  contents : s'.mem = s.mem

theorem MergedTo.sound (h : Counted b s L) (hx : s.nodes.read x = some n) (hm : MergedTo s s' x free) : MergesSoundly s L x n s' free where
  free_iff := by rw [hm.free_iff, h.blockIn_iff hx]
  whole hfree := (hm.whole hfree).1
  set hfree k y := by
    refine ⟨?_, ?_⟩
    · exact fun hy => ⟨hm.listed k y hy, fun hout => (hm.whole hfree).2 k y hout.2 hout.1 hy⟩
    · exact fun ⟨hy, hout⟩ => hm.kept k y hy fun hin => not_not.1 fun hne => hout ⟨hne, hin⟩
  live e he y hr := by
    obtain ⟨c, hc, hused, -⟩ := h.recorded e.1 y hr
    exact ⟨hm.record.symm ▸ hr, (hm.used y c hc hused).trans hc.symm⟩
  contents := hm.mem

/-- In every state that orderly steps reach, `MergeFree` of any node is sound just when no node below which nothing is used has a
chip in pieces. -/
theorem mergeFree_sound_iff {m₀ : Mem} {actions : List Action} {c : Client} (hs : init m₀ b = .ok s)
    (h : Along step (fun c a => Allowed c a ∧ Steady b c a ∧ Orderly c a) ⟨s, []⟩ actions) (hrun : actions.foldlM step ⟨s, []⟩ = .ok c)
    (hx : c.pool.nodes.read x = some n) :
    (∃ s' free, mergeFree c.pool.depth c.pool x = .ok (s', free) ∧ MergesSoundly c.pool c.live x n s' free) ↔ Flat c.pool x := by
  obtain ⟨hcounted, htidy, -⟩ := h.keeps (fun c => Counted b c.pool c.live ∧ Tidy c.pool ∧ c.pool.m_lock = false) hrun
    ⟨(init_counted hs).1, init_tidy hs⟩ fun c a c' hc ha hstep =>
      ⟨(step_counted hc.1 hc.2.2 ha.1 ha.2.1 hstep).1, step_tidy hc.2.1 hc.2.2 ha.2.2 hstep⟩
  refine ⟨?_, ?_⟩
  · intro ⟨s', free, hmerge, _⟩
    exact (mergeFree_merged hcounted.toShape hx hmerge).2
  · intro hflat
    have hfuel : c.pool.nodes.length < c.pool.depth + x := by
      rw [depth]
      omega
    obtain ⟨⟨s', free⟩, hmerge⟩ := mergeFree_returns hcounted.toShape hx hfuel
      (fun y z d _ hz hd hst => by
        obtain ⟨e, he, hze⟩ := hz
        exact htidy.chips y e z d he hze hd hst) hflat
    exact ⟨s', free, hmerge, (mergeFree_merged hcounted.toShape hx hmerge).1.sound hcounted hx⟩

/-- A block of 24 bytes of a node of 32, given back: the two chips are merged. -/
theorem mergeFree_sound_iff_two : ∃ s, init (fun _ => 0) 1000 = .ok s ∧
    ∃ c n, [Action.alloc 24 5000, .free 1128].foldlM step ⟨s, []⟩ = .ok c ∧ c.pool.nodes.read 16 = some n ∧
      ((∃ s' free, mergeFree c.pool.depth c.pool 16 = .ok (s', free) ∧ MergesSoundly c.pool c.live 16 n s' free) ↔ Flat c.pool 16) := by
  have hrun : ∃ s, init (fun _ => 0) 1000 = .ok s ∧ Along step (fun c a => Allowed c a ∧ Steady 1000 c a ∧ Orderly c a) ⟨s, []⟩
        [Action.alloc 24 5000, .free 1128] ∧
      ∃ c, [Action.alloc 24 5000, .free 1128].foldlM step ⟨s, []⟩ = .ok c ∧ ∃ n, c.pool.nodes.read 16 = some n ∧
        n.eStatus = .UF_ALLOC := by decide +kernel
  obtain ⟨s, hs, h, c, hc, n, hn, -⟩ := hrun
  exact ⟨s, hs, c, n, hc, hn, mergeFree_sound_iff hs h hc hn⟩

/-- A block of 24 bytes, and one of 5 in the rest of the node, both given back: the rest is merged, and is looked for in the free
list when the node is. -/
theorem not_mergeFree_sound_nested : ¬∀ (m₀ : Mem) (b : Int) (s : MemPool) (actions : List Action) (c : Client) (x : Nat)
    (n : MemNode), init m₀ b = .ok s → (∀ a ∈ actions, (∃ len sys, a = .alloc len sys) ∨ ∃ p, a = .free p) →
    Along step Allowed ⟨s, []⟩ actions → actions.foldlM step ⟨s, []⟩ = .ok c → c.pool.nodes.read x = some n →
      ∃ s' free, mergeFree c.pool.depth c.pool x = .ok (s', free) ∧ MergesSoundly c.pool c.live x n s' free := by
  intro h
  have hrun : ∃ s, init (fun _ => 0) 1000 = .ok s ∧
      Along step Allowed ⟨s, []⟩ [.alloc 24 5000, .alloc 5 5000, .free 1152, .free 1128] ∧
      ∃ c, [Action.alloc 24 5000, .alloc 5 5000, .free 1152, .free 1128].foldlM step ⟨s, []⟩ = .ok c ∧
        ∃ n, c.pool.nodes.read 16 = some n ∧ ∀ r, mergeFree c.pool.depth c.pool 16 = .ok r → False := by
    decide +kernel
  obtain ⟨s, hs, hal, c, hc, n, hn, hnot⟩ := hrun
  obtain ⟨s', free, hmerge, -⟩ := h _ _ s _ c 16 n hs (by simp) hal hc hn
  exact hnot _ hmerge

end MemPool
