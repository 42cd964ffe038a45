/-
What `GetRemain` counts, in the states that `Alloc`, `Free` and the sweep
reach: the bytes of a node that no live block has. The chips of a node in
pieces cover it exactly.

The last 32 bytes of the first buffer have two nodes (`Twin`): neither may be
handed out, or the other one counts bytes that are not free. And `Init` lays
32 bytes past the buffer, so that memory must not come from `malloc` again.
-/
import XFramework.Mem.MemPoolRun
import XFramework.Lib.Span

open Fallible Bytes

namespace MemPool

variable {s s' t : MemPool} {L : Blocks} {n n' ni nj : MemNode} {x y i j k len lo : Nat} {sys p b : Int}

/-! ## Free bytes -/

/-- A live block has the byte at `a`. A block is as long as what was asked for, rounded up. -/
def Held (L : Blocks) (a : Int) : Prop := ∃ e ∈ L, e.1 ≤ a ∧ a < e.1 + getCorrectLessChipLen e.2

instance (L : Blocks) (a : Int) : Decidable (Held L a) := inferInstanceAs (Decidable (∃ e ∈ L, _))

/-- How many of `k` bytes no live block has. -/
def freeBytes (L : Blocks) (p : Int) (k : Nat) : Nat := (List.range k).countP fun i : Nat => ¬Held L (p + i)

theorem freeBytes_add (L : Blocks) (p : Int) (k k' : Nat) :
    freeBytes L p (k + k') = freeBytes L p k + freeBytes L (p + k) k' := by
  rw [freeBytes, List.range_add, List.countP_append, List.countP_map, freeBytes, freeBytes]
  congr 2
  funext i
  simp only [Function.comp, Int.natCast_add, Int.add_assoc]

theorem freeBytes_none (h : ∀ i < k, Held L (p + (i : Nat))) : freeBytes L p k = 0 := by
  refine List.countP_eq_zero.2 fun i hi => ?_
  simpa using h i (List.mem_range.1 hi)

theorem freeBytes_all (h : ∀ i < k, ¬Held L (p + (i : Nat))) : freeBytes L p k = k := by
  refine (List.countP_eq_length.2 fun i hi => ?_).trans List.length_range
  simpa using h i (List.mem_range.1 hi)

/-- The bytes of the chips of a node. -/
def chipSpans (s : MemPool) (n : MemNode) : List Span :=
  n.mChips.entries.filterMap fun e => (s.nodes.read e.2).map fun c => (c.pStart, (c.nLen : Int))

/-- The chips cover the node and nothing else, each byte once. -/
structure Tiles (s : MemPool) (n : MemNode) : Prop where
  keys : ∀ e ∈ n.mChips.entries, (s.nodes.read e.2).map (·.nLen) = some e.1
  apart : (chipSpans s n).Pairwise Span.Apart
  covers : ∀ a, Span.Covers (chipSpans s n) a ↔ Span.Has (n.pStart, (n.nLen : Int)) a

theorem Cut.tiles (h : Cut s.nodes.read n i j ni nj) : Tiles s n := by
  have hspans : chipSpans s n = [(ni.pStart, (ni.nLen : Int)), (nj.pStart, (nj.nLen : Int))] := by
    simp only [chipSpans, h.chips, List.filterMap_cons, List.filterMap_nil, h.readL, h.readR, Option.map_some]
  have hlens := h.lens
  have hplace := h.place
  refine ⟨fun e he => ?keys, ?apart, fun a => ?covers⟩
  case keys =>
    rw [h.chips, List.mem_cons, List.mem_singleton] at he
    rcases he with rfl | rfl
    · rw [h.readL, Option.map_some]
    · rw [h.readR, Option.map_some]
  case apart =>
    rw [hspans, List.pairwise_pair, Span.Apart]
    dsimp only
    omega
  case covers =>
    rw [hspans, Span.covers_cons, Span.covers_cons]
    simp only [Span.covers_nil, or_false, Span.Has]
    omega

/-- The trees conserve memory. -/
structure Conserves (s : MemPool) (L : Blocks) : Prop where
  tiles : ∀ id n, s.nodes.read id = some n → n.eStatus = .UF_ALLOC → Tiles s n
  whole : ∀ id n, s.nodes.read id = some n → n.eStatus = .UF_NONE ∨ n.eStatus = .UF_USE → n.mChips = .empty
  remain : ∀ id n, s.nodes.read id = some n → getRemain s s.depth id = .ok (freeBytes L n.pStart n.nLen)

/-! ## The invariant -/

/-- The two nodes of the last 32 bytes of the first buffer. -/
def Twin (id : Nat) : Prop := id = 17 ∨ id = 26

instance (id : Nat) : Decidable (Twin id) := inferInstanceAs (Decidable (_ ∨ _))

/-- The memory with nodes: the buffers, and what `Init` has laid past the first one at `b`. -/
def laidBuffers (b : Int) (s : MemPool) : List OriginalNode := ⟨32, b + 192⟩ :: s.m_OriginalBuffer

/-- But for the twins the nodes lie apart; the used nodes are the live blocks. -/
structure Counted (b : Int) (s : MemPool) (L : Blocks) : Prop extends Shape s where
  placed : ∀ t, Twin t → Placed (· = t) s.nodes.read (laidBuffers b s)
  twins : ∀ t, Twin t → ∃ n, s.nodes.read t = some n ∧ n.eStatus = .UF_NONE
  many : 27 ≤ s.nodes.length
  live : ∀ p len, (p, len) ∈ L → ∃ x n, (p, x) ∈ s.m_record ∧ s.nodes.read x = some n ∧ n.nLen = getCorrectLessChipLen len
  used : ∀ x n, s.nodes.read x = some n → n.eStatus = .UF_USE →
    ∃ len, (n.pStart, len) ∈ L ∧ n.nLen = getCorrectLessChipLen len

theorem Counted.not_twin (h : Counted b s L) (hx : s.nodes.read x = some n) (hn : n.eStatus ≠ .UF_NONE) : ¬Twin x := by
  intro ht
  obtain ⟨c, hc, hst⟩ := h.twins x ht
  exact ne_of_status hx hc (by rw [hst]; exact hn) rfl

/-- A used node is apart from every other one that is not in pieces. -/
theorem Counted.apart (h : Counted b s L) (hx : s.nodes.read x = some n) (hn : n.eStatus = .UF_USE)
    (hy : s.nodes.read y = some n') (hn' : n'.eStatus ≠ .UF_ALLOC) (hne : x ≠ y) : Apart n n' := by
  have htwin := h.not_twin hx (by rw [hn]; simp)
  rw [Twin, not_or] at htwin
  by_cases hy17 : y = 17
  · exact (h.placed 26 (.inr rfl)).apart x y n n' hx hy (by rw [hn]; simp) hn' htwin.2 (by omega) hne
  · exact (h.placed 17 (.inl rfl)).apart x y n n' hx hy (by rw [hn]; simp) hn' htwin.1 hy17 hne

theorem Counted.pos (h : Counted b s L) (hx : s.nodes.read x = some n) : 0 < n.nLen := (h.placed 17 (.inl rfl)).pos x n hx

/-- Two used nodes, or a used and a free one, do not start at one address. -/
theorem Counted.start_ne (h : Counted b s L) (hx : s.nodes.read x = some n) (hn : n.eStatus = .UF_USE)
    (hy : s.nodes.read y = some n') (hn' : n'.eStatus ≠ .UF_ALLOC) (hne : x ≠ y) : n.pStart ≠ n'.pStart := by
  have := h.apart hx hn hy hn' hne
  have h₁ := h.pos hx
  have h₂ := h.pos hy
  simp only [Apart] at this
  omega

/-- The record of a new block finds its address free. -/
theorem Counted.mem_record (h : Counted b s L) (hx : s.nodes.read x = some n) (hn : n.eStatus = .UF_NONE) {e : Int × Nat} :
    e ∈ s.m_record.insert n.pStart k ↔ e ∈ s.m_record ∨ e = (n.pStart, k) := by
  refine StdMap.mem_insert_new fun f hf => ?_
  obtain ⟨c, hc, hst, hp⟩ := h.recorded f.1 f.2 hf
  rw [← hp]
  exact h.start_ne hc hst hx (by rw [hn]; simp) (ne_of_status hc hx (by rw [hst, hn]; simp))

/-! ## Handing out and taking back -/

theorem Counted.hand_whole (h : Counted b s L) (hm : HandsWhole s s' x n) (hx : ¬Twin x)
    (hlen : n.nLen = getCorrectLessChipLen len) : Counted b s' ((n.pStart, len) :: L) := by
  have hnew := fun e => h.mem_record (k := x) (e := e) hm.read hm.free
  refine ⟨h.toShape.hand_whole hm, ?placed, ?twins, ?many, ?live, ?used⟩
  case placed =>
    intro t ht
    rw [laidBuffers, hm.bufs]
    exact (h.placed t ht).of_same (hm.sameShapes (by rw [hm.free]; simp) (by simp))
  case twins =>
    intro t ht
    rw [hm.other fun he => hx (he ▸ ht)]
    exact h.twins t ht
  case many =>
    rw [hm.nodes, Heap.length_write]
    exact h.many
  case live =>
    intro q l hq
    cases hq with
    | head => exact ⟨x, _, hm.record ▸ (hnew _).2 (.inr rfl), hm.self, hlen⟩
    | tail _ hq =>
      obtain ⟨y, c, hr, hc, hl⟩ := h.live q l hq
      obtain ⟨d, hd, hst, -⟩ := h.recorded q y hr
      have hyx : y ≠ x := ne_of_status hd hm.read (by rw [hst, hm.free]; simp)
      exact ⟨y, c, hm.record ▸ (hnew _).2 (.inl hr), (hm.other hyx).trans hc, hl⟩
  case used =>
    intro y c hc hst
    by_cases hyx : y = x
    · rw [hyx, hm.self] at hc
      cases hc
      exact ⟨len, List.mem_cons_self, hlen⟩
    · rw [hm.other hyx] at hc
      obtain ⟨l, hl, hlen'⟩ := h.used y c hc hst
      exact ⟨l, List.mem_cons_of_mem _ hl, hlen'⟩

theorem Counted.hand_front (h : Counted b s L) (hm : HandsFront s s' x (getCorrectLessChipLen len) n n') (hx : ¬Twin x)
    (hpos : 0 < getCorrectLessChipLen len) : Counted b s' ((n.pStart, len) :: L) := by
  have hnew := fun e => h.mem_record (k := s.nodes.length) (e := e) hm.read hm.free
  refine ⟨h.toShape.hand_front hm, ?placed, ?twins, ?many, ?live, ?used⟩
  case placed =>
    intro t ht
    rw [laidBuffers, hm.bufs]
    exact (h.placed t ht).split hm.split hm.read (by rw [hm.free]; simp) (fun he => hx (he ▸ ht)) hpos hm.lt hm.ne h.many
      (h.many.trans (Nat.le_succ _))
  case twins =>
    intro t ht
    obtain ⟨c, hc, hst⟩ := h.twins t ht
    exact ⟨c, hm.other (fun he => hx (he ▸ ht)) hc, hst⟩
  case many =>
    rw [hm.long]
    exact h.many.trans (Nat.le_add_right _ _)
  case live =>
    intro q l hq
    cases hq with
    | head => exact ⟨_, _, hm.record ▸ (hnew _).2 (.inr rfl), hm.reads.2.1, rfl⟩
    | tail _ hq =>
      obtain ⟨y, c, hr, hc, hl⟩ := h.live q l hq
      obtain ⟨d, hd, hst, -⟩ := h.recorded q y hr
      have hyx : y ≠ x := ne_of_status hd hm.read (by rw [hst, hm.free]; simp)
      exact ⟨y, c, hm.record ▸ (hnew _).2 (.inl hr), hm.other hyx hc, hl⟩
  case used =>
    intro y c hc hst
    rcases hm.split.cases_of hc with ⟨-, rfl⟩ | ⟨-, rfl⟩ | ⟨-, rfl⟩ | ⟨-, -, -, hc⟩
    · rw [hm.split.status] at hst
      cases hst
    · exact ⟨len, List.mem_cons_self, rfl⟩
    · cases hst
    · obtain ⟨l, hl, hlen'⟩ := h.used y c hc hst
      exact ⟨l, List.mem_cons_of_mem _ hl, hlen'⟩

theorem Counted.give (h : Counted b s L) (hm : Gives s s' p x n) : Counted b s' (without L p) := by
  obtain ⟨hst, hp⟩ := hm.used h.toShape
  have htwin := h.not_twin hm.read (by rw [hst]; simp)
  refine ⟨h.toShape.give hm, ?placed, ?twins, ?many, ?live, ?used⟩
  case placed =>
    intro t ht
    rw [laidBuffers, hm.bufs]
    exact (h.placed t ht).of_same (hm.sameShapes (by rw [hst]; simp) (by simp))
  case twins =>
    intro t ht
    rw [hm.other fun he => htwin (he ▸ ht)]
    exact h.twins t ht
  case many =>
    rw [hm.nodes, Heap.length_write]
    exact h.many
  case live =>
    intro q l hq
    rw [without, List.mem_filter] at hq
    obtain ⟨hq, hqp⟩ := hq
    obtain ⟨y, c, hr, hc, hl⟩ := h.live q l hq
    have hqp : q ≠ p := by simpa using hqp
    have hyx : y ≠ x := by
      intro he
      obtain ⟨d, hd, -, hdq⟩ := h.recorded q y hr
      rw [he, hm.read] at hd
      cases hd
      exact hqp (hdq.symm.trans hp)
    exact ⟨y, c, hm.record ▸ StdMap.mem_erase.2 ⟨hr, hqp⟩, (hm.other hyx).trans hc, hl⟩
  case used =>
    intro y c hc hyst
    have hyx : y ≠ x := ne_of_status hc hm.self (by rw [hyst]; simp)
    rw [hm.other hyx] at hc
    obtain ⟨l, hl, hlen⟩ := h.used y c hc hyst
    have hne : c.pStart ≠ p := hp ▸ h.start_ne hc hyst hm.read (by rw [hst]; simp) hyx
    exact ⟨l, List.mem_filter.2 ⟨hl, by simpa using hne⟩, hlen⟩

/-- `malloc` returns memory that has no node. -/
def Unlaid (b : Int) (s : MemPool) (len : Nat) (sys : Int) : Prop :=
  ∀ o ∈ laidBuffers b s, o.pOriStart + o.len ≤ sys ∨ sys + (len : Int) ≤ o.pOriStart

instance (b : Int) (s : MemPool) (len : Nat) (sys : Int) : Decidable (Unlaid b s len sys) :=
  inferInstanceAs (Decidable (∀ o ∈ _, _))

theorem Counted.lengthen {theLen : Nat} (h : Counted b s L) (hm : Lengthened s s' theLen sys) (hfresh : Unlaid b s theLen sys) :
    Counted b s' L := by
  rcases hm with rfl | ⟨hlong, hm⟩
  · exact h
  · have hat := hm.addAt
    refine ⟨h.toShape.add hm, ?placed, ?twins, ?many, ?live, ?used⟩
    case placed =>
      intro t ht
      rw [laidBuffers, hm.bufs]
      exact (h.placed t ht).add hat (Nat.zero_lt_of_lt hlong) hfresh
    case twins =>
      intro t ht
      obtain ⟨c, hc, hst⟩ := h.twins t ht
      exact ⟨c, hat.keep hc, hst⟩
    case many =>
      rw [hm.nodes, Heap.length_new]
      exact h.many.trans (Nat.le_succ _)
    case live =>
      intro q l hq
      obtain ⟨y, c, hr, hc, hl⟩ := h.live q l hq
      exact ⟨y, c, hm.record ▸ hr, hat.keep hc, hl⟩
    case used =>
      intro y c hc hst
      rcases hat.cases_of hc with ⟨-, rfl⟩ | ⟨-, hc⟩
      · cases hst
      · exact h.used y c hc hst

theorem Counted.hand (h : Counted b s L) (hm : Hands s s' x n (getCorrectLessChipLen len)) (hx : ¬Twin x)
    (hpos : 0 < getCorrectLessChipLen len) : Counted b s' ((n.pStart, len) :: L) := by
  cases hm with
  | whole hm hlen => exact h.hand_whole hm hx hlen
  | front n' hm => exact h.hand_front hm hx hpos

theorem Counted.took (h : Counted b s L) (hm : Took s s' x n (getCorrectLessChipLen len) sys) (hx : ¬Twin x)
    (hpos : 0 < getCorrectLessChipLen len) (hfresh : Unlaid b s (getCorrectLessChipLen len) sys) :
    Counted b s' ((n.pStart, len) :: L) := by
  cases hm with
  | after t hand long =>
    refine (h.hand hand hx hpos).lengthen long ?_
    rw [Unlaid, laidBuffers, hand.bufs]
    exact hfresh
  | before t long hand => exact (h.lengthen long hfresh).hand hand hx hpos

/-! ## The sweep -/

theorem Counted.merge (h : Counted b s L) (hm : Merges s s' x i j n ni nj) : Counted b s' L := by
  have htwin := h.not_twin hm.node (by rw [hm.split]; simp)
  have hlate : ∀ y, ChipOf y n → 27 ≤ y := fun y => (h.placed 17 (.inl rfl)).late x n y hm.node
  have hearly : ∀ t, Twin t → t < 27 := by
    intro t ht
    rw [Twin] at ht
    omega
  refine ⟨h.toShape.merge hm, ?placed, ?twins, ?many, ?live, ?used⟩
  case placed =>
    intro t ht
    rw [laidBuffers, hm.bufs]
    exact (h.placed t ht).merge (fun y hy => hy ▸ hearly t ht) hm.read hm.node (fun he => htwin (he ▸ ht)) hm.cut
      (by rw [hm.freeL]; simp) (by rw [hm.freeR]; simp)
  case twins =>
    intro t ht
    have h₁ := hlate i (hm.cut.chipOf_iff.2 (.inl rfl))
    have h₂ := hlate j (hm.cut.chipOf_iff.2 (.inr rfl))
    have h₃ := hearly t ht
    rw [hm.other (fun he => htwin (he ▸ ht)) (by omega) (by omega)]
    exact h.twins t ht
  case many =>
    rw [hm.long]
    exact h.many
  case live =>
    intro q l hq
    obtain ⟨y, c, hr, hc, hl⟩ := h.live q l hq
    obtain ⟨d, hd, hst, -⟩ := h.recorded q y hr
    rw [hc] at hd
    cases hd
    exact ⟨y, c, hm.record ▸ hr, hm.used_keep hc hst, hl⟩
  case used =>
    intro y c hc hst
    rcases hm.read.cases_of hc with ⟨-, rfl⟩ | ⟨-, -, -, hc⟩
    · cases hst
    · exact h.used y c hc hst

/-- Merges one after another, of nodes from `lo` on. -/
inductive Merging (lo : Nat) : MemPool → MemPool → Prop
  | refl (s : MemPool) : Merging lo s s
  | step {s t s' : MemPool} {x i j : Nat} {n ni nj : MemNode} (h : Merging lo s t) (hx : lo ≤ x)
      (hm : Merges t s' x i j n ni nj) : Merging lo s s'

theorem Merging.trans (h : Merging lo s t) {k : Nat} (hk : lo ≤ k) (h' : Merging k t s') : Merging lo s s' := by
  induction h' with
  | refl => exact h
  | step _ hx hm ih => exact .step ih (hk.trans hx) hm

theorem Merging.keeps (J : MemPool → Prop) (hJ : ∀ t t' x i j n ni nj, J t → Merges t t' x i j n ni nj → J t')
    (h : Merging lo s s') (hs : J s) : J s' := by
  induction h with
  | refl => exact hs
  | step _ _ hm ih => exact hJ _ _ _ _ _ _ _ _ ih hm

/-- No node from `lo` on has the chip `x`. -/
def Outside (s : MemPool) (lo x : Nat) : Prop := ∀ y m, s.nodes.read y = some m → ChipOf x m → y < lo

/-- Such a node stays, and as it was unless it is in pieces itself. -/
theorem Merging.outside (h : Merging lo s s') (hx : s.nodes.read x = some n) (hout : Outside s lo x) :
    Outside s' lo x ∧ (∃ m, s'.nodes.read x = some m) ∧ (n.eStatus ≠ .UF_ALLOC ∨ x < lo → s'.nodes.read x = some n) := by
  induction h with
  | refl => exact ⟨hout, ⟨n, hx⟩, fun _ => hx⟩
  | step h hy hm ih =>
    rename_i y i j m ni nj
    obtain ⟨hout', ⟨c, hc⟩, hkeep⟩ := ih
    have hxi : x ≠ i := fun he => absurd (hout' y m hm.node (hm.cut.chipOf_iff.2 (.inl he))) (Nat.not_lt.2 hy)
    have hxj : x ≠ j := fun he => absurd (hout' y m hm.node (hm.cut.chipOf_iff.2 (.inr he))) (Nat.not_lt.2 hy)
    refine ⟨fun z d hd hz => ?_, ?_, fun hstay => ?_⟩
    · rcases hm.read.cases_of hd with ⟨-, rfl⟩ | ⟨-, -, -, hd⟩
      · exact absurd hz (not_chip_of_empty rfl)
      · exact hout' z d hd hz
    · by_cases hxy : x = y
      · exact ⟨_, hxy ▸ hm.self⟩
      · exact ⟨c, (hm.other hxy hxi hxj).trans hc⟩
    · have hread := hkeep hstay
      have hxy : x ≠ y := by
        intro he
        rw [he, hm.node] at hread
        cases hread
        rcases hstay with hst | hlt
        · exact hst hm.split
        · omega
      exact (hm.other hxy hxi hxj).trans hread

theorem unlist_ok (hx : s.nodes.read x = some n) (hrun : unlist s x = .ok t) :
    InSet s.m_poolset n.nLen x ∧ ∃ set, t = { s with m_poolset := set } ∧ ∀ k y, InSet set k y → InSet s.m_poolset k y := by
  rw [unlist, deref_eq hx] at hrun
  simp only [bind, Except.bind] at hrun
  cases hfind : s.m_poolset.find? n.nLen with
  | none =>
    rw [hfind] at hrun
    cases hrun
  | some l =>
    have hl := StdMap.find?_eq_some.1 hfind
    rw [hfind] at hrun
    dsimp only at hrun
    split_ifs at hrun with hmem
    cases hrun
    refine ⟨⟨l, hl, hmem⟩, _, rfl, fun k y hy => ?_⟩
    rw [inSet_set hl] at hy
    rcases hy with ⟨-, hy⟩ | ⟨rfl, hy⟩
    · exact hy
    · exact ⟨l, hl, List.mem_of_mem_erase hy⟩

/-- Chips that are merged were listed. -/
theorem mergeChips_listed {r : MemPool × Bool} (hc : Cut s.nodes.read n i j ni nj) (hxi : x < i) (hxj : x < j)
    (hrun : mergeChips s x n = .ok r) : InSet s.m_poolset ni.nLen i ∧ InSet s.m_poolset nj.nLen j := by
  have hread : ∀ y, y ≠ x → (setNode s x { n with eStatus := .UF_NONE }).nodes.read y = s.nodes.read y :=
    fun y hy => Heap.read_write_other hy
  obtain ⟨t, ht, -⟩ := bind_eq_ok.1 hrun
  rw [hc.chips] at ht
  obtain ⟨t₁, h₁, ht⟩ := foldlM_cons_ok.1 ht
  obtain ⟨t₂, h₂, -⟩ := foldlM_cons_ok.1 ht
  obtain ⟨hini, set, rfl, hsub⟩ := unlist_ok ((hread i (Nat.ne_of_gt hxi)).trans hc.readL) h₁
  obtain ⟨hinj, -⟩ := unlist_ok (s := { setNode s x { n with eStatus := .UF_NONE } with m_poolset := set })
    ((hread j (Nat.ne_of_gt hxj)).trans hc.readR) h₂
  exact ⟨hini, hsub _ _ hinj⟩

theorem mergeChips_ok {r : MemPool × Bool} (h : Shape s) (hx : s.nodes.read x = some n) (hst : n.eStatus = .UF_ALLOC)
    (hc : Cut s.nodes.read n i j ni nj) (hxi : x < i) (hxj : x < j) (hi : ni.eStatus = .UF_NONE) (hj : nj.eStatus = .UF_NONE)
    (hrun : mergeChips s x n = .ok r) : Merges s r.1 x i j n ni nj := by
  obtain ⟨hini, hinj⟩ := mergeChips_listed hc hxi hxj hrun
  obtain ⟨s', hrun', hm⟩ := mergeChips_merges h hx hst hc hxi hxj hi hj hini hinj
  cases hrun.symm.trans hrun'
  exact hm

/-- `MergeFree` that comes to its end has merged nodes of its tree; it says true when the node is free then. -/
theorem mergeFree_merging (fuel : Nat) {r : MemPool × Bool} (h : Shape s) (hx : s.nodes.read x = some n)
    (hrun : mergeFree fuel s x = .ok r) :
    Merging x s r.1 ∧ (r.2 = true → ∃ m, r.1.nodes.read x = some m ∧ m.eStatus = .UF_NONE) := by
  induction fuel generalizing s x n r with
  | zero => cases hrun
  | succ fuel ih =>
    by_cases hst : n.eStatus = .UF_ALLOC
    · obtain ⟨i, j, ni, nj, hc, hxi, hxj⟩ := h.forest.cut x n hx hst
      have hparent : ∀ z, z = i ∨ z = j → ∀ s', Shape s' → s'.nodes.read x = some n → ∀ lo, x < lo → Outside s' lo z := by
        intro z hz s' hs' hx' lo hlo y m hm hym
        rw [hs'.forest.parent y x m n z hm hx' hym (hc.chipOf_iff.2 hz)]
        exact hlo
      have hroot : ∀ s', Shape s' → ∀ lo, x ≤ lo → Outside s' lo x :=
        fun s' hs' lo hlo y m hm hym => Nat.lt_of_lt_of_le (hs'.standing.chips y m x hm hym).1 hlo
      obtain ⟨⟨s₁, b₁⟩, ⟨s₂, b₂⟩, hr₁, hr₂, hend⟩ := (mergeFree_pieces hx hst hc).1 hrun
      -- the first chip
      obtain ⟨hm₁, hfree₁⟩ := ih h hc.readL hr₁
      have hs₁ : Shape s₁ := hm₁.keeps Shape (fun _ _ _ _ _ _ _ _ ht hm => ht.merge hm) h
      have hx₁ : s₁.nodes.read x = some n := (hm₁.outside hx (hroot s h i hxi.le)).2.2 (.inr hxi)
      obtain ⟨nj₁, hj₁⟩ := (hm₁.outside hc.readR (hparent j (.inr rfl) s h hx i hxi)).2.1
      -- the second one
      obtain ⟨hm₂, hfree₂⟩ := ih hs₁ hj₁ hr₂
      have hs₂ : Shape s₂ := hm₂.keeps Shape (fun _ _ _ _ _ _ _ _ ht hm => ht.merge hm) hs₁
      have hx₂ : s₂.nodes.read x = some n := (hm₂.outside hx₁ (hroot s₁ hs₁ j hxj.le)).2.2 (.inr hxj)
      have hm : Merging x s s₂ := (Merging.trans (.refl s) hxi.le hm₁).trans hxj.le hm₂
      by_cases hboth : b₁ = true ∧ b₂ = true
      · rw [if_pos hboth] at hend
        obtain ⟨rfl, rfl⟩ := hboth
        obtain ⟨ni₁, hi₁, hist⟩ := hfree₁ rfl
        obtain ⟨nj₂, hj₂, hjst⟩ := hfree₂ rfl
        have hi₂ : s₂.nodes.read i = some ni₁ :=
          (hm₂.outside hi₁ (hparent i (.inl rfl) s₁ hs₁ hx₁ j hxj)).2.2 (.inl (by rw [hist]; simp))
        obtain ⟨i', j', ni', nj', hc', -, -⟩ := hs₂.forest.cut x n hx₂ hst
        have hchips := hc'.chips.symm.trans hc.chips
        simp only [List.cons.injEq, Prod.mk.injEq, and_true] at hchips
        obtain ⟨⟨-, rfl⟩, -, rfl⟩ := hchips
        cases hc'.readL.symm.trans hi₂
        cases hc'.readR.symm.trans hj₂
        have hmerges := mergeChips_ok hs₂ hx₂ hst hc' hxi hxj hist hjst hend
        exact ⟨.step hm (le_refl x) hmerges, fun _ => ⟨_, hmerges.self, rfl⟩⟩
      · rw [if_neg hboth] at hend
        cases hend
        exact ⟨hm, nofun⟩
    · cases (mergeFree_whole fuel hx hst).symm.trans hrun
      exact ⟨.refl s, fun hfree => ⟨n, hx, of_decide_eq_true hfree⟩⟩

theorem Counted.congr (h : Counted b s L) (hn : s'.nodes = s.nodes) (hset : s'.m_poolset = s.m_poolset)
    (hp : s'.m_pools = s.m_pools) (hr : s'.m_record = s.m_record) (hb : s'.m_OriginalBuffer = s.m_OriginalBuffer) :
    Counted b s' L := by
  cases s
  cases s'
  cases hn
  cases hset
  cases hp
  cases hr
  cases hb
  exact ⟨⟨h.forest, h.listed, h.nodup, h.recorded, h.roots⟩, h.placed, h.twins, h.many, h.live, h.used⟩

theorem Counted.sweep (h : Counted b s L) (hl : s.m_lock = false) (hr : sweep s = .ok s') :
    Counted b s' L ∧ s'.m_lock = false := by
  obtain ⟨s₀, hs₀, hr⟩ := bind_eq_ok.1 hr
  cases (lock_eq hl).symm.trans hs₀
  obtain ⟨t, ht, hr⟩ := bind_eq_ok.1 hr
  cases hr
  have hkept := foldlM_run (fun t : MemPool => Counted b t L ∧ t.m_pools = s.m_pools) ht ⟨h.congr rfl rfl rfl rfl rfl, rfl⟩
    fun u v id hid ⟨hu, hpu⟩ hstep => by
      obtain ⟨r, hrun, hv⟩ := bind_eq_ok.1 hstep
      cases hv
      obtain ⟨e, he, hid⟩ := List.mem_flatMap.1 hid
      obtain ⟨⟨n, hn⟩, -⟩ := hu.roots e.1 id ⟨e.2, hpu.symm ▸ he, hid⟩
      obtain ⟨hm, -⟩ := mergeFree_merging _ hu.toShape hn hrun
      exact hm.keeps (fun w => Counted b w L ∧ w.m_pools = s.m_pools)
        (fun _ _ _ _ _ _ _ _ hw hm => ⟨hw.1.merge hm, hm.pools.trans hw.2⟩) ⟨hu, hpu⟩
  exact ⟨hkept.1.congr rfl rfl rfl rfl rfl, rfl⟩

/-! ## GetRemain -/

theorem Counted.getRemain (h : Counted b s L) (fuel : Nat) (hx : s.nodes.read x = some n) (hfuel : s.nodes.length < fuel + x) :
    getRemain s fuel x = .ok (freeBytes L n.pStart n.nLen) := by
  induction fuel generalizing x n with
  | zero =>
    have := Heap.lt_of_read hx
    omega
  | succ fuel ih =>
    rw [MemPool.getRemain, deref_eq hx]
    simp only [bind, Except.bind]
    cases hst : n.eStatus with
    | UF_USE =>
      -- the node is a live block
      obtain ⟨l, hl, hlen⟩ := h.used x n hx hst
      have hheld : ∀ i < n.nLen, Held L (n.pStart + (i : Nat)) :=
        fun i hi => ⟨(n.pStart, l), hl, by simp only; omega, by simp only; omega⟩
      simp only [freeBytes_none hheld]
    | UF_NONE =>
      -- every live block is a used node, and apart from it
      have hfree : ∀ i < n.nLen, ¬Held L (n.pStart + (i : Nat)) := by
        rintro i hi ⟨e, he, h₁, h₂⟩
        obtain ⟨y, c, hr, hc, hlen⟩ := h.live e.1 e.2 he
        obtain ⟨d, hd, hused, hp⟩ := h.recorded e.1 y hr
        cases hc.symm.trans hd
        have := h.apart hc hused hx (by rw [hst]; simp) (ne_of_status hc hx (by rw [hused, hst]; simp))
        simp only [Apart] at this
        omega
      simp only [freeBytes_all hfree]
    | UF_ALLOC =>
      obtain ⟨i, j, ni, nj, hc, hi, hj⟩ := h.forest.cut x n hx hst
      simp only [hc.chips, List.foldlM_cons, List.foldlM_nil, ih hc.readL (by omega), ih hc.readR (by omega), bind, Except.bind,
        pure, Except.pure, Nat.zero_add, hc.lens]
      rcases hc.place with ⟨h₁, h₂⟩ | ⟨h₁, h₂⟩
      · rw [freeBytes_add, h₁, h₂]
      · rw [Nat.add_comm ni.nLen, freeBytes_add, h₁, h₂, Nat.add_comm]

theorem Counted.conserves (h : Counted b s L) : Conserves s L where
  tiles id n hn hst := by
    obtain ⟨i, j, ni, nj, hc, -, -⟩ := h.forest.cut id n hn hst
    exact hc.tiles
  whole id n hn hst := by
    refine h.forest.whole id n hn fun ha => ?_
    rw [ha] at hst
    cases hst with
    | inl hst => cases hst
    | inr hst => cases hst
  remain id n hn := h.getRemain s.depth hn (by rw [depth]; omega)

/-! ## Runs -/

/-- Without the twins the nodes of a new pool lie apart, inside the buffer or past it. -/
theorem layout_twins : ∀ i < 27, ∀ j < 27, i ≠ j → ¬(Twin i ∧ Twin j) →
    EndsBefore (layout.getD i default) (layout.getD j default) ∨ EndsBefore (layout.getD j default) (layout.getD i default) := by
  decide +kernel

theorem layout_laid : ∀ i < 27, (layout.getD i default).2.1 + (layout.getD i default).2.2 + (layout.getD i default).1 ≤ 192 ∨
    (192 ≤ (layout.getD i default).2.1 + (layout.getD i default).2.2 ∧
      (layout.getD i default).2.1 + (layout.getD i default).2.2 + (layout.getD i default).1 ≤ 224) := by
  decide +kernel

theorem init_counted {m : Mem} (hs : init m b = .ok s) : Counted b s [] ∧ s.m_lock = false := by
  obtain ⟨s₀, hs₀, hlaid, hbufs, hlock⟩ := init_laid m b
  cases hs.symm.trans hs₀
  have hinv := init_inv hlaid hbufs
  have hfree : ∀ x n, s.nodes.read x = some n → n.eStatus = .UF_NONE := by
    intro x n hx
    obtain ⟨-, rfl⟩ := hlaid.layout_read hx
    rfl
  refine ⟨⟨hinv.shape, fun t ht => ⟨hinv.trees.pos, hinv.trees.late, ?apart, ?within⟩, ?twins, hinv.many, ?live, ?used⟩, hlock⟩
  case apart =>
    intro x y n c hx hy _ _ hxt hyt hne
    obtain ⟨hltx, rfl⟩ := hlaid.layout_read hx
    obtain ⟨hlty, rfl⟩ := hlaid.layout_read hy
    have hnot : ¬(Twin x ∧ Twin y) := by
      rw [Twin, Twin]
      rw [Twin] at ht
      omega
    have := layout_twins x hltx y hlty hne hnot
    simp only [EndsBefore] at this
    simp only [Apart, laidNode]
    omega
  case within =>
    intro x n hx _
    obtain ⟨hlt, rfl⟩ := hlaid.layout_read hx
    rw [laidBuffers, hbufs]
    rcases layout_laid x hlt with hin | ⟨h₁, h₂⟩
    · refine ⟨⟨192, b⟩, List.mem_cons_of_mem _ (List.mem_singleton_self _), ?_⟩
      simp only [Within, laidNode]
      omega
    · refine ⟨⟨32, b + 192⟩, List.mem_cons_self, ?_⟩
      simp only [Within, laidNode]
      omega
  case twins =>
    intro t ht
    have hlt : t < 27 := by
      rw [Twin] at ht
      omega
    have hread : s.nodes.read t = (layout.map (laidNode b))[t]? := hlaid.read
    rw [List.getElem?_eq_getElem (show t < (layout.map (laidNode b)).length from hlt)] at hread
    exact ⟨_, hread, hfree t _ hread⟩
  case live => exact fun p len hp => absurd hp List.not_mem_nil
  case used =>
    intro x n hx hst
    rw [hfree x n hx] at hst
    cases hst

/-- An `Alloc` finds a node that is not as long as two blocks and no twin, and `malloc` gives memory that has no node. There is
no `Realloc`. -/
def Steady (b : Int) (c : Client) : Action → Prop
  | .alloc len sys => (∃ x ∈ found c.pool (getCorrectLessChipLen len), ¬Halves c.pool (getCorrectLessChipLen len) x ∧ ¬Twin x) ∧
      Unlaid b c.pool (getCorrectLessChipLen len) sys
  | .free _ => True
  | .realloc _ _ _ => False
  | .sweep => True

instance (b : Int) (c : Client) (a : Action) : Decidable (Steady b c a) :=
  match a with
  | .alloc _ _ => inferInstanceAs (Decidable (_ ∧ _))
  | .free _ => isTrue trivial
  | .realloc _ _ _ => isFalse fun h => h
  | .sweep => isTrue trivial

theorem step_counted {c c' : Client} {a : Action} (h : Counted b c.pool c.live) (hl : c.pool.m_lock = false) (hal : Allowed c a)
    (ha : Steady b c a) (hstep : step c a = .ok c') : Counted b c'.pool c'.live ∧ c'.pool.m_lock = false := by
  have h₀ : Counted b { c.pool with m_lock := true } c.live := h.congr rfl rfl rfl rfl rfl
  cases a with
  | alloc len sys =>
    obtain ⟨⟨s₁, q⟩, hr, hc⟩ := bind_eq_ok.1 hstep
    cases hc
    obtain ⟨⟨x, hx, hhalf, htwin⟩, hfresh⟩ := ha
    obtain ⟨t, htake, rfl⟩ := alloc_ok hl hr
    obtain ⟨s', n, htake', htook, -⟩ := take_took h₀.toShape sys (take_small htake) (by rw [found_lock]; exact hx) fun _ => hhalf
    have hpos : 0 < getCorrectLessChipLen len := Nat.lt_of_lt_of_le hal.1 (le_getCorrectLessChipLen len)
    cases htake.symm.trans htake'
    exact ⟨(h₀.took htook htwin hpos hfresh).congr rfl rfl rfl rfl rfl, rfl⟩
  | free p =>
    obtain ⟨t, ht, hc⟩ := bind_eq_ok.1 hstep
    cases hc
    obtain ⟨t', hgive, rfl⟩ := free_ok hl ht
    cases hfind : c.pool.m_record.find? p with
    | none =>
      have hfind₀ : ({ c.pool with m_lock := true } : MemPool).m_record.find? p = none := hfind
      rw [give, hfind₀] at hgive
      cases hgive
    | some x =>
      obtain ⟨u, n, hgive', hm⟩ := give_gives (s := { c.pool with m_lock := true }) h₀.toShape (StdMap.find?_eq_some.1 hfind)
      cases hgive.symm.trans hgive'
      exact ⟨(h₀.give hm).congr rfl rfl rfl rfl rfl, rfl⟩
  | realloc p newLen sys => exact ha.elim
  | sweep =>
    obtain ⟨t, ht, hc⟩ := bind_eq_ok.1 hstep
    cases hc
    exact h.sweep hl ht

/-- In every run whose steps are steady the trees conserve memory. -/
theorem conserves_run {m : Mem} {actions : List Action} {c : Client} (hs : init m b = .ok s)
    (h : Along step (fun c a => Allowed c a ∧ Steady b c a) ⟨s, []⟩ actions) (hrun : actions.foldlM step ⟨s, []⟩ = .ok c) :
    Conserves c.pool c.live := by
  obtain ⟨hcounted, -⟩ := h.keeps (fun c => Counted b c.pool c.live ∧ c.pool.m_lock = false) hrun (init_counted hs)
    fun c a c' hc ha hstep => step_counted hc.1 hc.2 ha.1 ha.2 hstep
  exact hcounted.conserves

/-- Splits, a sweep that merges a chip, and a buffer of its own. -/
theorem conserves_run_mixed : ∃ s, init (fun _ => 0) 1000 = .ok s ∧
    ∃ c, [Action.alloc 24 5000, .alloc 5 5000, .free 1152, .sweep, .alloc 100 5000, .alloc 4 7000].foldlM step ⟨s, []⟩ = .ok c ∧
      Conserves c.pool c.live := by
  have hrun : ∃ s, init (fun _ => 0) 1000 = .ok s ∧ Along step (fun c a => Allowed c a ∧ Steady 1000 c a) ⟨s, []⟩
        [Action.alloc 24 5000, .alloc 5 5000, .free 1152, .sweep, .alloc 100 5000, .alloc 4 7000] ∧
      ∃ c, [Action.alloc 24 5000, .alloc 5 5000, .free 1152, .sweep, .alloc 100 5000, .alloc 4 7000].foldlM step ⟨s, []⟩ =
        .ok c ∧ c.pool.m_lock = false := by decide +kernel
  obtain ⟨s, hs, h, c, hc, -⟩ := hrun
  exact ⟨s, hs, c, hc, conserves_run hs h hc⟩

/-- Two bytes of a node of four: the other two are counted nowhere. -/
theorem not_conserves_half : ¬∀ (m : Mem) (b : Int) (s : MemPool) (actions : List Action) (c : Client), init m b = .ok s →
    (∀ a ∈ actions, ∀ p len sys, a ≠ .realloc p len sys) → Along step Allowed ⟨s, []⟩ actions →
      actions.foldlM step ⟨s, []⟩ = .ok c → Conserves c.pool c.live := by
  intro h
  have hrun : ∃ s, init (fun _ => 0) 1000 = .ok s ∧ Along step Allowed ⟨s, []⟩ [.alloc 2 5000] ∧
      ∃ c, [Action.alloc 2 5000].foldlM step ⟨s, []⟩ = .ok c ∧ ∃ n, c.pool.nodes.read 0 = some n ∧
        getRemain c.pool c.pool.depth 0 = .ok 0 ∧ freeBytes c.live n.pStart n.nLen = 2 := by decide +kernel
  obtain ⟨s, hs, hal, c, hc, n, hn, hcount, hbytes⟩ := hrun
  have hreal : ∀ a ∈ [Action.alloc 2 5000], ∀ p len sys, a ≠ .realloc p len sys := by
    intro a ha p len sys
    rw [List.mem_singleton.1 ha]
    exact Action.noConfusion
  have := (h _ _ s _ c hs hreal hal hc).remain 0 n hn
  rw [hcount, hbytes] at this
  cases this

end MemPool
