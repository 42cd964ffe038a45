/-
The trees of nodes of a pool, as a function from identities to nodes.

A `Forest` is what the chips alone show: a node in pieces has two chips that
cover it, and no chip has two parents. `Placed` says where the nodes lie: the
ones that are not in pieces are apart from each other and inside a buffer,
but for a few nodes of the first buffer. Four moves change the trees: a node
is marked, split, merged, or added; each keeps both.

In `Trees` those few are the spare nodes, the ones a second pass of `Init`
lays past its buffer or over a node that is there already.
-/
import XFramework.Mem.MemPool
import XFramework.Lib.Fallible

namespace MemPool

/-- The nodes by identity. -/
abbrev Nodes := Nat → Option MemNode

/-- The identities of the nodes laid past the buffer (18 to 25) and laid twice (26). -/
def Spare (id : Nat) : Prop := 18 ≤ id ∧ id ≤ 26

instance (id : Nat) : Decidable (Spare id) := inferInstanceAs (Decidable (_ ∧ _))

/-- The bytes of a node. -/
def Apart (n n' : MemNode) : Prop := n.pStart + n.nLen ≤ n'.pStart ∨ n'.pStart + n'.nLen ≤ n.pStart

def Within (n : MemNode) (b : OriginalNode) : Prop := b.pOriStart ≤ n.pStart ∧ n.pStart + n.nLen ≤ b.pOriStart + b.len

/-- The node is cut into the chips `i` and `j`. -/
structure Cut (rd : Nodes) (n : MemNode) (i j : Nat) (ni nj : MemNode) : Prop where
  chips : n.mChips.entries = [(ni.nLen, i), (nj.nLen, j)]
  readL : rd i = some ni
  readR : rd j = some nj
  lens : n.nLen = ni.nLen + nj.nLen
  place : (ni.pStart = n.pStart ∧ nj.pStart = n.pStart + ni.nLen) ∨ (nj.pStart = n.pStart ∧ ni.pStart = n.pStart + nj.nLen)

/-- `x` is a chip of `n`. -/
def ChipOf (x : Nat) (n : MemNode) : Prop := ∃ k, (k, x) ∈ n.mChips.entries

structure Forest (rd : Nodes) : Prop where
  whole : ∀ id n, rd id = some n → n.eStatus ≠ .UF_ALLOC → n.mChips = .empty
  cut : ∀ id n, rd id = some n → n.eStatus = .UF_ALLOC → ∃ i j ni nj, Cut rd n i j ni nj ∧ id < i ∧ id < j
  parent : ∀ id id' n n' x, rd id = some n → rd id' = some n' → ChipOf x n → ChipOf x n' → id = id'

/-- All but the nodes in `P` lie apart and in the buffers `bufs`. -/
structure Placed (P : Nat → Prop) (rd : Nodes) (bufs : List OriginalNode) : Prop where
  pos : ∀ id n, rd id = some n → 0 < n.nLen
  late : ∀ id n x, rd id = some n → ChipOf x n → 27 ≤ x
  apart : ∀ id id' n n', rd id = some n → rd id' = some n' → n.eStatus ≠ .UF_ALLOC → n'.eStatus ≠ .UF_ALLOC →
    ¬P id → ¬P id' → id ≠ id' → Apart n n'
  within : ∀ id n, rd id = some n → ¬P id → ∃ b ∈ bufs, Within n b

structure Trees (rd : Nodes) (bufs : List OriginalNode) : Prop where
  pos : ∀ id n, rd id = some n → 0 < n.nLen
  whole : ∀ id n, rd id = some n → n.eStatus ≠ .UF_ALLOC → n.mChips = .empty
  cut : ∀ id n, rd id = some n → n.eStatus = .UF_ALLOC → ∃ i j ni nj, Cut rd n i j ni nj ∧ id < i ∧ id < j
  parent : ∀ id id' n n' x, rd id = some n → rd id' = some n' → ChipOf x n → ChipOf x n' → id = id'
  late : ∀ id n x, rd id = some n → ChipOf x n → 27 ≤ x
  apart : ∀ id id' n n', rd id = some n → rd id' = some n' → n.eStatus ≠ .UF_ALLOC → n'.eStatus ≠ .UF_ALLOC →
    ¬Spare id → ¬Spare id' → id ≠ id' → Apart n n'
  within : ∀ id n, rd id = some n → ¬Spare id → ∃ b ∈ bufs, Within n b

variable {P : Nat → Prop} {rd rd' : Nodes} {bufs : List OriginalNode} {id i j x : Nat} {n n' ni nj : MemNode}

theorem Trees.forest (h : Trees rd bufs) : Forest rd := ⟨h.whole, h.cut, h.parent⟩

theorem Trees.placed (h : Trees rd bufs) : Placed Spare rd bufs := ⟨h.pos, h.late, h.apart, h.within⟩

theorem Forest.trees (h : Forest rd) (hp : Placed Spare rd bufs) : Trees rd bufs :=
  ⟨hp.pos, h.whole, h.cut, h.parent, hp.late, hp.apart, hp.within⟩

theorem Cut.chipOf_iff (h : Cut rd n i j ni nj) : ChipOf x n ↔ x = i ∨ x = j := by
  simp only [ChipOf, h.chips, List.mem_cons, Prod.mk.injEq, List.not_mem_nil, or_false]
  refine ⟨?_, ?_⟩
  · intro ⟨k, hk⟩
    exact hk.imp And.right And.right
  · intro hx
    cases hx with
    | inl hx => exact ⟨_, .inl ⟨rfl, hx⟩⟩
    | inr hx => exact ⟨_, .inr ⟨rfl, hx⟩⟩

/-- The keys of the chips differ, so they are two. -/
theorem Cut.ne (h : Cut rd n i j ni nj) : ni.nLen < nj.nLen := by
  have hs := n.mChips.sorted
  rw [h.chips, List.pairwise_cons] at hs
  exact hs.1 _ (List.mem_singleton_self _)

theorem Cut.idx_ne (h : Cut rd n i j ni nj) : i ≠ j := by
  intro hij
  have hne := h.ne
  have hread := h.readL
  rw [hij, h.readR] at hread
  cases hread
  exact lt_irrefl _ hne

theorem not_chipOf_of_whole (h : Forest rd) (hid : rd id = some n) (hn : n.eStatus ≠ .UF_ALLOC) : ¬ChipOf x n := by
  intro ⟨k, hk⟩
  rw [h.whole id n hid hn] at hk
  cases hk

theorem Forest.read_chip (h : Forest rd) (hid : rd id = some n) (hx : ChipOf x n) : ∃ c, rd x = some c := by
  by_cases hn : n.eStatus = .UF_ALLOC
  · obtain ⟨i, j, ni, nj, hc, -, -⟩ := h.cut id n hid hn
    cases hc.chipOf_iff.1 hx with
    | inl hx => exact ⟨ni, hx ▸ hc.readL⟩
    | inr hx => exact ⟨nj, hx ▸ hc.readR⟩
  · exact absurd hx (not_chipOf_of_whole h hid hn)

theorem Apart.symm (h : Apart n n') : Apart n' n := Or.symm h

/-- The bytes of `n'` are bytes of `n`. -/
def Sub (n' n : MemNode) : Prop := n.pStart ≤ n'.pStart ∧ n'.pStart + n'.nLen ≤ n.pStart + n.nLen

theorem Apart.of_sub {m : MemNode} (h : Apart n m) (hs : Sub n' n) : Apart n' m := by
  obtain ⟨h₁, h₂⟩ := hs
  cases h with
  | inl h => exact .inl (by omega)
  | inr h => exact .inr (by omega)

theorem Within.of_sub {b : OriginalNode} (h : Within n b) (hs : Sub n' n) : Within n' b := by
  obtain ⟨h₁, h₂⟩ := hs
  obtain ⟨h₃, h₄⟩ := h
  exact ⟨by omega, by omega⟩

/-! ## Marking a node -/

/-- Nodes that lie the same way. -/
structure SameShape (n n' : MemNode) : Prop where
  nLen : n'.nLen = n.nLen
  pStart : n'.pStart = n.pStart
  mChips : n'.mChips = n.mChips
  alloc : n'.eStatus = .UF_ALLOC ↔ n.eStatus = .UF_ALLOC

theorem SameShape.refl (n : MemNode) : SameShape n n := ⟨rfl, rfl, rfl, Iff.rfl⟩

theorem SameShape.apart {m m' : MemNode} (h : SameShape n n') (hm : SameShape m m') : Apart n' m' ↔ Apart n m := by
  simp only [Apart, h.nLen, h.pStart, hm.nLen, hm.pStart]

theorem SameShape.chipOf (h : SameShape n n') : ChipOf x n' ↔ ChipOf x n := by
  simp only [ChipOf, h.mChips]

/-- What every node keeping its shape says of the two functions. -/
structure SameShapes (rd rd' : Nodes) : Prop where
  back : ∀ x m, rd' x = some m → ∃ m₀, rd x = some m₀ ∧ SameShape m₀ m
  forth : ∀ x m₀, rd x = some m₀ → ∃ m, rd' x = some m ∧ SameShape m₀ m

theorem Forest.of_same (h : Forest rd) (hsame : SameShapes rd rd') : Forest rd' where
  whole := by
    intro id m hm hn
    obtain ⟨m₀, hm₀, hs⟩ := hsame.back id m hm
    rw [hs.mChips]
    exact h.whole id m₀ hm₀ fun ha => hn (hs.alloc.2 ha)
  cut := by
    intro id m hm hn
    obtain ⟨m₀, hm₀, hs⟩ := hsame.back id m hm
    obtain ⟨i, j, ni, nj, hc, hi, hj⟩ := h.cut id m₀ hm₀ (hs.alloc.1 hn)
    obtain ⟨ni', hni', hsi⟩ := hsame.forth i ni hc.readL
    obtain ⟨nj', hnj', hsj⟩ := hsame.forth j nj hc.readR
    refine ⟨i, j, ni', nj', ⟨?_, hni', hnj', ?_, ?_⟩, hi, hj⟩
    · rw [hs.mChips, hc.chips, hsi.nLen, hsj.nLen]
    · rw [hs.nLen, hc.lens, hsi.nLen, hsj.nLen]
    · rw [hs.pStart, hsi.pStart, hsj.pStart, hsi.nLen, hsj.nLen]
      exact hc.place
  parent := by
    intro id id' m m' x hm hm' hx hx'
    obtain ⟨m₀, hm₀, hs⟩ := hsame.back id m hm
    obtain ⟨m₀', hm₀', hs'⟩ := hsame.back id' m' hm'
    exact h.parent id id' m₀ m₀' x hm₀ hm₀' (hs.chipOf.1 hx) (hs'.chipOf.1 hx')

theorem Placed.of_same (h : Placed P rd bufs) (hsame : SameShapes rd rd') : Placed P rd' bufs where
  pos := by
    intro id m hm
    obtain ⟨m₀, hm₀, hs⟩ := hsame.back id m hm
    rw [hs.nLen]
    exact h.pos id m₀ hm₀
  late := by
    intro id m x hm hx
    obtain ⟨m₀, hm₀, hs⟩ := hsame.back id m hm
    exact h.late id m₀ x hm₀ (hs.chipOf.1 hx)
  apart := by
    intro id id' m m' hm hm' hn hn' hsp hsp' hne
    obtain ⟨m₀, hm₀, hs⟩ := hsame.back id m hm
    obtain ⟨m₀', hm₀', hs'⟩ := hsame.back id' m' hm'
    exact (hs.apart hs').2 (h.apart id id' m₀ m₀' hm₀ hm₀' (fun ha => hn (hs.alloc.2 ha)) (fun ha => hn' (hs'.alloc.2 ha))
      hsp hsp' hne)
  within := by
    intro id m hm hsp
    obtain ⟨m₀, hm₀, hs⟩ := hsame.back id m hm
    obtain ⟨b, hb, hin⟩ := h.within id m₀ hm₀ hsp
    refine ⟨b, hb, ?_⟩
    rw [Within, hs.nLen, hs.pStart]
    exact hin

/-- A node that is not in pieces is marked used or free. -/
theorem sameShapes_mark (hid : rd id = some n) (hn : n.eStatus ≠ .UF_ALLOC) {st : UseFor} (hst : st ≠ .UF_ALLOC)
    (hrd : ∀ x, rd' x = if x = id then some { n with eStatus := st } else rd x) : SameShapes rd rd' := by
  have hs : SameShape n { n with eStatus := st } := ⟨rfl, rfl, rfl, iff_of_false hst hn⟩
  refine ⟨fun x m hm => ?_, fun x m₀ hm₀ => ?_⟩
  · rw [hrd] at hm
    split_ifs at hm with hx
    · cases hm
      exact ⟨n, hx ▸ hid, hs⟩
    · exact ⟨m, hm, .refl m⟩
  · rw [hrd]
    split_ifs with hx
    · rw [hx, hid] at hm₀
      cases hm₀
      exact ⟨_, rfl, hs⟩
    · exact ⟨m₀, hm₀, .refl m₀⟩

/-! ## Splitting a node -/

/-- A node after `len` bytes of it are taken: the front and the rest are its chips `f` and `g`. -/
structure SplitAt (rd rd' : Nodes) (id f g len : Nat) (n n' : MemNode) : Prop where
  read : ∀ x, rd' x = if x = id then some n' else if x = f then some ⟨len, .UF_USE, n.pStart, .empty⟩
    else if x = g then some ⟨n.nLen - len, .UF_NONE, n.pStart + len, .empty⟩ else rd x
  nLen : n'.nLen = n.nLen
  pStart : n'.pStart = n.pStart
  status : n'.eStatus = .UF_ALLOC
  chips : n'.mChips = (StdMap.empty.insert len f).insert (n.nLen - len) g

section Split

variable {f g len : Nat} (hs : SplitAt rd rd' id f g len n n') (hid : rd id = some n)
  (hf : rd f = none) (hg : rd g = none) (hfg : f ≠ g)

include hid hf hg hfg hs in
theorem SplitAt.reads : rd' id = some n' ∧ rd' f = some ⟨len, .UF_USE, n.pStart, .empty⟩ ∧
    rd' g = some ⟨n.nLen - len, .UF_NONE, n.pStart + len, .empty⟩ ∧ f ≠ id ∧ g ≠ id := by
  have hfid : f ≠ id := fun he => by rw [he, hid] at hf; cases hf
  have hgid : g ≠ id := fun he => by rw [he, hid] at hg; cases hg
  refine ⟨?_, ?_, ?_, hfid, hgid⟩
  · rw [hs.read, if_pos rfl]
  · rw [hs.read, if_neg hfid, if_pos rfl]
  · rw [hs.read, if_neg hgid, if_neg hfg.symm, if_pos rfl]

include hs hf hg in
/-- The other nodes are as they were. -/
theorem SplitAt.read_other (hx : x ≠ id) (hread : rd x = some ni) : rd' x = some ni := by
  have hxf : x ≠ f := fun he => by rw [he, hf] at hread; cases hread
  have hxg : x ≠ g := fun he => by rw [he, hg] at hread; cases hread
  rw [hs.read, if_neg hx, if_neg hxf, if_neg hxg, hread]

include hs in
theorem SplitAt.chipOf_iff (hne : n.nLen - len ≠ len) : ChipOf x n' ↔ x = f ∨ x = g := by
  have hmem : ∀ k, (k, x) ∈ n'.mChips.entries ↔ (k = len ∧ x = f) ∨ (k = n.nLen - len ∧ x = g) := by
    intro k
    rw [hs.chips, StdMap.mem_entries, StdMap.mem_insert_new, StdMap.mem_insert_new]
    · simp
    · exact fun y hy => absurd hy StdMap.not_mem_empty
    · intro y hy
      rw [StdMap.mem_insert_new fun y hy => absurd hy StdMap.not_mem_empty] at hy
      cases hy with
      | inl hy => exact absurd hy StdMap.not_mem_empty
      | inr hy => exact hy ▸ hne.symm
  refine ⟨?_, ?_⟩
  · intro ⟨k, hk⟩
    exact ((hmem k).1 hk).imp And.right And.right
  · intro hx
    cases hx with
    | inl hx => exact ⟨len, (hmem len).2 (.inl ⟨rfl, hx⟩)⟩
    | inr hx => exact ⟨_, (hmem _).2 (.inr ⟨rfl, hx⟩)⟩

include hs hid hf hg hfg in
/-- The chips cover the node. -/
theorem SplitAt.cut (hlen : len < n.nLen) (hne : n.nLen - len ≠ len) (hidf : id < f) (hidg : id < g) :
    ∃ i j ni nj, Cut rd' n' i j ni nj ∧ id < i ∧ id < j := by
  obtain ⟨-, hrf, hrg, -, -⟩ := hs.reads hid hf hg hfg
  have hlens : n'.nLen = len + (n.nLen - len) := by rw [hs.nLen]; omega
  rcases Nat.lt_or_ge len (n.nLen - len) with hlt | hge
  · refine ⟨f, g, _, _, ⟨?_, hrf, hrg, hlens, .inl ⟨hs.pStart.symm, by rw [hs.pStart]⟩⟩, hidf, hidg⟩
    rw [hs.chips]
    simp [StdMap.insert, StdMap.insertEntry, StdMap.empty, Nat.lt_asymm hlt, hlt]
  · have hlt : n.nLen - len < len := by omega
    refine ⟨g, f, _, _, ⟨?_, hrg, hrf, hlens.trans (Nat.add_comm _ _), .inr ⟨hs.pStart.symm, by rw [hs.pStart]⟩⟩, hidg, hidf⟩
    rw [hs.chips]
    simp [StdMap.insert, StdMap.insertEntry, StdMap.empty, hlt]

include hs in
/-- Every node after the split is the node itself, one of its two parts, or an old one. -/
theorem SplitAt.cases_of {m : MemNode} (hm : rd' x = some m) :
    (x = id ∧ m = n') ∨ (x = f ∧ m = ⟨len, .UF_USE, n.pStart, .empty⟩) ∨
      (x = g ∧ m = ⟨n.nLen - len, .UF_NONE, n.pStart + len, .empty⟩) ∨ (x ≠ id ∧ x ≠ f ∧ x ≠ g ∧ rd x = some m) := by
  rw [hs.read] at hm
  split_ifs at hm with h₁ h₂ h₃
  · exact .inl ⟨h₁, (Option.some.inj hm).symm⟩
  · exact .inr (.inl ⟨h₂, (Option.some.inj hm).symm⟩)
  · exact .inr (.inr (.inl ⟨h₃, (Option.some.inj hm).symm⟩))
  · exact .inr (.inr (.inr ⟨h₁, h₂, h₃, hm⟩))

include hs hid hf hg hfg in
theorem Forest.split (h : Forest rd) (hlen : len < n.nLen) (hne : n.nLen - len ≠ len) (hidf : id < f) (hidg : id < g) :
    Forest rd' := by
  have hchips := fun x => hs.chipOf_iff (x := x) hne
  have hold : ∀ y m, rd y = some m → ∀ x, ChipOf x m → x ≠ f ∧ x ≠ g := by
    intro y m hm x hx
    obtain ⟨c, hc⟩ := h.read_chip hm hx
    refine ⟨?_, ?_⟩
    · intro he
      rw [he, hf] at hc
      cases hc
    · intro he
      rw [he, hg] at hc
      cases hc
  refine ⟨?whole, ?cut, ?parent⟩
  case whole =>
    intro x m hm hm'
    rcases hs.cases_of hm with ⟨-, rfl⟩ | ⟨-, rfl⟩ | ⟨-, rfl⟩ | ⟨-, -, -, hm⟩
    · exact absurd hs.status hm'
    · rfl
    · rfl
    · exact h.whole x m hm hm'
  case cut =>
    intro x m hm hm'
    rcases hs.cases_of hm with ⟨rfl, rfl⟩ | ⟨-, rfl⟩ | ⟨-, rfl⟩ | ⟨hx, -, -, hm⟩
    · exact hs.cut hid hf hg hfg hlen hne hidf hidg
    · cases hm'
    · cases hm'
    · -- a chip of an old node may be the node that was split: it lies where it lay
      obtain ⟨i, j, ni, nj, hc, hi, hj⟩ := h.cut x m hm hm'
      have hkeep : ∀ y c, rd y = some c → ∃ c', rd' y = some c' ∧ c'.nLen = c.nLen ∧ c'.pStart = c.pStart := by
        intro y c hc
        by_cases hy : y = id
        · rw [hy, hid] at hc
          cases hc
          exact ⟨n', hy ▸ (hs.reads hid hf hg hfg).1, hs.nLen, hs.pStart⟩
        · exact ⟨c, hs.read_other hf hg hy hc, rfl, rfl⟩
      obtain ⟨ni', hri, hli, hpi⟩ := hkeep i ni hc.readL
      obtain ⟨nj', hrj, hlj, hpj⟩ := hkeep j nj hc.readR
      refine ⟨i, j, ni', nj', ⟨?_, hri, hrj, ?_, ?_⟩, hi, hj⟩
      · rw [hc.chips, hli, hlj]
      · rw [hc.lens, hli, hlj]
      · rw [hpi, hpj, hli, hlj]
        exact hc.place
  case parent =>
    intro x x' m m' y hm hm' hy hy'
    rcases hs.cases_of hm with ⟨rfl, rfl⟩ | ⟨-, rfl⟩ | ⟨-, rfl⟩ | ⟨-, -, -, hm⟩
    · rcases hs.cases_of hm' with ⟨rfl, -⟩ | ⟨-, rfl⟩ | ⟨-, rfl⟩ | ⟨-, -, -, hm'⟩
      · rfl
      · exact absurd hy'.choose_spec StdMap.not_mem_empty
      · exact absurd hy'.choose_spec StdMap.not_mem_empty
      · obtain ⟨h₁, h₂⟩ := hold x' m' hm' y hy'
        exact absurd ((hchips y).1 hy) (not_or.2 ⟨h₁, h₂⟩)
    · exact absurd hy.choose_spec StdMap.not_mem_empty
    · exact absurd hy.choose_spec StdMap.not_mem_empty
    · rcases hs.cases_of hm' with ⟨rfl, rfl⟩ | ⟨-, rfl⟩ | ⟨-, rfl⟩ | ⟨-, -, -, hm'⟩
      · obtain ⟨h₁, h₂⟩ := hold x m hm y hy
        exact absurd ((hchips y).1 hy') (not_or.2 ⟨h₁, h₂⟩)
      · exact absurd hy'.choose_spec StdMap.not_mem_empty
      · exact absurd hy'.choose_spec StdMap.not_mem_empty
      · exact h.parent x x' m m' y hm hm' hy hy'

include hs hid in
theorem Placed.split (h : Placed P rd bufs) (hn : n.eStatus ≠ .UF_ALLOC) (hsp : ¬P id) (hpos : 0 < len) (hlen : len < n.nLen)
    (hne : n.nLen - len ≠ len) (hf27 : 27 ≤ f) (hg27 : 27 ≤ g) : Placed P rd' bufs := by
  have hchips := fun x => hs.chipOf_iff (x := x) hne
  have hfront : Sub ⟨len, .UF_USE, n.pStart, .empty⟩ n := ⟨le_rfl, by simp only; omega⟩
  have hrest : Sub ⟨n.nLen - len, .UF_NONE, n.pStart + len, .empty⟩ n := ⟨by simp only; omega, by simp only; omega⟩
  refine ⟨?pos, ?late, ?apart, ?within⟩
  case pos =>
    intro x m hm
    rcases hs.cases_of hm with ⟨-, rfl⟩ | ⟨-, rfl⟩ | ⟨-, rfl⟩ | ⟨-, -, -, hm⟩
    · rw [hs.nLen]
      exact h.pos id n hid
    · exact hpos
    · exact Nat.sub_pos_of_lt hlen
    · exact h.pos x m hm
  case late =>
    intro x m y hm hy
    rcases hs.cases_of hm with ⟨-, rfl⟩ | ⟨-, rfl⟩ | ⟨-, rfl⟩ | ⟨-, -, -, hm⟩
    · cases (hchips y).1 hy with
      | inl hy => exact hy ▸ hf27
      | inr hy => exact hy ▸ hg27
    · exact absurd hy.choose_spec StdMap.not_mem_empty
    · exact absurd hy.choose_spec StdMap.not_mem_empty
    · exact h.late x m y hm hy
  case apart =>
    intro x x' m m' hm hm' hst hst' hsp₁ hsp₂ hxx
    have hself : ∀ y c, y ≠ id → rd y = some c → c.eStatus ≠ .UF_ALLOC → ¬P y → Apart n c :=
      fun y c hy hc hcs hys => h.apart id y n c hid hc hn hcs hsp hys hy.symm
    rcases hs.cases_of hm with ⟨-, rfl⟩ | ⟨rfl, rfl⟩ | ⟨rfl, rfl⟩ | ⟨hx, -, -, hm⟩
    · exact absurd hs.status hst
    · rcases hs.cases_of hm' with ⟨-, rfl⟩ | ⟨rfl, -⟩ | ⟨-, rfl⟩ | ⟨hx', -, -, hm'⟩
      · exact absurd hs.status hst'
      · exact absurd rfl hxx
      · exact .inl le_rfl
      · exact (hself x' m' hx' hm' hst' hsp₂).of_sub hfront
    · rcases hs.cases_of hm' with ⟨-, rfl⟩ | ⟨-, rfl⟩ | ⟨rfl, -⟩ | ⟨hx', -, -, hm'⟩
      · exact absurd hs.status hst'
      · exact .inr le_rfl
      · exact absurd rfl hxx
      · exact (hself x' m' hx' hm' hst' hsp₂).of_sub hrest
    · rcases hs.cases_of hm' with ⟨-, rfl⟩ | ⟨-, rfl⟩ | ⟨-, rfl⟩ | ⟨-, -, -, hm'⟩
      · exact absurd hs.status hst'
      · exact ((hself x m hx hm hst hsp₁).of_sub hfront).symm
      · exact ((hself x m hx hm hst hsp₁).of_sub hrest).symm
      · exact h.apart x x' m m' hm hm' hst hst' hsp₁ hsp₂ hxx
  case within =>
    intro x m hm hsp'
    obtain ⟨b, hb, hin⟩ := h.within id n hid hsp
    rcases hs.cases_of hm with ⟨-, rfl⟩ | ⟨-, rfl⟩ | ⟨-, rfl⟩ | ⟨-, -, -, hm⟩
    · exact ⟨b, hb, hin.of_sub ⟨hs.pStart.ge, by rw [hs.pStart, hs.nLen]⟩⟩
    · exact ⟨b, hb, hin.of_sub hfront⟩
    · exact ⟨b, hb, hin.of_sub hrest⟩
    · exact h.within x m hm hsp'

end Split

/-! ## Merging two chips -/

/-- A node whose two chips are free is whole again. -/
structure MergeAt (rd rd' : Nodes) (id i j : Nat) (n : MemNode) : Prop where
  read : ∀ x, rd' x = if x = id then some { n with eStatus := .UF_NONE, mChips := .empty }
    else if x = i ∨ x = j then none else rd x

theorem MergeAt.cases_of {m : MemNode} (hs : MergeAt rd rd' id i j n) (hm : rd' x = some m) :
    (x = id ∧ m = { n with eStatus := .UF_NONE, mChips := .empty }) ∨ (x ≠ id ∧ x ≠ i ∧ x ≠ j ∧ rd x = some m) := by
  rw [hs.read] at hm
  split_ifs at hm with h₁ h₂
  · exact .inl ⟨h₁, (Option.some.inj hm).symm⟩
  · exact .inr ⟨h₁, (not_or.1 h₂).1, (not_or.1 h₂).2, hm⟩

theorem Forest.merge (h : Forest rd) (hs : MergeAt rd rd' id i j n) (hid : rd id = some n) (hc : Cut rd n i j ni nj) :
    Forest rd' := by
  have hother : ∀ x m, x ≠ id → rd x = some m → ∀ y, ChipOf y m → y ≠ i ∧ y ≠ j := by
    intro x m hx hm y hy
    exact ⟨fun he => hx (h.parent x id m n y hm hid hy (hc.chipOf_iff.2 (.inl he))),
      fun he => hx (h.parent x id m n y hm hid hy (hc.chipOf_iff.2 (.inr he)))⟩
  refine ⟨?whole, ?cut, ?parent⟩
  case whole =>
    intro x m hm hst
    rcases hs.cases_of hm with ⟨-, rfl⟩ | ⟨-, -, -, hm⟩
    · rfl
    · exact h.whole x m hm hst
  case cut =>
    intro x m hm hst
    rcases hs.cases_of hm with ⟨-, rfl⟩ | ⟨hx, -, -, hm⟩
    · cases hst
    · obtain ⟨i', j', ni', nj', hc', hi', hj'⟩ := h.cut x m hm hst
      have hkeep : ∀ y c, ChipOf y m → rd y = some c → ∃ c', rd' y = some c' ∧ c'.nLen = c.nLen ∧ c'.pStart = c.pStart := by
        intro y c hy hc
        obtain ⟨h₁, h₂⟩ := hother x m hx hm y hy
        by_cases hyid : y = id
        · rw [hyid, hid] at hc
          cases hc
          exact ⟨{ n with eStatus := .UF_NONE, mChips := .empty }, by rw [hs.read, if_pos hyid], rfl, rfl⟩
        · exact ⟨c, by rw [hs.read, if_neg hyid, if_neg (not_or.2 ⟨h₁, h₂⟩), hc], rfl, rfl⟩
      obtain ⟨ni'', hri, hli, hpi⟩ := hkeep i' ni' (hc'.chipOf_iff.2 (.inl rfl)) hc'.readL
      obtain ⟨nj'', hrj, hlj, hpj⟩ := hkeep j' nj' (hc'.chipOf_iff.2 (.inr rfl)) hc'.readR
      refine ⟨i', j', ni'', nj'', ⟨?_, hri, hrj, ?_, ?_⟩, hi', hj'⟩
      · rw [hc'.chips, hli, hlj]
      · rw [hc'.lens, hli, hlj]
      · rw [hpi, hpj, hli, hlj]
        exact hc'.place
  case parent =>
    intro x x' m m' y hm hm' hy hy'
    rcases hs.cases_of hm with ⟨-, rfl⟩ | ⟨-, -, -, hm⟩
    · exact absurd hy.choose_spec StdMap.not_mem_empty
    · rcases hs.cases_of hm' with ⟨-, rfl⟩ | ⟨-, -, -, hm'⟩
      · exact absurd hy'.choose_spec StdMap.not_mem_empty
      · exact h.parent x x' m m' y hm hm' hy hy'

theorem Placed.merge (h : Placed P rd bufs) (hP : ∀ x, P x → x < 27) (hs : MergeAt rd rd' id i j n) (hid : rd id = some n)
    (hsp : ¬P id) (hc : Cut rd n i j ni nj) (hi : ni.eStatus ≠ .UF_ALLOC) (hj : nj.eStatus ≠ .UF_ALLOC) : Placed P rd' bufs := by
  refine ⟨?pos, ?late, ?apart, ?within⟩
  case pos =>
    intro x m hm
    rcases hs.cases_of hm with ⟨-, rfl⟩ | ⟨-, -, -, hm⟩
    · exact h.pos id n hid
    · exact h.pos x m hm
  case late =>
    intro x m y hm hy
    rcases hs.cases_of hm with ⟨-, rfl⟩ | ⟨-, -, -, hm⟩
    · exact absurd hy.choose_spec StdMap.not_mem_empty
    · exact h.late x m y hm hy
  case apart =>
    intro x x' m m' hm hm' hst hst' hsp₁ hsp₂ hxx
    -- a node apart from both chips is apart from what they cover
    have hself : ∀ y c, y ≠ i → y ≠ j → rd y = some c → c.eStatus ≠ .UF_ALLOC → ¬P y →
        Apart { n with eStatus := .UF_NONE, mChips := .empty } c := by
      intro y c hyi hyj hyc hcs hys
      have hli : ¬P i := fun hp => Nat.not_lt.2 (h.late id n i hid (hc.chipOf_iff.2 (.inl rfl))) (hP i hp)
      have hlj : ¬P j := fun hp => Nat.not_lt.2 (h.late id n j hid (hc.chipOf_iff.2 (.inr rfl))) (hP j hp)
      have hai := h.apart i y ni c hc.readL hyc hi hcs hli hys hyi.symm
      have haj := h.apart j y nj c hc.readR hyc hj hcs hlj hys hyj.symm
      have hpc := h.pos y c hyc
      have hpi := h.pos i ni hc.readL
      have hpj := h.pos j nj hc.readR
      have hlens := hc.lens
      have hplace := hc.place
      simp only [Apart] at hai haj ⊢
      omega
    rcases hs.cases_of hm with ⟨rfl, rfl⟩ | ⟨hx, hxi, hxj, hm⟩
    · rcases hs.cases_of hm' with ⟨rfl, -⟩ | ⟨-, hxi', hxj', hm'⟩
      · exact absurd rfl hxx
      · exact hself x' m' hxi' hxj' hm' hst' hsp₂
    · rcases hs.cases_of hm' with ⟨rfl, rfl⟩ | ⟨-, -, -, hm'⟩
      · exact (hself x m hxi hxj hm hst hsp₁).symm
      · exact h.apart x x' m m' hm hm' hst hst' hsp₁ hsp₂ hxx
  case within =>
    intro x m hm hsp'
    rcases hs.cases_of hm with ⟨-, rfl⟩ | ⟨-, -, -, hm⟩
    · exact h.within id n hid hsp
    · exact h.within x m hm hsp'

/-! ## A buffer of its own -/

/-- A node over a whole new buffer. -/
structure AddAt (rd rd' : Nodes) (r : Nat) (b : OriginalNode) : Prop where
  fresh : rd r = none
  read : ∀ x, rd' x = if x = r then some ⟨b.len, .UF_NONE, b.pOriStart, .empty⟩ else rd x

theorem AddAt.cases_of {m : MemNode} {b : OriginalNode} {r : Nat} (hs : AddAt rd rd' r b) (hm : rd' x = some m) :
    (x = r ∧ m = ⟨b.len, .UF_NONE, b.pOriStart, .empty⟩) ∨ (x ≠ r ∧ rd x = some m) := by
  rw [hs.read] at hm
  split_ifs at hm with hx
  · exact .inl ⟨hx, (Option.some.inj hm).symm⟩
  · exact .inr ⟨hx, hm⟩

theorem AddAt.keep {m : MemNode} {b : OriginalNode} {r : Nat} (hs : AddAt rd rd' r b) (hm : rd x = some m) : rd' x = some m := by
  rw [hs.read, if_neg, hm]
  exact fun he => by rw [he, hs.fresh] at hm; cases hm

theorem Forest.add (h : Forest rd) {b : OriginalNode} {r : Nat} (hs : AddAt rd rd' r b) : Forest rd' := by
  refine ⟨?whole, ?cut, ?parent⟩
  case whole =>
    intro x m hm hst
    rcases hs.cases_of hm with ⟨-, rfl⟩ | ⟨-, hm⟩
    · rfl
    · exact h.whole x m hm hst
  case cut =>
    intro x m hm hst
    rcases hs.cases_of hm with ⟨-, rfl⟩ | ⟨-, hm⟩
    · cases hst
    · obtain ⟨i, j, ni, nj, hc, hi, hj⟩ := h.cut x m hm hst
      exact ⟨i, j, ni, nj, ⟨hc.chips, hs.keep hc.readL, hs.keep hc.readR, hc.lens, hc.place⟩, hi, hj⟩
  case parent =>
    intro x x' m m' y hm hm' hy hy'
    rcases hs.cases_of hm with ⟨-, rfl⟩ | ⟨-, hm⟩
    · exact absurd hy.choose_spec StdMap.not_mem_empty
    · rcases hs.cases_of hm' with ⟨-, rfl⟩ | ⟨-, hm'⟩
      · exact absurd hy'.choose_spec StdMap.not_mem_empty
      · exact h.parent x x' m m' y hm hm' hy hy'

theorem Placed.add (h : Placed P rd bufs) {b : OriginalNode} {r : Nat} (hs : AddAt rd rd' r b) (hlen : 0 < b.len)
    (hfresh : ∀ c ∈ bufs, c.pOriStart + c.len ≤ b.pOriStart ∨ b.pOriStart + b.len ≤ c.pOriStart) :
    Placed P rd' (bufs ++ [b]) := by
  refine ⟨?pos, ?late, ?apart, ?within⟩
  case pos =>
    intro x m hm
    rcases hs.cases_of hm with ⟨-, rfl⟩ | ⟨-, hm⟩
    · exact hlen
    · exact h.pos x m hm
  case late =>
    intro x m y hm hy
    rcases hs.cases_of hm with ⟨-, rfl⟩ | ⟨-, hm⟩
    · exact absurd hy.choose_spec StdMap.not_mem_empty
    · exact h.late x m y hm hy
  case apart =>
    intro x x' m m' hm hm' hst hst' hsp₁ hsp₂ hxx
    have hself : ∀ y c, rd y = some c → ¬P y → Apart ⟨b.len, .UF_NONE, b.pOriStart, .empty⟩ c := by
      intro y c hyc hys
      obtain ⟨d, hd, hin⟩ := h.within y c hyc hys
      obtain ⟨h₁, h₂⟩ := hin
      cases hfresh d hd with
      | inl h => exact .inr (by simp only; omega)
      | inr h => exact .inl (by simp only; omega)
    rcases hs.cases_of hm with ⟨rfl, rfl⟩ | ⟨-, hm⟩
    · rcases hs.cases_of hm' with ⟨rfl, -⟩ | ⟨-, hm'⟩
      · exact absurd rfl hxx
      · exact hself x' m' hm' hsp₂
    · rcases hs.cases_of hm' with ⟨rfl, rfl⟩ | ⟨-, hm'⟩
      · exact (hself x m hm hsp₁).symm
      · exact h.apart x x' m m' hm hm' hst hst' hsp₁ hsp₂ hxx
  case within =>
    intro x m hm hsp
    rcases hs.cases_of hm with ⟨-, rfl⟩ | ⟨-, hm⟩
    · exact ⟨b, List.mem_append_right _ (List.mem_singleton_self b), le_rfl, le_rfl⟩
    · obtain ⟨c, hc, hin⟩ := h.within x m hm hsp
      exact ⟨c, List.mem_append_left _ hc, hin⟩

end MemPool
