/-
When `Alloc` returns.

A pool that is used by `Alloc` and `Free` keeps its nodes and the types that
`Init` has filled (`Rooted`), so `expand` does not return in any state it is
in. `Alloc` returns just when it takes a node from the free list or the
buffers, or makes a buffer of its own (`alloc_returns_iff`).
-/
import XFramework.Mem.MemPoolExpand
import XFramework.Mem.MemPoolRun

open Fallible Bytes

namespace MemPool

variable {s s' t : MemPool} {n n' : MemNode} {x y id len theLen : Nat} {sys p : Int}

/-! ## A node changes -/

/-- The node `x` changes, and nodes are added that are not in pieces. -/
structure Touches (s s' : MemPool) (x : Nat) : Prop where
  other : ∀ y m, y ≠ x → s.nodes.read y = some m → s'.nodes.read y = some m
  self : ∀ m, s.nodes.read x = some m → ∃ m', s'.nodes.read x = some m' ∧ m'.nLen = m.nLen
  new : ∀ y m, y ≠ x → s'.nodes.read y = some m →
    s.nodes.read y = some m ∨ (m.mChips = .empty ∧ m.eStatus ≠ .UF_ALLOC)
  pools : s'.m_pools = s.m_pools

theorem Touches.trans (h : Touches s s' x) (h' : Touches s' t x) : Touches s t x where
  other y m hy hm := h'.other y m hy (h.other y m hy hm)
  self m hm := by
    obtain ⟨m', hm', hlen⟩ := h.self m hm
    obtain ⟨m'', hm'', hlen'⟩ := h'.self m' hm'
    exact ⟨m'', hm'', hlen'.trans hlen⟩
  new y m hy hm := by
    rcases h'.new y m hy hm with hm' | hleaf
    · exact h.new y m hy hm'
    · exact .inr hleaf
  pools := h'.pools.trans h.pools

theorem Touches.known (h : Touches s s' x) (hy : ∃ m, s.nodes.read y = some m) :
    ∃ m', s'.nodes.read y = some m' := by
  obtain ⟨m, hm⟩ := hy
  by_cases hyx : y = x
  · subst hyx
    obtain ⟨m', hm', -⟩ := h.self m hm
    exact ⟨m', hm'⟩
  · exact ⟨m, h.other y m hyx hm⟩

theorem touches_setNode (hx : s.nodes.read x = some n) (n' : MemNode) (hlen : n'.nLen = n.nLen) :
    Touches s (setNode s x n') x where
  other y m hy hm := (Heap.read_write_other hy).trans hm
  self m hm := by
    rw [hx] at hm
    cases hm
    exact ⟨n', (Heap.read_write (Heap.lt_of_read hx) _ _).trans (if_pos rfl), hlen⟩
  new y m hy hm := .inl ((Heap.read_write_other hy).symm.trans hm)
  pools := rfl

/-- The chips of the node `x` are there, and later than it. -/
def Under (s : MemPool) (x : Nat) (n : MemNode) : Prop := ∀ y, ChipOf y n → x < y ∧ ∃ c, s.nodes.read y = some c

theorem Touches.under (h : Touches s s' x) (hunder : Under s x n) : Under s' x n :=
  fun y hy => ⟨(hunder y hy).1, h.known (hunder y hy).2⟩

theorem Touches.standing (h : Touches s s' x) (hs : Standing s) (hx : s'.nodes.read x = some n') (hunder : Under s' x n')
    (hpieces : n'.eStatus = .UF_ALLOC → n'.mChips.entries ≠ []) : Standing s' where
  chips y m z hm hz := by
    by_cases hyx : y = x
    · subst hyx
      rw [hx] at hm
      cases hm
      exact hunder z hz
    · rcases h.new y m hyx hm with hm' | ⟨hleaf, -⟩
      · obtain ⟨hlt, hc⟩ := hs.chips y m z hm' hz
        exact ⟨hlt, h.known hc⟩
      · rw [ChipOf, hleaf] at hz
        exact absurd hz.choose_spec StdMap.not_mem_empty
  pieces y m hm hst := by
    by_cases hyx : y = x
    · subst hyx
      rw [hx] at hm
      cases hm
      exact hpieces hst
    · rcases h.new y m hyx hm with hm' | ⟨-, hleaf⟩
      · exact hs.pieces y m hm' hst
      · exact absurd hst hleaf

/-! ## The invariant -/

/-- The capacity of the types in a pool that `Init` has filled. -/
def filled : List (Nat × Nat) := [(4, 64), (8, 32), (16, 64), (32, 96)]

/-- Every node that the pool refers to is there, and the types are as `Init` has filled them. -/
structure Rooted (s : MemPool) : Prop where
  standing : Standing s
  listed : ∀ k x, InSet s.m_poolset k x → ∃ n, s.nodes.read x = some n
  pooled : ∀ k x, InSet s.m_pools k x → ∃ n, s.nodes.read x = some n
  recorded : ∀ e ∈ s.m_record, ∃ n, s.nodes.read e.2 = some n
  capacity : ∀ e ∈ filled, s.getCapacityByType e.1 = .ok e.2

theorem getCapacityByType_keep {c : Nat}
    (hread : ∀ y m, s.nodes.read y = some m → ∃ m', s'.nodes.read y = some m' ∧ m'.nLen = m.nLen)
    (hfind : s'.m_pools.find? x = s.m_pools.find? x) (h : s.getCapacityByType x = .ok c) : s'.getCapacityByType x = .ok c := by
  rw [getCapacityByType, hfind]
  refine foldlM_imp h fun c c' y _ hstep => ?_
  obtain ⟨m, hm, hc⟩ := bind_eq_ok.1 hstep
  have hread' : s.nodes.read y = some m := by
    rw [deref] at hm
    cases hy : s.nodes.read y with
    | none => rw [hy] at hm; cases hm
    | some k =>
      rw [hy] at hm
      cases hm
      rfl
  obtain ⟨m', hm', hlen⟩ := hread y m hread'
  exact bind_eq_ok.2 ⟨m', deref_eq hm', hlen ▸ hc⟩

theorem Rooted.touch (h : Rooted s) (ht : Touches s s' x) (hstanding : Standing s')
    (hset : ∀ k y, InSet s'.m_poolset k y → InSet s.m_poolset k y ∨ ∃ m, s'.nodes.read y = some m)
    (hrec : ∀ e ∈ s'.m_record, e ∈ s.m_record ∨ ∃ m, s'.nodes.read e.2 = some m) : Rooted s' where
  standing := hstanding
  listed k y hy := (hset k y hy).elim (fun hold => ht.known (h.listed k y hold)) id
  pooled k y hy := ht.known (h.pooled k y (ht.pools ▸ hy))
  recorded e he := (hrec e he).elim (fun hold => ht.known (h.recorded e hold)) id
  capacity e he := by
    refine getCapacityByType_keep (fun y m hm => ?_) (by rw [ht.pools]) (h.capacity e he)
    by_cases hyx : y = x
    · subst hyx
      exact ht.self m hm
    · exact ⟨m, ht.other y m hyx hm, rfl⟩

/-! ## Taking a node -/

/-- What `insertChip` leaves: the node, with a chip `y`. -/
structure Inserted (s s' : MemPool) (x : Nat) (n n' : MemNode) (y : Nat) : Prop where
  touches : Touches s s' x
  read : s'.nodes.read x = some n'
  under : Under s' x n'
  chips : n'.mChips.entries ≠ []
  status : n'.eStatus = n.eStatus
  nLen : n'.nLen = n.nLen
  pStart : n'.pStart = n.pStart
  chip : ∃ c, s'.nodes.read y = some c
  set : s'.m_poolset = s.m_poolset
  record : s'.m_record = s.m_record

theorem insertChip_spec (len : Nat) (chip : MemNode) (hx : s.nodes.read x = some n) (hunder : Under s x n)
    (hchips : chip.mChips = .empty) (hst : chip.eStatus ≠ .UF_ALLOC) :
    ∃ s' n' y, insertChip s x n len chip = (s', n', y) ∧ Inserted s s' x n n' y := by
  cases hfind : n.mChips.find? len with
  | some y =>
    have hy : ChipOf y n := ⟨len, StdMap.find?_eq_some.1 hfind⟩
    refine ⟨s, n, y, by rw [insertChip, hfind], ?_⟩
    refine ⟨⟨fun _ _ _ h => h, fun m hm => ⟨m, hm, rfl⟩, fun _ _ _ h => .inl h, rfl⟩, hx, hunder, ?_, rfl, rfl, rfl,
      (hunder y hy).2, rfl, rfl⟩
    intro hnil
    rw [ChipOf, hnil] at hy
    exact absurd hy.choose_spec List.not_mem_nil
  | none =>
    have hlt := Heap.lt_of_read hx
    have hmem := fun e => StdMap.mem_insert_new (v := s.nodes.length) (x := e) (StdMap.find?_eq_none.1 hfind)
    have hread : ∀ y, (setNode { s with nodes := s.nodes.new chip } x
        { n with mChips := n.mChips.insert len s.nodes.length }).nodes.read y =
          if y = x then some { n with mChips := n.mChips.insert len s.nodes.length }
          else if y = s.nodes.length then some chip else s.nodes.read y := by
      intro y
      rw [setNode, Heap.read_write (by rw [Heap.length_new]; omega), Heap.read_new]
    have htouches : Touches s (setNode { s with nodes := s.nodes.new chip } x
        { n with mChips := n.mChips.insert len s.nodes.length }) x := by
      refine ⟨fun y m hy hm => ?_, fun m hm => ?_, fun y m hy hm => ?_, rfl⟩
      · rw [hread, if_neg hy, if_neg (Nat.ne_of_lt (Heap.lt_of_read hm)), hm]
      · rw [hx] at hm
        cases hm
        exact ⟨_, (hread x).trans (if_pos rfl), rfl⟩
      · rw [hread, if_neg hy] at hm
        split_ifs at hm with hnew
        · cases hm
          exact .inr ⟨hchips, hst⟩
        · exact .inl hm
    have hnew : (setNode { s with nodes := s.nodes.new chip } x
        { n with mChips := n.mChips.insert len s.nodes.length }).nodes.read s.nodes.length = some chip := by
      rw [hread, if_neg (Nat.ne_of_gt hlt), if_pos rfl]
    refine ⟨_, _, s.nodes.length, insertChip_new hfind, ?_⟩
    refine ⟨htouches, by rw [hread, if_pos rfl], fun y hy => ?_, ?_, rfl, rfl, rfl, ⟨chip, hnew⟩, rfl, rfl⟩
    · obtain ⟨k, hk⟩ := hy
      rcases (hmem (k, y)).1 hk with hold | heq
      · obtain ⟨hxy, hc⟩ := hunder y ⟨k, hold⟩
        exact ⟨hxy, htouches.known hc⟩
      · cases heq
        exact ⟨hlt, chip, hnew⟩
    · intro hnil
      have := (hmem (len, s.nodes.length)).2 (.inr rfl)
      rw [← StdMap.mem_entries] at this
      dsimp only at hnil
      rw [hnil] at this
      cases this

theorem Rooted.known (h : Rooted s) (ht : Touches s s' x) (hread : s'.nodes.read x = some n') (hunder : Under s' x n')
    (hpieces : n'.eStatus = .UF_ALLOC → n'.mChips.entries ≠ [])
    (hset : ∀ k y, InSet s'.m_poolset k y → InSet s.m_poolset k y ∨ ∃ m, s'.nodes.read y = some m)
    (hrec : ∀ e ∈ s'.m_record, e ∈ s.m_record ∨ ∃ m, s'.nodes.read e.2 = some m) : Rooted s' :=
  h.touch ht (ht.standing h.standing hread hunder hpieces) hset hrec

theorem mem_record_insert {q : Int} {e : Int × Nat} (h : e ∈ s.m_record.insert q y) : e ∈ s.m_record ∨ e.2 = y := by
  rw [StdMap.mem_insert] at h
  exact h.imp id fun h => by rw [h.1]

/-- `GetAddress` of a node that is long enough. -/
theorem getAddress_rooted (h : Rooted s) (hx : s.nodes.read x = some n) (hle : len ≤ n.nLen) :
    ∃ s', getAddress s x len = .ok (s', some n.pStart) ∧ Rooted s' := by
  rcases Nat.lt_or_eq_of_le hle with hlt | heq
  · -- the node is put in pieces, and the two chips inserted
    have h₀ : Touches s (setNode s x { n with eStatus := .UF_ALLOC }) x := touches_setNode hx _ rfl
    have hread₀ : (setNode s x { n with eStatus := .UF_ALLOC }).nodes.read x = some { n with eStatus := .UF_ALLOC } :=
      (Heap.read_write (Heap.lt_of_read hx) _ _).trans (if_pos rfl)
    have hunder₀ : Under (setNode s x { n with eStatus := .UF_ALLOC }) x { n with eStatus := .UF_ALLOC } :=
      fun y hy => ⟨(h.standing.chips x n y hx hy).1, h₀.known (h.standing.chips x n y hx hy).2⟩
    obtain ⟨s₁, n₁, front, hrun₁, hins₁⟩ :=
      insertChip_spec len ⟨len, .UF_USE, n.pStart, .empty⟩ hread₀ hunder₀ rfl (by simp)
    obtain ⟨s₂, n₂, next, hrun₂, hins₂⟩ := insertChip_spec (s := { s₁ with m_record := s₁.m_record.insert n₁.pStart front })
      (n₁.nLen - len) ⟨n₁.nLen - len, .UF_NONE, n₁.pStart + len, .empty⟩ hins₁.read hins₁.under rfl (by simp)
    have h₁ : Touches s { s₁ with m_record := s₁.m_record.insert n₁.pStart front } x := by
      obtain ⟨hother, hself, hnew, hpools⟩ := h₀.trans hins₁.touches
      exact ⟨hother, hself, hnew, hpools⟩
    have h₂ : Touches s { s₂ with m_poolset := pushBack s₂.m_poolset (n₁.nLen - len) next } x := by
      obtain ⟨hother, hself, hnew, hpools⟩ := h₁.trans hins₂.touches
      exact ⟨hother, hself, hnew, hpools⟩
    refine ⟨{ s₂ with m_poolset := pushBack s₂.m_poolset (n₁.nLen - len) next }, ?_, ?_⟩
    · rw [getAddress_pieces hx hlt, hrun₁]
      dsimp only
      rw [hrun₂]
      dsimp only
      rw [hins₂.pStart, hins₁.pStart]
    · refine h.known h₂ hins₂.read hins₂.under (fun _ => hins₂.chips) (fun k y hy => ?_) fun e he => ?_
      · rcases inSet_pushBack.1 hy with hy | ⟨-, rfl⟩
        · rw [hins₂.set, hins₁.set] at hy
          exact .inl hy
        · exact .inr hins₂.chip
      · dsimp only at he
        rw [hins₂.record] at he
        rcases mem_record_insert he with he | he
        · rw [hins₁.record] at he
          exact .inl he
        · exact .inr (he ▸ hins₂.touches.known hins₁.chip)
  · have ht : Touches s { setNode s x { n with eStatus := .UF_USE } with m_record := s.m_record.insert n.pStart x } x := by
      obtain ⟨hother, hself, hnew, hpools⟩ := touches_setNode hx { n with eStatus := .UF_USE } rfl
      exact ⟨hother, hself, hnew, hpools⟩
    have hread : (setNode s x { n with eStatus := .UF_USE }).nodes.read x = some { n with eStatus := .UF_USE } :=
      (Heap.read_write (Heap.lt_of_read hx) _ _).trans (if_pos rfl)
    refine ⟨_, getAddress_whole hx heq.symm, h.known ht hread (fun y hy => ?_) (by simp) (fun k y hy => .inl hy) fun e he => ?_⟩
    · exact ⟨(h.standing.chips x n y hx hy).1, ht.known (h.standing.chips x n y hx hy).2⟩
    · exact (mem_record_insert he).imp_right fun heq => ⟨_, (congrArg (Heap.read _) heq).trans hread⟩

/-! ## AllocImpl -/

/-- A request of the rounded length `theLen` is served from the free list of its length, which has to have a node then, by
a free node that is long enough, or from a new buffer. -/
def Served (s : MemPool) (theLen : Nat) : Option (List Nat) → Prop
  | some ids => ids ≠ []
  | none => firstFree s theLen (listedFrom s theLen) ≠ none ∨ OwnBuffer s theLen ∨
    firstFree s theLen (rootsFrom s theLen) ≠ none

/-- `Alloc(len)` finds what it looks for. A rounded length is an `int`. -/
def Returns (s : MemPool) (len : Nat) : Prop :=
  getCorrectLessChipLen len < 2 ^ 31 ∧
    Served s (getCorrectLessChipLen len) (s.m_poolset.find? (getCorrectLessChipLen len))

instance : ∀ {ids : Option (List Nat)}, Decidable (Served s theLen ids)
  | some _ => inferInstanceAs (Decidable (_ ≠ _))
  | none => inferInstanceAs (Decidable (_ ∨ _ ∨ _))

instance : Decidable (Returns s len) := inferInstanceAs (Decidable (_ ∧ _))

theorem returns_lock : Returns { s with m_lock := true } len ↔ Returns s len := by
  rw [Returns, Returns]
  refine and_congr_right fun _ => ?_
  change Served { s with m_lock := true } _ (s.m_poolset.find? _) ↔ _
  cases s.m_poolset.find? (getCorrectLessChipLen len) with
  | some ids => exact Iff.rfl
  | none =>
    rw [Served, Served, firstFree_lock, firstFree_lock]
    exact Iff.rfl

theorem Rooted.congr (h : Rooted s) (hn : s'.nodes = s.nodes) (hset : s'.m_poolset = s.m_poolset) (hp : s'.m_pools = s.m_pools)
    (hr : s'.m_record = s.m_record) : Rooted s' := by
  cases s
  cases s'
  cases hn
  cases hset
  cases hp
  cases hr
  exact ⟨⟨h.standing.chips, h.standing.pieces⟩, h.listed, h.pooled, h.recorded, h.capacity⟩

theorem Rooted.known_listed (h : Rooted s) (theLen : Nat) : Known s (listedFrom s theLen) := known_entriesFrom h.listed theLen

theorem Rooted.known_roots (h : Rooted s) (theLen : Nat) : Known s (rootsFrom s theLen) := known_entriesFrom h.pooled theLen

/-- A list of the free list loses nodes. -/
theorem inSet_set_sub {m : StdMap Nat (List Nat)} {k k' : Nat} {l' : List Nat} (hsub : ∀ y ∈ l', y ∈ (m.find? k).getD [])
    (hy : InSet (m.set k l') k' y) : InSet m k' y := by
  obtain ⟨l, hl, hyl⟩ := hy
  rcases StdMap.mem_set.1 hl with ⟨hl, -⟩ | ⟨heq, w, hw⟩
  · exact ⟨l, hl, hyl⟩
  · cases heq
    have := hsub y hyl
    rw [StdMap.find?_eq_some.2 hw] at this
    exact ⟨w, hw, this⟩

theorem Rooted.unlist (h : Rooted s) (k : Nat) (l' : List Nat) (hsub : ∀ y ∈ l', y ∈ (s.m_poolset.find? k).getD []) :
    Rooted { s with m_poolset := s.m_poolset.set k l' } where
  standing := ⟨h.standing.chips, h.standing.pieces⟩
  listed k' y hy := h.listed k' y (inSet_set_sub hsub hy)
  pooled := h.pooled
  recorded := h.recorded
  capacity := h.capacity

/-- The status of a node changes, of one that is not in pieces then. -/
theorem Rooted.mark (h : Rooted s) (hx : s.nodes.read x = some n) (st : UseFor) (hst : st ≠ .UF_ALLOC) :
    Rooted (setNode s x { n with eStatus := st }) := by
  have ht : Touches s (setNode s x { n with eStatus := st }) x := touches_setNode hx _ rfl
  refine h.known ht ((Heap.read_write (Heap.lt_of_read hx) _ _).trans (if_pos rfl)) (fun y hy => ?_) (fun hal => absurd hal hst)
    (fun k y hy => .inl hy) fun e he => .inl he
  exact ⟨(h.standing.chips x n y hx hy).1, ht.known (h.standing.chips x n y hx hy).2⟩

theorem Rooted.record (h : Rooted s) {m : StdMap Int Nat} (hm : ∀ e ∈ m, e ∈ s.m_record ∨ ∃ n, s.nodes.read e.2 = some n) :
    Rooted { s with m_record := m } where
  standing := ⟨h.standing.chips, h.standing.pieces⟩
  listed := h.listed
  pooled := h.pooled
  recorded e he := (hm e he).elim (h.recorded e) fun h => h
  capacity := h.capacity

theorem Rooted.pushBack (h : Rooted s) {k : Nat} (hx : ∃ n, s.nodes.read x = some n) :
    Rooted { s with m_poolset := pushBack s.m_poolset k x } where
  standing := ⟨h.standing.chips, h.standing.pieces⟩
  listed k' y hy := (inSet_pushBack.1 hy).elim (h.listed k' y) fun h => h.2 ▸ hx
  pooled := h.pooled
  recorded := h.recorded
  capacity := h.capacity

theorem filled_le : ∀ e ∈ filled, e.1 ≤ 32 := by decide

theorem Rooted.addLong (h : Rooted s) (theLen : Nat) (sys : Int) : Rooted (addLong s theLen sys) := by
  rw [MemPool.addLong]
  split_ifs with hown
  · have hgrown : Grown (s.addBuffer theLen sys) (pushNode (s.addBuffer theLen sys) ⟨theLen, .UF_NONE, sys, .empty⟩) :=
      grown_pushNode ..
    have hnew : (pushNode (s.addBuffer theLen sys) ⟨theLen, .UF_NONE, sys, .empty⟩).nodes.read s.nodes.length =
        some ⟨theLen, .UF_NONE, sys, .empty⟩ := (Heap.read_new _ _ _).trans (if_pos rfl)
    have hback : ∀ y m, (pushNode (s.addBuffer theLen sys) ⟨theLen, .UF_NONE, sys, .empty⟩).nodes.read y = some m →
        s.nodes.read y = some m ∨ m = ⟨theLen, .UF_NONE, sys, .empty⟩ := by
      intro y m hm
      rw [pushNode, Heap.read_new] at hm
      split_ifs at hm
      · exact .inr (Option.some.inj hm).symm
      · exact .inl hm
    have hkeep : ∀ y, (∃ m, s.nodes.read y = some m) →
        ∃ m, (pushNode (s.addBuffer theLen sys) ⟨theLen, .UF_NONE, sys, .empty⟩).nodes.read y = some m :=
      fun y hy => hy.imp (hgrown.read y)
    constructor
    case standing =>
      refine ⟨fun y m z hm hz => ?_, fun y m hm hst => ?_⟩
      · rcases hback y m hm with hm | rfl
        · obtain ⟨hlt, hc⟩ := h.standing.chips y m z hm hz
          exact ⟨hlt, hkeep z hc⟩
        · exact absurd hz.choose_spec StdMap.not_mem_empty
      · rcases hback y m hm with hm | rfl
        · exact h.standing.pieces y m hm hst
        · cases hst
    case listed => exact fun k y hy => hkeep y (h.listed k y hy)
    case pooled =>
      intro k y hy
      rcases inSet_pushBack.1 hy with hy | ⟨-, rfl⟩
      · exact hkeep y (h.pooled k y hy)
      · exact ⟨_, hnew⟩
    case recorded => exact fun e he => hkeep e.2 (h.recorded e he)
    case capacity =>
      intro e he
      have hne : e.1 ≠ theLen := by
        have := filled_le e he
        omega
      exact getCapacityByType_keep (s := s) (fun y m hm => ⟨m, hgrown.read y m hm, rfl⟩) (find?_pushBack_ne hne)
        (h.capacity e he)
  · exact h

theorem takeBack_rooted (h : Rooted s) {ids : List Nat} (hids : s.m_poolset.find? theLen = some ids) (hne : ids ≠ []) :
    ∃ s' p, takeBack s theLen ids = .ok (s', p) ∧ Rooted s' := by
  obtain ⟨n, hx⟩ := h.listed theLen (ids.getLast hne) ⟨ids, StdMap.find?_eq_some.1 hids, List.getLast_mem hne⟩
  have hmark := h.mark hx .UF_USE (by simp)
  have hread : (setNode s (ids.getLast hne) { n with eStatus := .UF_USE }).nodes.read (ids.getLast hne) =
      some { n with eStatus := .UF_USE } := (Heap.read_write (Heap.lt_of_read hx) _ _).trans (if_pos rfl)
  have hrecord := hmark.record (m := s.m_record.insert n.pStart (ids.getLast hne)) fun e he =>
    (mem_record_insert he).imp_right fun heq => ⟨_, (congrArg (Heap.read _) heq).trans hread⟩
  have hunlist := hrecord.unlist theLen ids.dropLast fun y hy => by
    change y ∈ (s.m_poolset.find? theLen).getD []
    rw [hids]
    exact List.dropLast_subset _ hy
  refine ⟨_, some n.pStart, ?_, hunlist⟩
  rw [takeBack, List.getLast?_eq_getLast_of_ne_nil hne]
  dsimp only
  rw [deref_eq hx]
  rfl

theorem tryPools_none {es : List (Nat × List Nat)} (h : Standing s) (hk : Known s (es.flatMap (·.2)))
    (hf : firstFree s theLen (es.flatMap (·.2)) = none) : tryPools theLen s es = .ok (s, none) := by
  induction es with
  | nil => rfl
  | cons e es ih =>
    rw [List.flatMap_cons, firstFree_append, Option.or_eq_none_iff] at hf
    rw [tryPools, tryNodes_none h (fun y hy => hk y (List.mem_append_left _ hy)) hf.1]
    exact ih (fun y hy => hk y (List.mem_append_right _ hy)) hf.2

theorem trySet_rooted (h : Rooted s) (hf : firstFree s theLen (listedFrom s theLen) = some x) :
    ∃ s' p, trySet theLen s (entriesFrom s.m_poolset theLen) = .ok (s', some p) ∧ Rooted s' := by
  obtain ⟨n, hn, -, hle⟩ := firstFree_spec hf
  obtain ⟨s₁, hget, hroot⟩ := getAddress_rooted h hn hle
  obtain ⟨k, ids, j, id, -, -, -, hrun⟩ := trySet_some h.standing (h.known_listed theLen) hf hget
  exact ⟨_, _, hrun, hroot.unlist _ _ fun y hy => List.mem_of_mem_eraseIdx hy⟩

theorem tryPools_rooted (h : Rooted s) (hf : firstFree s theLen (rootsFrom s theLen) = some x) :
    ∃ s' p, tryPools theLen s (entriesFrom s.m_pools theLen) = .ok (s', some p) ∧ Rooted s' := by
  obtain ⟨n, hn, -, hle⟩ := firstFree_spec hf
  obtain ⟨s₁, hget, hroot⟩ := getAddress_rooted h hn hle
  exact ⟨s₁, _, tryPools_some h.standing (h.known_roots theLen) hf hget, hroot⟩

/-- `GetRemain` comes to its end. -/
theorem getRemain_ok (h : Standing s) (fuel : Nat) (hid : ∃ n, s.nodes.read id = some n) (hfuel : s.nodes.length < fuel + id) :
    ∃ r, getRemain s fuel id = .ok r := by
  induction fuel generalizing id with
  | zero =>
    obtain ⟨n, hn⟩ := hid
    have := Heap.lt_of_read hn
    omega
  | succ fuel ih =>
    obtain ⟨n, hn⟩ := hid
    rw [getRemain, deref_eq hn]
    simp only [bind, Except.bind]
    cases hst : n.eStatus with
    | UF_NONE => exact ⟨n.nLen, rfl⟩
    | UF_USE => exact ⟨0, rfl⟩
    | UF_ALLOC =>
      obtain ⟨r, hr, -⟩ := foldlM_exists (fun _ => True) (f := fun remain e => do
        let r ← getRemain s fuel e.2
        .ok (remain + r)) (l := n.mChips.entries) (s := 0) trivial fun c e he _ => by
          obtain ⟨hlt, hchip⟩ := h.chips id n e.2 hn ⟨e.1, he⟩
          obtain ⟨r, hr⟩ := ih hchip (by omega)
          exact ⟨c + r, by rw [hr]; rfl, trivial⟩
      exact ⟨r, hr⟩

theorem Rooted.classes (h : Rooted s) : Classes s := by
  have hremain : ∀ t, ∃ r, s.getRemainByType t = .ok r := by
    intro t
    obtain ⟨r, hr, -⟩ := foldlM_exists (fun _ => True) (f := fun nCount id => do
      let r ← s.getRemain s.depth id
      .ok (nCount + r)) (l := (s.m_pools.find? t).getD []) (s := 0) trivial fun c x hx _ => by
        have hknown : ∃ n, s.nodes.read x = some n := by
          cases hfind : s.m_pools.find? t with
          | none => rw [hfind] at hx; cases hx
          | some l =>
            rw [hfind] at hx
            exact h.pooled t x ⟨l, StdMap.find?_eq_some.1 hfind, hx⟩
        obtain ⟨r, hr⟩ := getRemain_ok h.standing s.depth hknown (by rw [depth]; omega)
        exact ⟨c + r, by rw [hr]; rfl, trivial⟩
    exact ⟨r, hr⟩
  have hclass : ∀ e ∈ filled, ∃ r, Class s e.1 e.2 r := by
    intro e he
    obtain ⟨r, hr⟩ := hremain e.1
    exact ⟨r, h.capacity e he, hr⟩
  exact ⟨hclass (4, 64) (by decide), hclass (8, 32) (by decide), hclass (16, 64) (by decide), hclass (32, 96) (by decide)⟩

theorem Rooted.expand_stuck (h : Rooted s) (sys : Int) : expand s sys = .error .outOfFuel := by
  have hadded : Rooted (s.addBuffer (DEFAULTBLOCK * DEFAULTCOUNT) sys) := h.congr rfl rfl rfl rfl
  rw [expand, updatePools, layPasses_stuck hadded.classes]
  rfl

/-- `AllocImpl` returns when it finds what it looks for. -/
theorem take_returns (h : Rooted s) (hret : Returns s len) (sys : Int) : ∃ r, take s len sys = .ok r ∧ Rooted r.1 := by
  obtain ⟨hsmall, hret⟩ := hret
  simp only [take]
  rw [if_neg (Nat.not_le.2 hsmall)]
  generalize getCorrectLessChipLen len = theLen at hret
  cases hkey : s.m_poolset.find? theLen with
  | some ids =>
    rw [hkey] at hret
    obtain ⟨s', p, hrun, hroot⟩ := takeBack_rooted h hkey hret
    exact ⟨_, hrun, hroot⟩
  | none =>
    rw [hkey] at hret
    dsimp only
    cases hf : firstFree s theLen (listedFrom s theLen) with
    | some x =>
      obtain ⟨s₁, p, hrun, hroot⟩ := trySet_rooted h hf
      rw [hrun]
      exact ⟨_, rfl, hroot.addLong theLen sys⟩
    | none =>
      rw [trySet_none h.standing (h.known_listed theLen) hf]
      have hfound : ∃ x, firstFree (addLong s theLen sys) theLen (rootsFrom (addLong s theLen sys) theLen) = some x := by
        rw [Served, hf] at hret
        rcases hret with hno | hown | hroots
        · exact absurd rfl hno
        · exact ⟨_, (addLong_found hown sys).2⟩
        · by_cases hown : OwnBuffer s theLen
          · exact ⟨_, (addLong_found hown sys).2⟩
          · have hadd : addLong s theLen sys = s := if_neg hown
            rw [hadd]
            exact Option.ne_none_iff_exists'.1 hroots
      obtain ⟨x, hx⟩ := hfound
      obtain ⟨s₁, p, hrun, hroot⟩ := tryPools_rooted (h.addLong theLen sys) hx
      refine ⟨(s₁, some p), ?_, hroot⟩
      simp only [bind, Except.bind]
      rw [hrun]

/-- Else it does not return. -/
theorem take_stuck (h : Rooted s) (hnot : ¬Returns s len) (sys : Int) : ∃ e, take s len sys = .error e := by
  simp only [take]
  rw [Returns] at hnot
  by_cases hsmall : getCorrectLessChipLen len < 2 ^ 31
  · rw [if_neg (Nat.not_le.2 hsmall)]
    replace hnot := fun hr => hnot ⟨hsmall, hr⟩
    generalize getCorrectLessChipLen len = theLen at hnot
    cases hkey : s.m_poolset.find? theLen with
    | some ids =>
      rw [hkey] at hnot
      have hnil : ids = [] := Decidable.not_not.1 (hnot : ¬ids ≠ [])
      exact ⟨.undefined, by rw [hnil]; rfl⟩
    | none =>
      rw [hkey] at hnot
      dsimp only
      obtain ⟨hlisted, hnot⟩ := not_or.1 hnot
      obtain ⟨hown, hroots⟩ := not_or.1 hnot
      replace hlisted := Decidable.not_not.1 hlisted
      replace hroots := Decidable.not_not.1 hroots
      have hadd : addLong s theLen sys = s := if_neg hown
      refine ⟨.outOfFuel, ?_⟩
      rw [trySet_none h.standing (h.known_listed theLen) hlisted]
      simp only [bind, Except.bind]
      rw [hadd]
      have htry : tryPools theLen s (entriesFrom s.m_pools theLen) = .ok (s, none) :=
        tryPools_none h.standing (h.known_roots theLen) hroots
      rw [htry]
      dsimp only
      rw [expandAndTake, h.expand_stuck]
      rfl
  · rw [if_pos (Nat.le_of_not_lt hsmall)]
    exact ⟨_, rfl⟩

/-! ## Runs -/

theorem alloc_iff (h : Rooted s) (hl : s.m_lock = false) (sys : Int) : (∃ r, alloc s len sys = .ok r) ↔ Returns s len := by
  have h₀ : Rooted { s with m_lock := true } := h.congr rfl rfl rfl rfl
  constructor
  case mp =>
    intro ⟨r, hr⟩
    obtain ⟨t, ht, -⟩ := alloc_ok hl hr
    by_contra hnot
    obtain ⟨e, he⟩ := take_stuck h₀ (returns_lock.not.2 hnot) sys
    rw [he] at ht
    cases ht
  case mpr =>
    intro hret
    obtain ⟨r, hr, -⟩ := take_returns h₀ (returns_lock.2 hret) sys
    exact ⟨_, bind_eq_ok.2 ⟨_, lock_eq hl, bind_eq_ok.2 ⟨r, hr, rfl⟩⟩⟩

theorem alloc_rooted {r : MemPool × Option Int} (h : Rooted s) (hl : s.m_lock = false) (hr : alloc s len sys = .ok r) :
    Rooted r.1 ∧ r.1.m_lock = false := by
  have hret := (alloc_iff h hl sys).1 ⟨r, hr⟩
  have h₀ : Rooted { s with m_lock := true } := h.congr rfl rfl rfl rfl
  obtain ⟨r', hr', hroot⟩ := take_returns h₀ (returns_lock.2 hret) sys
  obtain ⟨t, ht, heq⟩ := alloc_ok hl hr
  cases hr'.symm.trans ht
  rw [heq]
  exact ⟨hroot.congr rfl rfl rfl rfl, rfl⟩

theorem free_rooted (h : Rooted s) (hr : free s p = .ok t) : Rooted t ∧ t.m_lock = false := by
  obtain ⟨s₀, hs₀, hr⟩ := bind_eq_ok.1 hr
  obtain ⟨s₁, hgive, hr⟩ := bind_eq_ok.1 hr
  cases hr
  have h₀ : Rooted s₀ := by
    rw [lock] at hs₀
    split_ifs at hs₀
    cases hs₀
    exact h.congr rfl rfl rfl rfl
  refine ⟨Rooted.congr (s := s₁) ?_ rfl rfl rfl rfl, rfl⟩
  rw [give] at hgive
  cases hfind : s₀.m_record.find? p with
  | none => rw [hfind] at hgive; cases hgive
  | some x =>
    rw [hfind] at hgive
    obtain ⟨n, hx⟩ := h₀.recorded (p, x) (StdMap.find?_eq_some.1 hfind)
    dsimp only at hx hgive
    rw [deref_eq hx] at hgive
    cases hgive
    have hmark := h₀.mark hx .UF_NONE (by simp)
    have hlisted := hmark.pushBack (k := n.nLen) (x := x) ⟨_, (Heap.read_write (Heap.lt_of_read hx) _ _).trans (if_pos rfl)⟩
    exact hlisted.record fun e he => .inl (StdMap.mem_erase.1 he).1

theorem init_rooted {m : Mem} {b : Int} (hs : init m b = .ok s) : Rooted s := by
  obtain ⟨s₀, hs₀, hlaid, hbufs, -⟩ := init_laid m b
  cases hs.symm.trans hs₀
  have hinv := init_inv hlaid hbufs
  refine ⟨hinv.shape.standing, fun k x hx => ?_, fun k x hx => (hinv.roots k x hx).1, fun e he => ?_, fun e he => ?_⟩
  · obtain ⟨n, hn, -⟩ := hinv.listed k x hx
    exact ⟨n, hn⟩
  · obtain ⟨n, hn, -⟩ := hinv.recorded e.1 e.2 he
    exact ⟨n, hn⟩
  · have hclass : Class (bare m b) e.1 0 0 := ⟨rfl, rfl⟩
    cases (init_eq m b).symm.trans hs
    have hfull := hclass.push_all (layout.map (laidNode b)) fun n hn => by
      obtain ⟨e, -, rfl⟩ := List.mem_map.1 hn
      rfl
    have hbytes : bytesOfType e.1 (layout.map (laidNode b)) = (layout.map fun l => if l.1 = e.1 then e.1 else 0).sum := by
      rw [bytesOfType, List.map_map]
      rfl
    have hsum : ∀ e ∈ filled, (layout.map fun l => if l.1 = e.1 then e.1 else 0).sum = e.2 := by decide +kernel
    rw [hbytes, hsum e he, Nat.zero_add] at hfull
    exact hfull.capacity

/-- Only `Alloc` of a byte at least, and `Free`. -/
def Plain : Action → Prop
  | .alloc len _ => 0 < len
  | .free _ => True
  | _ => False

instance (a : Action) : Decidable (Plain a) :=
  match a with
  | .alloc _ _ => inferInstanceAs (Decidable (_ < _))
  | .free _ => isTrue trivial
  | .realloc _ _ _ => isFalse fun h => h
  | .sweep => isFalse fun h => h

/-- What a run keeps. -/
theorem run_rooted {m : Mem} {b : Int} {actions : List Action} {c : Client} (hs : init m b = .ok s)
    (hplain : ∀ a ∈ actions, Plain a) (hrun : actions.foldlM step ⟨s, []⟩ = .ok c) :
    Rooted c.pool ∧ c.pool.m_lock = false := by
  have hlock : s.m_lock = false := by
    obtain ⟨s₀, hs₀, -, -, hl⟩ := init_laid m b
    cases hs.symm.trans hs₀
    exact hl
  refine foldlM_run (fun c : Client => Rooted c.pool ∧ c.pool.m_lock = false) hrun ⟨init_rooted hs, hlock⟩ ?_
  intro c c' a ha ⟨hroot, hl⟩ hstep
  cases a with
  | alloc len sys =>
    obtain ⟨r, hr, hc⟩ := bind_eq_ok.1 hstep
    cases hc
    exact alloc_rooted hroot hl hr
  | free p =>
    obtain ⟨t, ht, hc⟩ := bind_eq_ok.1 hstep
    cases hc
    exact free_rooted hroot ht
  | realloc p newLen sys => exact (hplain _ ha).elim
  | sweep => exact (hplain _ ha).elim

/-- In every state that is reached, `Alloc` returns just when it finds what it looks for, and the loop of `UpdatePools`
that `expand` calls does not end, however long it runs. -/
theorem alloc_returns_iff {m : Mem} {b : Int} {actions : List Action} {c : Client} (hs : init m b = .ok s)
    (hplain : ∀ a ∈ actions, Plain a) (hrun : actions.foldlM step ⟨s, []⟩ = .ok c) :
    (∀ len, 0 < len → ∀ sys, (∃ r, alloc c.pool len sys = .ok r) ↔ Returns c.pool len) ∧
      ∀ fuel sys, layPasses sys (DEFAULTBLOCK * DEFAULTCOUNT) fuel false
        (c.pool.addBuffer (DEFAULTBLOCK * DEFAULTCOUNT) sys) 0 = .error .outOfFuel := by
  obtain ⟨hroot, hl⟩ := run_rooted hs hplain hrun
  refine ⟨fun len _ sys => alloc_iff hroot hl sys, fun fuel sys => ?_⟩
  have hadded : Rooted (c.pool.addBuffer (DEFAULTBLOCK * DEFAULTCOUNT) sys) := hroot.congr rfl rfl rfl rfl
  exact layPasses_stuck hadded.classes fuel

/-- Splits, a buffer of its own, and a node that is given back. -/
theorem alloc_returns_iff_mixed : ∃ s, init (fun _ => 0) 1000 = .ok s ∧ ∃ c, [Action.alloc 5 5000, .alloc 100 5000,
      .free 1032, .alloc 5 9000].foldlM step ⟨s, []⟩ = .ok c ∧
    (∀ len, 0 < len → ∀ sys, (∃ r, alloc c.pool len sys = .ok r) ↔ Returns c.pool len) ∧
      ∀ fuel sys, layPasses sys (DEFAULTBLOCK * DEFAULTCOUNT) fuel false
        (c.pool.addBuffer (DEFAULTBLOCK * DEFAULTCOUNT) sys) 0 = .error .outOfFuel := by
  have hrun : ∃ s, init (fun _ => 0) 1000 = .ok s ∧ ∃ c, [Action.alloc 5 5000, .alloc 100 5000, .free 1032,
      .alloc 5 9000].foldlM step ⟨s, []⟩ = .ok c ∧ Returns c.pool 3 := by decide +kernel
  obtain ⟨s, hs, c, hc, -⟩ := hrun
  exact ⟨s, hs, c, hc, alloc_returns_iff hs (by decide) hc⟩

/-- The second request of 64 bytes does not return: the buffer of the first one is in use. -/
theorem not_alloc_returns_second : ¬∀ (m : Mem) (b : Int) (s : MemPool) (actions : List Action) (c : Client), init m b = .ok s →
    (∀ a ∈ actions, Plain a) → actions.foldlM step ⟨s, []⟩ = .ok c →
      ∀ len, 0 < len → ∀ sys, ∃ r, alloc c.pool len sys = .ok r := by
  intro h
  have hrun : ∃ s, init (fun _ => 0) 1000 = .ok s ∧ ∃ c, [Action.alloc 64 5000].foldlM step ⟨s, []⟩ = .ok c ∧
      ¬Returns c.pool 64 := by decide +kernel
  obtain ⟨s, hs, c, hc, hnot⟩ := hrun
  obtain ⟨hroot, hl⟩ := run_rooted hs (by decide) hc
  exact hnot ((alloc_iff hroot hl 9000).1 (h _ _ s _ c hs (by decide) hc 64 (by decide) 9000))

end MemPool
