/-
What `GetAvailableAddress` finds in a tree of nodes (Mem/MemPool.cpp).

The loop over the chips of a node returns in its first turn, so that only the
first chip of each node on the way is looked at. The tree has any shape; a
node has any number of chips.
-/
import XFramework.Mem.MemPoolTake

open Fallible Relation

namespace MemPool

variable {s s' : MemPool} {n n' m : MemNode} {x y z len fuel height : Nat}

/-- The node `x` is there and so are the nodes below it, at most `height` deep. -/
inductive TreeAt (s : MemPool) : Nat → Nat → Prop
  | node (height x : Nat) (n : MemNode) (read : s.nodes.read x = some n)
      (chips : ∀ y, ChipOf y n → TreeAt s height y) : TreeAt s (height + 1) x

/-- The nodes of a pool's heap are trees. -/
theorem Standing.treeAt (h : Standing s) (hx : s.nodes.read x = some n) (hheight : s.nodes.length ≤ height + x) :
    TreeAt s height x := by
  induction height generalizing x n with
  | zero =>
    have := Heap.lt_of_read hx
    omega
  | succ height ih =>
    refine .node height x n hx fun y hy => ?_
    obtain ⟨hlt, c, hc⟩ := h.chips x n y hx hy
    exact ih hc (by omega)

/-- `y` is a chip of `x`, which is in pieces. -/
def Piece (s : MemPool) (x y : Nat) : Prop := ∃ n, s.nodes.read x = some n ∧ n.eStatus = .UF_ALLOC ∧ ChipOf y n

/-- It is the first one. -/
def FirstPiece (s : MemPool) (x y : Nat) : Prop :=
  ∃ n, s.nodes.read x = some n ∧ n.eStatus = .UF_ALLOC ∧ (n.mChips.entries.head?).map (·.2) = some y

/-- A free node of the tree of `x` that is long enough. -/
def FreeFor (s : MemPool) (x len y : Nat) (n : MemNode) : Prop :=
  ReflTransGen (Piece s) x y ∧ s.nodes.read y = some n ∧ n.eStatus = .UF_NONE ∧ len ≤ n.nLen

/-- The node `y` is taken, or its front is; the other nodes are as they were. -/
def Takes (s s' : MemPool) (y : Nat) (n : MemNode) (len : Nat) : Prop :=
  (n.nLen = len ∧ ∀ z, s'.nodes.read z = if z = y then some { n with eStatus := .UF_USE } else s.nodes.read z) ∨
  (len < n.nLen ∧ ∃ i j n', s.nodes.length ≤ i ∧ s.nodes.length ≤ j ∧ i ≠ j ∧ ChipOf i n' ∧ ChipOf j n' ∧
    SplitAt s.nodes.read s'.nodes.read y i j len n n')

/-- What `GetAvailableAddress` should give: `NULL` when nothing fits, else the start of a node that does. -/
def Searches (s : MemPool) (x len : Nat) (r : MemPool × Option Int) : Prop :=
  match r.2 with
  | none => ∀ y n, ¬FreeFor s x len y n
  | some p => ∃ y n, FreeFor s x len y n ∧ p = n.pStart ∧ Takes s r.1 y n len

/-- `GetAddress` can take `len` bytes of it: the front and the rest have keys of their own in `mChips`. -/
def Takable (n : MemNode) (len : Nat) : Prop := n.nLen = len ∨ n.mChips = .empty ∧ n.nLen ≠ 2 * len

/-- The first chips lead to a free node that is long enough, or there is none in the tree. -/
def FirstFits (s : MemPool) (x len : Nat) : Prop :=
  (∃ y n, ReflTransGen (FirstPiece s) x y ∧ s.nodes.read y = some n ∧ n.eStatus = .UF_NONE ∧ len ≤ n.nLen ∧ Takable n len) ∨
  ∀ y n, ¬FreeFor s x len y n

/-! ## The way down -/

theorem FirstPiece.piece (h : FirstPiece s x y) : Piece s x y := by
  obtain ⟨n, hn, hst, hfirst⟩ := h
  obtain ⟨e, he, rfl⟩ := Option.map_eq_some_iff.1 hfirst
  exact ⟨n, hn, hst, e.1, List.mem_of_mem_head? he⟩

theorem firstPiece_unique : Relator.RightUnique (FirstPiece s) := by
  rintro x y z ⟨n, hn, -, hy⟩ ⟨m, hm, -, hz⟩
  cases hn.symm.trans hm
  exact Option.some.inj (hy.symm.trans hz)

theorem not_piece (hx : s.nodes.read x = some n) (hst : n.eStatus ≠ .UF_ALLOC) : ¬Piece s x y := by
  rintro ⟨m, hm, hst', -⟩
  cases hx.symm.trans hm
  exact hst hst'

/-- A free node that the first chips lead to is where they end. -/
theorem first_end (hy : ReflTransGen (FirstPiece s) x y) (hz : ReflTransGen (FirstPiece s) x z)
    (hend : ∀ w, ¬FirstPiece s y w) (hend' : ∀ w, ¬FirstPiece s z w) : y = z := by
  rcases ReflTransGen.total_of_right_unique firstPiece_unique hy hz with h | h
  · rcases ReflTransGen.cases_head h with h | ⟨w, hw, -⟩
    · exact h
    · exact absurd hw (hend w)
  · rcases ReflTransGen.cases_head h with h | ⟨w, hw, -⟩
    · exact h.symm
    · exact absurd hw (hend' w)

/-- `GetAvailableAddress` follows the first chips. -/
theorem getAvailableAddress_first (ht : TreeAt s height x) (hfuel : height ≤ fuel) (len : Nat) :
    ∃ y n, ReflTransGen (FirstPiece s) x y ∧ s.nodes.read y = some n ∧ (∀ w, ¬FirstPiece s y w) ∧
      getAvailableAddress fuel s x len = if n.eStatus = .UF_NONE then getAddress s y len else .ok (s, none) := by
  induction ht generalizing fuel with
  | node height x n hx hchips ih =>
    obtain ⟨fuel, rfl⟩ : ∃ k, fuel = k + 1 := ⟨fuel - 1, by omega⟩
    have hend (hst : n.eStatus ≠ .UF_ALLOC) : ∀ w, ¬FirstPiece s x w := fun w hw => not_piece hx hst hw.piece
    rw [getAvailableAddress, deref_eq hx]
    simp only [bind, Except.bind]
    cases hst : n.eStatus with
    | UF_USE => exact ⟨x, n, .refl, hx, hend (by simp [hst]), by simp [hst]⟩
    | UF_NONE => exact ⟨x, n, .refl, hx, hend (by simp [hst]), by simp [hst]⟩
    | UF_ALLOC =>
      cases he : n.mChips.entries with
      | nil =>
        refine ⟨x, n, .refl, hx, ?_, by simp [hst]⟩
        rintro w ⟨m, hm, -, hw⟩
        cases hx.symm.trans hm
        simp [he] at hw
      | cons e rest =>
        have hfirst : FirstPiece s x e.2 := ⟨n, hx, hst, by simp [he]⟩
        obtain ⟨y, m, hy, hm, hends, hrun⟩ := ih e.2 ⟨e.1, by simp [he]⟩ (show height ≤ fuel by omega)
        exact ⟨y, m, .head hfirst hy, hm, hends, hrun⟩

/-! ## Taking -/

theorem insertChip_read (len : Nat) (chip : MemNode) (hx : s.nodes.read x = some n) :
    (insertChip s x n len chip).1.nodes.read x = some (insertChip s x n len chip).2.1 ∧
      (insertChip s x n len chip).2.1.eStatus = n.eStatus ∧ ∀ e ∈ n.mChips, e ∈ (insertChip s x n len chip).2.1.mChips := by
  unfold insertChip
  split
  · exact ⟨hx, rfl, fun e he => he⟩
  · have hlt := Heap.lt_of_read hx
    refine ⟨?_, rfl, fun e he => StdMap.mem_insert.2 (.inl he)⟩
    simp only [setNode]
    rw [Heap.read_write (by simp; omega), if_pos rfl]

/-- A longer node is in pieces; chips that it still had stay in its map. -/
theorem getAddress_longer (hx : s.nodes.read x = some n) (hlen : len < n.nLen) :
    ∃ s' n', getAddress s x len = .ok (s', some n.pStart) ∧ s'.nodes.read x = some n' ∧ n'.eStatus = .UF_ALLOC ∧
      ∀ e ∈ n.mChips, e ∈ n'.mChips := by
  have hlt := Heap.lt_of_read hx
  have hx₀ : (setNode s x { n with eStatus := .UF_ALLOC }).nodes.read x = some { n with eStatus := .UF_ALLOC } := by
    simp only [setNode]
    rw [Heap.read_write hlt, if_pos rfl]
  rw [getAddress_pieces hx hlen]
  obtain ⟨hread, hst, hkept⟩ := insertChip_read len ⟨len, .UF_USE, n.pStart, .empty⟩ hx₀
  have hstart := insertChip_pStart (setNode s x { n with eStatus := .UF_ALLOC }) x { n with eStatus := .UF_ALLOC } len
    ⟨len, .UF_USE, n.pStart, .empty⟩
  generalize insertChip (setNode s x { n with eStatus := .UF_ALLOC }) x { n with eStatus := .UF_ALLOC } len
    ⟨len, .UF_USE, n.pStart, .empty⟩ = c at hread hst hkept hstart ⊢
  obtain ⟨s₁, n₁, front⟩ := c
  dsimp only at hread hst hkept hstart ⊢
  have hstart' := insertChip_pStart { s₁ with m_record := s₁.m_record.insert n₁.pStart front } x n₁ (n₁.nLen - len)
    ⟨n₁.nLen - len, .UF_NONE, n₁.pStart + len, .empty⟩
  obtain ⟨hread', hst', hkept'⟩ := insertChip_read (s := { s₁ with m_record := s₁.m_record.insert n₁.pStart front })
    (n₁.nLen - len) ⟨n₁.nLen - len, .UF_NONE, n₁.pStart + len, .empty⟩ hread
  exact ⟨_, _, congrArg (fun p => Except.ok (_, some p)) (hstart'.trans hstart), hread', hst'.trans hst,
    fun e he => hkept' e (hkept e he)⟩

/-- The rest has the key of the front when the two are of one length: it gets lost. -/
theorem getAddress_half (hx : s.nodes.read x = some n) (hchips : n.mChips = .empty) (hlen : len < n.nLen)
    (hhalf : n.nLen - len = len) :
    ∃ s', getAddress s x len = .ok (s', some n.pStart) ∧ s'.nodes.length = s.nodes.length + 1 := by
  have hfront : ({ n with eStatus := .UF_ALLOC } : MemNode).mChips.find? len = none := by
    simp only [hchips]
    rfl
  have hrest : (n.mChips.insert len (setNode s x { n with eStatus := .UF_ALLOC }).nodes.length).find? (n.nLen - len) =
      some (setNode s x { n with eStatus := .UF_ALLOC }).nodes.length := by
    rw [hhalf]
    exact StdMap.find?_insert_new hfront
  rw [getAddress_pieces hx hlen, insertChip_new hfront]
  dsimp only
  rw [insertChip, hrest]
  exact ⟨_, rfl, by simp [setNode]⟩

theorem takes_whole (hx : s.nodes.read x = some n) (hlen : n.nLen = len) :
    ∃ s', getAddress s x len = .ok (s', some n.pStart) ∧ Takes s s' x n len := by
  refine ⟨_, getAddress_whole hx hlen, .inl ⟨hlen, fun z => ?_⟩⟩
  simp only [setNode]
  rw [Heap.read_write (Heap.lt_of_read hx)]

theorem takes_front (hx : s.nodes.read x = some n) (hchips : n.mChips = .empty) (hlen : len < n.nLen)
    (hne : n.nLen ≠ 2 * len) : ∃ s', getAddress s x len = .ok (s', some n.pStart) ∧ Takes s s' x n len := by
  have hne' : n.nLen - len ≠ len := by omega
  obtain ⟨s', n', hrun, hsplit, -⟩ := getAddress_split hx hchips hlen hne'
  refine ⟨s', hrun, .inr ⟨hlen, _, _, n', Nat.le_refl _, Nat.le_succ _, by omega, ?_, ?_, hsplit⟩⟩
  · exact (hsplit.chipOf_iff hne').2 (.inl rfl)
  · exact (hsplit.chipOf_iff hne').2 (.inr rfl)

theorem getAddress_short (hx : s.nodes.read x = some n) (hlen : n.nLen < len) : getAddress s x len = .ok (s, none) := by
  rw [getAddress, deref_eq hx]
  exact (if_neg (by omega)).trans (if_neg (by omega))

theorem read_none (h : s.nodes.length ≤ z) : s.nodes.read z = none := by
  cases hz : s.nodes.read z with
  | none => rfl
  | some n =>
    have := Heap.lt_of_read hz
    omega

/-- Nothing but the node itself is changed. -/
theorem Takes.other (h : Takes s s' y m len) (hx : s.nodes.read x = some n) (hne : x ≠ y) : s'.nodes.read x = some n := by
  rcases h with ⟨-, hread⟩ | ⟨-, i, j, n', hi, hj, -, -, -, hsplit⟩
  · rw [hread, if_neg hne, hx]
  · exact hsplit.read_other (read_none hi) (read_none hj) hne hx

/-- What is in pieces as it should be has no other chips, and the two are new. -/
theorem Takes.pieces (h : Takes s s' y n len) (hlen : len < n.nLen) (hy : s.nodes.read y = some n) :
    s.nodes.length + 1 < s'.nodes.length ∧ ∃ n', s'.nodes.read y = some n' ∧ ∀ e ∈ n'.mChips, s.nodes.length ≤ e.2 := by
  rcases h with ⟨heq, -⟩ | ⟨-, i, j, n', hi, hj, hij, -, -, hsplit⟩
  · omega
  · obtain ⟨hread, hreadi, hreadj, -, -⟩ := hsplit.reads hy (read_none hi) (read_none hj) hij
    have hlti := Heap.lt_of_read hreadi
    have hltj := Heap.lt_of_read hreadj
    refine ⟨by omega, n', hread, fun e he => ?_⟩
    rw [hsplit.chips, StdMap.mem_insert, StdMap.mem_insert] at he
    rcases he with (he | ⟨rfl, -⟩) | ⟨rfl, -⟩
    · exact absurd he StdMap.not_mem_empty
    · exact hi
    · exact hj

theorem TreeAt.descend (ht : TreeAt s height x) (hy : ReflTransGen (Piece s) x y) : ∃ k, TreeAt s k y := by
  induction hy with
  | refl => exact ⟨height, ht⟩
  | tail _ hyz ih =>
    obtain ⟨k, hk⟩ := ih
    obtain ⟨n, hn, -, hz⟩ := hyz
    cases hk with
    | node k _ m hm hchips =>
      cases hn.symm.trans hm
      exact ⟨k, hchips _ hz⟩

theorem TreeAt.chip_lt (ht : TreeAt s height x) (hx : s.nodes.read x = some n) (hy : ChipOf y n) : y < s.nodes.length := by
  cases ht with
  | node k _ m hm hchips =>
    cases hx.symm.trans hm
    cases hchips y hy with
    | node _ _ c hc _ => exact Heap.lt_of_read hc

/-- A node that the front and the rest cannot be keys of is not taken as it should be. -/
theorem not_takes (ht : TreeAt s height x) (hx : s.nodes.read x = some n) (hst : n.eStatus = .UF_NONE) (hle : len ≤ n.nLen)
    (hnot : ¬Takable n len) :
    ∃ s', getAddress s x len = .ok (s', some n.pStart) ∧ ∀ y m, s.nodes.read y = some m → ¬Takes s s' y m len := by
  unfold Takable at hnot
  have hlen : len < n.nLen := by omega
  obtain ⟨s', n', hrun, hread, halloc, hkept⟩ := getAddress_longer hx hlen
  refine ⟨s', hrun, fun y m hy htakes => ?_⟩
  by_cases hxy : x = y
  · subst hxy
    cases hx.symm.trans hy
    obtain ⟨hmore, n'', hread', hnew⟩ := htakes.pieces hlen hx
    cases hread.symm.trans hread'
    by_cases hchips : n.mChips = .empty
    · have hhalf : n.nLen = 2 * len := by
        by_contra hne
        exact hnot (.inr ⟨hchips, hne⟩)
      obtain ⟨t, hrun', hone⟩ := getAddress_half hx hchips hlen (by omega)
      cases hrun.symm.trans hrun'
      omega
    · have hsome : ∃ e, e ∈ n.mChips := by
        by_contra hnone
        exact hchips (StdMap.ext_mem fun e => iff_of_false (fun he => hnone ⟨e, he⟩) StdMap.not_mem_empty)
      obtain ⟨e, he⟩ := hsome
      have hold := ht.chip_lt hx ⟨e.1, he⟩
      have := hnew e (hkept e he)
      omega
  · have hsame := htakes.other hx hxy
    cases hread.symm.trans hsame
    cases hst.symm.trans halloc

/-! ## The search -/

/-- `GetAvailableAddress` comes to its end, and has searched the tree exactly when the first chips lead to a node that
fits and can be taken, or no node fits. -/
theorem searches_iff (ht : TreeAt s height x) (hfuel : height ≤ fuel) (len : Nat) :
    ∃ r, getAvailableAddress fuel s x len = .ok r ∧ (Searches s x len r ↔ FirstFits s x len) := by
  obtain ⟨y, n, hy, hn, hend, hrun⟩ := getAvailableAddress_first ht hfuel len
  have hdown : ReflTransGen (Piece s) x y := ReflTransGen.mono (show FirstPiece s ≤ Piece s from fun _ _ h => h.piece) x y hy
  have hunique : ∀ z m, ReflTransGen (FirstPiece s) x z → s.nodes.read z = some m → m.eStatus = .UF_NONE → z = y :=
    fun z m hz hm hst => first_end hz hy (fun w hw => not_piece hm (by simp [hst]) hw.piece) hend
  rw [hrun]
  by_cases hfit : n.eStatus = .UF_NONE ∧ len ≤ n.nLen
  · obtain ⟨hst, hle⟩ := hfit
    have hfits : FreeFor s x len y n := ⟨hdown, hn, hst, hle⟩
    rw [if_pos hst]
    by_cases htake : Takable n len
    · have hends : ∃ s', getAddress s y len = .ok (s', some n.pStart) ∧ Takes s s' y n len := by
        by_cases hwhole : n.nLen = len
        · exact takes_whole hn hwhole
        · obtain ⟨hchips, hne⟩ := htake.resolve_left hwhole
          exact takes_front hn hchips (by omega) hne
      obtain ⟨s', hrun', htakes⟩ := hends
      exact ⟨_, hrun', iff_of_true ⟨y, n, hfits, rfl, htakes⟩ (.inl ⟨y, n, hy, hn, hst, hle, htake⟩)⟩
    · obtain ⟨k, htree⟩ := ht.descend hdown
      obtain ⟨s', hrun', hnot⟩ := not_takes htree hn hst hle htake
      refine ⟨_, hrun', iff_of_false ?_ ?_⟩
      · rintro ⟨z, m, hz, -, htakes⟩
        exact hnot z m hz.2.1 htakes
      · rintro (⟨z, m, hz, hm, hst', -, htake'⟩ | hnone)
        · cases hunique z m hz hm hst'
          cases hn.symm.trans hm
          exact htake htake'
        · exact hnone y n hfits
  · have hnull : (if n.eStatus = .UF_NONE then getAddress s y len else .ok (s, none)) = .ok (s, none) := by
      split_ifs with hst
      · exact getAddress_short hn (Nat.lt_of_not_le fun hle => hfit ⟨hst, hle⟩)
      · rfl
    refine ⟨_, hnull, fun hnone => .inr hnone, ?_⟩
    rintro (⟨z, m, hz, hm, hst, hle, -⟩ | hnone)
    · cases hunique z m hz hm hst
      cases hn.symm.trans hm
      exact absurd ⟨hst, hle⟩ hfit
    · exact hnone

/-- A node of 32 bytes of which the first 8 are in use. -/
def usedFront : MemPool where
  mem := fun _ => 0
  nodes := [some ⟨32, .UF_ALLOC, 1000, (StdMap.empty.insert 8 1).insert 24 2⟩, some ⟨8, .UF_USE, 1000, .empty⟩,
    some ⟨24, .UF_NONE, 1008, .empty⟩]
  m_lock := true
  m_poolset := .empty
  m_pools := .empty
  m_record := .empty
  m_OriginalBuffer := []

theorem usedFront_treeAt : TreeAt usedFront 2 0 := by
  refine .node 1 0 _ rfl fun y hy => ?_
  have hchips : y = 1 ∨ y = 2 := by
    obtain ⟨k, hk⟩ := hy
    rw [StdMap.mem_entries, StdMap.mem_insert, StdMap.mem_insert] at hk
    simp at hk
    tauto
  have hempty {c : MemNode} (hc : c.mChips = .empty) : ∀ z, ChipOf z c → TreeAt usedFront 0 z :=
    fun z hz => absurd hz (not_chip_of_empty hc)
  rcases hchips with rfl | rfl
  · exact .node 0 1 _ rfl (hempty rfl)
  · exact .node 0 2 _ rfl (hempty rfl)

theorem searches_iff_used : ∃ r, getAvailableAddress 2 usedFront 0 16 = .ok r ∧
    (Searches usedFront 0 16 r ↔ FirstFits usedFront 0 16) :=
  searches_iff usedFront_treeAt (Nat.le_refl 2) 16

/-- The 24 bytes behind the first chip are free, but `NULL` comes back for 16. -/
theorem not_searches_used : ∃ r, getAvailableAddress 2 usedFront 0 16 = .ok r ∧ ¬Searches usedFront 0 16 r := by
  refine ⟨(usedFront, none), rfl, fun hnone => ?_⟩
  have hpiece : Piece usedFront 0 2 := ⟨_, rfl, rfl, 24, by decide⟩
  exact hnone 2 _ ⟨.single hpiece, rfl, rfl, by decide⟩

end MemPool
