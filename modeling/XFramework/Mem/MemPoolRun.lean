/-
Runs of a pool: `Alloc`, `Free`, `Realloc` and the sweep in any order after
`Init`.

The sweep is covered when no chip that is split has chips that are all free
(`SweepOk`): `MergeFree` would make it whole without listing it, and the merge
of the node above then erases what is not in the free list.
-/
import XFramework.Mem.MemPoolInit

open Fallible Bytes

namespace MemPool

variable {s s' : MemPool} {L : Blocks} {n m ni nj : MemNode} {x i j len fuel : Nat} {sys p : Int}

/-! ## The sweep -/

def status (s : MemPool) (x : Nat) : Option UseFor := (s.nodes.read x).map (·.eStatus)

/-- The chips of all nodes. -/
def chipIds (s : MemPool) : List Nat :=
  s.nodes.flatMap fun o => match o with
    | some n => n.mChips.entries.map (·.2)
    | none => []

def chipsOf (s : MemPool) (x : Nat) : List Nat :=
  match s.nodes.read x with
  | some n => n.mChips.entries.map (·.2)
  | none => []

/-- Every chip that is split has a chip that is not free. -/
def SweepOk (s : MemPool) : Prop :=
  ∀ x ∈ chipIds s, status s x = some .UF_ALLOC → ∃ y ∈ chipsOf s x, status s y ≠ some .UF_NONE

instance (s : MemPool) : Decidable (SweepOk s) := inferInstanceAs (Decidable (∀ x ∈ _, _))

/-- The same in terms of the nodes. -/
def Busy (s : MemPool) : Prop := ∀ id x n m, s.nodes.read id = some n → ChipOf x n → s.nodes.read x = some m →
  m.eStatus = .UF_ALLOC → ∃ y c, ChipOf y m ∧ s.nodes.read y = some c ∧ c.eStatus ≠ .UF_NONE

theorem SweepOk.busy (h : Shape s) (hs : SweepOk s) : Busy s := by
  intro id x n m hn hx hm hst
  have hmem : x ∈ chipIds s := by
    obtain ⟨k, hk⟩ := hx
    have hid : s.nodes[id]? = some (some n) := Option.join_eq_some_iff.1 hn
    exact List.mem_flatMap.2 ⟨some n, List.mem_of_getElem? hid, List.mem_map.2 ⟨(k, x), hk, rfl⟩⟩
  obtain ⟨y, hy, hyst⟩ := hs x hmem (by rw [status, hm, Option.map_some, hst])
  rw [chipsOf, hm] at hy
  obtain ⟨⟨k, y⟩, hk, rfl⟩ := List.mem_map.1 hy
  obtain ⟨c, hc⟩ := h.forest.read_chip hm ⟨k, hk⟩
  rw [status, hc] at hyst
  exact ⟨y, c, ⟨k, hk⟩, hc, fun he => hyst (congrArg some he)⟩

/-- The end of `MergeFree`, when all chips are free. -/
def mergeChips (s : MemPool) (pNode : Nat) (n : MemNode) : Except Fault (MemPool × Bool) := do
  let s ← n.mChips.entries.foldlM (fun s e => unlist s e.2) (setNode s pNode { n with eStatus := .UF_NONE })
  let s := { s with nodes := n.mChips.entries.foldl (fun h e => h.free e.2) s.nodes }
  .ok (setNode s pNode { n with eStatus := .UF_NONE, mChips := .empty }, true)

/-- The turn of a chip in the count of `MergeFree`. -/
theorem countFree_ok {fuel : Nat} {c c' : MemPool × Nat} {e : Nat × Nat}
    (h : (do
      let (s, free) ← mergeFree fuel c.1 e.2
      .ok (s, if free then c.2 + 1 else c.2)) = (.ok c' : Except Fault (MemPool × Nat))) :
    ∃ r, mergeFree fuel c.1 e.2 = .ok r ∧ c' = (r.1, if r.2 then c.2 + 1 else c.2) := by
  obtain ⟨r, hr, hc⟩ := bind_eq_ok.1 h
  cases hc
  exact ⟨r, hr, rfl⟩

/-- The two turns of `MergeFree` on a node in pieces, and how it goes on. -/
theorem mergeFree_pieces {r : MemPool × Bool} (hx : s.nodes.read x = some n) (hst : n.eStatus = .UF_ALLOC)
    (hc : Cut s.nodes.read n i j ni nj) : mergeFree (fuel + 1) s x = .ok r ↔
      ∃ r₁ r₂, mergeFree fuel s i = .ok r₁ ∧ mergeFree fuel r₁.1 j = .ok r₂ ∧
        (if r₁.2 = true ∧ r₂.2 = true then mergeChips r₂.1 x n else .ok (r₂.1, false)) = .ok r := by
  have hsize : n.mChips.size = 2 := by rw [StdMap.size, hc.chips]; rfl
  have hturn (r₁ r₂ : MemPool × Bool) : (if (if r₂.2 = true then (if r₁.2 = true then 0 + 1 else 0) + 1
        else if r₁.2 = true then 0 + 1 else 0) = n.mChips.size then mergeChips r₂.1 x n else .ok (r₂.1, false)) =
      (if r₁.2 = true ∧ r₂.2 = true then mergeChips r₂.1 x n else .ok (r₂.1, false)) := by
    rw [hsize]
    cases r₁.2 <;> cases r₂.2 <;> rfl
  refine ⟨?_, ?_⟩
  · intro hrun
    rw [mergeFree] at hrun
    obtain ⟨n', hn', hrun⟩ := bind_eq_ok.1 hrun
    cases (deref_eq hx).symm.trans hn'
    simp only [hst] at hrun
    obtain ⟨c₂, hfold, hrun⟩ := bind_eq_ok.1 hrun
    rw [hc.chips] at hfold
    obtain ⟨c₁, h₁, hfold⟩ := foldlM_cons_ok.1 hfold
    obtain ⟨c₂', h₂, hfold⟩ := foldlM_cons_ok.1 hfold
    cases foldlM_nil_ok.1 hfold
    obtain ⟨r₁, hr₁, rfl⟩ := countFree_ok h₁
    obtain ⟨r₂, hr₂, rfl⟩ := countFree_ok h₂
    exact ⟨r₁, r₂, hr₁, hr₂, (hturn r₁ r₂).symm.trans hrun⟩
  · rintro ⟨r₁, r₂, h₁, h₂, hend⟩
    rw [← hturn, mergeChips, hc.chips] at hend
    rw [mergeFree, deref_eq hx]
    simp only [bind, Except.bind, hst, hc.chips, List.foldlM_cons, List.foldlM_nil, pure, Except.pure, h₁, h₂]
    exact hend

/-- A node that is not in pieces is free or used as it is. -/
theorem mergeFree_whole (fuel : Nat) (hx : s.nodes.read x = some n) (hst : n.eStatus ≠ .UF_ALLOC) :
    mergeFree (fuel + 1) s x = .ok (s, decide (n.eStatus = .UF_NONE)) := by
  rw [mergeFree, deref_eq hx]
  simp only [bind, Except.bind]
  cases hn : n.eStatus with
  | UF_NONE => rfl
  | UF_USE => rfl
  | UF_ALLOC => exact absurd hn hst

/-- Merging a chip changes nothing: it is free as it is, or not all of it is free. -/
theorem mergeFree_chip (h : Shape s) (hb : Busy s) (fuel : Nat) {id : Nat} (hid : s.nodes.read id = some n) (hx : ChipOf x n)
    (hm : s.nodes.read x = some m) (hfuel : s.nodes.length < fuel + x) :
    mergeFree fuel s x = .ok (s, decide (m.eStatus = .UF_NONE)) := by
  induction fuel generalizing id n x m with
  | zero =>
    have := Heap.lt_of_read hm
    omega
  | succ fuel ih =>
    by_cases hst : m.eStatus = .UF_ALLOC
    · obtain ⟨i, j, ni, nj, hc, hi, hj⟩ := h.forest.cut x m hm hst
      have h₁ := ih hm (hc.chipOf_iff.2 (.inl rfl)) hc.readL (by omega)
      have h₂ := ih hm (hc.chipOf_iff.2 (.inr rfl)) hc.readR (by omega)
      have hbusy : ¬(ni.eStatus = .UF_NONE ∧ nj.eStatus = .UF_NONE) := by
        intro ⟨hni, hnj⟩
        obtain ⟨y, c, hy, hyc, hcst⟩ := hb id x n m hid hx hm hst
        cases hc.chipOf_iff.1 hy with
        | inl hy =>
          rw [hy, hc.readL] at hyc
          cases hyc
          exact hcst hni
        | inr hy =>
          rw [hy, hc.readR] at hyc
          cases hyc
          exact hcst hnj
      refine (mergeFree_pieces hm hst hc).2 ⟨_, _, h₁, h₂, ?_⟩
      simp only [decide_eq_true_eq, if_neg hbusy, hst, reduceCtorEq, decide_false]
    · exact mergeFree_whole fuel hm hst

/-- A listed chip leaves the free list. -/
theorem unlist_spec (hx : s.nodes.read x = some n) (hin : InSet s.m_poolset n.nLen x) (hrep : NoRepeat s.m_poolset)
    (hkey : ∀ k, InSet s.m_poolset k x → k = n.nLen) : ∃ set, unlist s x = .ok { s with m_poolset := set } ∧ NoRepeat set ∧
      ∀ k y, InSet set k y ↔ InSet s.m_poolset k y ∧ y ≠ x := by
  obtain ⟨l, hl, hxl⟩ := hin
  have herase : ∀ y, y ∈ l.erase x ↔ y ∈ l ∧ y ≠ x := fun y => by rw [(hrep _ _ hl).mem_erase_iff, and_comm]
  refine ⟨s.m_poolset.set n.nLen (l.erase x), ?_, noRepeat_set hrep ((hrep _ _ hl).sublist List.erase_sublist),
    fun k y => inSet_set_remove hl herase hkey⟩
  rw [unlist, deref_eq hx]
  simp only [bind, Except.bind, StdMap.find?_eq_some.2 hl, if_pos hxl]

theorem mergeChips_merges (h : Shape s) {ni nj : MemNode} (hx : s.nodes.read x = some n) (hst : n.eStatus = .UF_ALLOC)
    (hc : Cut s.nodes.read n i j ni nj) (hxi : x < i) (hxj : x < j) (hi : ni.eStatus = .UF_NONE) (hj : nj.eStatus = .UF_NONE)
    (hini : InSet s.m_poolset ni.nLen i) (hinj : InSet s.m_poolset nj.nLen j) :
    ∃ s', mergeChips s x n = .ok (s', true) ∧ Merges s s' x i j n ni nj := by
  have hxlt := Heap.lt_of_read hx
  have hread₀ : ∀ y, (setNode s x { n with eStatus := .UF_NONE }).nodes.read y =
      if y = x then some { n with eStatus := .UF_NONE } else s.nodes.read y := fun y => Heap.read_write hxlt _ y
  obtain ⟨set₁, hu₁, hrep₁, hset₁⟩ := unlist_spec (s := setNode s x { n with eStatus := .UF_NONE }) (x := i) (n := ni)
    (by rw [hread₀, if_neg (by omega), hc.readL]) hini h.nodup fun k hk => h.key hc.readL hk
  obtain ⟨set₂, hu₂, hrep₂, hset₂⟩ := unlist_spec
    (s := { setNode s x { n with eStatus := .UF_NONE } with m_poolset := set₁ }) (x := j) (n := nj)
    ((hread₀ j).trans (by rw [if_neg (by omega), hc.readR]))
    ((hset₁ _ _).2 ⟨hinj, hc.idx_ne.symm⟩) hrep₁ fun k hk => h.key hc.readR ((hset₁ k j).1 hk).1
  have hrun : mergeChips s x n = .ok (setNode { setNode s x { n with eStatus := .UF_NONE } with
      m_poolset := set₂, nodes := ((setNode s x { n with eStatus := .UF_NONE }).nodes.free i).free j } x
        { n with eStatus := .UF_NONE, mChips := .empty }, true) := by
    simp only [mergeChips, bind, Except.bind, hc.chips, List.foldlM_cons, List.foldlM_nil, pure, Except.pure, hu₁, hu₂,
      List.foldl_cons, List.foldl_nil]
  refine ⟨_, hrun, hx, hst, hc, hi, hj, ⟨fun y => ?_⟩, ?_, fun k y => ?_, hrep₂, rfl, rfl, rfl⟩
  · simp only [setNode]
    rw [Heap.read_write (by simp only [Heap.length_free, Heap.length_write]; exact hxlt), Heap.read_free, Heap.read_free,
      Heap.read_write hxlt]
    split_ifs <;> first | rfl | (exfalso; tauto)
  · simp only [setNode, Heap.length_write, Heap.length_free]
  · rw [show InSet (setNode _ x _).m_poolset k y ↔ InSet set₂ k y from Iff.rfl, hset₂, hset₁]
    exact and_assoc

/-- A merge of a root leaves the other split chips busy. -/
theorem Merges.busy {ni nj : MemNode} (hm : Merges s s' x i j n ni nj) (h : Shape s) (hb : Busy s)
    (hroot : ∀ id c, s.nodes.read id = some c → ¬ChipOf x c) : Busy s' := by
  intro id z c d hid hz hzd hst
  rcases hm.read.cases_of hid with ⟨-, rfl⟩ | ⟨-, -, -, hid⟩
  · exact absurd hz (not_chip_of_empty rfl)
  · rcases hm.read.cases_of hzd with ⟨rfl, -⟩ | ⟨hzx, -, -, hzd⟩
    · exact absurd hz (hroot id c hid)
    · obtain ⟨y, e, hy, hye, hest⟩ := hb id z c d hid hz hzd hst
      have hyx : y ≠ x := fun he => hroot z d hzd (he ▸ hy)
      have hyi : y ≠ i := fun he => hzx (h.forest.parent z x d n y hzd hm.node hy (hm.cut.chipOf_iff.2 (.inl he)))
      have hyj : y ≠ j := fun he => hzx (h.forest.parent z x d n y hzd hm.node hy (hm.cut.chipOf_iff.2 (.inr he)))
      exact ⟨y, e, hy, (hm.other hyx hyi hyj).trans hye, hest⟩

/-- One root in the sweep: its chips are merged, or nothing changes. -/
theorem mergeFree_root (h : Shape s) (hlisted : ChipsListed s) (hb : Busy s) (hx : s.nodes.read x = some n) :
    ∃ s' b, mergeFree s.depth s x = .ok (s', b) ∧ (s' = s ∨ ∃ i j ni nj, Merges s s' x i j n ni nj) := by
  by_cases hst : n.eStatus = .UF_ALLOC
  · obtain ⟨i, j, ni, nj, hc, hxi, hxj⟩ := h.forest.cut x n hx hst
    have h₁ := mergeFree_chip h hb s.nodes.length hx (hc.chipOf_iff.2 (.inl rfl)) hc.readL (by omega)
    have h₂ := mergeFree_chip h hb s.nodes.length hx (hc.chipOf_iff.2 (.inr rfl)) hc.readR (by omega)
    by_cases hfree : ni.eStatus = .UF_NONE ∧ nj.eStatus = .UF_NONE
    · have hini := hlisted x n i ni hx (hc.chipOf_iff.2 (.inl rfl)) hc.readL hfree.1
      have hinj := hlisted x n j nj hx (hc.chipOf_iff.2 (.inr rfl)) hc.readR hfree.2
      obtain ⟨s', hrun, hm⟩ := mergeChips_merges h hx hst hc hxi hxj hfree.1 hfree.2 hini hinj
      refine ⟨s', true, (mergeFree_pieces hx hst hc).2 ⟨_, _, h₁, h₂, ?_⟩, .inr ⟨i, j, ni, nj, hm⟩⟩
      simp only [decide_eq_true_eq, if_pos hfree, hrun]
    · refine ⟨s, false, (mergeFree_pieces hx hst hc).2 ⟨_, _, h₁, h₂, ?_⟩, .inl rfl⟩
      simp only [decide_eq_true_eq, if_neg hfree]
  · exact ⟨s, _, mergeFree_whole _ hx hst, .inl rfl⟩

theorem lock_eq (hl : s.m_lock = false) : s.lock = .ok { s with m_lock := true } := by
  rw [lock, hl]
  rfl

/-- The sweep comes to its end, and what the merge of a root keeps holds there. -/
theorem sweep_keeps (J : MemPool → Prop) (hshape : ∀ t, J t → Shape t ∧ ChipsListed t)
    (hmerge : ∀ t t' x i j n ni nj, J t → Merges t t' x i j n ni nj → (∀ id c, t.nodes.read id = some c → ¬ChipOf x c) → J t')
    (h : J { s with m_lock := true }) (hl : s.m_lock = false) (hs : SweepOk s) : ∃ s', sweep s = .ok s'.unlock ∧ J s' := by
  obtain ⟨s₁, hrun, hJ, -, -⟩ := foldlM_exists
    (fun t : MemPool => J t ∧ Busy t ∧ t.m_pools = s.m_pools)
    (f := fun (t : MemPool) id => do
      let (t, _) ← mergeFree t.depth t id
      .ok t)
    (l := s.m_pools.entries.flatMap (·.2)) (s := { s with m_lock := true }) ⟨h, SweepOk.busy (hshape _ h).1 hs, rfl⟩
    fun t id hid ⟨ht, hbt, hpt⟩ => by
      obtain ⟨e, he, hid⟩ := List.mem_flatMap.1 hid
      obtain ⟨hst, hlt⟩ := hshape t ht
      obtain ⟨⟨n, hn⟩, hroot⟩ := hst.roots e.1 id ⟨e.2, hpt.symm ▸ he, hid⟩
      obtain ⟨t', b, hrun, hm⟩ := mergeFree_root hst hlt hbt hn
      refine ⟨t', by rw [hrun]; rfl, ?_⟩
      rcases hm with rfl | ⟨i, j, ni, nj, hm⟩
      · exact ⟨ht, hbt, hpt⟩
      · exact ⟨hmerge t t' id i j n ni nj ht hm hroot, hm.busy hst hbt hroot, hm.pools.trans hpt⟩
  exact ⟨s₁, bind_eq_ok.2 ⟨_, lock_eq hl, bind_eq_ok.2 ⟨s₁, hrun, rfl⟩⟩, hJ⟩

/-! ## Inside the lock -/

/-- The invariant does not look at the lock or the bytes. -/
theorem Inv.congr (h : Inv s L) (hn : s'.nodes = s.nodes) (hset : s'.m_poolset = s.m_poolset) (hp : s'.m_pools = s.m_pools)
    (hr : s'.m_record = s.m_record) (hb : s'.m_OriginalBuffer = s.m_OriginalBuffer) : Inv s' L := by
  cases s
  cases s'
  cases hn
  cases hset
  cases hp
  cases hr
  cases hb
  exact ⟨h.trees, h.spare, h.many, h.listed, h.nodup, h.chips, h.recorded, h.roots, h.live, h.once⟩

theorem sweep_spec (h : Inv s L) (hl : s.m_lock = false) (hs : SweepOk s) :
    ∃ s', sweep s = .ok s' ∧ Inv s' L ∧ s'.m_lock = false := by
  obtain ⟨s₁, hrun, hinv⟩ := sweep_keeps (fun t => Inv t L) (fun t ht => ⟨ht.shape, ht.chips⟩)
    (fun t t' x i j n ni nj ht hm hroot => ht.merge hm hroot) (h.congr rfl rfl rfl rfl rfl) hl hs
  exact ⟨s₁.unlock, hrun, hinv.congr rfl rfl rfl rfl rfl, rfl⟩

/-- An `Alloc` that has returned is `AllocImpl` between the lock and the unlock. -/
theorem alloc_ok {r : MemPool × Option Int} (hl : s.m_lock = false) (hr : alloc s len sys = .ok r) :
    ∃ t, take { s with m_lock := true } len sys = .ok (t, r.2) ∧ r.1 = t.unlock := by
  obtain ⟨s₀, hs₀, hr⟩ := bind_eq_ok.1 hr
  cases (lock_eq hl).symm.trans hs₀
  obtain ⟨⟨t, q⟩, ht, hr⟩ := bind_eq_ok.1 hr
  cases hr
  exact ⟨t, ht, rfl⟩

theorem free_ok (hl : s.m_lock = false) (hr : free s p = .ok s') :
    ∃ t, give { s with m_lock := true } p = .ok t ∧ s' = t.unlock := by
  obtain ⟨s₀, hs₀, hr⟩ := bind_eq_ok.1 hr
  cases (lock_eq hl).symm.trans hs₀
  obtain ⟨t, ht, hr⟩ := bind_eq_ok.1 hr
  cases hr
  exact ⟨t, ht, rfl⟩

/-- A rounded length that is not an `int` does not come through. -/
theorem take_small {r : MemPool × Option Int} (hr : take s len sys = .ok r) : getCorrectLessChipLen len < 2 ^ 31 := by
  by_contra hlarge
  simp only [take] at hr
  rw [if_pos (Nat.le_of_not_lt hlarge)] at hr
  cases hr

/-- A search looks at the nodes only. -/
theorem firstFree_congr (h : s'.nodes = s.nodes) (theLen : Nat) (ids : List Nat) :
    firstFree s' theLen ids = firstFree s theLen ids := by
  have hreached : ∀ fuel id, reached s' fuel id = reached s fuel id := by
    intro fuel
    induction fuel with
    | zero => exact fun _ => rfl
    | succ fuel ih =>
      intro id
      simp only [reached, ih, h]
  simp only [firstFree, funext fun id => show freeNode s' theLen id = freeNode s theLen id by
    simp only [freeNode, depth, hreached, h]]

theorem firstFree_lock (s : MemPool) (theLen : Nat) (ids : List Nat) :
    firstFree { s with m_lock := true } theLen ids = firstFree s theLen ids :=
  firstFree_congr (show { s with m_lock := true }.nodes = s.nodes from rfl) theLen ids

theorem found_lock (s : MemPool) (theLen : Nat) : found { s with m_lock := true } theLen = found s theLen := by
  simp only [found, firstFree_lock]
  rfl

theorem AllocOk.lock (h : AllocOk s len) : AllocOk { s with m_lock := true } len := by
  obtain ⟨hsmall, hback, hlisted, hroots⟩ := h
  refine ⟨hsmall, hback, ?_, ?_⟩
  · rw [firstFree_lock]
    exact hlisted
  · rw [firstFree_lock, firstFree_lock]
    exact hroots

theorem alloc_spec (h : Inv s L) (hl : s.m_lock = false) (hlen : 0 < len) (hok : AllocOk s len)
    (hfresh : Fresh s (getCorrectLessChipLen len) sys) :
    ∃ s' p, alloc s len sys = .ok (s', some p) ∧ Inv s' ((p, len) :: L) ∧ s'.m_lock = false := by
  have h₀ : Inv { s with m_lock := true } L := h.congr rfl rfl rfl rfl rfl
  obtain ⟨s₁, p, hrun, hhand⟩ := take_spec h₀ hlen hok.lock hfresh
  exact ⟨s₁.unlock, p, bind_eq_ok.2 ⟨_, lock_eq hl, bind_eq_ok.2 ⟨_, hrun, rfl⟩⟩, hhand.inv.congr rfl rfl rfl rfl rfl, rfl⟩

theorem free_spec (h : Inv s L) (hl : s.m_lock = false) (hp : ∃ l, (p, l) ∈ L) :
    ∃ s', free s p = .ok s' ∧ Inv s' (without L p) ∧ s'.m_lock = false := by
  have h₀ : Inv { s with m_lock := true } L := h.congr rfl rfl rfl rfl rfl
  obtain ⟨s₁, hrun, hinv⟩ := give_spec h₀ hp
  exact ⟨s₁.unlock, bind_eq_ok.2 ⟨_, lock_eq hl, bind_eq_ok.2 ⟨_, hrun, rfl⟩⟩, hinv.congr rfl rfl rfl rfl rfl, rfl⟩

/-- The block at `p` has the length `len` already. -/
def HasLen (s : MemPool) (p : Int) (len : Nat) : Prop := ∃ x ∈ s.m_record.find? p, (s.nodes.read x).map (·.nLen) = some len

instance (s : MemPool) (p : Int) (len : Nat) : Decidable (HasLen s p len) := inferInstanceAs (Decidable (∃ x ∈ _, _))

theorem realloc_same (hl : s.m_lock = false) (hr : (p, x) ∈ s.m_record) (hx : s.nodes.read x = some n) (hsame : n.nLen = len) :
    realloc s p len sys = .ok ({ s with m_lock := true }.unlock, some p) := by
  have hfind : { s with m_lock := true }.m_record.find? p = some x := StdMap.find?_eq_some.2 hr
  have hx₀ : { s with m_lock := true }.nodes.read x = some n := hx
  refine bind_eq_ok.2 ⟨_, lock_eq hl, ?_⟩
  rw [hfind]
  dsimp only
  rw [deref_eq hx₀]
  exact if_pos hsame

/-- A block of another length is moved: `AllocImpl`, the copy of all bytes of its node, `FreeImpl`. -/
theorem realloc_moves (h : Inv s L) (hl : s.m_lock = false) {l : Nat} (hpl : (p, l) ∈ L) (hr : (p, x) ∈ s.m_record)
    (hx : s.nodes.read x = some n) (hne : n.nLen ≠ len) (hlen : 0 < len) (hok : AllocOk s len)
    (hfresh : Fresh s (getCorrectLessChipLen len) sys) :
    ∃ s₁ q s₂, take { s with m_lock := true } len sys = .ok (s₁, some q) ∧ Handed { s with m_lock := true } s₁ L q len ∧
      q ≠ p ∧ give { s₁ with mem := write s₁.mem q (read s₁.mem p n.nLen) } p = .ok s₂ ∧
      realloc s p len sys = .ok (s₂.unlock, some q) := by
  have h₀ : Inv { s with m_lock := true } L := h.congr rfl rfl rfl rfl rfl
  have hfind : { s with m_lock := true }.m_record.find? p = some x := StdMap.find?_eq_some.2 hr
  have hx₀ : { s with m_lock := true }.nodes.read x = some n := hx
  obtain ⟨s₁, q, hrun, hhand⟩ := take_spec h₀ hlen hok.lock hfresh
  have hr₁ := hhand.kept _ hr
  obtain ⟨n₁, hx₁, -⟩ := hhand.inv.recorded p x hr₁
  have hcopy : Inv { s₁ with mem := write s₁.mem q (read s₁.mem p n.nLen) } ((q, len) :: L) := hhand.inv.congr rfl rfl rfl rfl rfl
  obtain ⟨s₂, hgive, -⟩ := give_spec hcopy ⟨l, List.mem_cons_of_mem _ hpl⟩
  have hqp : q ≠ p := by
    intro he
    have := hhand.inv.once
    rw [List.map_cons, List.nodup_cons] at this
    exact this.1 (List.mem_map.2 ⟨(p, l), hpl, he.symm⟩)
  refine ⟨s₁, q, s₂, hrun, hhand, hqp, hgive, bind_eq_ok.2 ⟨_, lock_eq hl, ?_⟩⟩
  rw [hfind]
  dsimp only
  rw [deref_eq hx₀]
  refine (if_neg hne).trans (bind_eq_ok.2 ⟨_, hrun, ?_⟩)
  refine bind_eq_ok.2 ⟨n₁, deref_eq hx₁, bind_eq_ok.2 ⟨s₂, ?_, rfl⟩⟩
  exact (give_marked (s := { s₁ with mem := write s₁.mem q (read s₁.mem p n.nLen) }) hr₁ hx₁).trans hgive

theorem HasLen.nLen_eq (h : HasLen s p len) (hr : (p, x) ∈ s.m_record) (hx : s.nodes.read x = some n) : n.nLen = len := by
  obtain ⟨y, hy, hlen⟩ := h
  have hxy : y = x := StdMap.mem_unique (StdMap.find?_eq_some.1 hy) hr
  rw [hxy, hx] at hlen
  exact Option.some.inj hlen

theorem realloc_spec (h : Inv s L) (hl : s.m_lock = false) (hp : ∃ l, (p, l) ∈ L) (hlen : 0 < len)
    (hok : HasLen s p len ∨ AllocOk s len) (hfresh : Fresh s (getCorrectLessChipLen len) sys) :
    ∃ s' q, realloc s p len sys = .ok (s', some q) ∧ Inv s' ((q, len) :: without L p) ∧ s'.m_lock = false := by
  obtain ⟨l, hpl⟩ := hp
  obtain ⟨x, n, hr, hx, hln⟩ := h.live p l hpl
  by_cases hsame : n.nLen = len
  · refine ⟨_, p, realloc_same hl hr hx hsame, ?_, rfl⟩
    refine ⟨h.trees, h.spare, h.many, h.listed, h.nodup, h.chips, h.recorded, h.roots, ?_, ?_⟩
    · intro q k hq
      cases hq with
      | head => exact ⟨x, n, hr, hx, hsame.ge⟩
      | tail _ hq => exact h.live q k (List.mem_filter.1 hq).1
    · rw [List.map_cons, List.nodup_cons]
      refine ⟨fun hm => ?_, (List.filter_sublist.map _).nodup h.once⟩
      obtain ⟨e, he, hep⟩ := List.mem_map.1 hm
      have := (List.mem_filter.1 he).2
      simp [hep] at this
  · have hok : AllocOk s len := hok.resolve_left fun hsame' => hsame (hsame'.nLen_eq hr hx)
    obtain ⟨s₁, q, s₂, -, hhand, hqp, hgive, hrun⟩ := realloc_moves h hl hpl hr hx hsame hlen hok hfresh
    have hcopy : Inv { s₁ with mem := write s₁.mem q (read s₁.mem p n.nLen) } ((q, len) :: L) :=
      hhand.inv.congr rfl rfl rfl rfl rfl
    obtain ⟨t, hgive', hinv⟩ := give_spec hcopy ⟨l, List.mem_cons_of_mem _ hpl⟩
    cases hgive.symm.trans hgive'
    have hwithout : without ((q, len) :: L) p = (q, len) :: without L p := by
      rw [without, List.filter_cons_of_pos (by simp [hqp])]
      rfl
    rw [hwithout] at hinv
    exact ⟨s₂.unlock, q, hrun, hinv.congr rfl rfl rfl rfl rfl, rfl⟩

/-! ## Runs -/

/-- The pool and the blocks its users hold. -/
structure Client where
  pool : MemPool
  live : Blocks

inductive Action
  | alloc (len : Nat) (sys : Int)
  | free (p : Int)
  | realloc (p : Int) (newLen : Nat) (sys : Int)
  | sweep

/-- A user notes what is handed out, and what it gives back. -/
def step (c : Client) : Action → Except Fault Client
  | .alloc len sys => do
    let (s, p) ← c.pool.alloc len sys
    .ok ⟨s, match p with
      | some p => (p, len) :: c.live
      | none => c.live⟩
  | .free p => do
    let s ← c.pool.free p
    .ok ⟨s, without c.live p⟩
  | .realloc p newLen sys => do
    let (s, q) ← c.pool.realloc p newLen sys
    .ok ⟨s, match q with
      | some q => (q, newLen) :: without c.live p
      | none => c.live⟩
  | .sweep => do
    let s ← c.pool.sweep
    .ok ⟨s, c.live⟩

/-- What users may do: allocate a byte at least, and give back what they hold. -/
def Allowed (c : Client) : Action → Prop
  | .alloc len sys => 0 < len ∧ Fresh c.pool (getCorrectLessChipLen len) sys
  | .free p => ∃ a ∈ c.live, a.1 = p
  | .realloc p newLen sys => (∃ a ∈ c.live, a.1 = p) ∧ Fresh c.pool (getCorrectLessChipLen newLen) sys
  | .sweep => True

instance (c : Client) (a : Action) : Decidable (Allowed c a) :=
  match a with
  | .alloc _ _ => inferInstanceAs (Decidable (_ ∧ _))
  | .free _ => inferInstanceAs (Decidable (∃ a ∈ _, _))
  | .realloc _ _ _ => inferInstanceAs (Decidable (_ ∧ _))
  | .sweep => isTrue trivial

/-- When the step meets no defect. -/
def Clear (c : Client) : Action → Prop
  | .alloc len _ => AllocOk c.pool len
  | .free _ => True
  | .realloc p newLen _ => 0 < newLen ∧ (HasLen c.pool p newLen ∨ AllocOk c.pool newLen)
  | .sweep => SweepOk c.pool

instance (c : Client) (a : Action) : Decidable (Clear c a) :=
  match a with
  | .alloc _ _ => inferInstanceAs (Decidable (AllocOk _ _))
  | .free _ => isTrue trivial
  | .realloc _ _ _ => inferInstanceAs (Decidable (_ ∧ _))
  | .sweep => inferInstanceAs (Decidable (SweepOk _))

theorem step_spec {c : Client} {a : Action} (h : Inv c.pool c.live) (hl : c.pool.m_lock = false) (ha : Allowed c a)
    (hc : Clear c a) : ∃ c', step c a = .ok c' ∧ Inv c'.pool c'.live ∧ c'.pool.m_lock = false := by
  cases a with
  | alloc len sys =>
    obtain ⟨s, p, hrun, hinv, hl'⟩ := alloc_spec h hl ha.1 hc ha.2
    exact ⟨⟨s, (p, len) :: c.live⟩, bind_eq_ok.2 ⟨_, hrun, rfl⟩, hinv, hl'⟩
  | free p =>
    obtain ⟨⟨q, l⟩, hq, rfl⟩ := ha
    obtain ⟨s, hrun, hinv, hl'⟩ := free_spec h hl ⟨l, hq⟩
    exact ⟨⟨s, without c.live q⟩, bind_eq_ok.2 ⟨_, hrun, rfl⟩, hinv, hl'⟩
  | realloc p newLen sys =>
    obtain ⟨⟨⟨q, l⟩, hq, rfl⟩, hfresh⟩ := ha
    obtain ⟨s, r, hrun, hinv, hl'⟩ := realloc_spec h hl ⟨l, hq⟩ hc.1 hc.2 hfresh
    exact ⟨⟨s, (r, newLen) :: without c.live q⟩, bind_eq_ok.2 ⟨_, hrun, rfl⟩, hinv, hl'⟩
  | sweep =>
    obtain ⟨s, hrun, hinv, hl'⟩ := sweep_spec h hl hc
    exact ⟨⟨s, c.live⟩, bind_eq_ok.2 ⟨_, hrun, rfl⟩, hinv, hl'⟩

/-- In every run whose steps meet no defect, no byte is handed out twice. -/
theorem sound_run {m : Mem} {b : Int} {actions : List Action} (hs : init m b = .ok s)
    (h : Along step (fun c a => Allowed c a ∧ Clear c a) ⟨s, []⟩ actions) :
    ∃ c, actions.foldlM step ⟨s, []⟩ = .ok c ∧ Sound c.pool c.live := by
  obtain ⟨s₀, hs₀, hlaid, hbufs, hlock⟩ := init_laid m b
  rw [hs] at hs₀
  cases hs₀
  obtain ⟨c, hrun, hinv, -⟩ := Along.run (fun c => Inv c.pool c.live ∧ c.pool.m_lock = false) h ⟨init_inv hlaid hbufs, hlock⟩
    fun c a hc ha => step_spec hc.1 hc.2 ha.1 ha.2
  exact ⟨c, hrun, hinv.sound⟩

/-- Splits, a block that is moved, a sweep that merges, a buffer of its own and a merged node. -/
theorem sound_run_mixed : ∃ s, init (fun _ => 0) 1000 = .ok s ∧
    ∃ c, [Action.alloc 4 5000, .alloc 24 5000, .alloc 8 5000, .realloc 1128 5 5000, .free 1152, .free 1032, .sweep,
      .alloc 100 5000, .alloc 32 7000].foldlM step ⟨s, []⟩ = .ok c ∧ Sound c.pool c.live := by
  have hclear : ∃ s, init (fun _ => 0) 1000 = .ok s ∧ Along step (fun c a => Allowed c a ∧ Clear c a) ⟨s, []⟩
      [Action.alloc 4 5000, .alloc 24 5000, .alloc 8 5000, .realloc 1128 5 5000, .free 1152, .free 1032, .sweep,
        .alloc 100 5000, .alloc 32 7000] := by decide +kernel
  obtain ⟨s, hs, h⟩ := hclear
  exact ⟨s, hs, sound_run hs h⟩

/-- `Init` lays the last 32 bytes of the buffer twice: the third of three blocks is the second. -/
theorem not_sound_thirty_two : ∃ s, init (fun _ => 0) 1000 = .ok s ∧
    Along step Allowed ⟨s, []⟩ [.alloc 32 5000, .alloc 32 5000, .alloc 32 5000] ∧
    ∃ c, [Action.alloc 32 5000, .alloc 32 5000, .alloc 32 5000].foldlM step ⟨s, []⟩ = .ok c ∧ ¬Sound c.pool c.live := by
  decide +kernel

end MemPool
