/-
The searches of `AllocImpl`.

A search ends at the first node whose leading chips come down to a free node
that is long enough (`freeNode`). `getAddress` takes the front of it, or all
of it.
-/
import XFramework.Mem.MemPoolShape

open Fallible

namespace MemPool

variable {s s' : MemPool} {n : MemNode} {x id len theLen : Nat} {sys : Int}

theorem deref_eq (h : s.nodes.read x = some n) : s.deref x = .ok n := by
  rw [deref, h]

/-! ## Taking from a free node -/

theorem getAddress_whole (h : s.nodes.read x = some n) (hlen : n.nLen = len) : getAddress s x len =
    .ok ({ setNode s x { n with eStatus := .UF_USE } with m_record := s.m_record.insert n.pStart x }, some n.pStart) := by
  rw [getAddress, deref_eq h]
  refine (if_neg (by omega)).trans ((if_pos hlen).trans ?_)
  rfl

theorem insertChip_new {chip : MemNode} (h : n.mChips.find? len = none) : insertChip s x n len chip =
    (setNode { s with nodes := s.nodes.new chip } x { n with mChips := n.mChips.insert len s.nodes.length },
      { n with mChips := n.mChips.insert len s.nodes.length }, s.nodes.length) := by
  rw [insertChip, h]

theorem insertChip_pStart (s : MemPool) (x : Nat) (n : MemNode) (len : Nat) (chip : MemNode) :
    (insertChip s x n len chip).2.1.pStart = n.pStart := by
  unfold insertChip
  split <;> rfl

/-- A node that is longer is put in pieces. -/
theorem getAddress_pieces (h : s.nodes.read x = some n) (hlen : len < n.nLen) : getAddress s x len =
    (match insertChip (setNode s x { n with eStatus := .UF_ALLOC }) x { n with eStatus := .UF_ALLOC } len
        ⟨len, .UF_USE, n.pStart, .empty⟩ with
      | (s, m, front) => match insertChip { s with m_record := s.m_record.insert m.pStart front } x m (m.nLen - len)
          ⟨m.nLen - len, .UF_NONE, m.pStart + len, .empty⟩ with
        | (s, m', next) => .ok ({ s with m_poolset := pushBack s.m_poolset (m.nLen - len) next }, some m'.pStart)) := by
  rw [getAddress, deref_eq h]
  exact if_pos hlen

theorem getAddress_split (h : s.nodes.read x = some n) (hchips : n.mChips = .empty) (hlen : len < n.nLen)
    (hne : n.nLen - len ≠ len) : ∃ s' n', getAddress s x len = .ok (s', some n.pStart) ∧
      SplitAt s.nodes.read s'.nodes.read x s.nodes.length (s.nodes.length + 1) len n n' ∧
      s'.nodes.length = s.nodes.length + 2 ∧
      s'.m_poolset = pushBack s.m_poolset (n.nLen - len) (s.nodes.length + 1) ∧
      s'.m_record = s.m_record.insert n.pStart s.nodes.length ∧ s'.m_pools = s.m_pools ∧
      s'.m_OriginalBuffer = s.m_OriginalBuffer := by
  have hx := Heap.lt_of_read h
  have hfront : ({ n with eStatus := .UF_ALLOC } : MemNode).mChips.find? len = none := by
    simp only [hchips]
    rfl
  have hrest : (n.mChips.insert len (setNode s x { n with eStatus := .UF_ALLOC }).nodes.length).find? (n.nLen - len) = none := by
    rw [StdMap.find?_eq_none, hchips]
    intro e he
    rw [StdMap.mem_insert_new fun y hy => absurd hy StdMap.not_mem_empty] at he
    cases he with
    | inl he => exact absurd he StdMap.not_mem_empty
    | inr he => exact he ▸ hne.symm
  rw [getAddress_pieces h hlen, insertChip_new hfront]
  dsimp only
  rw [insertChip_new hrest]
  refine ⟨_, ⟨n.nLen, .UF_ALLOC, n.pStart, (n.mChips.insert len s.nodes.length).insert (n.nLen - len) (s.nodes.length + 1)⟩,
    rfl, ⟨fun y => ?_, rfl, rfl, rfl, ?_⟩, ?_, ?_, ?_, rfl, rfl⟩
  · simp only [setNode]
    rw [Heap.read_write (by simp; omega), Heap.read_new, Heap.read_write (by simp; omega), Heap.read_new,
      Heap.read_write hx]
    simp only [Heap.length_write, Heap.length_new]
    split_ifs with h₁ h₂ h₃ <;> first | rfl | omega
  · simp only [hchips]
  · simp only [setNode, Heap.length_write, Heap.length_new]
  · simp only [setNode, Heap.length_write, Heap.length_new]
  · simp only [setNode, Heap.length_write]

/-! ## The search -/

/-- The chips of a node are there, and later than it; a node in pieces has some. -/
structure Standing (s : MemPool) : Prop where
  chips : ∀ id n x, s.nodes.read id = some n → ChipOf x n → id < x ∧ ∃ c, s.nodes.read x = some c
  pieces : ∀ id n, s.nodes.read id = some n → n.eStatus = .UF_ALLOC → n.mChips.entries ≠ []

theorem Shape.standing (h : Shape s) : Standing s where
  chips id n x hn hx := by
    have hst : n.eStatus = .UF_ALLOC := by
      by_contra hst
      exact not_chipOf_of_whole h.forest hn hst hx
    obtain ⟨i, j, ni, nj, hc, hi, hj⟩ := h.forest.cut id n hn hst
    rcases hc.chipOf_iff.1 hx with rfl | rfl
    · exact ⟨hi, ni, hc.readL⟩
    · exact ⟨hj, nj, hc.readR⟩
  pieces id n hn hst := by
    obtain ⟨i, j, ni, nj, hc, -, -⟩ := h.forest.cut id n hn hst
    rw [hc.chips]
    exact List.cons_ne_nil _ _

/-- The node `GetAvailableAddress` comes down to from `id`. -/
def reached (s : MemPool) : Nat → Nat → Option Nat
  | 0, _ => none
  | fuel + 1, id =>
    match s.nodes.read id with
    | none => none
    | some n =>
      if n.eStatus = .UF_ALLOC then
        match n.mChips.entries with
        | [] => none
        | (_, chip) :: _ => reached s fuel chip
      else some id

/-- That node, when it is free and long enough. -/
def freeNode (s : MemPool) (theLen id : Nat) : Option Nat :=
  (reached s s.depth id).filter fun x =>
    match s.nodes.read x with
    | some n => n.eStatus = .UF_NONE ∧ theLen ≤ n.nLen
    | none => false

theorem freeNode_eq_some : freeNode s theLen id = some x ↔
    reached s s.depth id = some x ∧ ∃ n, s.nodes.read x = some n ∧ n.eStatus = .UF_NONE ∧ theLen ≤ n.nLen := by
  rw [freeNode, Option.filter_eq_some_iff]
  cases s.nodes.read x with
  | none => simp
  | some n => simp

/-- Coming down ends at a node that is not in pieces. -/
theorem reached_some (h : Standing s) (fuel : Nat) (hid : ∃ n, s.nodes.read id = some n) (hfuel : s.nodes.length < fuel + id) :
    ∃ x n, reached s fuel id = some x ∧ s.nodes.read x = some n ∧ n.eStatus ≠ .UF_ALLOC := by
  induction fuel generalizing id with
  | zero =>
    obtain ⟨n, hn⟩ := hid
    have := Heap.lt_of_read hn
    omega
  | succ fuel ih =>
    obtain ⟨n, hn⟩ := hid
    simp only [reached, hn]
    by_cases ha : n.eStatus = .UF_ALLOC
    · rw [if_pos ha]
      cases he : n.mChips.entries with
      | nil => exact absurd he (h.pieces id n hn ha)
      | cons e rest =>
        have hchip : ChipOf e.2 n := ⟨e.1, he ▸ List.mem_cons_self⟩
        obtain ⟨hlt, c, hc⟩ := h.chips id n e.2 hn hchip
        exact ih ⟨c, hc⟩ (by omega)
    · rw [if_neg ha]
      exact ⟨id, n, rfl, hn, ha⟩

theorem getAvailableAddress_eq {fuel : Nat} (hr : reached s fuel id = some x) (hx : s.nodes.read x = some n) :
    getAvailableAddress fuel s id theLen = if n.eStatus = .UF_NONE then getAddress s x theLen else .ok (s, none) := by
  induction fuel generalizing id with
  | zero => cases hr
  | succ fuel ih =>
    rw [reached] at hr
    cases hid : s.nodes.read id with
    | none => simp only [hid] at hr; cases hr
    | some m =>
      simp only [hid] at hr
      rw [getAvailableAddress, deref_eq hid]
      simp only [bind, Except.bind]
      cases hst : m.eStatus with
      | UF_ALLOC =>
        rw [if_pos hst] at hr
        cases he : m.mChips.entries with
        | nil => rw [he] at hr; cases hr
        | cons e rest =>
          rw [he] at hr
          exact ih hr
      | UF_NONE =>
        rw [if_neg (by rw [hst]; simp)] at hr
        cases hr
        rw [hid] at hx
        cases hx
        simp [hst]
      | UF_USE =>
        rw [if_neg (by rw [hst]; simp)] at hr
        cases hr
        rw [hid] at hx
        cases hx
        simp [hst]

/-- A node without a free node that is long enough is passed over. -/
theorem getAvailableAddress_none (h : Standing s) (hid : ∃ n, s.nodes.read id = some n) (hf : freeNode s theLen id = none) :
    getAvailableAddress s.depth s id theLen = .ok (s, none) := by
  obtain ⟨x, n, hr, hx, -⟩ := reached_some h s.depth hid (by rw [depth]; omega)
  rw [getAvailableAddress_eq hr hx]
  split_ifs with hn
  · have hlen : n.nLen < theLen := by
      by_contra hle
      rw [freeNode_eq_some.2 ⟨hr, n, hx, hn, by omega⟩] at hf
      cases hf
    rw [getAddress, deref_eq hx]
    exact (if_neg (by omega)).trans (if_neg (by omega))
  · rfl

theorem getAvailableAddress_some (hf : freeNode s theLen id = some x) :
    getAvailableAddress s.depth s id theLen = getAddress s x theLen := by
  obtain ⟨hr, n, hx, hn, -⟩ := freeNode_eq_some.1 hf
  rw [getAvailableAddress_eq hr hx, if_pos hn]

/-- The first free node that is long enough, in the order of a search. -/
def firstFree (s : MemPool) (theLen : Nat) (ids : List Nat) : Option Nat := ids.findSome? (freeNode s theLen)

/-- The nodes exist. -/
def Known (s : MemPool) (ids : List Nat) : Prop := ∀ id ∈ ids, ∃ n, s.nodes.read id = some n

variable {ids : List Nat} {es : List (Nat × List Nat)} {p : Int}

/-- What a search finds can be taken. -/
theorem firstFree_spec (hf : firstFree s theLen ids = some x) :
    ∃ n, s.nodes.read x = some n ∧ n.eStatus = .UF_NONE ∧ theLen ≤ n.nLen := by
  obtain ⟨id, -, hid⟩ := List.exists_of_findSome?_eq_some hf
  obtain ⟨-, n, hn, hst, hle⟩ := freeNode_eq_some.1 hid
  exact ⟨n, hn, hst, hle⟩

theorem tryNodes_none (h : Standing s) (hk : Known s ids) (hf : firstFree s theLen ids = none) (i : Nat) :
    tryNodes theLen s ids i = .ok (s, none) := by
  induction ids generalizing i with
  | nil => rfl
  | cons id ids ih =>
    rw [firstFree, List.findSome?_cons] at hf
    cases hid : freeNode s theLen id with
    | some x => rw [hid] at hf; cases hf
    | none =>
      rw [hid] at hf
      rw [tryNodes, getAvailableAddress_none h (hk id List.mem_cons_self) hid]
      exact ih (fun y hy => hk y (List.mem_cons_of_mem _ hy)) hf (i + 1)

theorem tryNodes_some (h : Standing s) (hk : Known s ids) (hf : firstFree s theLen ids = some x)
    (hg : getAddress s x theLen = .ok (s', some p)) (i : Nat) :
    ∃ j id, ids[j]? = some id ∧ freeNode s theLen id = some x ∧ tryNodes theLen s ids i = .ok (s', some (p, i + j)) := by
  induction ids generalizing i with
  | nil => cases hf
  | cons id ids ih =>
    rw [firstFree, List.findSome?_cons] at hf
    cases hid : freeNode s theLen id with
    | some y =>
      rw [hid] at hf
      cases hf
      refine ⟨0, id, rfl, hid, ?_⟩
      rw [tryNodes, getAvailableAddress_some hid, hg]
      rfl
    | none =>
      rw [hid] at hf
      obtain ⟨j, y, hy, hfy, hrun⟩ := ih (fun y hy => hk y (List.mem_cons_of_mem _ hy)) hf (i + 1)
      refine ⟨j + 1, y, hy, hfy, ?_⟩
      rw [tryNodes, getAvailableAddress_none h (hk id List.mem_cons_self) hid, ← Nat.add_assoc, Nat.add_right_comm]
      exact hrun

theorem firstFree_append {ids' : List Nat} :
    firstFree s theLen (ids ++ ids') = (firstFree s theLen ids).or (firstFree s theLen ids') :=
  List.findSome?_append

theorem trySet_none (h : Standing s) (hk : Known s (es.flatMap (·.2))) (hf : firstFree s theLen (es.flatMap (·.2)) = none) :
    trySet theLen s es = .ok (s, none) := by
  induction es with
  | nil => rfl
  | cons e es ih =>
    rw [List.flatMap_cons, firstFree_append, Option.or_eq_none_iff] at hf
    rw [trySet, tryNodes_none h (fun y hy => hk y (List.mem_append_left _ hy)) hf.1]
    exact ih (fun y hy => hk y (List.mem_append_right _ hy)) hf.2

theorem trySet_some (h : Standing s) (hk : Known s (es.flatMap (·.2))) (hf : firstFree s theLen (es.flatMap (·.2)) = some x)
    (hg : getAddress s x theLen = .ok (s', some p)) :
    ∃ k ids j id, (k, ids) ∈ es ∧ ids[j]? = some id ∧ freeNode s theLen id = some x ∧ trySet theLen s es =
      .ok ({ s' with m_poolset := s'.m_poolset.set k (((s'.m_poolset.find? k).getD []).eraseIdx j) }, some p) := by
  induction es with
  | nil => cases hf
  | cons e es ih =>
    rw [List.flatMap_cons, firstFree_append] at hf
    have hk₁ : Known s e.2 := fun y hy => hk y (List.mem_append_left _ hy)
    cases he : firstFree s theLen e.2 with
    | some y =>
      rw [he] at hf
      cases hf
      obtain ⟨j, id, hj, hid, hrun⟩ := tryNodes_some h hk₁ he hg 0
      refine ⟨e.1, e.2, j, id, List.mem_cons_self, hj, hid, ?_⟩
      rw [trySet, hrun, Nat.zero_add]
      rfl
    | none =>
      rw [he, Option.none_or] at hf
      obtain ⟨k, ids, j, id, hmem, hj, hid, hrun⟩ := ih (fun y hy => hk y (List.mem_append_right _ hy)) hf
      refine ⟨k, ids, j, id, List.mem_cons_of_mem _ hmem, hj, hid, ?_⟩
      rw [trySet, tryNodes_none h hk₁ he]
      exact hrun

theorem tryPools_some (h : Standing s) (hk : Known s (es.flatMap (·.2))) (hf : firstFree s theLen (es.flatMap (·.2)) = some x)
    (hg : getAddress s x theLen = .ok (s', some p)) : tryPools theLen s es = .ok (s', some p) := by
  induction es with
  | nil => cases hf
  | cons e es ih =>
    rw [List.flatMap_cons, firstFree_append] at hf
    have hk₁ : Known s e.2 := fun y hy => hk y (List.mem_append_left _ hy)
    cases he : firstFree s theLen e.2 with
    | some y =>
      rw [he] at hf
      cases hf
      obtain ⟨j, id, -, -, hrun⟩ := tryNodes_some h hk₁ he hg 0
      rw [tryPools, hrun]
      rfl
    | none =>
      rw [he, Option.none_or] at hf
      rw [tryPools, tryNodes_none h hk₁ he]
      exact ih (fun y hy => hk y (List.mem_append_right _ hy)) hf

/-! ## No search writes to memory -/

theorem insertChip_mem (s : MemPool) (x : Nat) (n : MemNode) (len : Nat) (chip : MemNode) :
    (insertChip s x n len chip).1.mem = s.mem := by
  rw [insertChip]
  cases n.mChips.find? len <;> rfl

theorem getAddress_mem {r : MemPool × Option Int} (h : getAddress s x len = .ok r) : r.1.mem = s.mem := by
  obtain ⟨n, -, h⟩ := bind_eq_ok.1 h
  dsimp only at h
  split_ifs at h
  · cases h
    exact (insertChip_mem _ _ _ _ _).trans (insertChip_mem _ _ _ _ _)
  · cases h
    rfl
  · cases h
    rfl

theorem getAvailableAddress_mem {fuel : Nat} {r : MemPool × Option Int} (h : getAvailableAddress fuel s id theLen = .ok r) :
    r.1.mem = s.mem := by
  induction fuel generalizing id with
  | zero => cases h
  | succ fuel ih =>
    obtain ⟨n, -, h⟩ := bind_eq_ok.1 h
    cases hst : n.eStatus with
    | UF_USE =>
      rw [hst] at h
      cases h
      rfl
    | UF_NONE =>
      rw [hst] at h
      exact getAddress_mem h
    | UF_ALLOC =>
      rw [hst] at h
      cases he : n.mChips.entries with
      | nil =>
        rw [he] at h
        cases h
        rfl
      | cons e rest =>
        rw [he] at h
        exact ih h

theorem tryNodes_mem {i : Nat} {r : MemPool × Option (Int × Nat)} (h : tryNodes theLen s ids i = .ok r) : r.1.mem = s.mem := by
  induction ids generalizing s i with
  | nil =>
    cases h
    rfl
  | cons id ids ih =>
    obtain ⟨⟨t, q⟩, ht, h⟩ := bind_eq_ok.1 h
    have hmem := getAvailableAddress_mem ht
    cases q with
    | some q =>
      cases h
      exact hmem
    | none => exact (ih h).trans hmem

theorem trySet_mem {r : MemPool × Option Int} (h : trySet theLen s es = .ok r) : r.1.mem = s.mem := by
  induction es generalizing s with
  | nil =>
    cases h
    rfl
  | cons e es ih =>
    obtain ⟨⟨t, q⟩, ht, h⟩ := bind_eq_ok.1 h
    have hmem := tryNodes_mem ht
    cases q with
    | some q =>
      cases h
      exact hmem
    | none => exact (ih h).trans hmem

theorem takeBack_mem {r : MemPool × Option Int} (h : takeBack s theLen ids = .ok r) : r.1.mem = s.mem := by
  rw [takeBack] at h
  cases hlast : ids.getLast? with
  | none =>
    rw [hlast] at h
    cases h
  | some id =>
    rw [hlast] at h
    obtain ⟨n, -, h⟩ := bind_eq_ok.1 h
    cases h
    rfl

/-! ## Where a search starts -/

theorem mem_of_mem_entriesFrom {m : StdMap Nat (List Nat)} {e : Nat × List Nat} (h : e ∈ entriesFrom m theLen) : e ∈ m :=
  (List.dropWhile_sublist _).subset h

/-- A search visits nodes of the map it runs over. -/
theorem known_entriesFrom {m : StdMap Nat (List Nat)} (h : ∀ k x, InSet m k x → ∃ n, s.nodes.read x = some n) (theLen : Nat) :
    Known s ((entriesFrom m theLen).flatMap (·.2)) := by
  intro id hid
  obtain ⟨e, he, hid⟩ := List.mem_flatMap.1 hid
  exact h e.1 id ⟨e.2, mem_of_mem_entriesFrom he, hid⟩

/-- A search that starts at the first key of at least `theLen` comes to every such key, and to
`theLen` itself first. -/
theorem mem_entriesFrom {m : StdMap Nat (List Nat)} {e : Nat × List Nat} (he : e ∈ m) (hle : theLen ≤ e.1) :
    e ∈ entriesFrom m theLen ∧ (e.1 = theLen → (entriesFrom m theLen).head? = some e) := by
  obtain ⟨l, hs⟩ := m
  simp only [entriesFrom, ← StdMap.mem_entries] at he ⊢
  induction l with
  | nil => cases he
  | cons a l ih =>
    obtain ⟨hlt, hs⟩ := List.pairwise_cons.1 hs
    by_cases ha : theLen ≤ a.1
    · simp only [List.find?_cons, decide_eq_true ha, Option.map_some, Option.getD_some, List.dropWhile_cons, ne_eq,
        not_true_eq_false, decide_false, Bool.false_eq_true, if_false, List.head?_cons, Option.some.injEq]
      refine ⟨he, fun hk => ?_⟩
      cases List.mem_cons.1 he with
      | inl he => exact he.symm
      | inr he =>
        have := hlt e he
        omega
    · have he' : e ∈ l := by
        cases List.mem_cons.1 he with
        | inl he => exact absurd (he ▸ hle) ha
        | inr he => exact he
      have hfind : (a :: l).find? (fun e => decide (theLen ≤ e.1)) = l.find? fun e => decide (theLen ≤ e.1) := by
        rw [List.find?_cons, decide_eq_false ha]
      obtain ⟨f, hf⟩ : ∃ f, l.find? (fun e => decide (theLen ≤ e.1)) = some f := by
        cases hf : l.find? (fun e => decide (theLen ≤ e.1)) with
        | some f => exact ⟨f, rfl⟩
        | none =>
          have := List.find?_eq_none.1 hf e he'
          simp only [decide_eq_true_eq] at this
          exact absurd hle this
      have hne : a.1 ≠ f.1 := by
        have := List.find?_some hf
        simp only [decide_eq_true_eq] at this
        omega
      have hih := ih hs he'
      rw [hf] at hih
      rw [hfind, hf]
      simpa [List.dropWhile_cons, hne] using hih

end MemPool
