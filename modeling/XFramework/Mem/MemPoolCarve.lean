/-
What `UpdatePools` makes of a buffer.

The offset is compared with the length of the buffer before a unit is laid,
and the passes end only when it is past the buffer: so the last unit ends
behind the buffer, whatever the buffer, the pool and `bInit` are
(`not_carved`). The nodes that were there stay (`UpdatesTo.grown`).
-/
import XFramework.Mem.MemPoolInit

open Fallible

namespace MemPool

variable {s s' : MemPool} {pStart : Int} {len fuel nOffset i : Nat} {bInit : Bool} {n : MemNode}

/-- `UpdatePools` comes to its end with the pool `s'`. -/
def UpdatesTo (s : MemPool) (pStart : Int) (len : Nat) (bInit : Bool) (s' : MemPool) : Prop :=
  ∃ fuel s₁ nOffset, layPasses pStart len fuel bInit s 0 = .ok (s₁, nOffset) ∧ s' = layRest s₁ pStart len nOffset

theorem updatesTo_of_updatePools (h : updatePools s pStart len bInit = .ok s') : UpdatesTo s pStart len bInit s' := by
  obtain ⟨⟨s₁, nOffset⟩, hrun, h⟩ := bind_eq_ok.1 h
  cases h
  exact ⟨len + 2, s₁, nOffset, hrun, rfl⟩

/-- The nodes of `s` are nodes of `s'`, unchanged, and under their keys. -/
structure Grown (s s' : MemPool) : Prop where
  length : s.nodes.length ≤ s'.nodes.length
  read : ∀ x n, s.nodes.read x = some n → s'.nodes.read x = some n
  keyed : ∀ k x, InSet s.m_pools k x → InSet s'.m_pools k x

/-- The new nodes cut the buffer up, and the old ones are as before. -/
structure Carved (s s' : MemPool) (pStart : Int) (len : Nat) : Prop where
  inside : ∀ x n, s.nodes.length ≤ x → s'.nodes.read x = some n → Within n ⟨len, pStart⟩
  apart : ∀ x y n m, s.nodes.length ≤ x → s.nodes.length ≤ y → x ≠ y → s'.nodes.read x = some n →
    s'.nodes.read y = some m → Apart n m
  grown : Grown s s'

theorem Grown.refl (s : MemPool) : Grown s s := ⟨Nat.le_refl _, fun _ _ h => h, fun _ _ h => h⟩

theorem Grown.trans {t : MemPool} (h : Grown s s') (h' : Grown s' t) : Grown s t :=
  ⟨h.length.trans h'.length, fun x n hx => h'.read x n (h.read x n hx), fun k x hx => h'.keyed k x (h.keyed k x hx)⟩

theorem grown_pushNode (s : MemPool) (n : MemNode) : Grown s (pushNode s n) where
  length := by
    rw [pushNode, Heap.length_new]
    exact Nat.le_succ _
  read x m hx := Heap.read_new_other hx
  keyed k x hx := inSet_pushBack.2 (.inl hx)

theorem grown_pushAll (ns : List MemNode) (s : MemPool) : Grown s (ns.foldl pushNode s) := by
  induction ns generalizing s with
  | nil => exact .refl s
  | cons n ns ih => exact (grown_pushNode s n).trans (ih _)

theorem length_pushAll (ns : List MemNode) (s : MemPool) : (ns.foldl pushNode s).nodes.length = s.nodes.length + ns.length := by
  induction ns generalizing s with
  | nil => rfl
  | cons n ns ih =>
    rw [List.foldl_cons, ih, pushNode, Heap.length_new, List.length_cons]
    omega

/-- The last node of those that are laid. -/
theorem read_pushAll_last {ns : List MemNode} (h : ns.getLast? = some n) (s : MemPool) :
    ∃ x, s.nodes.length ≤ x ∧ (ns.foldl pushNode s).nodes.read x = some n := by
  obtain ⟨ns, rfl⟩ := List.getLast?_eq_some_iff.1 h
  refine ⟨s.nodes.length + ns.length, Nat.le_add_right _ _, ?_⟩
  rw [List.foldl_append, List.foldl_cons, List.foldl_nil, pushNode, Heap.read_new, length_pushAll, if_pos rfl]

/-- A type of a pass takes a unit at the offset, or nothing. -/
theorem layType_cases {p q : Pass} (h : layType pStart len bInit p i = .ok q) :
    (q.pool = p.pool ∧ q.nOffset = p.nOffset) ∨ (p.nOffset ≤ len ∧
      q.pool = (typeNodes pStart p.nOffset i).foldl pushNode p.pool ∧ q.nOffset = (p.nOffset + useSize i) % 2 ^ 32) := by
  obtain ⟨nTotal, -, h⟩ := bind_eq_ok.1 h
  obtain ⟨nRemain, -, h⟩ := bind_eq_ok.1 h
  by_cases hfull : bInit = false ∧ nRemain > nTotal / 10 * 3
  · rw [if_pos hfull] at h
    cases h
    exact .inl ⟨rfl, rfl⟩
  · rw [if_neg hfull] at h
    by_cases hoff : p.nOffset ≤ len
    · rw [if_pos hoff] at h
      cases h
      exact .inr ⟨hoff, rfl, rfl⟩
    · rw [if_neg hoff] at h
      cases h
      exact .inl ⟨rfl, rfl⟩

/-- A unit is a number of nodes of its type. -/
theorem useSize_eq : ∀ i < 4, ∃ k < 8, useSize i / blockType.getD i 0 = k + 1 ∧
    (k + 1) * blockType.getD i 0 = useSize i := by
  decide

/-- The last node of a unit ends where the unit does. -/
theorem typeNodes_last (pStart : Int) (nOffset : Nat) (hi : i < 4) : ∃ n, (typeNodes pStart nOffset i).getLast? = some n ∧
    n.pStart + n.nLen = pStart + nOffset + useSize i := by
  obtain ⟨k, -, hk, hsize⟩ := useSize_eq i hi
  rw [typeNodes, hk, List.range_succ, List.map_append, List.map_singleton, List.getLast?_concat]
  refine ⟨_, rfl, ?_⟩
  rw [← hsize, Nat.succ_mul]
  simp only
  omega

/-- Past the buffer there is a node that ends behind it. -/
def Overlaid (s₀ : MemPool) (pStart : Int) (len : Nat) (p : Pass) : Prop :=
  p.nOffset ≤ len ∨ ∃ x n, s₀.nodes.length ≤ x ∧ p.pool.nodes.read x = some n ∧ pStart + len < n.pStart + n.nLen

/-- What a step of `UpdatePools` keeps of the pool `s₀` at its start. -/
structure Kept (s₀ : MemPool) (pStart : Int) (len : Nat) (p : Pass) : Prop where
  grown : Grown s₀ p.pool
  overlaid : Overlaid s₀ pStart len p

theorem Kept.layType {s₀ : MemPool} {p q : Pass} (hi : i < 4) (hp : Kept s₀ pStart len p)
    (h : layType pStart len bInit p i = .ok q) : Kept s₀ pStart len q := by
  rcases layType_cases h with ⟨hpool, hoff⟩ | ⟨hle, hpool, hoff⟩
  · refine ⟨hpool ▸ hp.grown, ?_⟩
    rw [Overlaid, hpool, hoff]
    exact hp.overlaid
  · obtain ⟨n, hlast, hends⟩ := typeNodes_last pStart p.nOffset hi
    obtain ⟨x, hx, hread⟩ := read_pushAll_last hlast p.pool
    refine ⟨hpool ▸ hp.grown.trans (grown_pushAll _ _), ?_⟩
    rw [Overlaid, hoff, hpool]
    by_cases hin : (p.nOffset + useSize i) % 2 ^ 32 ≤ len
    · exact .inl hin
    · refine .inr ⟨x, n, hp.grown.length.trans hx, hread, ?_⟩
      have := Nat.mod_le (p.nOffset + useSize i) (2 ^ 32)
      omega

/-- The passes end past the buffer. -/
theorem layPasses_kept {s₀ s₁ : MemPool} {nOffset' : Nat} (hs : Kept s₀ pStart len ⟨s, 0, nOffset⟩)
    (h : layPasses pStart len fuel bInit s nOffset = .ok (s₁, nOffset')) :
    len < nOffset' ∧ Kept s₀ pStart len ⟨s₁, 0, nOffset'⟩ := by
  induction fuel generalizing bInit s nOffset with
  | zero => cases h
  | succ fuel ih =>
    obtain ⟨p, hpass, h⟩ := bind_eq_ok.1 h
    have hp : Kept s₀ pStart len p :=
      foldlM_run (Kept s₀ pStart len) hpass hs fun p q i hi hp hq => hp.layType (List.mem_range.1 hi) hq
    by_cases hoff : p.nOffset ≤ len
    · rw [if_pos hoff] at h
      exact ih ⟨hp.grown, .inl hoff⟩ h
    · rw [if_neg hoff] at h
      cases h
      exact ⟨Nat.lt_of_not_le hoff, hp.grown, hp.overlaid⟩

theorem grown_layRest (s : MemPool) (pStart : Int) (len nOffset : Nat) : Grown s (layRest s pStart len nOffset) := by
  rw [layRest]
  split_ifs
  · exact grown_pushNode _ _
  · exact .refl s

theorem UpdatesTo.kept (h : UpdatesTo s pStart len bInit s') : ∃ s₁ nOffset, len < nOffset ∧
    Kept s pStart len ⟨s₁, 0, nOffset⟩ ∧ Grown s₁ s' := by
  obtain ⟨fuel, s₁, nOffset, hrun, rfl⟩ := h
  obtain ⟨hoff, hkept⟩ := layPasses_kept ⟨.refl s, .inl (Nat.zero_le _)⟩ hrun
  exact ⟨s₁, nOffset, hoff, hkept, grown_layRest ..⟩

/-- The nodes that were there are there, unchanged, under their keys. -/
theorem UpdatesTo.grown (h : UpdatesTo s pStart len bInit s') : Grown s s' := by
  obtain ⟨s₁, nOffset, -, hkept, hrest⟩ := h.kept
  exact hkept.grown.trans hrest

/-- `UpdatePools` never cuts a buffer up: a new node ends behind it. -/
theorem not_carved (h : UpdatesTo s pStart len bInit s') : ¬Carved s s' pStart len := by
  obtain ⟨s₁, nOffset, hoff, hkept, hrest⟩ := h.kept
  obtain ⟨x, n, hx, hread, hends⟩ := hkept.overlaid.resolve_left (Nat.not_le.2 hoff)
  intro hcarved
  have := (hcarved.inside x n hx (hrest.read x n hread)).2
  simp only at this
  omega

/-- A new pool gets a second buffer, of 100 bytes. -/
theorem not_carved_second : ∃ s s', init (fun _ => 0) 1000 = .ok s ∧ UpdatesTo s 5000 100 true s' ∧
    ¬Carved s s' 5000 100 := by
  have hrun : ∃ s s', init (fun _ => 0) 1000 = .ok s ∧ updatePools s 5000 100 true = .ok s' := ⟨_, _, rfl, rfl⟩
  obtain ⟨s, s', hs, hs'⟩ := hrun
  exact ⟨s, s', hs, updatesTo_of_updatePools hs', not_carved (updatesTo_of_updatePools hs')⟩

/-- `Init` lays the node 18 right behind its buffer. -/
theorem carved_init_outside : ¬∀ s s' : MemPool, UpdatesTo s 1000 (DEFAULTBLOCK * DEFAULTCOUNT) true s' →
    Carved s s' 1000 (DEFAULTBLOCK * DEFAULTCOUNT) := by
  intro h
  have hrun : ∃ s', updatePools ⟨fun _ => 0, [], false, .empty, .empty, .empty, []⟩ 1000 (DEFAULTBLOCK * DEFAULTCOUNT) true =
      .ok s' ∧ s'.nodes.read 18 = some ⟨4, .UF_NONE, 1192, .empty⟩ := ⟨_, rfl, rfl⟩
  obtain ⟨s', hs', hread⟩ := hrun
  have hin := (h _ s' (updatesTo_of_updatePools hs')).inside 18 _ (Nat.zero_le _) hread
  exact absurd hin.2 (by decide)

end MemPool
