/-
`Init` builds a pool that satisfies the invariant.

The second pass of `UpdatePools` lays eight nodes past the buffer, and the
last 32 bytes get a second node after it: these are the spare nodes.
-/
import XFramework.Mem.MemPoolAlloc

open Fallible Bytes

namespace MemPool

variable {s : MemPool} {ns : List MemNode} {n : MemNode} {b : Int} {len : Nat}

/-- The pool has the nodes `ns`, all of them free roots. -/
structure Laid (s : MemPool) (ns : List MemNode) : Prop where
  nodes : s.nodes = ns.map some
  free : ∀ n ∈ ns, n.eStatus = .UF_NONE
  roots : ∀ k x, InSet s.m_pools k x → x < ns.length
  set : s.m_poolset = .empty
  record : s.m_record = .empty

/-- The rest of the pool is as it was. -/
def SameBuffers (s s' : MemPool) : Prop := s'.m_OriginalBuffer = s.m_OriginalBuffer ∧ s'.m_lock = s.m_lock

theorem Laid.read (h : Laid s ns) {x : Nat} : s.nodes.read x = ns[x]? := by
  rw [Heap.read, h.nodes, List.getElem?_map]
  cases ns[x]? <;> rfl

theorem Laid.push (h : Laid s ns) (hn : n.eStatus = .UF_NONE) : Laid (pushNode s n) (ns ++ [n]) where
  nodes := by
    rw [pushNode, List.map_append]
    simp only [h.nodes, Heap.new]
    rfl
  free := by
    intro m hm
    cases List.mem_append.1 hm with
    | inl hm => exact h.free m hm
    | inr hm => exact List.mem_singleton.1 hm ▸ hn
  roots := by
    intro k x hx
    rw [pushNode] at hx
    simp only [inSet_pushBack, h.nodes, List.length_map] at hx
    rw [List.length_append, List.length_singleton]
    cases hx with
    | inl hx => exact Nat.lt_succ_of_lt (h.roots k x hx)
    | inr hx => omega
  set := h.set
  record := h.record

theorem Laid.push_all (h : Laid s ns) (ms : List MemNode) (hms : ∀ m ∈ ms, m.eStatus = .UF_NONE) :
    Laid (ms.foldl pushNode s) (ns ++ ms) ∧ SameBuffers s (ms.foldl pushNode s) := by
  induction ms generalizing s ns with
  | nil => exact ⟨by rwa [List.append_nil], rfl, rfl⟩
  | cons m ms ih =>
    obtain ⟨hl, hs⟩ := ih (h.push (hms m List.mem_cons_self)) fun k hk => hms k (List.mem_cons_of_mem _ hk)
    rw [List.append_assoc] at hl
    exact ⟨hl, hs⟩

theorem Laid.known (h : Laid s ns) {t x : Nat} (hx : x ∈ (s.m_pools.find? t).getD []) :
    ∃ n, s.nodes.read x = some n ∧ n.eStatus = .UF_NONE := by
  cases hf : s.m_pools.find? t with
  | none =>
    rw [hf] at hx
    cases hx
  | some l =>
    rw [hf] at hx
    have hlt := h.roots t x ⟨l, StdMap.find?_eq_some.1 hf, hx⟩
    exact ⟨ns[x], by rw [h.read, List.getElem?_eq_getElem hlt], h.free _ (List.getElem_mem hlt)⟩

theorem Laid.capacity (h : Laid s ns) (t : Nat) : ∃ c, s.getCapacityByType t = .ok c := by
  obtain ⟨c, hc, -⟩ := foldlM_exists (fun _ => True) (f := fun nCount id => do
    let n ← s.deref id
    .ok (nCount + n.nLen)) (l := (s.m_pools.find? t).getD []) (s := 0) trivial fun c x hx _ => by
      obtain ⟨n, hn, -⟩ := h.known hx
      exact ⟨c + n.nLen, by rw [deref_eq hn]; rfl, trivial⟩
  exact ⟨c, hc⟩

theorem Laid.remain (h : Laid s ns) (t : Nat) : ∃ r, s.getRemainByType t = .ok r := by
  obtain ⟨r, hr, -⟩ := foldlM_exists (fun _ => True) (f := fun nCount id => do
    let r ← s.getRemain s.depth id
    .ok (nCount + r)) (l := (s.m_pools.find? t).getD []) (s := 0) trivial fun c x hx _ => by
      obtain ⟨n, hn, hst⟩ := h.known hx
      refine ⟨c + n.nLen, ?_, trivial⟩
      rw [depth, getRemain, deref_eq hn]
      simp only [bind, Except.bind, hst]
  exact ⟨r, hr⟩

/-- The nodes of one type in a pass. -/
def typeNodes (b : Int) (nOffset i : Nat) : List MemNode :=
  (List.range (useSize i / blockType.getD i 0)).map fun j : Nat =>
    ⟨blockType.getD i 0, .UF_NONE, b + nOffset + (j * blockType.getD i 0 : Nat), .empty⟩

/-- In the first filling each type gets its share as long as the buffer is not passed. -/
theorem layType_spec {p : Pass} (h : Laid p.pool ns) (i : Nat) : ∃ p', layType b len true p i = .ok p' ∧
    p'.pool = (if p.nOffset ≤ len then typeNodes b p.nOffset i else []).foldl pushNode p.pool ∧
    p'.nOffset = (if p.nOffset ≤ len then (p.nOffset + useSize i) % 2 ^ 32 else p.nOffset) ∧
    Laid p'.pool (ns ++ if p.nOffset ≤ len then typeNodes b p.nOffset i else []) := by
  obtain ⟨c, hc⟩ := h.capacity (blockType.getD i 0)
  obtain ⟨r, hr⟩ := h.remain (blockType.getD i 0)
  have hrun : layType b len true p i = if p.nOffset ≤ len then
      .ok { p with pool := (typeNodes b p.nOffset i).foldl pushNode p.pool, nOffset := (p.nOffset + useSize i) % 2 ^ 32 }
      else .ok p := by
    rw [layType]
    simp only [hc, hr, bind, Except.bind, Bool.true_eq_false, false_and, if_false]
    rfl
  rw [hrun]
  split_ifs with ho
  · have hl := h.push_all (typeNodes b p.nOffset i) fun m hm => by
      obtain ⟨j, -, rfl⟩ := List.mem_map.1 hm
      rfl
    exact ⟨_, rfl, rfl, rfl, hl.1⟩
  · exact ⟨p, rfl, rfl, rfl, by rwa [List.append_nil]⟩

/-- The offset after the types `is`, and the nodes laid for them. -/
def offsetAfter (len : Nat) : Nat → List Nat → Nat
  | nOffset, [] => nOffset
  | nOffset, i :: is => offsetAfter len (if nOffset ≤ len then (nOffset + useSize i) % 2 ^ 32 else nOffset) is

def nodesFor (b : Int) (len : Nat) : Nat → List Nat → List MemNode
  | _, [] => []
  | nOffset, i :: is => (if nOffset ≤ len then typeNodes b nOffset i else []) ++
    nodesFor b len (if nOffset ≤ len then (nOffset + useSize i) % 2 ^ 32 else nOffset) is

theorem pass_spec {p : Pass} (len : Nat) (h : Laid p.pool ns) (is : List Nat) : ∃ p', is.foldlM (layType b len true) p = .ok p' ∧
    p'.pool = (nodesFor b len p.nOffset is).foldl pushNode p.pool ∧ p'.nOffset = offsetAfter len p.nOffset is ∧
    Laid p'.pool (ns ++ nodesFor b len p.nOffset is) := by
  induction is generalizing p ns with
  | nil => exact ⟨p, rfl, rfl, rfl, by rwa [nodesFor, List.append_nil]⟩
  | cons i is ih =>
    obtain ⟨p₁, h₁, hp₁, ho₁, hl₁⟩ := layType_spec (b := b) h i
    obtain ⟨p', h', hp', ho', hl'⟩ := ih hl₁
    rw [ho₁] at ho' hl' hp'
    rw [List.append_assoc] at hl'
    refine ⟨p', foldlM_cons_ok.2 ⟨p₁, h₁, h'⟩, ?_, ho', hl'⟩
    rw [hp', hp₁, nodesFor, List.foldl_append]

/-- Where the nodes of a new pool lie: their length, the offset of their type, and theirs in it. -/
def layout : List (Nat × Nat × Nat) :=
  (List.range 8).map (4, 0, · * 4) ++ (List.range 4).map (8, 32, · * 8) ++ (List.range 4).map (16, 64, · * 16) ++
    (List.range 2).map (32, 128, · * 32) ++ (List.range 8).map (4, 192, · * 4) ++ [(32, 160, 0)]

/-- The node laid there. -/
def laidNode (b : Int) (e : Nat × Nat × Nat) : MemNode := ⟨e.1, .UF_NONE, b + e.2.1 + (e.2.2 : Nat), .empty⟩

theorem nodesFor_layout (b : Int) : nodesFor b 192 0 [0, 1, 2, 3] ++ nodesFor b 192 192 [0, 1, 2, 3] ++
    [⟨32, .UF_NONE, b + (160 : Nat), .empty⟩] = layout.map (laidNode b) := by
  have hlast : ([⟨32, .UF_NONE, b + (160 : Nat), .empty⟩] : List MemNode) = [(32, 160, 0)].map (laidNode b) := by
    simp [laidNode]
  rw [hlast]
  rfl

/-- A pool with its first buffer, which has no nodes yet. -/
def bare (m : Mem) (b : Int) : MemPool := addBuffer ⟨m, [], false, .empty, .empty, .empty, []⟩ (DEFAULTBLOCK * DEFAULTCOUNT) b

theorem laid_bare (m : Mem) (b : Int) : Laid (bare m b) [] :=
  ⟨rfl, fun _ hn => absurd hn List.not_mem_nil, fun _ _ ⟨_, hl, _⟩ => absurd hl StdMap.not_mem_empty, rfl, rfl⟩

/-- `Init` lays the nodes of the layout in their order. -/
theorem init_eq (m : Mem) (b : Int) : init m b = .ok ((layout.map (laidNode b)).foldl pushNode (bare m b)) := by
  obtain ⟨p₁, hr₁, hp₁, ho₁, hl₁⟩ := pass_spec (b := b) (p := ⟨bare m b, 0, 0⟩) 192 (laid_bare m b) [0, 1, 2, 3]
  have ho₁ : p₁.nOffset = 192 := ho₁
  have hl₁ : Laid (⟨p₁.pool, 0, 192⟩ : Pass).pool (nodesFor b 192 0 [0, 1, 2, 3]) := hl₁
  obtain ⟨p₂, hr₂, hp₂, ho₂, -⟩ := pass_spec (b := b) 192 hl₁ [0, 1, 2, 3]
  have ho₂ : p₂.nOffset = 224 := ho₂
  have hpasses : layPasses b 192 (192 + 2) true (bare m b) 0 = .ok (p₂.pool, 224) := by
    have hrange : List.range blockType.length = [0, 1, 2, 3] := rfl
    rw [layPasses, hrange, hr₁]
    simp only [bind, Except.bind, ho₁, le_refl, if_true, Bool.true_or]
    rw [layPasses, hrange, hr₂]
    simp only [bind, Except.bind, ho₂, show ¬(224 : Nat) ≤ 192 by decide, if_false]
  have hinit : init m b = .ok (pushNode p₂.pool ⟨32, .UF_NONE, b + (160 : Nat), .empty⟩) := by
    change (layPasses b 192 (192 + 2) true (bare m b) 0 >>= fun r => .ok (layRest r.1 b 192 r.2)) = _
    rw [hpasses]
    rfl
  rw [hinit, ← nodesFor_layout, List.foldl_append, List.foldl_append, hp₂, hp₁]
  rfl

/-- `Init` of a pool. -/
theorem init_laid (m : Mem) (b : Int) : ∃ s, init m b = .ok s ∧ Laid s (layout.map (laidNode b)) ∧
    s.m_OriginalBuffer = [⟨192, b⟩] ∧ s.m_lock = false := by
  obtain ⟨hl, hbufs, hlock⟩ := (laid_bare m b).push_all (layout.map (laidNode b)) fun n hn => by
    obtain ⟨e, -, rfl⟩ := List.mem_map.1 hn
    rfl
  exact ⟨_, init_eq m b, hl, hbufs, hlock⟩

/-- The end of a node in the layout comes before the start of another. -/
def EndsBefore (e e' : Nat × Nat × Nat) : Prop := e.2.1 + e.2.2 + e.1 ≤ e'.2.1 + e'.2.2

instance (e e' : Nat × Nat × Nat) : Decidable (EndsBefore e e') := inferInstanceAs (Decidable (_ ≤ _))

/-- All but the spare nodes lie apart, inside the buffer. -/
theorem layout_apart : ∀ i < 27, ∀ j < 27, i ≠ j → ¬Spare i ∧ ¬Spare j →
    EndsBefore (layout.getD i default) (layout.getD j default) ∨ EndsBefore (layout.getD j default) (layout.getD i default) := by
  decide +kernel

theorem layout_within : ∀ i < 27, 0 < (layout.getD i default).1 ∧
    (¬Spare i → (layout.getD i default).2.1 + (layout.getD i default).2.2 + (layout.getD i default).1 ≤ 192) := by
  decide +kernel

/-- The nodes of a new pool are those of the layout. -/
theorem Laid.layout_read (h : Laid s (layout.map (laidNode b))) {x : Nat} (hx : s.nodes.read x = some n) :
    x < 27 ∧ n = laidNode b (layout.getD x default) := by
  rw [h.read, List.getElem?_map, Option.map_eq_some_iff] at hx
  obtain ⟨e, he, rfl⟩ := hx
  obtain ⟨hlt, hxe⟩ := List.getElem?_eq_some_iff.1 he
  exact ⟨hlt, by rw [List.getD_eq_getElem?_getD, he]; rfl⟩

theorem init_inv (h : Laid s (layout.map (laidNode b))) (hb : s.m_OriginalBuffer = [⟨192, b⟩]) : Inv s [] := by
  have hread : ∀ x n, s.nodes.read x = some n → x < 27 ∧ n = laidNode b (layout.getD x default) :=
    fun x n hx => h.layout_read hx
  have hnochip : ∀ x n y, s.nodes.read x = some n → ¬ChipOf y n := by
    intro x n y hx hy
    obtain ⟨-, rfl⟩ := hread x n hx
    exact absurd hy.choose_spec StdMap.not_mem_empty
  have hfree : ∀ x n, s.nodes.read x = some n → n.eStatus = .UF_NONE := by
    intro x n hx
    obtain ⟨-, rfl⟩ := hread x n hx
    rfl
  have hsome : ∀ x < 27, ∃ n, s.nodes.read x = some n := by
    intro x hx
    have hlt : x < (layout.map (laidNode b)).length := hx
    exact ⟨_, by rw [h.read, List.getElem?_eq_getElem hlt]⟩
  refine ⟨⟨?pos, ?whole, ?cut, ?parent, ?late, ?apart, ?within⟩, ?spare, ?many, ?listed, ?nodup, ?chips, ?recorded, ?roots, ?live,
    List.nodup_nil⟩
  case pos =>
    intro x n hx
    obtain ⟨hlt, rfl⟩ := hread x n hx
    exact (layout_within x hlt).1
  case whole =>
    intro x n hx _
    obtain ⟨-, rfl⟩ := hread x n hx
    rfl
  case cut =>
    intro x n hx hn
    rw [hfree x n hx] at hn
    cases hn
  case parent => exact fun x _ n _ y hx _ hy _ => absurd hy (hnochip x n y hx)
  case late => exact fun x n y hx hy => absurd hy (hnochip x n y hx)
  case apart =>
    intro x y n m hx hy _ _ hsx hsy hne
    obtain ⟨hltx, rfl⟩ := hread x n hx
    obtain ⟨hlty, rfl⟩ := hread y m hy
    have := layout_apart x hltx y hlty hne ⟨hsx, hsy⟩
    simp only [EndsBefore] at this
    simp only [Apart, laidNode]
    omega
  case within =>
    intro x n hx hsx
    obtain ⟨hlt, rfl⟩ := hread x n hx
    have := (layout_within x hlt).2 hsx
    rw [hb]
    refine ⟨_, List.mem_singleton_self _, ?_, ?_⟩
    · simp only [laidNode]
      omega
    · simp only [laidNode]
      omega
  case spare =>
    intro x hx
    obtain ⟨n, hn⟩ := hsome x (Nat.lt_succ_of_le hx.2)
    exact ⟨n, hn, hfree x n hn⟩
  case many =>
    rw [h.nodes]
    exact le_of_eq rfl
  case listed =>
    rintro k x ⟨l, hl, -⟩
    rw [h.set] at hl
    exact absurd hl StdMap.not_mem_empty
  case nodup =>
    intro k l hl
    rw [h.set] at hl
    exact absurd hl StdMap.not_mem_empty
  case chips => exact fun x n y c hx hy _ _ => absurd hy (hnochip x n y hx)
  case recorded =>
    intro p x hx
    rw [h.record] at hx
    exact absurd hx StdMap.not_mem_empty
  case roots =>
    intro k x hx
    exact ⟨hsome x (h.roots k x hx), fun y n hy => hnochip y n x hy⟩
  case live => exact fun p len hp => absurd hp List.not_mem_nil

end MemPool
