/-
The free list and the record of a pool over its trees, and what the five
changes of a pool do to them: a node is handed out whole, its front is handed
out, a node is given back, a buffer is added, the chips of a root are merged.

`Shape` does not say where the nodes lie, nor who holds the blocks: the free
list holds free nodes only, and the record used ones by their address. That
every free chip is in the free list is said apart (`ChipsListed`), for a merge
below a root does not keep it.
-/
import XFramework.Mem.MemPoolTrees

namespace MemPool

/-! ## Free lists by length -/

/-- `x` is listed under the length `k`. -/
def InSet (m : StdMap Nat (List Nat)) (k x : Nat) : Prop := ∃ l, (k, l) ∈ m ∧ x ∈ l

variable {m : StdMap Nat (List Nat)} {k k' x y v : Nat} {l l' : List Nat}

theorem inSet_set (h : (k, l) ∈ m) : InSet (m.set k l') k' x ↔ (k' ≠ k ∧ InSet m k' x) ∨ (k' = k ∧ x ∈ l') := by
  simp only [InSet, StdMap.mem_set, Prod.mk.injEq]
  refine ⟨?_, ?_⟩
  · intro ⟨a, ha, hx⟩
    rcases ha with ⟨ha, hk⟩ | ⟨⟨hk, rfl⟩, -⟩
    · exact .inl ⟨hk, a, ha, hx⟩
    · exact .inr ⟨hk, hx⟩
  · intro hx
    rcases hx with ⟨hk, a, ha, hx⟩ | ⟨hk, hx⟩
    · exact ⟨a, .inl ⟨ha, hk⟩, hx⟩
    · exact ⟨l', .inr ⟨⟨hk, rfl⟩, l, h⟩, hx⟩

theorem inSet_pushBack : InSet (pushBack m k v) k' x ↔ InSet m k' x ∨ (k' = k ∧ x = v) := by
  rw [pushBack]
  cases hf : m.find? k with
  | some l =>
    have hl := StdMap.find?_eq_some.1 hf
    rw [inSet_set hl, List.mem_append, List.mem_singleton]
    by_cases hk : k' = k
    · subst hk
      have hiff : InSet m k' x ↔ x ∈ l := ⟨fun ⟨a, ha, hx⟩ => StdMap.mem_unique ha hl ▸ hx, fun hx => ⟨l, hl, hx⟩⟩
      simp [hiff]
    · simp [hk]
  | none =>
    have hnone := StdMap.find?_eq_none.1 hf
    simp only [InSet, StdMap.mem_insert_new hnone, Prod.mk.injEq]
    refine ⟨?_, ?_⟩
    · intro ⟨a, ha, hx⟩
      rcases ha with ha | ⟨hk, rfl⟩
      · exact .inl ⟨a, ha, hx⟩
      · exact .inr ⟨hk, List.mem_singleton.1 hx⟩
    · intro hx
      rcases hx with ⟨a, ha, hx⟩ | ⟨hk, rfl⟩
      · exact ⟨a, .inl ha, hx⟩
      · exact ⟨[x], .inr ⟨hk, rfl⟩, List.mem_singleton_self x⟩

/-- A node that is listed under `k` only leaves its list. -/
theorem inSet_set_remove (h : (k, l) ∈ m) (hl : ∀ y, y ∈ l' ↔ y ∈ l ∧ y ≠ v) (hk : ∀ a, InSet m a v → a = k) :
    InSet (m.set k l') k' x ↔ InSet m k' x ∧ x ≠ v := by
  rw [inSet_set h, hl]
  refine ⟨?_, ?_⟩
  · intro hx
    rcases hx with ⟨hne, hx⟩ | ⟨rfl, hx, hne⟩
    · exact ⟨hx, fun he => hne (hk k' (he ▸ hx))⟩
    · exact ⟨⟨l, h, hx⟩, hne⟩
  · intro ⟨⟨a, ha, hx⟩, hne⟩
    by_cases hkk : k' = k
    · subst hkk
      exact .inr ⟨rfl, StdMap.mem_unique ha h ▸ hx, hne⟩
    · exact .inl ⟨hkk, a, ha, hx⟩

/-- A list stays at the front of what it becomes. -/
theorem pushBack_prefix (h : (k, l) ∈ m) : ∃ l', (k, l') ∈ pushBack m k' v ∧ l <+: l' := by
  rw [pushBack]
  cases hf : m.find? k' with
  | none => exact ⟨l, (StdMap.mem_insert_new (StdMap.find?_eq_none.1 hf)).2 (.inl h), List.prefix_refl l⟩
  | some a =>
    have ha := StdMap.find?_eq_some.1 hf
    by_cases hk : k = k'
    · subst hk
      exact ⟨a ++ [v], StdMap.mem_set.2 (.inr ⟨rfl, a, ha⟩), StdMap.mem_unique ha h ▸ List.prefix_append a [v]⟩
    · exact ⟨l, StdMap.mem_set.2 (.inl ⟨h, hk⟩), List.prefix_refl l⟩

/-- No list has a node twice. -/
def NoRepeat (m : StdMap Nat (List Nat)) : Prop := ∀ k l, (k, l) ∈ m → l.Nodup

theorem noRepeat_set (h : NoRepeat m) (hl : l'.Nodup) : NoRepeat (m.set k l') := by
  intro a b hab
  rw [StdMap.mem_set] at hab
  rcases hab with ⟨hab, -⟩ | ⟨hab, -⟩
  · exact h a b hab
  · cases hab
    exact hl

theorem noRepeat_pushBack (h : NoRepeat m) (hv : ¬InSet m k v) : NoRepeat (pushBack m k v) := by
  rw [pushBack]
  cases hf : m.find? k with
  | some l =>
    have hl := StdMap.find?_eq_some.1 hf
    refine noRepeat_set h (List.Nodup.append (h k l hl) (List.nodup_singleton v) ?_)
    intro a ha hv'
    rw [List.mem_singleton] at hv'
    exact hv ⟨l, hl, hv' ▸ ha⟩
  | none =>
    intro a b hab
    rw [StdMap.mem_insert_new (StdMap.find?_eq_none.1 hf)] at hab
    cases hab with
    | inl hab => exact h a b hab
    | inr hab =>
      cases hab
      exact List.nodup_singleton v

/-! ## The shape of a pool -/

structure Shape (s : MemPool) : Prop where
  forest : Forest s.nodes.read
  listed : ∀ k x, InSet s.m_poolset k x → ∃ n, s.nodes.read x = some n ∧ n.eStatus = .UF_NONE ∧ n.nLen = k
  nodup : NoRepeat s.m_poolset
  recorded : ∀ p x, (p, x) ∈ s.m_record → ∃ n, s.nodes.read x = some n ∧ n.eStatus = .UF_USE ∧ n.pStart = p
  roots : ∀ k x, InSet s.m_pools k x → (∃ n, s.nodes.read x = some n) ∧ ∀ id n, s.nodes.read id = some n → ¬ChipOf x n

/-- Every free chip is in the free list. -/
def ChipsListed (s : MemPool) : Prop := ∀ id n x c, s.nodes.read id = some n → ChipOf x n → s.nodes.read x = some c →
  c.eStatus = .UF_NONE → InSet s.m_poolset c.nLen x

variable {s s' : MemPool} {n n' ni nj : MemNode} {i j len : Nat} {p : Int}

/-- One node has one status. -/
theorem ne_of_status (hx : s.nodes.read x = some n) (hy : s.nodes.read y = some n') (hne : n.eStatus ≠ n'.eStatus) : x ≠ y := by
  intro he
  rw [he, hy] at hx
  cases hx
  exact hne rfl

/-- A node is listed under its length only. -/
theorem Shape.key (h : Shape s) (hx : s.nodes.read x = some n) (hin : InSet s.m_poolset k x) : k = n.nLen := by
  obtain ⟨c, hc, -, hck⟩ := h.listed k x hin
  rw [hx] at hc
  cases hc
  exact hck.symm

theorem not_chip_of_empty {m : MemNode} (hm : m.mChips = .empty) : ¬ChipOf x m := by
  intro ⟨k, hk⟩
  rw [hm] at hk
  exact StdMap.not_mem_empty hk

/-! ## A node is marked -/

/-- The node `x` gets another status, the others stay. -/
structure Marked (s s' : MemPool) (x : Nat) (n : MemNode) (st : UseFor) : Prop where
  read : s.nodes.read x = some n
  nodes : s'.nodes = s.nodes.write x { n with eStatus := st }
  pools : s'.m_pools = s.m_pools
  bufs : s'.m_OriginalBuffer = s.m_OriginalBuffer

section Marked

variable {st : UseFor} (hm : Marked s s' x n st)

include hm in
theorem Marked.reads (y : Nat) : s'.nodes.read y = if y = x then some { n with eStatus := st } else s.nodes.read y := by
  rw [hm.nodes, Heap.read_write (Heap.lt_of_read hm.read)]

include hm in
theorem Marked.self : s'.nodes.read x = some { n with eStatus := st } := by rw [hm.reads, if_pos rfl]

include hm in
theorem Marked.other (hy : y ≠ x) : s'.nodes.read y = s.nodes.read y := by rw [hm.reads, if_neg hy]

include hm in
theorem Marked.chipOf {id z : Nat} {c : MemNode} (hc : s'.nodes.read id = some c) (hz : ChipOf z c) :
    ∃ c₀, s.nodes.read id = some c₀ ∧ ChipOf z c₀ := by
  by_cases hid : id = x
  · rw [hid, hm.self] at hc
    cases hc
    exact ⟨n, hid ▸ hm.read, hz⟩
  · exact ⟨c, hm.other hid ▸ hc, hz⟩

include hm in
theorem Marked.sameShapes (hn : n.eStatus ≠ .UF_ALLOC) (hst : st ≠ .UF_ALLOC) : SameShapes s.nodes.read s'.nodes.read :=
  sameShapes_mark hm.read hn hst hm.reads

include hm in
theorem Marked.roots (h : Shape s) (k y : Nat) (hy : InSet s'.m_pools k y) :
    (∃ c, s'.nodes.read y = some c) ∧ ∀ id c, s'.nodes.read id = some c → ¬ChipOf y c := by
  rw [hm.pools] at hy
  obtain ⟨⟨c, hc⟩, hnot⟩ := h.roots k y hy
  refine ⟨?_, fun id d hd hz => ?_⟩
  · by_cases hyx : y = x
    · exact ⟨_, hyx ▸ hm.self⟩
    · exact ⟨c, (hm.other hyx).trans hc⟩
  · obtain ⟨c₀, hc₀, hz₀⟩ := hm.chipOf hd hz
    exact hnot id c₀ hc₀ hz₀

end Marked

/-- A free node is handed out whole; it leaves the free list if it is there. -/
structure HandsWhole (s s' : MemPool) (x : Nat) (n : MemNode) : Prop extends Marked s s' x n .UF_USE where
  free : n.eStatus = .UF_NONE
  set : ∀ k y, InSet s'.m_poolset k y ↔ InSet s.m_poolset k y ∧ y ≠ x
  nodup : NoRepeat s'.m_poolset
  record : s'.m_record = s.m_record.insert n.pStart x

theorem Shape.hand_whole (h : Shape s) (hm : HandsWhole s s' x n) : Shape s' := by
  refine ⟨?forest, ?listed, hm.nodup, ?recorded, hm.roots h⟩
  case forest => exact h.forest.of_same (hm.sameShapes (by rw [hm.free]; simp) (by simp))
  case listed =>
    intro k y hy
    obtain ⟨hy, hne⟩ := (hm.set k y).1 hy
    rw [hm.other hne]
    exact h.listed k y hy
  case recorded =>
    intro q y hq
    rw [hm.record, StdMap.mem_insert] at hq
    rcases hq with hq | ⟨hq, -⟩
    · obtain ⟨c, hc, hst, hp⟩ := h.recorded q y hq
      have hne : y ≠ x := ne_of_status hc hm.read (by rw [hst, hm.free]; simp)
      exact ⟨c, (hm.other hne).trans hc, hst, hp⟩
    · cases hq
      exact ⟨_, hm.self, rfl, rfl⟩

theorem ChipsListed.hand_whole (h : ChipsListed s) (hm : HandsWhole s s' x n) : ChipsListed s' := by
  intro id c y d hc hy hd hst
  obtain ⟨c₀, hc₀, hy₀⟩ := hm.chipOf hc hy
  have hne : y ≠ x := ne_of_status hd hm.self (by rw [hst]; simp)
  rw [hm.other hne] at hd
  exact (hm.set _ _).2 ⟨h id c₀ y d hc₀ hy₀ hd hst, hne⟩

/-- A used node is free again, and listed. -/
structure Gives (s s' : MemPool) (p : Int) (x : Nat) (n : MemNode) : Prop extends Marked s s' x n .UF_NONE where
  mem : (p, x) ∈ s.m_record
  set : s'.m_poolset = pushBack s.m_poolset n.nLen x
  record : s'.m_record = s.m_record.erase p

/-- The node was used, at that address. -/
theorem Gives.used (hm : Gives s s' p x n) (h : Shape s) : n.eStatus = .UF_USE ∧ n.pStart = p := by
  obtain ⟨c, hc, hst, hp⟩ := h.recorded p x hm.mem
  rw [hm.read] at hc
  cases hc
  exact ⟨hst, hp⟩

theorem Shape.give (h : Shape s) (hm : Gives s s' p x n) : Shape s' := by
  obtain ⟨hst, hp⟩ := hm.used h
  have hunlisted : ∀ k, ¬InSet s.m_poolset k x := by
    intro k hk
    obtain ⟨d, hd, hst', -⟩ := h.listed k x hk
    exact ne_of_status hm.read hd (by rw [hst, hst']; simp) rfl
  refine ⟨?forest, ?listed, ?nodup, ?recorded, hm.roots h⟩
  case forest => exact h.forest.of_same (hm.sameShapes (by rw [hst]; simp) (by simp))
  case listed =>
    intro k y hy
    rw [hm.set, inSet_pushBack] at hy
    rcases hy with hy | ⟨rfl, rfl⟩
    · rw [hm.other fun he => hunlisted k (he ▸ hy)]
      exact h.listed k y hy
    · exact ⟨_, hm.self, rfl, rfl⟩
  case nodup =>
    rw [hm.set]
    exact noRepeat_pushBack h.nodup (hunlisted _)
  case recorded =>
    intro q y hq
    rw [hm.record, StdMap.mem_erase] at hq
    obtain ⟨d, hd, hst', hq'⟩ := h.recorded q y hq.1
    have hyx : y ≠ x := by
      intro he
      rw [he, hm.read] at hd
      cases hd
      exact hq.2 (hq'.symm.trans hp)
    exact ⟨d, (hm.other hyx).trans hd, hst', hq'⟩

theorem ChipsListed.give (h : ChipsListed s) (hm : Gives s s' p x n) : ChipsListed s' := by
  intro id c y d hc hy hd hst
  obtain ⟨c₀, hc₀, hy₀⟩ := hm.chipOf hc hy
  rw [hm.set, inSet_pushBack]
  by_cases hyx : y = x
  · rw [hyx, hm.self] at hd
    cases hd
    exact .inr ⟨rfl, hyx⟩
  · rw [hm.other hyx] at hd
    exact .inl (h id c₀ y d hc₀ hy₀ hd hst)

/-! ## The front of a node is handed out -/

theorem not_read_length (s : MemPool) (k : Nat) : s.nodes.read (s.nodes.length + k) = none := by
  cases hr : s.nodes.read (s.nodes.length + k) with
  | none => rfl
  | some c =>
    have := Heap.lt_of_read hr
    omega

/-- A free node is split; its front is used, and its rest is listed in its place. -/
structure HandsFront (s s' : MemPool) (x len : Nat) (n n' : MemNode) : Prop where
  read : s.nodes.read x = some n
  free : n.eStatus = .UF_NONE
  lt : len < n.nLen
  ne : n.nLen - len ≠ len
  split : SplitAt s.nodes.read s'.nodes.read x s.nodes.length (s.nodes.length + 1) len n n'
  long : s'.nodes.length = s.nodes.length + 2
  set : ∀ k y, InSet s'.m_poolset k y ↔ (InSet s.m_poolset k y ∧ y ≠ x) ∨ (k = n.nLen - len ∧ y = s.nodes.length + 1)
  nodup : NoRepeat s'.m_poolset
  record : s'.m_record = s.m_record.insert n.pStart s.nodes.length
  pools : s'.m_pools = s.m_pools
  bufs : s'.m_OriginalBuffer = s.m_OriginalBuffer

section HandsFront

variable (hm : HandsFront s s' x len n n')

include hm in
theorem HandsFront.reads : s'.nodes.read x = some n' ∧
    s'.nodes.read s.nodes.length = some ⟨len, .UF_USE, n.pStart, .empty⟩ ∧
    s'.nodes.read (s.nodes.length + 1) = some ⟨n.nLen - len, .UF_NONE, n.pStart + len, .empty⟩ ∧
    s.nodes.length ≠ x ∧ s.nodes.length + 1 ≠ x :=
  hm.split.reads hm.read (not_read_length s 0) (not_read_length s 1) (Nat.ne_of_lt (Nat.lt_succ_self _))

include hm in
theorem HandsFront.other {c : MemNode} (hy : y ≠ x) (hc : s.nodes.read y = some c) : s'.nodes.read y = some c :=
  hm.split.read_other (not_read_length s 0) (not_read_length s 1) hy hc

theorem Shape.hand_front (h : Shape s) (hm : HandsFront s s' x len n n') : Shape s' := by
  obtain ⟨hrx, hrf, hrg, hfx, hgx⟩ := hm.reads
  have hx := Heap.lt_of_read hm.read
  have hchips := fun y => hm.split.chipOf_iff (x := y) hm.ne
  refine ⟨?forest, ?listed, hm.nodup, ?recorded, ?roots⟩
  case forest =>
    exact h.forest.split hm.split hm.read (not_read_length s 0) (not_read_length s 1) (by omega) hm.lt hm.ne hx
      (Nat.lt_succ_of_lt hx)
  case listed =>
    intro k y hy
    rcases (hm.set k y).1 hy with ⟨hy, hyx⟩ | ⟨rfl, rfl⟩
    · obtain ⟨c, hc, hst⟩ := h.listed k y hy
      exact ⟨c, hm.other hyx hc, hst⟩
    · exact ⟨_, hrg, rfl, rfl⟩
  case recorded =>
    intro q y hq
    rw [hm.record, StdMap.mem_insert] at hq
    rcases hq with hq | ⟨hq, -⟩
    · obtain ⟨c, hc, hst, hp⟩ := h.recorded q y hq
      have hyx : y ≠ x := ne_of_status hc hm.read (by rw [hst, hm.free]; simp)
      exact ⟨c, hm.other hyx hc, hst, hp⟩
    · cases hq
      exact ⟨_, hrf, rfl, rfl⟩
  case roots =>
    intro k y hy
    rw [hm.pools] at hy
    obtain ⟨⟨c, hc⟩, hnot⟩ := h.roots k y hy
    refine ⟨?_, fun id d hd hz => ?_⟩
    · by_cases hyx : y = x
      · exact ⟨n', hyx ▸ hrx⟩
      · exact ⟨c, hm.other hyx hc⟩
    · rcases hm.split.cases_of hd with ⟨rfl, rfl⟩ | ⟨-, rfl⟩ | ⟨-, rfl⟩ | ⟨-, -, -, hd⟩
      · have hy := Heap.lt_of_read hc
        cases (hchips y).1 hz with
        | inl hz => omega
        | inr hz => omega
      · exact not_chip_of_empty rfl hz
      · exact not_chip_of_empty rfl hz
      · exact hnot id d hd hz

theorem ChipsListed.hand_front (h : ChipsListed s) (hs : Shape s) (hm : HandsFront s s' x len n n') : ChipsListed s' := by
  obtain ⟨hrx, hrf, hrg, -, -⟩ := hm.reads
  intro id c y d hc hy hd hst
  rcases hm.split.cases_of hc with ⟨rfl, rfl⟩ | ⟨-, rfl⟩ | ⟨-, rfl⟩ | ⟨-, -, -, hc⟩
  · cases (hm.split.chipOf_iff hm.ne).1 hy with
    | inl hy =>
      rw [hy, hrf] at hd
      cases hd
      cases hst
    | inr hy =>
      rw [hy, hrg] at hd
      cases hd
      exact (hm.set _ _).2 (.inr ⟨rfl, hy⟩)
  · exact absurd hy (not_chip_of_empty rfl)
  · exact absurd hy (not_chip_of_empty rfl)
  · obtain ⟨d₀, hd₀⟩ := hs.forest.read_chip hc hy
    have hyx : y ≠ x := ne_of_status hd hrx (by rw [hst, hm.split.status]; simp)
    rw [hm.other hyx hd₀] at hd
    cases hd
    exact (hm.set _ _).2 (.inl ⟨h id c y d hc hy hd₀ hst, hyx⟩)

end HandsFront

/-! ## A buffer of its own -/

/-- A node over a new buffer, free and not listed. -/
structure Adds (s s' : MemPool) (b : OriginalNode) : Prop where
  nodes : s'.nodes = s.nodes.new ⟨b.len, .UF_NONE, b.pOriStart, .empty⟩
  set : s'.m_poolset = s.m_poolset
  record : s'.m_record = s.m_record
  pools : s'.m_pools = pushBack s.m_pools b.len s.nodes.length
  bufs : s'.m_OriginalBuffer = s.m_OriginalBuffer ++ [b]

theorem Adds.addAt {b : OriginalNode} (hm : Adds s s' b) : AddAt s.nodes.read s'.nodes.read s.nodes.length b :=
  ⟨not_read_length s 0, fun y => by rw [hm.nodes, Heap.read_new]⟩

theorem Shape.add {b : OriginalNode} (h : Shape s) (hm : Adds s s' b) : Shape s' := by
  have hat := hm.addAt
  refine ⟨h.forest.add hat, ?listed, hm.set ▸ h.nodup, ?recorded, ?roots⟩
  case listed =>
    intro k y hy
    rw [hm.set] at hy
    obtain ⟨c, hc, hst⟩ := h.listed k y hy
    exact ⟨c, hat.keep hc, hst⟩
  case recorded =>
    intro q y hq
    rw [hm.record] at hq
    obtain ⟨c, hc, hst⟩ := h.recorded q y hq
    exact ⟨c, hat.keep hc, hst⟩
  case roots =>
    intro k y hy
    rw [hm.pools, inSet_pushBack] at hy
    refine ⟨?_, fun id d hd hz => ?_⟩
    · rcases hy with hy | ⟨-, rfl⟩
      · obtain ⟨c, hc⟩ := (h.roots k y hy).1
        exact ⟨c, hat.keep hc⟩
      · exact ⟨_, by rw [hat.read, if_pos rfl]⟩
    · rcases hat.cases_of hd with ⟨-, rfl⟩ | ⟨-, hd⟩
      · exact not_chip_of_empty rfl hz
      · rcases hy with hy | ⟨-, rfl⟩
        · exact (h.roots k y hy).2 id d hd hz
        · obtain ⟨c, hc⟩ := h.forest.read_chip hd hz
          rw [hat.fresh] at hc
          cases hc

theorem ChipsListed.add {b : OriginalNode} (h : ChipsListed s) (hs : Shape s) (hm : Adds s s' b) : ChipsListed s' := by
  have hat := hm.addAt
  intro id c y d hc hy hd hst
  rw [hm.set]
  rcases hat.cases_of hc with ⟨-, rfl⟩ | ⟨-, hc⟩
  · exact absurd hy (not_chip_of_empty rfl)
  · obtain ⟨d₀, hd₀⟩ := hs.forest.read_chip hc hy
    rw [hat.keep hd₀] at hd
    cases hd
    exact h id c y d hc hy hd₀ hst

/-! ## Merging -/

/-- A node whose two chips are free is whole again; its chips leave the free list. -/
structure Merges (s s' : MemPool) (x i j : Nat) (n ni nj : MemNode) : Prop where
  node : s.nodes.read x = some n
  split : n.eStatus = .UF_ALLOC
  cut : Cut s.nodes.read n i j ni nj
  freeL : ni.eStatus = .UF_NONE
  freeR : nj.eStatus = .UF_NONE
  read : MergeAt s.nodes.read s'.nodes.read x i j n
  long : s'.nodes.length = s.nodes.length
  set : ∀ k y, InSet s'.m_poolset k y ↔ InSet s.m_poolset k y ∧ y ≠ i ∧ y ≠ j
  nodup : NoRepeat s'.m_poolset
  record : s'.m_record = s.m_record
  pools : s'.m_pools = s.m_pools
  bufs : s'.m_OriginalBuffer = s.m_OriginalBuffer

section Merges

variable (hm : Merges s s' x i j n ni nj)

include hm in
theorem Merges.other (hx : y ≠ x) (hi : y ≠ i) (hj : y ≠ j) : s'.nodes.read y = s.nodes.read y := by
  rw [hm.read.read, if_neg hx, if_neg (not_or.2 ⟨hi, hj⟩)]

include hm in
theorem Merges.self : s'.nodes.read x = some { n with eStatus := .UF_NONE, mChips := .empty } := by
  rw [hm.read.read, if_pos rfl]

include hm in
/-- A used node is none of the three. -/
theorem Merges.used {c : MemNode} (hc : s.nodes.read y = some c) (hst : c.eStatus = .UF_USE) : y ≠ x ∧ y ≠ i ∧ y ≠ j :=
  ⟨ne_of_status hc hm.node (by rw [hst, hm.split]; simp), ne_of_status hc hm.cut.readL (by rw [hst, hm.freeL]; simp),
    ne_of_status hc hm.cut.readR (by rw [hst, hm.freeR]; simp)⟩

include hm in
theorem Merges.used_keep {c : MemNode} (hc : s.nodes.read y = some c) (hst : c.eStatus = .UF_USE) : s'.nodes.read y = some c := by
  obtain ⟨h₁, h₂, h₃⟩ := hm.used hc hst
  exact (hm.other h₁ h₂ h₃).trans hc

theorem Shape.merge (h : Shape s) (hm : Merges s s' x i j n ni nj) : Shape s' := by
  refine ⟨h.forest.merge hm.read hm.node hm.cut, ?listed, hm.nodup, ?recorded, ?roots⟩
  case listed =>
    intro k y hy
    obtain ⟨hy, hyi, hyj⟩ := (hm.set k y).1 hy
    obtain ⟨c, hyc, hst, hlen⟩ := h.listed k y hy
    have hyx : y ≠ x := ne_of_status hyc hm.node (by rw [hst, hm.split]; simp)
    exact ⟨c, (hm.other hyx hyi hyj).trans hyc, hst, hlen⟩
  case recorded =>
    intro q y hq
    rw [hm.record] at hq
    obtain ⟨c, hc, hst, hp⟩ := h.recorded q y hq
    exact ⟨c, hm.used_keep hc hst, hst, hp⟩
  case roots =>
    intro k y hy
    rw [hm.pools] at hy
    obtain ⟨⟨c, hyc⟩, hnot⟩ := h.roots k y hy
    have hyi : y ≠ i := fun he => hnot x n hm.node (hm.cut.chipOf_iff.2 (.inl he))
    have hyj : y ≠ j := fun he => hnot x n hm.node (hm.cut.chipOf_iff.2 (.inr he))
    refine ⟨?_, fun id d hd hz => ?_⟩
    · by_cases hyx : y = x
      · exact ⟨_, hyx ▸ hm.self⟩
      · exact ⟨c, (hm.other hyx hyi hyj).trans hyc⟩
    · rcases hm.read.cases_of hd with ⟨-, rfl⟩ | ⟨-, -, -, hd⟩
      · exact not_chip_of_empty rfl hz
      · exact hnot id d hd hz

theorem ChipsListed.merge (h : ChipsListed s) (hm : Merges s s' x i j n ni nj)
    (hroot : ∀ id c, s.nodes.read id = some c → ¬ChipOf x c) : ChipsListed s' := by
  intro id c y d hc hy hd hst
  rcases hm.read.cases_of hc with ⟨-, rfl⟩ | ⟨-, -, -, hc⟩
  · exact absurd hy (not_chip_of_empty rfl)
  · rcases hm.read.cases_of hd with ⟨rfl, -⟩ | ⟨-, hyi, hyj, hd⟩
    · exact absurd hy (hroot id c hc)
    · exact (hm.set _ _).2 ⟨h id c y d hc hy hd hst, hyi, hyj⟩

end Merges

end MemPool
