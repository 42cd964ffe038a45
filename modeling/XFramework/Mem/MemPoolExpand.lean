/-
`expand` never returns.

It is to lay nodes for the types that have less than 30 percent of their bytes
left. After one pass every type has enough, and the passes go on without laying
anything: four types are full, and the loop waits for eight. So `Alloc` returns
when it finds what it looks for before it comes to `expand`.
-/
import XFramework.Mem.MemPoolCarve

open Fallible

namespace MemPool

variable {s s' : MemPool} {n : MemNode} {b : Int} {id i t len fuel fuel' total remain nOffset : Nat}

/-! ## What a type has -/

/-- The bytes of the nodes of a type, and those that are left. -/
structure Class (s : MemPool) (t total remain : Nat) : Prop where
  capacity : s.getCapacityByType t = .ok total
  remain : s.getRemainByType t = .ok remain

/-- A type has more than 30 percent left. -/
def Full (s : MemPool) (t : Nat) : Prop := ∃ total remain, Class s t total remain ∧ total / 10 * 3 < remain

theorem getRemain_keep {r : Nat} (hread : ∀ x n, s.nodes.read x = some n → s'.nodes.read x = some n) (hle : fuel ≤ fuel')
    (h : getRemain s fuel id = .ok r) : getRemain s' fuel' id = .ok r := by
  induction fuel generalizing id r fuel' with
  | zero => cases h
  | succ fuel ih =>
    obtain ⟨fuel', rfl⟩ := Nat.exists_eq_add_of_lt (Nat.lt_of_succ_le hle)
    have hle' : fuel ≤ fuel + fuel' := Nat.le_add_right _ _
    rw [getRemain] at h ⊢
    obtain ⟨n, hn, h⟩ := bind_eq_ok.1 h
    have hn' : s'.deref id = .ok n := by
      rw [deref] at hn
      cases hid : s.nodes.read id with
      | none => rw [hid] at hn; cases hn
      | some m =>
        rw [hid] at hn
        cases hn
        exact deref_eq (hread id _ hid)
    refine bind_eq_ok.2 ⟨n, hn', ?_⟩
    cases hst : n.eStatus with
    | UF_NONE => rw [hst] at h; exact h
    | UF_USE => rw [hst] at h; exact h
    | UF_ALLOC =>
      rw [hst] at h
      refine foldlM_imp h fun c c' e _ hstep => ?_
      obtain ⟨r, hr, hc⟩ := bind_eq_ok.1 hstep
      exact bind_eq_ok.2 ⟨r, ih hle' hr, hc⟩

theorem deref_keep (hread : ∀ x n, s.nodes.read x = some n → s'.nodes.read x = some n) (h : s.deref id = .ok n) :
    s'.deref id = .ok n := by
  rw [deref] at h
  cases hid : s.nodes.read id with
  | none => rw [hid] at h; cases h
  | some m =>
    rw [hid] at h
    cases h
    exact deref_eq (hread id _ hid)

/-- A type whose nodes are as they were. -/
theorem Class.keep (h : Class s t total remain) (hgrown : Grown s s') (hfind : s'.m_pools.find? t = s.m_pools.find? t) :
    Class s' t total remain where
  capacity := by
    rw [getCapacityByType, hfind]
    refine foldlM_imp h.capacity fun c c' x _ hstep => ?_
    obtain ⟨n, hn, hc⟩ := bind_eq_ok.1 hstep
    exact bind_eq_ok.2 ⟨n, deref_keep hgrown.read hn, hc⟩
  remain := by
    rw [getRemainByType, hfind]
    refine foldlM_imp h.remain fun c c' x _ hstep => ?_
    obtain ⟨r, hr, hc⟩ := bind_eq_ok.1 hstep
    exact bind_eq_ok.2 ⟨r, getRemain_keep hgrown.read (Nat.succ_le_succ hgrown.length) hr, hc⟩

theorem find?_pushBack_ne {m : StdMap Nat (List Nat)} {k k' v : Nat} (h : k' ≠ k) : (pushBack m k v).find? k' = m.find? k' := by
  rw [pushBack]
  cases m.find? k with
  | some l => exact StdMap.find?_set_ne h
  | none => exact StdMap.find?_insert_ne h

theorem getD_find?_pushBack (m : StdMap Nat (List Nat)) (k v : Nat) :
    ((pushBack m k v).find? k).getD [] = (m.find? k).getD [] ++ [v] := by
  rw [pushBack]
  cases hfind : m.find? k with
  | some l =>
    dsimp only
    rw [StdMap.find?_set_self hfind]
    rfl
  | none =>
    dsimp only
    rw [StdMap.find?_insert_new hfind]
    rfl

/-- A free node is added to its type. -/
theorem Class.push (h : Class s n.nLen total remain) (hn : n.eStatus = .UF_NONE) :
    Class (pushNode s n) n.nLen (total + n.nLen) (remain + n.nLen) := by
  have hgrown := grown_pushNode s n
  have hread : (pushNode s n).nodes.read s.nodes.length = some n := (Heap.read_new _ _ _).trans (if_pos rfl)
  have hlist : ((pushNode s n).m_pools.find? n.nLen).getD [] = (s.m_pools.find? n.nLen).getD [] ++ [s.nodes.length] :=
    getD_find?_pushBack ..
  constructor
  case capacity =>
    rw [getCapacityByType, hlist]
    refine foldlM_append_ok.2 ⟨total, ?_, foldlM_cons_ok.2 ⟨total + n.nLen, bind_eq_ok.2 ⟨n, deref_eq hread, rfl⟩, rfl⟩⟩
    refine foldlM_imp h.capacity fun c c' x _ hstep => ?_
    obtain ⟨m, hm, hc⟩ := bind_eq_ok.1 hstep
    exact bind_eq_ok.2 ⟨m, deref_keep hgrown.read hm, hc⟩
  case remain =>
    rw [getRemainByType, hlist]
    have hnew : getRemain (pushNode s n) (pushNode s n).depth s.nodes.length = .ok n.nLen := by
      rw [depth, getRemain, deref_eq hread]
      simp only [bind, Except.bind, hn]
    refine foldlM_append_ok.2 ⟨remain, ?_, foldlM_cons_ok.2 ⟨remain + n.nLen, bind_eq_ok.2 ⟨n.nLen, hnew, rfl⟩, rfl⟩⟩
    refine foldlM_imp h.remain fun c c' x _ hstep => ?_
    obtain ⟨r, hr, hc⟩ := bind_eq_ok.1 hstep
    exact bind_eq_ok.2 ⟨r, getRemain_keep hgrown.read (Nat.succ_le_succ hgrown.length) hr, hc⟩

/-- The bytes of the nodes of a type. -/
def bytesOfType (t : Nat) (ns : List MemNode) : Nat := (ns.map fun n => if n.nLen = t then t else 0).sum

/-- Free nodes are added, each to its type. -/
theorem Class.push_all (ns : List MemNode) (h : Class s t total remain) (hns : ∀ n ∈ ns, n.eStatus = .UF_NONE) :
    Class (ns.foldl pushNode s) t (total + bytesOfType t ns) (remain + bytesOfType t ns) := by
  induction ns generalizing s total remain with
  | nil => exact h
  | cons n ns ih =>
    have hns' := fun m hm => hns m (List.mem_cons_of_mem _ hm)
    rw [List.foldl_cons, bytesOfType, List.map_cons, List.sum_cons, ← Nat.add_assoc, ← Nat.add_assoc]
    by_cases ht : n.nLen = t
    · subst ht
      rw [if_pos rfl]
      exact ih (h.push (hns n List.mem_cons_self)) hns'
    · rw [if_neg ht]
      exact ih (h.keep (grown_pushNode s n) (find?_pushBack_ne (Ne.symm ht))) hns'

/-- A unit is the bytes of its type. -/
theorem bytesOfType_typeNodes (hi : i < 4) (b : Int) (nOffset t : Nat) : bytesOfType t (typeNodes b nOffset i) =
    if t = blockType.getD i 0 then useSize i else 0 := by
  obtain ⟨k, -, hk, hsize⟩ := useSize_eq i hi
  rw [bytesOfType, typeNodes, List.map_map, Function.comp_def, hk]
  dsimp only
  by_cases ht : blockType.getD i 0 = t
  · subst ht
    simp only [if_true]
    rw [List.map_const', List.length_range, List.sum_replicate_nat, hsize]
  · simp only [if_neg ht, if_neg (Ne.symm ht)]
    rw [List.map_const', List.sum_replicate_nat, Nat.mul_zero]

/-! ## The passes -/

/-- What one type of a pass leaves: the type has enough, and the others have what they had. -/
structure Fills (p q : Pass) (i : Nat) : Prop where
  full : Full q.pool (blockType.getD i 0)
  offset : q.nOffset ≤ p.nOffset + useSize i
  count : q.nFull ≤ p.nFull + 1
  other : ∀ t c r, t ≠ blockType.getD i 0 → Class p.pool t c r → Class q.pool t c r

theorem Fills.keep {p q : Pass} (h : Fills p q i) (ht : t ≠ blockType.getD i 0) (hfull : Full p.pool t) : Full q.pool t := by
  obtain ⟨total, remain, hclass, hlt⟩ := hfull
  exact ⟨total, remain, h.other t total remain ht hclass, hlt⟩

theorem layType_fills (b : Int) (len : Nat) {p : Pass} (hi : i < 4) (hclass : Class p.pool (blockType.getD i 0) total remain)
    (hroom : (total + useSize i) / 10 * 3 < useSize i) (hoff : p.nOffset ≤ len) :
    ∃ q, layType b len false p i = .ok q ∧ Fills p q i := by
  have hrun : layType b len false p i = if total / 10 * 3 < remain then .ok { p with nFull := p.nFull + 1 } else
      .ok { p with
        pool := (typeNodes b p.nOffset i).foldl pushNode p.pool
        nOffset := (p.nOffset + useSize i) % 2 ^ 32 } := by
    rw [layType]
    simp only [hclass.capacity, hclass.remain, bind, Except.bind, true_and, if_pos hoff]
    rfl
  rw [hrun]
  by_cases hfull : total / 10 * 3 < remain
  · rw [if_pos hfull]
    exact ⟨_, rfl, ⟨total, remain, hclass, hfull⟩, Nat.le_add_right _ _, Nat.le_refl _, fun t c r _ h => h⟩
  · rw [if_neg hfull]
    have hpush : ∀ t c r, Class p.pool t c r → Class ((typeNodes b p.nOffset i).foldl pushNode p.pool) t
        (c + if t = blockType.getD i 0 then useSize i else 0) (r + if t = blockType.getD i 0 then useSize i else 0) := by
      intro t c r h
      rw [← bytesOfType_typeNodes hi b p.nOffset t]
      refine h.push_all _ fun n hn => ?_
      obtain ⟨j, -, rfl⟩ := List.mem_map.1 hn
      rfl
    have hself := hpush _ _ _ hclass
    rw [if_pos rfl] at hself
    refine ⟨_, rfl, ⟨_, _, hself, by omega⟩, Nat.mod_le _ _, Nat.le_succ _, fun t c r ht h => ?_⟩
    have hother := hpush t c r h
    rwa [if_neg ht] at hother

theorem layType_full {p : Pass} (h : Full p.pool (blockType.getD i 0)) :
    layType b len false p i = .ok { p with nFull := p.nFull + 1 } := by
  obtain ⟨total, remain, hclass, hfull⟩ := h
  rw [layType]
  simp only [hclass.capacity, hclass.remain, bind, Except.bind, true_and]
  exact if_pos hfull

/-- When every type has enough the passes go on for ever. -/
theorem layPasses_full (h : ∀ i < 4, Full s (blockType.getD i 0)) (hoff : nOffset ≤ len) (fuel : Nat) :
    layPasses b len fuel false s nOffset = .error .outOfFuel := by
  induction fuel with
  | zero => rfl
  | succ fuel ih =>
    have hpass : (List.range blockType.length).foldlM (layType b len false) ⟨s, 0, nOffset⟩ = .ok ⟨s, 4, nOffset⟩ := by
      have hrange : List.range blockType.length = [0, 1, 2, 3] := rfl
      have hstep : ∀ i < 4, ∀ k, layType b len false ⟨s, k, nOffset⟩ i = .ok ⟨s, k + 1, nOffset⟩ :=
        fun i hi k => layType_full (p := ⟨s, k, nOffset⟩) (h i hi)
      rw [hrange]
      refine foldlM_cons_ok.2 ⟨_, hstep 0 (by decide) 0, foldlM_cons_ok.2 ⟨_, hstep 1 (by decide) 1, ?_⟩⟩
      exact foldlM_cons_ok.2 ⟨_, hstep 2 (by decide) 2, foldlM_cons_ok.2 ⟨_, hstep 3 (by decide) 3, rfl⟩⟩
    rw [layPasses, hpass]
    refine (if_pos hoff).trans ?_
    exact ih

/-- The types of a pool that `Init` has filled. -/
structure Classes (s : MemPool) : Prop where
  four : ∃ r, Class s 4 64 r
  eight : ∃ r, Class s 8 32 r
  sixteen : ∃ r, Class s 16 64 r
  thirtyTwo : ∃ r, Class s 32 96 r

/-- The loop of `UpdatePools` does not end when `expand` calls it. -/
theorem layPasses_stuck (h : Classes s) (fuel : Nat) :
    layPasses b (DEFAULTBLOCK * DEFAULTCOUNT) fuel false s 0 = .error .outOfFuel := by
  cases fuel with
  | zero => rfl
  | succ fuel =>
    obtain ⟨⟨r₀, h₀⟩, ⟨r₁, h₁⟩, ⟨r₂, h₂⟩, ⟨r₃, h₃⟩⟩ := h
    have hlen : DEFAULTBLOCK * DEFAULTCOUNT = 192 := rfl
    rw [hlen]
    obtain ⟨p₀, hrun₀, hf₀⟩ := layType_fills b 192 (i := 0) (p := ⟨s, 0, 0⟩) (by decide) h₀ (by decide)
      (Nat.zero_le _)
    have ho₀ : p₀.nOffset ≤ 32 := hf₀.offset
    obtain ⟨p₁, hrun₁, hf₁⟩ := layType_fills b 192 (i := 1) (p := p₀) (by decide)
      (hf₀.other 8 _ _ (by decide) h₁) (by decide) (by omega)
    have ho₁ : p₁.nOffset ≤ p₀.nOffset + 32 := hf₁.offset
    obtain ⟨p₂, hrun₂, hf₂⟩ := layType_fills b 192 (i := 2) (p := p₁) (by decide)
      (hf₁.other 16 _ _ (by decide) (hf₀.other 16 _ _ (by decide) h₂)) (by decide) (by omega)
    have ho₂ : p₂.nOffset ≤ p₁.nOffset + 64 := hf₂.offset
    obtain ⟨p₃, hrun₃, hf₃⟩ := layType_fills b 192 (i := 3) (p := p₂) (by decide)
      (hf₂.other 32 _ _ (by decide) (hf₁.other 32 _ _ (by decide) (hf₀.other 32 _ _ (by decide) h₃))) (by decide) (by omega)
    have ho₃ : p₃.nOffset ≤ p₂.nOffset + 64 := hf₃.offset
    have hpass : (List.range blockType.length).foldlM (layType b 192 false) ⟨s, 0, 0⟩ = .ok p₃ :=
      foldlM_cons_ok.2 ⟨p₀, hrun₀, foldlM_cons_ok.2 ⟨p₁, hrun₁, foldlM_cons_ok.2 ⟨p₂, hrun₂, foldlM_cons_ok.2 ⟨p₃, hrun₃, rfl⟩⟩⟩⟩
    have hcount : (p₃.nFull == 8) = false := by
      have h₀ : p₀.nFull ≤ 0 + 1 := hf₀.count
      have h₁ := hf₁.count
      have h₂ := hf₂.count
      have h₃ := hf₃.count
      exact beq_false_of_ne (by omega)
    rw [layPasses, hpass]
    refine (if_pos (by omega : p₃.nOffset ≤ 192)).trans ?_
    rw [hcount]
    refine layPasses_full (fun i hi => ?_) (by omega) fuel
    obtain rfl | rfl | rfl | rfl : i = 0 ∨ i = 1 ∨ i = 2 ∨ i = 3 := by
      have : i < 4 := hi
      omega
    · exact hf₃.keep (by decide) (hf₂.keep (by decide) (hf₁.keep (by decide) hf₀.full))
    · exact hf₃.keep (by decide) (hf₂.keep (by decide) hf₁.full)
    · exact hf₃.keep (by decide) hf₂.full
    · exact hf₃.full

end MemPool
