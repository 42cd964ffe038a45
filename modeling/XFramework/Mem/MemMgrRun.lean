/-
`MemMgr` over whole runs (Mem/MemMgr.cpp).

The runs in use never overlap and lie in the cells of their page, the flags
say which cells are in use, `Free` finds the page of what it is given, and
`Alloc` answers `NULL` only when a page has too few cells or there is no page
to be had (`cells_run`).
-/
import XFramework.Mem.MemMgrFind
import XFramework.Mem.MemMgrPages

open Bytes Fallible

namespace MemMgr

/-- The node is as `Expend` left it, except for `nIndex`. -/
structure EleNode.Laid (u : Nat) (e : EleNode) : Prop where
  nCount : e.nCount = perPage u
  pStart : e.pStart = cellAt u e.page 0

/-- The nodes in `pNext` order are those of the pages. -/
structure Use.Kept (t : Use) : Prop where
  unit : 0 < t.mgr.nUnit
  laid : ∀ e ∈ t.mgr.pEleHead, e.Laid t.mgr.nUnit
  inv : Inv t.mgr.nUnit (t.mgr.pEleHead.map EleNode.page) t.mgr.mem t.live

variable {u i j k n : Nat} {m m' : Mem} {p a : Int} {e e' : EleNode} {t t' : Use} {page : Option Int} {act : Action}

theorem EleNode.pFlag_add (e : EleNode) (i : Nat) : e.pFlag + i = flagAt e.page i := by
  simp only [flagAt, EleNode.page]
  omega

theorem EleNode.Laid.cell (h : e.Laid u) (i : Nat) : e.pStart + (i * u : Nat) = cellAt u e.page i := by
  rw [h.pStart]
  simp only [cellAt]
  omega

/-! ## Finding a run -/

/-- The flags of a page are a string. -/
theorem Inv.terminated {pages : List Int} {live : List (Int × Nat)} (h : Inv u pages m live) (hp : p ∈ pages) :
    Terminated m (flagAt p 0) (flagAt p (perPage u)) ∧ flagAt p (perPage u) < flagAt p 0 + SYSMEMPAGE := by
  have hlen := flag_in_page (p := p) (Nat.le_refl (perPage u))
  refine ⟨⟨by simp only [flagAt]; omega, h.nul p hp, fun x h₁ h₂ => ?_⟩, ?_⟩
  · have hx : x = flagAt p (x - flagAt p 0).toNat := by
      simp only [flagAt] at h₁ ⊢
      omega
    rw [hx]
    have hi : (x - flagAt p 0).toNat < perPage u := by
      simp only [flagAt] at h₁ h₂ ⊢
      omega
    rcases h.flags p hp _ hi with hflag | hflag
    · rw [hflag.1]
      decide
    · rw [hflag.1]
      decide
  · simp only [flagAt, SYSMEMPAGE, sizeofEleNode] at *
    omega

/-- What `findNode` answers for some nodes with their places. -/
def FoundNode (u : Nat) (m : Mem) (n : Nat) (l : List (EleNode × Nat)) : Option (EleNode × Nat × Nat) → Prop
  | none => True
  | some (e, k, i) => (e, k) ∈ l ∧ Found m e.pFlag (flagAt e.page (perPage u)) n (some i)

theorem findNode_spec {l : List (EleNode × Nat)} (hn : 0 < n) (hl : ∀ x ∈ l, Terminated m x.1.pFlag (flagAt x.1.page (perPage u)) ∧
    flagAt x.1.page (perPage u) < x.1.pFlag + SYSMEMPAGE) : ∃ r, findNode m n l = .ok r ∧ FoundNode u m n l r := by
  induction l with
  | nil => exact ⟨none, rfl, trivial⟩
  | cons x l ih =>
    obtain ⟨e, k⟩ := x
    obtain ⟨hterm, hpage⟩ := hl (e, k) List.mem_cons_self
    obtain ⟨r, hr, hfound⟩ := findAvailable hterm hpage hn
    rw [findNode, hr]
    cases r with
    | some i => exact ⟨_, rfl, List.mem_cons_self, hfound⟩
    | none =>
      obtain ⟨r, hr, hfound⟩ := ih fun y hy => hl y (List.mem_cons_of_mem _ hy)
      refine ⟨r, hr, ?_⟩
      cases r with
      | none => trivial
      | some r => exact ⟨List.mem_cons_of_mem _ hfound.1, hfound.2⟩

/-- The run that was found, in terms of its flags. -/
theorem Found.run (h : Found m e.pFlag (flagAt e.page k) n (some i)) :
    i + n ≤ k ∧ ∀ j, i ≤ j → j < i + n → m (flagAt e.page j) = zero := by
  obtain ⟨⟨hin, hzero⟩, -⟩ := h
  refine ⟨?_, fun j h₁ h₂ => ?_⟩
  · rw [e.pFlag_add] at hin
    simp only [flagAt] at hin
    omega
  · rw [← e.pFlag_add]
    exact hzero _ (by omega) (by omega)

/-! ## `Alloc` -/

theorem setFlags_mem : ∀ (n i : Nat) (m : Mem) (e : EleNode) (a : Int), (setFlags k i n m e).1 a =
    if e.pFlag + (k + i : Nat) ≤ a ∧ a < e.pFlag + (k + i : Nat) + n then one else m a
  | 0, i, m, e, a => by
    rw [setFlags, if_neg (by omega)]
  | n + 1, i, m, e, a => by
    have hsame : (if k + n < e.nIndex then { e with nIndex := k + n } else e).pFlag = e.pFlag := by split_ifs <;> rfl
    rw [setFlags, setFlags_mem n, hsame, write_one]
    split_ifs <;> first | rfl | omega

theorem setFlags_node : ∀ (n i : Nat) (m : Mem) (e : EleNode), (setFlags k i n m e).2.pFlag = e.pFlag ∧
    (setFlags k i n m e).2.nCount = e.nCount ∧ (setFlags k i n m e).2.pStart = e.pStart
  | 0, _, _, _ => ⟨rfl, rfl, rfl⟩
  | n + 1, i, m, e => by
    rw [setFlags]
    split_ifs
    · exact setFlags_node n (i + 1) _ _
    · exact setFlags_node n (i + 1) _ _

/-- A node is changed in its `nIndex` only. -/
theorem map_page_set {l : List EleNode} (hk : l[k]? = some e) (hpage : e'.page = e.page) :
    (l.set k e').map EleNode.page = l.map EleNode.page := by
  obtain ⟨hlt, hget⟩ := List.getElem?_eq_some_iff.1 hk
  have hlt' : k < (l.map EleNode.page).length := by rwa [List.length_map]
  have hat : (l.map EleNode.page)[k] = e'.page := by rw [List.getElem_map, hget, hpage]
  rw [List.map_set, ← hat, List.set_getElem_self]

theorem Use.Kept.take (h : t.Kept) (hk : t.mgr.pEleHead[k]? = some e) (hn : 0 < n) (hin : i + n ≤ perPage t.mgr.nUnit)
    (hfree : ∀ j, i ≤ j → j < i + n → t.mgr.mem (flagAt e.page j) = zero) :
    ∃ p, (t.mgr.take e k i n).2 = some p ∧ Use.Kept ⟨(t.mgr.take e k i n).1, (p, n) :: t.live⟩ := by
  have hmem := List.mem_of_getElem? hk
  obtain ⟨hflag, hcount, hstart⟩ := setFlags_node (k := i) n 0 t.mgr.mem e
  have hpage : (setFlags i 0 n t.mgr.mem e).2.page = e.page := by rw [EleNode.page, hflag, EleNode.page]
  have hcell : (setFlags i 0 n t.mgr.mem e).2.pStart + (i * t.mgr.nUnit : Nat) = cellAt t.mgr.nUnit e.page i := by
    rw [hstart]
    exact (h.laid e hmem).cell i
  refine ⟨_, rfl, h.unit, fun e' he' => ?_, ?_⟩
  · rcases List.mem_or_eq_of_mem_set he' with he' | rfl
    · exact h.laid e' he'
    · exact ⟨hcount.trans (h.laid e hmem).nCount, by rw [hpage, hstart]; exact (h.laid e hmem).pStart⟩
  · change Inv _ ((t.mgr.pEleHead.set k _).map EleNode.page) (setFlags i 0 n t.mgr.mem e).1 ((_, n) :: t.live)
    rw [map_page_set hk hpage, hcell]
    refine h.inv.take h.unit (List.mem_map_of_mem hmem) hn hin hfree fun a => ?_
    rw [setFlags_mem, Nat.add_zero, e.pFlag_add]

theorem eleNode_page : (eleNode u p SYSMEMPAGE).page = p := by
  simp only [eleNode, EleNode.page]
  omega

theorem eleNode_laid : (eleNode u p SYSMEMPAGE).Laid u := by
  refine ⟨rfl, ?_⟩
  rw [eleNode_page]
  simp only [eleNode, cellAt, perPage]
  omega

theorem expend_mem : (t.mgr.Expend p SYSMEMPAGE).mem a =
    if flagAt p 0 ≤ a ∧ a < flagAt p (perPage t.mgr.nUnit) then zero
    else if p ≤ a ∧ a < p + SYSMEMPAGE then 0 else t.mgr.mem a := by
  have hflag : (eleNode t.mgr.nUnit p SYSMEMPAGE).pFlag = flagAt p 0 := by
    simp only [eleNode, flagAt]
    omega
  change memset (memset t.mgr.mem p 0 SYSMEMPAGE) (eleNode t.mgr.nUnit p SYSMEMPAGE).pFlag zero _ a = _
  rw [memset_apply, memset_apply, hflag]
  refine if_congr (and_congr_right fun _ => ?_) rfl rfl
  simp only [eleNode, flagAt, perPage]
  omega

theorem Use.Kept.expend (h : t.Kept) (hfresh : t.mgr.Fresh (some p)) : Use.Kept ⟨t.mgr.Expend p SYSMEMPAGE, t.live⟩ := by
  refine ⟨h.unit, fun e he => ?_, ?_⟩
  · rcases List.mem_append.1 he with he | he
    · exact h.laid e he
    · rw [List.mem_singleton.1 he]
      exact eleNode_laid
  · change Inv _ ((t.mgr.pEleHead ++ [eleNode t.mgr.nUnit p SYSMEMPAGE]).map EleNode.page) _ t.live
    rw [List.map_append, List.map_singleton, eleNode_page]
    refine h.inv.page h.unit (fun q hq => ?_) fun a => expend_mem
    obtain ⟨e, he, rfl⟩ := List.mem_map.1 hq
    exact hfresh p rfl e he

/-- A new page has every run that fits. -/
theorem found_expend (h : Use.Kept ⟨t.mgr.Expend p SYSMEMPAGE, t.live⟩) (hn : 0 < n) : ∃ r,
    FindAvailable (t.mgr.Expend p SYSMEMPAGE).mem (eleNode t.mgr.nUnit p SYSMEMPAGE).pFlag n = .ok r ∧
      Found (t.mgr.Expend p SYSMEMPAGE).mem (eleNode t.mgr.nUnit p SYSMEMPAGE).pFlag
        (flagAt p (perPage t.mgr.nUnit)) n r ∧ (r = none → perPage t.mgr.nUnit < n) := by
  have hmem : eleNode t.mgr.nUnit p SYSMEMPAGE ∈ t.mgr.pEleHead ++ [eleNode t.mgr.nUnit p SYSMEMPAGE] :=
    List.mem_append_right _ List.mem_cons_self
  have hterm := h.inv.terminated (List.mem_map_of_mem hmem)
  have hflag := (eleNode t.mgr.nUnit p SYSMEMPAGE).pFlag_add 0
  rw [eleNode_page] at hterm hflag
  rw [Nat.cast_zero, add_zero] at hflag
  rw [hflag]
  obtain ⟨r, hr, hfound⟩ := findAvailable hterm.1 hterm.2 hn
  refine ⟨r, hr, hfound, fun hnone => ?_⟩
  rw [hnone] at hfound
  -- all its flags are free
  by_contra hfits
  have hend : flagAt p 0 + n ≤ flagAt p (perPage t.mgr.nUnit) := by
    simp only [flagAt]
    omega
  obtain ⟨x, h₁, h₂, hx⟩ := hfound (flagAt p 0) (Int.le_refl _) hend
  rw [expend_mem, if_pos (by omega)] at hx
  exact hx rfl

theorem Use.Kept.alloc (h : t.Kept) (hn : 0 < n) (hfresh : t.mgr.Fresh page) :
    ∃ mgr r, t.mgr.Alloc n page = .ok (mgr, r) ∧ (r = none → perPage t.mgr.nUnit < n ∨ page = none) ∧
      Use.Kept ⟨mgr, (r.map (·, n)).toList ++ t.live⟩ ∧ mgr.nUnit = t.mgr.nUnit := by
  have hnodes : ∀ x ∈ t.mgr.pEleHead.zipIdx, Terminated t.mgr.mem x.1.pFlag (flagAt x.1.page (perPage t.mgr.nUnit)) ∧
      flagAt x.1.page (perPage t.mgr.nUnit) < x.1.pFlag + SYSMEMPAGE := by
    intro x hx
    have hterm := h.inv.terminated (List.mem_map_of_mem (List.fst_mem_of_mem_zipIdx hx))
    rwa [← x.1.pFlag_add, Nat.cast_zero, add_zero] at hterm
  obtain ⟨r, hr, hfound⟩ := findNode_spec hn hnodes
  simp only [Alloc, hr]
  cases r with
  | some r =>
    obtain ⟨e, k, i⟩ := r
    obtain ⟨hin, hfree⟩ := hfound.2.run
    obtain ⟨p, hp, hkept⟩ := h.take (List.mem_zipIdx_iff_getElem?.1 hfound.1) hn hin hfree
    exact ⟨_, some p, congrArg Except.ok (Prod.ext rfl hp), nofun, hkept, rfl⟩
  | none =>
    cases page with
    | none => exact ⟨t.mgr, none, rfl, fun _ => .inr rfl, h, rfl⟩
    | some pNew =>
      have hexpend := h.expend hfresh
      obtain ⟨r, hr, hfound, hfew⟩ := found_expend hexpend hn
      simp only [bind, Except.bind]
      rw [hr]
      cases r with
      | none => exact ⟨_, none, rfl, fun _ => .inl (hfew rfl), hexpend, rfl⟩
      | some i =>
        obtain ⟨hin, hfree⟩ := Found.run (by rwa [eleNode_page])
        obtain ⟨p, hp, hkept⟩ := hexpend.take (k := t.mgr.pEleHead.length) (e := eleNode t.mgr.nUnit pNew SYSMEMPAGE)
          List.getElem?_concat_length hn hin hfree
        exact ⟨_, some p, congrArg Except.ok (Prod.ext rfl hp), nofun, hkept, rfl⟩

/-! ## `Free` -/

theorem clear_mem : ∀ (n i : Nat) (m : Mem) (a : Int), e.pFlag + (k + i + n : Nat) ≤ e.pStart → clear u e k i n m a =
    if e.pFlag + (k + i : Nat) ≤ a ∧ a < e.pFlag + (k + i : Nat) + n then zero
    else if e.pStart + ((k + i) * u : Nat) ≤ a ∧ a < e.pStart + ((k + i) * u : Nat) + (n * u : Nat) then 0 else m a
  | 0, i, m, a, _ => by
    rw [clear, if_neg (by omega), if_neg (by omega)]
  | n + 1, i, m, a, hle => by
    rw [clear, clear_mem n (i + 1) _ a (by omega), memset_apply, write_one]
    have hcell : (k + (i + 1)) * u = (k + i) * u + u := by rw [← Nat.add_assoc, Nat.succ_mul]
    have hcells : (n + 1) * u = n * u + u := Nat.succ_mul n u
    rw [hcell, hcells]
    split_ifs <;> first | rfl | omega

/-- The node that `Free` finds is the one of the run. -/
theorem Use.Kept.find (h : t.Kept) (hin : i + n ≤ perPage t.mgr.nUnit) (hn : 0 < n) {q : Int}
    (hq : q ∈ t.mgr.pEleHead.map EleNode.page) : ∃ e k, t.mgr.pEleHead[k]? = some e ∧ e.page = q ∧
      (t.mgr.pEleHead.zipIdx.find? fun (e, _) => e.pStart ≤ cellAt t.mgr.nUnit q i ∧
        cellAt t.mgr.nUnit q i ≤ e.pStart + (e.nCount * t.mgr.nUnit : Nat)) = some (e, k) := by
  have hrun := run_in_page (p := q) hin
  have hpos : 0 < n * t.mgr.nUnit := Nat.mul_pos hn h.unit
  have hto : ∀ e ∈ t.mgr.pEleHead, e.pStart = cellAt t.mgr.nUnit e.page 0 ∧
      e.pStart + (e.nCount * t.mgr.nUnit : Nat) = e.page + SYSMEMPAGE := by
    intro e he
    have hlayout := layout (u := t.mgr.nUnit)
    refine ⟨(h.laid e he).pStart, ?_⟩
    rw [(h.laid e he).cell, (h.laid e he).nCount]
    simp only [cellAt, SYSMEMPAGE] at hlayout ⊢
    omega
  cases hfind : t.mgr.pEleHead.zipIdx.find? fun (e, _) => e.pStart ≤ cellAt t.mgr.nUnit q i ∧
      cellAt t.mgr.nUnit q i ≤ e.pStart + (e.nCount * t.mgr.nUnit : Nat) with
  | none =>
    obtain ⟨e, he, rfl⟩ := List.mem_map.1 hq
    obtain ⟨k, hk⟩ := List.getElem?_of_mem he
    have hnot := List.find?_eq_none.1 hfind (e, k) (List.mem_zipIdx_iff_getElem?.2 hk)
    obtain ⟨hstart, hend⟩ := hto e he
    refine absurd ?_ hnot
    rw [decide_eq_true_iff, hend, hstart]
    simp only [cellAt] at hrun ⊢
    omega
  | some x =>
    obtain ⟨e, k⟩ := x
    have hk : t.mgr.pEleHead[k]? = some e := List.mem_zipIdx_iff_getElem?.1 (List.mem_of_find?_eq_some hfind)
    have he := List.mem_of_getElem? hk
    have hrange := List.find?_some hfind
    rw [decide_eq_true_iff] at hrange
    obtain ⟨hstart, hend⟩ := hto e he
    refine ⟨e, k, hk, ?_, rfl⟩
    -- the cells of another page end before the run, or begin behind its page
    by_contra hne
    have hapart := h.inv.pages_apart hq (List.mem_map_of_mem he) hne
    have hflag := flag_in_page (p := q) (Nat.le_refl (perPage t.mgr.nUnit))
    rw [hend, hstart] at hrange
    have hpage : e.page ≤ cellAt t.mgr.nUnit e.page 0 := by
      simp only [cellAt]
      omega
    simp only [sizeofEleNode] at hflag
    omega

theorem Use.Kept.free (h : t.Kept) (hr : (p, n) ∈ t.live) :
    ∃ mgr, t.mgr.Free p n = .ok mgr ∧ Use.Kept ⟨mgr, t.live.erase (p, n)⟩ ∧ mgr.nUnit = t.mgr.nUnit := by
  obtain ⟨hn, q, hq, i, hin, rfl⟩ := h.inv.placed _ hr
  change 0 < n at hn
  change i + n ≤ perPage t.mgr.nUnit at hin
  obtain ⟨e, k, hk, hpage, hfind⟩ := h.find hin hn hq
  have he := List.mem_of_getElem? hk
  have hlaid := h.laid e he
  have hindex : ((cellAt t.mgr.nUnit q i - e.pStart) / t.mgr.nUnit).toNat = i := by
    have hdiff : cellAt t.mgr.nUnit q i - e.pStart = i * t.mgr.nUnit := by
      rw [← hpage, ← hlaid.cell i, Nat.cast_mul]
      omega
    rw [hdiff, Int.mul_ediv_cancel _ (by have := h.unit; omega), Int.toNat_natCast]
  have hfree : t.mgr.Free (cellAt t.mgr.nUnit q i) n = .ok { t.mgr with
      mem := clear t.mgr.nUnit e i 0 n t.mgr.mem
      pEleHead := t.mgr.pEleHead.set k (if i < e.nIndex then { e with nIndex := i } else e) } := by
    rw [Free, hfind]
    dsimp only
    rw [hindex]
  refine ⟨_, hfree, ⟨h.unit, fun e' he' => ?_, ?_⟩, rfl⟩
  · rcases List.mem_or_eq_of_mem_set he' with he' | rfl
    · exact h.laid e' he'
    · split_ifs
      · exact ⟨hlaid.nCount, hlaid.pStart⟩
      · exact hlaid
  · change Inv _ ((t.mgr.pEleHead.set k _).map EleNode.page) (clear t.mgr.nUnit e i 0 n t.mgr.mem) _
    rw [map_page_set hk (by split_ifs <;> rfl)]
    have hcleared : Inv t.mgr.nUnit (t.mgr.pEleHead.map EleNode.page)
        (fun a => if (span t.mgr.nUnit (cellAt t.mgr.nUnit q i, n)).Has a then 0 else t.mgr.mem a) t.live :=
      h.inv.keep fun q' hq' a h₁ h₂ => if_neg (h.inv.not_has hq hq' hin h₁ h₂)
    refine hcleared.release h.unit hq hin hr fun a => ?_
    have hbehind : e.pFlag + (i + 0 + n : Nat) ≤ e.pStart := by
      have hrun := run_in_page (u := t.mgr.nUnit) (p := e.page) (i := 0) (n := 0) (Nat.zero_le _)
      rw [e.pFlag_add, hlaid.pStart]
      simp only [flagAt] at hrun ⊢
      omega
    rw [clear_mem n 0 _ a hbehind, Nat.add_zero, e.pFlag_add, hlaid.cell, hpage]
    rfl

/-! ## Runs -/

theorem Use.Kept.step (h : t.Kept) (hstep : step t act = .ok t') : t'.Kept ∧ t'.mgr.nUnit = t.mgr.nUnit := by
  cases act with
  | alloc n page =>
    rw [MemMgr.step] at hstep
    split_ifs at hstep with hok
    obtain ⟨mgr, r, halloc, -, hkept, hunit⟩ := h.alloc hok.1 hok.2
    rw [halloc] at hstep
    cases hstep
    exact ⟨hkept, hunit⟩
  | free p n =>
    rw [MemMgr.step] at hstep
    split_ifs at hstep with hlive
    obtain ⟨mgr, hfree, hkept, hunit⟩ := h.free hlive
    rw [hfree] at hstep
    cases hstep
    exact ⟨hkept, hunit⟩
  | write a b =>
    rw [MemMgr.step] at hstep
    split_ifs at hstep with hlive
    cases hstep
    exact ⟨⟨h.unit, h.laid, h.inv.write hlive b⟩, rfl⟩

/-- What the runs in use and the flags are like, and how the next call ends. -/
structure Sound (nUnit : Nat) (t : Use) : Prop where
  disjoint : t.live.Pairwise fun r s => Span.Apart (span nUnit r) (span nUnit s)
  /-- A run is at one of the cells of a page, behind the NUL of the flags and before the end of the page. -/
  placed : ∀ r ∈ t.live, ∃ e ∈ t.mgr.pEleHead, (∃ i : Nat, r.1 = e.pStart + (i * nUnit : Nat)) ∧
    t.mgr.mem (e.pFlag + e.nCount) = 0 ∧ e.pFlag + e.nCount < r.1 ∧ r.1 + (r.2 * nUnit : Nat) ≤ e.page + SYSMEMPAGE
  flags : ∀ e ∈ t.mgr.pEleHead, ∀ i < e.nCount, t.mgr.mem (e.pFlag + i) = one ↔
    ∃ r ∈ t.live, r.1 ≤ e.pStart + (i * nUnit : Nat) ∧ e.pStart + ((i + 1) * nUnit : Nat) ≤ r.1 + (r.2 * nUnit : Nat)
  alloc : ∀ n page, 0 < n → t.mgr.Fresh page → ∃ mgr r, t.mgr.Alloc n page = .ok (mgr, r) ∧
    (r = none → cells nUnit SYSMEMPAGE < n ∨ page = none)
  free : ∀ r ∈ t.live, ∃ mgr, t.mgr.Free r.1 r.2 = .ok mgr

theorem Use.Kept.sound (h : t.Kept) : Sound t.mgr.nUnit t := by
  constructor
  case disjoint => exact h.inv.disjoint
  case placed =>
    intro r hr
    obtain ⟨-, q, hq, i, hin, hat⟩ := h.inv.placed r hr
    obtain ⟨e, he, rfl⟩ := List.mem_map.1 hq
    have hrun := run_in_page (p := e.page) hin
    refine ⟨e, he, ⟨i, hat.trans ((h.laid e he).cell i).symm⟩, ?_⟩
    rw [e.pFlag_add, (h.laid e he).nCount, hat]
    exact ⟨h.inv.nul _ hq, hrun⟩
  case flags =>
    intro e he i hi
    have hpage := List.mem_map_of_mem (f := EleNode.page) he
    rw [(h.laid e he).nCount] at hi
    rw [e.pFlag_add, (h.laid e he).cell, (h.laid e he).cell]
    have hflags := h.inv.flags _ hpage i hi
    refine ⟨?_, ?_⟩
    · intro hone
      obtain ⟨⟨b, n⟩, hr, hhas⟩ := (hflags.resolve_right fun hzero => by
        rw [hzero.1] at hone
        exact absurd hone (by decide)).2
      obtain ⟨-, q, hq, j, hin, rfl⟩ := h.inv.placed _ hr
      obtain ⟨hsame, hji, hij⟩ := (h.inv.has_cell h.unit hq hpage hin hi).1 hhas
      refine ⟨_, hr, hhas.1, ?_⟩
      have hmul := Nat.mul_le_mul_right t.mgr.nUnit (show i + 1 ≤ j + n by omega)
      rw [Nat.add_mul j] at hmul
      rw [hsame]
      simp only [cellAt]
      omega
    · rintro ⟨r, hr, h₁, h₂⟩
      refine (hflags.resolve_right fun hzero => hzero.2 ⟨r, hr, h₁, ?_⟩).1
      have hunit := h.unit
      have hmul : (i + 1) * t.mgr.nUnit = i * t.mgr.nUnit + t.mgr.nUnit := Nat.succ_mul ..
      simp only [cellAt, span] at h₂ ⊢
      omega
  case alloc =>
    intro n page hn hfresh
    obtain ⟨mgr, r, halloc, hnone, -⟩ := h.alloc hn hfresh
    exact ⟨mgr, r, halloc, hnone⟩
  case free =>
    intro r hr
    obtain ⟨mgr, hfree, -⟩ := h.free hr
    exact ⟨mgr, hfree⟩

/-- In every run behind an `Init` that had its page. -/
theorem cells_run {mem : Mem} {nUnit : Nat} {mgr : MemMgr} {acts : List Action} (hunit : 0 < nUnit)
    (hinit : Init mem nUnit page = .ok mgr) (hrun : acts.foldlM step ⟨mgr, []⟩ = .ok t) : Sound nUnit t := by
  cases page with
  | none => cases hinit
  | some p =>
    cases hinit
    have hempty : Use.Kept ⟨⟨nUnit, [], mem⟩, []⟩ := by
      refine ⟨hunit, nofun, ?_⟩
      constructor <;> simp
    have hends := foldlM_run (fun t => t.Kept ∧ t.mgr.nUnit = nUnit) hrun ⟨hempty.expend nofun, rfl⟩
      fun s t' act _ hs hstep => ⟨(hs.1.step hstep).1, (hs.1.step hstep).2.trans hs.2⟩
    rw [← hends.2]
    exact hends.1.sound

/-- Cells of 1000 bytes, four to a page: the second run needs another page, and six cells are too many. -/
def pageActions : List Action :=
  [.alloc 3 none, .alloc 2 (some 20480), .write 8292 49, .free 8288 3, .alloc 1 none, .alloc 6 none]

theorem cells_run_pages : ∃ mgr t, Init (fun _ => 7) 1000 (some 8192) = .ok mgr ∧
    pageActions.foldlM step ⟨mgr, []⟩ = .ok t ∧ t.live = [(8288, 1), (20576, 2)] ∧ Sound 1000 t := by
  have hended : ∃ mgr, Init (fun _ => 7) 1000 (some 8192) = .ok mgr ∧
      ∃ t, pageActions.foldlM step ⟨mgr, []⟩ = .ok t ∧ t.live = [(8288, 1), (20576, 2)] := by decide +kernel
  obtain ⟨mgr, hinit, t, ht, hlive⟩ := hended
  exact ⟨mgr, t, hinit, ht, hlive, cells_run (by decide) hinit ht⟩

end MemMgr
