/-
What `Realloc` does to the bytes (Mem/MemPool.cpp).

It copies all bytes of the node of the old block, however few were asked for.
So a block that is made shorter is written past its end, and a block is moved
as it should be just when its node is no longer than the new length; a new
buffer, which is cleared, must be all of the new block (`Fits`).
-/
import XFramework.Mem.MemPoolRun

open Fallible Bytes

namespace MemPool

variable {s s' : MemPool} {L : Blocks} {n c : MemNode} {x y m newLen theLen : Nat} {sys p q a b : Int} {mem : Mem}

/-! ## The node of the new block -/

theorem Hands.node (hm : Hands s s' x n theLen) : s.nodes.read x = some n := by
  cases hm with
  | whole hm hlen => exact hm.read
  | front n' hm => exact hm.read

/-- A used node stays as it is. -/
theorem Hands.used (hm : Hands s s' x n theLen) (hy : s.nodes.read y = some c) (hc : c.eStatus = .UF_USE) :
    s'.nodes.read y = some c := by
  cases hm with
  | whole hm hlen => exact (hm.other (ne_of_status hy hm.read (by rw [hc, hm.free]; simp))).trans hy
  | front n' hm => exact hm.other (ne_of_status hy hm.read (by rw [hc, hm.free]; simp)) hy

theorem Lengthened.keep (hm : Lengthened s s' theLen sys) (hy : s.nodes.read y = some c) : s'.nodes.read y = some c := by
  cases hm with
  | inl hm => exact hm ▸ hy
  | inr hm => exact hm.2.addAt.keep hy

theorem Took.used (hm : Took s s' x n theLen sys) (hy : s.nodes.read y = some c) (hc : c.eStatus = .UF_USE) :
    s'.nodes.read y = some c := by
  cases hm with
  | after t hand long => exact long.keep (hand.used hy hc)
  | before t long hand => exact hand.used (long.keep hy) hc

theorem Took.node (hm : Took s s' x n theLen sys) (hx : s.nodes.read x = some c) : n = c := by
  cases hm with
  | after t hand long => exact Option.some.inj (hand.node.symm.trans hx)
  | before t long hand => exact Option.some.inj (hand.node.symm.trans (long.keep hx))

/-- The node of a new buffer lies where `malloc` has put it. -/
theorem Took.own (hm : Took s s' s.nodes.length n theLen sys) : n.pStart = sys := by
  have hnone : s.nodes.read s.nodes.length = none := not_read_length s 0
  cases hm with
  | after t hand long => cases hnone.symm.trans hand.node
  | before t long hand =>
    cases long with
    | inl he => cases hnone.symm.trans (he ▸ hand.node)
    | inr hm =>
      have hread := hand.node
      rw [hm.2.nodes, Heap.read_new, if_pos rfl] at hread
      cases hread
      rfl

/-! ## The bytes -/

theorem memAfter_other (h : Clears s theLen → a < sys ∨ sys + theLen ≤ a) : memAfter s theLen sys a = s.mem a := by
  rw [memAfter]
  split_ifs with hc
  · exact write_other (by simpa using h hc)
  · rfl

theorem memAfter_cleared (h : Clears s theLen) (ha : sys ≤ a) (ha' : a < sys + theLen) : memAfter s theLen sys a = 0 := by
  obtain ⟨i, rfl⟩ := Int.le.dest ha
  have hi : i < (List.replicate theLen (0 : UInt8)).length := by
    rw [List.length_replicate]
    omega
  rw [memAfter, if_pos h, addBuffer]
  exact (write_at hi).trans (List.getElem_replicate _)

/-- The block at `p`, whose node is `n`, is at `q` now. -/
structure Moved (s s' : MemPool) (L : Blocks) (p q : Int) (n : MemNode) (newLen theLen : Nat) (sys : Int) : Prop where
  mem : s'.mem = write (memAfter s theLen sys) q (read (memAfter s theLen sys) p n.nLen)
  record : s'.m_record.find? p = none
  ne : q ≠ p
  apart : p + n.nLen ≤ q ∨ q + newLen ≤ p
  others : ∀ e ∈ L, e.1 + (e.2 : Int) ≤ q ∨ q + newLen ≤ e.1
  node : p + n.nLen ≤ sys ∨ sys + theLen ≤ p
  blocks : ∀ e ∈ L, e.1 + (e.2 : Int) ≤ sys ∨ sys + theLen ≤ e.1
  own : Clears s theLen → firstFree s theLen (listedFrom s theLen) = none → q = sys
  old : Clears s theLen → firstFree s theLen (listedFrom s theLen) ≠ none → q + theLen ≤ sys ∨ sys + theLen ≤ q

/-- All bytes of the node are copied. -/
theorem Moved.copied (hm : Moved s s' L p q n newLen theLen sys) {i : Nat} (hi : i < n.nLen) :
    s'.mem (q + i) = s.mem (p + i) := by
  have hlen : i < (read (memAfter s theLen sys) p n.nLen).length := by rwa [length_read]
  have hnode := hm.node
  rw [hm.mem, write_at hlen, getElem_read, memAfter_other fun _ => by omega]

/-- Nothing else is written by the copy. -/
theorem Moved.other (hm : Moved s s' L p q n newLen theLen sys) (ha : a < q ∨ q + n.nLen ≤ a) :
    s'.mem a = memAfter s theLen sys a := by
  rw [hm.mem]
  exact write_other (by rwa [length_read])

theorem give_mem (h : give s p = .ok s') : s'.mem = s.mem := by
  rw [give] at h
  cases hfind : s.m_record.find? p with
  | none =>
    rw [hfind] at h
    cases h
  | some id =>
    rw [hfind] at h
    obtain ⟨n, -, h⟩ := bind_eq_ok.1 h
    cases h
    rfl

theorem give_record (h : give s p = .ok s') : s'.m_record.find? p = none := by
  rw [give] at h
  cases hfind : s.m_record.find? p with
  | none =>
    rw [hfind] at h
    cases h
  | some id =>
    rw [hfind] at h
    obtain ⟨n, -, h⟩ := bind_eq_ok.1 h
    cases h
    exact StdMap.find?_erase_self

/-- A node in a buffer, and the new buffer. -/
theorem Within.fresh {o : OriginalNode} (hw : Within n o) (ho : o ∈ s.m_OriginalBuffer) (hfresh : Fresh s theLen sys) :
    n.pStart + n.nLen ≤ sys ∨ sys + theLen ≤ n.pStart := by
  obtain ⟨h₁, h₂⟩ := hw
  have := hfresh o ho
  omega

/-- The node that is found where a new buffer is cleared. -/
theorem found_clears (hc : Clears s theLen) : found s theLen =
    (firstFree s theLen (listedFrom s theLen)).or (some s.nodes.length) := by
  rw [found, hc.1]
  dsimp only
  rw [if_pos hc.2]

/-- A `Realloc` that does not find the length there already moves the block. -/
theorem realloc_moved (h : Inv s L) (hl : s.m_lock = false) (hpm : (p, m) ∈ L) (hr : (p, x) ∈ s.m_record)
    (hx : s.nodes.read x = some n) (hne : n.nLen ≠ newLen) (hlen : 0 < newLen) (hok : AllocOk s newLen)
    (hfresh : Fresh s (getCorrectLessChipLen newLen) sys) :
    ∃ s' q, realloc s p newLen sys = .ok (s', some q) ∧ Moved s s' L p q n newLen (getCorrectLessChipLen newLen) sys := by
  obtain ⟨s₁, q, s₂, htake, hhand, hqp, hgive, hrun⟩ := realloc_moves h hl hpm hr hx hne hlen hok hfresh
  have h₀ : Inv { s with m_lock := true } L := h.congr rfl rfl rfl rfl rfl
  obtain ⟨z, hz, hhalf, hsp⟩ := hok.lock.found h₀ (Nat.lt_of_lt_of_le hlen (le_getCorrectLessChipLen newLen))
  obtain ⟨s₁', nz, htake', htook, hmem⟩ := take_took h₀.shape sys hok.small hz fun _ => hhalf
  cases htake.symm.trans htake'
  rw [found_lock] at hz
  obtain ⟨n', hx', hst, hp⟩ := h.recorded p x hr
  cases hx.symm.trans hx'
  refine ⟨s₂.unlock, nz.pStart, hrun, ?mem, (give_record hgive : s₂.m_record.find? p = none), hqp, ?apart, ?others, ?node, ?blocks, ?own, ?old⟩
  case mem =>
    have hcopy := give_mem hgive
    simp only [hmem] at hcopy
    exact hcopy
  case apart =>
    obtain ⟨y, ny, hry, hy, hle⟩ := hhand.inv.live nz.pStart newLen List.mem_cons_self
    obtain ⟨ny', hy', hsty, hpy⟩ := hhand.inv.recorded nz.pStart y hry
    cases hy.symm.trans hy'
    have hx₁ := htook.used hx hst
    have hxy : x ≠ y := by
      intro he
      rw [he, hy] at hx₁
      cases hx₁
      exact hqp (hpy.symm.trans hp)
    have := hhand.inv.trees.apart x y n ny hx₁ hy (by rw [hst]; simp) (by rw [hsty]; simp)
      (hhand.inv.not_spare hx₁ (by rw [hst]; simp)) (hhand.inv.not_spare hy (by rw [hsty]; simp)) hxy
    rw [Apart] at this
    omega
  case others =>
    intro e he
    exact ((List.pairwise_cons.1 hhand.inv.sound.disjoint).1 e he).symm
  case node =>
    obtain ⟨o, ho, hw⟩ := h.trees.within x n hx (h.not_spare hx (by rw [hst]; simp))
    have := hw.fresh ho hfresh
    rwa [hp] at this
  case blocks =>
    intro e he
    obtain ⟨o, ho, h₁, h₂⟩ := h.sound.inside e he
    have := hfresh o ho
    omega
  case own =>
    intro hc hnone
    rw [found_clears hc, hnone, Option.none_or] at hz
    cases hz
    exact htook.own
  case old =>
    intro hc hsome
    obtain ⟨y, hy⟩ := Option.ne_none_iff_exists'.1 hsome
    rw [found_clears hc, hy] at hz
    cases hz
    obtain ⟨c, hread, -, hle⟩ := firstFree_spec hy
    cases htook.node hread
    obtain ⟨o, ho, hw⟩ := h.trees.within _ nz hread hsp
    have := hw.fresh ho hfresh
    omega

/-! ## What Realloc should do -/

/-- The block of `m` bytes at `p` is at `q` now, with `newLen` bytes. `memcpy` copies between bytes that do not overlap. -/
structure Moves (s s' : MemPool) (L : Blocks) (p : Int) (m : Nat) (q : Int) (newLen : Nat) : Prop where
  defined : ∀ x ∈ s.m_record.find? p, ∀ n ∈ s.nodes.read x, p + n.nLen ≤ q ∨ q + n.nLen ≤ p
  copied : ∀ i : Nat, i < min m newLen → s'.mem (q + i) = s.mem (p + i)
  outside : ∀ a, ¬(q ≤ a ∧ a < q + newLen) → ¬(p ≤ a ∧ a < p + m) → s'.mem a = s.mem a
  freed : s'.m_record.find? p = none
  others : ∀ e ∈ L, e.1 ≠ p → ∀ i : Nat, i < e.2 → s'.mem (e.1 + i) = s.mem (e.1 + i)

/-- The block of `m` bytes at `p` is as it was. -/
structure Stays (s s' : MemPool) (p : Int) (m : Nat) : Prop where
  live : s'.m_record.find? p = s.m_record.find? p
  node : ∀ x ∈ s.m_record.find? p, s'.nodes.read x = s.nodes.read x
  contents : ∀ i : Nat, i < m → s'.mem (p + i) = s.mem (p + i)

/-- What `Realloc(p, newLen)` should have done when it returns the given block, or NULL. -/
def Keeps (s s' : MemPool) (L : Blocks) (p : Int) (m newLen : Nat) : Option Int → Prop
  | none => Stays s s' p m
  | some q => q ≠ p → Moves s s' L p m q newLen

/-- The node at `p` has the length already; or it is not longer, and a buffer that is cleared is the new block. -/
def Fits (s : MemPool) (p : Int) (newLen : Nat) : Prop :=
  HasLen s p newLen ∨
    (∀ x ∈ s.m_record.find? p, ∀ n ∈ s.nodes.read x, n.nLen ≤ newLen) ∧
      (Clears s (getCorrectLessChipLen newLen) →
        firstFree s (getCorrectLessChipLen newLen) (listedFrom s (getCorrectLessChipLen newLen)) = none ∧
          getCorrectLessChipLen newLen = newLen)

instance (s : MemPool) (p : Int) (newLen : Nat) : Decidable (Fits s p newLen) := inferInstanceAs (Decidable (_ ∨ _))

theorem AllocOk.withMem (h : AllocOk s newLen) : AllocOk { s with mem := mem } newLen := by
  obtain ⟨hsmall, hback, hlisted, hroots⟩ := h
  have hfree := firstFree_congr (show { s with mem := mem }.nodes = s.nodes from rfl)
  refine ⟨hsmall, hback, ?_, ?_⟩
  · rw [hfree]
    exact hlisted
  · rw [hfree, hfree]
    exact hroots

/-- The condition does not look at the bytes. -/
theorem fits_mem : Fits { s with mem := mem } p newLen ↔ Fits s p newLen := by
  have hfree : ∀ ids, firstFree { s with mem := mem } (getCorrectLessChipLen newLen) ids =
      firstFree s (getCorrectLessChipLen newLen) ids := 
    firstFree_congr (show { s with mem := mem }.nodes = s.nodes from rfl) _
  simp only [Fits, hfree]
  exact Iff.rfl

theorem Moved.moves (hm : Moved s s' L p q n newLen (getCorrectLessChipLen newLen) sys)
    (hr : s.m_record.find? p = some x) (hx : s.nodes.read x = some n) (hmn : m ≤ n.nLen) (hle : n.nLen ≤ newLen)
    (hclear : Clears s (getCorrectLessChipLen newLen) →
      firstFree s (getCorrectLessChipLen newLen) (listedFrom s (getCorrectLessChipLen newLen)) = none ∧
        getCorrectLessChipLen newLen = newLen) : Moves s s' L p m q newLen where
  defined := by
    intro y hy c hc
    cases hr.symm.trans hy
    cases hx.symm.trans hc
    have := hm.apart
    omega
  copied i hi := hm.copied (by omega)
  outside a ha _ := by
    rw [hm.other (by omega), memAfter_other]
    intro hc
    obtain ⟨hnone, hlen⟩ := hclear hc
    rw [hlen, ← hm.own hc hnone]
    omega
  freed := hm.record
  others e he hep i hi := by
    have h₁ := hm.others e he
    have h₂ := hm.blocks e he
    rw [hm.other (by omega), memAfter_other fun _ => by omega]

/-- The byte of the old node behind the new length is copied past the end of the new block. -/
theorem Moved.le_of_moves (hm : Moved s s' L p q n newLen theLen sys) (hr : s.m_record.find? p = some x)
    (hx : s.nodes.read x = some n) (hmn : m ≤ n.nLen) (hmem : s.mem = fun a => if a = p + newLen then 1 else 0)
    (hmoves : Moves s s' L p m q newLen) : n.nLen ≤ newLen := by
  by_contra hlt
  have hapart := hmoves.defined x hr n hx
  have hcopied := hm.copied (i := newLen) (by omega)
  have hsame := hmoves.outside (q + newLen) (by omega) (by omega)
  rw [hcopied, hmem] at hsame
  have hqp : q ≠ p := hm.ne
  simp [hqp] at hsame

/-- A byte of a cleared buffer that is not of the new block. -/
theorem Moved.cleared_of_moves (hm : Moved s s' L p q n newLen (getCorrectLessChipLen newLen) sys) (hle : n.nLen ≤ newLen)
    (hmn : m ≤ n.nLen) (hc : Clears s (getCorrectLessChipLen newLen)) (hmem : s.mem = fun _ => 1)
    (hmoves : Moves s s' L p m q newLen) :
    firstFree s (getCorrectLessChipLen newLen) (listedFrom s (getCorrectLessChipLen newLen)) = none ∧
      getCorrectLessChipLen newLen = newLen := by
  have hround := le_getCorrectLessChipLen newLen
  have hlong := hc.2.1
  have hnode := hm.node
  have hwritten : ∀ a, sys ≤ a → a < sys + getCorrectLessChipLen newLen → q ≤ a ∧ a < q + newLen := by
    intro a ha ha'
    by_contra hout
    have hsame := hmoves.outside a hout (by omega)
    rw [hm.other (by omega), memAfter_cleared hc ha ha', hmem] at hsame
    cases hsame
  have hnone : firstFree s (getCorrectLessChipLen newLen) (listedFrom s (getCorrectLessChipLen newLen)) = none := by
    by_contra hsome
    have := hm.old hc hsome
    have := hwritten sys le_rfl (by omega)
    omega
  refine ⟨hnone, ?_⟩
  have hq := hm.own hc hnone
  by_contra hne
  have := hwritten (sys + newLen) (by omega) (by omega)
  omega

theorem keeps_of_fits (h : Inv s L) (hl : s.m_lock = false) (hpm : (p, m) ∈ L) (hlen : 0 < newLen)
    (hok : HasLen s p newLen ∨ AllocOk s newLen) (hfresh : Fresh s (getCorrectLessChipLen newLen) sys) (hfits : Fits s p newLen) :
    ∃ s' r, realloc s p newLen sys = .ok (s', r) ∧ Keeps s s' L p m newLen r := by
  obtain ⟨x, n, hr, hx, hmn⟩ := h.live p m hpm
  have hfind := StdMap.find?_eq_some.2 hr
  by_cases hsame : n.nLen = newLen
  · exact ⟨_, _, realloc_same hl hr hx hsame, fun hne => absurd rfl hne⟩
  · have hnot : ¬HasLen s p newLen := fun hhas => hsame (hhas.nLen_eq hr hx)
    obtain ⟨hle, hclear⟩ := hfits.resolve_left hnot
    obtain ⟨s', q, hrun, hm⟩ := realloc_moved h hl hpm hr hx hsame hlen (hok.resolve_left hnot) hfresh
    exact ⟨s', _, hrun, fun _ => hm.moves hfind hx hmn (hle x hfind n hx) hclear⟩

theorem fits_of_keeps (h : Inv s L) (hl : s.m_lock = false) (hpm : (p, m) ∈ L) (hlen : 0 < newLen)
    (hok : HasLen s p newLen ∨ AllocOk s newLen) (hfresh : Fresh s (getCorrectLessChipLen newLen) sys)
    (hkeeps : ∀ mem, ∃ s' r, realloc { s with mem := mem } p newLen sys = .ok (s', r) ∧
      Keeps { s with mem := mem } s' L p m newLen r) : Fits s p newLen := by
  by_cases hhas : HasLen s p newLen
  · exact .inl hhas
  obtain ⟨x, n, hr, hx, hmn⟩ := h.live p m hpm
  have hfind := StdMap.find?_eq_some.2 hr
  have hsame : n.nLen ≠ newLen := fun hsame => hhas ⟨x, hfind, by rw [hx, Option.map_some, hsame]⟩
  have hmoves : ∀ mem, ∃ s' q, Moved { s with mem := mem } s' L p q n newLen (getCorrectLessChipLen newLen) sys ∧
      Moves { s with mem := mem } s' L p m q newLen := by
    intro mem
    have h₀ : Inv { s with mem := mem } L := h.congr rfl rfl rfl rfl rfl
    have hok₀ : AllocOk { s with mem := mem } newLen := AllocOk.withMem (hok.resolve_left hhas)
    obtain ⟨s', q, hrun, hm⟩ := realloc_moved h₀ hl hpm hr hx hsame hlen hok₀ hfresh
    obtain ⟨t, r, hrun', hk⟩ := hkeeps mem
    cases hrun.symm.trans hrun'
    exact ⟨s', q, hm, hk hm.ne⟩
  obtain ⟨s₁, q₁, hm₁, hmoves₁⟩ := hmoves fun a => if a = p + newLen then 1 else 0
  have hle := hm₁.le_of_moves hfind hx hmn rfl hmoves₁
  obtain ⟨s₂, q₂, hm₂, hmoves₂⟩ := hmoves fun _ => 1
  have hfits : Fits { s with mem := fun _ => 1 } p newLen := by
    refine .inr ⟨fun y hy c hc => ?_, fun hc => hm₂.cleared_of_moves hle hmn hc rfl hmoves₂⟩
    cases hfind.symm.trans hy
    cases hx.symm.trans hc
    exact hle
  exact fits_mem.1 hfits

/-- In every state that clear steps reach, a clear `Realloc` of a live block keeps contents and bounds, whatever the memory holds,
just when the block fits. -/
theorem realloc_keeps_iff {m₀ : Mem} {actions : List Action} {c : Client} (hs : init m₀ b = .ok s)
    (h : Along step (fun c a => Allowed c a ∧ Clear c a) ⟨s, []⟩ actions) (hrun : actions.foldlM step ⟨s, []⟩ = .ok c)
    (hpm : (p, m) ∈ c.live) (hfresh : Fresh c.pool (getCorrectLessChipLen newLen) sys) (hclear : Clear c (.realloc p newLen sys)) :
    (∀ mem, ∃ s' r, realloc { c.pool with mem := mem } p newLen sys = .ok (s', r) ∧
      Keeps { c.pool with mem := mem } s' c.live p m newLen r) ↔ Fits c.pool p newLen := by
  obtain ⟨s₀, hs₀, hlaid, hbufs, hlock⟩ := init_laid m₀ b
  rw [hs] at hs₀
  cases hs₀
  obtain ⟨c', hrun', hinv, hl⟩ := Along.run (fun c => Inv c.pool c.live ∧ c.pool.m_lock = false) h ⟨init_inv hlaid hbufs, hlock⟩
    fun c a hc ha => step_spec hc.1 hc.2 ha.1 ha.2
  cases hrun.symm.trans hrun'
  obtain ⟨hlen, hok⟩ := hclear
  refine ⟨?_, ?_⟩
  · exact fits_of_keeps hinv hl hpm hlen hok hfresh
  · intro hfits mem
    have h₀ : Inv { c.pool with mem := mem } c.live := hinv.congr rfl rfl rfl rfl rfl
    exact keeps_of_fits h₀ hl hpm hlen (hok.imp id AllocOk.withMem) hfresh (fits_mem.2 hfits)

/-- A block of 24 bytes grows to one of 32. -/
theorem realloc_keeps_iff_grown : ∃ s, init (fun _ => 0) 1000 = .ok s ∧ ∃ c, [Action.alloc 24 5000].foldlM step ⟨s, []⟩ = .ok c ∧
    ((∀ mem, ∃ s' r, realloc { c.pool with mem := mem } 1128 32 5000 = .ok (s', r) ∧
      Keeps { c.pool with mem := mem } s' c.live 1128 24 32 r) ↔ Fits c.pool 1128 32) := by
  have hrun : ∃ s, init (fun _ => 0) 1000 = .ok s ∧ Along step (fun c a => Allowed c a ∧ Clear c a) ⟨s, []⟩ [.alloc 24 5000] ∧
      ∃ c, [Action.alloc 24 5000].foldlM step ⟨s, []⟩ = .ok c ∧ (1128, 24) ∈ c.live ∧
        Fresh c.pool (getCorrectLessChipLen 32) 5000 ∧ Clear c (.realloc 1128 32 5000) := by decide +kernel
  obtain ⟨s, hs, h, c, hc, hpm, hfresh, hclear⟩ := hrun
  exact ⟨s, hs, c, hc, realloc_keeps_iff hs h hc hpm hfresh hclear⟩

/-- A block of 24 bytes made one of 8 is moved to the last 8 bytes of the node it was taken from, and 16 bytes go into the block
behind them. -/
theorem not_realloc_keeps_shrunk : ¬∀ (m₀ : Mem) (b : Int) (s : MemPool) (actions : List Action) (c : Client) (p : Int) (m : Nat)
    (newLen : Nat) (sys : Int) (s' : MemPool) (r : Option Int), init m₀ b = .ok s → Along step Allowed ⟨s, []⟩ actions →
    actions.foldlM step ⟨s, []⟩ = .ok c → (p, m) ∈ c.live → 0 < newLen → Fresh c.pool (getCorrectLessChipLen newLen) sys →
      ∀ mem, realloc { c.pool with mem := mem } p newLen sys = .ok (s', r) →
        Keeps { c.pool with mem := mem } s' c.live p m newLen r := by
  intro h
  have hrun : ∃ s, init (fun _ => 0) 1000 = .ok s ∧ Along step Allowed ⟨s, []⟩ [.alloc 24 5000, .alloc 32 5000] ∧
      ∃ c, [Action.alloc 24 5000, .alloc 32 5000].foldlM step ⟨s, []⟩ = .ok c ∧ (1128, 24) ∈ c.live ∧ (1160, 32) ∈ c.live ∧
        Fresh c.pool (getCorrectLessChipLen 8) 5000 ∧
        ∃ r, realloc { c.pool with mem := fun a => if a = 1136 then 1 else 0 } 1128 8 5000 = .ok r ∧ r.2 = some 1152 ∧
          r.1.mem 1160 = 1 := by
    decide +kernel
  obtain ⟨s, hs, hal, c, hc, hp, he, hfresh, ⟨s', q⟩, hr, hq, hbyte⟩ := hrun
  cases hq
  have hmoves := h _ _ s _ c 1128 24 8 5000 s' _ hs hal hc hp (by decide) hfresh _ hr (by decide)
  have hsame := hmoves.others (1160, 32) he (by decide) 0 (by decide)
  cases hbyte.symm.trans hsame

end MemPool
