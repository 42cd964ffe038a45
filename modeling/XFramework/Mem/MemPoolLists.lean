/-
The free list of a pool in the states that `Alloc`, `Free`, `Realloc` and the
sweep reach.

Two things break it. A request of half a node leaves the node with one chip,
for the map of the chips has one place for a length: the chip is used and
listed. A sweep that merges a chip does not list it. In a run that does
neither the free list is what it should be (`freeList_run`).
-/
import XFramework.Mem.MemPoolRun

open Fallible Bytes

namespace MemPool

variable {s s' : MemPool} {n : MemNode} {x len : Nat} {sys p : Int}

/-- The free list holds nodes that are free, none twice, and every free chip. -/
structure FreeList (s : MemPool) : Prop where
  stored : ∀ k x, InSet s.m_poolset k x →
    (∃ n, s.nodes.read x = some n ∧ n.nLen = k ∧ n.eStatus = .UF_NONE) ∧ ∀ e ∈ s.m_record, e.2 ≠ x
  once : (s.m_poolset.entries.flatMap (·.2)).Nodup
  chips : ∀ id n x c, s.nodes.read id = some n → n.eStatus = .UF_ALLOC → ChipOf x n → s.nodes.read x = some c →
    c.eStatus = .UF_NONE → InSet s.m_poolset c.nLen x

/-- The shape of the pool, with every free chip listed. -/
structure Tidy (s : MemPool) : Prop extends Shape s where
  chips : ChipsListed s

theorem Tidy.freeList (h : Tidy s) : FreeList s where
  stored k x hx := by
    obtain ⟨n, hn, hst, hlen⟩ := h.listed k x hx
    refine ⟨⟨n, hn, hlen, hst⟩, fun e he => ?_⟩
    obtain ⟨c, hc, hused, -⟩ := h.recorded e.1 e.2 he
    exact ne_of_status hc hn (by rw [hused, hst]; simp)
  once := by
    refine List.nodup_flatMap.2 ⟨fun e he => h.nodup e.1 e.2 he, s.m_poolset.sorted.imp_of_mem fun {a b} ha hb hlt => ?_⟩
    intro x hxa hxb
    obtain ⟨n, hn, -⟩ := h.listed a.1 x ⟨a.2, ha, hxa⟩
    have hka := h.key hn ⟨a.2, ha, hxa⟩
    have hkb := h.key hn ⟨b.2, hb, hxb⟩
    exact Nat.ne_of_lt hlt (hka.trans hkb.symm)
  chips id n x c hn _ hx hc hst := h.chips id n x c hn hx hc hst

/-! ## What a run must not do -/

/-- A request finds a node, and not one that is as long as two blocks. -/
def NoHalves (s : MemPool) (len : Nat) : Prop := ∃ x ∈ found s (getCorrectLessChipLen len),
  0 < getCorrectLessChipLen len → ¬Halves s (getCorrectLessChipLen len) x

instance (s : MemPool) (len : Nat) : Decidable (NoHalves s len) := inferInstanceAs (Decidable (∃ x ∈ _, _))

/-- No request takes half of a node, no sweep merges a chip. -/
def Orderly (c : Client) : Action → Prop
  | .alloc len _ => NoHalves c.pool len
  | .free _ => True
  | .realloc p newLen _ => HasLen c.pool p newLen ∨ NoHalves c.pool newLen
  | .sweep => SweepOk c.pool

instance (c : Client) (a : Action) : Decidable (Orderly c a) :=
  match a with
  | .alloc _ _ => inferInstanceAs (Decidable (NoHalves _ _))
  | .free _ => isTrue trivial
  | .realloc _ _ _ => inferInstanceAs (Decidable (_ ∨ _))
  | .sweep => inferInstanceAs (Decidable (SweepOk _))

/-- `back()` is asked of a list that has a node. -/
def BackOk (c : Client) : Action → Prop
  | .alloc len _ => c.pool.m_poolset.find? (getCorrectLessChipLen len) ≠ some []
  | .free _ => True
  | .realloc p newLen _ => HasLen c.pool p newLen ∨ c.pool.m_poolset.find? (getCorrectLessChipLen newLen) ≠ some []
  | .sweep => True

theorem NoHalves.back (h : NoHalves s len) : s.m_poolset.find? (getCorrectLessChipLen len) ≠ some [] := by
  obtain ⟨x, hx, -⟩ := h
  intro he
  rw [found, he] at hx
  cases hx

theorem Orderly.backOk {c : Client} {a : Action} (h : Orderly c a) : BackOk c a := by
  cases a with
  | alloc len sys => exact NoHalves.back h
  | free p => trivial
  | realloc p newLen sys => exact h.imp_right NoHalves.back
  | sweep => trivial

/-! ## The steps -/

theorem NoHalves.lock (h : NoHalves s len) : NoHalves { s with m_lock := true } len := by
  rw [NoHalves, found_lock]
  exact h

theorem Tidy.congr (h : Tidy s) (hn : s'.nodes = s.nodes) (hset : s'.m_poolset = s.m_poolset) (hp : s'.m_pools = s.m_pools)
    (hr : s'.m_record = s.m_record) : Tidy s' := by
  cases s
  cases s'
  cases hn
  cases hset
  cases hp
  cases hr
  exact ⟨⟨h.forest, h.listed, h.nodup, h.recorded, h.roots⟩, h.chips⟩

theorem Tidy.hand {theLen : Nat} (h : Tidy s) (hm : Hands s s' x n theLen) : Tidy s' := by
  refine ⟨h.toShape.hand hm, ?_⟩
  cases hm with
  | whole hm hlen => exact h.chips.hand_whole hm
  | front n' hm => exact h.chips.hand_front h.toShape hm

theorem Tidy.lengthen {theLen : Nat} (h : Tidy s) (hm : Lengthened s s' theLen sys) : Tidy s' := by
  refine ⟨h.toShape.lengthen hm, ?_⟩
  rcases hm with rfl | ⟨-, hm⟩
  · exact h.chips
  · exact h.chips.add h.toShape hm

theorem Tidy.took {theLen : Nat} (h : Tidy s) (hm : Took s s' x n theLen sys) : Tidy s' := by
  cases hm with
  | after t hand long => exact (h.hand hand).lengthen long
  | before t long hand => exact (h.lengthen long).hand hand

theorem take_tidy {r : MemPool × Option Int} (h : Tidy s) (hok : NoHalves s len) (hrun : take s len sys = .ok r) :
    Tidy r.1 ∧ ∀ e ∈ s.m_record, e ∈ r.1.m_record := by
  obtain ⟨x, hx, hhalf⟩ := hok
  obtain ⟨s', n, hrun', htook, -⟩ := take_took h.toShape sys (take_small hrun) hx hhalf
  cases hrun.symm.trans hrun'
  exact ⟨h.took htook, htook.kept⟩

theorem give_tidy (h : Tidy s) (hrun : give s p = .ok s') : Tidy s' := by
  cases hfind : s.m_record.find? p with
  | none =>
    rw [give, hfind] at hrun
    cases hrun
  | some x =>
    obtain ⟨t, n, hrun', hm⟩ := give_gives h.toShape (StdMap.find?_eq_some.1 hfind)
    cases hrun.symm.trans hrun'
    exact ⟨h.toShape.give hm, h.chips.give hm⟩

theorem realloc_tidy {r : MemPool × Option Int} (h : Tidy s) (hl : s.m_lock = false) (hok : HasLen s p len ∨ NoHalves s len)
    (hrun : realloc s p len sys = .ok r) : Tidy r.1 ∧ r.1.m_lock = false := by
  obtain ⟨s₀, hlock, hrun⟩ := bind_eq_ok.1 hrun
  cases (lock_eq hl).symm.trans hlock
  have h₀ : Tidy { s with m_lock := true } := h.congr rfl rfl rfl rfl
  cases hfind : s.m_record.find? p with
  | none =>
    have hfind₀ : ({ s with m_lock := true } : MemPool).m_record.find? p = none := hfind
    rw [hfind₀] at hrun
    cases hrun
  | some x =>
    have hfind₀ : ({ s with m_lock := true } : MemPool).m_record.find? p = some x := hfind
    rw [hfind₀] at hrun
    have hr := StdMap.find?_eq_some.1 hfind
    obtain ⟨n, hx, -⟩ := h₀.recorded p x hr
    dsimp only at hrun
    rw [deref_eq hx] at hrun
    by_cases hsame : n.nLen = len
    · have hrun : Except.ok ({ s with m_lock := true }.unlock, some p) = Except.ok r := (if_pos hsame).symm.trans hrun
      cases hrun
      exact ⟨h.congr rfl rfl rfl rfl, rfl⟩
    · have hok : NoHalves s len := by
        refine hok.resolve_left fun ⟨y, hy, hylen⟩ => hsame ?_
        cases hfind.symm.trans hy
        rw [show s.nodes.read x = some n from hx] at hylen
        exact Option.some.inj hylen
      replace hrun := (if_neg hsame).symm.trans hrun
      obtain ⟨⟨s₁, q⟩, htake, hrun⟩ := bind_eq_ok.1 hrun
      obtain ⟨h₁, hkept⟩ := take_tidy h₀ hok.lock htake
      cases q with
      | none =>
        cases hrun
        exact ⟨h₁.congr rfl rfl rfl rfl, rfl⟩
      | some q =>
        -- the copy does not touch the nodes, and `FreeImpl` marks the old block again
        have hr₁ := hkept _ hr
        obtain ⟨n₁, hx₁, -⟩ := h₁.recorded p x hr₁
        obtain ⟨n₂, hread, hrun⟩ := bind_eq_ok.1 hrun
        cases (deref_eq hx₁).symm.trans hread
        obtain ⟨s₂, hgive, hrun⟩ := bind_eq_ok.1 hrun
        cases hrun
        rw [give_marked (s := { s₁ with mem := write s₁.mem q (Bytes.read s₁.mem p n.nLen) }) hr₁ hx₁] at hgive
        have h₂ := give_tidy (s := { s₁ with mem := write s₁.mem q (Bytes.read s₁.mem p n.nLen) })
          (h₁.congr rfl rfl rfl rfl) hgive
        exact ⟨h₂.congr rfl rfl rfl rfl, rfl⟩

theorem step_tidy {c c' : Client} {a : Action} (h : Tidy c.pool) (hl : c.pool.m_lock = false) (ha : Orderly c a)
    (hstep : step c a = .ok c') : Tidy c'.pool ∧ c'.pool.m_lock = false := by
  have h₀ : Tidy { c.pool with m_lock := true } := h.congr rfl rfl rfl rfl
  cases a with
  | alloc len sys =>
    obtain ⟨r, hr, hc⟩ := bind_eq_ok.1 hstep
    cases hc
    obtain ⟨t, htake, hrt⟩ := alloc_ok hl hr
    have ht : Tidy t := (take_tidy h₀ (NoHalves.lock ha) htake).1
    rw [hrt]
    exact ⟨ht.congr rfl rfl rfl rfl, rfl⟩
  | free p =>
    obtain ⟨t, ht, hc⟩ := bind_eq_ok.1 hstep
    cases hc
    obtain ⟨t', hgive, htt⟩ := free_ok hl ht
    have ht' := give_tidy h₀ hgive
    rw [htt]
    exact ⟨ht'.congr rfl rfl rfl rfl, rfl⟩
  | realloc p newLen sys =>
    obtain ⟨r, hr, hc⟩ := bind_eq_ok.1 hstep
    cases hc
    exact realloc_tidy h hl ha hr
  | sweep =>
    obtain ⟨t, ht, hc⟩ := bind_eq_ok.1 hstep
    cases hc
    obtain ⟨s₁, hrun, h₁⟩ := sweep_keeps Tidy (fun t ht => ⟨ht.toShape, ht.chips⟩)
      (fun t t' x i j n ni nj ht hm hroot => ⟨ht.toShape.merge hm, ht.chips.merge hm hroot⟩) (h.congr rfl rfl rfl rfl) hl ha
    cases ht.symm.trans hrun
    exact ⟨h₁.congr rfl rfl rfl rfl, rfl⟩

/-! ## Runs -/

theorem init_tidy {m : Mem} {b : Int} (hs : init m b = .ok s) : Tidy s ∧ s.m_lock = false := by
  obtain ⟨s₀, hs₀, hlaid, hbufs, hlock⟩ := init_laid m b
  cases hs.symm.trans hs₀
  have hinv := init_inv hlaid hbufs
  exact ⟨⟨hinv.shape, hinv.chips⟩, hlock⟩

/-- In every run that does neither the free list is what it should be, and `back()` finds a node. -/
theorem freeList_run {m : Mem} {b : Int} {actions : List Action} {c : Client} (hs : init m b = .ok s)
    (h : Along step Orderly ⟨s, []⟩ actions) (hrun : actions.foldlM step ⟨s, []⟩ = .ok c) :
    FreeList c.pool ∧ Along step BackOk ⟨s, []⟩ actions := by
  obtain ⟨hinit, hlock⟩ := init_tidy hs
  obtain ⟨htidy, -⟩ := h.keeps (fun c => Tidy c.pool ∧ c.pool.m_lock = false) hrun ⟨hinit, hlock⟩
    fun c a c' hc ha hstep => step_tidy hc.1 hc.2 ha hstep
  exact ⟨htidy.freeList, h.imp fun c a ha => ha.backOk⟩

/-- Splits, a block that is moved, a sweep that merges, a buffer of its own and a merged node. -/
theorem freeList_run_mixed : ∃ s, init (fun _ => 0) 1000 = .ok s ∧
    ∃ c, [Action.alloc 4 5000, .alloc 24 5000, .alloc 8 5000, .realloc 1128 5 5000, .free 1152, .free 1032, .sweep,
      .alloc 100 5000, .alloc 32 7000].foldlM step ⟨s, []⟩ = .ok c ∧ FreeList c.pool ∧
    Along step BackOk ⟨s, []⟩ [Action.alloc 4 5000, .alloc 24 5000, .alloc 8 5000, .realloc 1128 5 5000, .free 1152,
      .free 1032, .sweep, .alloc 100 5000, .alloc 32 7000] := by
  have hrun : ∃ s, init (fun _ => 0) 1000 = .ok s ∧ Along step Orderly ⟨s, []⟩ [Action.alloc 4 5000, .alloc 24 5000,
        .alloc 8 5000, .realloc 1128 5 5000, .free 1152, .free 1032, .sweep, .alloc 100 5000, .alloc 32 7000] ∧
      ∃ c, [Action.alloc 4 5000, .alloc 24 5000, .alloc 8 5000, .realloc 1128 5 5000, .free 1152, .free 1032, .sweep,
        .alloc 100 5000, .alloc 32 7000].foldlM step ⟨s, []⟩ = .ok c ∧ c.pool.m_lock = false := by decide +kernel
  obtain ⟨s, hs, h, c, hc, -⟩ := hrun
  exact ⟨s, hs, c, hc, freeList_run hs h hc⟩

/-- What a search of the free list relies on. -/
theorem FreeList.free (h : FreeList s) : ∀ e ∈ s.m_poolset.entries, ∀ x ∈ e.2, status s x = some .UF_NONE := by
  intro e he x hx
  obtain ⟨⟨n, hn, -, hst⟩, -⟩ := h.stored e.1 x ⟨e.2, he, hx⟩
  rw [status, hn, Option.map_some, hst]

/-- Two bytes of a node of four: the chip that is handed out is listed. -/
theorem not_freeList_half : ¬∀ (m : Mem) (b : Int) (s : MemPool) (actions : List Action) (c : Client), init m b = .ok s →
    Along step Allowed ⟨s, []⟩ actions → actions.foldlM step ⟨s, []⟩ = .ok c →
      FreeList c.pool ∧ Along step BackOk ⟨s, []⟩ actions := by
  intro h
  have hrun : ∃ s, init (fun _ => 0) 1000 = .ok s ∧ Along step Allowed ⟨s, []⟩ [.alloc 2 5000] ∧
      ∃ c, [Action.alloc 2 5000].foldlM step ⟨s, []⟩ = .ok c ∧
        ¬∀ e ∈ c.pool.m_poolset.entries, ∀ x ∈ e.2, status c.pool x = some .UF_NONE := by decide +kernel
  obtain ⟨s, hs, hal, c, hc, hnot⟩ := hrun
  exact hnot (h _ _ s _ c hs hal hc).1.free

end MemPool
