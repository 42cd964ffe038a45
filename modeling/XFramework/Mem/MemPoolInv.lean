/-
The invariant of a pool. `Inv s L` ties its shape and where the nodes lie to
the list `L` of the blocks that are live, each with the length that was asked
for. `Inv.sound` is what the blocks have from it.
-/
import XFramework.Mem.MemPoolShape

namespace MemPool

/-! ## The invariant -/

/-- The blocks that are live: the address and the length that was asked for. -/
abbrev Blocks := List (Int × Nat)

structure Inv (s : MemPool) (L : Blocks) : Prop where
  trees : Trees s.nodes.read s.m_OriginalBuffer
  spare : ∀ id, Spare id → ∃ n, s.nodes.read id = some n ∧ n.eStatus = .UF_NONE
  many : 27 ≤ s.nodes.length
  listed : ∀ k x, InSet s.m_poolset k x → ∃ n, s.nodes.read x = some n ∧ n.eStatus = .UF_NONE ∧ n.nLen = k ∧ ¬Spare x
  nodup : NoRepeat s.m_poolset
  chips : ∀ id n x c, s.nodes.read id = some n → ChipOf x n → s.nodes.read x = some c → c.eStatus = .UF_NONE →
    InSet s.m_poolset c.nLen x
  recorded : ∀ p x, (p, x) ∈ s.m_record → ∃ n, s.nodes.read x = some n ∧ n.eStatus = .UF_USE ∧ n.pStart = p
  roots : ∀ k x, InSet s.m_pools k x → (∃ n, s.nodes.read x = some n) ∧ ∀ id n, s.nodes.read id = some n → ¬ChipOf x n
  live : ∀ p len, (p, len) ∈ L → ∃ x n, (p, x) ∈ s.m_record ∧ s.nodes.read x = some n ∧ len ≤ n.nLen
  once : (L.map (·.1)).Nodup

/-- What the pool owes its users: live blocks share no byte, and each is inside a buffer. -/
structure Sound (s : MemPool) (L : Blocks) : Prop where
  disjoint : L.Pairwise fun a b => a.1 + (a.2 : Int) ≤ b.1 ∨ b.1 + (b.2 : Int) ≤ a.1
  inside : ∀ a ∈ L, ∃ b ∈ s.m_OriginalBuffer, b.pOriStart ≤ a.1 ∧ a.1 + (a.2 : Int) ≤ b.pOriStart + b.len

instance (s : MemPool) (L : Blocks) : Decidable (Sound s L) :=
  decidable_of_iff
    ((L.Pairwise fun a b => a.1 + (a.2 : Int) ≤ b.1 ∨ b.1 + (b.2 : Int) ≤ a.1) ∧
      ∀ a ∈ L, ∃ b ∈ s.m_OriginalBuffer, b.pOriStart ≤ a.1 ∧ a.1 + (a.2 : Int) ≤ b.pOriStart + b.len)
    ⟨fun ⟨h₁, h₂⟩ => ⟨h₁, h₂⟩, fun h => ⟨h.disjoint, h.inside⟩⟩

variable {s s' : MemPool} {L : Blocks} {n n' : MemNode} {x y len : Nat} {p : Int}

theorem Inv.shape (h : Inv s L) : Shape s where
  forest := h.trees.forest
  listed k x hx := by
    obtain ⟨n, hn, hst, hlen, -⟩ := h.listed k x hx
    exact ⟨n, hn, hst, hlen⟩
  nodup := h.nodup
  recorded := h.recorded
  roots := h.roots

theorem Inv.listed_spare (h : Inv s L) {k : Nat} (hx : InSet s.m_poolset k x) : ¬Spare x := by
  obtain ⟨-, -, -, -, hsp⟩ := h.listed k x hx
  exact hsp

/-- What the shape leaves to be shown. -/
theorem Shape.inv (h : Shape s) (hchips : ChipsListed s) (hplaced : Placed Spare s.nodes.read s.m_OriginalBuffer)
    (hspare : ∀ id, Spare id → ∃ n, s.nodes.read id = some n ∧ n.eStatus = .UF_NONE) (hmany : 27 ≤ s.nodes.length)
    (hlisted : ∀ k x, InSet s.m_poolset k x → ¬Spare x)
    (hlive : ∀ p len, (p, len) ∈ L → ∃ x n, (p, x) ∈ s.m_record ∧ s.nodes.read x = some n ∧ len ≤ n.nLen)
    (honce : (L.map (·.1)).Nodup) : Inv s L where
  trees := h.forest.trees hplaced
  spare := hspare
  many := hmany
  listed k x hx := by
    obtain ⟨n, hn, hst, hlen⟩ := h.listed k x hx
    exact ⟨n, hn, hst, hlen, hlisted k x hx⟩
  nodup := h.nodup
  chips := hchips
  recorded := h.recorded
  roots := h.roots
  live := hlive
  once := honce

theorem Inv.not_spare (h : Inv s L) (hx : s.nodes.read x = some n) (hn : n.eStatus ≠ .UF_NONE) : ¬Spare x := by
  intro hs
  obtain ⟨c, hc, hst⟩ := h.spare x hs
  rw [hx] at hc
  cases hc
  exact hn hst

theorem Inv.sound (h : Inv s L) : Sound s L := by
  have hnode : ∀ a ∈ L, ∃ x n, s.nodes.read x = some n ∧ n.eStatus = .UF_USE ∧ n.pStart = a.1 ∧ a.2 ≤ n.nLen ∧ ¬Spare x := by
    intro a ha
    obtain ⟨x, n, hr, hx, hlen⟩ := h.live a.1 a.2 ha
    obtain ⟨c, hc, hst, hp⟩ := h.recorded a.1 x hr
    rw [hx] at hc
    cases hc
    exact ⟨x, n, hx, hst, hp, hlen, h.not_spare hx (by rw [hst]; simp)⟩
  refine ⟨?_, ?_⟩
  · refine (List.pairwise_map.1 h.once).imp_of_mem fun {a b} ha hb hne => ?_
    obtain ⟨x, n, hx, hst, hp, hlen, hsp⟩ := hnode a ha
    obtain ⟨y, c, hy, hst', hp', hlen', hsp'⟩ := hnode b hb
    have hxy : x ≠ y := by
      intro he
      rw [he, hy] at hx
      cases hx
      exact hne (hp.symm.trans hp')
    have := h.trees.apart x y n c hx hy (by rw [hst]; simp) (by rw [hst']; simp) hsp hsp' hxy
    simp only [Apart] at this
    omega
  · intro a ha
    obtain ⟨x, n, hx, -, hp, hlen, hsp⟩ := hnode a ha
    obtain ⟨b, hb, h₁, h₂⟩ := h.trees.within x n hx hsp
    exact ⟨b, hb, by omega, by omega⟩

/-- No block starts where a free node starts. -/
theorem Inv.start_free (h : Inv s L) (hx : s.nodes.read x = some n) (hn : n.eStatus = .UF_NONE) (hsp : ¬Spare x) :
    ∀ e ∈ s.m_record, e.1 ≠ n.pStart := by
  intro ⟨q, y⟩ he hq
  obtain ⟨c, hc, hst, hp⟩ := h.recorded q y he
  have hxy : x ≠ y := ne_of_status hx hc (by rw [hn, hst]; simp)
  have := h.trees.apart x y n c hx hc (by rw [hn]; simp) (by rw [hst]; simp) hsp (h.not_spare hc (by rw [hst]; simp)) hxy
  have h₁ := h.trees.pos x n hx
  have h₂ := h.trees.pos y c hc
  simp only at hq
  simp only [Apart] at this
  omega

/-- A new record finds its address free, and the others stay. -/
theorem Inv.mem_record (h : Inv s L) (hx : s.nodes.read x = some n) (hn : n.eStatus = .UF_NONE) (hsp : ¬Spare x)
    {e : Int × Nat} : e ∈ s.m_record.insert n.pStart y ↔ e ∈ s.m_record ∨ e = (n.pStart, y) :=
  StdMap.mem_insert_new (h.start_free hx hn hsp)

/-! ## Handing out -/

/-- The list of the blocks with a new one. -/
theorem once_cons (h : Inv s L) (hx : s.nodes.read x = some n) (hn : n.eStatus = .UF_NONE) (hsp : ¬Spare x) :
    (((n.pStart, len) :: L).map (·.1)).Nodup := by
  rw [List.map_cons, List.nodup_cons]
  refine ⟨fun hm => ?_, h.once⟩
  obtain ⟨⟨q, l⟩, hq, hp⟩ := List.mem_map.1 hm
  obtain ⟨y, -, hr, -, -⟩ := h.live q l hq
  exact h.start_free hx hn hsp _ hr hp

/-- A free node is handed out whole. -/
theorem Inv.hand_whole (h : Inv s L) (hm : HandsWhole s s' x n) (hsp : ¬Spare x) (hlen : len ≤ n.nLen) :
    Inv s' ((n.pStart, len) :: L) := by
  have hnew := fun e => h.mem_record (y := x) (e := e) hm.read hm.free hsp
  refine (h.shape.hand_whole hm).inv (ChipsListed.hand_whole h.chips hm) ?placed ?spare ?many ?listed ?live
    (once_cons h hm.read hm.free hsp)
  case placed =>
    rw [hm.bufs]
    exact h.trees.placed.of_same (hm.sameShapes (by rw [hm.free]; simp) (by simp))
  case spare =>
    intro id hid
    rw [hm.other fun he => hsp (he ▸ hid)]
    exact h.spare id hid
  case many =>
    rw [hm.nodes, Heap.length_write]
    exact h.many
  case listed => exact fun k y hy => h.listed_spare ((hm.set k y).1 hy).1
  case live =>
    intro q l hq
    cases hq with
    | head => exact ⟨x, { n with eStatus := .UF_USE }, hm.record ▸ (hnew _).2 (.inr rfl), hm.self, hlen⟩
    | tail _ hq =>
      obtain ⟨y, c, hr, hc, hl⟩ := h.live q l hq
      have hr' : (q, y) ∈ s'.m_record := hm.record ▸ (hnew _).2 (.inl hr)
      by_cases hyx : y = x
      · rw [hyx, hm.read] at hc
        cases hc
        exact ⟨y, { n with eStatus := .UF_USE }, hr', hyx ▸ hm.self, hl⟩
      · exact ⟨y, c, hr', (hm.other hyx).trans hc, hl⟩

/-- A free node is split, and its front handed out. -/
theorem Inv.hand_front (h : Inv s L) (hm : HandsFront s s' x len n n') (hsp : ¬Spare x) (hpos : 0 < len) {req : Nat}
    (hreq : req ≤ len) : Inv s' ((n.pStart, req) :: L) := by
  have hnew := fun e => h.mem_record (y := s.nodes.length) (e := e) hm.read hm.free hsp
  refine (h.shape.hand_front hm).inv (ChipsListed.hand_front h.chips h.shape hm) ?placed ?spare ?many ?listed ?live
    (once_cons h hm.read hm.free hsp)
  case placed =>
    rw [hm.bufs]
    exact h.trees.placed.split hm.split hm.read (by rw [hm.free]; simp) hsp hpos hm.lt hm.ne h.many (h.many.trans (Nat.le_succ _))
  case spare =>
    intro id hid
    obtain ⟨c, hc, hst⟩ := h.spare id hid
    exact ⟨c, hm.other (fun he => hsp (he ▸ hid)) hc, hst⟩
  case many =>
    rw [hm.long]
    exact h.many.trans (Nat.le_add_right _ _)
  case listed =>
    intro k y hy
    rcases (hm.set k y).1 hy with ⟨hy, -⟩ | ⟨-, rfl⟩
    · exact h.listed_spare hy
    · have := h.many
      rw [Spare]
      omega
  case live =>
    intro q l hq
    cases hq with
    | head => exact ⟨_, _, hm.record ▸ (hnew _).2 (.inr rfl), hm.reads.2.1, hreq⟩
    | tail _ hq =>
      obtain ⟨y, c, hr, hc, hl⟩ := h.live q l hq
      obtain ⟨d, hd, hst, -⟩ := h.recorded q y hr
      have hyx : y ≠ x := ne_of_status hd hm.read (by rw [hst, hm.free]; simp)
      exact ⟨y, c, hm.record ▸ (hnew _).2 (.inl hr), hm.other hyx hc, hl⟩

/-! ## Taking back -/

/-- The blocks without the one at `p`. -/
def without (L : Blocks) (p : Int) : Blocks := L.filter fun a => a.1 ≠ p

/-- A used node is free again, and listed. -/
theorem Inv.take_back (h : Inv s L) (hm : Gives s s' p x n) : Inv s' (without L p) := by
  obtain ⟨hst, hp⟩ := hm.used h.shape
  have hsp := h.not_spare hm.read (by rw [hst]; simp)
  refine (h.shape.give hm).inv (ChipsListed.give h.chips hm) ?placed ?spare ?many ?listed ?live
    ((List.filter_sublist.map _).nodup h.once)
  case placed =>
    rw [hm.bufs]
    exact h.trees.placed.of_same (hm.sameShapes (by rw [hst]; simp) (by simp))
  case spare =>
    intro id hid
    rw [hm.other fun he => hsp (he ▸ hid)]
    exact h.spare id hid
  case many =>
    rw [hm.nodes, Heap.length_write]
    exact h.many
  case listed =>
    intro k y hy
    rw [hm.set, inSet_pushBack] at hy
    rcases hy with hy | ⟨-, rfl⟩
    · exact h.listed_spare hy
    · exact hsp
  case live =>
    intro q l hq
    rw [without, List.mem_filter] at hq
    obtain ⟨hq, hqp⟩ := hq
    obtain ⟨y, c, hry, hc, hl⟩ := h.live q l hq
    have hqp : q ≠ p := by simpa using hqp
    have hyx : y ≠ x := by
      intro he
      obtain ⟨d, hd, -, hdq⟩ := h.recorded q y hry
      rw [he, hm.read] at hd
      cases hd
      exact hqp (hdq.symm.trans hp)
    exact ⟨y, c, hm.record ▸ StdMap.mem_erase.2 ⟨hry, hqp⟩, (hm.other hyx).trans hc, hl⟩

/-! ## A buffer of its own -/

/-- A node over a new buffer, free and not listed. -/
theorem Inv.add (h : Inv s L) {b : OriginalNode} (hm : Adds s s' b) (hlen : 0 < b.len)
    (hfresh : ∀ c ∈ s.m_OriginalBuffer, c.pOriStart + c.len ≤ b.pOriStart ∨ b.pOriStart + b.len ≤ c.pOriStart) : Inv s' L := by
  have hat := hm.addAt
  refine (h.shape.add hm).inv (ChipsListed.add h.chips h.shape hm) ?placed ?spare ?many ?listed ?live h.once
  case placed =>
    rw [hm.bufs]
    exact h.trees.placed.add hat hlen hfresh
  case spare =>
    intro id hid
    obtain ⟨c, hc, hst⟩ := h.spare id hid
    exact ⟨c, hat.keep hc, hst⟩
  case many =>
    rw [hm.nodes, Heap.length_new]
    exact h.many.trans (Nat.le_succ _)
  case listed => exact fun k y hy => h.listed_spare (hm.set ▸ hy)
  case live =>
    intro q l hq
    obtain ⟨y, c, hr, hc, hl⟩ := h.live q l hq
    exact ⟨y, c, hm.record ▸ hr, hat.keep hc, hl⟩

/-! ## Merging -/

/-- A root whose two chips are free is whole again. -/
theorem Inv.merge (h : Inv s L) {i j : Nat} {ni nj : MemNode} (hm : Merges s s' x i j n ni nj)
    (hroot : ∀ id c, s.nodes.read id = some c → ¬ChipOf x c) : Inv s' L := by
  have hsp := h.not_spare hm.node (by rw [hm.split]; simp)
  have hlate : ∀ y, ChipOf y n → 27 ≤ y := fun y => h.trees.late x n y hm.node
  refine (h.shape.merge hm).inv (ChipsListed.merge h.chips hm hroot) ?placed ?spare ?many ?listed ?live h.once
  case placed =>
    rw [hm.bufs]
    exact h.trees.placed.merge (fun y hy => Nat.lt_succ_of_le hy.2) hm.read hm.node hsp hm.cut (by rw [hm.freeL]; simp)
      (by rw [hm.freeR]; simp)
  case spare =>
    intro id hid
    have h₁ := hlate i (hm.cut.chipOf_iff.2 (.inl rfl))
    have h₂ := hlate j (hm.cut.chipOf_iff.2 (.inr rfl))
    have h₃ := hid.2
    rw [hm.other (fun he => hsp (he ▸ hid)) (by omega) (by omega)]
    exact h.spare id hid
  case many =>
    rw [hm.long]
    exact h.many
  case listed => exact fun k y hy => h.listed_spare ((hm.set k y).1 hy).1
  case live =>
    intro q l hq
    obtain ⟨y, c, hr, hc, hl⟩ := h.live q l hq
    obtain ⟨d, hd, hst, -⟩ := h.recorded q y hr
    rw [hc] at hd
    cases hd
    exact ⟨y, c, hm.record ▸ hr, hm.used_keep hc hst, hl⟩

end MemPool
