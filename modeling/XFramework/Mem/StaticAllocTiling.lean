/-
Nothing is lost: as long as every block in use has a record slot, the free
ranges and the blocks in use tile the memory from the squeeze limit up, and the
free ranges keep a normal form (`Normal`) that `Free` restores: no two adjacent,
and none at the limit while the limit lies below `m_pStart`. So when every
block has been freed, in whatever order, the area is as it was formatted.
-/
import XFramework.Mem.StaticAllocSlots

open Bytes Span

namespace XStaticAlloc

/-- The free ranges are in normal form. -/
structure Normal (s : Run) : Prop where
  gapped : Gapped s.obj.rangeSet.entries
  above : 0 < recordOffset s.mem → ∀ r ∈ s.obj.rangeSet, r.1 ≠ s.obj.limit s.mem

namespace Normal

variable {s : Run} {A : Arena} {len p : Int}

theorem gapped_takeFrom {s : StdMap Int Int} {itf : Span} (hg : Gapped s.entries) (hi : itf ∈ s) (hlen : 0 < len)
    (hle : len ≤ itf.2) : Gapped (takeFrom s itf len).entries := by
  have hg' := gapped_iff.1 hg
  refine gapped_iff.2 fun a ha b hb hlt => ?_
  rcases (mem_takeFrom hg.ordered hi hlen hle).1 ha with ⟨ha, hna⟩ | ⟨hl, rfl⟩
  · rcases (mem_takeFrom hg.ordered hi hlen hle).1 hb with ⟨hb, -⟩ | ⟨-, rfl⟩
    · exact hg' a ha b hb hlt
    · have h₁ := hg' a ha itf hi
      have h₂ := hg' itf hi a ha
      simp only at hlt ⊢
      omega
  · rcases (mem_takeFrom hg.ordered hi hlen hle).1 hb with ⟨hb, -⟩ | ⟨-, rfl⟩
    · have h₁ := hg' itf hi b hb
      have h₂ := hg' b hb itf hi
      simp only at hlt ⊢
      omega
    · omega

/-- The correction of the record offset leaves no free range at the limit. -/
theorem pullBack (hI : Inv s A) (hg : Gapped s.obj.rangeSet.entries) :
    Normal ⟨(XStaticAlloc.pullBack s.mem s.obj).1, (XStaticAlloc.pullBack s.mem s.obj).2, s.live⟩ := by
  unfold XStaticAlloc.pullBack
  split
  · rename_i he
    exact ⟨hg, fun _ r hr => by simp [← StdMap.mem_entries, he] at hr⟩
  rename_i first rest he
  have hmem : first ∈ s.obj.rangeSet := by
    show first ∈ s.obj.rangeSet.entries
    simp [he]
  have hbehind : ∀ r ∈ s.obj.rangeSet, r.1 ≠ first.1 → first.1 + first.2 < r.1 := fun r hr hne => by
    rcases first_lt he hr with rfl | hlt
    · exact absurd rfl hne
    · exact gapped_iff.1 hg first hmem r hr hlt
  have hpos := hI.ranges_pos first hmem
  have hlim : s.obj.limit s.mem = s.obj.pStart - recordOffset s.mem := rfl
  have hlt : recordOffset s.mem < 2 ^ 32 := readLE_lt s.mem 20 4
  split
  case isFalse hc =>
    refine ⟨hg, fun hoff r hr => ?_⟩
    have hin := hI.range_in hmem
    by_cases hr1 : r.1 = first.1
    · exact fun heq => hc ⟨hoff, hr1 ▸ heq⟩
    · have := hbehind r hr hr1
      show r.1 ≠ s.obj.limit s.mem
      omega
  rename_i hc
  split
  · rename_i hle
    refine ⟨List.Pairwise.filter _ hg, fun _ r hr => ?_⟩
    obtain ⟨hr, hne⟩ := StdMap.mem_erase.1 hr
    have := hbehind r hr hne
    simp only [limit, recordOffset_setRecordOffset]
    omega
  · rename_i hgt
    have hnew : ∀ r ∈ s.obj.rangeSet.erase first.1, s.obj.pStart + (first.2 - recordOffset s.mem) < r.1 := by
      intro r hr
      obtain ⟨hr, hne⟩ := StdMap.mem_erase.1 hr
      have := hbehind r hr hne
      omega
    refine ⟨gapped_iff.2 fun a ha b hb hlt => ?_, fun hoff => ?_⟩
    · have hk : ∀ r ∈ s.obj.rangeSet.erase first.1, r.1 ≠ s.obj.pStart := fun r hr => by
        have := hnew r hr
        omega
      rcases (StdMap.mem_insert_new hk).1 ha with ha' | rfl
      · rcases (StdMap.mem_insert_new hk).1 hb with hb' | rfl
        · exact gapped_iff.1 hg a (StdMap.mem_erase.1 ha').1 b (StdMap.mem_erase.1 hb').1 hlt
        · have := hnew a ha'
          simp only at hlt
          omega
      · rcases (StdMap.mem_insert_new hk).1 hb with hb' | rfl
        · exact hnew b hb'
        · omega
    · simp at hoff

theorem alloced (hN : Normal s) (hI : Inv s A) (hlen : 1 ≤ len) : Normal (s.alloc len) := by
  rcases hI.alloc_found hlen with ⟨heq, -⟩ | ⟨m, h, p, hf, heq⟩
  · rw [heq]
    exact hN
  obtain ⟨-, -, -, -, hro⟩ := register_header hf.layout len hf.start
  have harea := register_area (m := m) (h := h) p len
  have hset := register_rangeSet (m := m) (h := h) p len
  rw [heq]
  clear heq
  generalize register m h p len = r at *
  have hlim : r.2.2.limit r.2.1 = h.limit m := by rw [limit, harea.pStart, hro, limit]
  rcases hf.source with ⟨rfl, itf, hi, hle, rfl, rfl⟩ | ⟨rfl, hp, -, hlim'⟩
  · refine ⟨by simp only [hset]; exact gapped_takeFrom hN.gapped hi (by omega) hle, ?_⟩
    simp only [hset, hlim, hro]
    intro hoff x hx
    have hr := hI.range_in hi
    rcases (mem_takeFrom hI.ordered hi (by omega) hle).1 hx with ⟨hx, -⟩ | ⟨hlt, rfl⟩
    · exact hN.above hoff x hx
    · unfold limit at *
      simp only
      omega
  · refine ⟨by simp only [hset]; exact hN.gapped, ?_⟩
    simp only [hset, hlim, hlim']
    intro _ x hx
    have := hI.range_in hx
    omega

theorem freed (hI : Inv s A) (hp : (p, len) ∈ s.obj.recordInfo) : Normal (s.free p) := by
  obtain ⟨i, hi⟩ := (hI.keys p).1 ⟨len, hp⟩
  have hlive := hI.info _ hp
  have hpos : 0 < len := hI.live_pos hlive
  have hnew : ∀ r ∈ s.obj.rangeSet, r.1 ≠ p := by
    intro r hr he
    have h₁ := hI.live_range hlive hr
    have h₂ := hI.ranges_pos r hr
    unfold Apart at h₁
    simp only at h₁
    omega
  have hord := ordered_insert hI.ordered hnew (fun r hr => hI.live_range hlive hr) hpos hI.ranges_pos
  have hN := pullBack (hI.released hp hi) (gapped_mergeRanges (insert_pos hpos hI.ranges_pos) hord)
  obtain ⟨m, h, hfree, rfl, rfl⟩ := Slots.free_eq (s := s) hp hi
  rw [hfree]
  exact hN

theorem written (hN : Normal s) (hI : Inv s A) {x : Int} {b : UInt8} : Normal (s.write x b) := by
  unfold Run.write
  split
  case isFalse => exact hN
  rename_i hany
  obtain ⟨blk, hblk, hx⟩ := hany
  have hro : recordOffset (Bytes.write s.mem x [b]) = recordOffset s.mem := by
    have h₁ := hI.live_in hblk
    have h₂ := hI.limit_ge
    have h₃ := hI.record_ge
    refine readLE_congr fun y _ _ => write_other (.inl ?_)
    unfold Has at hx
    omega
  refine ⟨hN.gapped, ?_⟩
  simp only [limit, hro]
  exact hN.above

end Normal

/-! ## Tiling -/

namespace Run

/-- No more blocks in use than there are record slots. -/
def WithinLimit (s : Run) : Prop := (s.live.length : Int) ≤ s.obj.getMgrBlockCountLimit s.mem

instance (s : Run) : Decidable s.WithinLimit := inferInstanceAs (Decidable (_ ≤ _))

/-- The free ranges and the blocks in use tile the memory from the squeeze limit up, and the
free ranges are joined as far as they can be. -/
structure Coalesced (s : Run) : Prop where
  live_apart : s.live.Pairwise Apart
  live_range : ∀ b ∈ s.live, ∀ r ∈ s.obj.rangeSet, Apart b r
  tiles : ∀ x, Covers s.obj.rangeSet.entries x ∨ Covers s.live x ↔ s.obj.limit s.mem ≤ x ∧ x < s.obj.nTotalLen
  positive : ∀ r ∈ s.obj.rangeSet, 0 < r.2
  gapped : ∀ a ∈ s.obj.rangeSet, ∀ b ∈ s.obj.rangeSet, a.1 < b.1 → a.1 + a.2 < b.1
  above : 0 < recordOffset s.mem → ∀ r ∈ s.obj.rangeSet, r.1 ≠ s.obj.limit s.mem

end Run

/-- The invariant of a run within the limit. -/
def Tidy (s : Run) : Prop := ∃ A, Inv s A ∧ A.Tiled ∧ Slots s ∧ Normal s

namespace Tidy

variable {s : Run}

theorem coalesced : Tidy s → s.Coalesced := by
  rintro ⟨A, hI, hT, hS, hN⟩
  refine ⟨hI.live ▸ A.apart, fun b hb r hr => hI.live_range hb hr, fun x => ⟨?_, ?_⟩, hI.ranges_pos,
    gapped_iff.1 hN.gapped, hN.above⟩
  · rintro (⟨r, hr, hx⟩ | ⟨b, hb, hx⟩)
    · have := hI.range_in hr
      unfold Has at hx
      omega
    · have := hI.live_in hb
      unfold Has at hx
      omega
  · rintro ⟨h₁, h₂⟩
    rcases hT x (hI.lo ▸ h₁) (hI.hi ▸ h₂) with hx | hx
    · exact .inl ((hI.free x).1 hx)
    · exact .inr (hI.live ▸ hx)

/-- An `Alloc` that stays within the limit finds a slot. -/
theorem slotLeft (hs : Tidy s) {op : Op} (hop : op.Legal) (hw : (s.step op).WithinLimit) : s.SlotLeft op := by
  obtain ⟨A, hI, -, hS, -⟩ := hs
  cases op with
  | alloc len =>
    intro hserved
    rcases hI.alloc_found hop with ⟨-, hno⟩ | ⟨m, h, p, hf, heq⟩
    · exact absurd hserved hno
    · have harea := register_area (m := m) (h := h) p len
      obtain ⟨-, hbl, -, -, -⟩ := register_header hf.layout len hf.start
      have hbegin : (register m h p len).2.2.hasBegin = true := harea.hasBegin.trans hf.layout.begun
      simp only [Run.step, heq, Run.WithinLimit, getMgrBlockCountLimit, hbegin, if_true, hbl, hf.blockLimit,
        List.length_cons, hS.length_live hI] at hw
      omega
  | free p => trivial
  | write p b => trivial

theorem step (hs : Tidy s) {op : Op} (hop : op.Legal) (hleft : s.SlotLeft op) : Tidy (s.step op) := by
  obtain ⟨A, hI, hT, hS, hN⟩ := hs
  have hS' := hS.step hI hop hleft
  cases op with
  | alloc len =>
    obtain ⟨A', hI', hT'⟩ := hI.alloced hop
    exact ⟨A', hI', hT' hT, hS', hN.alloced hI hop⟩
  | free p =>
    by_cases hp : ∃ len, (p, len) ∈ s.obj.recordInfo
    · obtain ⟨len, hp⟩ := hp
      obtain ⟨A', hI', hT', -⟩ := hI.freed hp
      exact ⟨A', hI', hT' hT, hS', Normal.freed hI hp⟩
    · have hsame : s.step (.free p) = s := hS.not_freed fun x hx he => hp ⟨x.2, he ▸ hx⟩
      rw [hsame]
      exact ⟨A, hI, hT, hS, hN⟩
  | write p b => exact ⟨A, hI.written, hT, hS', hN.written hI⟩

/-- With nothing in use, all the memory is one free range, from `m_pStart` on. -/
theorem all_free (hs : Tidy s) (hlive : s.live = []) (hlt : s.obj.pStart < s.obj.nTotalLen) :
    s.obj.rangeSet.entries = [(s.obj.pStart, s.obj.nTotalLen - s.obj.pStart)] ∧ recordOffset s.mem = 0 ∧
      s.obj.usedFlags s.mem = [] ∧ useCount s.mem = 0 := by
  have hC := hs.coalesced
  obtain ⟨A, hI, -, hS, hN⟩ := hs
  have hlim : s.obj.limit s.mem = s.obj.pStart - recordOffset s.mem := rfl
  have htiles : ∀ x, Covers s.obj.rangeSet.entries x ↔ s.obj.limit s.mem ≤ x ∧ x < s.obj.nTotalLen := fun x => by
    have := hC.tiles x
    simp only [hlive, covers_nil, or_false] at this
    exact this
  have hone := hN.gapped.eq_singleton hI.ranges_pos (by omega) htiles
  have hoff : recordOffset s.mem = 0 := by
    by_contra hne
    have hmem : (s.obj.limit s.mem, s.obj.nTotalLen - s.obj.limit s.mem) ∈ s.obj.rangeSet.entries := by simp [hone]
    exact hN.above (by omega) _ hmem rfl
  have hcount : useCount s.mem = 0 := by
    have := hS.length_live hI
    simpa [hlive] using this.symm
  refine ⟨?_, hoff, List.length_eq_zero_iff.1 (hS.length_usedFlags.trans hcount), hcount⟩
  rw [hone, hlim, hoff]
  simp

end Tidy

section Formatted

variable {area m : Mem} {h : XStaticAlloc} {nLen : Int} {ops : List Op}

theorem tidy_of_formatted (hF : Formatted nLen m h) (h₁ : 24 < nLen) (h₂ : nLen < 2 ^ 31) : Tidy ⟨m, h, []⟩ := by
  obtain ⟨A, hI, hT⟩ := inv_of_formatted hF h₁ h₂
  have hrange : h.rangeSet.entries = [(h.pStart, nLen - h.pStart)] := by rw [hF.rangeSet]; rfl
  refine ⟨A, hI, hT, slots_of_formatted hF, ?_, ?_⟩
  · simp only [hrange]
    exact List.pairwise_singleton _ _
  · simp [hF.recordOffset]

theorem tidy_run (hF : Formatted nLen m h) (h₁ : 24 < nLen) (h₂ : nLen < 2 ^ 31)
    (hops : Steps.Along Run.step (fun s op => op.Legal ∧ (s.step op).WithinLimit) ⟨m, h, []⟩ ops) :
    Tidy (Run.run ⟨m, h, []⟩ ops) ∧ SameArea h (Run.run ⟨m, h, []⟩ ops).obj :=
  hops.run (fun s => Tidy s ∧ SameArea h s.obj)
    ⟨tidy_of_formatted hF h₁ h₂, ⟨rfl, rfl, rfl, rfl, rfl⟩⟩ fun s op hs hop =>
    ⟨hs.1.step hop.1 (hs.1.slotLeft hop.1 hop.2), hs.2.trans (s.step_area op)⟩

/-- A run within the limit loses nothing and coalesces fully, and when every block has been
freed its ranges, its record offset, its flags and its count are those of the formatted area. -/
theorem coalesced_run (hinit : init (some area) new nLen = (0, some m, h)) (h₂ : nLen < 2 ^ 31)
    (hslots : 1 ≤ slotCount nLen)
    (hops : Steps.Along Run.step (fun s op => op.Legal ∧ (s.step op).WithinLimit) ⟨m, h, []⟩ ops) {s : Run}
    (hs : Run.run ⟨m, h, []⟩ ops = s) :
    s.Coalesced ∧ (s.live = [] → s.obj.rangeSet = h.rangeSet ∧ recordOffset s.mem = recordOffset m ∧
      s.obj.getUseCount s.mem = h.getUseCount m ∧ flagCount s.mem = flagCount m ∧
      ∀ i < flagCount m, s.obj.flag s.mem i = h.flag m i) := by
  have h₁ : 24 < nLen := by
    unfold slotCount at hslots
    omega
  have hF := init_formatted hinit (by omega) h₂
  have hfits := slotCount_fits (show 24 ≤ nLen by omega)
  obtain ⟨hT, harea⟩ := tidy_run hF h₁ h₂ hops
  rw [hs] at hT harea
  refine ⟨hT.coalesced, fun hlive => ?_⟩
  obtain ⟨hrange, hoff, hused, hcount⟩ := hT.all_free hlive (by
    rw [harea.pStart, harea.nTotalLen, hF.nTotalLen, hF.pStart, hF.pRecordStart]
    omega)
  obtain ⟨A, hI, -⟩ := hT
  have hflags : flagCount s.mem = flagCount m := by
    have h₁ := hI.layout.recordStart
    have h₂ := (layout_of_formatted hF (by omega) h₂).recordStart
    rw [harea.pRecordStart] at h₁
    unfold flagCount
    omega
  refine ⟨StdMap.ext_mem fun x => ?_, hoff.trans hF.recordOffset.symm, ?_, hflags, fun i hi => ?_⟩
  · rw [← StdMap.mem_entries, hrange, hF.rangeSet, harea.pStart, harea.nTotalLen, hF.nTotalLen]
    simp [StdMap.mem_insert]
  · simp [getUseCount, hI.layout.begun, hF.hasBegin, hcount, hF.useCount]
  · rw [hF.flags i hi]
    have hnot : i ∉ s.obj.usedFlags s.mem := by simp [hused]
    simpa [mem_usedFlags, hflags, hi] using hnot

/-- Three of the four blocks come from below `m_pStart`; freed out of order, they leave the
area as it was formatted. -/
theorem coalesced_run_squeeze : ∃ s, (Run.formatted 134).run [.alloc 10, .alloc 20, .alloc 20, .alloc 14, .free 101,
      .free 67, .free 121, .free 81] = s ∧
    s.Coalesced ∧ (s.live = [] → s.obj.rangeSet = (formatted 134).2.rangeSet ∧
      recordOffset s.mem = recordOffset (formatted 134).1 ∧
      s.obj.getUseCount s.mem = (formatted 134).2.getUseCount (formatted 134).1 ∧
      flagCount s.mem = flagCount (formatted 134).1 ∧
      ∀ i < flagCount (formatted 134).1, s.obj.flag s.mem i = (formatted 134).2.flag (formatted 134).1 i) :=
  ⟨_, rfl, coalesced_run (init_zeros (by decide)) (by decide) (by decide) (by decide +kernel) rfl⟩

end Formatted

end XStaticAlloc
