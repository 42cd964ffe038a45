/-
What `Refresh`, and `Init` of a second handle, rebuild from the bytes of the area.

The records give back the two maps (`refresh_eq`). The free ranges are computed
from the gaps between the blocks, and the loop over them forgets one: the gap
before the last block when there are two or more, the gap behind the block when
there is only one (`lostGap`). So the ranges rebuilt are those of the handle
exactly when that gap is empty (`persistent_run`).
-/
import XFramework.Mem.StaticAllocGaps
import XFramework.Mem.StaticAllocSeparation
import XFramework.Mem.StaticAllocTiling

open Bytes Span

namespace XStaticAlloc

variable {m : Mem} {h : XStaticAlloc}

/-! ## Reading the records -/

/-- The reading loop only inserts into the maps, for every flag that is set. -/
theorem foldl_loadSlot (l : List Nat) : l.foldl (loadSlot m) h =
    { h with
      recordMap := h.recordMap.insertAll ((l.filter (h.flag m)).map fun i => (toInt (h.record m i).1, i))
      recordInfo := h.recordInfo.insertAll
        ((l.filter (h.flag m)).map fun i => (toInt (h.record m i).1, toInt (h.record m i).2)) } := by
  induction l generalizing h with
  | nil => rfl
  | cons i l ih =>
    rw [List.foldl_cons, ih]
    by_cases hi : h.flag m i = true
    · simp only [loadSlot, hi, if_true, List.filter_cons, List.map_cons, StdMap.insertAll_cons]
      rfl
    · simp only [loadSlot, hi, List.filter_cons]
      rfl

theorem toInt_of_lt {n : Nat} (hn : n < 2 ^ 31) : toInt n = n := by
  unfold toInt
  rw [Int.bmod_eq_of_le] <;> omega

/-- The record of every block in use can be read back. -/
def Recorded (s : Run) : Prop := ∀ p i, (p, i) ∈ s.obj.recordMap → ∃ len, (p, len) ∈ s.obj.recordInfo ∧
  toInt (s.obj.record s.mem i).1 = p ∧ toInt (s.obj.record s.mem i).2 = len

namespace Recorded

variable {s : Run} {A : Arena} {len p : Int}

section Found

variable {m : Mem} {h : XStaticAlloc} {i : Nat}

/-- The record `Alloc` has just written. -/
theorem record_new (hB : RecordsBelow s) (hS : Slots s) (hI : Inv s A) (hlen : 1 ≤ len)
    (hclear : s.SlotClear (.alloc len)) (hf : Inv.Found s len m h p) :
    s.obj.record (register m h p len).2.1 (s.obj.newIndex s.mem) = (p.toNat, len.toNat) := by
  obtain ⟨hi, -, -⟩ := hS.newIndex_eq hI (hclear hf.served).1
  have hslot := hB.below_found hS hI hclear hf (.inl rfl)
  have hfits := hI.found_fits hlen hf
  have htotal := hI.layout.total
  have hge := hI.record_ge
  have hle := hf.limit_le
  have hrec := hf.start
  have hstart := hf.area.pRecordStart
  rw [← hf.newIndex, ← record_congr_area hf.area]
  rw [← hf.newIndex, ← slotAddr_congr hf.area] at hslot
  rw [← hf.newIndex, ← hf.blockLimit] at hi
  exact register_record hf.layout hi (by omega) (by omega) ⟨by omega, by omega⟩

/-- It leaves the other records as they were. -/
theorem record_old (hB : RecordsBelow s) (hS : Slots s) (hI : Inv s A) (hclear : s.SlotClear (.alloc len))
    (hf : Inv.Found s len m h p) (hi : i ∈ s.obj.usedFlags s.mem) :
    s.obj.record (register m h p len).2.1 i = s.obj.record s.mem i := by
  obtain ⟨-, hoff, -⟩ := hS.newIndex_eq hI (hclear hf.served).1
  have hslot := hB.below_found hS hI hclear hf (.inr hi)
  have hne : i ≠ s.obj.newIndex s.mem := fun he => by
    have := (mem_usedFlags.1 hi).2
    rw [← he] at hoff
    simp [this] at hoff
  have hap := slotAddr_apart (h := s.obj) hne
  have hge := hI.record_ge
  have hle := hf.limit_le
  have hrec := hf.area.pRecordStart
  refine record_congr fun x hx₁ hx₂ => ?_
  have hx : s.obj.pRecordStart ≤ x := by
    unfold slotAddr at hx₁
    omega
  have hbytes := register_bytes (x := x) hf.layout p len (.inr (by omega)) (.inr (by omega))
    (fun _ => by rw [hf.newIndex, slotAddr_congr hf.area]; omega) (.inl (by omega))
  rw [hbytes, hf.bytes x (.inr (by omega))]

theorem alloced (hR : Recorded s) (hB : RecordsBelow s) (hS : Slots s) (hI : Inv s A) (hlen : 1 ≤ len)
    (hclear : s.SlotClear (.alloc len)) : Recorded (s.alloc len) := by
  rcases hI.alloc_found hlen with ⟨heq, -⟩ | ⟨m, h, p, hf, heq⟩
  · rw [heq]
    exact hR
  obtain ⟨hi, -, -⟩ := hS.newIndex_eq hI (hclear hf.served).1
  obtain ⟨h₁, h₂⟩ := hI.fresh hf.fresh
  have hnew := record_new hB hS hI hlen hclear hf
  have hold := fun i => record_old (i := i) hB hS hI hclear hf
  have hfits := hI.found_fits hlen hf
  have htotal := hI.layout.total
  have hge := hI.record_ge
  have hstart := hf.area.pRecordStart
  have hle := hf.start
  have harea := hf.area.trans (register_area (m := m) (h := h) p len)
  have hreg := register_eq hf.layout p len
  rw [hf.newIndex, hf.blockLimit, if_pos hi] at hreg
  have hmap : (register m h p len).2.2.recordMap = s.obj.recordMap.insert p (s.obj.newIndex s.mem) := by
    rw [hreg, hf.map]
  have hinfo : (register m h p len).2.2.recordInfo = s.obj.recordInfo.insert p len := by rw [hreg, hf.info]
  rw [heq]
  clear heq hreg
  generalize register m h p len = r at *
  intro q j hq
  simp only [hmap, StdMap.mem_insert_new h₂, Prod.mk.injEq] at hq
  simp only [hinfo, StdMap.mem_insert_new h₁, record_congr_area harea]
  rcases hq with hq | ⟨rfl, rfl⟩
  · obtain ⟨n, hn, hr⟩ := hR q j hq
    rw [hold j (hS.index_used hq)]
    exact ⟨n, .inl hn, hr⟩
  · refine ⟨len, .inr rfl, ?_, ?_⟩
    · rw [hnew, toInt_of_lt (by omega)]
      omega
    · rw [hnew, toInt_of_lt (by omega)]
      omega

end Found

theorem freed (hR : Recorded s) (hI : Inv s A) (hp : (p, len) ∈ s.obj.recordInfo) : Recorded (s.free p) := by
  obtain ⟨i, hi⟩ := (hI.keys p).1 ⟨len, hp⟩
  obtain ⟨m, h, hfree, -, hh⟩ := Slots.free_eq hp hi
  have hmap : (s.free p).obj.recordMap = s.obj.recordMap.erase p := by rw [hfree, pullBack_maps.1, hh]
  have hinfo : (s.free p).obj.recordInfo = s.obj.recordInfo.erase p := by rw [hfree, pullBack_maps.2, hh]
  have hrecord : ∀ j, (s.free p).obj.record (s.free p).mem j = s.obj.record s.mem j := fun j => by
    have harea : SameArea s.obj (s.free p).obj := s.step_area (.free p)
    rw [record_congr_area harea]
    refine record_congr fun x hx _ => RecordsBelow.free_other hI ?_
    unfold slotAddr at hx
    omega
  intro q j hq
  rw [hmap, StdMap.mem_erase] at hq
  obtain ⟨n, hn, hr⟩ := hR q j hq.1
  rw [hinfo, hrecord]
  exact ⟨n, StdMap.mem_erase.2 ⟨hn, hq.2⟩, hr⟩

theorem written (hR : Recorded s) (hB : RecordsBelow s) (hS : Slots s) (hI : Inv s A) {v : UInt8} :
    Recorded (s.write p v) := by
  have hobj : (s.write p v).obj = s.obj := by
    unfold Run.write
    split <;> rfl
  intro q j hq
  rw [hobj] at hq ⊢
  obtain ⟨n, hn, hr⟩ := hR q j hq
  have hsame : s.obj.record (s.write p v).mem j = s.obj.record s.mem j :=
    record_congr fun x h₁ h₂ => hB.write_frame hI (hS.index_used hq) ⟨h₁, h₂⟩
  rw [hsame]
  exact ⟨n, hn, hr⟩

theorem step (hR : Recorded s) (hB : RecordsBelow s) (hS : Slots s) (hI : Inv s A) {op : Op} (hop : op.Legal)
    (hclear : s.SlotClear op) : Recorded (s.step op) := by
  cases op with
  | alloc len => exact hR.alloced hB hS hI hop hclear
  | free p =>
    by_cases hp : ∃ len, (p, len) ∈ s.obj.recordInfo
    · obtain ⟨len, hp⟩ := hp
      exact hR.freed hI hp
    · have hsame : s.step (.free p) = s := hS.not_freed fun x hx he => hp ⟨x.2, he ▸ hx⟩
      rw [hsame]
      exact hR
  | write p b => exact hR.written hB hS hI

end Recorded

/-- `Refresh` rebuilds everything but the free ranges, which it computes from the blocks. -/
theorem refresh_eq {s : Run} (hL : Layout s.mem s.obj) (hS : Slots s) (hR : Recorded s)
    (hk : ∀ p, (∃ n, (p, n) ∈ s.obj.recordInfo) → ∃ i, (p, i) ∈ s.obj.recordMap) :
    refresh s.mem s.obj = { s.obj with
      rangeSet := loadRanges s.obj.pStart s.obj.nTotalLen .empty s.obj.recordInfo.entries } := by
  have hrec : ∀ i ∈ s.obj.usedFlags s.mem, ∃ p len, (p, i) ∈ s.obj.recordMap ∧ (p, len) ∈ s.obj.recordInfo ∧
      toInt (s.obj.record s.mem i).1 = p ∧ toInt (s.obj.record s.mem i).2 = len := fun i hi => by
    obtain ⟨⟨p, j⟩, hx, rfl⟩ := List.mem_map.1 (hS.flags.symm.subset hi)
    obtain ⟨len, h₁, h₂, h₃⟩ := hR p j hx
    exact ⟨p, len, hx, h₁, h₂, h₃⟩
  have hkeys : ((s.obj.usedFlags s.mem).map fun i => toInt (s.obj.record s.mem i).1).Nodup := by
    refine List.Nodup.map_on (fun i hi j hj he => ?_) nodup_usedFlags
    obtain ⟨p, _, hp, -, h₁, -⟩ := hrec i hi
    obtain ⟨q, _, hq, -, h₂, -⟩ := hrec j hj
    have hpq : p = q := by rw [← h₁, ← h₂, he]
    exact StdMap.mem_unique (hpq ▸ hp) hq
  have hmap : StdMap.insertAll .empty ((s.obj.usedFlags s.mem).map fun i => (toInt (s.obj.record s.mem i).1, i)) =
      s.obj.recordMap := by
    refine StdMap.ext_mem fun x => ?_
    rw [StdMap.mem_insertAll (by simpa only [List.map_map, Function.comp_def] using hkeys) (by simp), List.mem_map]
    refine ⟨?_, ?_⟩
    · rintro (hx | ⟨i, hi, rfl⟩)
      · exact absurd hx StdMap.not_mem_empty
      · obtain ⟨p, _, hp, -, h₁, -⟩ := hrec i hi
        exact h₁ ▸ hp
    · intro hx
      obtain ⟨p, i⟩ := x
      obtain ⟨len, -, h₁, -⟩ := hR p i hx
      exact .inr ⟨i, hS.index_used hx, by rw [h₁]⟩
  have hinfo : StdMap.insertAll .empty ((s.obj.usedFlags s.mem).map fun i =>
      (toInt (s.obj.record s.mem i).1, toInt (s.obj.record s.mem i).2)) = s.obj.recordInfo := by
    refine StdMap.ext_mem fun x => ?_
    rw [StdMap.mem_insertAll (by simpa only [List.map_map, Function.comp_def] using hkeys) (by simp), List.mem_map]
    refine ⟨?_, ?_⟩
    · rintro (hx | ⟨i, hi, rfl⟩)
      · exact absurd hx StdMap.not_mem_empty
      · obtain ⟨p, len, -, hp, h₁, h₂⟩ := hrec i hi
        rw [h₁, h₂]
        exact hp
    · intro hx
      obtain ⟨p, len⟩ := x
      obtain ⟨i, hi⟩ := hk p ⟨len, hx⟩
      obtain ⟨len', h₀, h₁, h₂⟩ := hR p i hi
      exact .inr ⟨i, hS.index_used hi, by rw [h₁, h₂, StdMap.mem_unique h₀ hx]⟩
  have hbase : { s.obj with
      recordMap := StdMap.empty, recordInfo := StdMap.empty, rangeSet := StdMap.empty, pFlagStart := 24,
      pRecordStart := 24 + (flagLen s.mem : Int), pStart := 24 + (flagLen s.mem : Int) + recordLen s.mem } =
      { s.obj with recordMap := StdMap.empty, recordInfo := StdMap.empty, rangeSet := StdMap.empty } := by
    rw [← hL.recordStart, ← hL.start, ← hL.flagStart]
  simp only [refresh, loadBlockArea]
  rw [hbase, foldl_loadSlot]
  -- the maps do not matter for reading a flag or a record
  have hused : (List.range (flagCount s.mem)).filter (flag s.mem { s.obj with
      recordMap := StdMap.empty, recordInfo := StdMap.empty, rangeSet := StdMap.empty }) = s.obj.usedFlags s.mem := rfl
  have hrecord : record s.mem { s.obj with
      recordMap := StdMap.empty, recordInfo := StdMap.empty, rangeSet := StdMap.empty } = s.obj.record s.mem := rfl
  simp only [hused, hrecord, hmap, hinfo]

/-! ## The free ranges -/

section Ranges

variable {s : Run} {A : Arena} {first : Span} {rest : List Span}

theorem blocks_of_slots (hS : Slots s) (hI : Inv s A) : Blocks s.obj.nTotalLen s.obj.recordInfo.entries where
  ordered := by
    refine ordered_iff.2 fun a ha b hb hlt => ?_
    have ha' := (hS.live a).2 ha
    have hb' := (hS.live b).2 hb
    have hap := A.live_apart (hI.live ▸ ha') (hI.live ▸ hb') fun he => by simp [he] at hlt
    have := hI.live_pos hb'
    unfold Apart at hap
    omega
  pos := fun b hb => hI.live_pos ((hS.live b).2 hb)
  le := fun b hb => (hI.live_in ((hS.live b).2 hb)).2

/-- The gap the reading loop passes over is empty: no block is in use, or there is one and it
ends where the area ends, or the last two are adjacent. -/
def Run.NoGapLost (s : Run) : Prop :=
  match s.obj.recordInfo.entries with
  | [] => True
  | first :: rest => (lostGap s.obj.nTotalLen first rest).2 = 0

instance (s : Run) : Decidable s.NoGapLost := by
  unfold Run.NoGapLost
  cases s.obj.recordInfo.entries <;> infer_instance

/-- The ranges cover what lies behind the limit and in no live block. -/
theorem Run.Coalesced.covers_iff (hC : s.Coalesced) (x : Int) : Covers s.obj.rangeSet.entries x ↔
    s.obj.limit s.mem ≤ x ∧ x < s.obj.nTotalLen ∧ ¬ Covers s.live x := by
  rw [← and_assoc, ← hC.tiles x]
  refine ⟨?_, ?_⟩
  · rintro ⟨r, hr, hx⟩
    refine ⟨.inl ⟨r, hr, hx⟩, ?_⟩
    rintro ⟨b, hb, hxb⟩
    exact (hC.live_range b hb r hr).not_has hxb hx
  · rintro ⟨hx | hx, hnot⟩
    · exact hx
    · exact absurd hx hnot

/-- The live blocks are those of `recordInfo`. -/
theorem covers_live (hS : Slots s) (he : s.obj.recordInfo.entries = first :: rest) (x : Int) :
    Covers s.live x ↔ Has first x ∨ Covers rest x := by
  rw [← covers_cons, ← he]
  unfold Covers
  simp only [hS.live, StdMap.mem_entries]

/-- Below the first block nothing is free, unless the limit is at `m_pStart`. -/
theorem limit_eq_start (hI : Inv s A) (hN : Normal s) (hC : s.Coalesced) (hB : Blocks s.obj.nTotalLen (first :: rest))
    (hlive : ∀ y, Covers s.live y ↔ Has first y ∨ Covers rest y) (hlt : s.obj.limit s.mem < first.1) :
    s.obj.limit s.mem = s.obj.pStart := by
  have hpos := hB.pos first List.mem_cons_self
  have hle := hB.le first List.mem_cons_self
  have hnot : ¬ Covers s.live (s.obj.limit s.mem) := by
    rw [hlive]
    rintro (hx | hx)
    · unfold Has at hx
      omega
    · have := hB.covered_le hx
      omega
  rcases (hC.tiles _).2 ⟨Int.le_refl _, by omega⟩ with ⟨r, hr, hx⟩ | hx
  · have hr' := hI.range_in hr
    unfold Has at hx
    by_contra hne
    refine hN.above ?_ r hr (by omega)
    unfold limit at hne
    omega
  · exact absurd hx hnot

/-- The free ranges of a state in normal form, by its blocks. -/
theorem Tidy.covers_ranges (hT : Tidy s) (he : s.obj.recordInfo.entries = first :: rest) (x : Int) :
    Covers s.obj.rangeSet.entries x ↔ (s.obj.pStart ≤ x ∧ x < first.1) ∨
      (first.1 + first.2 ≤ x ∧ x < s.obj.nTotalLen ∧ ¬ Covers rest x) := by
  have hC := hT.coalesced
  obtain ⟨A, hI, -, hS, hN⟩ := hT
  have hB : Blocks s.obj.nTotalLen (first :: rest) := he ▸ blocks_of_slots hS hI
  have hlive := covers_live hS he
  have hin := hI.live_in ((hS.live first).2 (by show first ∈ s.obj.recordInfo.entries; simp [he]))
  have hpos := hB.pos first List.mem_cons_self
  have hle := hB.le first List.mem_cons_self
  have hlim : s.obj.limit s.mem ≤ s.obj.pStart := by
    unfold limit
    omega
  rw [hC.covers_iff, hlive]
  refine ⟨?_, ?_⟩
  · rintro ⟨h₁, h₂, hnot⟩
    by_cases hlt : x < first.1
    · have := limit_eq_start hI hN hC hB hlive (by omega)
      exact .inl ⟨by omega, hlt⟩
    · have hnf : ¬ Has first x := fun hx => hnot (.inl hx)
      unfold Has at hnf
      exact .inr ⟨by omega, h₂, fun hx => hnot (.inr hx)⟩
  · rintro (⟨h₁, h₂⟩ | ⟨h₁, h₂, hnot⟩)
    · refine ⟨by omega, by omega, ?_⟩
      rintro (hx | hx)
      · unfold Has at hx
        omega
      · have := hB.covered_le hx
        omega
    · refine ⟨by omega, h₂, ?_⟩
      rintro (hx | hx)
      · unfold Has at hx
        omega
      · exact hnot hx

/-- The ranges rebuilt are the ranges held exactly when no gap is lost. -/
theorem Tidy.loadRanges_eq_iff (hT : Tidy s) (hlt : s.obj.pStart < s.obj.nTotalLen) :
    loadRanges s.obj.pStart s.obj.nTotalLen .empty s.obj.recordInfo.entries = s.obj.rangeSet ↔ s.NoGapLost := by
  cases he : s.obj.recordInfo.entries with
  | nil =>
    have hlive : s.live = [] := by
      obtain ⟨A, hI, -, hS, hN⟩ := hT
      refine List.eq_nil_iff_forall_not_mem.2 fun b hb => ?_
      have : b ∈ s.obj.recordInfo.entries := (hS.live b).1 hb
      simp [he] at this
    refine iff_of_true (StdMap.ext_mem fun x => ?_) (by simp [Run.NoGapLost, he])
    rw [← StdMap.mem_entries (m := s.obj.rangeSet), (hT.all_free hlive hlt).1]
    simp [loadRanges, StdMap.mem_insert]
  | cons first rest =>
    have hcov := hT.covers_ranges he
    obtain ⟨A, hI, -, hS, hN⟩ := hT
    have hB : Blocks s.obj.nTotalLen (first :: rest) := he ▸ blocks_of_slots hS hI
    obtain ⟨hg, hpos, hc⟩ := loadRanges_spec s.obj.pStart hB
    obtain ⟨hnonneg, hlost⟩ := lostGap_in hB
    rw [Run.NoGapLost, he]
    simp only
    refine ⟨?_, ?_⟩
    · intro heq
      by_contra hne
      -- the first address of the lost gap is free, and not in the ranges rebuilt
      have hhas : Has (lostGap s.obj.nTotalLen first rest) (lostGap s.obj.nTotalLen first rest).1 :=
        ⟨Int.le_refl _, by omega⟩
      have hfree := (hcov _).2 (.inr (hlost _ hhas))
      rw [← heq, hc] at hfree
      rcases hfree with hx | hx
      · have := (hlost _ hhas).1
        have := hB.pos first List.mem_cons_self
        omega
      · exact hx.2.2.2 hhas
    · intro hzero
      have hnone : ∀ x, ¬ Has (lostGap s.obj.nTotalLen first rest) x := fun x hx => by
        unfold Has at hx
        omega
      have hsame : ∀ x, Covers (loadRanges s.obj.pStart s.obj.nTotalLen .empty (first :: rest)).entries x ↔
          Covers s.obj.rangeSet.entries x := fun x => by
        rw [hc, hcov]
        simp only [hnone, not_false_iff, and_true]
      refine StdMap.ext_mem fun r => ?_
      rw [← StdMap.mem_entries, ← StdMap.mem_entries, hg.mem_iff hpos, hN.gapped.mem_iff hI.ranges_pos]
      simp only [hsame]

end Ranges

/-! ## What the area tells of a run -/

/-- The bytes of the area tell the blocks in use: every record is whole, and the identifier stands. -/
structure Stored (s : Run) : Prop where
  slots : Slots s
  below : RecordsBelow s
  recorded : Recorded s
  identifier : read s.mem 0 8 = symbol

namespace Stored

variable {s : Run} {A : Arena} {len p : Int}

/-- No step writes before the count. -/
theorem step_identifier (hI : Inv s A) {op : Op} (hop : op.Legal) : read (s.step op).mem 0 8 = read s.mem 0 8 := by
  have hge := hI.record_ge
  refine read_congr fun x _ hx => ?_
  cases op with
  | alloc len =>
    rcases hI.alloc_found hop with ⟨heq, -⟩ | ⟨m, h, p, hf, heq⟩
    · rw [Run.step, heq]
    · have hstart := hf.start
      have hrec := hf.layout.recordStart
      rw [Run.step, heq]
      simp only
      rw [register_bytes hf.layout p len (.inl (by omega)) (.inl (by omega)) (fun _ => .inl (by unfold slotAddr; omega))
        (.inl (by omega)), hf.bytes x (.inl (by omega))]
  | free p =>
    by_cases hp : ∃ len, (p, len) ∈ s.obj.recordInfo
    · obtain ⟨len, hp⟩ := hp
      obtain ⟨i, hi⟩ := (hI.keys p).1 ⟨len, hp⟩
      have hslot : i < blockLimit s.mem := hI.slots _ hi
      have hfl := hI.layout.flagAddr_lt (Nat.lt_of_lt_of_le hslot hI.layout.flags)
      obtain ⟨m, h, hfree, hm, -⟩ := Slots.free_eq (s := s) hp hi
      rw [Run.step, hfree]
      simp only
      rw [pullBack_other (.inl (by omega)), hm, setUseCount_other (.inl (by omega)), clearFlag_other (by omega)]
    · have hnone : s.obj.recordInfo.find? p = none := StdMap.find?_eq_none.2 fun y hy he => hp ⟨y.2, he ▸ hy⟩
      simp only [Run.step, Run.free, XStaticAlloc.free, hnone]
  | write p b =>
    show (s.write p b).mem x = s.mem x
    unfold Run.write
    split
    case isFalse => rfl
    rename_i hany
    obtain ⟨blk, hblk, hp⟩ := hany
    have hin := hI.live_in hblk
    have hlim := hI.limit_ge
    unfold Has at hp
    exact write_other (.inl (by omega))

theorem step (hs : Stored s) (hI : Inv s A) {op : Op} (hop : op.Legal) (hclear : s.SlotClear op) :
    Stored (s.step op) where
  slots := hs.slots.step hI hop hclear.slotLeft
  below := hs.below.step hs.slots hI hop hclear
  recorded := hs.recorded.step hs.below hs.slots hI hop hclear
  identifier := (step_identifier hI hop).trans hs.identifier

theorem of_formatted {m : Mem} {h : XStaticAlloc} {nLen : Int} (hF : Formatted nLen m h) : Stored ⟨m, h, []⟩ where
  slots := slots_of_formatted hF
  below := fun i hi => by
    obtain ⟨hlt, hflag⟩ := mem_usedFlags.1 hi
    simp [hF.flags i hlt] at hflag
  recorded := fun p i hp => by simp [hF.recordMap] at hp
  identifier := hF.symbol

/-- A handle that `Init` sets up on the area is in the state `Refresh` leaves. -/
theorem init_eq {m : Mem} {h : XStaticAlloc} (hsym : read m 0 8 = symbol) (hb : h.hasBegin = true)
    (hpos : 0 < h.nTotalLen) : init (some m) new h.nTotalLen = (1, some m, refresh m h) := by
  have hc : ¬(h.nTotalLen ≤ 0 ∨ new.hasBegin = true ∨ 0 < new.nTotalLen) := by
    simp [new]
    omega
  have hraw : ¬ isRawBlockArea m = true := by simp [isRawBlockArea, hsym]
  simp only [init, if_neg hc, if_neg hraw, refresh, loadBlockArea, hb]

end Stored

/-! ## Persistence in a run -/

/-- Two handles hold the same blocks and the same free ranges. -/
structure SameMaps (h h' : XStaticAlloc) : Prop where
  recordMap : h'.recordMap = h.recordMap
  recordInfo : h'.recordInfo = h.recordInfo
  rangeSet : h'.rangeSet = h.rangeSet

/-- `Refresh`, and `Init` of a second handle, find in the area what the handle holds. -/
def Run.Persistent (s : Run) : Prop :=
  SameMaps s.obj (refresh s.mem s.obj) ∧ (init (some s.mem) new s.obj.nTotalLen).1 = 1 ∧
    SameMaps s.obj (init (some s.mem) new s.obj.nTotalLen).2.2

section Formatted

variable {area m : Mem} {h : XStaticAlloc} {nLen : Int} {ops : List Op} {s : Run}

theorem persistent_iff (hL : Layout s.mem s.obj) (hs : Stored s) (hpos : 0 < s.obj.nTotalLen)
    (hk : ∀ p, (∃ n, (p, n) ∈ s.obj.recordInfo) → ∃ i, (p, i) ∈ s.obj.recordMap) :
    s.Persistent ↔
      loadRanges s.obj.pStart s.obj.nTotalLen .empty s.obj.recordInfo.entries = s.obj.rangeSet := by
  unfold Run.Persistent
  rw [Stored.init_eq hs.identifier hL.begun hpos, refresh_eq hL hs.slots hs.recorded hk]
  refine ⟨?_, ?_⟩
  · exact fun h => h.1.rangeSet
  · exact fun h => ⟨⟨rfl, rfl, h⟩, rfl, ⟨rfl, rfl, h⟩⟩

/-- In a run whose record slots stay below the squeeze limit, the area gives back the blocks and
the free ranges exactly when no gap is lost. -/
theorem persistent_run (hinit : init (some area) new nLen = (0, some m, h)) (h₁ : 24 ≤ nLen) (h₂ : nLen < 2 ^ 31)
    (hops : Steps.Along Run.step (fun s op => op.Legal ∧ s.SlotClear op) ⟨m, h, []⟩ ops) :
    (Run.run ⟨m, h, []⟩ ops).Persistent ↔ (Run.run ⟨m, h, []⟩ ops).NoGapLost := by
  have hF := init_formatted hinit h₁ h₂
  rcases Int.le_iff_lt_or_eq.1 h₁ with h₁ | rfl
  · have hfits := slotCount_fits (show 24 ≤ nLen by omega)
    obtain ⟨hT, hs, harea⟩ : Tidy (Run.run ⟨m, h, []⟩ ops) ∧ Stored (Run.run ⟨m, h, []⟩ ops) ∧
        SameArea h (Run.run ⟨m, h, []⟩ ops).obj := by
      refine hops.run (fun s => Tidy s ∧ Stored s ∧ SameArea h s.obj)
        ⟨tidy_of_formatted hF h₁ h₂, .of_formatted hF, ⟨rfl, rfl, rfl, rfl, rfl⟩⟩ fun s op hs hop => ?_
      obtain ⟨A, hI, -⟩ := hs.1
      exact ⟨hs.1.step hop.1 hop.2.slotLeft, hs.2.1.step hI hop.1 hop.2, hs.2.2.trans (s.step_area op)⟩
    have hlt : (Run.run ⟨m, h, []⟩ ops).obj.pStart < (Run.run ⟨m, h, []⟩ ops).obj.nTotalLen := by
      rw [harea.pStart, harea.nTotalLen, hF.nTotalLen, hF.pStart, hF.pRecordStart]
      omega
    have hpos : 0 < (Run.run ⟨m, h, []⟩ ops).obj.nTotalLen := by
      rw [harea.nTotalLen, hF.nTotalLen]
      omega
    obtain ⟨A, hI, -⟩ := id hT
    rw [persistent_iff hI.layout hs hpos fun p hp => (hI.keys p).1 hp]
    exact hT.loadRanges_eq_iff hlt
  · rw [run_of_header hF (Steps.Along.mem (hops.imp fun _ _ h => h.1))]
    have hpos : 0 < h.nTotalLen := by
      rw [hF.nTotalLen]
      decide
    rw [persistent_iff (layout_of_formatted hF (by decide) (by decide)) (.of_formatted hF) hpos (by simp [hF.recordInfo])]
    refine iff_of_true ?_ (by simp [Run.NoGapLost, hF.recordInfo])
    simp only [hF.recordInfo, hF.rangeSet, hF.nTotalLen, StdMap.entries_empty, loadRanges]

/-- Two squeezed blocks and one above, the last two adjacent. -/
theorem persistent_run_adjacent :
    ((Run.formatted 134).run [.alloc 10, .alloc 20, .alloc 3, .free 121, .alloc 10]).Persistent ↔
      ((Run.formatted 134).run [.alloc 10, .alloc 20, .alloc 3, .free 121, .alloc 10]).NoGapLost :=
  persistent_run (init_zeros (by decide)) (by decide) (by decide) (by decide +kernel)

/-- One block, and the memory behind it is not found again. -/
theorem not_persistent_one : ¬ ((Run.formatted 134).run [.alloc 10]).Persistent := by
  rintro ⟨hs, -⟩
  have := hs.rangeSet
  revert this
  decide +kernel

end Formatted

end XStaticAlloc
