/-
Registration: the record slots of a run.

`Alloc` takes its memory first and looks for a slot afterwards. The search for
a slot goes over whole flag bytes and ends at the last flag when none is clear,
and the limit on the slots is compared with its result only. As long as a slot
is left whenever an `Alloc` gets memory (`SlotLeft`), the flags, the count and
the two maps agree on the blocks in use (`Slots`, `registered_run`).
-/
import XFramework.Mem.StaticAllocRun

open Bytes Span

namespace XStaticAlloc

variable {m m' : Mem} {h h' : XStaticAlloc}

/-! ## The set flags -/

/-- The flags that are set. -/
def usedFlags (m : Mem) (h : XStaticAlloc) : List Nat := (List.range (flagCount m)).filter (h.flag m)

theorem mem_usedFlags {i : Nat} : i ∈ h.usedFlags m ↔ i < flagCount m ∧ h.flag m i = true := by
  simp [usedFlags]

theorem nodup_usedFlags : (h.usedFlags m).Nodup := List.Nodup.filter _ List.nodup_range

theorem usedFlags_congr (hc : flagCount m' = flagCount m) (hf : ∀ i < flagCount m, h'.flag m' i = h.flag m i) :
    h'.usedFlags m' = h.usedFlags m := by
  unfold usedFlags
  rw [hc]
  exact List.filter_congr fun i hi => hf i (List.mem_range.1 hi)

/-- One more flag set. -/
theorem usedFlags_set {i : Nat} (hc : flagCount m' = flagCount m) (hi : i < flagCount m) (hoff : h.flag m i = false)
    (hf : ∀ j < flagCount m, h'.flag m' j = (decide (j = i) || h.flag m j)) :
    (h'.usedFlags m').Perm (i :: h.usedFlags m) := by
  have hni : i ∉ h.usedFlags m := fun hmem => by simp [(mem_usedFlags.1 hmem).2] at hoff
  refine (List.perm_ext_iff_of_nodup nodup_usedFlags (List.nodup_cons.2 ⟨hni, nodup_usedFlags⟩)).2 fun j => ?_
  rw [List.mem_cons, mem_usedFlags, mem_usedFlags, hc]
  refine ⟨?_, ?_⟩
  · rintro ⟨hj, hfj⟩
    rw [hf j hj, Bool.or_eq_true, decide_eq_true_eq] at hfj
    exact hfj.imp id fun hfj => ⟨hj, hfj⟩
  · rintro (rfl | ⟨hj, hfj⟩)
    · exact ⟨hi, by simp [hf _ hi]⟩
    · exact ⟨hj, by simp [hf j hj, hfj]⟩

/-- One flag cleared. -/
theorem usedFlags_clear {i : Nat} (hc : flagCount m' = flagCount m) (hi : i ∈ h.usedFlags m)
    (hf : ∀ j < flagCount m, h'.flag m' j = (decide (j ≠ i) && h.flag m j)) :
    (h.usedFlags m).Perm (i :: h'.usedFlags m') := by
  have hni : i ∉ h'.usedFlags m' := fun hmem => by
    have := (mem_usedFlags.1 hmem).2
    simp [hf i (mem_usedFlags.1 hi).1] at this
  refine (List.perm_ext_iff_of_nodup nodup_usedFlags (List.nodup_cons.2 ⟨hni, nodup_usedFlags⟩)).2 fun j => ?_
  rw [List.mem_cons, mem_usedFlags, mem_usedFlags, hc]
  refine ⟨?_, ?_⟩
  · rintro ⟨hj, hfj⟩
    by_cases hji : j = i
    · exact .inl hji
    · exact .inr ⟨hj, by simp [hf j hj, hji, hfj]⟩
  · rintro (rfl | ⟨hj, hfj⟩)
    · exact mem_usedFlags.1 hi
    · rw [hf j hj, Bool.and_eq_true] at hfj
      exact ⟨hj, hfj.2⟩

/-- With fewer flags set than there are slots, the first clear flag is that of a slot. -/
theorem exists_firstClear (hL : Layout m h) (hlt : (h.usedFlags m).length < blockLimit m) :
    ∃ i, h.firstClear m = some i ∧ i < blockLimit m := by
  obtain ⟨j, hj, hoff⟩ : ∃ j < blockLimit m, h.flag m j = false := by
    by_contra hall
    push Not at hall
    -- all slots used: the set flags hold every index below the limit
    have hsub : List.range (blockLimit m) ⊆ h.usedFlags m := fun i hi => by
      have hi := List.mem_range.1 hi
      exact mem_usedFlags.2 ⟨Nat.lt_of_lt_of_le hi hL.flags, by simpa using hall i hi⟩
    have := (List.subperm_of_subset List.nodup_range hsub).length_le
    rw [List.length_range] at this
    omega
  cases hc : h.firstClear m with
  | none => simp [firstClear_eq_none.1 hc j (Nat.lt_of_lt_of_le hj hL.flags)] at hoff
  | some i =>
    refine ⟨i, rfl, Nat.lt_of_le_of_lt (Nat.le_of_not_lt fun hij => ?_) hj⟩
    simp [(mem_firstClear.1 hc).2.2 j hij] at hoff

/-! ## The slots of a state -/

/-- The flags, the count and the maps agree on the blocks in use. -/
structure Slots (s : Run) : Prop where
  live : ∀ b, b ∈ s.live ↔ b ∈ s.obj.recordInfo
  flags : (s.obj.recordMap.entries.map (·.2)).Perm (s.obj.usedFlags s.mem)
  count : useCount s.mem = s.obj.recordMap.size

namespace Run

/-- An `Alloc` that gets memory finds fewer blocks registered than there are slots. -/
def SlotLeft (s : Run) : Op → Prop
  | .alloc len => s.Served len → useCount s.mem < blockLimit s.mem
  | _ => True

instance (s : Run) : DecidablePred s.SlotLeft
  | .alloc len => inferInstanceAs (Decidable (s.Served len → _))
  | .free _ | .write _ _ => isTrue trivial

/-- What registration promises: the numbers agree, every record slot has one block, and
every block in use has a slot, so that `Free` gives its memory back. -/
structure Registered (s : Run) : Prop where
  useCount_flags : s.obj.getUseCount s.mem = (s.obj.usedFlags s.mem).length
  useCount_map : s.obj.getUseCount s.mem = s.obj.recordMap.size
  useCount_info : s.obj.getUseCount s.mem = s.obj.recordInfo.size
  distinct : (s.obj.recordMap.entries.map (·.2)).Nodup
  below : ∀ x ∈ s.obj.recordMap, (x.2 : Int) < s.obj.getMgrBlockCountLimit s.mem
  keys : ∀ b ∈ s.live, (∃ len, (b.1, len) ∈ s.obj.recordInfo) ∧ ∃ i, (b.1, i) ∈ s.obj.recordMap
  free_keys : ∀ b ∈ s.live, (∀ x ∈ (s.free b.1).obj.recordInfo, x.1 ≠ b.1) ∧
    ∀ x ∈ (s.free b.1).obj.recordMap, x.1 ≠ b.1
  free_useCount : ∀ b ∈ s.live, (s.free b.1).obj.getUseCount (s.free b.1).mem = s.obj.getUseCount s.mem - 1
  free_bytes : ∀ b ∈ s.live, ∀ x, b.Has x → Covers (s.free b.1).obj.rangeSet.entries x ∨
    s.obj.pRecordStart ≤ x ∧ x < (s.free b.1).obj.limit (s.free b.1).mem

end Run

namespace Slots

variable {s : Run} {A : Arena} {len p : Int} {i : Nat}

theorem length_usedFlags (hS : Slots s) : (s.obj.usedFlags s.mem).length = useCount s.mem := by
  rw [← hS.flags.length_eq, List.length_map, hS.count]
  rfl

theorem index_used (hS : Slots s) (hi : (p, i) ∈ s.obj.recordMap) : i ∈ s.obj.usedFlags s.mem :=
  hS.flags.subset (List.mem_map.2 ⟨(p, i), hi, rfl⟩)

/-- Both maps have the same keys, so they are of one size. -/
theorem size_recordInfo (hI : Inv s A) : s.obj.recordInfo.size = s.obj.recordMap.size := by
  have hperm : (s.obj.recordInfo.entries.map (·.1)).Perm (s.obj.recordMap.entries.map (·.1)) := by
    refine (List.perm_ext_iff_of_nodup (StdMap.nodup_keys _) (StdMap.nodup_keys _)).2 fun q => ?_
    have := hI.keys q
    simp only [List.mem_map, Prod.exists, StdMap.mem_entries]
    simpa using this
  simpa [StdMap.size] using hperm.length_eq

theorem length_live (hS : Slots s) (hI : Inv s A) : s.live.length = useCount s.mem := by
  have hnd : s.live.Nodup := by
    refine List.Pairwise.imp_of_mem (fun {a b} ha hb hab heq => ?_) (hI.live ▸ A.apart)
    have := hI.live_pos hb
    subst heq
    unfold Apart at hab
    omega
  have hperm : s.live.Perm s.obj.recordInfo.entries :=
    (List.perm_ext_iff_of_nodup hnd (StdMap.nodup_entries _)).2 hS.live
  rw [hperm.length_eq, hS.count, ← size_recordInfo hI]
  rfl

/-! ### Steps -/

/-- The slot `Alloc` takes is the first whose flag is clear. -/
theorem newIndex_eq (hS : Slots s) (hI : Inv s A) (hlt : useCount s.mem < blockLimit s.mem) :
    s.obj.newIndex s.mem < blockLimit s.mem ∧ s.obj.flag s.mem (s.obj.newIndex s.mem) = false ∧
      ∀ j < s.obj.newIndex s.mem, s.obj.flag s.mem j = true := by
  obtain ⟨i, hc, hi⟩ := exists_firstClear hI.layout (hS.length_usedFlags ▸ hlt)
  have hnew : s.obj.newIndex s.mem = i := by simp [newIndex, hc]
  rw [hnew]
  exact ⟨hi, (mem_firstClear.1 hc).2.1, (mem_firstClear.1 hc).2.2⟩

/-- What `Alloc` does to the maps, the header and the flags when it has found memory at `p`. -/
theorem register_spec {m : Mem} {h : XStaticAlloc} (hf : Inv.Found s len m h p) :
    let r := register m h p len
    blockLimit r.2.1 = blockLimit s.mem ∧ flagLen r.2.1 = flagLen s.mem ∧ recordLen r.2.1 = recordLen s.mem ∧
      (∀ j < flagCount s.mem, r.2.2.flag r.2.1 j = (decide (j = s.obj.newIndex s.mem) || s.obj.flag s.mem j)) ∧
      if s.obj.newIndex s.mem < blockLimit s.mem then
        useCount r.2.1 = (useCount s.mem + 1) % 2 ^ 16 ∧
          r.2.2.recordMap = s.obj.recordMap.insert p (s.obj.newIndex s.mem) ∧
          r.2.2.recordInfo = s.obj.recordInfo.insert p len
      else useCount r.2.1 = useCount s.mem ∧ r.2.2.recordMap = s.obj.recordMap ∧ r.2.2.recordInfo = s.obj.recordInfo := by
  have hbytes : recordLen m = recordLen s.mem := readLE_congr fun x _ _ => hf.bytes x (by omega)
  have hflagLen : flagLen m = flagLen s.mem := readLE_congr fun x _ _ => hf.bytes x (by omega)
  obtain ⟨hc, hbl, hfl, hrl, -⟩ := register_header hf.layout len hf.start
  have hset := fun j (hj : j < flagCount m) => register_flag hf.layout len hf.start hj
  have harea := register_area (m := m) (h := h) p len
  have hreg := register_eq hf.layout p len
  rw [hf.newIndex, hf.blockLimit] at hreg hc
  refine ⟨hbl.trans hf.blockLimit, hfl.trans hflagLen, hrl.trans hbytes, fun j hj => ?_, ?_⟩
  · rw [flag_congr_area harea, hset j (hf.flagCount ▸ hj), hf.newIndex, hf.flag]
  · split_ifs at hc hreg ⊢
    · exact ⟨by rw [hc, hf.useCount], by rw [hreg, hf.map], by rw [hreg, hf.info]⟩
    · exact ⟨by rw [hc, hf.useCount], by rw [hreg, hf.map], by rw [hreg, hf.info]⟩

theorem alloced (hS : Slots s) (hI : Inv s A) (hlen : 1 ≤ len) (hleft : s.SlotLeft (.alloc len)) :
    Slots (s.alloc len) := by
  rcases hI.alloc_found hlen with ⟨heq, -⟩ | ⟨m, h, p, hf, heq⟩
  · rw [heq]
    exact hS
  have hlt := hleft hf.served
  obtain ⟨hi, hoff, -⟩ := hS.newIndex_eq hI hlt
  obtain ⟨h₁, h₂⟩ := hI.fresh hf.fresh
  obtain ⟨-, hfl, -, hflags, hreg⟩ := register_spec hf
  rw [if_pos hi] at hreg
  obtain ⟨hc, hmap, hinfo⟩ := hreg
  have hlt' := blockLimit_lt s.mem
  rw [Nat.mod_eq_of_lt (by omega)] at hc
  rw [heq]
  generalize register m h p len = r at *
  refine ⟨fun b => ?_, ?_, ?_⟩
  · simp only [hinfo, StdMap.mem_insert_new h₁, List.mem_cons, hS.live b]
    exact or_comm
  · simp only [hmap]
    have hperm : (r.2.2.usedFlags r.2.1).Perm (s.obj.newIndex s.mem :: s.obj.usedFlags s.mem) :=
      usedFlags_set (by rw [flagCount, hfl, flagCount]) (newIndex_lt hI.layout hi) hoff hflags
    refine ((StdMap.perm_insert h₂).map _).trans ?_
    exact (hS.flags.cons _).trans hperm.symm
  · simp only [hc, hmap, StdMap.size, (StdMap.perm_insert h₂).length_eq, List.length_cons, hS.count]

/-- `Free` of a block in use. -/
theorem free_eq (hp : (p, len) ∈ s.obj.recordInfo) (hi : (p, i) ∈ s.obj.recordMap) :
    ∃ m h, s.free p = ⟨(pullBack m h).1, (pullBack m h).2, s.live.filter fun b => b.1 ≠ p⟩ ∧
      m = setUseCount (s.obj.clearFlag s.mem i) (useCount (s.obj.clearFlag s.mem i) + (2 ^ 16 - 1)) ∧
      h = { s.obj with
        recordInfo := s.obj.recordInfo.erase p
        recordMap := s.obj.recordMap.erase p
        rangeSet := mergeRanges (s.obj.rangeSet.insert p len) } := by
  refine ⟨_, _, ?_, rfl, rfl⟩
  simp only [Run.free, XStaticAlloc.free, StdMap.find?_eq_some.2 hp, StdMap.find?_eq_some.2 hi]

/-- What `Free` of a block in use does to the map of the records, the header and the flags. -/
theorem free_spec (hI : Inv s A) (hp : (p, len) ∈ s.obj.recordInfo) (hi : (p, i) ∈ s.obj.recordMap) :
    (s.free p).obj.recordMap = s.obj.recordMap.erase p ∧ (s.free p).obj.recordInfo = s.obj.recordInfo.erase p ∧
      useCount (s.free p).mem = (useCount s.mem + (2 ^ 16 - 1)) % 2 ^ 16 ∧
      blockLimit (s.free p).mem = blockLimit s.mem ∧ flagLen (s.free p).mem = flagLen s.mem ∧
      recordLen (s.free p).mem = recordLen s.mem ∧
      ∀ j, (s.free p).obj.flag (s.free p).mem j = (decide (j ≠ i) && s.obj.flag s.mem j) := by
  obtain ⟨m, h, hfree, hm, hh⟩ := free_eq hp hi
  have hfl := hI.layout.flagAddr_lt (i := i) (Nat.lt_of_lt_of_le (hI.slots _ hi) hI.layout.flags)
  have hstart := hI.layout.flagStart
  have hc : SameHeader s.mem (s.obj.clearFlag s.mem i) := .of_bytes fun x _ hx => clearFlag_other (by omega)
  have hmaps := pullBack_maps (m := m) (h := h)
  have hpb : ∀ x, x < 20 ∨ 24 ≤ x → (pullBack m h).1 x = m x := fun x hx => pullBack_other hx
  have harea : SameArea s.obj (pullBack m h).2 := by
    have := pullBack_area (m := m) (h := h)
    subst hh
    exact ⟨this.1, this.2, this.3, this.4, this.5⟩
  rw [hfree]
  dsimp only
  generalize pullBack m h = r at *
  refine ⟨by rw [hmaps.1, hh], by rw [hmaps.2, hh], ?_, ?_, ?_, ?_, fun j => ?_⟩
  · have hbytes : useCount r.1 = useCount m := readLE_congr fun x _ _ => hpb x (by omega)
    rw [hbytes, hm, useCount_setUseCount, hc.useCount]
  · have hbytes : blockLimit r.1 = blockLimit m := readLE_congr fun x _ _ => hpb x (by omega)
    rw [hbytes, hm, blockLimit_setUseCount, hc.blockLimit]
  · have hbytes : flagLen r.1 = flagLen m := readLE_congr fun x _ _ => hpb x (by omega)
    rw [hbytes, hm, flagLen_setUseCount, hc.flagLen]
  · have hbytes : recordLen r.1 = recordLen m := readLE_congr fun x _ _ => hpb x (by omega)
    rw [hbytes, hm, recordLen_setUseCount, hc.recordLen]
  · rw [flag_congr_area harea, ← flag_clearFlag]
    refine flag_congr ?_
    have hx : 24 ≤ s.obj.flagAddr j := by
      unfold flagAddr
      omega
    rw [hpb _ (.inr hx), hm, setUseCount_other (by omega)]

theorem freed (hS : Slots s) (hI : Inv s A) (hp : (p, len) ∈ s.obj.recordInfo) : Slots (s.free p) := by
  obtain ⟨i, hi⟩ := (hI.keys p).1 ⟨len, hp⟩
  obtain ⟨hmap, hinfo, hcount, -, hfl, -, hflags⟩ := free_spec hI hp hi
  have hused := hS.index_used hi
  have hsize := (StdMap.perm_erase hi).length_eq
  refine ⟨fun b => ?_, ?_, ?_⟩
  · rw [hinfo, StdMap.mem_erase, ← hS.live, Run.free, List.mem_filter, decide_eq_true_eq]
  · have hperm : (s.obj.usedFlags s.mem).Perm (i :: (s.free p).obj.usedFlags (s.free p).mem) :=
      usedFlags_clear (by rw [flagCount, hfl, flagCount]) hused fun j _ => hflags j
    rw [hmap]
    exact (((StdMap.perm_erase hi).map (·.2)).symm.trans (hS.flags.trans hperm)).cons_inv
  · have hlt := useCount_lt s.mem
    have hold := hS.count
    rw [StdMap.size, hsize, List.length_cons] at hold
    rw [hcount, hmap, StdMap.size]
    omega

/-- `Free` of anything else changes nothing. -/
theorem not_freed (hS : Slots s) (hp : ∀ x ∈ s.obj.recordInfo, x.1 ≠ p) : s.free p = s := by
  have hlive : s.live.filter (fun b => b.1 ≠ p) = s.live :=
    List.filter_eq_self.2 fun b hb => by simpa using hp b ((hS.live b).1 hb)
  simp only [Run.free, XStaticAlloc.free, StdMap.find?_eq_none.2 hp, hlive]

/-- A byte written into a live block is behind the flags. -/
theorem write_spec (hI : Inv s A) (x : Int) (b : UInt8) : (s.write x b).obj = s.obj ∧ (s.write x b).live = s.live ∧
    SameHeader s.mem (s.write x b).mem ∧ ∀ i < flagCount s.mem, s.obj.flag (s.write x b).mem i = s.obj.flag s.mem i := by
  unfold Run.write
  split
  case isFalse => exact ⟨rfl, rfl, .of_bytes fun _ _ _ => rfl, fun _ _ => rfl⟩
  rename_i hany
  obtain ⟨blk, hblk, hx⟩ := hany
  have h₁ := hI.live_in hblk
  have h₂ := hI.limit_ge
  have h₃ := hI.record_ge
  have hbyte : ∀ y, y < s.obj.pRecordStart → Bytes.write s.mem x [b] y = s.mem y := fun y hy => by
    refine write_other (.inl ?_)
    unfold Has at hx
    omega
  refine ⟨rfl, rfl, .of_bytes fun y _ hy => hbyte y (by omega), fun i hi => flag_congr ?_⟩
  exact hbyte _ (hI.layout.flagAddr_lt hi).2

theorem written (hS : Slots s) (hI : Inv s A) {x : Int} {b : UInt8} : Slots (s.write x b) := by
  obtain ⟨hobj, hlive, hh, hflag⟩ := write_spec hI x b
  refine ⟨?_, ?_, ?_⟩
  · rw [hobj, hlive]
    exact hS.live
  · have hused : s.obj.usedFlags (s.write x b).mem = s.obj.usedFlags s.mem :=
      usedFlags_congr (by rw [flagCount, hh.flagLen, flagCount]) hflag
    rw [hobj, hused]
    exact hS.flags
  · rw [hobj, hh.useCount]
    exact hS.count

theorem step (hS : Slots s) (hI : Inv s A) {op : Op} (hop : op.Legal) (hleft : s.SlotLeft op) : Slots (s.step op) := by
  cases op with
  | alloc len => exact hS.alloced hI hop hleft
  | free p =>
    by_cases hp : ∃ len, (p, len) ∈ s.obj.recordInfo
    · obtain ⟨len, hp⟩ := hp
      exact hS.freed hI hp
    · have hsame : s.free p = s := hS.not_freed fun x hx he => hp ⟨x.2, he ▸ hx⟩
      simpa only [Run.step, hsame] using hS
  | write p b => exact hS.written hI

end Slots

/-! ## Registration in a run -/

section Formatted

variable {area : Mem} {nLen : Int} {ops : List Op} {s : Run} {A : Arena}

theorem slots_of_formatted (hF : Formatted nLen m h) : Slots ⟨m, h, []⟩ where
  live := by simp [hF.recordInfo]
  flags := by
    have : h.usedFlags m = [] := List.filter_eq_nil_iff.2 fun i hi => by simp [hF.flags i (List.mem_range.1 hi)]
    simp [this, hF.recordMap]
  count := by simp [hF.useCount, hF.recordMap, StdMap.size]

theorem Slots.registered (hS : Slots s) (hI : Inv s A) : s.Registered where
  useCount_flags := by simp [getUseCount, hI.layout.begun, hS.length_usedFlags]
  useCount_map := by simp [getUseCount, hI.layout.begun, hS.count]
  useCount_info := by simp [getUseCount, hI.layout.begun, hS.count, size_recordInfo hI]
  distinct := hS.flags.nodup_iff.2 nodup_usedFlags
  below := by
    intro x hx
    have := hI.slots x hx
    simp only [getMgrBlockCountLimit, hI.layout.begun, if_true]
    omega
  keys := by
    intro b hb
    have hinfo := (hS.live b).1 hb
    exact ⟨⟨b.2, hinfo⟩, (hI.keys b.1).1 ⟨b.2, hinfo⟩⟩
  free_keys := by
    intro b hb
    obtain ⟨A', hA', -⟩ := hI.freed ((hS.live b).1 hb)
    have hnone : ∀ c ∈ (s.free b.1).live, c.1 ≠ b.1 := by
      intro c hc
      simpa using (List.mem_filter.1 hc).2
    exact hA'.fresh hnone
  free_useCount := by
    intro b hb
    have hinfo := (hS.live b).1 hb
    obtain ⟨i, hi⟩ := (hI.keys b.1).1 ⟨b.2, hinfo⟩
    obtain ⟨A', hA', -⟩ := hI.freed hinfo
    obtain ⟨m, h, hfree, -, hh⟩ := free_eq hinfo hi
    have hsize := (StdMap.perm_erase hi).length_eq
    have hmap : (s.free b.1).obj.recordMap = s.obj.recordMap.erase b.1 := by
      rw [hfree, pullBack_maps.1, hh]
    simp only [getUseCount, hA'.layout.begun, hI.layout.begun, if_true, (hS.freed hI hinfo).count, hS.count, hmap]
    simp only [StdMap.size, hsize, List.length_cons]
    omega
  free_bytes := by
    intro b hb x hx
    obtain ⟨A', hA', -, -, hf⟩ := hI.freed ((hS.live b).1 hb)
    have h₁ := hI.live_in hb
    have h₂ := hI.limit_ge
    rcases hf x hx with hf | hf
    · exact .inl ((hA'.free x).1 hf)
    · unfold Has at hx
      exact .inr ⟨by omega, hA'.lo ▸ hf⟩

theorem slots_run (hF : Formatted nLen m h) (h₁ : 24 < nLen) (h₂ : nLen < 2 ^ 31)
    (hops : Steps.Along Run.step (fun s op => op.Legal ∧ s.SlotLeft op) ⟨m, h, []⟩ ops) :
    ∃ A, Inv (Run.run ⟨m, h, []⟩ ops) A ∧ Slots (Run.run ⟨m, h, []⟩ ops) := by
  refine hops.run (fun s => ∃ A, Inv s A ∧ Slots s) ?_ fun s op ⟨A, hA, hS⟩ ⟨hop, hleft⟩ => ?_
  · obtain ⟨A, hA, -⟩ := inv_of_formatted hF h₁ h₂
    exact ⟨A, hA, slots_of_formatted hF⟩
  · obtain ⟨A', hA'⟩ := hA.step hop
    exact ⟨A', hA', hS.step hA hop hleft⟩

/-- The registration of a run in which a slot is left whenever `Alloc` gets memory. -/
theorem registered_run (hinit : init (some area) new nLen = (0, some m, h)) (h₁ : 24 ≤ nLen) (h₂ : nLen < 2 ^ 31)
    (hops : Steps.Along Run.step (fun s op => op.Legal ∧ s.SlotLeft op) ⟨m, h, []⟩ ops) :
    (Run.run ⟨m, h, []⟩ ops).Registered := by
  have hF := init_formatted hinit h₁ h₂
  rcases Int.le_iff_lt_or_eq.1 h₁ with h₁ | rfl
  · obtain ⟨A, hA, hS⟩ := slots_run hF h₁ h₂ hops
    exact hS.registered hA
  · have hlegal : ∀ op ∈ ops, op.Legal := Steps.Along.mem (hops.imp fun _ _ h => h.1)
    have hS := slots_of_formatted hF
    rw [run_of_header hF hlegal]
    refine ⟨?_, ?_, ?_, ?_, ?_, ?_, ?_, ?_, ?_⟩
    · simp [getUseCount, hF.hasBegin, hS.length_usedFlags]
    · simp [getUseCount, hF.hasBegin, hS.count]
    · simp [getUseCount, hF.hasBegin, hF.useCount, hF.recordInfo, StdMap.size]
    all_goals simp [hF.recordMap]

theorem registered_run_six :
    ((Run.formatted 134).run [.alloc 1, .alloc 40, .alloc 1, .free 121, .alloc 2, .alloc 1, .alloc 1, .alloc 1]).Registered :=
  registered_run (init_zeros (by decide)) (by decide) (by decide) (by decide +kernel)

/-- The area has six slots and memory for the seventh block, which gets no record. -/
theorem not_registered_seven : ¬ ((Run.formatted 134).run (List.replicate 7 (.alloc 1))).Registered := by
  intro hR
  have hlive : (127, 1) ∈ ((Run.formatted 134).run (List.replicate 7 (.alloc 1))).live := by decide +kernel
  have hnone : ((Run.formatted 134).run (List.replicate 7 (.alloc 1))).obj.recordInfo.find? 127 = none := by
    decide +kernel
  obtain ⟨⟨len, hlen⟩, -⟩ := hR.keys _ hlive
  exact StdMap.find?_eq_none.1 hnone _ hlen rfl

end Formatted

end XStaticAlloc
