/-
Management data and user data: the record slots grow from the lower end of the
records, the squeeze takes user memory from their upper end.

The squeeze keeps a slot for the record of its own block, but an `Alloc` from a
free range takes a slot too and does not look where the limit is. As long as
the slot taken lies below the limit (`SlotClear`), no block in use meets the
record of another, and so no call changes a byte of another block, and no
write into a block changes a record (`separated_run`).
-/
import XFramework.Mem.StaticAllocSlots

open Bytes Span

namespace XStaticAlloc

namespace Run

/-- An `Alloc` that gets memory finds a slot left, and the slot it takes lies below the
squeeze limit. -/
def SlotClear (s : Run) : Op → Prop
  | .alloc len => s.Served len → useCount s.mem < blockLimit s.mem ∧
      s.obj.slotAddr (s.obj.newIndex s.mem) + 16 ≤ s.obj.limit s.mem
  | _ => True

instance (s : Run) : DecidablePred s.SlotClear
  | .alloc len => inferInstanceAs (Decidable (s.Served len → _))
  | .free _ | .write _ _ => isTrue trivial

theorem SlotClear.slotLeft {s : Run} {op : Op} (h : s.SlotClear op) : s.SlotLeft op := by
  cases op with
  | alloc len => exact fun hs => (h hs).1
  | free p => trivial
  | write p b => trivial

/-- No block in use meets the header, the flags or a record in use; no call changes a byte of
another block, and no write into a block changes a record. -/
structure Separated (s : Run) : Prop where
  header : ∀ b ∈ s.live, Apart b (0, 24)
  flags : ∀ b ∈ s.live, Apart b (s.obj.pFlagStart, flagLen s.mem)
  records : ∀ b ∈ s.live, ∀ i < flagCount s.mem, s.obj.flag s.mem i = true → Apart b (s.obj.slotAddr i, 16)
  alloc_frame : ∀ len, 1 ≤ len → s.SlotClear (.alloc len) → ∀ b ∈ s.live, ∀ x, b.Has x →
    (s.alloc len).mem x = s.mem x
  free_frame : ∀ p, ∀ b ∈ s.live, ∀ x, b.Has x → (s.free p).mem x = s.mem x
  write_frame : ∀ p v, ∀ i < flagCount s.mem, s.obj.flag s.mem i = true → ∀ x, Has (s.obj.slotAddr i, 16) x →
    (s.write p v).mem x = s.mem x

end Run

/-! ## The squeeze -/

section Squeeze

variable {s : Run} {A : Arena} {m : Mem} {h : XStaticAlloc} {len p : Int} {i : Nat}

/-- The counting loop of the squeeze ends at the last flag in use, or behind it. -/
theorem used_le_lastUsed (hS : Slots s) (hi : i ∈ s.obj.usedFlags s.mem) : i ≤ s.obj.lastUsed s.mem := by
  have hlt := (mem_usedFlags.1 hi).1
  unfold lastUsed
  simp only
  split
  · rename_i k hk
    have hcond := List.find?_some hk
    have hkn := List.mem_range.1 (List.mem_of_find?_eq_some hk)
    simp only [Bool.and_eq_true, beq_iff_eq] at hcond
    -- all flags in use are among the first `k + 1`
    have hsub : ((List.range (k + 1)).filter (s.obj.flag s.mem)).Sublist (s.obj.usedFlags s.mem) :=
      (List.range_sublist.2 hkn).filter _
    have heq := hsub.eq_of_length (hcond.2.trans hS.length_usedFlags.symm)
    rw [← heq, List.mem_filter, List.mem_range] at hi
    omega
  · omega

/-- Every slot before the first clear flag is in use, so the slot taken comes right behind one
in use, or is the first. -/
theorem newIndex_le_lastUsed (hS : Slots s) (hI : Inv s A) (hlt : useCount s.mem < blockLimit s.mem) :
    s.obj.newIndex s.mem ≤ s.obj.lastUsed s.mem + 1 := by
  obtain ⟨hi, -, hbelow⟩ := hS.newIndex_eq hI hlt
  have hn := newIndex_lt hI.layout hi
  by_contra hgt
  have hpred : s.obj.newIndex s.mem - 1 ∈ s.obj.usedFlags s.mem :=
    mem_usedFlags.2 ⟨by omega, hbelow _ (by omega)⟩
  have := used_le_lastUsed hS hpred
  omega

end Squeeze

/-! ## Records below the limit -/

/-- Every record in use lies below the squeeze limit. -/
def RecordsBelow (s : Run) : Prop := ∀ i ∈ s.obj.usedFlags s.mem, s.obj.slotAddr i + 16 ≤ s.obj.limit s.mem

namespace RecordsBelow

variable {s : Run} {A : Arena} {len p : Int} {i : Nat}

/-- With the slot taken below the limit, the block starts behind every record in use and its own. -/
theorem below_found (hB : RecordsBelow s) (hS : Slots s) (hI : Inv s A) (hclear : s.SlotClear (.alloc len))
    {m : Mem} {h : XStaticAlloc} (hf : Inv.Found s len m h p)
    (hi : i = s.obj.newIndex s.mem ∨ i ∈ s.obj.usedFlags s.mem) : s.obj.slotAddr i + 16 ≤ h.limit m := by
  obtain ⟨hlt, hslot⟩ := hclear hf.served
  rcases hf.source with ⟨rfl, itf, -, -, -, rfl⟩ | ⟨rfl, -, hext, hlim⟩
  · show s.obj.slotAddr i + 16 ≤ s.obj.limit s.mem
    rcases hi with rfl | hi
    · exact hslot
    · exact hB i hi
  · have hle : i ≤ s.obj.lastUsed s.mem + 1 := by
      rcases hi with rfl | hi
      · exact newIndex_le_lastUsed hS hI hlt
      · have := used_le_lastUsed hS hi
        omega
    rw [hlim]
    unfold extBegin at hext
    unfold slotAddr
    omega

theorem alloced (hB : RecordsBelow s) (hS : Slots s) (hI : Inv s A) (hlen : 1 ≤ len)
    (hclear : s.SlotClear (.alloc len)) : RecordsBelow (s.alloc len) := by
  rcases hI.alloc_found hlen with ⟨heq, -⟩ | ⟨m, h, p, hf, heq⟩
  · rw [heq]
    exact hB
  have hbelow := fun i => hB.below_found (i := i) hS hI hclear hf
  obtain ⟨-, -, hfl, -, hro⟩ := register_header hf.layout len hf.start
  have hset := fun j (hj : j < flagCount m) => register_flag hf.layout len hf.start hj
  have harea := register_area (m := m) (h := h) p len
  rw [heq]
  clear heq
  generalize register m h p len = r at *
  intro i hi
  obtain ⟨hlt, hflag⟩ := mem_usedFlags.1 hi
  have hlt : i < flagCount m := by rwa [flagCount, hfl, ← flagCount] at hlt
  rw [flag_congr_area harea, hset i hlt, Bool.or_eq_true, decide_eq_true_eq, hf.newIndex, hf.flag] at hflag
  have hi' := hbelow i (hflag.imp id fun hon => mem_usedFlags.2 ⟨hf.flagCount ▸ hlt, hon⟩)
  simp only [limit, hro, slotAddr_congr harea, slotAddr_congr hf.area, harea.pStart]
  exact hi'

theorem freed (hB : RecordsBelow s) (hS : Slots s) (hI : Inv s A) (hp : (p, len) ∈ s.obj.recordInfo) :
    RecordsBelow (s.free p) := by
  obtain ⟨A', hI', -, hlo, -⟩ := hI.freed hp
  have harea : SameArea s.obj (s.free p).obj := s.step_area (.free p)
  obtain ⟨i, hi⟩ := (hI.keys p).1 ⟨len, hp⟩
  have hsub : ∀ j ∈ (s.free p).obj.usedFlags (s.free p).mem, j ∈ s.obj.usedFlags s.mem := fun j hj => by
    obtain ⟨m, h, hfree, -, hh⟩ := Slots.free_eq hp hi
    have hmap : (s.free p).obj.recordMap = s.obj.recordMap.erase p := by rw [hfree, pullBack_maps.1, hh]
    obtain ⟨x, hx, rfl⟩ := List.mem_map.1 ((hS.freed hI hp).flags.symm.subset hj)
    rw [hmap] at hx
    exact hS.index_used (StdMap.mem_erase.1 hx).1
  intro j hj
  have := hB j (hsub j hj)
  rw [slotAddr_congr harea]
  rw [hI.lo, hI'.lo] at hlo
  omega

theorem written (hB : RecordsBelow s) (hI : Inv s A) {x : Int} {b : UInt8} : RecordsBelow (s.write x b) := by
  unfold Run.write
  split
  case isFalse => exact hB
  rename_i hany
  obtain ⟨blk, hblk, hx⟩ := hany
  have h₁ := hI.live_in hblk
  have h₂ := hI.limit_ge
  have h₃ := hI.record_ge
  have hbyte : ∀ y, y < s.obj.pRecordStart → Bytes.write s.mem x [b] y = s.mem y := fun y hy => by
    refine write_other (.inl ?_)
    unfold Has at hx
    omega
  have hh : SameHeader s.mem (Bytes.write s.mem x [b]) := .of_bytes fun y _ hy => hbyte y (by omega)
  intro i hi
  have hused : s.obj.usedFlags (Bytes.write s.mem x [b]) = s.obj.usedFlags s.mem := by
    refine usedFlags_congr (by rw [flagCount, hh.flagLen, flagCount]) fun i hi => flag_congr ?_
    exact hbyte _ (hI.layout.flagAddr_lt hi).2
  simp only [hused] at hi
  simp only [limit, hh.recordOffset]
  exact hB i hi

theorem step (hB : RecordsBelow s) (hS : Slots s) (hI : Inv s A) {op : Op} (hop : op.Legal)
    (hclear : s.SlotClear op) : RecordsBelow (s.step op) := by
  cases op with
  | alloc len => exact hB.alloced hS hI hop hclear
  | free p =>
    by_cases hp : ∃ len, (p, len) ∈ s.obj.recordInfo
    · obtain ⟨len, hp⟩ := hp
      exact hB.freed hS hI hp
    · have hsame : s.step (.free p) = s := hS.not_freed fun x hx he => hp ⟨x.2, he ▸ hx⟩
      rw [hsame]
      exact hB
  | write p b => exact hB.written hI

/-! ### Frames -/

theorem alloc_frame (hI : Inv s A) (hlen : 1 ≤ len)
    (hclear : s.SlotClear (.alloc len)) {b : Span} (hb : b ∈ s.live) {x : Int} (hx : b.Has x) :
    (s.alloc len).mem x = s.mem x := by
  rcases hI.alloc_found hlen with ⟨heq, -⟩ | ⟨m, h, p, hf, heq⟩
  · rw [heq]
  obtain ⟨A', hI', -⟩ := hI.registered hlen hf
  have hlive : A'.live = (p, len) :: s.live := hI'.live
  have hapart : Apart (p, len) b := (List.pairwise_cons.1 (hlive ▸ A'.apart)).1 b hb
  have hin := hI.live_in hb
  have hge := hI.limit_ge
  have hrec := hI.record_ge
  have hslot := (hclear hf.served).2
  have hnew := hf.newIndex
  have haddr := slotAddr_congr hf.area (s.obj.newIndex s.mem)
  have hstart := hf.area.pRecordStart
  unfold Has at hx
  unfold Apart at hapart
  simp only at hapart
  rw [heq]
  simp only
  rw [register_bytes hf.layout p len (.inr (by omega)) (.inr (by omega)) (fun _ => .inr (by rw [hnew, haddr]; omega))
    (by omega), hf.bytes x (.inr (by omega))]

/-- `Free` changes nothing behind the flags. -/
theorem free_other (hI : Inv s A) {x : Int} (hx : s.obj.pRecordStart ≤ x) : (s.free p).mem x = s.mem x := by
  have hrec := hI.record_ge
  by_cases hp : ∃ len, (p, len) ∈ s.obj.recordInfo
  · obtain ⟨len, hp⟩ := hp
    obtain ⟨i, hi⟩ := (hI.keys p).1 ⟨len, hp⟩
    have hslot : i < blockLimit s.mem := hI.slots _ hi
    have hfl := hI.layout.flagAddr_lt (Nat.lt_of_lt_of_le hslot hI.layout.flags)
    obtain ⟨m, h, hfree, hm, -⟩ := Slots.free_eq (s := s) hp hi
    rw [hfree]
    simp only
    rw [pullBack_other (.inr (by omega)), hm, setUseCount_other (.inr (by omega)), clearFlag_other (by omega)]
  · have hnone : s.obj.recordInfo.find? p = none := StdMap.find?_eq_none.2 fun y hy he => hp ⟨y.2, he ▸ hy⟩
    simp only [Run.free, XStaticAlloc.free, hnone]

theorem write_frame (hB : RecordsBelow s) (hI : Inv s A) {v : UInt8} (hi : i ∈ s.obj.usedFlags s.mem) {x : Int}
    (hx : Has (s.obj.slotAddr i, 16) x) : (s.write p v).mem x = s.mem x := by
  unfold Run.write
  split
  case isFalse => rfl
  rename_i hany
  obtain ⟨blk, hblk, hp⟩ := hany
  have hin := hI.live_in hblk
  have hslot := hB i hi
  refine write_other (.inl ?_)
  unfold Has at hx hp
  simp only at hx
  omega

theorem separated (hB : RecordsBelow s) (hI : Inv s A) : s.Separated where
  header := by
    intro b hb
    have := hI.live_in hb
    have := hI.limit_ge
    have := hI.record_ge
    exact .inr (by simp only; omega)
  flags := by
    intro b hb
    have := hI.live_in hb
    have := hI.limit_ge
    have := hI.layout.recordStart
    have := hI.layout.flagStart
    exact .inr (by simp only; omega)
  records := by
    intro b hb i hi hflag
    have := hI.live_in hb
    have := hB i (mem_usedFlags.2 ⟨hi, hflag⟩)
    exact .inr (by simp only; omega)
  alloc_frame := fun _ hlen hclear _ hb _ hx => alloc_frame hI hlen hclear hb hx
  free_frame := by
    intro p b hb x hx
    have := hI.live_in hb
    have := hI.limit_ge
    unfold Has at hx
    exact free_other hI (by omega)
  write_frame := fun _ _ _ hi hflag _ hx => hB.write_frame hI (mem_usedFlags.2 ⟨hi, hflag⟩) hx

end RecordsBelow

/-! ## Separation in a run -/

section Formatted

variable {area m : Mem} {h : XStaticAlloc} {nLen : Int} {ops : List Op}

theorem recordsBelow_run (hF : Formatted nLen m h) (h₁ : 24 < nLen) (h₂ : nLen < 2 ^ 31)
    (hops : Steps.Along Run.step (fun s op => op.Legal ∧ s.SlotClear op) ⟨m, h, []⟩ ops) :
    ∃ A, Inv (Run.run ⟨m, h, []⟩ ops) A ∧ Slots (Run.run ⟨m, h, []⟩ ops) ∧ RecordsBelow (Run.run ⟨m, h, []⟩ ops) := by
  refine hops.run (fun s => ∃ A, Inv s A ∧ Slots s ∧ RecordsBelow s) ?_ fun s op ⟨A, hI, hS, hB⟩ ⟨hop, hclear⟩ => ?_
  · obtain ⟨A, hA, -⟩ := inv_of_formatted hF h₁ h₂
    refine ⟨A, hA, slots_of_formatted hF, fun i hi => ?_⟩
    obtain ⟨hlt, hflag⟩ := mem_usedFlags.1 hi
    simp [hF.flags i hlt] at hflag
  · obtain ⟨A', hI'⟩ := hI.step hop
    exact ⟨A', hI', hS.step hI hop hclear.slotLeft, hB.step hS hI hop hclear⟩

/-- In a run whose record slots stay below the squeeze limit, management data and user data are apart. -/
theorem separated_run (hinit : init (some area) new nLen = (0, some m, h)) (h₁ : 24 ≤ nLen) (h₂ : nLen < 2 ^ 31)
    (hops : Steps.Along Run.step (fun s op => op.Legal ∧ s.SlotClear op) ⟨m, h, []⟩ ops) :
    (Run.run ⟨m, h, []⟩ ops).Separated := by
  have hF := init_formatted hinit h₁ h₂
  rcases Int.le_iff_lt_or_eq.1 h₁ with h₁ | rfl
  · obtain ⟨A, hI, -, hB⟩ := recordsBelow_run hF h₁ h₂ hops
    exact hB.separated hI
  · rw [run_of_header hF (Steps.Along.mem (hops.imp fun _ _ h => h.1))]
    refine ⟨?_, ?_, ?_, ?_, ?_, ?_⟩
    all_goals simp [Run.write]

/-- A squeeze, and a block from the memory above it whose record slot is still below the limit. -/
theorem separated_run_squeeze :
    ((Run.formatted 134).run [.alloc 10, .alloc 40, .alloc 1, .write 81 7, .free 121, .alloc 1]).Separated :=
  separated_run (init_zeros (by decide)) (by decide) (by decide) (by decide +kernel)

/-- The squeeze takes all but two record slots, and the third block comes from a free range:
its record is written over the second block. -/
theorem not_separated_range : ¬ ((Run.formatted 134).run [.alloc 10, .alloc 64, .alloc 1]).Separated := by
  intro hs
  have hlive : ((57, 64) : Span) ∈ ((Run.formatted 134).run [.alloc 10, .alloc 64, .alloc 1]).live := by decide +kernel
  have hrec := hs.records _ hlive 2 (by decide +kernel) (by decide +kernel)
  revert hrec
  decide +kernel

end Formatted

end XStaticAlloc
