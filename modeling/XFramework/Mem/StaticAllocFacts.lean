/-
What each step of `XStaticAlloc` reads and writes: every store of the model
followed by every field a later step reads (the header, the flags, the
records), then `register`, `takeFrom` and the two loops of the squeeze.
-/
import XFramework.Mem.StaticAlloc
import Mathlib.Data.Nat.Bitwise

open Bytes

namespace XStaticAlloc

variable {m m' : Mem} {h : XStaticAlloc}

/-! ## The header -/

/-- The header's numbers are those of the bytes 8 to 23. -/
structure SameHeader (m m' : Mem) : Prop where
  useCount : useCount m' = useCount m
  blockLimit : blockLimit m' = blockLimit m
  flagLen : flagLen m' = flagLen m
  recordLen : recordLen m' = recordLen m
  recordOffset : recordOffset m' = recordOffset m

theorem SameHeader.of_bytes (he : ∀ x, 8 ≤ x → x < 24 → m' x = m x) : SameHeader m m' where
  useCount := readLE_congr fun x _ _ => he x (by omega) (by omega)
  blockLimit := readLE_congr fun x _ _ => he x (by omega) (by omega)
  flagLen := readLE_congr fun x _ _ => he x (by omega) (by omega)
  recordLen := readLE_congr fun x _ _ => he x (by omega) (by omega)
  recordOffset := readLE_congr fun x _ _ => he x (by omega) (by omega)

theorem setUseCount_other {n : Nat} {x : Int} (hx : x < 8 ∨ 10 ≤ x) : setUseCount m n x = m x :=
  writeLE_other (by omega)

theorem setRecordOffset_other {n : Nat} {x : Int} (hx : x < 20 ∨ 24 ≤ x) : setRecordOffset m n x = m x :=
  writeLE_other (by omega)

@[simp] theorem useCount_setUseCount (n : Nat) : useCount (setUseCount m n) = n % 2 ^ 16 :=
  readLE_writeLE m 8 2 n

@[simp] theorem blockLimit_setUseCount (n : Nat) : blockLimit (setUseCount m n) = blockLimit m :=
  readLE_writeLE_other (by omega)

@[simp] theorem flagLen_setUseCount (n : Nat) : flagLen (setUseCount m n) = flagLen m :=
  readLE_writeLE_other (by omega)

@[simp] theorem recordLen_setUseCount (n : Nat) : recordLen (setUseCount m n) = recordLen m :=
  readLE_writeLE_other (by omega)

@[simp] theorem recordOffset_setUseCount (n : Nat) : recordOffset (setUseCount m n) = recordOffset m :=
  readLE_writeLE_other (by omega)

@[simp] theorem useCount_setRecordOffset (n : Nat) : useCount (setRecordOffset m n) = useCount m :=
  readLE_writeLE_other (by omega)

@[simp] theorem blockLimit_setRecordOffset (n : Nat) : blockLimit (setRecordOffset m n) = blockLimit m :=
  readLE_writeLE_other (by omega)

@[simp] theorem flagLen_setRecordOffset (n : Nat) : flagLen (setRecordOffset m n) = flagLen m :=
  readLE_writeLE_other (by omega)

@[simp] theorem recordLen_setRecordOffset (n : Nat) : recordLen (setRecordOffset m n) = recordLen m :=
  readLE_writeLE_other (by omega)

@[simp] theorem recordOffset_setRecordOffset (n : Nat) :
    recordOffset (setRecordOffset m n) = n % 2 ^ 32 := readLE_writeLE m 20 4 n

theorem useCount_lt (m : Mem) : useCount m < 2 ^ 16 := readLE_lt m 8 2

theorem blockLimit_lt (m : Mem) : blockLimit m < 2 ^ 16 := readLE_lt m 10 2

/-! ## Flags -/

theorem setFlag_other {i : Nat} {x : Int} (hx : x ≠ h.flagAddr i) : h.setFlag m i x = m x :=
  write_other (by simp only [List.length_singleton]; omega)

theorem clearFlag_other {i : Nat} {x : Int} (hx : x ≠ h.flagAddr i) : h.clearFlag m i x = m x :=
  write_other (by simp only [List.length_singleton]; omega)

theorem flag_congr {i : Nat} (he : m' (h.flagAddr i) = m (h.flagAddr i)) : h.flag m' i = h.flag m i := by
  rw [flag, flag, he]

/-- Storing `b` over the byte of flag `i` leaves the flags of other bytes alone and
gives the flags of this byte the bits of `b`. -/
theorem flag_write (b : Nat) (i j : Nat) :
    h.flag (write m (h.flagAddr i) [UInt8.ofNat b]) j =
      if j / 8 = i / 8 then b.testBit (j % 8) else h.flag m j := by
  have hb : (UInt8.ofNat b).toNat = b % 2 ^ 8 := UInt8.toNat_ofNat'
  unfold flag
  split
  · rename_i he
    have ha : h.flagAddr j = h.flagAddr i + (0 : Nat) := by simp [flagAddr, he]
    rw [ha, write_at (by simp), List.getElem_singleton, hb, Nat.testBit_mod_two_pow]
    simp [Nat.mod_lt]
  · rename_i hne
    rw [write_other]
    simp only [flagAddr, List.length_singleton]
    omega

theorem flag_setFlag (i j : Nat) : h.flag (h.setFlag m i) j = (decide (j = i) || h.flag m j) := by
  have hj := Nat.div_add_mod j 8
  have hi := Nat.div_add_mod i 8
  rw [setFlag, flag_write]
  split
  · rename_i he
    have hm : (m (h.flagAddr i)).toNat.testBit (j % 8) = h.flag m j := by rw [flag, flagAddr, flagAddr, he]
    have hd : decide (i % 8 = j % 8) = decide (j = i) := by
      simp only [decide_eq_decide]
      omega
    rw [Nat.testBit_or, hm, Nat.one_shiftLeft, Nat.testBit_two_pow, hd, Bool.or_comm]
  · rename_i hne
    have : decide (j = i) = false := by
      simp only [decide_eq_false_iff_not]
      exact fun he => hne (he ▸ rfl)
    rw [this, Bool.false_or]

theorem flag_clearFlag (i j : Nat) : h.flag (h.clearFlag m i) j = (decide (j ≠ i) && h.flag m j) := by
  have hj := Nat.div_add_mod j 8
  have hi := Nat.div_add_mod i 8
  rw [clearFlag, flag_write]
  split
  · rename_i he
    have hm : (m (h.flagAddr i)).toNat.testBit (j % 8) = h.flag m j := by rw [flag, flagAddr, flagAddr, he]
    have hd : decide (i % 8 = j % 8) = decide (j = i) := by
      simp only [decide_eq_decide]
      omega
    have h255 : Nat.testBit 255 (j % 8) = true := by
      have := Nat.testBit_two_pow_sub_one 8 (j % 8)
      simpa [Nat.mod_lt] using this
    rw [Nat.testBit_and, hm, Nat.testBit_xor, h255, Nat.one_shiftLeft, Nat.testBit_two_pow, hd, Bool.and_comm]
    by_cases hji : j = i <;> simp [hji]
  · rename_i hne
    have : decide (j ≠ i) = true := by
      simp only [decide_eq_true_eq]
      exact fun he => hne (he ▸ rfl)
    rw [this, Bool.true_and]

theorem mem_firstClear {i : Nat} : h.firstClear m = some i ↔
    i < flagCount m ∧ h.flag m i = false ∧ ∀ j < i, h.flag m j = true := by
  unfold firstClear
  rw [List.find?_range_eq_some]
  simp only [Bool.not_eq_true', Bool.not_not, List.mem_range]
  tauto

theorem firstClear_eq_none : h.firstClear m = none ↔ ∀ i < flagCount m, h.flag m i = true := by
  unfold firstClear
  simp [List.find?_eq_none, List.mem_range]

/-! ## Records and blocks -/

theorem setRecord_other {i : Nat} {start len x : Int} (hx : x < h.slotAddr i ∨ h.slotAddr i + 12 ≤ x) :
    h.setRecord m i start len x = m x := by
  unfold setRecord
  rw [writeLE_other (by omega), writeLE_other (by omega)]

theorem record_congr {i : Nat} (he : ∀ x, h.slotAddr i ≤ x → x < h.slotAddr i + 16 → m' x = m x) :
    h.record m' i = h.record m i := by
  refine Prod.ext (readLE_congr fun x _ _ => ?_) (readLE_congr fun x _ _ => ?_)
  · exact he x (by omega) (by omega)
  · exact he x (by omega) (by omega)

theorem record_setRecord {i : Nat} {start len : Int} (hs : 0 ≤ start) (hl : 0 ≤ len) (hs' : start < 2 ^ 64)
    (hl' : len < 2 ^ 32) :
    h.record (h.setRecord m i start len) i = (start.toNat, len.toNat) := by
  refine Prod.ext ?_ ?_
  · show readLE (writeLE _ _ 4 _) _ 8 = _
    rw [readLE_writeLE_other (by omega), readLE_writeLE]
    exact Nat.mod_eq_of_lt (by norm_num; omega)
  · show readLE (writeLE _ _ 4 _) _ 4 = _
    rw [readLE_writeLE]
    exact Nat.mod_eq_of_lt (by norm_num; omega)

theorem slotAddr_apart {i j : Nat} (hne : i ≠ j) :
    h.slotAddr i + 16 ≤ h.slotAddr j ∨ h.slotAddr j + 16 ≤ h.slotAddr i := by
  unfold slotAddr
  omega

theorem zero_other {start len x : Int} (hx : x < start ∨ start + len ≤ x) : zero m start len x = m x := by
  refine write_other ?_
  rw [List.length_replicate]
  omega

/-! ## The layout -/

/-- Where the areas lie: the header, the flags, the records and the memory, one behind
the other, with room for every record and a flag for each. -/
structure Layout (m : Mem) (h : XStaticAlloc) : Prop where
  begun : h.hasBegin = true
  flagStart : h.pFlagStart = 24
  recordStart : h.pRecordStart = 24 + flagLen m
  start : h.pStart = h.pRecordStart + recordLen m
  slots : 16 * blockLimit m ≤ recordLen m
  flags : blockLimit m ≤ flagCount m
  fits : h.pStart ≤ h.nTotalLen
  total : h.nTotalLen < 2 ^ 31

/-- The members that no step but `Init` and `Refresh` sets. -/
structure SameArea (h h' : XStaticAlloc) : Prop where
  hasBegin : h'.hasBegin = h.hasBegin
  nTotalLen : h'.nTotalLen = h.nTotalLen
  pFlagStart : h'.pFlagStart = h.pFlagStart
  pRecordStart : h'.pRecordStart = h.pRecordStart
  pStart : h'.pStart = h.pStart

theorem Layout.congr {h' : XStaticAlloc} (hL : Layout m h) (hh : SameArea h h')
    (hl : blockLimit m' = blockLimit m) (hf : flagLen m' = flagLen m) (hr : recordLen m' = recordLen m) :
    Layout m' h' where
  begun := hh.hasBegin ▸ hL.begun
  flagStart := hh.pFlagStart ▸ hL.flagStart
  recordStart := by rw [hh.pRecordStart, hf]; exact hL.recordStart
  start := by rw [hh.pStart, hh.pRecordStart, hr]; exact hL.start
  slots := by rw [hl, hr]; exact hL.slots
  flags := by rw [hl, flagCount, hf]; exact hL.flags
  fits := by rw [hh.pStart, hh.nTotalLen]; exact hL.fits
  total := hh.nTotalLen ▸ hL.total

theorem Layout.flagAddr_lt (hL : Layout m h) {i : Nat} (hi : i < flagCount m) :
    24 ≤ h.flagAddr i ∧ h.flagAddr i < h.pRecordStart := by
  have := hL.flagStart
  have := hL.recordStart
  unfold flagCount at hi
  unfold flagAddr
  omega

theorem Layout.slotAddr_le (hL : Layout m h) {i : Nat} (hi : i < blockLimit m) :
    h.pRecordStart ≤ h.slotAddr i ∧ h.slotAddr i + 16 ≤ h.pStart := by
  have := hL.start
  have := hL.slots
  unfold slotAddr
  omega

theorem flagAddr_congr {h' : XStaticAlloc} (hh : SameArea h h') (i : Nat) : h'.flagAddr i = h.flagAddr i := by
  rw [flagAddr, hh.pFlagStart, flagAddr]

theorem slotAddr_congr {h' : XStaticAlloc} (hh : SameArea h h') (i : Nat) : h'.slotAddr i = h.slotAddr i := by
  rw [slotAddr, hh.pRecordStart, slotAddr]

theorem flag_congr_area {h' : XStaticAlloc} (hh : SameArea h h') (i : Nat) : h'.flag m i = h.flag m i := by
  rw [flag, flagAddr_congr hh, flag]

theorem record_congr_area {h' : XStaticAlloc} (hh : SameArea h h') (i : Nat) : h'.record m i = h.record m i := by
  rw [record, slotAddr_congr hh, record]

/-! ## Taking a slot -/

theorem takeFlag_other (hL : Layout m h) {x : Int} (hx : x < 24 ∨ h.pRecordStart ≤ x) : h.takeFlag m x = m x := by
  unfold takeFlag
  cases hc : h.firstClear m with
  | some i =>
    have := hL.flagAddr_lt (mem_firstClear.1 hc).1
    exact setFlag_other (by omega)
  | none => rfl

theorem takeFlag_header (hL : Layout m h) : SameHeader m (h.takeFlag m) :=
  .of_bytes fun _ _ hx => takeFlag_other hL (.inl hx)

theorem newIndex_lt (hL : Layout m h) (hi : h.newIndex m < blockLimit m) : h.newIndex m < flagCount m :=
  Nat.lt_of_lt_of_le hi hL.flags

/-- After the flag is taken the flag of the new slot is set, whether or not it was before. -/
theorem flag_takeFlag {j : Nat} (hj : j < flagCount m) :
    h.flag (h.takeFlag m) j = (decide (j = h.newIndex m) || h.flag m j) := by
  unfold takeFlag newIndex
  cases hc : h.firstClear m with
  | some i => exact flag_setFlag i j
  | none => simp [firstClear_eq_none.1 hc j hj]

/-- The bytes `register` leaves behind, with the header it starts from. -/
theorem register_eq (hL : Layout m h) (start len : Int) : register m h start len =
    if h.newIndex m < blockLimit m then
      (some start, zero (setUseCount (h.setRecord (h.takeFlag m) (h.newIndex m) start len) (useCount m + 1)) start len,
        { h with recordMap := h.recordMap.insert start (h.newIndex m), recordInfo := h.recordInfo.insert start len })
    else (some start, zero (h.takeFlag m) start len, h) := by
  have hT := takeFlag_header hL
  simp only [register, hT.blockLimit]
  split
  · rename_i hi
    have hslot := hL.slotAddr_le hi
    have hrec := hL.recordStart
    have hc : SameHeader (h.takeFlag m) (h.setRecord (h.takeFlag m) (h.newIndex m) start len) :=
      .of_bytes fun x _ hx => setRecord_other (by omega)
    rw [hc.useCount, hT.useCount]
  · rfl

theorem register_fst (start len : Int) : (register m h start len).1 = some start := by
  simp only [register]
  split <;> rfl

theorem register_area (start len : Int) : SameArea h (register m h start len).2.2 := by
  simp only [register]
  split <;> exact ⟨rfl, rfl, rfl, rfl, rfl⟩

@[simp] theorem register_rangeSet (start len : Int) : (register m h start len).2.2.rangeSet = h.rangeSet := by
  simp only [register]
  split <;> rfl

/-- `register` changes the count, a flag, the record it writes and the block. -/
theorem register_bytes (hL : Layout m h) (start len : Int) {x : Int} (hx : x < 8 ∨ 10 ≤ x)
    (hf : x < 24 ∨ h.pRecordStart ≤ x)
    (hr : h.newIndex m < blockLimit m → x < h.slotAddr (h.newIndex m) ∨ h.slotAddr (h.newIndex m) + 16 ≤ x)
    (hb : x < start ∨ start + len ≤ x) : (register m h start len).2.1 x = m x := by
  rw [register_eq hL]
  split
  · rename_i hi
    have hr := hr hi
    simp only
    rw [zero_other hb, setUseCount_other hx, setRecord_other (by omega), takeFlag_other hL hf]
  · simp only
    rw [zero_other hb, takeFlag_other hL hf]

/-- The header after `register`, for a block behind the flags. -/
theorem register_header (hL : Layout m h) {start : Int} (len : Int) (hs : h.pRecordStart ≤ start) :
    let m' := (register m h start len).2.1
    useCount m' = (if h.newIndex m < blockLimit m then (useCount m + 1) % 2 ^ 16 else useCount m) ∧
      blockLimit m' = blockLimit m ∧ flagLen m' = flagLen m ∧ recordLen m' = recordLen m ∧
      recordOffset m' = recordOffset m := by
  have hrec := hL.recordStart
  have hT := takeFlag_header hL
  have hz : ∀ m₁ : Mem, SameHeader m₁ (zero m₁ start len) := fun m₁ =>
    .of_bytes fun x _ hx => zero_other (by omega)
  simp only [register_eq hL]
  split
  · rename_i hi
    have hslot := hL.slotAddr_le hi
    have hc : SameHeader (h.takeFlag m) (h.setRecord (h.takeFlag m) (h.newIndex m) start len) :=
      .of_bytes fun x _ hx => setRecord_other (by omega)
    simp only [(hz _).useCount, (hz _).blockLimit, (hz _).flagLen, (hz _).recordLen, (hz _).recordOffset,
      useCount_setUseCount, blockLimit_setUseCount, flagLen_setUseCount, recordLen_setUseCount,
      recordOffset_setUseCount, hc.blockLimit, hc.flagLen, hc.recordLen, hc.recordOffset, hT.blockLimit,
      hT.flagLen, hT.recordLen, hT.recordOffset, and_self]
  · simp only [(hz _).useCount, (hz _).blockLimit, (hz _).flagLen, (hz _).recordLen, (hz _).recordOffset,
      hT.useCount, hT.blockLimit, hT.flagLen, hT.recordLen, hT.recordOffset, and_self]

/-- The record of a block behind its slot, after `register`. -/
theorem register_record (hL : Layout m h) {start len : Int} (hi : h.newIndex m < blockLimit m)
    (hb : h.slotAddr (h.newIndex m) + 16 ≤ start) (hs : start < 2 ^ 64) (hl : 0 ≤ len ∧ len < 2 ^ 32) :
    h.record (register m h start len).2.1 (h.newIndex m) = (start.toNat, len.toNat) := by
  have hslot := hL.slotAddr_le hi
  have hrec := hL.recordStart
  rw [register_eq hL, if_pos hi, ← record_setRecord (m := h.takeFlag m) (by omega) hl.1 hs hl.2]
  refine record_congr fun x h₁ h₂ => ?_
  simp only
  rw [zero_other (by omega), setUseCount_other (by omega)]

/-- The flags after `register`, for a block behind the flags. -/
theorem register_flag (hL : Layout m h) {start : Int} (len : Int) (hs : h.pRecordStart ≤ start) {j : Nat}
    (hj : j < flagCount m) :
    h.flag (register m h start len).2.1 j = (decide (j = h.newIndex m) || h.flag m j) := by
  have ha := hL.flagAddr_lt hj
  rw [← flag_takeFlag hj, register_eq hL]
  split
  · rename_i hi
    have hslot := hL.slotAddr_le hi
    refine flag_congr ?_
    simp only
    rw [zero_other (by omega), setUseCount_other (by omega), setRecord_other (by omega)]
  · exact flag_congr (zero_other (by omega))

/-! ## Where `Alloc` takes its memory from -/

/-- The three ways of `Alloc`: from the first free range that is long enough, not at all,
or by the squeeze. -/
theorem alloc_cases (m : Mem) (h : XStaticAlloc) (len : Int) :
    (∃ itf ∈ h.rangeSet, len ≤ itf.2 ∧
      alloc m h len = register m { h with rangeSet := takeFrom h.rangeSet itf len } itf.1 len) ∨
    ((∀ itf ∈ h.rangeSet, itf.2 < len) ∧ h.limit m - h.extBegin m < len ∧ alloc m h len = (none, m, h)) ∨
    ((∀ itf ∈ h.rangeSet, itf.2 < len) ∧ len ≤ h.limit m - h.extBegin m ∧
      alloc m h len =
        register (setRecordOffset m (h.pStart - (h.limit m - len)).toNat) h (h.limit m - len) len) := by
  unfold alloc
  cases hf : h.rangeSet.entries.find? fun r => decide (len ≤ r.2) with
  | some itf =>
    have hle := List.find?_some hf
    exact .inl ⟨itf, List.mem_of_find?_eq_some hf, by simpa using hle, rfl⟩
  | none =>
    have hno : ∀ itf ∈ h.rangeSet, itf.2 < len := fun itf hi => by
      have := List.find?_eq_none.1 hf itf hi
      simpa using this
    by_cases hsq : h.limit m - h.extBegin m < len
    · exact .inr (.inl ⟨hno, hsq, by simp only [hsq, if_true]⟩)
    · exact .inr (.inr ⟨hno, by omega, by simp only [hsq, if_false]⟩)

/-! ## The correction of the record offset -/

theorem pullBack_other {x : Int} (hx : x < 20 ∨ 24 ≤ x) : (pullBack m h).1 x = m x := by
  unfold pullBack
  split
  · rfl
  · split
    · split
      · exact setRecordOffset_other hx
      · exact setRecordOffset_other hx
    · rfl

theorem pullBack_area : SameArea h (pullBack m h).2 := by
  unfold pullBack
  split
  · exact ⟨rfl, rfl, rfl, rfl, rfl⟩
  · split
    · split <;> exact ⟨rfl, rfl, rfl, rfl, rfl⟩
    · exact ⟨rfl, rfl, rfl, rfl, rfl⟩

theorem pullBack_maps : (pullBack m h).2.recordMap = h.recordMap ∧ (pullBack m h).2.recordInfo = h.recordInfo := by
  unfold pullBack
  split
  · exact ⟨rfl, rfl⟩
  · split
    · split <;> exact ⟨rfl, rfl⟩
    · exact ⟨rfl, rfl⟩

/-! ## The members no call sets -/

theorem SameArea.trans {h₁ h₂ h₃ : XStaticAlloc} (h : SameArea h₁ h₂) (h' : SameArea h₂ h₃) : SameArea h₁ h₃ :=
  ⟨h'.1.trans h.1, h'.2.trans h.2, h'.3.trans h.3, h'.4.trans h.4, h'.5.trans h.5⟩

theorem alloc_area (len : Int) : SameArea h (alloc m h len).2.2 := by
  rcases alloc_cases m h len with ⟨itf, -, -, heq⟩ | ⟨-, -, heq⟩ | ⟨-, -, heq⟩
  · rw [heq]
    have := register_area (m := m) (h := { h with rangeSet := takeFrom h.rangeSet itf len }) itf.1 len
    exact ⟨this.1, this.2, this.3, this.4, this.5⟩
  · rw [heq]
    exact ⟨rfl, rfl, rfl, rfl, rfl⟩
  · rw [heq]
    exact register_area _ _

theorem free_area (p : Int) : SameArea h (free m h p).2 := by
  unfold free
  split
  · obtain ⟨h₁, h₂, h₃, h₄, h₅⟩ := pullBack_area
    exact ⟨h₁, h₂, h₃, h₄, h₅⟩
  · exact ⟨rfl, rfl, rfl, rfl, rfl⟩

/-! ## A formatted area -/

/-- How many records an area of `nLen` bytes is formatted for. -/
def slotCount (nLen : Int) : Nat := (nLen - 24).toNat * 8 / 137

/-- A freshly formatted area: nothing in use, the memory behind the records free. -/
structure Formatted (nLen : Int) (m : Mem) (h : XStaticAlloc) : Prop where
  hasBegin : h.hasBegin = true
  nTotalLen : h.nTotalLen = nLen
  pFlagStart : h.pFlagStart = 24
  pRecordStart : h.pRecordStart = 24 + ((slotCount nLen + 7) / 8 : Nat)
  pStart : h.pStart = h.pRecordStart + 16 * (slotCount nLen : Int)
  recordMap : h.recordMap = .empty
  recordInfo : h.recordInfo = .empty
  rangeSet : h.rangeSet = .insert .empty h.pStart (nLen - h.pStart)
  symbol : read m 0 8 = symbol
  useCount : useCount m = 0
  blockLimit : blockLimit m = slotCount nLen % 2 ^ 16
  flagLen : flagLen m = (slotCount nLen + 7) / 8
  recordLen : recordLen m = slotCount nLen * 16
  recordOffset : recordOffset m = 0
  flags : ∀ i < flagCount m, h.flag m i = false

theorem zero_at {start len x : Int} (hx : start ≤ x ∧ x < start + len) : zero m start len x = 0 := by
  obtain ⟨i, hi, rfl⟩ : ∃ i : Nat, i < len.toNat ∧ x = start + i := ⟨(x - start).toNat, by omega, by omega⟩
  have hlt : i < (List.replicate len.toNat (0 : UInt8)).length := by rwa [List.length_replicate]
  rw [zero, write_at hlt, List.getElem_replicate]

/-- The areas of a formatted area fit in it, with one byte of memory to spare for each record. -/
theorem slotCount_fits {nLen : Int} (h₁ : 24 ≤ nLen) :
    24 + ((slotCount nLen + 7) / 8 : Nat) + 16 * (slotCount nLen : Int) + slotCount nLen ≤ nLen := by
  have h : 137 * slotCount nLen ≤ 8 * (nLen - 24).toNat := by
    unfold slotCount
    omega
  generalize slotCount nLen = n at *
  omega

theorem formatBlockArea_formatted {nLen : Int} (hb : h.hasBegin = true) (hn : h.nTotalLen = nLen)
    (hm : h.recordMap = .empty) (hi : h.recordInfo = .empty) (hr : h.rangeSet = .empty)
    (h₁ : 24 ≤ nLen) (h₂ : nLen < 2 ^ 31) :
    Formatted nLen (formatBlockArea m h).1 (formatBlockArea m h).2 := by
  have hfits := slotCount_fits h₁
  have hcount : ((nLen - 24) % 2 ^ 32).toNat * 8 / 137 = slotCount nLen := by
    rw [slotCount, Int.emod_eq_of_lt (by omega) (by omega)]
  have hsym : (if slotCount nLen % 8 ≠ 0 then slotCount nLen / 8 + 1 else slotCount nLen / 8) =
      (slotCount nLen + 7) / 8 := by
    split <;> omega
  simp only [formatBlockArea, hn, hcount, hsym]
  have hlt : slotCount nLen * 16 < 2 ^ 32 := by omega
  generalize hc : slotCount nLen = n at *
  -- the stores, in their order
  generalize hm₀ : write (zero m 0 nLen) 0 (symbol ++ [0]) = m₀
  generalize hm₁ : setRecordOffset (writeLE (writeLE m₀ 12 4 ((n + 7) / 8)) 16 4 (n * 16)) 0 = m₁
  have hfl : flagLen m₁ = (n + 7) / 8 := by
    rw [← hm₁, flagLen_setRecordOffset, flagLen, readLE_writeLE_other (by omega), readLE_writeLE]
    exact Nat.mod_eq_of_lt (by omega)
  have hrl : recordLen m₁ = n * 16 := by
    rw [← hm₁, recordLen_setRecordOffset, recordLen, readLE_writeLE]
    exact Nat.mod_eq_of_lt (by omega)
  have hro : recordOffset m₁ = 0 := by
    rw [← hm₁, recordOffset_setRecordOffset, Nat.zero_mod]
  have hbyte : ∀ x : Int, x < 8 ∨ 24 ≤ x → writeLE (setUseCount m₁ 0) 10 2 n x = m₀ x := fun x hx => by
    rw [writeLE_other (by omega), setUseCount_other (by omega), ← hm₁, setRecordOffset_other (by omega),
      writeLE_other (by omega), writeLE_other (by omega)]
  have hflag : flagLen (writeLE (setUseCount m₁ 0) 10 2 n) = (n + 7) / 8 := by
    rw [flagLen, readLE_writeLE_other (by omega)]
    exact (flagLen_setUseCount 0).trans hfl
  exact {
    hasBegin := hb
    nTotalLen := rfl
    pFlagStart := rfl
    pRecordStart := by rw [hfl, hc]
    pStart := by
      rw [hrl, hc]
      push_cast
      simp only [mul_comm]
    recordMap := hm
    recordInfo := hi
    rangeSet := by
      have hremain : (nLen - (24 + ((n + 7) / 8 : Nat) + (n * 16 : Nat))).bmod (2 ^ 32) =
          nLen - (24 + ((n + 7) / 8 : Nat) + (n * 16 : Nat)) := Int.bmod_eq_of_le (by omega) (by omega)
      rw [hr, hfl, hrl, hremain]
    symbol := by
      rw [read_congr (m := m₀) fun x _ hx => hbyte x (.inl (by omega)), ← hm₀]
      have h := read_write_self (zero m 0 nLen) 0 (symbol ++ [0])
      rw [show (symbol ++ [0] : List UInt8).length = 8 + 1 from rfl, read_append] at h
      exact (List.append_inj h rfl).1
    useCount := by
      rw [useCount, readLE_writeLE_other (by omega)]
      exact useCount_setUseCount 0
    blockLimit := by
      rw [blockLimit, readLE_writeLE, hc]
      rfl
    flagLen := by rw [hflag, hc]
    recordLen := by
      rw [recordLen, readLE_writeLE_other (by omega), hc]
      exact (recordLen_setUseCount 0).trans hrl
    recordOffset := by
      rw [recordOffset, readLE_writeLE_other (by omega)]
      exact (recordOffset_setUseCount 0).trans hro
    flags := by
      intro i hi
      rw [flagCount, hflag] at hi
      have ha : m₀ (24 + (i / 8 : Nat)) = 0 := by
        rw [← hm₀, write_other (.inr _)]
        · exact zero_at (by omega)
        · show (0 : Int) + ((8 + 1 : Nat) : Int) ≤ _
          omega
      simp only [flag, flagAddr]
      rw [hbyte _ (by omega), ha]
      simp }

/-- `Init` formats a raw area. -/
theorem init_eq_zero {area : Mem} {h₀ : XStaticAlloc} {nLen : Int} (hinit : init (some area) h₀ nLen = (0, some m, h)) :
    formatBlockArea area { h₀ with
      hasBegin := true, nTotalLen := nLen, recordMap := .empty, recordInfo := .empty, rangeSet := .empty } = (m, h) := by
  rw [init] at hinit
  split_ifs at hinit
  · simp at hinit
  · exact Prod.ext (by simpa using congrArg (·.2.1) hinit) (congrArg (·.2.2) hinit)
  · simp at hinit

theorem init_formatted {area : Mem} {h₀ : XStaticAlloc} {nLen : Int} (hinit : init (some area) h₀ nLen = (0, some m, h))
    (h₁ : 24 ≤ nLen) (h₂ : nLen < 2 ^ 31) : Formatted nLen m h := by
  have hformat := init_eq_zero hinit
  have hF := formatBlockArea_formatted (m := area) (h := { h₀ with
    hasBegin := true, nTotalLen := nLen, recordMap := .empty, recordInfo := .empty, rangeSet := .empty })
    rfl rfl rfl rfl rfl h₁ h₂
  rwa [hformat] at hF

/-- What `Init` makes of an area of zeros. -/
def formatted (nLen : Int) : Mem × XStaticAlloc :=
  formatBlockArea (fun _ => 0) { new with hasBegin := true, nTotalLen := nLen }

theorem init_zeros {nLen : Int} (hpos : 0 < nLen) :
    init (some fun _ => 0) new nLen = (0, some (formatted nLen).1, (formatted nLen).2) := by
  have hc : ¬(nLen ≤ 0 ∨ new.hasBegin = true ∨ 0 < new.nTotalLen) := by
    simp [new]
    omega
  have hraw : isRawBlockArea (fun _ => 0) = true := by decide
  simp only [init, if_neg hc, hraw, if_true]
  rfl

theorem layout_of_formatted {nLen : Int} (hF : Formatted nLen m h) (h₁ : 24 ≤ nLen) (h₂ : nLen < 2 ^ 31) :
    Layout m h := by
  have hfits := slotCount_fits h₁
  have hlim : blockLimit m ≤ slotCount nLen := by
    rw [hF.blockLimit]
    exact Nat.mod_le _ _
  refine ⟨hF.hasBegin, hF.pFlagStart, ?_, ?_, ?_, ?_, ?_, ?_⟩
  · rw [hF.pRecordStart, hF.flagLen]
  · rw [hF.pStart, hF.recordLen]
    omega
  · rw [hF.recordLen]
    omega
  · rw [flagCount, hF.flagLen]
    omega
  · rw [hF.pStart, hF.pRecordStart, hF.nTotalLen]
    omega
  · rw [hF.nTotalLen]
    exact h₂

/-! ## The layout after Init -/

/-- The header, the flags, the records and the free memory lie one behind the other in the area, with a record of 16 bytes
and a flag for each block that `GetMgrBlockCountLimit` reports. -/
structure LaidOut (m : Mem) (h : XStaticAlloc) (nLen : Int) : Prop where
  flags : h.pFlagStart = 24
  records : h.pRecordStart = h.pFlagStart + flagLen m
  memory : h.pStart = h.pRecordStart + recordLen m
  inside : h.pStart ≤ nLen
  capacity : (recordLen m : Int) = 16 * h.getMgrBlockCountLimit m
  flagged : h.getMgrBlockCountLimit m ≤ 8 * (flagLen m : Int)
  free : h.rangeSet.entries = [(h.pStart, nLen - h.pStart)]

/-- An area below the header is formatted for the records that the wrapped length has room for. -/
theorem lt_pStart_of_short {nLen : Int} (hn : h.nTotalLen = nLen) (hpos : 0 < nLen) (hshort : nLen < 24) :
    nLen < (formatBlockArea m h).2.pStart := by
  simp only [formatBlockArea, hn]
  generalize hcount : ((nLen - 24) % 2 ^ 32).toNat * 8 / 137 = n
  generalize (if n % 8 ≠ 0 then n / 8 + 1 else n / 8) = symbols
  rw [recordLen_setRecordOffset, recordLen, readLE_writeLE, Nat.mod_eq_of_lt (by omega)]
  omega

theorem laidOut_of_formatted {nLen : Int} (hF : Formatted nLen m h) (h₁ : 24 ≤ nLen) (h₂ : nLen < 2 ^ 31)
    (hfew : slotCount nLen < 2 ^ 16) : LaidOut m h nLen := by
  have hL := layout_of_formatted hF h₁ h₂
  have hlimit : h.getMgrBlockCountLimit m = slotCount nLen := by
    rw [getMgrBlockCountLimit, if_pos hF.hasBegin, hF.blockLimit, Nat.mod_eq_of_lt hfew]
  constructor
  case flags => exact hL.flagStart
  case records => rw [hL.recordStart, hL.flagStart]
  case memory => exact hL.start
  case inside => exact hF.nTotalLen ▸ hL.fits
  case capacity =>
    rw [hlimit, hF.recordLen]
    omega
  case flagged =>
    rw [hlimit, hF.flagLen]
    omega
  case free =>
    rw [hF.rangeSet]
    rfl

/-- `Init` lays a raw area out as it should exactly when the area has room for the header, and for fewer records than 16
bits can count. -/
theorem init_laidOut_iff {area : Mem} {h₀ : XStaticAlloc} {nLen : Int} (hpos : 0 < nLen) (hint : nLen < 2 ^ 31)
    (hinit : init (some area) h₀ nLen = (0, some m, h)) : LaidOut m h nLen ↔ 24 ≤ nLen ∧ nLen < 1122328 := by
  by_cases hshort : nLen < 24
  · refine iff_of_false (fun hlaid => ?_) fun h => by omega
    have hlt := lt_pStart_of_short (m := area) (h := { h₀ with
      hasBegin := true, nTotalLen := nLen, recordMap := .empty, recordInfo := .empty, rangeSet := .empty }) rfl hpos hshort
    rw [init_eq_zero hinit] at hlt
    exact absurd hlaid.inside (not_le.2 hlt)
  · have hF := init_formatted hinit (not_lt.1 hshort) hint
    have hfew : slotCount nLen < 2 ^ 16 ↔ nLen < 1122328 := by
      unfold slotCount
      omega
    rw [and_iff_right (not_lt.1 hshort), ← hfew]
    refine ⟨fun hlaid => ?_, laidOut_of_formatted hF (not_lt.1 hshort) hint⟩
    have hcapacity := hlaid.capacity
    rw [getMgrBlockCountLimit, if_pos hF.hasBegin, hF.recordLen, hF.blockLimit] at hcapacity
    omega

theorem init_laidOut_iff_zeros : LaidOut (formatted 200).1 (formatted 200).2 200 ↔ (24 : Int) ≤ 200 ∧ (200 : Int) < 1122328 :=
  init_laidOut_iff (by decide) (by decide) (init_zeros (by decide))

/-- The records of an area of ten bytes begin behind its end. -/
theorem not_laidOut_short : ¬∀ (area m : Mem) (h₀ h : XStaticAlloc) (nLen : Int), 0 < nLen → nLen < 2 ^ 31 →
    init (some area) h₀ nLen = (0, some m, h) → LaidOut m h nLen := by
  intro hall
  have hlaid := hall _ _ _ _ 10 (by decide) (by decide) (init_zeros (by decide))
  exact absurd hlaid.inside (not_le.2 (lt_pStart_of_short rfl (by decide) (by decide)))

end XStaticAlloc
