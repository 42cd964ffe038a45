/-
`XStaticAlloc` (Mem/XStaticAlloc.h, Mem/XStaticAlloc.cpp): an allocator over one
raw area whose bookkeeping lies in the area itself, so that several handles
can share it.

    [identifier 8][count 2 | limit 2][flag length 4][record length 4][offset 4]
    [flags][records][memory]

A pointer is kept as its distance from `m_pBegin`. The code only compares,
adds to and subtracts pointers into the one area, so this is its pointer
arithmetic up to a shift; `NULL` and any other pointer from outside are
distances too, which no map holds, and `alloc` answers `none` for `NULL`.
Integers are LP64: a `RangeInfo` takes 16 bytes (a pointer, an `unsigned`
and four bytes of padding, which the model leaves as they are).
-/
import XFramework.Lib.Bytes
import XFramework.Lib.StdMap
import XFramework.Lib.Span

open Bytes

/-- The members of a handle. -/
structure XStaticAlloc where
  /-- `NULL != m_pBegin`. -/
  hasBegin : Bool
  nTotalLen : Int
  pFlagStart : Int
  pRecordStart : Int
  pStart : Int
  recordMap : StdMap Int Nat
  recordInfo : StdMap Int Int
  rangeSet : StdMap Int Int
  deriving DecidableEq

namespace XStaticAlloc

/-- The constructor. -/
def new : XStaticAlloc := ⟨false, 0, 0, 0, 0, .empty, .empty, .empty⟩

/-! ## The header -/

/-- `STATIC_UNIQUE_SYMBOL`, "MemAlloc". -/
def symbol : List UInt8 := [77, 101, 109, 65, 108, 108, 111, 99]

/-- `pCount[0]`, blocks registered. -/
def useCount (m : Mem) : Nat := readLE m 8 2

/-- `pCount[1]`, record slots there are. -/
def blockLimit (m : Mem) : Nat := readLE m 10 2

/-- `*m_pFlagLen`. -/
def flagLen (m : Mem) : Nat := readLE m 12 4

/-- `*m_pRecordLen`. -/
def recordLen (m : Mem) : Nat := readLE m 16 4

/-- `*m_pRecordOffset`: how far user memory reaches down into the records. -/
def recordOffset (m : Mem) : Nat := readLE m 20 4

def setUseCount (m : Mem) (n : Nat) : Mem := writeLE m 8 2 n

def setRecordOffset (m : Mem) (n : Nat) : Mem := writeLE m 20 4 n

def getUseCount (m : Mem) (h : XStaticAlloc) : Int := if h.hasBegin then useCount m else -1

def getMgrBlockCountLimit (m : Mem) (h : XStaticAlloc) : Int := if h.hasBegin then blockLimit m else -1

/-! ## Flags and records -/

/-- The address of the byte with flag `i`. -/
def flagAddr (h : XStaticAlloc) (i : Nat) : Int := h.pFlagStart + (i / 8 : Nat)

/-- Flag `i`. -/
def flag (m : Mem) (h : XStaticAlloc) (i : Nat) : Bool := (m (h.flagAddr i)).toNat.testBit (i % 8)

/-- `m_pFlagStart[i / 8] |= 0x1 << i % 8`. -/
def setFlag (m : Mem) (h : XStaticAlloc) (i : Nat) : Mem :=
  write m (h.flagAddr i) [UInt8.ofNat ((m (h.flagAddr i)).toNat ||| 1 <<< (i % 8))]

/-- `m_pFlagStart[i / 8] &= ~(0x1 << i % 8)`. -/
def clearFlag (m : Mem) (h : XStaticAlloc) (i : Nat) : Mem :=
  write m (h.flagAddr i) [UInt8.ofNat ((m (h.flagAddr i)).toNat &&& (255 ^^^ 1 <<< (i % 8)))]

/-- How many flags the flag area holds, whether or not there is a slot for each. -/
def flagCount (m : Mem) : Nat := flagLen m * 8

/-- The address of record slot `i`. -/
def slotAddr (h : XStaticAlloc) (i : Nat) : Int := h.pRecordStart + 16 * (i : Int)

/-- `pInfo[i]` as stored, its start the distance from `m_pBegin`. -/
def record (m : Mem) (h : XStaticAlloc) (i : Nat) : Nat × Nat :=
  (readLE m (h.slotAddr i) 8, readLE m (h.slotAddr i + 8) 4)

/-- `pInfo[i] = { start, len }`. -/
def setRecord (m : Mem) (h : XStaticAlloc) (i : Nat) (start len : Int) : Mem :=
  writeLE (writeLE m (h.slotAddr i) 8 start.toNat) (h.slotAddr i + 8) 4 len.toNat

/-- `memset(start, 0, len)`. -/
def zero (m : Mem) (start len : Int) : Mem := write m start (List.replicate len.toNat 0)

/-! ## Alloc -/

/-- `nCurIndex` after the counting loop of the squeeze: the flag that brings the
number of flags set so far to `pCount[0]`, or the last flag. -/
def lastUsed (m : Mem) (h : XStaticAlloc) : Nat :=
  let n := flagCount m
  match (List.range n).find? fun i => h.flag m i && ((List.range (i + 1)).filter (h.flag m)).length == useCount m with
  | some i => i
  | none => n - 1

/-- The first flag not set. -/
def firstClear (m : Mem) (h : XStaticAlloc) : Option Nat := (List.range (flagCount m)).find? fun i => !h.flag m i

/-- The lower end of the memory for blocks. -/
def limit (m : Mem) (h : XStaticAlloc) : Int := h.pStart - recordOffset m

/-- `pExtBegin`: one slot past the last one in use is kept for the new record. -/
def extBegin (m : Mem) (h : XStaticAlloc) : Int := h.pRecordStart + 16 * ((h.lastUsed m : Int) + 2)

/-- `nCurIndex` after the search for an unused index: the first flag not set, or the last flag. -/
def newIndex (m : Mem) (h : XStaticAlloc) : Nat := (h.firstClear m).getD (flagCount m - 1)

/-- The flag that search sets, when it finds one. -/
def takeFlag (m : Mem) (h : XStaticAlloc) : Mem :=
  match h.firstClear m with
  | some i => h.setFlag m i
  | none => m

/-- The part of `Alloc` behind the search for memory: a slot is taken, the record
written when the slot is below the limit, and the block zeroed. -/
def register (m : Mem) (h : XStaticAlloc) (start len : Int) : Option Int × Mem × XStaticAlloc :=
  let curIndex := h.newIndex m
  let m := h.takeFlag m
  if curIndex < blockLimit m then
    let m := h.setRecord m curIndex start len
    let m := setUseCount m (useCount m + 1)
    (some start, zero m start len,
      { h with recordMap := h.recordMap.insert start curIndex, recordInfo := h.recordInfo.insert start len })
  else (some start, zero m start len, h)

/-- What is left of the free range `itf` when `len` bytes are taken from its start. -/
def takeFrom (ranges : StdMap Int Int) (itf : Span) (len : Int) : StdMap Int Int :=
  let ranges := ranges.erase itf.1
  if 0 < itf.2 - len then ranges.insert (itf.1 + len) (itf.2 - len) else ranges

def alloc (m : Mem) (h : XStaticAlloc) (len : Int) : Option Int × Mem × XStaticAlloc :=
  match h.rangeSet.entries.find? fun r => decide (len ≤ r.2) with
  | some itf => register m { h with rangeSet := takeFrom h.rangeSet itf len } itf.1 len
  | none =>
    -- the squeeze: user memory grows down into the unused records
    if h.limit m - h.extBegin m < len then (none, m, h)
    else
      let need := h.limit m - len
      register (setRecordOffset m (h.pStart - need).toNat) h need len

/-! ## Free -/

/-- The merging loop of `Free`. -/
def mergeRanges (s : StdMap Int Int) : StdMap Int Int :=
  ⟨Span.coalesce s.entries, Span.pairwise_coalesce s.sorted⟩

/-- The correction of the record offset in `Free`: free memory at the lower end goes
back to the records, as far as `m_pStart`. -/
def pullBack (m : Mem) (h : XStaticAlloc) : Mem × XStaticAlloc :=
  match h.rangeSet.entries with
  | [] => (m, h)
  | first :: _ =>
    if 0 < recordOffset m ∧ first.1 = h.limit m then
      if first.2 ≤ recordOffset m then
        (setRecordOffset m (recordOffset m - first.2.toNat), { h with rangeSet := h.rangeSet.erase first.1 })
      else
        (setRecordOffset m 0,
          { h with rangeSet := (h.rangeSet.erase first.1).insert h.pStart (first.2 - recordOffset m) })
    else (m, h)

def free (m : Mem) (h : XStaticAlloc) (p : Int) : Mem × XStaticAlloc :=
  match h.recordInfo.find? p, h.recordMap.find? p with
  | some len, some index =>
    let m := h.clearFlag m index
    let m := setUseCount m (useCount m + (2 ^ 16 - 1))
    pullBack m { h with
      recordInfo := h.recordInfo.erase p
      recordMap := h.recordMap.erase p
      rangeSet := mergeRanges (h.rangeSet.insert p len) }
  | _, _ => (m, h)

/-! ## Init and Refresh -/

/-- `FormatBlockArea`. The division by 17.125 is exact as 137 eighths; `m_nTotalLen` is
`unsigned`, so a total below the header wraps around, and `nRemain` is an `int`. -/
def formatBlockArea (m : Mem) (h : XStaticAlloc) : Mem × XStaticAlloc :=
  let m := zero m 0 h.nTotalLen
  let m := write m 0 (symbol ++ [0])
  let maxCount := ((h.nTotalLen - 24) % 2 ^ 32).toNat * 8 / 137
  let symbols := if maxCount % 8 ≠ 0 then maxCount / 8 + 1 else maxCount / 8
  let m := writeLE m 12 4 symbols
  let m := writeLE m 16 4 (maxCount * 16)
  let m := setRecordOffset m 0
  let pRecordStart : Int := 24 + flagLen m
  let pStart : Int := pRecordStart + recordLen m
  let nRemain := (h.nTotalLen - pStart).bmod (2 ^ 32)
  let m := setUseCount m 0
  let m := writeLE m 10 2 maxCount
  (m, { h with
    pFlagStart := 24, pRecordStart := pRecordStart, pStart := pStart
    rangeSet := h.rangeSet.insert pStart nRemain })

/-- A number stored in 32 bits or more, cast to `int`. -/
def toInt (n : Nat) : Int := (n : Int).bmod (2 ^ 32)

/-- The reading loop of `LoadBlockArea` at flag `i`. -/
def loadSlot (m : Mem) (h : XStaticAlloc) (i : Nat) : XStaticAlloc :=
  if h.flag m i then
    let info := h.record m i
    { h with
      recordMap := h.recordMap.insert (toInt info.1) i
      recordInfo := h.recordInfo.insert (toInt info.1) (toInt info.2) }
  else h

/-- The gap loop of `LoadBlockArea` behind its first block: the space before each
block but the last, and the space after the last. -/
def loadGaps (pEnd : Int) (s : StdMap Int Int) (prev : Span) : List Span → StdMap Int Int
  | [] => s
  | [it] =>
    let pNext := it.1 + it.2
    if pEnd - pNext ≠ 0 then s.insert pNext (pEnd - pNext) else s
  | it :: it' :: rest =>
    let pPrev := prev.1 + prev.2
    loadGaps pEnd (if it.1 - pPrev ≠ 0 then s.insert pPrev (it.1 - pPrev) else s) it (it' :: rest)

/-- The free ranges `LoadBlockArea` adds to `s` for the blocks it has read. -/
def loadRanges (pStart pEnd : Int) (s : StdMap Int Int) : List Span → StdMap Int Int
  | [] => s.insert pStart (pEnd - pStart)
  | first :: rest =>
    loadGaps pEnd (if pStart < first.1 then s.insert pStart (first.1 - pStart) else s) first rest

def loadBlockArea (m : Mem) (h : XStaticAlloc) : XStaticAlloc :=
  let pRecordStart : Int := 24 + flagLen m
  let h := { h with pFlagStart := 24, pRecordStart := pRecordStart, pStart := pRecordStart + recordLen m }
  let h := (List.range (flagCount m)).foldl (loadSlot m) h
  { h with rangeSet := loadRanges h.pStart h.nTotalLen h.rangeSet h.recordInfo.entries }

def refresh (m : Mem) (h : XStaticAlloc) : XStaticAlloc :=
  loadBlockArea m { h with recordMap := .empty, recordInfo := .empty, rangeSet := .empty }

/-- `IsRawBlockArea`: the area does not start with the symbol. -/
def isRawBlockArea (m : Mem) : Bool := read m 0 8 ≠ symbol

/-- `Init(pStart, nLen)`, `pStart` being the area at its bytes `m`, or `NULL`. -/
def init (pStart : Option Mem) (h : XStaticAlloc) (nLen : Int) : Int × Option Mem × XStaticAlloc :=
  match pStart with
  | none => (-1, none, h)
  | some m =>
    if nLen ≤ 0 ∨ h.hasBegin ∨ 0 < h.nTotalLen then (-1, some m, h)
    else
      let h := { h with hasBegin := true, nTotalLen := nLen, recordMap := .empty, recordInfo := .empty, rangeSet := .empty }
      if isRawBlockArea m then
        let r := formatBlockArea m h
        (0, some r.1, r.2)
      else (1, some m, loadBlockArea m h)

end XStaticAlloc
