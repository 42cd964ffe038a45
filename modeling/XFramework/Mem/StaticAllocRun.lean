/-
Runs of one `XStaticAlloc` handle, and the arena they refine.

A run starts from a freshly formatted area and applies `Alloc` and `Free` in
any order, with the owners of live blocks writing into them in between.
`Inv` ties a state of the run to an arena: its region is the memory from the
squeeze limit up, its blocks are those handed out, its free addresses those of
the range map. Every step keeps it (`Inv.step`), so the laws of an arena hold
of every state (`live_apart_in_region`).
-/
import XFramework.Lib.Arena
import XFramework.Lib.Steps
import XFramework.Mem.StaticAllocFacts

open Bytes Span

namespace XStaticAlloc

/-- A handle, the area it manages, and the blocks handed out and not freed yet. -/
structure Run where
  mem : Mem
  obj : XStaticAlloc
  live : List Span

/-- What can happen to an area: a call, or a byte stored by the owner of a block. -/
inductive Op
  | alloc (len : Int)
  | free (p : Int)
  | write (p : Int) (b : UInt8)

/-- `Alloc` is asked for at least one byte. -/
def Op.Legal : Op → Prop
  | .alloc len => 1 ≤ len
  | _ => True

instance : DecidablePred Op.Legal
  | .alloc len => inferInstanceAs (Decidable (1 ≤ len))
  | .free _ | .write _ _ => isTrue trivial

namespace Run

def alloc (s : Run) (len : Int) : Run :=
  let r := s.obj.alloc s.mem len
  match r.1 with
  | some p => ⟨r.2.1, r.2.2, (p, len) :: s.live⟩
  | none => ⟨r.2.1, r.2.2, s.live⟩

def free (s : Run) (p : Int) : Run :=
  let r := s.obj.free s.mem p
  ⟨r.1, r.2, s.live.filter fun b => b.1 ≠ p⟩

def write (s : Run) (p : Int) (b : UInt8) : Run :=
  if ∃ blk ∈ s.live, blk.Has p then { s with mem := Bytes.write s.mem p [b] } else s

def step (s : Run) : Op → Run
  | .alloc len => s.alloc len
  | .free p => s.free p
  | .write p b => s.write p b

def run (s : Run) (ops : List Op) : Run := ops.foldl step s

theorem step_area (s : Run) (op : Op) : SameArea s.obj (s.step op).obj := by
  cases op with
  | alloc len =>
    show SameArea s.obj (s.alloc len).obj
    have h := alloc_area (m := s.mem) (h := s.obj) len
    simp only [alloc]
    split <;> exact h
  | free p => exact free_area p
  | write p b =>
    show SameArea s.obj (s.write p b).obj
    unfold write
    split <;> exact ⟨rfl, rfl, rfl, rfl, rfl⟩

/-- `Alloc` gets memory. -/
def Served (s : Run) (len : Int) : Prop :=
  (∃ itf ∈ s.obj.rangeSet, len ≤ itf.2) ∨ len ≤ s.obj.limit s.mem - s.obj.extBegin s.mem

instance (s : Run) (len : Int) : Decidable (s.Served len) :=
  inferInstanceAs (Decidable ((∃ itf ∈ s.obj.rangeSet.entries, len ≤ itf.2) ∨ _))

/-- The blocks in use are pairwise disjoint, inside the memory from the squeeze limit up,
and disjoint from the free ranges. -/
def Disjoint (s : Run) : Prop :=
  s.live.Pairwise Apart ∧
    ∀ b ∈ s.live, s.obj.limit s.mem ≤ b.1 ∧ b.1 + b.2 ≤ s.obj.nTotalLen ∧ ∀ r ∈ s.obj.rangeSet, Apart b r

/-- Nothing handed out yet, from an area of zeros. -/
def formatted (nLen : Int) : Run := ⟨(XStaticAlloc.formatted nLen).1, (XStaticAlloc.formatted nLen).2, []⟩

end Run

/-! ## The free ranges -/

section Ranges

variable {s : StdMap Int Int} {itf r : Span} {len x : Int}

theorem ordered_iff : Ordered s.entries ↔ ∀ a ∈ s, ∀ b ∈ s, a.1 < b.1 → a.1 + a.2 ≤ b.1 := StdMap.pairwise_iff

theorem gapped_iff : Gapped s.entries ↔ ∀ a ∈ s, ∀ b ∈ s, a.1 < b.1 → a.1 + a.2 < b.1 := StdMap.pairwise_iff

theorem mem_takeFrom (ho : Ordered s.entries) (hi : itf ∈ s) (hlen : 0 < len) (hle : len ≤ itf.2) :
    r ∈ takeFrom s itf len ↔ (r ∈ s ∧ r.1 ≠ itf.1) ∨ (len < itf.2 ∧ r = (itf.1 + len, itf.2 - len)) := by
  rw [ordered_iff] at ho
  unfold takeFrom
  simp only
  split
  · rename_i hpos
    rw [StdMap.mem_insert_new, StdMap.mem_erase, and_iff_right (a := len < itf.2) (by omega)]
    -- the rest of the range starts where no other range does
    intro y hy
    rw [StdMap.mem_erase] at hy
    have := ho itf hi y hy.1
    omega
  · rename_i hpos
    rw [StdMap.mem_erase]
    have : ¬ len < itf.2 := by omega
    simp [this]

theorem covers_takeFrom (ho : Ordered s.entries) (hi : itf ∈ s) (hlen : 0 < len) (hle : len ≤ itf.2) :
    Covers (takeFrom s itf len).entries x ↔ Covers s.entries x ∧ ¬ Has (itf.1, len) x := by
  have ho' := ordered_iff.1 ho
  refine ⟨?_, ?_⟩
  · rintro ⟨r, hr, hx⟩
    unfold Has at *
    simp only
    rcases (mem_takeFrom ho hi hlen hle).1 hr with ⟨hr, hne⟩ | ⟨hlt, rfl⟩
    · refine ⟨⟨r, hr, hx⟩, ?_⟩
      have h₁ := ho' r hr itf hi
      have h₂ := ho' itf hi r hr
      omega
    · simp only at hx
      exact ⟨⟨itf, hi, by unfold Has; omega⟩, by omega⟩
  · rintro ⟨⟨r, hr, hx⟩, hnot⟩
    by_cases hri : r.1 = itf.1
    · have hr2 : r.2 = itf.2 := by
        obtain ⟨a, b⟩ := r
        obtain ⟨c, d⟩ := itf
        simp only at hri
        subst hri
        exact StdMap.mem_unique hr hi
      unfold Has at hx hnot
      simp only at hnot
      exact ⟨_, (mem_takeFrom ho hi hlen hle).2 (.inr ⟨by omega, rfl⟩), by unfold Has; simp only; omega⟩
    · exact ⟨r, (mem_takeFrom ho hi hlen hle).2 (.inl ⟨hr, hri⟩), hx⟩

theorem ordered_takeFrom (ho : Ordered s.entries) (hi : itf ∈ s) (hlen : 0 < len) (hle : len ≤ itf.2) :
    Ordered (takeFrom s itf len).entries := by
  have ho' := ordered_iff.1 ho
  refine ordered_iff.2 fun a ha b hb hlt => ?_
  rcases (mem_takeFrom ho hi hlen hle).1 ha with ⟨ha, hna⟩ | ⟨hl, rfl⟩
  · rcases (mem_takeFrom ho hi hlen hle).1 hb with ⟨hb, -⟩ | ⟨-, rfl⟩
    · exact ho' a ha b hb hlt
    · have h₁ := ho' a ha itf hi
      have h₂ := ho' itf hi a ha
      simp only at hlt ⊢
      omega
  · rcases (mem_takeFrom ho hi hlen hle).1 hb with ⟨hb, hnb⟩ | ⟨-, rfl⟩
    · have h₁ := ho' itf hi b hb
      have h₂ := ho' b hb itf hi
      simp only at hlt ⊢
      omega
    · omega

theorem takeFrom_pos (ho : Ordered s.entries) (hi : itf ∈ s) (hlen : 0 < len) (hle : len ≤ itf.2)
    (hp : ∀ r ∈ s, 0 < r.2) : ∀ r ∈ takeFrom s itf len, 0 < r.2 := by
  intro r hr
  rcases (mem_takeFrom ho hi hlen hle).1 hr with ⟨hr, -⟩ | ⟨hl, rfl⟩
  · exact hp r hr
  · simp only
    omega

theorem covers_insert {p : Int} (hk : ∀ r ∈ s, r.1 ≠ p) :
    Covers (s.insert p len).entries x ↔ Covers s.entries x ∨ Has (p, len) x := by
  refine ⟨?_, ?_⟩
  · rintro ⟨r, hr, hx⟩
    rcases (StdMap.mem_insert_new hk).1 hr with hr | rfl
    · exact .inl ⟨r, hr, hx⟩
    · exact .inr hx
  · rintro (⟨r, hr, hx⟩ | hx)
    · exact ⟨r, (StdMap.mem_insert_new hk).2 (.inl hr), hx⟩
    · exact ⟨_, (StdMap.mem_insert_new hk).2 (.inr rfl), hx⟩

theorem ordered_insert {p : Int} (ho : Ordered s.entries) (hk : ∀ r ∈ s, r.1 ≠ p)
    (hap : ∀ r ∈ s, Apart (p, len) r) (hlen : 0 < len) (hp : ∀ r ∈ s, 0 < r.2) :
    Ordered (s.insert p len).entries := by
  refine ordered_iff.2 fun a ha b hb hlt => ?_
  rcases (StdMap.mem_insert_new hk).1 ha with ha | rfl
  · rcases (StdMap.mem_insert_new hk).1 hb with hb | rfl
    · exact ordered_iff.1 ho a ha b hb hlt
    · have h₁ := hap a ha
      unfold Apart at h₁
      simp only at h₁ hlt ⊢
      omega
  · rcases (StdMap.mem_insert_new hk).1 hb with hb | rfl
    · have h₁ := hap b hb
      have h₂ := hp b hb
      unfold Apart at h₁
      simp only at h₁ hlt ⊢
      omega
    · omega

theorem insert_pos {p : Int} (hlen : 0 < len) (hp : ∀ r ∈ s, 0 < r.2) : ∀ r ∈ s.insert p len, 0 < r.2 := by
  intro r hr
  rcases StdMap.mem_insert.1 hr with hr | ⟨rfl, -⟩
  · exact hp r hr
  · exact hlen

theorem covers_mergeRanges (hp : ∀ r ∈ s, 0 < r.2) : Covers (mergeRanges s).entries x ↔ Covers s.entries x :=
  covers_coalesce fun r hr => Int.le_of_lt (hp r hr)

theorem gapped_mergeRanges (hp : ∀ r ∈ s, 0 < r.2) (ho : Ordered s.entries) : Gapped (mergeRanges s).entries :=
  gapped_coalesce (fun r hr => Int.le_of_lt (hp r hr)) ho

theorem mergeRanges_pos (hp : ∀ r ∈ s, 0 < r.2) : ∀ r ∈ mergeRanges s, 0 < r.2 := coalesce_pos hp

/-- The first range starts before every other. -/
theorem first_lt {rest : List Span} (he : s.entries = itf :: rest) (hr : r ∈ s) : r = itf ∨ itf.1 < r.1 := by
  have hs := s.sorted
  have hr : r ∈ s.entries := hr
  rw [he] at hs hr
  rcases List.mem_cons.1 hr with rfl | hr
  · exact .inl rfl
  · exact .inr ((List.pairwise_cons.1 hs).1 r hr)

theorem covers_erase (hi : itf ∈ s) (ho : Ordered s.entries) :
    Covers (s.erase itf.1).entries x ↔ Covers s.entries x ∧ ¬ itf.Has x := by
  have ho' := ordered_iff.1 ho
  refine ⟨?_, ?_⟩
  · rintro ⟨r, hr, hx⟩
    obtain ⟨hr, hne⟩ := StdMap.mem_erase.1 hr
    refine ⟨⟨r, hr, hx⟩, ?_⟩
    have h₁ := ho' r hr itf hi
    have h₂ := ho' itf hi r hr
    unfold Has at *
    omega
  · rintro ⟨⟨r, hr, hx⟩, hnot⟩
    refine ⟨r, StdMap.mem_erase.2 ⟨hr, fun he => hnot ?_⟩, hx⟩
    have : r.2 = itf.2 := by
      obtain ⟨a, b⟩ := r
      obtain ⟨c, d⟩ := itf
      simp only at he
      subst he
      exact StdMap.mem_unique hr hi
    unfold Has at *
    omega

theorem ordered_erase {k : Int} (ho : Ordered s.entries) : Ordered (s.erase k).entries := List.Pairwise.filter _ ho

end Ranges

/-! ## The arena of a state -/

/-- The state `s` of a run refines the arena `A`: its region is the memory from the squeeze
limit up, its blocks those handed out, its free addresses those of the range map. -/
structure Inv (s : Run) (A : Arena) : Prop where
  layout : Layout s.mem s.obj
  squeeze : recordOffset s.mem = 0 ∨ s.obj.pRecordStart + 32 ≤ s.obj.limit s.mem
  lo : A.lo = s.obj.limit s.mem
  hi : A.hi = s.obj.nTotalLen
  live : A.live = s.live
  free : ∀ x, x ∈ A.free ↔ Covers s.obj.rangeSet.entries x
  ranges_pos : ∀ r ∈ s.obj.rangeSet, 0 < r.2
  ordered : Ordered s.obj.rangeSet.entries
  info : ∀ b ∈ s.obj.recordInfo, b ∈ s.live
  keys : ∀ p, (∃ n, (p, n) ∈ s.obj.recordInfo) ↔ ∃ i, (p, i) ∈ s.obj.recordMap
  slots : ∀ x ∈ s.obj.recordMap, x.2 < blockLimit s.mem

namespace Inv

variable {s : Run} {A : Arena} {len p : Int}

theorem limit_ge (hI : Inv s A) : s.obj.pRecordStart ≤ s.obj.limit s.mem := by
  rcases hI.squeeze with h | h
  · have := hI.layout.start
    unfold limit
    omega
  · omega

theorem record_ge (hI : Inv s A) : 24 ≤ s.obj.pRecordStart := by
  have := hI.layout.recordStart
  omega

theorem range_in (hI : Inv s A) {r : Span} (hr : r ∈ s.obj.rangeSet) :
    s.obj.limit s.mem ≤ r.1 ∧ r.1 + r.2 ≤ s.obj.nTotalLen := by
  have hpos := hI.ranges_pos r hr
  have h₁ := A.free_in r.1 ((hI.free _).2 ⟨r, hr, Int.le_refl _, by omega⟩)
  have h₂ := A.free_in (r.1 + r.2 - 1) ((hI.free _).2 ⟨r, hr, by omega, by omega⟩)
  rw [hI.lo, hI.hi] at h₁ h₂
  omega

theorem live_in (hI : Inv s A) {b : Span} (hb : b ∈ s.live) :
    s.obj.limit s.mem ≤ b.1 ∧ b.1 + b.2 ≤ s.obj.nTotalLen := by
  have := A.live_in b (hI.live ▸ hb)
  rwa [hI.lo, hI.hi] at this

theorem live_pos (hI : Inv s A) {b : Span} (hb : b ∈ s.live) : 0 < b.2 := A.live_pos b (hI.live ▸ hb)

theorem live_range (hI : Inv s A) {b r : Span} (hb : b ∈ s.live) (hr : r ∈ s.obj.rangeSet) : Apart b r := by
  refine apart_of_not_has (hI.live_pos hb) (hI.ranges_pos r hr) fun x hx hxr => ?_
  exact A.free_live x ((hI.free x).2 ⟨r, hr, hxr⟩) ⟨b, hI.live ▸ hb, hx⟩

/-- A block that no other overlaps starts at no key of the maps. -/
theorem fresh (hI : Inv s A) (hp : ∀ b ∈ s.live, b.1 ≠ p) :
    (∀ x ∈ s.obj.recordInfo, x.1 ≠ p) ∧ ∀ x ∈ s.obj.recordMap, x.1 ≠ p := by
  have hinfo : ∀ x ∈ s.obj.recordInfo, x.1 ≠ p := fun x hx => hp x (hI.info x hx)
  refine ⟨hinfo, fun x hx he => ?_⟩
  obtain ⟨n, hn⟩ := (hI.keys p).2 ⟨x.2, he ▸ hx⟩
  exact hinfo _ hn rfl

/-! ### Alloc -/

/-- Memory for `len` bytes found at `p`: the area and the handle that `Alloc` goes on with
to register the block, the range taken out or the limit moved down. -/
structure Found (s : Run) (len : Int) (m : Mem) (h : XStaticAlloc) (p : Int) : Prop where
  served : s.Served len
  layout : Layout m h
  area : SameArea s.obj h
  map : h.recordMap = s.obj.recordMap
  info : h.recordInfo = s.obj.recordInfo
  bytes : ∀ x, x < 20 ∨ 24 ≤ x → m x = s.mem x
  limit_le : h.limit m ≤ p
  start : h.pRecordStart ≤ p
  fresh : ∀ b ∈ s.live, b.1 ≠ p
  source : (m = s.mem ∧ ∃ itf ∈ s.obj.rangeSet, len ≤ itf.2 ∧ p = itf.1 ∧
      h = { s.obj with rangeSet := takeFrom s.obj.rangeSet itf len }) ∨
    (h = s.obj ∧ p = s.obj.limit s.mem - len ∧ s.obj.extBegin s.mem ≤ p ∧ s.obj.limit m = p)

theorem found_range (hI : Inv s A) {itf : Span} (hi : itf ∈ s.obj.rangeSet) (hle : len ≤ itf.2) :
    Found s len s.mem { s.obj with rangeSet := takeFrom s.obj.rangeSet itf len } itf.1 := by
  have hr := hI.range_in hi
  exact {
    served := .inl ⟨itf, hi, hle⟩
    layout := hI.layout.congr ⟨rfl, rfl, rfl, rfl, rfl⟩ rfl rfl rfl
    area := ⟨rfl, rfl, rfl, rfl, rfl⟩
    map := rfl
    info := rfl
    bytes := fun _ _ => rfl
    limit_le := hr.1
    start := Int.le_trans hI.limit_ge hr.1
    fresh := by
      intro b hb he
      have h₁ := hI.live_range hb hi
      have h₂ := hI.live_pos hb
      have h₃ := hI.ranges_pos itf hi
      unfold Apart at h₁
      omega
    source := .inl ⟨rfl, itf, hi, hle, rfl, rfl⟩ }

theorem found_squeeze (hI : Inv s A) (hlen : 0 < len) (hle : len ≤ s.obj.limit s.mem - s.obj.extBegin s.mem) :
    Found s len (setRecordOffset s.mem (s.obj.pStart - (s.obj.limit s.mem - len)).toNat) s.obj
      (s.obj.limit s.mem - len) := by
  generalize hp : s.obj.limit s.mem - len = p at *
  generalize hm : setRecordOffset s.mem (s.obj.pStart - p).toNat = m at *
  have hext : s.obj.pRecordStart + 32 ≤ s.obj.extBegin s.mem := by
    unfold extBegin
    omega
  have hfits := hI.layout.fits
  have htot := hI.layout.total
  have hge := hI.record_ge
  have hlim : s.obj.limit s.mem = s.obj.pStart - recordOffset s.mem := rfl
  have hoff : recordOffset m = (s.obj.pStart - p).toNat := by
    rw [← hm, recordOffset_setRecordOffset]
    exact Nat.mod_eq_of_lt (by omega)
  have hlim' : s.obj.limit m = p := by
    rw [limit, hoff]
    omega
  exact {
    served := .inr hle
    layout := hI.layout.congr ⟨rfl, rfl, rfl, rfl, rfl⟩ (by simp [← hm]) (by simp [← hm]) (by simp [← hm])
    area := ⟨rfl, rfl, rfl, rfl, rfl⟩
    map := rfl
    info := rfl
    bytes := fun x hx => by rw [← hm, setRecordOffset_other hx]
    limit_le := Int.le_of_eq hlim'
    start := by omega
    fresh := by
      intro b hb he
      have := hI.live_in hb
      omega
    source := .inr ⟨rfl, hp.symm, by omega, hlim'⟩ }

/-- `Alloc` finds no memory and changes nothing, or finds memory and registers the block. -/
theorem alloc_found (hI : Inv s A) (hlen : 1 ≤ len) : s.alloc len = s ∧ ¬ s.Served len ∨ ∃ m h p, Found s len m h p ∧
    s.alloc len = ⟨(register m h p len).2.1, (register m h p len).2.2, (p, len) :: s.live⟩ := by
  have hreg : ∀ {m h p}, s.obj.alloc s.mem len = register m h p len →
      s.alloc len = ⟨(register m h p len).2.1, (register m h p len).2.2, (p, len) :: s.live⟩ := fun he => by
    unfold Run.alloc
    simp only [he, register_fst]
  rcases alloc_cases s.mem s.obj len with ⟨itf, hi, hle, heq⟩ | ⟨hno, hlt, heq⟩ | ⟨-, hle, heq⟩
  · exact .inr ⟨_, _, _, hI.found_range hi hle, hreg heq⟩
  · refine .inl ⟨by simp only [Run.alloc, heq], ?_⟩
    rintro (⟨itf, hi, hle⟩ | hle)
    · have := hno itf hi
      omega
    · omega
  · exact .inr ⟨_, _, _, hI.found_squeeze (by omega) hle, hreg heq⟩

namespace Found

variable {m : Mem} {h : XStaticAlloc}

theorem useCount (hf : Found s len m h p) : XStaticAlloc.useCount m = XStaticAlloc.useCount s.mem :=
  readLE_congr fun x _ _ => hf.bytes x (by omega)

theorem blockLimit (hf : Found s len m h p) : XStaticAlloc.blockLimit m = XStaticAlloc.blockLimit s.mem :=
  readLE_congr fun x _ _ => hf.bytes x (by omega)

theorem flagCount (hf : Found s len m h p) : XStaticAlloc.flagCount m = XStaticAlloc.flagCount s.mem :=
  congrArg (· * 8) (readLE_congr fun x _ _ => hf.bytes x (by omega))

theorem flag (hf : Found s len m h p) (i : Nat) : h.flag m i = s.obj.flag s.mem i := by
  rw [flag_congr_area hf.area]
  refine flag_congr (hf.bytes _ (.inr ?_))
  rw [← flagAddr_congr hf.area, flagAddr, hf.layout.flagStart]
  omega

theorem newIndex (hf : Found s len m h p) : h.newIndex m = s.obj.newIndex s.mem := by
  simp only [XStaticAlloc.newIndex, firstClear, hf.flagCount, hf.flag]

end Found

section Register

variable {m : Mem} {h : XStaticAlloc}

/-- The maps after a block has been registered, or handed out without a record. -/
theorem register_maps (hI : Inv s A) (hf : Found s len m h p) :
    (∀ b ∈ (register m h p len).2.2.recordInfo, b ∈ (p, len) :: s.live) ∧
      (∀ q, (∃ n, (q, n) ∈ (register m h p len).2.2.recordInfo) ↔
        ∃ i, (q, i) ∈ (register m h p len).2.2.recordMap) ∧
      ∀ x ∈ (register m h p len).2.2.recordMap, x.2 < blockLimit m := by
  obtain ⟨h₁, h₂⟩ := hI.fresh hf.fresh
  rw [register_eq hf.layout]
  split
  · rename_i hnew
    simp only [hf.info, hf.map, StdMap.mem_insert_new h₁, StdMap.mem_insert_new h₂, List.mem_cons]
    refine ⟨fun b hb => hb.symm.imp id (hI.info b), fun q => ?_, fun x hx => ?_⟩
    · simp only [exists_or, hI.keys q, Prod.mk.injEq]
      simp
    · rcases hx with hx | rfl
      · exact hf.blockLimit ▸ hI.slots x hx
      · exact hnew
  · simp only [hf.info, hf.map]
    exact ⟨fun b hb => List.mem_cons_of_mem _ (hI.info b hb), hI.keys, fun x hx => hf.blockLimit ▸ hI.slots x hx⟩

/-- What `register` keeps of a state whose block `(p, len)` refines `A'`. -/
theorem of_register (hI : Inv s A) (hf : Found s len m h p) {A' : Arena}
    (hsq : recordOffset m = 0 ∨ h.pRecordStart + 32 ≤ h.limit m)
    (hlo : A'.lo = h.limit m) (hhi : A'.hi = h.nTotalLen) (hlive : A'.live = (p, len) :: s.live)
    (hfree : ∀ x, x ∈ A'.free ↔ Covers h.rangeSet.entries x) (hpos : ∀ r ∈ h.rangeSet, 0 < r.2)
    (hord : Ordered h.rangeSet.entries) :
    Inv ⟨(register m h p len).2.1, (register m h p len).2.2, (p, len) :: s.live⟩ A' := by
  have harea := register_area (m := m) (h := h) p len
  obtain ⟨-, hbl, hfl, hrl, hro⟩ := register_header hf.layout len hf.start
  obtain ⟨hm₁, hm₂, hm₃⟩ := hI.register_maps hf
  have hset := register_rangeSet (m := m) (h := h) p len
  have hL := hf.layout
  clear hf
  generalize register m h p len = r at *
  have hlim : r.2.2.limit r.2.1 = h.limit m := by rw [limit, harea.pStart, hro, limit]
  exact {
    layout := hL.congr harea hbl hfl hrl
    squeeze := by simp only [hlim, hro, harea.pRecordStart]; exact hsq
    lo := hlo.trans hlim.symm
    hi := hhi.trans harea.nTotalLen.symm
    live := hlive
    free := by simp only [hset]; exact hfree
    ranges_pos := by simp only [hset]; exact hpos
    ordered := by simp only [hset]; exact hord
    info := hm₁
    keys := hm₂
    slots := fun x hx => hbl ▸ hm₃ x hx }

/-- The block refines one granted from the free addresses, or one the region is extended by. -/
theorem registered (hI : Inv s A) (hlen : 1 ≤ len) (hf : Found s len m h p) :
    ∃ A', Inv ⟨(register m h p len).2.1, (register m h p len).2.2, (p, len) :: s.live⟩ A' ∧
      (A.Tiled → A'.Tiled) := by
  have hpos : 0 < len := by omega
  rcases hf.source with ⟨rfl, itf, hi, hle, rfl, rfl⟩ | ⟨rfl, hp, hext, hlim⟩
  · have hgrant : ∀ x, Has (itf.1, len) x → x ∈ A.free := fun x hx =>
      (hI.free x).2 ⟨itf, hi, by unfold Has at *; simp only at hx; omega⟩
    refine ⟨A.grant (itf.1, len) hpos hgrant, ?_, fun ht => ht.grant _ _⟩
    refine hI.of_register hf hI.squeeze hI.lo hI.hi ?_ (fun x => ?_) (takeFrom_pos hI.ordered hi hpos hle hI.ranges_pos)
      (ordered_takeFrom hI.ordered hi hpos hle)
    · show (itf.1, len) :: A.live = _
      rw [hI.live]
    · rw [covers_takeFrom hI.ordered hi hpos hle, ← hI.free]
      rfl
  · refine ⟨A.extend len hpos, ?_, fun ht => ht.extend hpos⟩
    have hext' : s.obj.pRecordStart + 32 ≤ s.obj.extBegin s.mem := by
      unfold extBegin
      omega
    refine hI.of_register hf (.inr (by omega)) ?_ hI.hi ?_ hI.free hI.ranges_pos hI.ordered
    · show A.lo - len = _
      rw [hlim, hI.lo, hp]
    · show (A.lo - len, len) :: A.live = _
      rw [hI.lo, ← hp, hI.live]

theorem found_fits (hI : Inv s A) (hlen : 1 ≤ len) (hf : Found s len m h p) : p + len ≤ s.obj.nTotalLen := by
  have harea := hf.area.trans (register_area (m := m) (h := h) p len)
  obtain ⟨A', hI', -⟩ := hI.registered hlen hf
  generalize register m h p len = r at *
  have hlive : A'.live = (p, len) :: s.live := hI'.live
  have hin := A'.live_in (p, len) (hlive ▸ List.mem_cons_self)
  rw [hI'.hi] at hin
  exact Int.le_trans hin.2 (Int.le_of_eq harea.nTotalLen)

end Register

theorem alloced (hI : Inv s A) (hlen : 1 ≤ len) : ∃ A', Inv (s.alloc len) A' ∧ (A.Tiled → A'.Tiled) := by
  rcases hI.alloc_found hlen with ⟨heq, -⟩ | ⟨m, h, p, hf, heq⟩
  · rw [heq]
    exact ⟨A, hI, id⟩
  · rw [heq]
    exact hI.registered hlen hf

/-! ### Free -/

section PullBack

variable {first : Span} {rest : List Span}

/-- Every range but the first lies behind it. -/
theorem behind_first (hI : Inv s A) (he : s.obj.rangeSet.entries = first :: rest) {r : Span}
    (hr : r ∈ s.obj.rangeSet.erase first.1) : r ∈ s.obj.rangeSet ∧ first.1 + first.2 ≤ r.1 := by
  have hmem : first ∈ s.obj.rangeSet := by simp [← StdMap.mem_entries, he]
  obtain ⟨hr, hne⟩ := StdMap.mem_erase.1 hr
  rcases first_lt he hr with rfl | hlt
  · exact absurd rfl hne
  · exact ⟨hr, ordered_iff.1 hI.ordered first hmem r hr hlt⟩

/-- A smaller record offset gives up the addresses below the new limit, free as far as the first range has them. -/
theorem trimmed (hI : Inv s A) {n : Nat} {ranges : StdMap Int Int} (hn : n ≤ recordOffset s.mem)
    (hmem : first ∈ s.obj.rangeSet) (hfirst : first.1 = s.obj.limit s.mem)
    (hreach : s.obj.pStart - n ≤ first.1 + first.2)
    (hcov : ∀ x, Covers ranges.entries x ↔ Covers s.obj.rangeSet.entries x ∧ s.obj.pStart - n ≤ x)
    (hpos : ∀ r ∈ ranges, 0 < r.2) (hord : Ordered ranges.entries) :
    ∃ A', Inv ⟨setRecordOffset s.mem n, { s.obj with rangeSet := ranges }, s.live⟩ A' ∧
      (A.Tiled → A'.Tiled) ∧ A.lo ≤ A'.lo ∧ ∀ x ∈ A.free, x ∈ A'.free ∨ x < A'.lo := by
  have hlt : recordOffset s.mem < 2 ^ 32 := readLE_lt s.mem 20 4
  have hoff : recordOffset (setRecordOffset s.mem n) = n := by
    rw [recordOffset_setRecordOffset]
    exact Nat.mod_eq_of_lt (by omega)
  have hlo : A.lo = s.obj.pStart - recordOffset s.mem := hI.lo
  have hle : A.lo ≤ s.obj.pStart - n := by omega
  have hfree : ∀ x, A.lo ≤ x → x < s.obj.pStart - n → x ∈ A.free := by
    intro x h₁ h₂
    refine (hI.free x).2 ⟨first, hmem, ?_⟩
    rw [hI.lo] at h₁
    unfold Has
    omega
  have hhi : s.obj.pStart - n ≤ A.hi := by
    have := hI.layout.fits
    rw [hI.hi]
    omega
  refine ⟨A.trim (s.obj.pStart - n) hfree hhi, ?_, fun ht => ht.trim _ hle _, hle,
    fun x hx => (Int.lt_or_le x _).symm.imp (⟨hx, ·⟩) id⟩
  exact {
    layout := hI.layout.congr ⟨rfl, rfl, rfl, rfl, rfl⟩ (by simp) (by simp) (by simp)
    squeeze := by
      simp only [limit, hoff]
      rcases hI.squeeze with h | h
      · exact .inl (by omega)
      · unfold limit at h
        exact .inr (by omega)
    lo := by simp only [limit, hoff]; rfl
    hi := hI.hi
    live := hI.live
    free := fun x => (and_congr_left fun _ => hI.free x).trans (hcov x).symm
    ranges_pos := hpos
    ordered := hord
    info := hI.info
    keys := hI.keys
    slots := by simpa using hI.slots }

/-- The correction of the record offset gives up free addresses at the lower end of the region. -/
theorem pullBack (hI : Inv s A) : ∃ A',
    Inv ⟨(XStaticAlloc.pullBack s.mem s.obj).1, (XStaticAlloc.pullBack s.mem s.obj).2, s.live⟩ A' ∧
      (A.Tiled → A'.Tiled) ∧ A.lo ≤ A'.lo ∧ ∀ x ∈ A.free, x ∈ A'.free ∨ x < A'.lo := by
  unfold XStaticAlloc.pullBack
  split
  · exact ⟨A, hI, id, Int.le_refl _, fun _ => .inl⟩
  rename_i first rest he
  split
  case isFalse => exact ⟨A, hI, id, Int.le_refl _, fun _ => .inl⟩
  rename_i hc
  obtain ⟨hoff, hfirst⟩ := hc
  have hmem : first ∈ s.obj.rangeSet := by simp [← StdMap.mem_entries, he]
  have hpos := hI.ranges_pos first hmem
  have hlim : s.obj.limit s.mem = s.obj.pStart - recordOffset s.mem := rfl
  have hpos' : ∀ r ∈ s.obj.rangeSet.erase first.1, 0 < r.2 := fun r hr => hI.ranges_pos r (hI.behind_first he hr).1
  have hcov : ∀ x, Covers (s.obj.rangeSet.erase first.1).entries x ↔ Covers s.obj.rangeSet.entries x ∧ ¬ Has first x :=
    fun x => covers_erase hmem hI.ordered
  have hge : ∀ x, Covers s.obj.rangeSet.entries x → first.1 ≤ x := by
    rintro x ⟨r, hr, hx⟩
    have := (hI.range_in hr).1
    unfold Has at hx
    omega
  split
  · -- the whole range goes, and the limit moves up to its end
    refine hI.trimmed (by omega) hmem hfirst (by omega) (fun x => ?_) hpos' (ordered_erase hI.ordered)
    rw [hcov]
    refine and_congr_right fun hx => ?_
    have := hge x hx
    unfold Has
    omega
  · -- what the range has from `pStart` on is put back
    have hnew : ∀ r ∈ s.obj.rangeSet.erase first.1, r.1 ≠ s.obj.pStart := fun r hr => by
      have := (hI.behind_first he hr).2
      omega
    have hapart : ∀ r ∈ s.obj.rangeSet.erase first.1, Apart (s.obj.pStart, first.2 - recordOffset s.mem) r := by
      intro r hr
      have := (hI.behind_first he hr).2
      exact .inl (by simp only; omega)
    refine hI.trimmed (Nat.zero_le _) hmem hfirst (by omega) (fun x => ?_) (insert_pos (by omega) hpos')
      (ordered_insert (ordered_erase hI.ordered) hnew hapart (by omega) hpos')
    rw [covers_insert hnew, hcov]
    refine ⟨?_, ?_⟩
    · rintro (⟨⟨r, hr, hx⟩, hout⟩ | hx)
      · have := hge x ⟨r, hr, hx⟩
        refine ⟨⟨r, hr, hx⟩, ?_⟩
        unfold Has at hout
        omega
      · unfold Has at hx
        simp only at hx
        exact ⟨⟨first, hmem, by unfold Has; omega⟩, by omega⟩
    · rintro ⟨hx, hle⟩
      by_cases hin : Has first x
      · right
        unfold Has at *
        simp only
        omega
      · exact .inl ⟨hx, hin⟩

end PullBack

/-- The state of `Free` between the merging and the correction of the record offset. -/
theorem released (hI : Inv s A) {i : Nat} (hp : (p, len) ∈ s.obj.recordInfo) (hi : (p, i) ∈ s.obj.recordMap) :
    let m := setUseCount (s.obj.clearFlag s.mem i) (useCount (s.obj.clearFlag s.mem i) + (2 ^ 16 - 1))
    Inv ⟨m, { s.obj with
        recordInfo := s.obj.recordInfo.erase p
        recordMap := s.obj.recordMap.erase p
        rangeSet := mergeRanges (s.obj.rangeSet.insert p len) }, s.live.filter fun b => b.1 ≠ p⟩
      (A.release (p, len) (hI.live ▸ hI.info _ hp)) := by
  intro m
  have hlive : (p, len) ∈ s.live := hI.info _ hp
  have hslot : i < blockLimit s.mem := hI.slots _ hi
  have hfl := hI.layout.flagAddr_lt (Nat.lt_of_lt_of_le hslot hI.layout.flags)
  have hc : SameHeader s.mem (s.obj.clearFlag s.mem i) := .of_bytes fun x _ hx => clearFlag_other (by omega)
  have hro : recordOffset m = recordOffset s.mem := by simp [m, hc.recordOffset]
  have hbl : blockLimit m = blockLimit s.mem := by simp [m, hc.blockLimit]
  have hpos : 0 < len := hI.live_pos hlive
  have hnew : ∀ r ∈ s.obj.rangeSet, r.1 ≠ p := by
    intro r hr he
    have h₁ := hI.live_range hlive hr
    have h₂ := hI.ranges_pos r hr
    unfold Apart at h₁
    simp only at h₁
    omega
  have hipos := insert_pos (p := p) hpos hI.ranges_pos
  have hord := ordered_insert hI.ordered hnew (fun r hr => hI.live_range hlive hr) hpos hI.ranges_pos
  refine ⟨hI.layout.congr ⟨rfl, rfl, rfl, rfl, rfl⟩ hbl (by simp [m, hc.flagLen]) (by simp [m, hc.recordLen]),
    ?_, ?_, hI.hi, ?_, ?_, mergeRanges_pos hipos, (gapped_mergeRanges hipos hord).ordered, ?_, ?_, ?_⟩
  · simp only [limit, hro]
    exact hI.squeeze
  · simp only [limit, hro]
    exact hI.lo
  · show A.live.filter _ = _
    rw [hI.live]
  · intro x
    show x ∈ A.free ∨ Has (p, len) x ↔ _
    rw [covers_mergeRanges hipos, covers_insert hnew, hI.free]
  · intro b hb
    obtain ⟨hb, hne⟩ := StdMap.mem_erase.1 hb
    exact List.mem_filter.2 ⟨hI.info b hb, by simpa using hne⟩
  · intro q
    simp only [StdMap.mem_erase, exists_and_right, hI.keys q]
  · intro x hx
    rw [hbl]
    exact hI.slots x (StdMap.mem_erase.1 hx).1

/-- `Free` of a registered block: its addresses are free, or below the region again. -/
theorem freed (hI : Inv s A) (hp : (p, len) ∈ s.obj.recordInfo) :
    ∃ A', Inv (s.free p) A' ∧ (A.Tiled → A'.Tiled) ∧ A.lo ≤ A'.lo ∧
      ∀ x, Has (p, len) x → x ∈ A'.free ∨ x < A'.lo := by
  obtain ⟨i, hi⟩ := (hI.keys p).1 ⟨len, hp⟩
  obtain ⟨A', hA', ht, hlo, hf⟩ := (hI.released hp hi).pullBack
  refine ⟨A', ?_, fun h => ht (h.release _), hlo, fun x hx => hf x (.inr hx)⟩
  simpa only [Run.free, XStaticAlloc.free, StdMap.find?_eq_some.2 hp, StdMap.find?_eq_some.2 hi] using hA'

/-- `Free` of anything else changes nothing but what counts as live. -/
theorem not_freed (hI : Inv s A) (hp : ∀ x ∈ s.obj.recordInfo, x.1 ≠ p) : Inv (s.free p) (A.forget p) := by
  have hstep : s.free p = { s with live := s.live.filter fun b => b.1 ≠ p } := by
    simp only [Run.free, XStaticAlloc.free, StdMap.find?_eq_none.2 hp]
  rw [hstep]
  refine ⟨hI.layout, hI.squeeze, hI.lo, hI.hi, ?_, hI.free, hI.ranges_pos, hI.ordered, ?_, hI.keys, hI.slots⟩
  · show A.live.filter _ = _
    rw [hI.live]
  · exact fun b hb => List.mem_filter.2 ⟨hI.info b hb, by simpa using hp b hb⟩

/-! ### A whole run -/

/-- A byte written into a live block is above the header and the flags. -/
theorem written (hI : Inv s A) {x : Int} {b : UInt8} : Inv (s.write x b) A := by
  unfold Run.write
  split
  case isFalse => exact hI
  rename_i hany
  obtain ⟨blk, hblk, hx⟩ := hany
  have h₁ := hI.live_in hblk
  have h₂ := hI.limit_ge
  have h₃ := hI.record_ge
  have hh : SameHeader s.mem (Bytes.write s.mem x [b]) := .of_bytes fun y _ hy => by
    refine write_other (.inl ?_)
    unfold Has at hx
    omega
  refine ⟨hI.layout.congr ⟨rfl, rfl, rfl, rfl, rfl⟩ hh.blockLimit hh.flagLen hh.recordLen, ?_, ?_, hI.hi, hI.live, hI.free,
    hI.ranges_pos, hI.ordered, hI.info, hI.keys, ?_⟩
  · simp only [limit, hh.recordOffset]
    exact hI.squeeze
  · simp only [limit, hh.recordOffset]
    exact hI.lo
  · simp only [hh.blockLimit]
    exact hI.slots

theorem step (hI : Inv s A) {op : Op} (hop : op.Legal) : ∃ A', Inv (s.step op) A' := by
  cases op with
  | alloc len =>
    obtain ⟨A', hA', -⟩ := hI.alloced hop
    exact ⟨A', hA'⟩
  | free p =>
    by_cases hp : ∃ len, (p, len) ∈ s.obj.recordInfo
    · obtain ⟨len, hp⟩ := hp
      obtain ⟨A', hA', -⟩ := hI.freed hp
      exact ⟨A', hA'⟩
    · exact ⟨_, hI.not_freed fun x hx he => hp ⟨x.2, he ▸ hx⟩⟩
  | write p b => exact ⟨A, hI.written⟩

end Inv

/-! ## From a formatted area -/

section Formatted

variable {area m : Mem} {h : XStaticAlloc} {nLen : Int} {s : Run} {ops : List Op}

/-- A formatted area that is more than a header refines the arena whose memory is all free. -/
theorem inv_of_formatted (hF : Formatted nLen m h) (h₁ : 24 < nLen) (h₂ : nLen < 2 ^ 31) :
    ∃ A, Inv ⟨m, h, []⟩ A ∧ A.Tiled := by
  have hL := layout_of_formatted hF (by omega) h₂
  have hfits := slotCount_fits (show 24 ≤ nLen by omega)
  have hlt : h.pStart < nLen := by
    rw [hF.pStart, hF.pRecordStart]
    omega
  have hlim : h.limit m = h.pStart := by simp [limit, hF.recordOffset]
  let A : Arena := {
    lo := h.pStart
    hi := nLen
    live := []
    free := {x | h.pStart ≤ x ∧ x < nLen}
    lo_le_hi := by omega
    live_pos := by simp
    live_in := by simp
    apart := .nil
    free_in := fun _ hx => hx
    free_live := fun _ _ => covers_nil }
  have hset : ∀ r, r ∈ h.rangeSet ↔ r = (h.pStart, nLen - h.pStart) := by simp [hF.rangeSet, StdMap.mem_insert]
  refine ⟨A, ?_, fun x h₁ h₂ => .inl ⟨h₁, h₂⟩⟩
  exact {
    layout := hL
    squeeze := .inl hF.recordOffset
    lo := hlim.symm
    hi := hF.nTotalLen.symm
    live := rfl
    free := by
      intro x
      simp only [Covers, ← StdMap.mem_entries] at hset ⊢
      simp only [hset, exists_eq_left, Has]
      exact and_congr_right' (by omega)
    ranges_pos := by
      simp only [hset, forall_eq]
      omega
    ordered := by
      rw [ordered_iff]
      simp only [hset, forall_eq]
      omega
    info := by simp [hF.recordInfo]
    keys := by simp [hF.recordInfo, hF.recordMap]
    slots := by simp [hF.recordMap] }

/-- An area that is a header and nothing else never hands out a block. -/
theorem run_of_header (hF : Formatted 24 m h) (hops : ∀ op ∈ ops, op.Legal) :
    Run.run ⟨m, h, []⟩ ops = ⟨m, h, []⟩ := by
  have hstart : h.pStart = 24 := by rw [hF.pStart, hF.pRecordStart]; rfl
  have halong : Steps.Along Run.step (fun _ op => op.Legal) ⟨m, h, []⟩ ops := Steps.along_of_mem hops
  refine halong.run (fun s => s = ⟨m, h, []⟩) rfl ?_
  rintro s op rfl hop
  cases op with
  | alloc len =>
    have hlen : 1 ≤ len := hop
    have hext : h.pRecordStart + 32 ≤ h.extBegin m := by
      unfold extBegin
      omega
    have hrec : h.pRecordStart = 24 := by rw [hF.pRecordStart]; rfl
    have hlim : h.limit m = 24 := by simp [limit, hF.recordOffset, hstart]
    show Run.alloc _ len = _
    rcases alloc_cases m h len with ⟨itf, hi, hle, -⟩ | ⟨-, -, heq⟩ | ⟨-, hle, -⟩
    · simp only [hF.rangeSet, StdMap.mem_insert, StdMap.not_mem_empty, false_or, hstart] at hi
      obtain ⟨rfl, -⟩ := hi
      simp only at hle
      omega
    · simp only [Run.alloc, heq]
    · omega
  | free p =>
    have hnone : h.recordInfo.find? p = none := StdMap.find?_eq_none.2 (by simp [hF.recordInfo])
    simp only [Run.step, Run.free, XStaticAlloc.free, hnone, List.filter_nil]
  | write p b => simp [Run.step, Run.write]

theorem inv_run (hF : Formatted nLen m h) (h₁ : 24 < nLen) (h₂ : nLen < 2 ^ 31) (hops : ∀ op ∈ ops, op.Legal) :
    ∃ A, Inv (Run.run ⟨m, h, []⟩ ops) A := by
  have halong : Steps.Along Run.step (fun _ op => op.Legal) ⟨m, h, []⟩ ops := Steps.along_of_mem hops
  refine halong.run (fun s => ∃ A, Inv s A) ?_ fun s op ⟨A, hA⟩ hop => hA.step hop
  obtain ⟨A, hA, -⟩ := inv_of_formatted hF h₁ h₂
  exact ⟨A, hA⟩

/-- In every state of a run the blocks in use keep apart. -/
theorem live_apart_in_region (hinit : init (some area) new nLen = (0, some m, h)) (h₁ : 24 ≤ nLen)
    (h₂ : nLen < 2 ^ 31) (hops : ∀ op ∈ ops, op.Legal) : (Run.run ⟨m, h, []⟩ ops).Disjoint := by
  have hF := init_formatted hinit h₁ h₂
  rcases Int.le_iff_lt_or_eq.1 h₁ with h₁ | rfl
  · obtain ⟨A, hA⟩ := inv_run hF h₁ h₂ hops
    exact ⟨hA.live ▸ A.apart, fun b hb => ⟨(hA.live_in hb).1, (hA.live_in hb).2, fun r => hA.live_range hb⟩⟩
  · rw [run_of_header hF hops]
    simp [Run.Disjoint]

/-- The second block comes from below `m_pStart`, which is 121 here; freed, it joins the
memory of the first one, which stays free from `m_pStart` up. -/
theorem live_apart_in_region_squeeze :
    ((Run.formatted 134).run [.alloc 10, .alloc 30, .alloc 2, .free 121, .free 91]).Disjoint :=
  live_apart_in_region (init_zeros (by decide)) (by decide) (by decide) (by simp [Op.Legal])

end Formatted

end XStaticAlloc
