/-
When `Alloc` refuses (Mem/XStaticAlloc.cpp).

Without a range that is long enough `Alloc` squeezes the records. Where they
end it finds by counting the flags up to the stored number of blocks, which
goes wrong when the number is 0: no flag brings the count there, and the scan
ends at the last one. In every state of a run the flags and the map of the
records agree but for blocks that found no slot of their own (`Indexed`), so
that otherwise the scan ends at the highest slot (`Indexed.lastUsed_eq`).
-/
import XFramework.Mem.StaticAllocSlots

open Bytes Span

namespace XStaticAlloc

variable {m m' : Mem} {h h' : XStaticAlloc} {i j : Nat} {len : Int}

/-! ## The counting loop -/

/-- How many flags are set up to flag `i`. -/
def flagsUpTo (m : Mem) (h : XStaticAlloc) (i : Nat) : Nat := ((List.range (i + 1)).filter (h.flag m)).length

theorem flagsUpTo_lt (hij : i < j) (hj : h.flag m j = true) : h.flagsUpTo m i < h.flagsUpTo m j := by
  have hsub : (List.range (i + 1)).Sublist (List.range j) := List.range_sublist.2 hij
  have hle := (hsub.filter (h.flag m)).length_le
  rw [flagsUpTo, flagsUpTo, List.range_succ (n := j), List.filter_append, List.length_append, List.filter_singleton, hj]
  exact Nat.lt_succ_of_le hle

theorem flagsUpTo_inj (hi : h.flag m i = true) (hj : h.flag m j = true) (heq : h.flagsUpTo m i = h.flagsUpTo m j) :
    i = j := by
  rcases Nat.lt_trichotomy i j with hlt | heq' | hlt
  · have := flagsUpTo_lt hlt hj
    omega
  · exact heq'
  · have := flagsUpTo_lt hlt hi
    omega

/-- The loop ends at the flag that brings the count to the stored number, or at the last one. -/
theorem lastUsed_cases (m : Mem) (h : XStaticAlloc) :
    (h.lastUsed m < flagCount m ∧ h.flag m (h.lastUsed m) = true ∧ h.flagsUpTo m (h.lastUsed m) = useCount m) ∨
      h.lastUsed m = flagCount m - 1 ∧ ∀ i < flagCount m, h.flag m i = true → h.flagsUpTo m i ≠ useCount m := by
  rw [lastUsed]
  cases hfind : (List.range (flagCount m)).find? fun i =>
      h.flag m i && ((List.range (i + 1)).filter (h.flag m)).length == useCount m with
  | some i =>
    have hi := List.find?_some hfind
    simp only [Bool.and_eq_true, beq_iff_eq] at hi
    exact .inl ⟨List.mem_range.1 (List.mem_of_find?_eq_some hfind), hi.1, hi.2⟩
  | none =>
    refine .inr ⟨rfl, fun i hi hflag hcount => ?_⟩
    have hno := List.find?_eq_none.1 hfind i (List.mem_range.2 hi)
    simp only [Bool.and_eq_true, beq_iff_eq] at hno
    exact hno ⟨hflag, hcount⟩

theorem lastUsed_eq_of (hi : i < flagCount m) (hflag : h.flag m i = true) (hcount : h.flagsUpTo m i = useCount m) :
    h.lastUsed m = i := by
  rcases lastUsed_cases m h with ⟨-, hlast, hcount'⟩ | ⟨-, hno⟩
  · exact flagsUpTo_inj hlast hflag (hcount'.trans hcount.symm)
  · exact absurd hcount (hno i hi hflag)

/-! ## The highest slot -/

/-- The slots that have a record. -/
def slotsUsed (h : XStaticAlloc) : List Nat := h.recordMap.entries.map (·.2)

/-- The highest slot in use, or -1. -/
def highestSlot (h : XStaticAlloc) : Int := (h.slotsUsed.map Int.ofNat).foldr max (-1)

theorem mem_slotsUsed : i ∈ h.slotsUsed ↔ ∃ p, (p, i) ∈ h.recordMap := by
  simp [slotsUsed, ← StdMap.mem_entries]

theorem length_slotsUsed (h : XStaticAlloc) : h.slotsUsed.length = h.recordMap.size := List.length_map _

theorem highestSlot_cases (h : XStaticAlloc) :
    h.slotsUsed = [] ∧ h.highestSlot = -1 ∨ ∃ i ∈ h.slotsUsed, h.highestSlot = i ∧ ∀ j ∈ h.slotsUsed, j ≤ i := by
  rw [highestSlot]
  induction h.slotsUsed with
  | nil => exact .inl ⟨rfl, rfl⟩
  | cons i l ih =>
    right
    rw [List.map_cons, List.foldr_cons]
    rcases ih with ⟨rfl, hmax⟩ | ⟨j, hj, hmax, hle⟩
    · refine ⟨i, List.mem_cons_self, ?_, by simp⟩
      rw [hmax]
      exact max_eq_left (by simp)
    · rw [hmax]
      by_cases hij : j ≤ i
      · refine ⟨i, List.mem_cons_self, max_eq_left (Int.ofNat_le.2 hij), ?_⟩
        exact List.forall_mem_cons.2 ⟨Nat.le_refl i, fun k hk => Nat.le_trans (hle k hk) hij⟩
      · refine ⟨j, List.mem_cons_of_mem _ hj, max_eq_right (Int.ofNat_le.2 (by omega)), ?_⟩
        exact List.forall_mem_cons.2 ⟨by omega, hle⟩

theorem highestSlot_eq (hi : i ∈ h.slotsUsed) (hle : ∀ j ∈ h.slotsUsed, j ≤ i) : h.highestSlot = i := by
  rcases highestSlot_cases h with ⟨hnil, -⟩ | ⟨j, hj, hmax, hle'⟩
  · rw [hnil] at hi
    cases hi
  · rw [hmax, Nat.le_antisymm (hle j hj) (hle' i hi)]

/-! ## The slots of every run -/

/-- What the flags and the map of the records have in common in every run. A block that found no clear flag shares the
last slot with others, or has no record. -/
structure Indexed (s : Run) : Prop where
  count : useCount s.mem = s.obj.recordMap.size % 2 ^ 16
  flagged : ∀ i < blockLimit s.mem, s.obj.flag s.mem i = true → i ∈ s.obj.slotsUsed
  used : ∀ i ∈ s.obj.slotsUsed, s.obj.flag s.mem i = true ∨ i + 1 = flagCount s.mem
  once : ∀ x ∈ s.obj.recordMap, ∀ y ∈ s.obj.recordMap, x.2 = y.2 → x = y ∨ x.2 + 1 = flagCount s.mem
  records : recordLen s.mem ≤ 16 * flagCount s.mem

namespace Indexed

variable {s r : Run} {A : Arena} {p : Int} {k : Nat}

/-- When the last slot is not in use, every record has a slot of its own. -/
theorem nodup (hS : Indexed s) (hlast : ∀ i ∈ s.obj.slotsUsed, i + 1 ≠ flagCount s.mem) : s.obj.slotsUsed.Nodup := by
  refine List.Nodup.map_on (fun x hx y hy heq => ?_) (StdMap.nodup_entries _)
  exact (hS.once x hx y hy heq).resolve_right (hlast x.2 (List.mem_map_of_mem hx))

theorem lt_limit (hI : Inv s A) (hi : i ∈ s.obj.slotsUsed) : i < blockLimit s.mem := by
  obtain ⟨p, hp⟩ := mem_slotsUsed.1 hi
  exact hI.slots _ hp

theorem highestSlot_of_last (hI : Inv s A) (hi : i ∈ s.obj.slotsUsed) (hend : i + 1 = flagCount s.mem) :
    s.obj.highestSlot = i := by
  have hflags := hI.layout.flags
  refine highestSlot_eq hi fun j hj => ?_
  have := lt_limit hI hj
  omega

/-- The scan ends at the highest slot, unless the stored number is 0 or has wrapped. -/
theorem lastUsed_eq (hS : Indexed s) (hI : Inv s A) (hpos : 1 ≤ s.obj.recordMap.size)
    (hsize : s.obj.recordMap.size < 2 ^ 16) : s.obj.highestSlot = s.obj.lastUsed s.mem := by
  have hcount : useCount s.mem = s.obj.slotsUsed.length := by
    rw [hS.count, Nat.mod_eq_of_lt hsize, length_slotsUsed]
  have hflags := hI.layout.flags
  by_cases hlast : ∃ i ∈ s.obj.slotsUsed, i + 1 = flagCount s.mem
  · -- the last slot is in use: the flags before it cannot be as many as the records
    obtain ⟨l, hl, hend⟩ := hlast
    have hlt := lt_limit hI hl
    rw [highestSlot_of_last hI hl hend]
    rcases lastUsed_cases s.mem s.obj with ⟨hin, -, hupto⟩ | ⟨heq, -⟩
    · by_contra hne
      have hbefore : s.obj.lastUsed s.mem < l := by omega
      generalize s.obj.lastUsed s.mem = i at *
      have hsub : (l :: (List.range (i + 1)).filter (s.obj.flag s.mem)) ⊆ s.obj.slotsUsed := by
        refine List.cons_subset.2 ⟨hl, fun j hj => ?_⟩
        obtain ⟨hj, hflag⟩ := List.mem_filter.1 hj
        have := List.mem_range.1 hj
        exact hS.flagged j (by omega) hflag
      have hnd : (l :: (List.range (i + 1)).filter (s.obj.flag s.mem)).Nodup := by
        refine List.nodup_cons.2 ⟨fun hmem => ?_, List.nodup_range.filter _⟩
        have := List.mem_range.1 (List.mem_filter.1 hmem).1
        omega
      have hle := (List.subperm_of_subset hnd hsub).length_le
      rw [List.length_cons, ← flagsUpTo, hupto, hcount] at hle
      omega
    · omega
  · -- every record has its own slot with its flag set: the highest one brings the count to their number
    push Not at hlast
    rcases highestSlot_cases s.obj with ⟨hnil, -⟩ | ⟨g, hg, hmax, hle⟩
    · rw [← length_slotsUsed, hnil] at hpos
      cases hpos
    · have hglt := lt_limit hI hg
      have hflag := fun i hi => (hS.used i hi).resolve_right (hlast i hi)
      have hperm : ((List.range (g + 1)).filter (s.obj.flag s.mem)).Perm s.obj.slotsUsed := by
        refine (List.perm_ext_iff_of_nodup (List.nodup_range.filter _) (hS.nodup hlast)).2 fun j => ?_
        rw [List.mem_filter, List.mem_range]
        refine ⟨?_, ?_⟩
        · rintro ⟨hj, hjflag⟩
          exact hS.flagged j (by omega) hjflag
        · exact fun hj => ⟨Nat.lt_succ_of_le (hle j hj), hflag j hj⟩
      rw [hmax, lastUsed_eq_of (by omega) (hflag g hg) (hperm.length_eq.trans hcount.symm)]

/-- More records than the number can count: the last slot is in use. -/
theorem last_of_many (hS : Indexed s) (hI : Inv s A) (hmany : 2 ^ 16 ≤ s.obj.recordMap.size) :
    ∃ i ∈ s.obj.slotsUsed, i + 1 = flagCount s.mem := by
  by_contra hlast
  push Not at hlast
  have hsub : s.obj.slotsUsed ⊆ List.range (blockLimit s.mem) := fun i hi => List.mem_range.2 (lt_limit hI hi)
  have hle := (List.subperm_of_subset (hS.nodup hlast) hsub).length_le
  rw [List.length_range, length_slotsUsed] at hle
  have := blockLimit_lt s.mem
  omega

/-- The slot that `Alloc` takes had a clear flag, or is the last. -/
theorem newIndex_clear (hi : h.newIndex m < flagCount m) :
    h.flag m (h.newIndex m) = false ∨ h.newIndex m + 1 = flagCount m := by
  cases hc : h.firstClear m with
  | some k =>
    have hk : h.newIndex m = k := by rw [newIndex, hc, Option.getD_some]
    rw [hk]
    exact .inl (mem_firstClear.1 hc).2.1
  | none =>
    have hk : h.newIndex m = flagCount m - 1 := by rw [newIndex, hc, Option.getD_none]
    omega

/-- The block gets a slot: that of no other record, or the last one. -/
theorem added (hS : Indexed s) (hI : Inv s A) (hfresh : ∀ x ∈ s.obj.recordMap, x.1 ≠ p)
    (hbl : blockLimit r.mem = blockLimit s.mem) (hfl : flagLen r.mem = flagLen s.mem) (hrl : recordLen r.mem = recordLen s.mem)
    (hflags : ∀ j < flagCount s.mem, r.obj.flag r.mem j = (decide (j = k) || s.obj.flag s.mem j))
    (hk : k < blockLimit s.mem) (hclear : s.obj.flag s.mem k = false ∨ k + 1 = flagCount s.mem)
    (hc : useCount r.mem = (useCount s.mem + 1) % 2 ^ 16) (hmap : r.obj.recordMap = s.obj.recordMap.insert p k) :
    Indexed r := by
  have hlim := hI.layout.flags
  have hfc : flagCount r.mem = flagCount s.mem := by rw [flagCount, hfl, flagCount]
  have hmem : ∀ x, x ∈ r.obj.recordMap ↔ x ∈ s.obj.recordMap ∨ x = (p, k) := fun x => by
    rw [hmap, StdMap.mem_insert_new hfresh]
  have hused : ∀ j, j ∈ r.obj.slotsUsed ↔ j ∈ s.obj.slotsUsed ∨ j = k := fun j => by
    rw [mem_slotsUsed, mem_slotsUsed]
    simp [hmem, exists_or]
  have hnew : ∀ x ∈ s.obj.recordMap, x.2 = k → k + 1 = flagCount s.mem := by
    intro x hx hxk
    rcases hclear with hoff | hlast
    · refine (hS.used k (mem_slotsUsed.2 ⟨x.1, hxk ▸ hx⟩)).resolve_left fun hon => ?_
      rw [hoff] at hon
      cases hon
    · exact hlast
  constructor
  case count =>
    rw [hc, hS.count, hmap, StdMap.size, StdMap.size, (StdMap.perm_insert hfresh).length_eq, List.length_cons]
    omega
  case flagged =>
    intro i hi hflag
    rw [hbl] at hi
    rw [hflags i (by omega), Bool.or_eq_true, decide_eq_true_eq] at hflag
    rw [hused]
    exact hflag.symm.imp_left (hS.flagged i hi)
  case used =>
    intro i hi
    rw [hfc]
    rcases (hused i).1 hi with hi | rfl
    · rw [hflags i (Nat.lt_of_lt_of_le (lt_limit hI hi) hlim)]
      exact (hS.used i hi).imp_left fun hflag => by rw [hflag, Bool.or_true]
    · left
      rw [hflags i (by omega), decide_eq_true rfl, Bool.true_or]
  case once =>
    intro x hx y hy hxy
    rw [hfc]
    rcases (hmem x).1 hx with hx | rfl
    · rcases (hmem y).1 hy with hy | rfl
      · exact hS.once x hx y hy hxy
      · exact .inr (hxy ▸ hnew x hx hxy)
    · rcases (hmem y).1 hy with hy | rfl
      · exact .inr (hnew y hy hxy.symm)
      · exact .inl rfl
  case records =>
    rw [hrl, hfc]
    exact hS.records

/-- The records are the same, and the flags of the slots. -/
theorem kept (hS : Indexed s) (hI : Inv s A) (hbl : blockLimit r.mem = blockLimit s.mem)
    (hfl : flagLen r.mem = flagLen s.mem) (hrl : recordLen r.mem = recordLen s.mem)
    (hflag : ∀ i < blockLimit s.mem, r.obj.flag r.mem i = s.obj.flag s.mem i)
    (hc : useCount r.mem = useCount s.mem) (hmap : r.obj.recordMap = s.obj.recordMap) : Indexed r := by
  have hfc : flagCount r.mem = flagCount s.mem := by rw [flagCount, hfl, flagCount]
  have hused : r.obj.slotsUsed = s.obj.slotsUsed := by rw [slotsUsed, hmap, slotsUsed]
  constructor
  case count =>
    rw [hc, hmap]
    exact hS.count
  case flagged =>
    intro i hi hflag'
    rw [hbl] at hi
    rw [hflag i hi] at hflag'
    rw [hused]
    exact hS.flagged i hi hflag'
  case used =>
    intro i hi
    rw [hused] at hi
    rw [hfc, hflag i (lt_limit hI hi)]
    exact hS.used i hi
  case once =>
    rw [hmap, hfc]
    exact hS.once
  case records =>
    rw [hrl, hfc]
    exact hS.records

theorem alloced (hS : Indexed s) (hI : Inv s A) (hlen : 1 ≤ len) : Indexed (s.alloc len) := by
  rcases hI.alloc_found hlen with ⟨heq, -⟩ | ⟨m, h, p, hf, heq⟩
  · rw [heq]
    exact hS
  obtain ⟨-, hfresh⟩ := hI.fresh hf.fresh
  obtain ⟨hbl, hfl, hrl, hflags, hreg⟩ := Slots.register_spec hf
  have hlim := hI.layout.flags
  have hclear := newIndex_clear (m := s.mem) (h := s.obj)
  rw [heq]
  generalize register m h p len = r at *
  generalize s.obj.newIndex s.mem = k at *
  split_ifs at hreg with hk
  · obtain ⟨hc, hmap, -⟩ := hreg
    exact hS.added hI hfresh hbl hfl hrl hflags hk (hclear (by omega)) hc hmap
  · obtain ⟨hc, hmap, -⟩ := hreg
    refine hS.kept hI hbl hfl hrl (fun i hi => ?_) hc hmap
    rw [hflags i (by omega), decide_eq_false (by omega), Bool.false_or]

theorem freed (hS : Indexed s) (hI : Inv s A) (hp : (p, len) ∈ s.obj.recordInfo) : Indexed (s.free p) := by
  obtain ⟨k, hk⟩ := (hI.keys p).1 ⟨len, hp⟩
  obtain ⟨hmap, -, hcount, hbl, hfl, hrl, hflags⟩ := Slots.free_spec hI hp hk
  have hfc : flagCount (s.free p).mem = flagCount s.mem := by rw [flagCount, hfl, flagCount]
  have hmem : ∀ x, x ∈ (s.free p).obj.recordMap ↔ x ∈ s.obj.recordMap ∧ x.1 ≠ p := fun x => by rw [hmap, StdMap.mem_erase]
  have hsize := (StdMap.perm_erase hk).length_eq
  constructor
  case count =>
    have hold := hS.count
    rw [StdMap.size, hsize, List.length_cons] at hold
    rw [hcount, hmap, StdMap.size]
    omega
  case flagged =>
    intro i hi hflag
    rw [hbl] at hi
    rw [hflags, Bool.and_eq_true, decide_eq_true_eq] at hflag
    obtain ⟨q, hq⟩ := mem_slotsUsed.1 (hS.flagged i hi hflag.2)
    refine mem_slotsUsed.2 ⟨q, (hmem _).2 ⟨hq, ?_⟩⟩
    rintro rfl
    exact hflag.1 (StdMap.mem_unique hq hk)
  case used =>
    intro i hi
    rw [hfc, hflags]
    obtain ⟨q, hq⟩ := mem_slotsUsed.1 hi
    obtain ⟨hq, hne⟩ := (hmem _).1 hq
    by_cases hik : i = k
    · -- two records have the slot
      subst hik
      refine .inr ((hS.once _ hq _ hk rfl).resolve_left fun heq => hne (congrArg Prod.fst heq))
    · rw [decide_eq_true hik, Bool.true_and]
      exact hS.used i (mem_slotsUsed.2 ⟨q, hq⟩)
  case once =>
    intro x hx y hy hxy
    rw [hfc]
    exact hS.once x ((hmem x).1 hx).1 y ((hmem y).1 hy).1 hxy
  case records =>
    rw [hrl, hfc]
    exact hS.records

theorem written (hS : Indexed s) (hI : Inv s A) {x : Int} {b : UInt8} : Indexed (s.write x b) := by
  obtain ⟨hobj, -, hh, hflag⟩ := Slots.write_spec hI x b
  have hlim := hI.layout.flags
  exact hS.kept hI hh.blockLimit hh.flagLen hh.recordLen (fun i hi => by rw [hobj]; exact hflag i (by omega)) hh.useCount
    (by rw [hobj])

theorem congr (hS : Indexed s) (hI : Inv s A) (hmem : r.mem = s.mem) (hobj : r.obj = s.obj) : Indexed r :=
  hS.kept hI (by rw [hmem]) (by rw [hmem]) (by rw [hmem]) (fun _ _ => by rw [hmem, hobj]) (by rw [hmem]) (by rw [hobj])

theorem step (hS : Indexed s) (hI : Inv s A) {op : Op} (hop : op.Legal) : Indexed (s.step op) := by
  cases op with
  | alloc len => exact hS.alloced hI hop
  | free p =>
    by_cases hp : ∃ len, (p, len) ∈ s.obj.recordInfo
    · obtain ⟨len, hp⟩ := hp
      exact hS.freed hI hp
    · have hnone : s.obj.recordInfo.find? p = none := StdMap.find?_eq_none.2 fun x hx he => hp ⟨x.2, he ▸ hx⟩
      have hfree : s.obj.free s.mem p = (s.mem, s.obj) := by simp [XStaticAlloc.free, hnone]
      exact hS.congr hI (congrArg Prod.fst hfree) (congrArg Prod.snd hfree)
  | write p b => exact hS.written hI

end Indexed

/-! ## Refusals -/

/-- Where the memory for a squeeze begins when `i` is the last slot in use: slot `i + 1` is kept for the new record. -/
def keptEnd (h : XStaticAlloc) (i : Int) : Int := h.pRecordStart + 16 * (i + 2)

/-- `Alloc` refuses exactly when no range is long enough, and the memory behind the record slot that is kept next to the
highest one in use is not either; it changes nothing then. -/
def RefusesRightly (m : Mem) (h : XStaticAlloc) (len : Int) : Prop :=
  ((h.alloc m len).1 = none ↔ (∀ r ∈ h.rangeSet, r.2 < len) ∧ h.limit m - h.keptEnd h.highestSlot < len) ∧
    ((h.alloc m len).1 = none → h.alloc m len = (none, m, h))

/-- A range is long enough; or the stored number is 0 and a squeeze has no room, or it has wrapped and no flag that brings
the count there leaves room for one. -/
def Counts (m : Mem) (h : XStaticAlloc) (len : Int) : Prop :=
  (∃ r ∈ h.rangeSet, len ≤ r.2) ∨
    (useCount m = 0 → h.limit m - h.keptEnd h.highestSlot < len) ∧
      (2 ^ 16 ≤ h.recordMap.size → ∀ i < flagCount m, h.flag m i = true → h.flagsUpTo m i = useCount m →
        h.limit m - h.keptEnd i < len)

theorem alloc_eq_none_iff : (h.alloc m len).1 = none ↔
    (∀ r ∈ h.rangeSet, r.2 < len) ∧ h.limit m - h.keptEnd (h.lastUsed m) < len := by
  have hext : h.extBegin m = h.keptEnd (h.lastUsed m) := rfl
  rw [← hext]
  rcases alloc_cases m h len with ⟨itf, hitf, hle, heq⟩ | ⟨hno, hlt, heq⟩ | ⟨hno, hle, heq⟩
  · rw [heq, register_fst]
    refine iff_of_false (Option.some_ne_none _) fun h => ?_
    have := h.1 itf hitf
    omega
  · rw [heq]
    exact iff_of_true rfl ⟨hno, hlt⟩
  · rw [heq, register_fst]
    refine iff_of_false (Option.some_ne_none _) fun h => ?_
    omega

theorem alloc_unchanged (hnone : (h.alloc m len).1 = none) : h.alloc m len = (none, m, h) := by
  rcases alloc_cases m h len with ⟨itf, -, -, heq⟩ | ⟨-, -, heq⟩ | ⟨-, -, heq⟩
  · rw [heq, register_fst] at hnone
    cases hnone
  · exact heq
  · rw [heq, register_fst] at hnone
    cases hnone

/-- Behind the last slot there is no room. -/
theorem Indexed.lt_of_last {s : Run} {A : Arena} (hS : Indexed s) (hI : Inv s A) (hlen : 1 ≤ len)
    (hi : flagCount s.mem ≤ i + 1) : s.obj.limit s.mem - s.obj.keptEnd i < len := by
  have h₁ := hS.records
  have h₂ := hI.layout.start
  unfold limit keptEnd
  omega

theorem Indexed.refusesRightly_iff {s : Run} {A : Arena} (hS : Indexed s) (hI : Inv s A) (hlen : 1 ≤ len) :
    RefusesRightly s.mem s.obj len ↔ Counts s.mem s.obj len := by
  rw [RefusesRightly, and_iff_left alloc_unchanged, alloc_eq_none_iff, Counts]
  by_cases hrange : ∃ r ∈ s.obj.rangeSet, len ≤ r.2
  · refine iff_of_true (iff_of_false ?_ ?_) (.inl hrange)
    all_goals
      rintro ⟨hno, -⟩
      obtain ⟨r, hr, hle⟩ := hrange
      have := hno r hr
      omega
  · have hno : ∀ r ∈ s.obj.rangeSet, r.2 < len := fun r hr => lt_of_not_ge fun hle => hrange ⟨r, hr, hle⟩
    rw [or_iff_right hrange, and_iff_right hno, and_iff_right hno]
    -- with more records than the number can count the last slot is in use, and there is no room behind it
    have hlast : 2 ^ 16 ≤ s.obj.recordMap.size → s.obj.limit s.mem - s.obj.keptEnd s.obj.highestSlot < len := by
      intro hmany
      obtain ⟨l, hl, hend⟩ := hS.last_of_many hI hmany
      rw [highestSlot_of_last hI hl hend]
      exact hS.lt_of_last hI hlen (Nat.le_of_eq hend.symm)
    have hcount := hS.count
    rcases lastUsed_cases s.mem s.obj with ⟨hin, hflag, hupto⟩ | ⟨heq, hnone⟩
    · -- a flag brings the count to the stored number, which is not 0 then
      have hpos : useCount s.mem ≠ 0 := by
        have hmem : s.obj.lastUsed s.mem ∈ (List.range (s.obj.lastUsed s.mem + 1)).filter (s.obj.flag s.mem) :=
          List.mem_filter.2 ⟨List.mem_range.2 (Nat.lt_succ_self _), hflag⟩
        rw [← hupto, flagsUpTo]
        exact Nat.ne_of_gt (List.length_pos_of_mem hmem)
      rw [and_iff_right fun h => absurd h hpos]
      by_cases hmany : 2 ^ 16 ≤ s.obj.recordMap.size
      · rw [iff_true_right (hlast hmany)]
        constructor
        case mp =>
          intro h _ i _ hi hi'
          rw [flagsUpTo_inj hi hflag (hi'.trans hupto.symm)]
          exact h
        case mpr => exact fun h => h hmany _ hin hflag hupto
      · rw [hS.lastUsed_eq hI (by omega) (by omega)]
        exact iff_of_true Iff.rfl fun h => absurd h hmany
    · -- the scan ends at the last flag, behind which there is no room
      have hlt := hS.lt_of_last (i := s.obj.lastUsed s.mem) hI hlen (by omega)
      rw [iff_true_left hlt]
      constructor
      case mp => exact fun h => ⟨fun _ => h, fun _ i hi hf hc => absurd hc (hnone i hi hf)⟩
      case mpr =>
        intro h
        by_cases hzero : useCount s.mem = 0
        · exact h.1 hzero
        · by_cases hmany : 2 ^ 16 ≤ s.obj.recordMap.size
          · exact hlast hmany
          · rw [hS.lastUsed_eq hI (by omega) (by omega)]
            exact hlt

/-! ## Refusals in a run -/

section Formatted

variable {area : Mem} {h₀ : XStaticAlloc} {nLen : Int} {ops : List Op}

theorem indexed_of_formatted (hF : Formatted nLen m h) : Indexed ⟨m, h, []⟩ where
  count := by simp [hF.useCount, hF.recordMap, StdMap.size]
  flagged i hi hflag := by
    have hlim : blockLimit m ≤ flagCount m := by
      rw [hF.blockLimit, flagCount, hF.flagLen]
      have := Nat.mod_le (slotCount nLen) (2 ^ 16)
      omega
    dsimp only at hi hflag
    rw [hF.flags i (by omega)] at hflag
    cases hflag
  used i hi := by
    obtain ⟨p, hp⟩ := mem_slotsUsed.1 hi
    simp [hF.recordMap] at hp
  once x hx := by simp [hF.recordMap] at hx
  records := by
    dsimp only
    rw [hF.recordLen, flagCount, hF.flagLen]
    omega

/-- An area that is a header and nothing else refuses every request, and has no room for one. -/
theorem counts_of_header (hF : Formatted 24 m h) (hlen : 1 ≤ len) :
    RefusesRightly m h len ↔ Counts m h len := by
  have hrec : h.pRecordStart = 24 := by rw [hF.pRecordStart]; rfl
  have hstart : h.pStart = 24 := by rw [hF.pStart, hF.pRecordStart]; rfl
  have hlim : h.limit m = 24 := by simp [limit, hF.recordOffset, hstart]
  have hhigh : h.highestSlot = -1 := by
    rw [highestSlot, slotsUsed, hF.recordMap]
    rfl
  have hno : ∀ r ∈ h.rangeSet, r.2 < len := by
    simp only [hF.rangeSet, StdMap.mem_insert, StdMap.not_mem_empty, false_or, hstart]
    rintro r ⟨rfl, -⟩
    dsimp only
    omega
  have hroom : ∀ i : Int, -1 ≤ i → h.limit m - h.keptEnd i < len := fun i hi => by
    unfold keptEnd
    omega
  refine iff_of_true ⟨alloc_eq_none_iff.trans ?_, alloc_unchanged⟩ (.inr ⟨fun _ => ?_, fun _ i _ _ _ => ?_⟩)
  · exact iff_of_true ⟨hno, hroom _ (by omega)⟩ ⟨hno, hroom _ (by omega)⟩
  · exact hroom _ (by omega)
  · exact hroom _ (by omega)

/-- In every state of a run `Alloc` refuses when it must and only then, exactly when it finds the highest slot in use, as
far as there is room behind that. -/
theorem refusesRightly_iff_run (hinit : init (some area) h₀ nLen = (0, some m, h)) (h₁ : 24 ≤ nLen)
    (h₂ : nLen < 2 ^ 31) (hops : ∀ op ∈ ops, op.Legal) (hlen : 1 ≤ len) :
    RefusesRightly (Run.run ⟨m, h, []⟩ ops).mem (Run.run ⟨m, h, []⟩ ops).obj len ↔
      Counts (Run.run ⟨m, h, []⟩ ops).mem (Run.run ⟨m, h, []⟩ ops).obj len := by
  have hF := init_formatted hinit h₁ h₂
  rcases Int.le_iff_lt_or_eq.1 h₁ with h₁ | rfl
  · have halong : Steps.Along Run.step (fun _ op => op.Legal) ⟨m, h, []⟩ ops := Steps.along_of_mem hops
    obtain ⟨A, hA, hS⟩ := halong.run (fun s => ∃ A, Inv s A ∧ Indexed s)
      (by
        obtain ⟨A, hA, -⟩ := inv_of_formatted hF h₁ h₂
        exact ⟨A, hA, indexed_of_formatted hF⟩)
      fun s op ⟨A, hA, hS⟩ hop => by
        obtain ⟨A', hA'⟩ := hA.step hop
        exact ⟨A', hA', hS.step hA hop⟩
    exact hS.refusesRightly_iff hA hlen
  · rw [run_of_header hF hops]
    exact counts_of_header hF hlen

instance {len : Int} : Decidable (Counts m h len) :=
  inferInstanceAs (Decidable ((∃ r ∈ h.rangeSet.entries, len ≤ r.2) ∨ (_ → _) ∧ (_ → ∀ i < _, _ → _ → _)))

/-- Two blocks are in use and the one of the lower slot is freed: the squeeze goes as far down as the upper one allows. -/
theorem refusesRightly_iff_run_two : RefusesRightly ((Run.formatted 134).run [.alloc 5, .alloc 8, .free 121]).mem
    ((Run.formatted 134).run [.alloc 5, .alloc 8, .free 121]).obj 20 :=
  (refusesRightly_iff_run (init_zeros (by decide)) (by decide) (by decide) (by simp [Op.Legal]) (by decide)).2
    (by decide +kernel)

/-- Nothing is in use yet, and 80 bytes of the records could be given up. -/
theorem not_refusesRightly_fresh : ¬∀ (area m : Mem) (h₀ h : XStaticAlloc) (nLen len : Int) (ops : List Op),
    init (some area) h₀ nLen = (0, some m, h) → 24 ≤ nLen → nLen < 2 ^ 31 → (∀ op ∈ ops, op.Legal) → 1 ≤ len →
      RefusesRightly (Run.run ⟨m, h, []⟩ ops).mem (Run.run ⟨m, h, []⟩ ops).obj len := by
  intro hall
  have hrefuse := (hall _ _ _ _ 134 14 [] (init_zeros (by decide)) (by decide) (by decide) (by simp) (by decide)).1
  have hnone : ((formatted 134).2.alloc (formatted 134).1 14).1 = none := by decide +kernel
  exact absurd (hrefuse.1 hnone).2 (by decide +kernel)

end Formatted

end XStaticAlloc
