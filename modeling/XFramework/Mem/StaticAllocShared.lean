/-
Several handles on one area.

A handle keeps maps of its own, and brings them up to date by `Refresh` before
each call. What the handles share is the area: as long as its records are whole
(`Stored`), a refreshed handle holds the blocks in use, whichever handle handed
them out, so the next call keeps them apart (`shared_run_apart`). The free
ranges it rebuilds may be fewer than there are; they overlap no block.
-/
import XFramework.Mem.StaticAllocLoad

open Bytes Span

namespace XStaticAlloc

/-! ## A refreshed handle -/

section Reload

variable {s : Run} {A : Arena}

/-- The handle as `Refresh` leaves it. -/
def Run.refreshed (s : Run) : Run := { s with obj := refresh s.mem s.obj }

theorem refresh_congr {m : Mem} {h h' : XStaticAlloc} (hb : h'.hasBegin = h.hasBegin)
    (hn : h'.nTotalLen = h.nTotalLen) : refresh m h' = refresh m h := by
  simp only [refresh, loadBlockArea, hb, hn]

/-- The ranges rebuilt are positive, in order, inside the region, and apart from the blocks. -/
theorem loadRanges_in (hI : Inv s A) (hS : Slots s) (hlt : s.obj.pStart < s.obj.nTotalLen) {R : StdMap Int Int}
    (hR : loadRanges s.obj.pStart s.obj.nTotalLen .empty s.obj.recordInfo.entries = R) :
    (∀ r ∈ R, 0 < r.2) ∧ Ordered R.entries ∧
      ∀ x, Covers R.entries x → s.obj.limit s.mem ≤ x ∧ x < s.obj.nTotalLen ∧ ¬ Covers s.live x := by
  have hlim : s.obj.limit s.mem ≤ s.obj.pStart := by
    unfold limit
    omega
  have hlive : ∀ y, Covers s.live y ↔ Covers s.obj.recordInfo.entries y := fun y => by
    unfold Covers
    simp only [hS.live, StdMap.mem_entries]
  have hB := blocks_of_slots hS hI
  subst hR
  simp only [hlive]
  cases he : s.obj.recordInfo.entries with
  | nil =>
    have hset : (loadRanges s.obj.pStart s.obj.nTotalLen .empty []).entries =
        [(s.obj.pStart, s.obj.nTotalLen - s.obj.pStart)] := rfl
    refine ⟨fun r hr => ?_, ?_, fun x hx => ?_⟩
    · rw [← StdMap.mem_entries, hset, List.mem_singleton] at hr
      subst hr
      simp only
      omega
    · rw [hset]
      exact List.pairwise_singleton _ _
    · rw [hset, covers_cons, or_iff_left covers_nil] at hx
      unfold Has at hx
      simp only at hx
      exact ⟨by omega, by omega, covers_nil⟩
  | cons first rest =>
    rw [he] at hB
    obtain ⟨hg, hpos, hc⟩ := loadRanges_spec s.obj.pStart hB
    refine ⟨hpos, hg.ordered, fun x hx => ?_⟩
    have hmem : first ∈ s.obj.recordInfo.entries := by simp [he]
    have hin := hI.live_in ((hS.live first).2 hmem)
    have hp := hB.pos first List.mem_cons_self
    rw [covers_cons]
    rcases (hc x).1 hx with ⟨h₁, h₂⟩ | ⟨h₁, h₂, h₃, -⟩
    · refine ⟨by omega, by omega, ?_⟩
      rintro (hf | hf)
      · unfold Has at hf
        omega
      · have := hB.covered_le hf
        omega
    · refine ⟨by omega, h₂, ?_⟩
      rintro (hf | hf)
      · unfold Has at hf
        omega
      · exact h₃ hf

/-- A refreshed handle keeps the invariants; the free addresses it does not find are lost. -/
theorem Stored.refreshed (hs : Stored s) (hI : Inv s A) (hlt : s.obj.pStart < s.obj.nTotalLen) :
    (∃ A', Inv s.refreshed A') ∧ Stored s.refreshed ∧ SameArea s.obj s.refreshed.obj := by
  obtain ⟨hpos, hord, hin⟩ := loadRanges_in hI hs.slots hlt rfl
  unfold Run.refreshed
  rw [refresh_eq hI.layout hs.slots hs.recorded fun p hp => (hI.keys p).1 hp]
  generalize loadRanges _ _ _ _ = R at *
  let A' : Arena := { A with
    free := {x | Covers R.entries x}
    free_in := fun x hx => by
      have := hin x hx
      rw [hI.lo, hI.hi]
      exact ⟨this.1, this.2.1⟩
    free_live := fun x hx => hI.live ▸ (hin x hx).2.2 }
  refine ⟨⟨A', ?_⟩, ⟨⟨hs.slots.live, hs.slots.flags, hs.slots.count⟩, hs.below, hs.recorded, hs.identifier⟩,
    ⟨rfl, rfl, rfl, rfl, rfl⟩⟩
  exact {
    layout := hI.layout.congr ⟨rfl, rfl, rfl, rfl, rfl⟩ rfl rfl rfl
    squeeze := hI.squeeze
    lo := hI.lo
    hi := hI.hi
    live := hI.live
    free := fun _ => Iff.rfl
    ranges_pos := hpos
    ordered := hord
    info := hI.info
    keys := hI.keys
    slots := hI.slots }

end Reload

/-! ## Shared runs -/

/-- An area of `nLen` bytes, the handles on it, and the blocks handed out by any of them. -/
structure Shared where
  nLen : Int
  mem : Mem
  handles : List XStaticAlloc
  live : List Span

/-- A new handle on the area, or a handle refreshed and then called. -/
inductive SharedOp
  | attach
  | call (i : Nat) (op : Op)

namespace Shared

/-- Handle `h` refreshed, with the area and the blocks. -/
def refreshed (s : Shared) (h : XStaticAlloc) : Run := Run.refreshed ⟨s.mem, h, s.live⟩

def step (s : Shared) : SharedOp → Shared
  | .attach =>
    let r := init (some s.mem) new s.nLen
    { s with mem := r.2.1.getD s.mem, handles := s.handles ++ [r.2.2] }
  | .call i op =>
    match s.handles[i]? with
    | some h =>
      let r := (s.refreshed h).step op
      { s with mem := r.mem, handles := s.handles.set i r.obj, live := r.live }
    | none => s

def run (s : Shared) (ops : List SharedOp) : Shared := ops.foldl step s

theorem step_call {s : Shared} {i : Nat} {h : XStaticAlloc} (hi : s.handles[i]? = some h) (op : Op) :
    s.step (.call i op) = { s with
      mem := ((s.refreshed h).step op).mem
      handles := s.handles.set i ((s.refreshed h).step op).obj
      live := ((s.refreshed h).step op).live } := by
  simp only [step, hi]

theorem step_call_none {s : Shared} {i : Nat} (hi : s.handles[i]? = none) (op : Op) : s.step (.call i op) = s := by
  simp only [step, hi]

/-- The call is legal, and an `Alloc` that gets memory takes a slot below the squeeze limit. -/
def CallOK (s : Shared) : SharedOp → Prop
  | .attach => True
  | .call i op => op.Legal ∧ ∀ h ∈ s.handles[i]?, (s.refreshed h).SlotClear op

instance (s : Shared) : DecidablePred s.CallOK
  | .attach => isTrue trivial
  | .call i op =>
    have : Decidable (∀ h ∈ s.handles[i]?, (s.refreshed h).SlotClear op) :=
      match s.handles[i]? with
      | some h => decidable_of_iff ((s.refreshed h).SlotClear op) (by simp)
      | none => isTrue (by simp)
    inferInstanceAs (Decidable (_ ∧ _))

/-- The invariant of a shared run: some handle on the area would satisfy those of a run. -/
structure Inv (s : Shared) (A : Arena) (h : XStaticAlloc) : Prop where
  inv : XStaticAlloc.Inv ⟨s.mem, h, s.live⟩ A
  stored : Stored ⟨s.mem, h, s.live⟩
  room : h.pStart < h.nTotalLen
  total : h.nTotalLen = s.nLen
  handles : ∀ h' ∈ s.handles, h'.hasBegin = true ∧ h'.nTotalLen = s.nLen

variable {s : Shared} {A : Arena} {h : XStaticAlloc}

theorem Inv.attach (hI : Inv s A h) : ∃ A' h', Inv (s.step .attach) A' h' := by
  have hpos : 0 < h.nTotalLen := by
    have h₁ := hI.inv.record_ge
    have h₂ := hI.inv.layout.start
    have h₃ := hI.room
    simp only at h₁ h₂
    omega
  have hinit : init (some s.mem) new s.nLen = (1, some s.mem, refresh s.mem h) :=
    hI.total ▸ Stored.init_eq hI.stored.identifier hI.inv.layout.begun hpos
  obtain ⟨-, -, harea⟩ := hI.stored.refreshed hI.inv hI.room
  refine ⟨A, h, ?_⟩
  simp only [step, hinit, Option.getD_some]
  refine ⟨hI.inv, hI.stored, hI.room, hI.total, fun h' hh' => ?_⟩
  rcases List.mem_append.1 hh' with hh' | hh'
  · exact hI.handles h' hh'
  · rw [List.mem_singleton] at hh'
    subst hh'
    exact ⟨harea.hasBegin.trans hI.inv.layout.begun, harea.nTotalLen.trans hI.total⟩

theorem Inv.call (hI : Inv s A h) {i : Nat} {op : Op} (hop : s.CallOK (.call i op)) :
    ∃ A' h', Inv (s.step (.call i op)) A' h' := by
  obtain ⟨hlegal, hclear⟩ := hop
  cases hi : s.handles[i]? with
  | none =>
    rw [step_call_none hi]
    exact ⟨A, h, hI⟩
  | some h' =>
    rw [step_call hi]
    have hh' := hI.handles h' (List.mem_of_getElem? hi)
    have hsame : s.refreshed h' = Run.refreshed ⟨s.mem, h, s.live⟩ := by
      simp only [refreshed, Run.refreshed]
      rw [refresh_congr (hh'.1.trans hI.inv.layout.begun.symm) (hh'.2.trans hI.total.symm)]
    have hclear := hclear h' (by simp [hi])
    obtain ⟨⟨B, hB⟩, hs, harea⟩ := hI.stored.refreshed hI.inv hI.room
    have harea' := harea.trans (Run.step_area _ op)
    rw [← hsame] at hB hs harea'
    obtain ⟨A', hA'⟩ := hB.step hlegal
    have hs' := hs.step hB hlegal hclear
    have hbegin := hI.inv.layout.begun
    have hroom := hI.room
    have htotal := hI.total
    simp only at harea' hbegin
    generalize (s.refreshed h').step op = r at *
    refine ⟨A', r.obj, hA', hs', ?_, harea'.nTotalLen.trans htotal, fun g hg => ?_⟩
    · rw [harea'.pStart, harea'.nTotalLen]
      exact hroom
    · rcases List.mem_or_eq_of_mem_set hg with hg | rfl
      · exact hI.handles g hg
      · exact ⟨harea'.hasBegin.trans hbegin, harea'.nTotalLen.trans htotal⟩

theorem Inv.step (hI : Inv s A h) {op : SharedOp} (hop : s.CallOK op) : ∃ A' h', Inv (s.step op) A' h' := by
  cases op with
  | attach => exact hI.attach
  | call i op => exact hI.call hop

end Shared

section Formatted

variable {area m : Mem} {h : XStaticAlloc} {nLen : Int} {ops : List SharedOp}

/-- On an area that is a header and nothing else no handle hands out a block. -/
theorem shared_run_of_header (hF : Formatted 24 m h)
    (hops : Steps.Along Shared.step (fun s op => s.CallOK op) ⟨24, m, [h], []⟩ ops) :
    (Shared.run ⟨24, m, [h], []⟩ ops).live = [] := by
  have hrange : loadRanges h.pStart h.nTotalLen .empty h.recordInfo.entries = h.rangeSet := by
    rw [hF.recordInfo, hF.rangeSet, hF.nTotalLen]
    rfl
  have hrefresh : refresh m h = h := by
    rw [refresh_eq (s := ⟨m, h, []⟩) (layout_of_formatted hF (by decide) (by decide)) (slots_of_formatted hF)
      (Stored.of_formatted hF).recorded (by simp [hF.recordInfo])]
    simp only [hrange]
  have hinit : init (some m) new 24 = (1, some m, h) := by
    have := Stored.init_eq hF.symbol hF.hasBegin (by rw [hF.nTotalLen]; decide)
    rwa [hF.nTotalLen, hrefresh] at this
  suffices h : ∃ hs, Shared.run ⟨24, m, [h], []⟩ ops = ⟨24, m, hs, []⟩ ∧ ∀ h' ∈ hs, h' = h by
    obtain ⟨hs, he, -⟩ := h
    rw [he]
  refine hops.run (fun s => ∃ hs, s = ⟨24, m, hs, []⟩ ∧ ∀ h' ∈ hs, h' = h) ⟨[h], rfl, by simp⟩ ?_
  rintro _ op ⟨hs, rfl, hall⟩ hop
  cases op with
  | attach =>
    refine ⟨hs ++ [h], by simp only [Shared.step, hinit, Option.getD_some], fun h' hh' => ?_⟩
    rcases List.mem_append.1 hh' with hh' | hh'
    · exact hall h' hh'
    · exact List.mem_singleton.1 hh'
  | call i op =>
    cases hi : hs[i]? with
    | none => exact ⟨hs, Shared.step_call_none (s := ⟨24, m, hs, []⟩) hi op, hall⟩
    | some h' =>
      have hh' := hall h' (List.mem_of_getElem? hi)
      subst hh'
      have hstep : (Shared.refreshed ⟨24, m, hs, []⟩ h').step op = ⟨m, h', []⟩ := by
        have : Run.run ⟨m, h', []⟩ [op] = ⟨m, h', []⟩ := run_of_header hF (by simpa using hop.1)
        simpa only [Shared.refreshed, Run.refreshed, hrefresh, Run.run, List.foldl_cons, List.foldl_nil] using this
      refine ⟨hs.set i h', by rw [Shared.step_call (s := ⟨24, m, hs, []⟩) hi op, hstep], fun g hg => ?_⟩
      rcases List.mem_or_eq_of_mem_set hg with hg | rfl
      · exact hall g hg
      · rfl

/-- As long as the record slots stay below the squeeze limit, no two blocks in use overlap,
whichever handles handed them out. -/
theorem shared_run_apart (hinit : init (some area) new nLen = (0, some m, h)) (h₁ : 24 ≤ nLen) (h₂ : nLen < 2 ^ 31)
    (hops : Steps.Along Shared.step (fun s op => s.CallOK op) ⟨nLen, m, [h], []⟩ ops) :
    (Shared.run ⟨nLen, m, [h], []⟩ ops).live.Pairwise Apart := by
  have hF := init_formatted hinit h₁ h₂
  rcases Int.le_iff_lt_or_eq.1 h₁ with h₁ | rfl
  · have hfits := slotCount_fits (show 24 ≤ nLen by omega)
    obtain ⟨A, h', hI⟩ : ∃ A h', Shared.Inv (Shared.run ⟨nLen, m, [h], []⟩ ops) A h' := by
      refine hops.run (fun s => ∃ A h', Shared.Inv s A h') ?_ fun s op ⟨A, h', hI⟩ hop => hI.step hop
      obtain ⟨A, hA, -⟩ := inv_of_formatted hF h₁ h₂
      refine ⟨A, h, hA, .of_formatted hF, ?_, hF.nTotalLen, by simp [hF.hasBegin, hF.nTotalLen]⟩
      rw [hF.pStart, hF.pRecordStart, hF.nTotalLen]
      omega
    have hlive : A.live = (Shared.run ⟨nLen, m, [h], []⟩ ops).live := hI.inv.live
    exact hlive ▸ A.apart
  · rw [shared_run_of_header hF hops]
    exact .nil

/-- Three handles, a squeeze, and blocks freed by other handles than handed them out. -/
theorem shared_run_apart_three : (Shared.run ⟨134, (formatted 134).1, [(formatted 134).2], []⟩
    [.attach, .call 0 (.alloc 10), .call 1 (.alloc 30), .attach, .call 2 (.alloc 2), .call 1 (.free 121),
      .call 0 (.alloc 5), .call 2 (.free 91)]).live.Pairwise Apart :=
  shared_run_apart (init_zeros (by decide)) (by decide) (by decide) (by decide +kernel)

/-- An area without a record slot hands out its memory all the same, and the second handle,
which finds no record of it, hands it out again. -/
theorem shared_run_overlap : ¬ (Shared.run ⟨30, (formatted 30).1, [(formatted 30).2], []⟩
    [.attach, .call 0 (.alloc 1), .call 1 (.alloc 1)]).live.Pairwise Apart := by
  decide +kernel

end Formatted

end XStaticAlloc
