/-
Whether `Packaging` ends (Net/DataHandle.h).

The pass over the queue starts again when the first package does not fit into
the frames. The frame that `RESTART` adds has no capacity, so the test fails
again, for ever (`packaging_ends_iff`).
-/
import XFramework.Net.PackagingBounds

open Bytes Fallible

namespace PackageProxy

/-! ## A pass over the queue -/

variable {c c' : Cursor} {h : SessionHandle} {p : NetPackage} {theQueue : List NetPackage} {a : Int}
  {cap i totalSend n : Nat} {m : Mem} {frames : List MsgFrame}

theorem ne_outOfFuel_bind {α β : Type} {x : Except PackError α} {f : α → Except PackError β} (hx : x ≠ .error .outOfFuel)
    (hf : ∀ y, x = .ok y → f y ≠ .error .outOfFuel) : (x >>= f) ≠ .error .outOfFuel := by
  cases x with
  | error e => exact fun heq => hx (congrArg Except.error (Except.error.inj heq))
  | ok y => exact hf y rfl

theorem frameAt_ne_outOfFuel : frameAt frames n ≠ .error .outOfFuel := by
  rw [frameAt]
  split <;> simp

theorem buildPackage_ne_outOfFuel {pSrc : Option (List UInt8)} {nFrameNo srcLen tf : Nat} :
    buildPackage c pSrc nFrameNo srcLen tf p ≠ .error .outOfFuel := by
  refine ne_outOfFuel_bind frameAt_ne_outOfFuel fun cur _ => ?_
  dsimp only
  split_ifs
  · simp
  · simp only [buildWhole]
    split_ifs
    · exact ne_outOfFuel_bind frameAt_ne_outOfFuel fun _ _ => by simp
    · simp
  · simp only [buildSplitData]
    split_ifs
    · simp
    all_goals exact ne_outOfFuel_bind frameAt_ne_outOfFuel fun _ _ => by simp
  · exact ne_outOfFuel_bind frameAt_ne_outOfFuel fun _ _ => by simp

theorem sendPackage_ne_outOfFuel : sendPackage h c p (validLength h p) ≠ .error .outOfFuel := by
  by_cases hg : Given h p
  · rw [sendPackage_eq hg]
    generalize builds h p = bs
    induction bs generalizing c with
    | nil => simp [pure, Except.pure]
    | cons b bs ih =>
      rw [List.foldlM_cons]
      exact ne_outOfFuel_bind buildPackage_ne_outOfFuel fun c' _ => ih
  · rw [sendPackage]
    split
    · simp
    · rename_i len pData hdata
      rw [Given, hdata] at hg
      rw [if_pos fun heq => hg ⟨heq, by simp⟩]
      simp

theorem queueLoop_ne_outOfFuel : queueLoop h cap theQueue i totalSend c ≠ .error .outOfFuel := by
  induction theQueue generalizing i totalSend c with
  | nil => simp [queueLoop]
  | cons p theQueue ih =>
    simp only [queueLoop]
    split_ifs
    · simp
    · simp
    · simp
    · simp
    · refine ne_outOfFuel_bind sendPackage_ne_outOfFuel fun c' _ => ?_
      split_ifs
      · simp
      · exact ih

/-- Only the first package makes the pass start again. -/
theorem queueLoop_ne_restart : queueLoop h cap theQueue (i + 1) totalSend c ≠ .ok .restart := by
  induction theQueue generalizing i totalSend c with
  | nil => simp [queueLoop]
  | cons p theQueue ih =>
    simp only [queueLoop]
    split_ifs with hover hfull hzero
    · simp
    · exact hzero.elim
    · simp
    · simp
    · intro hrun
      obtain ⟨c', -, hrun⟩ := bind_eq_ok.1 hrun
      split_ifs at hrun
      · cases hrun
      · exact ih hrun

theorem queueLoop_restart_iff : queueLoop h cap theQueue 0 0 c = .ok .restart ↔
    ∃ p ∈ theQueue.head?, validLength h p < 2 ^ 31 ∧ cap < validLength h p + 24 := by
  cases theQueue with
  | nil => simp [queueLoop]
  | cons p theQueue =>
    simp only [List.head?_cons, Option.mem_def, Option.some.injEq, exists_eq_left']
    rw [queueLoop]
    change (if 2 ^ 31 ≤ 0 + validLength h p then _ else if 0 + validLength h p + (0 + 1) * 24 > cap then _ else _) = _ ↔ _
    split_ifs with hover hfull hzero
    · exact iff_of_false (by simp) (by omega)
    · exact iff_of_true rfl (by omega)
    · exact absurd rfl hzero
    · exact absurd rfl hzero
    · refine iff_of_false (fun hrun => ?_) (by omega)
      obtain ⟨c', -, hrun⟩ := bind_eq_ok.1 hrun
      split_ifs at hrun
      · cases hrun
      · exact queueLoop_ne_restart hrun

/-! ## All passes -/

/-- `Packaging` returns or fails, after finitely many passes. -/
def PackagingEnds (h : SessionHandle) (m : Mem) (frames : List MsgFrame) (theQueue : List NetPackage) : Prop :=
  ∃ fuel, ∀ e, packaging fuel h m frames theQueue = .error e → e ≠ .outOfFuel

/-- The frame that `RESTART` adds has no capacity: the pass starts again for ever. -/
theorem packFrom_outOfFuel {fuel : Nat} (hcap : (c.frames.map MsgFrame.capacity).sum < 2 ^ 31)
    (hp : ∃ p ∈ theQueue.head?, validLength h p < 2 ^ 31 ∧ (c.frames.map MsgFrame.capacity).sum < validLength h p + 24) :
    packFrom h theQueue fuel c = .error .outOfFuel := by
  induction fuel generalizing c with
  | zero => rfl
  | succ fuel ih =>
    have hsum : ((c.frames ++ [MsgFrame.new]).map MsgFrame.capacity).sum = (c.frames.map MsgFrame.capacity).sum := by
      rw [List.map_append, List.sum_append]
      rfl
    simp only [packFrom]
    rw [if_neg (Nat.not_le.2 hcap), queueLoop_restart_iff.2 hp]
    exact ih (by rw [hsum]; exact hcap) (by rw [hsum]; exact hp)

/-- `Packaging` ends just when the first package, with one head, fits into the frames (or a sum is beyond an `int`). -/
theorem packaging_ends_iff (hne : frames ≠ []) : PackagingEnds h m frames theQueue ↔
    ∀ p ∈ theQueue.head?, 2 ^ 31 ≤ (frames.map MsgFrame.capacity).sum ∨ 2 ^ 31 ≤ validLength h p ∨
      validLength h p + 24 ≤ (frames.map MsgFrame.capacity).sum := by
  obtain ⟨first, frames, rfl⟩ := List.exists_cons_of_ne_nil hne
  refine ⟨?_, ?_⟩
  · rintro ⟨fuel, hends⟩ p hp
    by_contra hbad
    refine hends .outOfFuel ?_ rfl
    have hsum : ((first :: frames).map MsgFrame.capacity).sum < 2 ^ 31 := by omega
    have hshort : ((first :: frames).map MsgFrame.capacity).sum < validLength h p + 24 := by omega
    exact packFrom_outOfFuel hsum ⟨p, hp, by omega, hshort⟩
  · intro hfits
    refine ⟨1, fun e hrun => ?_⟩
    change packFrom h theQueue 1 _ = _ at hrun
    simp only [packFrom] at hrun
    split_ifs at hrun with hcap
    · cases hrun
      simp
    · cases hloop : queueLoop h ((first :: frames).map MsgFrame.capacity).sum theQueue 0 0 ⟨m, first :: frames, first.m_buf, 0, 0⟩ with
      | error e' =>
        rw [hloop] at hrun
        cases hrun
        exact fun heq => queueLoop_ne_outOfFuel (heq ▸ hloop)
      | ok o =>
        cases o with
        | restart =>
          obtain ⟨p, hp, hval, hshort⟩ := queueLoop_restart_iff.1 hloop
          have := hfits p hp
          omega
        | done c' count =>
          rw [hloop] at hrun
          cases hrun

/-- A pass that stays inside the frames changes no byte outside. -/
theorem QueueContained.mem {count : Nat} (hc : QueueContained h cap theQueue i totalSend c) (ho : Outside a c.frames)
    (hrun : queueLoop h cap theQueue i totalSend c = .ok (.done c' count)) : c'.mem a = c.mem a := by
  induction theQueue generalizing i totalSend c with
  | nil =>
    cases hrun
    rfl
  | cons p theQueue ih =>
    simp only [queueLoop] at hrun
    split_ifs at hrun with hover hfull hzero
    · cases hrun
    · cases hrun
      rfl
    · cases hrun
      rfl
    · obtain ⟨c₁, hsent, hrun⟩ := bind_eq_ok.1 hrun
      obtain ⟨hin, hrest⟩ := hc (Nat.le_of_not_lt hfull)
      by_cases hg : Given h p
      · obtain ⟨hmem, ho₁⟩ := hin.mem ho (sendPackage_eq hg ▸ hsent)
        split_ifs at hrun with hlast
        · cases hrun
          exact hmem
        · exact (ih (hrest c₁ hsent hlast) ho₁ hrun).trans hmem
      · obtain ⟨e, he⟩ := sendPackage_not_given (c := c) hg
        cases he.symm.trans hsent

theorem packaging_mem {fuel : Nat} {r : Packed} (hc : PackagingContained h m frames theQueue) (ho : Outside a frames)
    (hrun : packaging fuel h m frames theQueue = .ok r) : r.mem a = m a := by
  obtain ⟨first, hfirst, hrun⟩ := bind_eq_ok.1 hrun
  have hqueue := hc first (frameAt_eq_ok.1 hfirst)
  cases fuel with
  | zero => cases hrun
  | succ fuel =>
    have hrest := hrun
    simp only [packFrom] at hrun
    split_ifs at hrun with hcap
    cases hloop : queueLoop h (frames.map MsgFrame.capacity).sum theQueue 0 0 ⟨m, frames, first.m_buf, 0, 0⟩ with
    | error e =>
      rw [hloop] at hrun
      cases hrun
    | ok o =>
      cases o with
      | restart =>
        rw [packFrom_outOfFuel (Nat.not_le.1 hcap) (queueLoop_restart_iff.1 hloop)] at hrest
        cases hrest
      | done c' count =>
        rw [hloop] at hrun
        cases hrun
        exact hqueue.mem ho hloop

/-- A package for two frames. -/
theorem packaging_ends_two : PackagingEnds .identity (fun _ => 0) (sendFrames 1000 2) [zeros 5000] :=
  (packaging_ends_iff (by decide)).2 (by decide +kernel)

/-- A package that is longer than the frames. -/
theorem not_packaging_ends : ¬PackagingEnds .identity (fun _ => 0) (sendFrames 1000 2) [zeros 9000] := by
  rintro ⟨fuel, hends⟩
  have hrun : packFrom .identity [zeros 9000] fuel ⟨fun _ => 0, sendFrames 1000 2, 1000, 0, 0⟩ = .error .outOfFuel :=
    packFrom_outOfFuel (by decide) ⟨zeros 9000, rfl, by decide +kernel, by decide +kernel⟩
  exact hends .outOfFuel hrun rfl

end PackageProxy
