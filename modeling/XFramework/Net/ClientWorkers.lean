/-
No client waits for a worker that sleeps (Net/BalanceHandle_Linux.cpp).

A worker waits for its semaphore when it found its range empty, and then holds
no lock; the range can be filled before it waits or while it does. Each
section that makes the ranges anew posts to all workers whose range is not
empty, so a worker with clients has a post to take (`Woken`).
-/
import XFramework.Net.ClientRanges

open Fallible

namespace BalanceHandle

variable {threads i : Nat} {h h' : BalanceHandle} {s : SessionPtr}

/-- A worker that sleeps although its range is not empty has a post to take. -/
def Woken (threads : Nat) (h : BalanceHandle) : Prop :=
  ∀ i < threads, h.asleep i = true → (h.m_itrs i).itrStart ≠ (h.m_itrs i).itrEnd → 0 < h.m_sem i

theorem Woken.started : Woken threads started := fun _ _ hasleep => by cases hasleep

/-- The sections that make the ranges anew post to every worker that has clients. -/
theorem Woken.refresh (hr : h.refresh threads = .ok h') : Woken threads h' := by
  rw [BalanceHandle.refresh] at hr
  obtain ⟨m_itrs, -, hr⟩ := bind_eq_ok.1 hr
  cases hr
  intro i hlt _ hne
  have hposted : 0 < if i < threads ∧ (m_itrs i).itrStart ≠ (m_itrs i).itrEnd then h.m_sem i + 1 else h.m_sem i := by
    rw [if_pos ⟨hlt, hne⟩]
    exact Nat.succ_pos _
  exact hposted

theorem Woken.eraseClient {sock : Int} (hw : Woken threads h) (hr : h.eraseClient threads sock = .ok h') : Woken threads h' := by
  rw [BalanceHandle.eraseClient] at hr
  split_ifs at hr with hfind
  · cases hr
    exact hw
  · obtain ⟨s, -, hr⟩ := bind_eq_ok.1 hr
    split_ifs at hr
    obtain ⟨m_clientInfos, -, hr⟩ := bind_eq_ok.1 hr
    exact Woken.refresh hr

theorem dealData_ok {r : IterRange} (hr : h.dealData r = .ok h') : h' = h := by
  rw [dealData] at hr
  obtain ⟨met, -, hr⟩ := bind_eq_ok.1 hr
  split_ifs at hr
  cases hr
  rfl

theorem Woken.step {x : Action} (hw : Woken threads h) (hr : h.step threads x = .ok h') : Woken threads h' := by
  cases x with
  | getNetSocketSession address sock =>
    cases hr
    exact hw
  | appendNewClient i =>
    rw [BalanceHandle.step] at hr
    split at hr
    · cases hr
    · exact Woken.refresh hr
  | kickClient sock => exact hw.eraseClient hr
  | removeClient sock => exact hw.eraseClient hr
  | runImpl index =>
    rw [BalanceHandle.step] at hr
    split_ifs at hr with hasleep hempty
    · -- the range was empty, and the worker is about to wait
      cases hr
      intro i hlt hi hne
      by_cases heq : i = index
      · exact absurd (heq ▸ hempty) hne
      · have hi : Function.update h.asleep index true i = true := hi
        exact hw i hlt (by rwa [Function.update_of_ne heq] at hi) hne
    · exact dealData_ok hr ▸ hw
  | wake index =>
    rw [BalanceHandle.step] at hr
    split_ifs at hr
    cases dealData_ok hr
    intro i hlt hi hne
    dsimp only at hi hne ⊢
    by_cases heq : i = index
    · rw [heq, Function.update_self] at hi
      cases hi
    · rw [Function.update_of_ne heq] at hi ⊢
      exact hw i hlt hi hne

/-- The worker `i` meets the session on its walk. -/
def Meets (h : BalanceHandle) (i : Nat) (s : SessionPtr) : Prop :=
  ∃ met, sessions h.m_clientInfos (h.m_itrs i) = .ok met ∧ s ∈ met

theorem not_meets (hempty : (h.m_itrs i).itrStart = (h.m_itrs i).itrEnd) : ¬h.Meets i s := by
  rw [Meets, sessions, StdList.walk, if_pos hempty]
  intro hmet
  obtain ⟨met, hnil, hs⟩ := hmet
  cases hnil
  cases hs

/-- Every session is met by one worker. -/
theorem Inv.exists_unique (hi : Inv threads h) (hs : s ∈ h.m_clientInfos.toList) : ∃! i, i < threads ∧ h.Meets i s := by
  obtain ⟨part, hwalk, hflat⟩ := hi.ranges
  have hmeets : ∀ i < threads, h.Meets i s ↔ s ∈ part i := fun i hlt => by
    rw [Meets, hwalk i hlt]
    exact ⟨fun hmet => by obtain ⟨met, heq, hs⟩ := hmet; cases heq; exact hs, fun hs => ⟨_, rfl, hs⟩⟩
  have hnodup : (((List.range threads).map part).flatten).Nodup := by
    rw [hflat]
    exact hi.served.once.of_map _
  obtain ⟨-, hdisjoint⟩ := List.nodup_flatten.1 hnodup
  obtain ⟨l, hl, hsl⟩ := List.mem_flatten.1 (hflat ▸ hs)
  obtain ⟨i, hlt, rfl⟩ := List.mem_map.1 hl
  have hlt : i < threads := List.mem_range.1 hlt
  refine ⟨i, ⟨hlt, (hmeets i hlt).2 hsl⟩, fun j hj => ?_⟩
  have hsj := (hmeets j hj.1).1 hj.2
  by_contra hne
  have hapart : ∀ a b, a < b → b < threads → List.Disjoint (part a) (part b) := fun a b hab hb => by
    have hpair := List.pairwise_iff_getElem.1 hdisjoint a b (by simpa using hab.trans hb) (by simpa using hb) hab
    simpa using hpair
  rcases Nat.lt_or_gt_of_ne hne with hless | hmore
  · exact hapart j i hless hlt hsj hsl
  · exact hapart i j hmore hj.1 hsl hsj

end BalanceHandle
