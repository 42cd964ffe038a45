/-
Which worker serves which client (Net/BalanceHandle_Linux.cpp).

`InitIterator` cuts `m_clientInfos` into one range for each worker, the last
one with the remainder. The ranges are iterators into the list, so each
section that changes the list makes them anew, and a worker walks through its
range under the same lock. What a call does under `m_rwLock` is one step here;
`AppendNewClient` makes its session before it.

`served_run`: the ranges are the list, in order, after `InitIterator` and
between the sections of any number of callers; and no worker meets a session
that is gone.
-/
import XFramework.Lib.Fallible
import XFramework.Lib.StdList
import Mathlib

open Fallible

/-- `SocketSession*`: where it points to, and the socket that `Init` gave the session. -/
structure SessionPtr where
  address : Nat
  m_sock : Int
  deriving DecidableEq

structure IterRange where
  itrStart : Iterator
  itrEnd : Iterator
  deriving DecidableEq

namespace BalanceHandle

/-- `m_itrs`, an array with an entry for each worker. -/
abbrev Ranges := Nat → IterRange

/-- `int pos = m_clientInfos.size()/count`, as often as the loop to `pos` runs. -/
def rangeLength (size count : Nat) : Nat := (((size / count : Nat) : Int).bmod (2 ^ 32)).toNat

/-- The second loop of `InitIterator`, for one worker. -/
def setRange (l : StdList SessionPtr) (count : Nat) (st : Iterator × Ranges) (i : Nat) : Except IteratorFault (Iterator × Ranges) := do
  let istart := if i = 0 then l.begin else st.1
  let it ← l.advance (rangeLength l.size count) st.1
  let iend := if count - 1 = i then none else it
  .ok (it, Function.update st.2 i ⟨istart, iend⟩)

/-- `InitIterator`. -/
def initIterator (l : StdList SessionPtr) (m_itrs : Ranges) (count : Nat) : Except IteratorFault Ranges := do
  let m_itrs := (List.range count).foldl (fun r i => Function.update r i ⟨none, none⟩) m_itrs
  let st ← (List.range count).foldlM (setRange l count) (l.begin, m_itrs)
  .ok st.2

/-- The sessions that a walk through the range meets. -/
def sessions (l : StdList SessionPtr) (r : IterRange) : Except IteratorFault (List SessionPtr) :=
  l.walk (l.size + 1) r.itrStart r.itrEnd

end BalanceHandle

/-- What must not happen: an iterator that cannot be moved or read, a session that is gone, or a step that is none. -/
inductive ServeFault
  | iterator (e : IteratorFault)
  | destroyed
  | blocked
  deriving DecidableEq

/-- The handle, with `alive` the sessions that there are, `inHand` those an `AppendNewClient` holds before its
section, and `asleep` the workers that wait for their semaphore. -/
structure BalanceHandle where
  m_clientInfos : StdList SessionPtr
  m_itrs : BalanceHandle.Ranges
  m_sem : Nat → Nat
  alive : List Nat
  inHand : List SessionPtr
  asleep : Nat → Bool

namespace BalanceHandle

/-- A section of a call, or of a worker. -/
inductive Action
  | getNetSocketSession (address : Nat) (sock : Int)
  | appendNewClient (i : Nat)
  | kickClient (sock : Int)
  | removeClient (sock : Int)
  | runImpl (index : Nat)
  | wake (index : Nat)

/-- As it is started. -/
def started : BalanceHandle := ⟨.empty, fun _ => ⟨none, none⟩, fun _ => 0, [], [], fun _ => false⟩

def liftIterator {α : Type} : Except IteratorFault α → Except ServeFault α
  | .ok a => .ok a
  | .error e => .error (.iterator e)

/-- `InitIterator(THREAD_COUNT)` and the posts to the workers that have clients. -/
def refresh (h : BalanceHandle) (threads : Nat) : Except ServeFault BalanceHandle := do
  let m_itrs ← liftIterator (initIterator h.m_clientInfos h.m_itrs threads)
  .ok { h with
    m_itrs := m_itrs
    m_sem := fun i => if i < threads ∧ (m_itrs i).itrStart ≠ (m_itrs i).itrEnd then h.m_sem i + 1 else h.m_sem i }

/-- What `KickClient` and `RemoveClient` do under the lock. -/
def eraseClient (h : BalanceHandle) (threads : Nat) (sock : Int) : Except ServeFault BalanceHandle :=
  let it := h.m_clientInfos.findIf fun s => s.m_sock = sock
  if it = none then .ok h
  else do
    let s ← liftIterator (h.m_clientInfos.deref it)
    if s.address ∈ h.alive then do
      let m_clientInfos ← liftIterator (h.m_clientInfos.erase it)
      refresh { h with m_clientInfos := m_clientInfos, alive := h.alive.erase s.address } threads
    else .error .destroyed

def kickClient (h : BalanceHandle) (threads : Nat) (sock : Int) : Except ServeFault BalanceHandle := h.eraseClient threads sock

def removeClient (h : BalanceHandle) (threads : Nat) (sock : Int) : Except ServeFault BalanceHandle := h.eraseClient threads sock

/-- `DealData`: `ParseData` and `PostSend` of every session in the range. -/
def dealData (h : BalanceHandle) (r : IterRange) : Except ServeFault BalanceHandle := do
  let met ← liftIterator (sessions h.m_clientInfos r)
  if ∀ s ∈ met, s.address ∈ h.alive then .ok h else .error .destroyed

/-- One step; `threads` is `THREAD_COUNT`. -/
def step (threads : Nat) (h : BalanceHandle) : Action → Except ServeFault BalanceHandle
  | .getNetSocketSession address sock =>
    .ok { h with alive := address :: h.alive, inHand := ⟨address, sock⟩ :: h.inHand }
  | .appendNewClient i =>
    match h.inHand[i]? with
    | none => .error .blocked
    | some s => refresh { h with m_clientInfos := h.m_clientInfos.pushBack s, inHand := h.inHand.eraseIdx i } threads
  | .kickClient sock => h.kickClient threads sock
  | .removeClient sock => h.removeClient threads sock
  | .runImpl index =>
    if h.asleep index then .error .blocked
    else if (h.m_itrs index).itrStart = (h.m_itrs index).itrEnd then
      .ok { h with asleep := Function.update h.asleep index true }
    else h.dealData (h.m_itrs index)
  | .wake index =>
    if h.asleep index ∧ 0 < h.m_sem index then
      dealData { h with
        asleep := Function.update h.asleep index false
        m_sem := Function.update h.m_sem index (h.m_sem index - 1) } (h.m_itrs index)
    else .error .blocked

/-- A session is a new object; the callers and the workers are those that there are. -/
def Allowed (threads : Nat) (h : BalanceHandle) : Action → Prop
  | .getNetSocketSession address _ => address ∉ h.alive
  | .appendNewClient i => i < h.inHand.length
  | .kickClient _ => True
  | .removeClient _ => True
  | .runImpl index => index < threads ∧ h.asleep index = false
  | .wake index => index < threads ∧ h.asleep index = true ∧ 0 < h.m_sem index

/-- The ranges, one after the other, are the list. -/
def Partitions (l : StdList SessionPtr) (m_itrs : Ranges) (count : Nat) : Prop :=
  ∃ part : Nat → List SessionPtr, (∀ i < count, sessions l (m_itrs i) = .ok (part i)) ∧
    ((List.range count).map part).flatten = l.toList

/-- Every session is in one range, and there. -/
structure Served (threads : Nat) (h : BalanceHandle) : Prop where
  ranges : Partitions h.m_clientInfos h.m_itrs threads
  once : (h.m_clientInfos.toList.map SessionPtr.address).Nodup
  alive : ∀ s ∈ h.m_clientInfos.toList, s.address ∈ h.alive

variable {l : StdList SessionPtr} {m_itrs : Ranges} {count threads k : Nat} {h : BalanceHandle}

/-! ## InitIterator -/

theorem toNat_bmod_le (n m : Nat) : ((n : Int).bmod m).toNat ≤ n := by
  have hmod := Nat.mod_le n m
  rw [Int.bmod_def, ← Int.natCast_mod]
  split_ifs <;> omega

theorem rangeLength_le (size count : Nat) : rangeLength size count ≤ size / count := toNat_bmod_le _ _

/-- Where the range of worker `i` begins. -/
def cut (size count i : Nat) : Nat := if i < count then i * rangeLength size count else size

theorem mul_rangeLength_le {size i : Nat} (hi : i ≤ count) : i * rangeLength size count ≤ size :=
  calc i * rangeLength size count ≤ count * (size / count) := Nat.mul_le_mul hi (rangeLength_le size count)
    _ ≤ size := Nat.mul_div_le size count

/-- The ranges of the first `k` workers are set, and the iterator is behind them. -/
theorem setRange_loop (l : StdList SessionPtr) (m_itrs : Ranges) (hk : k ≤ count) :
    ∃ m_itrs', (List.range k).foldlM (setRange l count) (l.begin, m_itrs) =
      .ok (l.pos (k * rangeLength l.size count), m_itrs') ∧
    ∀ i < k, m_itrs' i = ⟨l.pos (cut l.size count i), l.pos (cut l.size count (i + 1))⟩ := by
  induction k with
  | zero =>
    refine ⟨m_itrs, ?_, fun i hi => absurd hi (Nat.not_lt_zero i)⟩
    rw [Nat.zero_mul, StdList.pos_zero]
    rfl
  | succ k ih =>
    obtain ⟨r, hr, hset⟩ := ih (by omega)
    have hadv := StdList.advance_pos (l := l) (k := k * rangeLength l.size count) (n := rangeLength l.size count)
      (by rw [← Nat.succ_mul]; exact mul_rangeLength_le hk)
    rw [← Nat.succ_mul] at hadv
    refine ⟨Function.update r k ⟨l.pos (cut l.size count k), l.pos (cut l.size count (k + 1))⟩, ?_, fun i hi => ?_⟩
    · rw [List.range_succ, foldlM_append_ok]
      refine ⟨_, hr, foldlM_cons_ok.2 ⟨_, ?_, rfl⟩⟩
      have hstart : (if k = 0 then l.begin else l.pos (k * rangeLength l.size count)) = l.pos (cut l.size count k) := by
        rw [cut, if_pos (Nat.lt_of_succ_le hk)]
        by_cases hzero : k = 0
        · rw [if_pos hzero, hzero, Nat.zero_mul, StdList.pos_zero]
        · rw [if_neg hzero]
      have hend : (if count - 1 = k then none else l.pos ((k + 1) * rangeLength l.size count)) =
          l.pos (cut l.size count (k + 1)) := by
        rw [cut]
        split_ifs
        · omega
        · rw [StdList.pos_end (Nat.le_refl l.size)]
        · rfl
        · omega
      simp only [setRange, hadv, hstart]
      rw [← hend]
      rfl
    · by_cases hik : i = k
      · rw [hik, Function.update_self]
      · rw [Function.update_of_ne hik]
        exact hset i (by omega)

theorem cut_le {size i : Nat} (hi : i < count) : cut size count i ≤ cut size count (i + 1) := by
  have hle : (i + 1) * rangeLength size count ≤ size := mul_rangeLength_le hi
  rw [Nat.succ_mul] at hle
  rw [cut, cut, if_pos hi, Nat.succ_mul]
  split_ifs <;> omega

theorem cut_le_size (size count i : Nat) : cut size count i ≤ size := by
  rw [cut]
  split_ifs with hi
  · exact mul_rangeLength_le (Nat.le_of_lt hi)
  · exact Nat.le_refl _

/-- The ranges are the list, for any number of workers. -/
theorem initIterator_spec (l : StdList SessionPtr) (m_itrs : Ranges) (hcount : 1 ≤ count) :
    ∃ m_itrs', initIterator l m_itrs count = .ok m_itrs' ∧
    Partitions l m_itrs' count := by
  obtain ⟨r, hr, hset⟩ := setRange_loop l ((List.range count).foldl (fun r i => Function.update r i ⟨none, none⟩) m_itrs)
    (Nat.le_refl count)
  refine ⟨r, ?_, fun i => (l.toList.drop (cut l.size count i)).take (cut l.size count (i + 1) - cut l.size count i), ?_, ?_⟩
  · rw [initIterator, hr]
    rfl
  · intro i hi
    have hle := (cut_le hi : cut l.size count i ≤ cut l.size count (i + 1))
    have hend := cut_le_size l.size count (i + 1)
    have hlen : cut l.size count (i + 1) - cut l.size count i < l.size + 1 := by omega
    have hwalk := StdList.walk_pos (l := l) (k := cut l.size count i) (by omega) hlen
    rw [Nat.add_sub_cancel' hle] at hwalk
    rw [sessions, hset i hi]
    exact hwalk
  · have hzero : cut l.size count 0 = 0 := by
      rw [cut, if_pos (by omega), Nat.zero_mul]
    rw [StdList.flatten_cuts (fun i (hi : i < count) => (cut_le hi : cut l.size count i ≤ cut l.size count (i + 1))) hzero,
      cut, if_neg (Nat.lt_irrefl _),
      ← StdList.length_toList, List.take_length]

/-! ## The sections -/

/-- Every session is in one range, in the hand of a call, or gone. -/
structure Inv (threads : Nat) (h : BalanceHandle) : Prop where
  ranges : Partitions h.m_clientInfos h.m_itrs threads
  once : ((h.inHand ++ h.m_clientInfos.toList).map SessionPtr.address).Nodup
  alive : ∀ s ∈ h.inHand ++ h.m_clientInfos.toList, s.address ∈ h.alive

theorem Inv.served (hi : Inv threads h) : Served threads h where
  ranges := hi.ranges
  once := hi.once.sublist ((List.sublist_append_right _ _).map _)
  alive s hs := hi.alive s (List.mem_append_right _ hs)

theorem Inv.started : Inv threads started where
  ranges := by
    refine ⟨fun _ => [], fun _ _ => rfl, List.flatten_eq_nil_iff.2 fun part hpart => ?_⟩
    obtain ⟨-, -, rfl⟩ := List.mem_map.1 hpart
    rfl
  once := List.nodup_nil
  alive s hs := by cases hs

theorem Partitions.range {i : Nat} (hp : Partitions l m_itrs count) (hi : i < count) :
    ∃ part, sessions l (m_itrs i) = .ok part ∧ ∀ s ∈ part, s ∈ l.toList := by
  obtain ⟨part, hwalk, hflat⟩ := hp
  refine ⟨part i, hwalk i hi, fun s hs => ?_⟩
  rw [← hflat]
  exact List.mem_flatten.2 ⟨part i, List.mem_map_of_mem (List.mem_range.2 hi), hs⟩

/-- No worker meets a session that is gone. -/
theorem Inv.dealData {i : Nat} (hi : Inv threads h) (hlt : i < threads) : h.dealData (h.m_itrs i) = .ok h := by
  obtain ⟨part, hwalk, hmem⟩ := hi.ranges.range hlt
  rw [BalanceHandle.dealData, hwalk]
  exact if_pos fun s hs => hi.alive s (List.mem_append_right _ (hmem s hs))

/-- After a change of the list the ranges are made anew. -/
theorem Inv.refresh (hthreads : 1 ≤ threads) (honce : ((h.inHand ++ h.m_clientInfos.toList).map SessionPtr.address).Nodup)
    (halive : ∀ s ∈ h.inHand ++ h.m_clientInfos.toList, s.address ∈ h.alive) :
    ∃ h', h.refresh threads = .ok h' ∧ Inv threads h' := by
  obtain ⟨r, hr, hp⟩ := initIterator_spec h.m_clientInfos h.m_itrs hthreads
  let posted : Nat → Nat := fun i => if i < threads ∧ (r i).itrStart ≠ (r i).itrEnd then h.m_sem i + 1 else h.m_sem i
  refine ⟨{ h with m_itrs := r, m_sem := posted }, ?_, hp, honce, halive⟩
  rw [BalanceHandle.refresh, hr]
  rfl

theorem Inv.eraseClient {sock : Int} (hthreads : 1 ≤ threads) (hi : Inv threads h) :
    ∃ h', h.eraseClient threads sock = .ok h' ∧ Inv threads h' := by
  rw [BalanceHandle.eraseClient]
  cases hfind : h.m_clientInfos.toList.find? fun s => s.m_sock = sock with
  | none =>
    have hnone := StdList.findIf_none (List.find?_eq_none.1 hfind)
    rw [if_pos hnone]
    exact ⟨h, rfl, hi⟩
  | some s =>
    obtain ⟨l', hne, hderef, herase, hrest⟩ := StdList.erase_findIf hfind
    have hperm : (s :: (h.inHand ++ l'.toList)).Perm (h.inHand ++ h.m_clientInfos.toList) := by
      rw [hrest]
      exact List.perm_middle.symm.trans ((StdList.cons_eraseP_perm hfind).append_left _)
    have honce := (hperm.map SessionPtr.address).nodup_iff.2 hi.once
    obtain ⟨hs, honce⟩ := List.nodup_cons.1 honce
    have halive : ∀ x ∈ h.inHand ++ l'.toList, x.address ∈ h.alive.erase s.address := by
      intro x hx
      have hne : x.address ≠ s.address := fun heq => hs (heq ▸ List.mem_map_of_mem hx)
      exact (List.mem_erase_of_ne hne).2 (hi.alive x (hperm.subset (List.mem_cons_of_mem _ hx)))
    obtain ⟨h', hrun, hi'⟩ := Inv.refresh (h := { h with m_clientInfos := l', alive := h.alive.erase s.address })
      hthreads honce halive
    refine ⟨h', ?_, hi'⟩
    rw [if_neg hne, hderef, herase]
    change (if s.address ∈ h.alive then _ else _) = _
    rw [if_pos (hi.alive s (hperm.subset List.mem_cons_self))]
    exact hrun

theorem Inv.step {x : Action} (hthreads : 1 ≤ threads) (hi : Inv threads h) (hx : Allowed threads h x) :
    ∃ h', h.step threads x = .ok h' ∧ Inv threads h' := by
  cases x with
  | getNetSocketSession address sock =>
    refine ⟨_, rfl, hi.ranges, ?_, ?_⟩
    · refine List.nodup_cons.2 ⟨fun hmem => ?_, hi.once⟩
      obtain ⟨s, hs, heq⟩ := List.mem_map.1 hmem
      have heq : s.address = address := heq
      exact hx (heq ▸ hi.alive s hs)
    · intro s hs
      rcases List.mem_cons.1 hs with rfl | hs
      · exact List.mem_cons_self
      · exact List.mem_cons_of_mem _ (hi.alive s hs)
  | appendNewClient i =>
    have hi' : i < h.inHand.length := hx
    have hperm : (h.inHand.eraseIdx i ++ (h.m_clientInfos.pushBack h.inHand[i]).toList).Perm
        (h.inHand ++ h.m_clientInfos.toList) := by
      rw [StdList.toList_pushBack, ← List.append_assoc]
      exact (List.perm_append_singleton _ _).trans ((List.getElem_cons_eraseIdx_perm hi').append_right _)
    rw [BalanceHandle.step, List.getElem?_eq_getElem hi']
    exact Inv.refresh hthreads ((hperm.map _).nodup_iff.2 hi.once) fun s hs => hi.alive s (hperm.subset hs)
  | kickClient sock => exact hi.eraseClient hthreads
  | removeClient sock => exact hi.eraseClient hthreads
  | runImpl index =>
    obtain ⟨hlt, hawake⟩ := hx
    rw [BalanceHandle.step, if_neg (by simp [hawake])]
    split_ifs
    · exact ⟨_, rfl, hi.ranges, hi.once, hi.alive⟩
    · exact ⟨h, hi.dealData hlt, hi⟩
  | wake index =>
    obtain ⟨hlt, hasleep, hsem⟩ := hx
    have hi' : Inv threads { h with
      asleep := Function.update h.asleep index false
      m_sem := Function.update h.m_sem index (h.m_sem index - 1) } := ⟨hi.ranges, hi.once, hi.alive⟩
    rw [BalanceHandle.step, if_pos ⟨hasleep, hsem⟩]
    exact ⟨_, hi'.dealData hlt, hi'⟩

/-- The ranges are the list after `InitIterator`, and in every state between the sections of a handle that is started;
and all that the sections and the workers do is defined. -/
theorem served_run : (∀ count ≥ 1, ∀ (l : StdList SessionPtr) (m_itrs : Ranges), ∃ m_itrs',
      initIterator l m_itrs count = .ok m_itrs' ∧ Partitions l m_itrs' count) ∧
    ∀ threads ≥ 1, ∀ actions, Along (step threads) (Allowed threads) started actions →
      ∃ h, actions.foldlM (step threads) started = .ok h ∧ Served threads h := by
  refine ⟨fun count hcount l m_itrs => initIterator_spec l m_itrs hcount, fun threads hthreads actions hok => ?_⟩
  obtain ⟨h, hrun, hi⟩ := hok.run (Inv threads) .started fun h x hi hx => hi.step hthreads hx
  exact ⟨h, hrun, hi.served⟩

instance (h : BalanceHandle) (x : Action) : Decidable (Allowed threads h x) :=
  match x with
  | .getNetSocketSession _ _ => inferInstanceAs (Decidable (_ ∉ _))
  | .appendNewClient _ => inferInstanceAs (Decidable (_ < _))
  | .kickClient _ => isTrue trivial
  | .removeClient _ => isTrue trivial
  | .runImpl _ => inferInstanceAs (Decidable (_ ∧ _))
  | .wake _ => inferInstanceAs (Decidable (_ ∧ _))

/-- Three clients and two workers; the second client is kicked, and its session's memory is used again. -/
theorem served_run_three : ∃ h, [Action.getNetSocketSession 100 5, .runImpl 1, .appendNewClient 0, .getNetSocketSession 200 6,
      .getNetSocketSession 300 7, .appendNewClient 1, .wake 1, .appendNewClient 0, .runImpl 0, .kickClient 6,
      .getNetSocketSession 200 6, .appendNewClient 0, .runImpl 1].foldlM (step 2) started = .ok h ∧ Served 2 h :=
  served_run.2 2 (by decide) _ (by decide +kernel)

end BalanceHandle
