/-
A linked list with iterators.

Every element has a node of its own, which stays when others come and go. An
iterator is a node or the end; one whose node is gone is stale. As long as the
list does not change the iterators are the places `pos 0`, .., `pos size`, in
their order (`advance_pos`, `walk_pos`).
-/
import Mathlib.Data.List.InsertIdx
import Mathlib.Data.List.Nodup

/-- The element and where it lies. -/
structure ListNode (α : Type) where
  id : Nat
  val : α
  deriving DecidableEq

/-- `fresh` is beyond all nodes there have been. -/
structure StdList (α : Type) where
  nodes : List (ListNode α)
  fresh : Nat
  below : ∀ x ∈ nodes, x.id < fresh
  nodup : (nodes.map ListNode.id).Nodup

/-- A node; `none` is the end. -/
abbrev Iterator := Option Nat

/-- What an iterator cannot do: go beyond the end, or leave a node that is gone. `outOfFuel` is a loop that has not ended. -/
inductive IteratorFault
  | pastEnd
  | stale
  | outOfFuel
  deriving DecidableEq

namespace StdList

variable {α : Type} {l : StdList α} {k n fuel : Nat} {p : α → Bool}

def empty : StdList α := ⟨[], 0, by simp, List.nodup_nil⟩

def toList (l : StdList α) : List α := l.nodes.map ListNode.val

def size (l : StdList α) : Nat := l.nodes.length

def begin (l : StdList α) : Iterator := l.nodes.head?.map ListNode.id

/-- The nodes from the one of the iterator on. -/
def tailAt (l : StdList α) (id : Nat) : List (ListNode α) := l.nodes.dropWhile fun x => x.id ≠ id

/-- `it++`. -/
def next (l : StdList α) : Iterator → Except IteratorFault Iterator
  | none => .error .pastEnd
  | some id =>
    match l.tailAt id with
    | [] => .error .stale
    | _ :: rest => .ok (rest.head?.map ListNode.id)

/-- `*it`. -/
def deref (l : StdList α) : Iterator → Except IteratorFault α
  | none => .error .pastEnd
  | some id =>
    match l.tailAt id with
    | [] => .error .stale
    | x :: _ => .ok x.val

/-- `it++`, a number of times. -/
def advance (l : StdList α) : Nat → Iterator → Except IteratorFault Iterator
  | 0, it => .ok it
  | n + 1, it => do
    let it ← l.next it
    l.advance n it

/-- The elements that a loop from `it` up to `last` meets. -/
def walk (l : StdList α) : Nat → Iterator → Iterator → Except IteratorFault (List α)
  | 0, _, _ => .error .outOfFuel
  | fuel + 1, it, last =>
    if it = last then .ok []
    else do
      let a ← l.deref it
      let it ← l.next it
      let rest ← l.walk fuel it last
      .ok (a :: rest)

def findIf (l : StdList α) (p : α → Bool) : Iterator := (l.nodes.find? fun x => p x.val).map ListNode.id

def pushBack (l : StdList α) (a : α) : StdList α where
  nodes := l.nodes ++ [⟨l.fresh, a⟩]
  fresh := l.fresh + 1
  below x hx := by
    rcases List.mem_append.1 hx with hx | hx
    · exact Nat.lt_succ_of_lt (l.below x hx)
    · rw [List.mem_singleton.1 hx]
      exact Nat.lt_succ_self _
  nodup := by
    rw [List.map_append, List.nodup_append]
    refine ⟨l.nodup, List.nodup_singleton _, fun i hi j hj => ?_⟩
    obtain ⟨x, hx, rfl⟩ := List.mem_map.1 hi
    rw [List.mem_singleton.1 hj]
    exact Nat.ne_of_lt (l.below x hx)

/-- The list without that node. -/
def without (l : StdList α) (id : Nat) : StdList α where
  nodes := l.nodes.eraseP fun x => x.id = id
  fresh := l.fresh
  below x hx := l.below x (List.mem_of_mem_eraseP hx)
  nodup := l.nodup.sublist (List.eraseP_sublist.map _)

/-- `erase(it)`. -/
def erase (l : StdList α) : Iterator → Except IteratorFault (StdList α)
  | none => .error .pastEnd
  | some id =>
    match l.tailAt id with
    | [] => .error .stale
    | _ :: _ => .ok (l.without id)

/-! ## Places -/

/-- The iterator `k` steps from the beginning. -/
def pos (l : StdList α) (k : Nat) : Iterator := l.nodes[k]?.map ListNode.id

theorem pos_zero : l.pos 0 = l.begin := by
  rw [pos, begin, List.head?_eq_getElem?]

theorem pos_end (h : l.size ≤ k) : l.pos k = none := by
  rw [pos, List.getElem?_eq_none h]
  rfl

theorem length_toList : l.toList.length = l.size := List.length_map _

/-- From the node at place `k` on there are the nodes from `k` on. -/
theorem tailAt_getElem (h : k < l.nodes.length) : l.tailAt l.nodes[k].id = l.nodes.drop k := by
  have hids := l.nodup
  rw [tailAt]
  generalize l.nodes = xs at h hids ⊢
  induction xs generalizing k with
  | nil => exact absurd h (Nat.not_lt_zero _)
  | cons x xs ih =>
    obtain ⟨hx, hxs⟩ := List.nodup_cons.1 hids
    cases k with
    | zero => simp
    | succ k =>
      have hk : k < xs.length := Nat.lt_of_succ_lt_succ h
      have hne : x.id ≠ xs[k].id := fun heq => hx (heq ▸ List.mem_map_of_mem (List.getElem_mem hk))
      rw [List.getElem_cons_succ, List.dropWhile_cons_of_pos (by simpa using hne), List.drop_succ_cons]
      exact ih hk hxs

theorem pos_of_lt (h : k < l.nodes.length) : l.pos k = some l.nodes[k].id := by
  rw [pos, List.getElem?_eq_getElem h]
  rfl

theorem next_pos (h : k < l.size) : l.next (l.pos k) = .ok (l.pos (k + 1)) := by
  rw [pos_of_lt h, next, tailAt_getElem h, List.drop_eq_getElem_cons h]
  simp only [pos, List.head?_drop]

theorem deref_pos (hk : k < l.toList.length) : l.deref (l.pos k) = .ok l.toList[k] := by
  have h : k < l.size := length_toList ▸ hk
  rw [pos_of_lt h, deref, tailAt_getElem h, List.drop_eq_getElem_cons h]
  simp only [toList, List.getElem_map]
  rfl

theorem advance_pos (h : k + n ≤ l.size) : l.advance n (l.pos k) = .ok (l.pos (k + n)) := by
  induction n generalizing k with
  | zero => rfl
  | succ n ih =>
    rw [advance, next_pos (by omega)]
    change l.advance n (l.pos (k + 1)) = _
    rw [ih (by omega), Nat.add_right_comm, Nat.add_assoc]

theorem pos_inj {j : Nat} (hk : k ≤ l.size) (hj : j ≤ l.size) (h : l.pos k = l.pos j) : k = j := by
  rcases Nat.lt_or_ge k l.size with hk' | hk'
  · rcases Nat.lt_or_ge j l.size with hj' | hj'
    · rw [pos_of_lt hk', pos_of_lt hj'] at h
      have hk'' : k < (l.nodes.map ListNode.id).length := by rwa [List.length_map]
      have hj'' : j < (l.nodes.map ListNode.id).length := by rwa [List.length_map]
      have hids : (l.nodes.map ListNode.id)[k] = (l.nodes.map ListNode.id)[j] := by
        rw [List.getElem_map, List.getElem_map]
        exact Option.some.inj h
      exact (List.Nodup.getElem_inj_iff l.nodup).1 hids
    · rw [pos_of_lt hk', pos_end hj'] at h
      cases h
  · rcases Nat.lt_or_ge j l.size with hj' | hj'
    · rw [pos_of_lt hj', pos_end hk'] at h
      cases h
    · omega

/-- A loop over a range meets its elements. -/
theorem walk_pos (hn : k + n ≤ l.size) (hf : n < fuel) :
    l.walk fuel (l.pos k) (l.pos (k + n)) = .ok ((l.toList.drop k).take n) := by
  induction n generalizing k fuel with
  | zero =>
    obtain ⟨fuel, rfl⟩ := Nat.exists_eq_succ_of_ne_zero (Nat.ne_of_gt hf)
    rw [walk, Nat.add_zero, if_pos rfl, List.take_zero]
  | succ n ih =>
    obtain ⟨fuel, rfl⟩ := Nat.exists_eq_succ_of_ne_zero (Nat.ne_of_gt (Nat.lt_of_le_of_lt (Nat.zero_le _) hf))
    have hk : k < l.size := by omega
    have hne : l.pos k ≠ l.pos (k + (n + 1)) := fun heq => by
      have := pos_inj (by omega) hn heq
      omega
    rw [walk, if_neg hne, deref_pos (length_toList.symm ▸ hk), next_pos hk, show k + (n + 1) = k + 1 + n by omega]
    change (l.walk fuel (l.pos (k + 1)) (l.pos (k + 1 + n)) >>= fun rest => _) = _
    rw [ih (by omega) (by omega), List.drop_eq_getElem_cons (i := k) (by rwa [length_toList]), List.take_succ_cons]
    rfl

/-- Ranges that begin where the one before ends make up the whole. -/
theorem flatten_cuts {xs : List α} {cut : Nat → Nat} (hcut : ∀ i < n, cut i ≤ cut (i + 1)) (hzero : cut 0 = 0) :
    ((List.range n).map fun i => (xs.drop (cut i)).take (cut (i + 1) - cut i)).flatten = xs.take (cut n) := by
  induction n with
  | zero => rw [hzero, List.take_zero, List.range_zero, List.map_nil, List.flatten_nil]
  | succ n ih =>
    have hn := hcut n (Nat.lt_succ_self n)
    rw [List.range_succ, List.map_append, List.flatten_append, ih fun i hi => hcut i (Nat.lt_succ_of_lt hi),
      List.map_singleton, List.flatten_singleton, ← List.take_add, Nat.add_sub_cancel' hn]

/-! ## Elements that come and go -/

theorem eraseP_id {xs : List (ListNode α)} (h : k < xs.length) (hids : (xs.map ListNode.id).Nodup) :
    xs.eraseP (fun x => x.id = xs[k].id) = xs.eraseIdx k := by
  induction xs generalizing k with
  | nil => exact absurd h (Nat.not_lt_zero _)
  | cons x xs ih =>
    obtain ⟨hx, hxs⟩ := List.nodup_cons.1 hids
    cases k with
    | zero => simp
    | succ k =>
      have hk : k < xs.length := Nat.lt_of_succ_lt_succ h
      have hne : x.id ≠ xs[k].id := fun heq => hx (heq ▸ List.mem_map_of_mem (List.getElem_mem hk))
      rw [List.eraseIdx_cons_succ, ← ih hk hxs]
      exact List.eraseP_cons_of_neg (by simpa using hne)

/-- `erase` at a place takes out the element there. -/
theorem erase_pos (h : k < l.size) : ∃ l', l.erase (l.pos k) = .ok l' ∧ l'.toList = l.toList.eraseIdx k := by
  refine ⟨l.without l.nodes[k].id, ?_, ?_⟩
  · rw [pos_of_lt h, erase, tailAt_getElem h, List.drop_eq_getElem_cons h]
  · exact (congrArg (List.map ListNode.val) (eraseP_id h l.nodup)).trans (List.eraseIdx_map ..).symm

theorem toList_pushBack (a : α) : (l.pushBack a).toList = l.toList ++ [a] := by
  rw [toList, pushBack, List.map_append]
  rfl

/-- What is found is the first element that is looked for, and `erase` takes it out. -/
theorem erase_findIf {a : α} (h : l.toList.find? p = some a) : ∃ l', l.findIf p ≠ none ∧ l.deref (l.findIf p) = .ok a ∧
    l.erase (l.findIf p) = .ok l' ∧ l'.toList = l.toList.eraseP p := by
  have hids := l.nodup
  rw [toList, List.find?_map, Option.map_eq_some_iff] at h
  obtain ⟨x, hx, rfl⟩ := h
  have hid : l.findIf p = some x.id := congrArg (Option.map ListNode.id) hx
  obtain ⟨hp, as, bs, hsplit, hbefore⟩ := List.find?_eq_some_iff_append.1 hx
  have hne : ∀ y ∈ as, y.id ≠ x.id := by
    rw [hsplit, List.map_append, List.nodup_append] at hids
    exact fun y hy => hids.2.2 _ (List.mem_map_of_mem hy) _ List.mem_cons_self
  have htail : l.tailAt x.id = x :: bs := by
    rw [tailAt, hsplit, List.dropWhile_append_of_pos fun y hy => by simpa using hne y hy]
    exact List.dropWhile_cons_of_neg (by simp)
  refine ⟨l.without x.id, hid ▸ Option.some_ne_none _, ?_, ?_, ?_⟩
  · rw [hid, deref, htail]
  · rw [hid, erase, htail]
  · change (l.nodes.eraseP fun y => y.id = x.id).map ListNode.val = (l.nodes.map ListNode.val).eraseP p
    rw [hsplit, List.eraseP_append_right _ (by simpa using hne), List.eraseP_cons_of_pos (by simp),
      List.map_append, List.map_append, List.eraseP_append_right, List.map_cons, List.eraseP_cons_of_pos (show p x.val from hp)]
    intro b hb
    obtain ⟨y, hy, rfl⟩ := List.mem_map.1 hb
    simpa using hbefore y hy

/-- The rest is what there was without the element that was found. -/
theorem cons_eraseP_perm {xs : List α} {a : α} (h : xs.find? p = some a) : (a :: xs.eraseP p).Perm xs := by
  obtain ⟨hp, as, bs, rfl, hbefore⟩ := List.find?_eq_some_iff_append.1 h
  rw [List.eraseP_append_right _ fun b hb => by simpa using hbefore b hb, List.eraseP_cons_of_pos hp]
  exact List.perm_middle.symm

theorem findIf_none (h : ∀ a ∈ l.toList, ¬p a) : l.findIf p = none := by
  rw [findIf, List.find?_eq_none.2 fun x hx => h x.val (List.mem_map_of_mem hx)]
  rfl

end StdList
