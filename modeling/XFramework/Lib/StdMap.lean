/-
`std::map`: entries kept in the order of their keys, one for each key.

An iteration visits `entries` in this order. `insert` does nothing when the
key is taken, as the C++ member does; `set` is an assignment through an
iterator or `operator[]`. A map is determined by which pairs it holds
(`ext_mem`), so most facts about the operations are stated as membership.
-/
import Mathlib.Data.List.Perm.Basic
import Mathlib.Data.List.Sort
import Mathlib.Order.Basic

/-- Entries in the order of their keys, one for each key. -/
structure StdMap (κ ν : Type) [LinearOrder κ] where
  entries : List (κ × ν)
  sorted : entries.Pairwise fun a b => a.1 < b.1

namespace StdMap

variable {κ ν : Type} [LinearOrder κ]

/-- Where `insert` puts a pair: before the first larger key, nowhere when the key is taken. -/
def insertEntry (k : κ) (v : ν) : List (κ × ν) → List (κ × ν)
  | [] => [(k, v)]
  | (a, b) :: rest =>
    if k < a then (k, v) :: (a, b) :: rest
    else if a < k then (a, b) :: insertEntry k v rest
    else (a, b) :: rest

theorem mem_insertEntry {k : κ} {v : ν} {x : κ × ν} {l : List (κ × ν)}
    (hs : l.Pairwise fun a b => a.1 < b.1) :
    x ∈ insertEntry k v l ↔ x ∈ l ∨ (x = (k, v) ∧ ∀ y ∈ l, y.1 ≠ k) := by
  induction l with
  | nil => simp [insertEntry]
  | cons p rest ih =>
    obtain ⟨a, b⟩ := p
    rw [List.pairwise_cons] at hs
    obtain ⟨hlt, hs⟩ := hs
    rw [insertEntry]
    split
    · rename_i hka
      have hne : ∀ y ∈ (a, b) :: rest, y.1 ≠ k := by
        intro y hy
        rcases List.mem_cons.1 hy with rfl | hy
        · exact ne_of_gt hka
        · exact ne_of_gt (hka.trans (hlt y hy))
      rw [List.mem_cons]
      exact ⟨fun h => h.elim (fun h => .inr ⟨h, hne⟩) .inl, fun h => h.elim .inr fun h => .inl h.1⟩
    · split
      · rename_i hak
        rw [List.mem_cons, ih hs, List.mem_cons, or_assoc]
        have hne : a ≠ k := ne_of_lt hak
        simp [hne]
      · rename_i h₁ h₂
        have hak : a = k := le_antisymm (not_lt.1 h₁) (not_lt.1 h₂)
        simp [hak]

theorem pairwise_insertEntry {k : κ} {v : ν} {l : List (κ × ν)} (hs : l.Pairwise fun a b => a.1 < b.1) :
    (insertEntry k v l).Pairwise fun a b => a.1 < b.1 := by
  induction l with
  | nil => simp [insertEntry]
  | cons p rest ih =>
    obtain ⟨a, b⟩ := p
    have hs' := hs
    rw [List.pairwise_cons] at hs
    obtain ⟨hlt, hr⟩ := hs
    rw [insertEntry]
    split
    · rename_i hka
      refine List.pairwise_cons.2 ⟨fun y hy => ?_, hs'⟩
      rcases List.mem_cons.1 hy with rfl | hy
      · exact hka
      · exact hka.trans (hlt y hy)
    · split
      · rename_i hak
        refine List.pairwise_cons.2 ⟨fun y hy => ?_, ih hr⟩
        rcases (mem_insertEntry hr).1 hy with hy | ⟨rfl, _⟩
        · exact hlt y hy
        · exact hak
      · exact hs'

/-! ## The operations -/

def empty : StdMap κ ν := ⟨[], .nil⟩

def insert (m : StdMap κ ν) (k : κ) (v : ν) : StdMap κ ν :=
  ⟨insertEntry k v m.entries, pairwise_insertEntry m.sorted⟩

def erase (m : StdMap κ ν) (k : κ) : StdMap κ ν :=
  ⟨m.entries.filter fun e => e.1 ≠ k, m.sorted.filter _⟩

/-- An assignment through an iterator: nothing when the key is not there. -/
def set (m : StdMap κ ν) (k : κ) (v : ν) : StdMap κ ν :=
  ⟨m.entries.map fun e => if e.1 = k then (k, v) else e, by
    refine List.pairwise_map.2 (m.sorted.imp fun h => ?_)
    split_ifs with h₁ h₂ h₂ <;> simp_all⟩

/-- An assignment to every value, through an iterator that visits all. -/
def setAll (m : StdMap κ ν) (v : ν) : StdMap κ ν :=
  ⟨m.entries.map fun e => (e.1, v), List.pairwise_map.2 m.sorted⟩

def find? (m : StdMap κ ν) (k : κ) : Option ν := (m.entries.find? fun e => e.1 = k).map (·.2)

def size (m : StdMap κ ν) : Nat := m.entries.length

instance : Membership (κ × ν) (StdMap κ ν) := ⟨fun m x => x ∈ m.entries⟩

instance [DecidableEq ν] : DecidableEq (StdMap κ ν) := fun a b =>
  decidable_of_iff (a.entries = b.entries) (by cases a; cases b; simp)

/-! ## Membership -/

theorem mem_entries {m : StdMap κ ν} {x : κ × ν} : x ∈ m.entries ↔ x ∈ m := Iff.rfl

@[simp] theorem entries_empty : (empty : StdMap κ ν).entries = [] := rfl

@[simp] theorem not_mem_empty {x : κ × ν} : ¬ x ∈ (empty : StdMap κ ν) := by simp [← mem_entries]

theorem mem_insert {m : StdMap κ ν} {k : κ} {v : ν} {x : κ × ν} :
    x ∈ m.insert k v ↔ x ∈ m ∨ (x = (k, v) ∧ ∀ y ∈ m, y.1 ≠ k) := mem_insertEntry m.sorted

theorem mem_insert_new {m : StdMap κ ν} {k : κ} {v : ν} {x : κ × ν} (h : ∀ y ∈ m, y.1 ≠ k) :
    x ∈ m.insert k v ↔ x ∈ m ∨ x = (k, v) := by rw [mem_insert, and_iff_left h]

theorem mem_erase {m : StdMap κ ν} {k : κ} {x : κ × ν} : x ∈ m.erase k ↔ x ∈ m ∧ x.1 ≠ k := by
  simp [← mem_entries, erase]

theorem mem_set {m : StdMap κ ν} {k : κ} {v : ν} {x : κ × ν} :
    x ∈ m.set k v ↔ (x ∈ m ∧ x.1 ≠ k) ∨ (x = (k, v) ∧ ∃ w, (k, w) ∈ m) := by
  rw [← mem_entries, set, List.mem_map]
  refine ⟨?_, ?_⟩
  · intro ⟨y, hy, hx⟩
    by_cases hk : y.1 = k
    · rw [if_pos hk] at hx
      exact .inr ⟨hx.symm, y.2, hk ▸ hy⟩
    · rw [if_neg hk] at hx
      exact .inl ⟨hx ▸ hy, hx ▸ hk⟩
  · intro h
    cases h with
    | inl h => exact ⟨x, h.1, if_neg h.2⟩
    | inr h =>
      obtain ⟨hx, w, hw⟩ := h
      exact ⟨(k, w), hw, (if_pos rfl).trans hx.symm⟩

theorem nodup_keys (m : StdMap κ ν) : (m.entries.map (·.1)).Nodup :=
  List.pairwise_map.2 (m.sorted.imp fun h => ne_of_lt h)

theorem nodup_entries (m : StdMap κ ν) : m.entries.Nodup := .of_map _ m.nodup_keys

/-- One value for each key. -/
theorem mem_unique {m : StdMap κ ν} {k : κ} {v w : ν} (hv : (k, v) ∈ m) (hw : (k, w) ∈ m) : v = w :=
  congrArg Prod.snd (List.inj_on_of_nodup_map m.nodup_keys hv hw rfl)

theorem find?_eq_some {m : StdMap κ ν} {k : κ} {v : ν} : m.find? k = some v ↔ (k, v) ∈ m := by
  unfold find?
  refine ⟨?_, ?_⟩
  · intro h
    obtain ⟨⟨a, b⟩, he, rfl⟩ := Option.map_eq_some_iff.1 h
    have hk := List.find?_some he
    simp only [decide_eq_true_eq] at hk
    exact hk ▸ List.mem_of_find?_eq_some he
  · intro h
    cases he : m.entries.find? (fun e => e.1 = k) with
    | none =>
      have := List.find?_eq_none.1 he (k, v) h
      simp at this
    | some e =>
      obtain ⟨a, b⟩ := e
      have hk := List.find?_some he
      simp only [decide_eq_true_eq] at hk
      subst hk
      exact congrArg some (mem_unique (List.mem_of_find?_eq_some he) h)

theorem find?_eq_none {m : StdMap κ ν} {k : κ} : m.find? k = none ↔ ∀ x ∈ m, x.1 ≠ k := by
  unfold find?
  rw [Option.map_eq_none_iff, List.find?_eq_none]
  simp [mem_entries]

theorem size_ne_zero {m : StdMap κ ν} : m.size ≠ 0 ↔ ∃ k v, (k, v) ∈ m := by
  rw [size, ← Nat.pos_iff_ne_zero, List.length_pos_iff_exists_mem, Prod.exists]
  exact Iff.rfl

/-! ## Looking up after an update -/

theorem find?_congr {m m' : StdMap κ ν} {k : κ} (h : ∀ v, (k, v) ∈ m' ↔ (k, v) ∈ m) : m'.find? k = m.find? k :=
  Option.ext fun v => by rw [find?_eq_some, find?_eq_some, h]

theorem find?_insert_new {m : StdMap κ ν} {k : κ} {v : ν} (h : m.find? k = none) : (m.insert k v).find? k = some v :=
  find?_eq_some.2 ((mem_insert_new (find?_eq_none.1 h)).2 (.inr rfl))

theorem find?_insert_old {m : StdMap κ ν} {k : κ} {v w : ν} (h : m.find? k = some w) : (m.insert k v).find? k = some w :=
  find?_eq_some.2 (mem_insert.2 (.inl (find?_eq_some.1 h)))

theorem find?_insert_ne {m : StdMap κ ν} {k j : κ} {v : ν} (h : j ≠ k) : (m.insert k v).find? j = m.find? j :=
  find?_congr fun w => by simp [mem_insert, h]

/-- An insertion changes no value. -/
theorem find?_insert_keep {m : StdMap κ ν} {k j : κ} {v w : ν} (h : m.find? j = some w) : (m.insert k v).find? j = some w := by
  by_cases hj : j = k
  · rw [← hj]
    exact find?_insert_old h
  · rw [find?_insert_ne hj, h]

theorem find?_erase_self {m : StdMap κ ν} {k : κ} : (m.erase k).find? k = none :=
  find?_eq_none.2 fun _ hx => (mem_erase.1 hx).2

theorem find?_erase_ne {m : StdMap κ ν} {k j : κ} (h : j ≠ k) : (m.erase k).find? j = m.find? j :=
  find?_congr fun w => by simp [mem_erase, h]

theorem find?_set_self {m : StdMap κ ν} {k : κ} {v w : ν} (h : m.find? k = some w) : (m.set k v).find? k = some v :=
  find?_eq_some.2 (mem_set.2 (.inr ⟨rfl, w, find?_eq_some.1 h⟩))

theorem find?_set_none {m : StdMap κ ν} {k : κ} {v : ν} (h : m.find? k = none) : (m.set k v).find? k = none :=
  find?_eq_none.2 fun x hx => by
    rcases mem_set.1 hx with ⟨-, hne⟩ | ⟨rfl, w, hw⟩
    · exact hne
    · exact find?_eq_none.1 h (k, w) hw

theorem find?_set_ne {m : StdMap κ ν} {k j : κ} {v : ν} (h : j ≠ k) : (m.set k v).find? j = m.find? j :=
  find?_congr fun w => by simp [mem_set, h]

/-- An assignment through an iterator adds no key and removes none. -/
theorem isSome_find?_set {m : StdMap κ ν} {k j : κ} {v : ν} : ((m.set k v).find? j).isSome = (m.find? j).isSome := by
  by_cases hj : j = k
  · rw [hj]
    cases hk : m.find? k with
    | none => rw [find?_set_none hk]
    | some w => rw [find?_set_self hk, Option.isSome_some, Option.isSome_some]
  · rw [find?_set_ne hj]

theorem find?_setAll {m : StdMap κ ν} {k : κ} {v w : ν} (h : m.find? k = some w) : (m.setAll v).find? k = some v :=
  find?_eq_some.2 (List.mem_map_of_mem (f := fun e => (e.1, v)) (find?_eq_some.1 h))

/-- A map is determined by the pairs it holds. -/
theorem ext_mem {m m' : StdMap κ ν} (h : ∀ x, x ∈ m ↔ x ∈ m') : m = m' := by
  have hperm : m.entries.Perm m'.entries :=
    (List.perm_ext_iff_of_nodup m.nodup_entries m'.nodup_entries).2 h
  have he : m.entries = m'.entries :=
    hperm.eq_of_pairwise (fun _ _ _ _ hab hba => absurd hab (not_lt.2 hba.le)) m.sorted m'.sorted
  cases m
  cases m'
  simpa using he

/-- A relation that holds in the order of the keys, said with membership only. -/
theorem pairwise_iff {m : StdMap κ ν} {R : κ × ν → κ × ν → Prop} :
    m.entries.Pairwise R ↔ ∀ a ∈ m, ∀ b ∈ m, a.1 < b.1 → R a b := by
  rw [List.pairwise_iff_getElem]
  refine ⟨?_, ?_⟩
  · intro h a ha b hb hlt
    obtain ⟨i, hi, rfl⟩ := List.mem_iff_getElem.1 ha
    obtain ⟨j, hj, rfl⟩ := List.mem_iff_getElem.1 hb
    rcases Nat.lt_trichotomy i j with hij | rfl | hij
    · exact h i j hi hj hij
    · exact absurd hlt (lt_irrefl _)
    · exact absurd hlt (lt_asymm (List.pairwise_iff_getElem.1 m.sorted j i hj hi hij))
  · intro h i j hi hj hij
    exact h _ (List.getElem_mem hi) _ (List.getElem_mem hj) (List.pairwise_iff_getElem.1 m.sorted i j hi hj hij)

/-! ## How the operations compose -/

/-- An insertion under a key that is taken. -/
theorem insert_old {m : StdMap κ ν} {k : κ} {v w : ν} (h : m.find? k = some w) : m.insert k v = m :=
  ext_mem fun _ => mem_insert.trans (or_iff_left fun hnew => hnew.2 _ (find?_eq_some.1 h) rfl)

theorem perm_insert {m : StdMap κ ν} {k : κ} {v : ν} (h : ∀ x ∈ m, x.1 ≠ k) :
    (m.insert k v).entries.Perm ((k, v) :: m.entries) := by
  refine (List.perm_ext_iff_of_nodup (nodup_entries _) ?_).2 fun x => ?_
  · exact List.nodup_cons.2 ⟨fun hx => h _ hx rfl, m.nodup_entries⟩
  · rw [List.mem_cons, mem_entries, mem_insert_new h, mem_entries, or_comm]

theorem perm_erase {m : StdMap κ ν} {k : κ} {v : ν} (h : (k, v) ∈ m) :
    m.entries.Perm ((k, v) :: (m.erase k).entries) := by
  have hne : ∀ x ∈ m.erase k, x.1 ≠ k := fun x hx => (mem_erase.1 hx).2
  refine (List.perm_ext_iff_of_nodup m.nodup_entries ?_).2 fun x => ?_
  · exact List.nodup_cons.2 ⟨fun hx => hne _ hx rfl, nodup_entries _⟩
  · rw [List.mem_cons, mem_entries, mem_entries, mem_erase]
    refine ⟨?_, ?_⟩
    · intro hx
      by_cases hk : x.1 = k
      · obtain ⟨a, b⟩ := x
        simp only at hk
        subst hk
        exact .inl (congrArg (Prod.mk a) (mem_unique hx h))
      · exact .inr ⟨hx, hk⟩
    · rintro (rfl | hx)
      · exact h
      · exact hx.1

/-! ## Inserting a list -/

def insertAll (m : StdMap κ ν) (l : List (κ × ν)) : StdMap κ ν := l.foldl (fun m e => m.insert e.1 e.2) m

theorem insertAll_cons {m : StdMap κ ν} {e : κ × ν} {l : List (κ × ν)} :
    m.insertAll (e :: l) = (m.insert e.1 e.2).insertAll l := rfl

theorem insertAll_append {m : StdMap κ ν} {l₁ l₂ : List (κ × ν)} :
    m.insertAll (l₁ ++ l₂) = (m.insertAll l₁).insertAll l₂ := List.foldl_append

theorem mem_insertAll {l : List (κ × ν)} {m : StdMap κ ν} {x : κ × ν} (hl : (l.map (·.1)).Nodup)
    (hm : ∀ e ∈ l, ∀ y ∈ m, y.1 ≠ e.1) : x ∈ m.insertAll l ↔ x ∈ m ∨ x ∈ l := by
  induction l generalizing m with
  | nil => simp [insertAll]
  | cons e l ih =>
    obtain ⟨he, hl⟩ := List.nodup_cons.1 hl
    have hnew := hm e List.mem_cons_self
    have hm' : ∀ f ∈ l, ∀ y ∈ m.insert e.1 e.2, y.1 ≠ f.1 := by
      intro f hf y hy
      rcases (mem_insert_new hnew).1 hy with hy | rfl
      · exact hm f (List.mem_cons_of_mem _ hf) y hy
      · exact fun heq => he (List.mem_map.2 ⟨f, hf, heq.symm⟩)
    rw [insertAll_cons, ih hl hm', mem_insert_new hnew, List.mem_cons, or_assoc]

end StdMap
