/-
Reading a directory (DirPtr/DirPtr.cpp, DirPtr/DirPtrImpl_Linux.cpp).

`operator*` skips what is not wanted at the current entry, `operator++` goes on
and skips behind it. Where nothing at all is wanted `operator*` comes to the end of
the directory, gives an empty name, and `End` has closed the stream that
`operator++` then reads from. `closedir(NULL)` only fails.
-/
import XFramework.Lib.Fallible
import Mathlib

open Fallible

/-- `struct dirent`. -/
structure dirent where
  d_name : String
  d_type : Int
  deriving DecidableEq

/-- `readdir(NULL)`, and a loop that has no end. -/
inductive DirFault
  | nullDir
  | outOfFuel
  deriving DecidableEq

/-- `m_dp` has the entries that are still to be read; `none` is `NULL`. -/
structure DirPtrImpl where
  m_dp : Option (List dirent)
  m_dirp : Option dirent
  m_bFlag : Bool
  deriving DecidableEq

namespace DirPtrImpl

def new : DirPtrImpl := ⟨none, none, false⟩

/-- `dir` is what `opendir` gives. -/
def Init (s : DirPtrImpl) (dir : Option (List dirent)) : Bool × DirPtrImpl :=
  if s.m_bFlag then (false, s)
  else
    match dir with
    | none => (false, { s with m_dp := none })
    | some [] => (false, { s with m_dp := some [], m_dirp := none })
    | some (e :: es) => (true, ⟨some es, some e, true⟩)

def End (s : DirPtrImpl) : Bool × DirPtrImpl :=
  if s.m_bFlag ∧ s.m_dirp ≠ none then (false, s) else (true, { s with m_dp := none })

def Next (s : DirPtrImpl) : Except DirFault DirPtrImpl :=
  match s.m_dp with
  | none => .error .nullDir
  | some [] => .ok { s with m_dirp := none, m_bFlag := false }
  | some (e :: es) => .ok { s with m_dp := some es, m_dirp := some e }

def GetCurrent (s : DirPtrImpl) : String :=
  match s.m_dirp with
  | none => ""
  | some e => e.d_name

def GetType (s : DirPtrImpl) : Int :=
  match s.m_dirp with
  | none => -1
  | some e => e.d_type

end DirPtrImpl

abbrev Pfunc : Type := String → Int → Bool

structure DirPtr where
  _Imp : DirPtrImpl
  m_findVec : List Pfunc
  m_filter : List Pfunc

namespace DirPtr

def IsFind (t : DirPtr) (filter : String) (type : Int) : Bool := t.m_findVec.isEmpty || t.m_findVec.any fun f => f filter type

def IsNot (t : DirPtr) (filter : String) (type : Int) : Bool := t.m_filter.any fun f => f filter type

def IsCurOrParentDir (filter : String) (_type : Int) : Bool := filter = "." ∨ ['.', '.'] <:+: filter.toList

/-- The test that both operators make of the current entry, where they go on. -/
def unwanted (t : DirPtr) : Bool :=
  t.IsNot t._Imp.GetCurrent t._Imp.GetType || (!t.m_findVec.isEmpty && !t.IsFind t._Imp.GetCurrent t._Imp.GetType)

def Init (t : DirPtr) (dir : Option (List dirent)) : Bool × DirPtr :=
  ((t._Imp.Init dir).1, { t with _Imp := (t._Imp.Init dir).2 })

def End (t : DirPtr) : Bool × DirPtr := (t._Imp.End.1, { t with _Imp := t._Imp.End.2 })

def Next (t : DirPtr) : Except DirFault DirPtr := do
  let i ← t._Imp.Next
  .ok { t with _Imp := i }

/-- The loop of `operator*`. -/
def skip : Nat → DirPtr → Except DirFault DirPtr
  | 0, _ => .error .outOfFuel
  | fuel + 1, t =>
    if t.End.1 then .ok t.End.2
    else if t.End.2.unwanted then do
      let t ← t.End.2.Next
      skip fuel t
    else .ok t.End.2

/-- `operator*`. -/
def deref (fuel : Nat) (t : DirPtr) : Except DirFault (String × DirPtr) := do
  let t ← t.skip fuel
  .ok (t._Imp.GetCurrent, t)

/-- `operator++`. -/
def advance : Nat → DirPtr → Except DirFault DirPtr
  | 0, _ => .error .outOfFuel
  | fuel + 1, t => do
    let t ← t.Next
    if t.unwanted then
      if t.End.1 then .ok t.End.2 else advance fuel t.End.2
    else .ok t

/-- `while (!End()) { **this; ++*this; }`, with the names that are taken. -/
def loop : Nat → DirPtr → Except DirFault (List String × DirPtr)
  | 0, _ => .error .outOfFuel
  | fuel + 1, t =>
    if t.End.1 then .ok ([], t.End.2)
    else do
      let (name, t) ← t.End.2.deref (fuel + 1)
      let t ← t.advance (fuel + 1)
      let (names, t) ← loop fuel t
      .ok (name :: names, t)

/-- A new object, with its predicates, on a directory with the entries `es`. -/
def iterate (fuel : Nat) (find filter : List Pfunc) (es : List dirent) : Except DirFault (List String × DirPtr) :=
  loop fuel (Init ⟨.new, find, filter⟩ (some es)).2

/-- An entry that no filter rejects and, if there are find predicates, one of them accepts. -/
def Wanted (find filter : List Pfunc) (e : dirent) : Prop :=
  (∀ f ∈ filter, f e.d_name e.d_type = false) ∧ (find ≠ [] → ∃ f ∈ find, f e.d_name e.d_type = true)

instance (find filter : List Pfunc) (e : dirent) : Decidable (Wanted find filter e) := inferInstanceAs (Decidable (_ ∧ _))

/-- The loop takes the wanted entries in their order, and nothing else. -/
def Yields (fuel : Nat) (find filter : List Pfunc) (es : List dirent) : Prop :=
  ∃ t, iterate fuel find filter es = .ok ((es.filter fun e => Wanted find filter e).map dirent.d_name, t)

variable {find filter : List Pfunc} {es rest : List dirent} {c e : dirent} {dp : Option (List dirent)} {fuel : Nat} {t : DirPtr}

/-- `c` is the current entry, and `rest` is still to be read. -/
def reading (find filter : List Pfunc) (c : dirent) (rest : List dirent) : DirPtr := ⟨⟨some rest, some c, true⟩, find, filter⟩

/-- Everything is read. -/
def ended (find filter : List Pfunc) (dp : Option (List dirent)) : DirPtr := ⟨⟨dp, none, false⟩, find, filter⟩

/-- The next wanted entry is the current one, or there is none. -/
def found (find filter : List Pfunc) (dp : Option (List dirent)) : List dirent → DirPtr
  | [] => ended find filter dp
  | e :: es => reading find filter e es

/-! ## One step -/

@[simp] theorem End_reading : (reading find filter c rest).End = (false, reading find filter c rest) := rfl

@[simp] theorem End_ended : (ended find filter dp).End = (true, ended find filter none) := rfl

@[simp] theorem Next_reading_nil : (reading find filter c []).Next = .ok (ended find filter (some [])) := rfl

@[simp] theorem Next_reading_cons : (reading find filter c (e :: rest)).Next = .ok (reading find filter e rest) := rfl

@[simp] theorem Next_ended_null : (ended find filter none).Next = .error .nullDir := rfl

theorem unwanted_reading : (reading find filter c rest).unwanted = !decide (Wanted find filter c) := by
  rw [Bool.eq_iff_iff]
  cases find with
  | nil => simp [unwanted, reading, IsNot, Wanted, DirPtrImpl.GetCurrent, DirPtrImpl.GetType]
  | cons f find =>
    simp [unwanted, reading, IsNot, IsFind, Wanted, DirPtrImpl.GetCurrent, DirPtrImpl.GetType]

/-! ## The operators -/

theorem skip_reading (h : rest.length + 1 < fuel) : (reading find filter c rest).skip fuel =
    .ok (found find filter none ((c :: rest).dropWhile fun e => !decide (Wanted find filter e))) := by
  induction rest generalizing c fuel with
  | nil =>
    obtain ⟨fuel, rfl⟩ : ∃ k, fuel = k + 2 := ⟨fuel - 2, by simp at h; omega⟩
    by_cases hc : Wanted find filter c
    · simp [skip, unwanted_reading, hc, found]
    · simp [skip, unwanted_reading, hc, found, bind, Except.bind]
  | cons e rest ih =>
    obtain ⟨fuel, rfl⟩ : ∃ k, fuel = k + 1 := ⟨fuel - 1, by omega⟩
    by_cases hc : Wanted find filter c
    · simp [skip, unwanted_reading, hc, found]
    · have hrun := ih (c := e) (by simpa using h : rest.length + 1 < fuel)
      rw [List.dropWhile_cons_of_pos (by simpa using hc), ← hrun]
      simp [skip, unwanted_reading, hc, bind, Except.bind]

/-- At the end the stream may be closed already. -/
theorem advance_reading (h : rest.length < fuel) : ∃ dp, (reading find filter c rest).advance fuel =
    .ok (found find filter dp (rest.dropWhile fun e => !decide (Wanted find filter e))) := by
  induction rest generalizing c fuel with
  | nil =>
    obtain ⟨fuel, rfl⟩ : ∃ k, fuel = k + 1 := ⟨fuel - 1, by omega⟩
    cases hend : (ended find filter (some [])).unwanted with
    | true => exact ⟨none, by simp [advance, hend, found, bind, Except.bind]⟩
    | false => exact ⟨some [], by simp [advance, hend, found, bind, Except.bind]⟩
  | cons e rest ih =>
    obtain ⟨fuel, rfl⟩ : ∃ k, fuel = k + 1 := ⟨fuel - 1, by omega⟩
    by_cases he : Wanted find filter e
    · exact ⟨none, by simp [advance, unwanted_reading, he, found, bind, Except.bind]⟩
    · obtain ⟨dp, hrun⟩ := ih (c := e) (by simpa using h : rest.length < fuel)
      refine ⟨dp, ?_⟩
      rw [List.dropWhile_cons_of_pos (by simpa using he), ← hrun]
      simp [advance, unwanted_reading, he, bind, Except.bind]

/-! ## The loop -/

theorem filter_dropWhile {α : Type*} (p : α → Bool) (l : List α) : (l.dropWhile fun a => !p a).filter p = l.filter p := by
  induction l with
  | nil => rfl
  | cons a l ih =>
    cases ha : p a with
    | true => simp [ha]
    | false => simpa [ha] using ih

theorem dropWhile_ne_nil (h : ∃ e ∈ es, Wanted find filter e) :
    ∃ w rest, Wanted find filter w ∧ (es.dropWhile fun e => !decide (Wanted find filter e)) = w :: rest ∧ rest.length < es.length := by
  induction es with
  | nil => simp at h
  | cons e es ih =>
    by_cases he : Wanted find filter e
    · exact ⟨e, es, he, by simp [he], by simp⟩
    · have hrest : ∃ e ∈ es, Wanted find filter e := by
        obtain ⟨x, hx, hwanted⟩ := h
        rcases List.mem_cons.1 hx with rfl | hx
        · exact absurd hwanted he
        · exact ⟨x, hx, hwanted⟩
      obtain ⟨w, rest, hw, hdrop, hlen⟩ := ih hrest
      exact ⟨w, rest, hw, by simpa [he] using hdrop, by simp; omega⟩

theorem loop_ended (fuel : Nat) : (ended find filter dp).loop (fuel + 1) = .ok ([], ended find filter none) := rfl

/-- Where something is wanted, the first wanted entry is taken, and `operator++` gets behind it. -/
theorem loop_reading_cons {w : dirent} {rest' : List dirent} (hfuel : rest.length < fuel)
    (hdrop : ((c :: rest).dropWhile fun e => !decide (Wanted find filter e)) = w :: rest') (hlen : rest'.length ≤ rest.length) :
    ∃ dp, (reading find filter c rest).loop (fuel + 1) = (do
      let (names, t) ← loop fuel (found find filter dp (rest'.dropWhile fun e => !decide (Wanted find filter e)))
      .ok (w.d_name :: names, t)) := by
  have hskip : (reading find filter c rest).skip (fuel + 1) = .ok (reading find filter w rest') := by
    rw [skip_reading (by omega), hdrop]
    rfl
  obtain ⟨dp, hadvance⟩ : ∃ dp, (reading find filter w rest').advance (fuel + 1) =
      .ok (found find filter dp (rest'.dropWhile fun e => !decide (Wanted find filter e))) := advance_reading (by omega)
  refine ⟨dp, ?_⟩
  rw [loop, End_reading]
  simp only [Bool.false_eq_true, if_false, deref, hskip, hadvance, bind, Except.bind]
  rfl

/-- From an entry on the wanted ones are taken, if there are any. -/
theorem loop_reading (hfuel : rest.length + 1 < fuel) (h : ∃ e ∈ c :: rest, Wanted find filter e) : ∃ t,
    (reading find filter c rest).loop fuel =
      .ok (((c :: rest).filter fun e => Wanted find filter e).map dirent.d_name, t) := by
  induction fuel generalizing c rest with
  | zero => omega
  | succ fuel ih =>
    obtain ⟨w, rest', hw, hdrop, hlen⟩ := dropWhile_ne_nil h
    rw [List.length_cons] at hlen
    -- what is skipped is not wanted
    have hfilter : (c :: rest).filter (fun e => Wanted find filter e) = w :: rest'.filter fun e => Wanted find filter e := by
      rw [← filter_dropWhile, hdrop, List.filter_cons_of_pos (by simpa using hw)]
    have hlt : rest.length < fuel := by omega
    obtain ⟨dp, hrun⟩ := loop_reading_cons hlt hdrop (by omega)
    rw [hrun, hfilter]
    by_cases hmore : ∃ e ∈ rest', Wanted find filter e
    · obtain ⟨w', rest'', hw', hdrop', hlen'⟩ := dropWhile_ne_nil hmore
      have hfilter' := filter_dropWhile (fun e => decide (Wanted find filter e)) rest'
      rw [hdrop'] at hfilter'
      have hlen'' : rest''.length + 1 < fuel := by omega
      obtain ⟨t, htail⟩ := ih hlen'' ⟨w', List.mem_cons_self, hw'⟩
      refine ⟨t, ?_⟩
      rw [hdrop', found, htail, hfilter']
      rfl
    · have hnone : ∀ e ∈ rest', ¬Wanted find filter e := fun e he hwanted => hmore ⟨e, he, hwanted⟩
      have hdrop' : (rest'.dropWhile fun e => !decide (Wanted find filter e)) = [] :=
        List.dropWhile_eq_nil_iff.2 fun e he => by simpa using hnone e he
      have hfilter' : (rest'.filter fun e => Wanted find filter e) = [] :=
        List.filter_eq_nil_iff.2 fun e he => by simpa using hnone e he
      obtain ⟨k, rfl⟩ : ∃ k, fuel = k + 1 := ⟨fuel - 1, by omega⟩
      refine ⟨ended find filter none, ?_⟩
      rw [hdrop', hfilter', found, loop_ended]
      rfl

/-- Where nothing is wanted `operator++` reads from a stream that is closed. -/
theorem loop_reading_none (hfuel : rest.length < fuel) (h : ∀ e ∈ c :: rest, ¬Wanted find filter e) :
    (reading find filter c rest).loop (fuel + 1) = .error .nullDir := by
  have hdrop : ((c :: rest).dropWhile fun e => !decide (Wanted find filter e)) = [] :=
    List.dropWhile_eq_nil_iff.2 fun e he => by simpa using h e he
  have hskip : (reading find filter c rest).skip (fuel + 1) = .ok (ended find filter none) := by
    rw [skip_reading (by omega), hdrop]
    rfl
  rw [loop, End_reading]
  simp [deref, hskip, advance, bind, Except.bind]

/-- The loop takes what it should if the directory has no entry, or a wanted one. -/
theorem yields_iff (find filter : List Pfunc) (es : List dirent) (fuel : Nat) (h : es.length < fuel) :
    Yields fuel find filter es ↔ es = [] ∨ ∃ e ∈ es, Wanted find filter e := by
  obtain ⟨fuel, rfl⟩ : ∃ k, fuel = k + 1 := ⟨fuel - 1, by omega⟩
  cases es with
  | nil => exact iff_of_true ⟨_, rfl⟩ (.inl rfl)
  | cons c rest =>
    have hinit : (Init ⟨.new, find, filter⟩ (some (c :: rest))).2 = reading find filter c rest := rfl
    rw [or_iff_right (List.cons_ne_nil c rest), Yields, iterate, hinit]
    refine ⟨?_, fun hwanted => loop_reading (by simpa using h) hwanted⟩
    rintro ⟨t, hrun⟩
    by_contra hnone
    have hlt : rest.length < fuel := by simpa using h
    cases hrun.symm.trans (loop_reading_none hlt fun e he hwanted => hnone ⟨e, he, hwanted⟩)

/-- A directory with one file. -/
def oneFile : List dirent := [⟨".", 4⟩, ⟨"a", 8⟩, ⟨"..", 4⟩]

theorem yields_iff_oneFile : oneFile.length < 4 ∧
    (Yields 4 [] [IsCurOrParentDir] oneFile ↔ oneFile = [] ∨ ∃ e ∈ oneFile, Wanted [] [IsCurOrParentDir] e) :=
  ⟨by decide, yields_iff [] [IsCurOrParentDir] oneFile 4 (by decide)⟩

/-- A directory that is empty has itself and its parent only. -/
theorem not_yields_empty : ¬∀ fuel find filter es, es ≠ [] → es.length < fuel → Yields fuel find filter es := fun h => by
  obtain ⟨t, hrun⟩ := h 3 [] [IsCurOrParentDir] [⟨".", 4⟩, ⟨"..", 4⟩] (List.cons_ne_nil _ _) (by decide)
  have hfault : iterate 3 [] [IsCurOrParentDir] [⟨".", 4⟩, ⟨"..", 4⟩] = .error .nullDir := by
    refine loop_reading_none (by decide) fun e he => ?_
    rcases List.mem_cons.1 he with rfl | he
    · decide
    · cases List.mem_singleton.1 he
      decide
  cases hrun.symm.trans hfault

end DirPtr
