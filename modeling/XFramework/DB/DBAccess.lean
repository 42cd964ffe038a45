/-
The text of a statement (DB/DBAccess.cpp).

`Fromat` collects the `?` and the `%` of the text, sorts them, and gives each
the argument of the same position. It then cuts the text before each `%`,
renders each piece with `sprintf`, and glues the pieces together. All of this
goes through a buffer of 256 bytes, and into a destination whose size is
compared with the length of the text before anything is put in its place.
-/
import XFramework.DB.DBDefine
import XFramework.Lib.Fallible
import Mathlib.Data.List.Sort

open Fallible

/-- Why the text is not what it should be: a write beyond `destr` or beyond `szbuf`, a string without an end, or a conversion
that is not defined. -/
inductive FormatFault
  | destrOverflow
  | bufferOverflow
  | unterminated
  | conversion
  deriving DecidableEq

namespace DBAccess

/-- `?` -/
def c1 : UInt8 := 63

/-- `%` -/
def c2 : UInt8 := 37

/-- The size of `szbuf`. -/
def szbufSize : Nat := 256

/-- `pStart` is the place in the text, and `nFlag` tells `?` from `%`. -/
structure ArgType where
  pStart : Nat
  nFlag : Nat
  val : DBField
  deriving DecidableEq

structure TmpInfo where
  pStart : Nat
  nIndex : Nat
  deriving DecidableEq

/-- What `sprintf` writes for a format and an argument, before the NUL; `none` where this is not defined. -/
abbrev Sprintf : Type := List UInt8 → FieldPtr → Option (List UInt8)

/-- The places that `strchr` finds one after the other. -/
def collect (c : UInt8) (nFlag : Nat) : Nat → List UInt8 → List ArgType
  | _, [] => []
  | k, x :: s => if x = c then ⟨k, nFlag, .new⟩ :: collect c nFlag (k + 1) s else collect c nFlag (k + 1) s

def sortArgs (args : List ArgType) : List ArgType := args.insertionSort fun a b => a.pStart ≤ b.pStart

/-- The loop over `argTypeList`. -/
def setVals (args : List ArgType) (argTypeList : List SqlArg) : List ArgType :=
  List.zipWith (fun a v => { a with val := v.val }) args argTypeList

def infoVec (args : List ArgType) : List TmpInfo :=
  (args.zipIdx.filter fun p => p.1.nFlag = 0).map fun p => ⟨p.1.pStart, p.2⟩

/-- `strncpy(szbuf, src, n)` and the string that is made of `szbuf` then, where `src` has `n` characters. -/
def copyPiece (src : List UInt8) (n : Nat) : Except FormatFault (List UInt8) :=
  if szbufSize < n then .error .bufferOverflow
  else if n = szbufSize then .error .unterminated
  else .ok (src.take n)

/-- The pieces from the places on, each up to the next place. -/
def cut (sql : List UInt8) : List Nat → Except FormatFault (List (List UInt8))
  | [] => .ok []
  | [p] => do
    let piece ← copyPiece (sql.drop p) (sql.length - p)
    .ok [piece]
  | p :: q :: rest => do
    let piece ← copyPiece (sql.drop p) (q - p)
    let pieces ← cut sql (q :: rest)
    .ok (piece :: pieces)

/-- `sprintf` into `szbuf`, which is left as it is for a blob. -/
def render (sprintf : Sprintf) (szbuf piece : List UInt8) (val : DBField) : Except FormatFault (List UInt8) :=
  if val.fieldType = .DT_BLOB then .ok szbuf
  else
    match sprintf piece val.ptr with
    | none => .error .conversion
    | some r => if szbufSize < r.length + 1 then .error .bufferOverflow else .ok (CStr.ofBytes r).chars

/-- The loop over the pieces behind the first. -/
def renderAll (sprintf : Sprintf) : List UInt8 → List (List UInt8 × DBField) → Except FormatFault (List (List UInt8))
  | _, [] => .ok []
  | szbuf, (piece, val) :: rest => do
    let szbuf ← render sprintf szbuf piece val
    let pieces ← renderAll sprintf szbuf rest
    .ok (szbuf :: pieces)

/-- `strcat(destr, piece)`. -/
def strcat (totalCount : Nat) (destr piece : List UInt8) : Except FormatFault (List UInt8) :=
  if totalCount < destr.length + piece.length + 1 then .error .destrOverflow else .ok (destr ++ piece)

/-- What `Fromat` does when there is a `%`. -/
def replace (sprintf : Sprintf) (destr sql : List UInt8) (totalCount : Nat) (args : List ArgType) :
    Except FormatFault (List UInt8) := do
  let info := infoVec args
  let first ← copyPiece sql (info.map TmpInfo.pStart).headI
  let pieces ← cut sql (info.map TmpInfo.pStart)
  let vals := info.map fun t => ((args[t.nIndex]?).map ArgType.val).getD .new
  let rendered ← renderAll sprintf [] (pieces.zip vals)
  (first :: rendered).foldlM (strcat totalCount) destr

/-- `destr` is NULL or the string that lies there. With the text, or `none` for NULL, there comes back what is put into
`args`. -/
def fromat (sprintf : Sprintf) (destr : Option CStr) (sql : CStr) (totalCount : Nat) (argTypeList : List SqlArg) :
    Except FormatFault (Option (List UInt8) × List ArgType) :=
  match destr with
  | none => .ok (none, [])
  | some destr =>
    if sql.strlen = 0 ∨ totalCount < sql.strlen then .ok (none, [])
    else
      let percents := collect c2 0 0 sql.chars
      let args := sortArgs (collect c1 1 0 sql.chars ++ percents)
      if args.length ≠ argTypeList.length then .ok (none, args)
      else
        let args := setVals args argTypeList
        if percents.length > 0 then do
          let text ← replace sprintf destr.chars sql.chars totalCount args
          .ok (some text, args)
        else if totalCount < sql.strlen + 1 then .error .destrOverflow
        else .ok (some sql.chars, args)

/-! ## What the text should be -/

def placeholders (s : List UInt8) : Nat := s.countP fun x => x = c1 ∨ x = c2

/-- The text before the first `%`, and the segments that begin at each. -/
def segments : List UInt8 → List UInt8 × List (List UInt8)
  | [] => ([], [])
  | x :: s => if x = c2 then ([], (x :: (segments s).1) :: (segments s).2) else (x :: (segments s).1, (segments s).2)

/-- The segments with their arguments; `args` are those from the first segment on. -/
def matched : List SqlArg → List (List UInt8) → List (List UInt8 × SqlArg)
  | a :: args, g :: rest => (g, a) :: matched ((a :: args).drop (placeholders g)) rest
  | _, _ => []

/-- The rendering of a segment; a blob has none. -/
def rendering (sprintf : Sprintf) (g : List UInt8) (a : SqlArg) : Option (List UInt8) :=
  match a.value with
  | .blob _ => none
  | _ => sprintf g a.val.ptr

/-- Each segment of the text with the argument of its position. -/
def pairs (sql : List UInt8) (args : List SqlArg) : List (List UInt8 × SqlArg) :=
  matched (args.drop (placeholders (segments sql).1)) (segments sql).2

def renderings (sprintf : Sprintf) (sql : List UInt8) (args : List SqlArg) : Option (List (List UInt8)) :=
  (pairs sql args).mapM fun p => rendering sprintf p.1 p.2

/-- The text with each segment replaced by its rendering. -/
def expected (sprintf : Sprintf) (sql : List UInt8) (args : List SqlArg) : Option (List UInt8) := do
  let rs ← renderings sprintf sql args
  some ((segments sql).1 ++ rs.flatten)

/-- NULL, or the text as it should be, and no write outside of the two buffers. -/
def Formats (sprintf : Sprintf) (destr : Option CStr) (sql : CStr) (totalCount : Nat) (args : List SqlArg) : Prop :=
  ∃ r, fromat sprintf destr sql totalCount args = .ok r ∧ (r.1 = none ∨ r.1.isSome ∧ r.1 = expected sprintf sql.chars args)

/-- The pieces and the renderings are strings that fit into `szbuf`, and the text into `destr`, which is empty. -/
structure Fits (sprintf : Sprintf) (destr : CStr) (sql : CStr) (totalCount : Nat) (args : List SqlArg) : Prop where
  empty : destr.chars = []
  first : (segments sql.chars).1.length < szbufSize
  pieces : ∀ g ∈ (segments sql.chars).2, g.length < szbufSize
  rendered : ∃ rs, renderings sprintf sql.chars args = some rs ∧ (∀ r ∈ rs, r.length < szbufSize ∧ 0 ∉ r) ∧
    (segments sql.chars).1.length + rs.flatten.length < totalCount

/-- NULL comes back, or the text fits. -/
def FormatsWhen (sprintf : Sprintf) (destr : Option CStr) (sql : CStr) (totalCount : Nat) (args : List SqlArg) : Prop :=
  ∀ d, destr = some d → sql.chars ≠ [] → sql.strlen ≤ totalCount → args.length = placeholders sql.chars →
    if c2 ∈ sql.chars then Fits sprintf d sql totalCount args else sql.strlen < totalCount

/-! ## The placeholders in order -/

/-- Both kinds in one pass. -/
def scan : Nat → List UInt8 → List ArgType
  | _, [] => []
  | k, x :: s =>
    if x = c1 then ⟨k, 1, .new⟩ :: scan (k + 1) s
    else if x = c2 then ⟨k, 0, .new⟩ :: scan (k + 1) s
    else scan (k + 1) s

theorem le_of_mem_scan {k : Nat} {s : List UInt8} {a : ArgType} (h : a ∈ scan k s) : k ≤ a.pStart := by
  induction s generalizing k with
  | nil => simp [scan] at h
  | cons x s ih =>
    unfold scan at h
    split_ifs at h
    · rcases List.mem_cons.1 h with rfl | h
      · exact Nat.le_refl k
      · exact Nat.le_of_succ_le (ih h)
    · rcases List.mem_cons.1 h with rfl | h
      · exact Nat.le_refl k
      · exact Nat.le_of_succ_le (ih h)
    · exact Nat.le_of_succ_le (ih h)

theorem pairwise_scan {k : Nat} {s : List UInt8} : (scan k s).Pairwise fun a b => a.pStart < b.pStart := by
  induction s generalizing k with
  | nil => exact List.Pairwise.nil
  | cons x s ih =>
    unfold scan
    split_ifs
    · exact List.pairwise_cons.2 ⟨fun b hb => le_of_mem_scan hb, ih⟩
    · exact List.pairwise_cons.2 ⟨fun b hb => le_of_mem_scan hb, ih⟩
    · exact ih

theorem collect_perm_scan {k : Nat} {s : List UInt8} : (collect c1 1 k s ++ collect c2 0 k s).Perm (scan k s) := by
  induction s generalizing k with
  | nil => exact List.Perm.nil
  | cons x s ih =>
    unfold collect scan
    by_cases h₁ : x = c1
    · subst h₁
      exact ih.cons ⟨k, 1, .new⟩
    · by_cases h₂ : x = c2
      · subst h₂
        exact List.perm_middle.trans (ih.cons ⟨k, 0, .new⟩)
      · simpa [h₁, h₂] using ih

/-- Sorting what the two passes have found gives the placeholders in the order of the text. -/
theorem sortArgs_collect {k : Nat} {s : List UInt8} : sortArgs (collect c1 1 k s ++ collect c2 0 k s) = scan k s := by
  have hperm : (sortArgs (collect c1 1 k s ++ collect c2 0 k s)).Perm (scan k s) :=
    (List.perm_insertionSort _ _).trans collect_perm_scan
  have hinj : ∀ a ∈ scan k s, ∀ b ∈ scan k s, a.pStart = b.pStart → a = b := fun a ha b hb =>
    List.inj_on_of_nodup_map (List.pairwise_map.2 (pairwise_scan.imp Nat.ne_of_lt)) ha hb
  have : Std.Total fun a b : ArgType => a.pStart ≤ b.pStart := ⟨fun a b => Nat.le_total a.pStart b.pStart⟩
  have : IsTrans ArgType fun a b => a.pStart ≤ b.pStart := ⟨fun a b c => Nat.le_trans⟩
  refine hperm.eq_of_pairwise (fun a b ha hb hab hba => ?_) (List.pairwise_insertionSort _ _)
    (pairwise_scan.imp Nat.le_of_lt)
  exact hinj a (hperm.mem_iff.1 ha) b hb (Nat.le_antisymm hab hba)

theorem length_scan {k : Nat} {s : List UInt8} : (scan k s).length = placeholders s := by
  induction s generalizing k with
  | nil => rfl
  | cons x s ih =>
    unfold scan
    split_ifs <;> simp_all [placeholders]

theorem collect_length_pos {c : UInt8} {nFlag k : Nat} {s : List UInt8} : (collect c nFlag k s).length > 0 ↔ c ∈ s := by
  induction s generalizing k with
  | nil => simp [collect]
  | cons x s ih =>
    unfold collect
    split_ifs with h
    · simp [h]
    · have h : c ≠ x := Ne.symm h
      simpa [h] using ih

theorem segments_flatten {s : List UInt8} : (segments s).1 ++ (segments s).2.flatten = s := by
  induction s with
  | nil => rfl
  | cons x s ih =>
    unfold segments
    split_ifs <;> simpa using ih

theorem segments_eq_nil {s : List UInt8} : (segments s).2 = [] ↔ c2 ∉ s := by
  induction s with
  | nil => simp [segments]
  | cons x s ih =>
    unfold segments
    split_ifs with h
    · simp [h]
    · have h : c2 ≠ x := Ne.symm h
      simpa [h] using ih

/-- Where the segments begin. -/
def starts : Nat → List (List UInt8) → List Nat
  | _, [] => []
  | k, g :: gs => k :: starts (k + g.length) gs

/-- The entries of the `%`, with their values. -/
def percentArgs (args : List ArgType) : List ArgType := args.filter fun a => a.nFlag = 0

theorem percentArgs_zipIdx {args : List ArgType} :
    percentArgs args = (args.zipIdx.filter fun p => p.1.nFlag = 0).map Prod.fst := by
  have h := List.filter_map (f := Prod.fst) (p := fun a : ArgType => decide (a.nFlag = 0)) (l := args.zipIdx)
  rw [List.zipIdx_map_fst] at h
  exact h

theorem infoVec_pStart {args : List ArgType} : (infoVec args).map TmpInfo.pStart = (percentArgs args).map ArgType.pStart := by
  rw [percentArgs_zipIdx, infoVec, List.map_map, List.map_map]
  rfl

/-- `nIndex` finds the entry again. -/
theorem infoVec_val {args : List ArgType} :
    ((infoVec args).map fun t => ((args[t.nIndex]?).map ArgType.val).getD .new) = (percentArgs args).map ArgType.val := by
  rw [percentArgs_zipIdx, infoVec, List.map_map, List.map_map]
  refine List.map_congr_left fun p hp => ?_
  have hp : args[p.2]? = some p.1 := List.mem_zipIdx_iff_getElem?.1 (List.mem_of_mem_filter hp)
  simp [hp]

theorem pairs_c1 {s : List UInt8} {v : SqlArg} {vs : List SqlArg} : pairs (c1 :: s) (v :: vs) = pairs s vs := by
  simp [pairs, segments, placeholders, c1, c2]

theorem pairs_c2 {s : List UInt8} {v : SqlArg} {vs : List SqlArg} :
    pairs (c2 :: s) (v :: vs) = (c2 :: (segments s).1, v) :: pairs s vs := by
  simp [pairs, segments, placeholders, matched]

theorem pairs_other {x : UInt8} {s : List UInt8} {vs : List SqlArg} (h₁ : x ≠ c1) (h₂ : x ≠ c2) :
    pairs (x :: s) vs = pairs s vs := by
  simp [pairs, segments, placeholders, h₁, h₂]

/-- What is done to `x :: s`, when it is done to `s` for the arguments that are left. -/
theorem scan_induction {P : Nat → List UInt8 → List SqlArg → Prop} (nil : ∀ k vs, P k [] vs)
    (c1 : ∀ k s v vs, P (k + 1) s vs → P k (c1 :: s) (v :: vs)) (c2 : ∀ k s v vs, P (k + 1) s vs → P k (c2 :: s) (v :: vs))
    (other : ∀ k x s vs, x ≠ DBAccess.c1 → x ≠ DBAccess.c2 → P (k + 1) s vs → P k (x :: s) vs)
    {k : Nat} {s : List UInt8} {vs : List SqlArg} (h : placeholders s ≤ vs.length) : P k s vs := by
  induction s generalizing k vs with
  | nil => exact nil k vs
  | cons x s ih =>
    by_cases hx : x = DBAccess.c1 ∨ x = DBAccess.c2
    · have hcount : placeholders (x :: s) = placeholders s + 1 := by simp [placeholders, hx]
      cases vs with
      | nil =>
        rw [hcount] at h
        cases h
      | cons v vs =>
        rw [hcount] at h
        have h : placeholders s ≤ vs.length := Nat.le_of_succ_le_succ h
        rcases hx with rfl | rfl
        · exact c1 k s v vs (ih h)
        · exact c2 k s v vs (ih h)
    · have hcount : placeholders (x :: s) = placeholders s := by simp [placeholders, hx]
      rw [hcount] at h
      exact other k x s vs (fun h => hx (.inl h)) (fun h => hx (.inr h)) (ih h)

/-- The entries of the segments, as they stand one behind the other. -/
def entries : Nat → List (List UInt8 × SqlArg) → List ArgType
  | _, [] => []
  | k, (g, a) :: ps => ⟨k, 0, a.val⟩ :: entries (k + g.length) ps

theorem percentArgs_scan {k : Nat} {s : List UInt8} {vs : List SqlArg} (h : placeholders s ≤ vs.length) :
    percentArgs (setVals (scan k s) vs) = entries (k + (segments s).1.length) (pairs s vs) := by
  refine scan_induction (P := fun k s vs => percentArgs (setVals (scan k s) vs) = entries (k + (segments s).1.length) (pairs s vs))
    (fun k vs => ?_) (fun k s v vs ih => ?_) (fun k s v vs ih => ?_) (fun k x s vs h₁ h₂ ih => ?_) h
  · simp [scan, setVals, percentArgs, pairs, segments, matched, entries]
  · rw [pairs_c1]
    have hseg : (segments (c1 :: s)).1 = c1 :: (segments s).1 := rfl
    rw [hseg, List.length_cons, ← Nat.add_assoc, Nat.add_right_comm, ← ih]
    rfl
  · rw [pairs_c2]
    have hseg : (segments (c2 :: s)).1 = [] := rfl
    rw [hseg, List.length_nil, entries, List.length_cons, Nat.add_zero, ← Nat.add_assoc, Nat.add_right_comm, ← ih]
    rfl
  · rw [pairs_other h₁ h₂]
    have hseg : (segments (x :: s)).1 = x :: (segments s).1 := by simp [segments, h₂]
    have hscan : scan k (x :: s) = scan (k + 1) s := by simp [scan, h₁, h₂]
    rw [hseg, hscan, List.length_cons, ← Nat.add_assoc, Nat.add_right_comm, ← ih]

theorem pairs_fst {s : List UInt8} {vs : List SqlArg} (h : placeholders s ≤ vs.length) :
    (pairs s vs).map Prod.fst = (segments s).2 := by
  refine scan_induction (P := fun _ s vs => (pairs s vs).map Prod.fst = (segments s).2) (k := 0)
    (fun _ vs => ?_) (fun _ s v vs ih => ?_) (fun _ s v vs ih => ?_) (fun _ x s vs h₁ h₂ ih => ?_) h
  · simp [pairs, segments, matched]
  · rw [pairs_c1]
    simpa [segments, c1, c2] using ih
  · rw [pairs_c2]
    simpa [segments] using ih
  · simpa [pairs_other h₁ h₂, segments, h₂] using ih

theorem entries_pStart {k : Nat} {ps : List (List UInt8 × SqlArg)} :
    (entries k ps).map ArgType.pStart = starts k (ps.map Prod.fst) := by
  induction ps generalizing k with
  | nil => rfl
  | cons p ps ih => simp [entries, starts, ih]

theorem entries_val {k : Nat} {ps : List (List UInt8 × SqlArg)} :
    (entries k ps).map ArgType.val = ps.map fun p => p.2.val := by
  induction ps generalizing k with
  | nil => rfl
  | cons p ps ih => simp [entries, ih]

/-! ## The pieces -/

theorem copyPiece_eq_ok {g rest piece : List UInt8} :
    copyPiece (g ++ rest) g.length = .ok piece ↔ g.length < szbufSize ∧ piece = g := by
  unfold copyPiece
  split_ifs with h₁ h₂
  · simp; omega
  · simp; omega
  · have : g.length < szbufSize := by omega
    simp [this, eq_comm]

/-- The text is cut into its segments, where each fits with its end into `szbuf`. -/
theorem cut_eq_ok {pre : List UInt8} {gs pieces : List (List UInt8)} :
    cut (pre ++ gs.flatten) (starts pre.length gs) = .ok pieces ↔ (∀ g ∈ gs, g.length < szbufSize) ∧ pieces = gs := by
  induction gs generalizing pre pieces with
  | nil => simp [starts, cut, eq_comm]
  | cons g gs ih =>
    have ih := @ih (pre ++ g)
    cases gs with
    | nil =>
      have hpiece := @copyPiece_eq_ok g []
      simp only [List.append_nil] at hpiece
      simp only [starts, cut, bind_eq_ok, List.flatten_cons, List.flatten_nil, List.append_nil, List.drop_left,
        List.length_append, Nat.add_sub_cancel_left, hpiece]
      simp [eq_comm]
    | cons g' gs =>
      simp only [starts, cut, bind_eq_ok, List.flatten_cons, List.drop_left, Nat.add_sub_cancel_left, copyPiece_eq_ok]
      simp only [starts, List.length_append, List.flatten_cons, List.append_assoc] at ih
      simp only [ih, List.forall_mem_cons]
      simp [eq_comm (b := pieces), and_assoc]

/-! ## The renderings -/

theorem rendering_eq_some {sprintf : Sprintf} {g r : List UInt8} {a : SqlArg} (h : rendering sprintf g a = some r) :
    a.val.fieldType ≠ .DT_BLOB ∧ sprintf g a.val.ptr = some r := by
  obtain ⟨name, value⟩ := a
  cases value with
  | blob bytes => cases h
  | int n => exact ⟨nofun, h⟩
  | int64 n => exact ⟨nofun, h⟩
  | double bits => exact ⟨nofun, h⟩
  | string s => exact ⟨nofun, h⟩

theorem render_eq_ok {sprintf : Sprintf} {szbuf g r t : List UInt8} {a : SqlArg} (h : rendering sprintf g a = some r) :
    render sprintf szbuf g a.val = .ok t ↔ r.length < szbufSize ∧ t = (CStr.ofBytes r).chars := by
  obtain ⟨htype, hr⟩ := rendering_eq_some h
  unfold render
  simp only [htype, hr, if_false]
  split_ifs with hlen
  · simp; omega
  · have : r.length < szbufSize := by omega
    simp [this, eq_comm]

theorem renderAll_eq_ok {sprintf : Sprintf} {szbuf : List UInt8} {ps : List (List UInt8 × SqlArg)}
    {rs ts : List (List UInt8)} (h : ps.mapM (fun p => rendering sprintf p.1 p.2) = some rs) :
    renderAll sprintf szbuf (ps.map fun p => (p.1, p.2.val)) = .ok ts ↔
      (∀ r ∈ rs, r.length < szbufSize) ∧ ts = rs.map fun r => (CStr.ofBytes r).chars := by
  induction ps generalizing szbuf rs ts with
  | nil =>
    cases h
    simp [renderAll, eq_comm]
  | cons p ps ih =>
    simp only [List.mapM_cons, Option.bind_eq_bind, Option.bind_eq_some_iff] at h
    obtain ⟨r, hr, rs, hrs, heq⟩ := h
    cases heq
    simp only [List.map_cons, renderAll, bind_eq_ok, render_eq_ok hr, ih hrs, List.forall_mem_cons]
    simp [eq_comm (b := ts), and_assoc]

/-! ## The pieces one behind the other -/

theorem strcat_eq_ok {n : Nat} {d piece out : List UInt8} :
    strcat n d piece = .ok out ↔ d.length + piece.length < n ∧ out = d ++ piece := by
  unfold strcat
  split_ifs with h
  · simp; omega
  · have : d.length + piece.length < n := by omega
    simp [this, eq_comm]

theorem foldlM_strcat {n : Nat} {t : List UInt8} {ts : List (List UInt8)} {d out : List UInt8} :
    (t :: ts).foldlM (strcat n) d = .ok out ↔ d.length + (t :: ts).flatten.length < n ∧ out = d ++ (t :: ts).flatten := by
  induction ts generalizing t d with
  | nil => simp [strcat_eq_ok]
  | cons t' ts ih =>
    have hlen : (d ++ t).length + (t' :: ts).flatten.length = d.length + (t :: t' :: ts).flatten.length := by
      simp [Nat.add_assoc]
    have hout : d ++ t ++ (t' :: ts).flatten = d ++ (t :: t' :: ts).flatten := by simp
    rw [foldlM_cons_ok]
    refine ⟨?_, ?_⟩
    · rintro ⟨d', hd, h⟩
      obtain ⟨_, rfl⟩ := strcat_eq_ok.1 hd
      rwa [ih, hlen, hout] at h
    · intro h
      have hd : d.length + t.length < n := by
        have := h.1
        simp only [List.flatten_cons, List.length_append] at this
        omega
      refine ⟨d ++ t, strcat_eq_ok.2 ⟨hd, rfl⟩, ?_⟩
      rwa [ih, hlen, hout]

/-! ## The text that comes out -/

theorem replace_eq_ok {sprintf : Sprintf} {destr sql out : List UInt8} {totalCount : Nat} {vs : List SqlArg}
    (hvs : vs.length = placeholders sql) (hc2 : c2 ∈ sql) :
    replace sprintf destr sql totalCount (setVals (scan 0 sql) vs) = .ok out ↔
      (segments sql).1.length < szbufSize ∧ (∀ g ∈ (segments sql).2, g.length < szbufSize) ∧
      ∃ ts, renderAll sprintf [] ((pairs sql vs).map fun p => (p.1, p.2.val)) = .ok ts ∧
        destr.length + ((segments sql).1 :: ts).flatten.length < totalCount ∧
        out = destr ++ ((segments sql).1 :: ts).flatten := by
  have hentries : percentArgs (setVals (scan 0 sql) vs) = entries (segments sql).1.length (pairs sql vs) := by
    have := @percentArgs_scan 0 sql vs hvs.ge
    rwa [Nat.zero_add] at this
  have hstarts : (infoVec (setVals (scan 0 sql) vs)).map TmpInfo.pStart = starts (segments sql).1.length (segments sql).2 := by
    rw [infoVec_pStart, hentries, entries_pStart, pairs_fst hvs.ge]
  have hzip : (segments sql).2.zip ((pairs sql vs).map fun p => p.2.val) = (pairs sql vs).map fun p => (p.1, p.2.val) := by
    rw [← pairs_fst hvs.ge, List.zip_map']
  have hhead : (starts (segments sql).1.length (segments sql).2).headI = (segments sql).1.length := by
    cases hgs : (segments sql).2 with
    | nil => exact absurd hc2 (segments_eq_nil.1 hgs)
    | cons g gs => rfl
  have hfirst : ∀ piece, copyPiece sql (segments sql).1.length = .ok piece ↔
      (segments sql).1.length < szbufSize ∧ piece = (segments sql).1 := fun piece => by
    have := @copyPiece_eq_ok (segments sql).1 (segments sql).2.flatten piece
    rwa [segments_flatten] at this
  have hcut : ∀ pieces, cut sql (starts (segments sql).1.length (segments sql).2) = .ok pieces ↔
      (∀ g ∈ (segments sql).2, g.length < szbufSize) ∧ pieces = (segments sql).2 := fun pieces => by
    have := @cut_eq_ok (segments sql).1 (segments sql).2 pieces
    rwa [segments_flatten] at this
  unfold replace
  simp only [hstarts, hhead, infoVec_val, hentries, entries_val, bind_eq_ok, hfirst, hcut, foldlM_strcat]
  simp only [and_assoc, exists_and_left, exists_eq_left, hzip]

/-- Renderings that are strings are what `renderAll` makes of them. -/
theorem map_ofBytes {rs : List (List UInt8)} (h : ∀ r ∈ rs, 0 ∉ r) : (rs.map fun r => (CStr.ofBytes r).chars) = rs := by
  have hid : ∀ r ∈ rs, (CStr.ofBytes r).chars = id r := fun r hr => CStr.chars_ofBytes_of (h r hr)
  rw [List.map_congr_left hid, List.map_id]

theorem nul_not_mem_segments {sql : CStr} : 0 ∉ (segments sql.chars).1 := fun h => by
  refine sql.nul ?_
  rw [← @segments_flatten sql.chars]
  exact List.mem_append_left _ h

/-- The text is the expected one only if nothing lies in `destr` and no rendering is cut off at a NUL. -/
theorem eq_expected {destr sql : CStr} {rs : List (List UInt8)}
    (h : destr.chars ++ ((segments sql.chars).1 :: rs.map fun r => (CStr.ofBytes r).chars).flatten =
      (segments sql.chars).1 ++ rs.flatten) : destr.chars = [] ∧ ∀ r ∈ rs, 0 ∉ r := by
  have hnul : ∀ r ∈ rs, 0 ∉ r := fun r hr h0 => by
    have hmem : 0 ∈ (segments sql.chars).1 ++ rs.flatten := List.mem_append_right _ (List.mem_flatten_of_mem hr h0)
    rw [← h] at hmem
    simp only [List.mem_append, List.flatten_cons, List.mem_flatten, List.mem_map] at hmem
    rcases hmem with hmem | hmem | ⟨_, ⟨r', _, rfl⟩, hmem⟩
    · exact destr.nul hmem
    · exact nul_not_mem_segments hmem
    · exact (CStr.ofBytes r').nul hmem
  rw [map_ofBytes hnul, List.flatten_cons] at h
  exact ⟨List.append_left_eq_self.1 h, hnul⟩

theorem replace_iff_fits {sprintf : Sprintf} {destr sql : CStr} {totalCount : Nat} {vs : List SqlArg}
    (hvs : vs.length = placeholders sql.chars) (hc2 : c2 ∈ sql.chars) :
    (∃ out, replace sprintf destr.chars sql.chars totalCount (setVals (scan 0 sql.chars) vs) = .ok out ∧
      some out = expected sprintf sql.chars vs) ↔ Fits sprintf destr sql totalCount vs := by
  refine ⟨?_, ?_⟩
  · rintro ⟨out, hrun, heq⟩
    obtain ⟨hfirst, hpieces, ts, hts, hlen, rfl⟩ := (replace_eq_ok hvs hc2).1 hrun
    obtain ⟨rs, hrs, heq⟩ := Option.bind_eq_some_iff.1 heq.symm
    obtain ⟨hshort, rfl⟩ := (renderAll_eq_ok hrs).1 hts
    obtain ⟨hempty, hnul⟩ := eq_expected (Option.some.inj heq).symm
    rw [map_ofBytes hnul, hempty] at hlen
    exact ⟨hempty, hfirst, hpieces, rs, hrs, fun r hr => ⟨hshort r hr, hnul r hr⟩, by simpa using hlen⟩
  · rintro ⟨hempty, hfirst, hpieces, rs, hrs, hr, hlen⟩
    have hmap := map_ofBytes fun r h => (hr r h).2
    refine ⟨(segments sql.chars).1 ++ rs.flatten, (replace_eq_ok hvs hc2).2 ⟨hfirst, hpieces, rs, ?_, ?_, ?_⟩, ?_⟩
    · exact (renderAll_eq_ok hrs).2 ⟨fun r h => (hr r h).1, hmap.symm⟩
    · simpa [hempty] using hlen
    · simp [hempty]
    · simp [expected, hrs]

/-- Without a `%` the text is copied. -/
theorem expected_of_not_mem {sprintf : Sprintf} {sql : List UInt8} {vs : List SqlArg} (h : c2 ∉ sql) :
    expected sprintf sql vs = some sql := by
  have hgs : (segments sql).2 = [] := segments_eq_nil.2 h
  have hpre : (segments sql).1 = sql := by simpa [hgs] using @segments_flatten sql
  simp [expected, renderings, pairs, hgs, hpre, matched]

/-- `sprintf(szbuf, "%s", str)`. -/
def sprintfString : Sprintf
  | [37, 115], .pStr s => some s.chars
  | _, _ => none

end DBAccess
