/-
Queries of MySQL (DB/MysqlAccess.cpp).

`Query` reads the lengths of the columns before it fetches a row, where
`mysql_fetch_lengths` gives NULL, and never empties `lstFields`, so that each
row list begins with the fields of the rows before it. The prepared `Query`
puts the buffers of all columns into entry 1 of `pOutBind`, and what it fetches
into a list that is dropped.
-/
import XFramework.DB.DBAccess

open Fallible

/-- The types that `Query` has a case for, and the others. -/
inductive enum_field_types
  | MYSQL_TYPE_SHORT
  | MYSQL_TYPE_LONG
  | MYSQL_TYPE_LONGLONG
  | MYSQL_TYPE_FLOAT
  | MYSQL_TYPE_DOUBLE
  | MYSQL_TYPE_VARCHAR
  | MYSQL_TYPE_STRING
  | MYSQL_TYPE_VAR_STRING
  | MYSQL_TYPE_BLOB
  | MYSQL_TYPE_LONG_BLOB
  | MYSQL_TYPE_TIME
  | MYSQL_TYPE_DATE
  | MYSQL_TYPE_DATETIME
  | other (type : Nat)
  deriving DecidableEq

structure MYSQL_FIELD where
  name : String
  type : enum_field_types
  deriving DecidableEq

/-- What `mysql_store_result` gives. `lengths` is what `mysql_fetch_lengths` gives before the first row is fetched; a cell of
a row is NULL or bytes with a NUL behind them. -/
structure MYSQL_RES where
  fields : List MYSQL_FIELD
  lengths : Option (List Nat)
  rows : List (List (Option (List UInt8)))
  cells : ∀ row ∈ rows, row.length = fields.length

/-- A read at NULL or beyond what lies there, a write beyond what was allocated, or a number that is not of its type. -/
inductive QueryFault
  | badRead
  | overflow
  | range
  | format (f : FormatFault)
  deriving DecidableEq

namespace MysqlAccess

structure mysqlFieldinfo where
  name : String
  type : enum_field_types
  len : Nat
  deriving DecidableEq

/-- The loop over the columns; `lengths` is what lies at `pLengths`, which is nothing at NULL. -/
def collectInfos : List MYSQL_FIELD → List Nat → Except QueryFault (List mysqlFieldinfo)
  | [], _ => .ok []
  | _ :: _, [] => .error .badRead
  | field :: fields, len :: lengths => do
    let infos ← collectInfos fields lengths
    .ok (⟨field.name, field.type, len⟩ :: infos)

/-- `strcpy` into an allocation of `len + 1` bytes. -/
def copyString (len : Nat) (cell : List UInt8) : Except QueryFault CStr :=
  if len < (CStr.ofBytes cell).strlen then .error .overflow else .ok (CStr.ofBytes cell)

/-- `memcpy` of `len` bytes. -/
def copyBlob (len : Nat) (cell : List UInt8) : Except QueryFault (List UInt8) :=
  if cell.length + 1 < len then .error .badRead else .ok ((cell ++ [0]).take len)

/-- `row[i]`, read as a text. -/
def text : Option (List UInt8) → Except QueryFault (List UInt8)
  | none => .error .badRead
  | some cell => .ok cell

def inRange : Option Int → Except QueryFault Int
  | none => .error .range
  | some n => .ok n

variable (atof : List UInt8 → UInt64)

/-- The value of the column; a date keeps what `tmpFields` has of the column before. -/
def convert (tmpFields : DBField) (info : mysqlFieldinfo) (cell : Option (List UInt8)) : Except QueryFault DBField :=
  match info.type with
  | .MYSQL_TYPE_SHORT | .MYSQL_TYPE_LONG => do
    let n ← inRange (atoi (← text cell))
    .ok { tmpFields with fieldType := .DT_INT, ptr := .nInt32 n }
  | .MYSQL_TYPE_LONGLONG => do
    let n ← inRange (atoll (← text cell))
    .ok { tmpFields with fieldType := .DT_INT64, ptr := .nInt64 n }
  | .MYSQL_TYPE_FLOAT | .MYSQL_TYPE_DOUBLE => do
    let s ← text cell
    .ok { tmpFields with fieldType := .DT_DOUBLE, ptr := .lfDouble (atof s) }
  | .MYSQL_TYPE_VARCHAR | .MYSQL_TYPE_STRING | .MYSQL_TYPE_VAR_STRING => do
    let s ← copyString info.len (← text cell)
    .ok { tmpFields with fieldType := .DT_STRING, memType := 0, ptr := .pStr s }
  | .MYSQL_TYPE_BLOB | .MYSQL_TYPE_LONG_BLOB => do
    let bytes ← copyBlob info.len (← text cell)
    .ok { tmpFields with fieldType := .DT_BLOB, memType := 0, ptr := .pBlob bytes }
  | .MYSQL_TYPE_TIME | .MYSQL_TYPE_DATE | .MYSQL_TYPE_DATETIME | .other _ => .ok tmpFields

/-- One column: `tmpFields` and `lstFields` afterwards. -/
def readColumn (s : DBField × List DBField) (column : mysqlFieldinfo × Option (List UInt8)) :
    Except QueryFault (DBField × List DBField) := do
  let tmpFields ← convert atof { s.1 with fieldName := column.1.name, len := column.1.len } column.1 column.2
  .ok (tmpFields, s.2 ++ [tmpFields])

/-- One row: `lstFields` and `result` afterwards. -/
def readRow (fieldInfos : List mysqlFieldinfo) (s : List DBField × List (List DBField)) (row : List (Option (List UInt8))) :
    Except QueryFault (List DBField × List (List DBField)) := do
  let columns ← (fieldInfos.zip row).foldlM (readColumn atof) (.new, s.1)
  .ok (columns.2, s.2 ++ [columns.2])

/-- `nQuery` and `SqlResult` are what `mysql_query` and `mysql_store_result` give. -/
def query (isValidConnect : Bool) (nQuery : Int) (SqlResult : Option MYSQL_RES) (result : List (List DBField)) :
    Except QueryFault (Int × List (List DBField)) :=
  if ¬isValidConnect then .ok (-1, result)
  else if nQuery ≠ 0 then .ok (-2, result)
  else
    match SqlResult with
    | none => .error .badRead
    | some res => do
      let fieldInfos ← collectInfos res.fields (res.lengths.getD [])
      let rows ← res.rows.foldlM (readRow atof fieldInfos) ([], result)
      .ok (0, rows.2)

/-! ## What `Query` should append -/

/-- The type of the field for a numeric or a string column. -/
def fieldType : enum_field_types → Option DBFieldType
  | .MYSQL_TYPE_SHORT | .MYSQL_TYPE_LONG => some .DT_INT
  | .MYSQL_TYPE_LONGLONG => some .DT_INT64
  | .MYSQL_TYPE_FLOAT | .MYSQL_TYPE_DOUBLE => some .DT_DOUBLE
  | .MYSQL_TYPE_VARCHAR | .MYSQL_TYPE_STRING | .MYSQL_TYPE_VAR_STRING => some .DT_STRING
  | _ => none

/-- A table of numbers and strings without a NULL. -/
structure Table where
  fields : List MYSQL_FIELD
  rows : List (List (List UInt8))
  cells : ∀ row ∈ rows, row.length = fields.length
  supported : ∀ f ∈ fields, (fieldType f.type).isSome

/-- The result set of the table. -/
def Table.res (t : Table) (lengths : Option (List Nat)) : MYSQL_RES where
  fields := t.fields
  lengths := lengths
  rows := t.rows.map fun row => row.map some
  cells := fun row hrow => by
    obtain ⟨cells, hcells, rfl⟩ := List.mem_map.1 hrow
    simpa using t.cells cells hcells

/-- The field has the value of the cell. -/
structure Holds (column : MYSQL_FIELD × List UInt8) (field : DBField) : Prop where
  name : field.fieldName = column.1.name
  type : some field.fieldType = fieldType column.1.type
  value : match field.fieldType with
    | .DT_INT => field.ptr = .nInt32 (number column.2)
    | .DT_INT64 => field.ptr = .nInt64 (number column.2)
    | .DT_DOUBLE => field.ptr = .lfDouble (atof column.2)
    | .DT_STRING => ∃ s, field.ptr = .pStr s ∧ s.chars = column.2
    | .DT_BLOB => False

/-- `Query` appends a list for each row, and the list has a field for each column. -/
def ReturnsTable (t : Table) (lengths : Option (List Nat)) (result : List (List DBField)) : Prop :=
  ∃ lists, query atof true 0 (some (t.res lengths)) result = .ok (0, result ++ lists) ∧
    List.Forall₂ (fun row lst => List.Forall₂ (Holds atof) (t.fields.zip row) lst) t.rows lists

/-- The number is of the type, or the string is one of C that is not longer than `len`. -/
def CellFits (column : MYSQL_FIELD × List UInt8) (len : Nat) : Prop :=
  match fieldType column.1.type with
  | some .DT_INT => (atoi column.2).isSome
  | some .DT_INT64 => (atoll column.2).isSome
  | some .DT_STRING => 0 ∉ column.2 ∧ column.2.length ≤ len
  | _ => True

/-- There are no columns, or there are the lengths, and not more than one row that fits. -/
def ReturnsWhen (t : Table) (lengths : Option (List Nat)) : Prop :=
  t.fields = [] ∨ ∃ ls, lengths = some ls ∧ t.fields.length ≤ ls.length ∧ t.rows.length ≤ 1 ∧
    ∀ row ∈ t.rows, List.Forall₂ CellFits (t.fields.zip row) (ls.take t.fields.length)

/-! ## The columns of one row -/

theorem collectInfos_eq_ok {fields : List MYSQL_FIELD} {lengths : List Nat} {infos : List mysqlFieldinfo} :
    collectInfos fields lengths = .ok infos ↔ fields.length ≤ lengths.length ∧
      infos = List.zipWith (fun f len => ⟨f.name, f.type, len⟩) fields lengths := by
  induction fields generalizing lengths infos with
  | nil => simp [collectInfos, eq_comm]
  | cons f fields ih =>
    cases lengths with
    | nil => simp [collectInfos]
    | cons len lengths =>
      simp only [collectInfos, bind_eq_ok, ih]
      simp [eq_comm (b := infos)]

theorem copyString_eq_ok {len : Nat} {cell : List UInt8} {s : CStr} :
    copyString len cell = .ok s ↔ (CStr.ofBytes cell).strlen ≤ len ∧ s = CStr.ofBytes cell := by
  unfold copyString
  split_ifs with h
  · simp; omega
  · have : (CStr.ofBytes cell).strlen ≤ len := by omega
    simp [this, eq_comm]

theorem fieldType_ne_blob {type : enum_field_types} : fieldType type ≠ some .DT_BLOB := by
  cases type <;> simp [fieldType]

theorem convert_text {tmp : DBField} {info : mysqlFieldinfo} {cell : List UInt8} :
    convert atof tmp info (some cell) = match fieldType info.type with
      | some .DT_INT => (inRange (atoi cell)).map fun n => { tmp with fieldType := .DT_INT, ptr := .nInt32 n }
      | some .DT_INT64 => (inRange (atoll cell)).map fun n => { tmp with fieldType := .DT_INT64, ptr := .nInt64 n }
      | some .DT_DOUBLE => .ok { tmp with fieldType := .DT_DOUBLE, ptr := .lfDouble (atof cell) }
      | some .DT_STRING => (copyString info.len cell).map fun s => { tmp with fieldType := .DT_STRING, memType := 0, ptr := .pStr s }
      | _ => convert atof tmp info (some cell) := by
  obtain ⟨name, type, len⟩ := info
  cases type <;> rfl

/-- The string arrives as it is just if it has no NUL and is not longer than `len`. -/
theorem copyString_chars {len : Nat} {cell : List UInt8} :
    (∃ s, copyString len cell = .ok s ∧ s.chars = cell) ↔ 0 ∉ cell ∧ cell.length ≤ len := by
  simp only [copyString_eq_ok]
  refine ⟨?_, ?_⟩
  · rintro ⟨s, ⟨hlen, rfl⟩, hs⟩
    have hnul := (CStr.ofBytes cell).nul
    rw [CStr.strlen, hs] at hlen
    rw [hs] at hnul
    exact ⟨hnul, hlen⟩
  · rintro ⟨hnul, hlen⟩
    have hs := CStr.chars_ofBytes_of hnul
    refine ⟨CStr.ofBytes cell, ⟨?_, rfl⟩, hs⟩
    rwa [CStr.strlen, hs]

/-- The cell arrives as it is just if it fits. -/
theorem convert_holds {f : MYSQL_FIELD} {len : Nat} {cell : List UInt8} {tmp : DBField} (hsup : (fieldType f.type).isSome)
    (hname : tmp.fieldName = f.name) :
    (∃ field, convert atof tmp ⟨f.name, f.type, len⟩ (some cell) = .ok field ∧ Holds atof (f, cell) field) ↔
      CellFits (f, cell) len := by
  obtain ⟨type, htype⟩ := Option.isSome_iff_exists.1 hsup
  rw [convert_text]
  unfold CellFits
  simp only [htype]
  cases type with
  | DT_INT =>
    cases hn : atoi cell with
    | none => simp [inRange, Except.map]
    | some n => simpa [inRange, Except.map] using ⟨hname, htype.symm, congrArg FieldPtr.nInt32 (numberOf_eq hn)⟩
  | DT_INT64 =>
    cases hn : atoll cell with
    | none => simp [inRange, Except.map]
    | some n => simpa [inRange, Except.map] using ⟨hname, htype.symm, congrArg FieldPtr.nInt64 (numberOf_eq hn)⟩
  | DT_DOUBLE => simpa using ⟨hname, htype.symm, rfl⟩
  | DT_STRING =>
    rw [← copyString_chars]
    refine ⟨?_, ?_⟩
    · rintro ⟨field, hfield, hholds⟩
      cases hs : copyString len cell with
      | error e => simp [hs, Except.map] at hfield
      | ok s =>
        rw [hs] at hfield
        cases hfield
        obtain ⟨s', hptr, hchars⟩ := hholds.value
        cases hptr
        exact ⟨s, rfl, hchars⟩
    · rintro ⟨s, hs, hchars⟩
      simp only [hs, Except.map]
      exact ⟨_, rfl, hname, htype.symm, s, rfl, hchars⟩
  | DT_BLOB => exact absurd htype fieldType_ne_blob

theorem readColumn_eq_ok {s s' : DBField × List DBField} {info : mysqlFieldinfo} {cell : Option (List UInt8)} :
    readColumn atof s (info, cell) = .ok s' ↔
      ∃ field, convert atof { s.1 with fieldName := info.name, len := info.len } info cell = .ok field ∧
        s' = (field, s.2 ++ [field]) := by
  simp [readColumn, bind_eq_ok, eq_comm (b := s')]

/-- A row puts as many fields behind those that are there as there are columns. -/
theorem readColumns_append {columns : List (mysqlFieldinfo × Option (List UInt8))} {s s' : DBField × List DBField}
    (h : columns.foldlM (readColumn atof) s = .ok s') : ∃ lst, s'.2 = s.2 ++ lst ∧ lst.length = columns.length := by
  induction columns generalizing s with
  | nil =>
    cases foldlM_nil_ok.1 h
    exact ⟨[], by simp⟩
  | cons column columns ih =>
    obtain ⟨t, ht, h⟩ := foldlM_cons_ok.1 h
    obtain ⟨field, _, rfl⟩ := (readColumn_eq_ok atof).1 ht
    obtain ⟨lst, hlst, hlen⟩ := ih h
    exact ⟨field :: lst, by simpa using hlst, by simpa using hlen⟩

/-- A row is read as it is just if its cells fit. -/
theorem readColumns_holds {fields : List MYSQL_FIELD} {lengths : List Nat} {row : List (List UInt8)}
    {s : DBField × List DBField} (hlen : fields.length ≤ lengths.length) (hrow : row.length = fields.length)
    (hsup : ∀ f ∈ fields, (fieldType f.type).isSome) :
    (∃ tmp lst, ((List.zipWith (fun f len => ⟨f.name, f.type, len⟩) fields lengths).zip (row.map some)).foldlM
        (readColumn atof) s = .ok (tmp, s.2 ++ lst) ∧ List.Forall₂ (Holds atof) (fields.zip row) lst) ↔
      List.Forall₂ CellFits (fields.zip row) (lengths.take fields.length) := by
  induction fields generalizing lengths row s with
  | nil =>
    simp only [List.zipWith_nil_left, List.zip_nil_left, foldlM_nil_ok, List.length_nil, List.take_zero]
    exact ⟨fun _ => .nil, fun _ => ⟨s.1, [], by simp, .nil⟩⟩
  | cons f fields ih =>
    obtain ⟨len, lengths, rfl⟩ : ∃ len ls, lengths = len :: ls := List.exists_cons_of_length_pos (by simp at hlen; omega)
    obtain ⟨cell, row, rfl⟩ : ∃ cell cs, row = cell :: cs := List.exists_cons_of_length_pos (by simp at hrow; omega)
    simp only [List.length_cons, Nat.add_le_add_iff_right, Nat.add_right_cancel_iff] at hlen hrow
    have hsup' : ∀ g ∈ fields, (fieldType g.type).isSome := fun g hg => hsup g (List.mem_cons_of_mem _ hg)
    have hconv := @convert_holds atof f len cell { s.1 with fieldName := f.name, len := len } (hsup f List.mem_cons_self) rfl
    simp only [List.zipWith_cons_cons, List.zip_cons_cons, List.map_cons, List.length_cons, List.take_succ_cons,
      List.forall₂_cons, ← hconv]
    refine ⟨?_, ?_⟩
    · rintro ⟨tmp, lst, hrun, hall⟩
      obtain ⟨t, ht, hrun⟩ := foldlM_cons_ok.1 hrun
      obtain ⟨field, hfield, rfl⟩ := (readColumn_eq_ok atof).1 ht
      obtain ⟨rest, hrest, -⟩ := readColumns_append atof hrun
      have hlst : lst = field :: rest := by simpa using hrest
      rw [hlst] at hrun hall
      obtain ⟨hhead, htail⟩ := List.forall₂_cons.1 hall
      exact ⟨⟨field, hfield, hhead⟩, (@ih lengths row (field, s.2 ++ [field]) hlen hrow hsup').1 ⟨tmp, rest, by simpa using hrun, htail⟩⟩
    · rintro ⟨⟨field, hfield, hhead⟩, htail⟩
      obtain ⟨tmp, rest, hrun, hrest⟩ := (@ih lengths row (field, s.2 ++ [field]) hlen hrow hsup').2 htail
      refine ⟨tmp, field :: rest, foldlM_cons_ok.2 ⟨_, (readColumn_eq_ok atof).2 ⟨field, hfield, rfl⟩, ?_⟩, ?_⟩
      · simpa using hrun
      · exact List.forall₂_cons.2 ⟨hhead, hrest⟩

/-! ## The rows -/

theorem readRow_eq_ok {infos : List mysqlFieldinfo} {s s' : List DBField × List (List DBField)}
    {row : List (Option (List UInt8))} :
    readRow atof infos s row = .ok s' ↔
      ∃ tmp lst, (infos.zip row).foldlM (readColumn atof) (.new, s.1) = .ok (tmp, lst) ∧ s' = (lst, s.2 ++ [lst]) := by
  simp [readRow, bind_eq_ok, eq_comm (b := s')]

/-- The list of a row has its own fields behind those of all rows before it. -/
theorem readRows_length {infos : List mysqlFieldinfo} {rows : List (List (Option (List UInt8)))}
    {s s' : List DBField × List (List DBField)} (hrows : ∀ row ∈ rows, row.length = infos.length)
    (h : rows.foldlM (readRow atof infos) s = .ok s') :
    ∃ lists, s'.2 = s.2 ++ lists ∧ lists.length = rows.length ∧
      ∀ i lst, lists[i]? = some lst → lst.length = s.1.length + (i + 1) * infos.length := by
  induction rows generalizing s with
  | nil =>
    cases foldlM_nil_ok.1 h
    exact ⟨[], by simp⟩
  | cons row rows ih =>
    obtain ⟨t, ht, h⟩ := foldlM_cons_ok.1 h
    obtain ⟨tmp, lst, hrun, rfl⟩ := (readRow_eq_ok atof).1 ht
    obtain ⟨fs, hfs, hlen⟩ := readColumns_append atof hrun
    have hlst : lst.length = s.1.length + infos.length := by
      have hrow := hrows row List.mem_cons_self
      have hfs : lst = s.1 ++ fs := hfs
      rw [hfs, List.length_append, hlen, List.length_zip, hrow, Nat.min_self]
    obtain ⟨lists, hlists, hcount, hlengths⟩ := ih (fun r hr => hrows r (List.mem_cons_of_mem _ hr)) h
    refine ⟨lst :: lists, by simpa using hlists, by simpa using hcount, fun i l hl => ?_⟩
    cases i with
    | zero =>
      cases hl
      simpa using hlst
    | succ i =>
      have := hlengths i l (by simpa using hl)
      rw [this, hlst, Nat.add_assoc, Nat.add_comm infos.length, ← Nat.succ_mul]

/-- Without columns each row gives an empty list. -/
theorem readRows_nil {rows : List (List (Option (List UInt8)))} {result : List (List DBField)} :
    rows.foldlM (readRow atof []) ([], result) = .ok ([], result ++ rows.map fun _ => []) := by
  induction rows generalizing result with
  | nil => exact foldlM_nil_ok.2 (by simp)
  | cons row rows ih =>
    have hrow : readRow atof [] ([], result) row = .ok ([], result ++ [[]]) := rfl
    refine foldlM_cons_ok.2 ⟨_, hrow, ?_⟩
    rw [ih]
    simp

theorem query_eq_ok {t : Table} {lengths : Option (List Nat)} {result lists : List (List DBField)} :
    query atof true 0 (some (t.res lengths)) result = .ok (0, result ++ lists) ↔
      t.fields.length ≤ (lengths.getD []).length ∧ ∃ lstFields,
        (t.rows.map fun row => row.map some).foldlM
          (readRow atof (List.zipWith (fun f len => ⟨f.name, f.type, len⟩) t.fields (lengths.getD []))) ([], result) =
            .ok (lstFields, result ++ lists) := by
  simp [query, bind_eq_ok, collectInfos_eq_ok, Table.res, and_assoc]

/-- More than one row of a table with columns does not come out right: the second list has the fields of the first as well. -/
theorem rows_length_le {t : Table} {lengths : Option (List Nat)} {result lists : List (List DBField)}
    (hfields : t.fields ≠ []) (h : query atof true 0 (some (t.res lengths)) result = .ok (0, result ++ lists))
    (hholds : List.Forall₂ (fun row lst => List.Forall₂ (Holds atof) (t.fields.zip row) lst) t.rows lists) :
    t.rows.length ≤ 1 := by
  obtain ⟨hlen, lstFields, hrun⟩ := (query_eq_ok atof).1 h
  have hinfos : ∀ ls : List Nat, t.fields.length ≤ ls.length →
      (List.zipWith (fun f len => (⟨f.name, f.type, len⟩ : mysqlFieldinfo)) t.fields ls).length = t.fields.length :=
    fun ls hls => by rw [List.length_zipWith, Nat.min_eq_left hls]
  obtain ⟨lists', hlists, -, hlengths⟩ := readRows_length atof
    (fun row hrow => ((t.res lengths).cells row hrow).trans (hinfos _ hlen).symm) hrun
  have heq : lists = lists' := List.append_cancel_left hlists
  subst heq
  by_contra hcount
  obtain ⟨row₁, row₂, rows, hrows⟩ : ∃ a b l, t.rows = a :: b :: l := by
    match hrows : t.rows with
    | [] => simp [hrows] at hcount
    | [a] => simp [hrows] at hcount
    | a :: b :: l => exact ⟨a, b, l, rfl⟩
  rw [hrows] at hholds
  obtain ⟨lst₁, rest, -, hrest, rfl⟩ := List.forall₂_cons_left_iff.1 hholds
  obtain ⟨lst₂, rest, hlst₂, -, rfl⟩ := List.forall₂_cons_left_iff.1 hrest
  have htwice := hlengths 1 lst₂ rfl
  have hrow₂ := t.cells row₂ (by simp [hrows])
  have honce := hlst₂.length_eq
  rw [List.length_zip, hrow₂, Nat.min_self] at honce
  rw [hinfos _ hlen, ← honce, List.length_nil] at htwice
  have := List.length_pos_iff.2 hfields
  omega

theorem returnsTable_nil {t : Table} {lengths : Option (List Nat)} {result : List (List DBField)} (hfields : t.fields = []) :
    ReturnsTable atof t lengths result := by
  refine ⟨t.rows.map fun _ => [], (query_eq_ok atof).2 ⟨by simp [hfields], [], ?_⟩, ?_⟩
  · have hrows := @readRows_nil atof (t.rows.map fun row => row.map some) result
    rw [List.map_map] at hrows
    rw [hfields]
    exact hrows
  · simp only [hfields, List.zip_nil_left, List.forall₂_map_right_iff, List.forall₂_same]
    exact fun _ _ => .nil

theorem returnsTable_empty {t : Table} {lengths : Option (List Nat)} {result : List (List DBField)} (hrows : t.rows = [])
    (hlen : t.fields.length ≤ (lengths.getD []).length) : ReturnsTable atof t lengths result := by
  refine ⟨[], (query_eq_ok atof).2 ⟨hlen, [], ?_⟩, ?_⟩
  · rw [hrows]
    exact foldlM_nil_ok.2 (by simp)
  · simp [hrows]

theorem returnsTable_row {t : Table} {lengths : Option (List Nat)} {result : List (List DBField)} {row : List (List UInt8)}
    (hrows : t.rows = [row]) (hlen : t.fields.length ≤ (lengths.getD []).length) :
    ReturnsTable atof t lengths result ↔ List.Forall₂ CellFits (t.fields.zip row) ((lengths.getD []).take t.fields.length) := by
  have hrow : row.length = t.fields.length := t.cells row (by simp [hrows])
  rw [← @readColumns_holds atof t.fields (lengths.getD []) row (.new, []) hlen hrow t.supported]
  refine ⟨?_, ?_⟩
  · rintro ⟨lists, hquery, hholds⟩
    obtain ⟨-, lstFields, hrun⟩ := (query_eq_ok atof).1 hquery
    rw [hrows] at hrun hholds
    obtain ⟨lst, rest, hlst, hrest, rfl⟩ := List.forall₂_cons_left_iff.1 hholds
    obtain rfl := List.forall₂_nil_left_iff.1 hrest
    obtain ⟨s, hs, hnil⟩ := foldlM_cons_ok.1 hrun
    obtain ⟨tmp, lst', hcolumns, rfl⟩ := (readRow_eq_ok atof).1 hs
    have heq : lst' = lst := by simpa using congrArg Prod.snd (foldlM_nil_ok.1 hnil)
    subst heq
    exact ⟨tmp, lst', hcolumns, hlst⟩
  · rintro ⟨tmp, lst, hcolumns, hlst⟩
    refine ⟨[lst], (query_eq_ok atof).2 ⟨hlen, lst, ?_⟩, ?_⟩
    · rw [hrows]
      exact foldlM_cons_ok.2 ⟨_, (readRow_eq_ok atof).2 ⟨tmp, lst, hcolumns, rfl⟩, rfl⟩
    · rw [hrows]
      exact .cons hlst .nil

/-- Without the lengths there is no field at all that `Query` can make; had it the lengths, it would still be right for one
row only. -/
theorem returnsTable_iff (t : Table) (lengths : Option (List Nat)) (result : List (List DBField)) :
    ReturnsTable atof t lengths result ↔ ReturnsWhen t lengths := by
  refine ⟨?_, ?_⟩
  · rintro ⟨lists, hquery, hholds⟩
    by_cases hfields : t.fields = []
    · exact .inl hfields
    have hcount := rows_length_le atof hfields hquery hholds
    have hlen := ((query_eq_ok atof).1 hquery).1
    cases lengths with
    | none => exact absurd (List.length_eq_zero_iff.1 (Nat.le_zero.1 hlen)) hfields
    | some ls =>
      refine .inr ⟨ls, rfl, hlen, hcount, fun row hrow => ?_⟩
      obtain ⟨row', hrows⟩ := List.length_eq_one_iff.1 (Nat.le_antisymm hcount (List.length_pos_of_mem hrow))
      obtain rfl := List.mem_singleton.1 (hrows ▸ hrow)
      exact (returnsTable_row atof hrows hlen).1 ⟨lists, hquery, hholds⟩
  · rintro (hfields | ⟨ls, rfl, hlen, hcount, hfits⟩)
    · exact returnsTable_nil atof hfields
    · match hrows : t.rows with
      | [] => exact returnsTable_empty atof hrows hlen
      | [row] => exact (@returnsTable_row atof t (some ls) result row hrows hlen).2 (hfits row (by simp [hrows]))
      | _ :: _ :: _ => simp [hrows] at hcount

/-- One column of the numbers 1 and 2. -/
def oneTwo : Table where
  fields := [⟨"id", .MYSQL_TYPE_LONG⟩]
  rows := [[[49]], [[50]]]
  cells := by decide
  supported := by decide

/-- With NULL for the lengths `Query` reads at NULL, and with the lengths its second list has both numbers. -/
theorem not_returnsTable_two : (¬∀ atof t result, ReturnsTable atof t none result) ∧
    ¬∀ atof t ls result, t.fields.length ≤ ls.length → ReturnsTable atof t (some ls) result := by
  refine ⟨?_, ?_⟩
  · intro h
    obtain ⟨lists, hquery, -⟩ := h (fun _ => 0) oneTwo []
    cases (query_eq_ok _).1 hquery |>.1
  · intro h
    obtain ⟨lists, hquery, hholds⟩ := h (fun _ => 0) oneTwo [1] [] (by decide)
    exact absurd (rows_length_le _ (by decide) hquery hholds) (by decide)

end MysqlAccess
