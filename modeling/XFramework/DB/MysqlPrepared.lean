/-
Prepared queries of MySQL (DB/MysqlAccess.cpp).

`Query` makes a buffer, a length and a null flag for every column, and enters
them into entry 1 of `pOutBind`, whatever the column. Entry 0 never gets a
buffer, and with one column there is no entry 1. The list that is made of a
row is not put into `result`.
-/
import XFramework.DB.MysqlAccess

open Fallible

/-- Where a buffer is: nowhere, in the union `ptr` of a field, or in what that points to. -/
inductive Buffer
  | null
  | field (i : Nat)
  | heap (i : Nat)
  deriving DecidableEq

/-- An entry that is bound; `length` and `is_null` are the places in the arrays that they point into. -/
structure MYSQL_BIND where
  buffer_type : enum_field_types
  buffer : Buffer
  buffer_length : Nat
  length : Option Nat
  is_null : Option Nat
  deriving DecidableEq

/-- `memset(.., 0, sizeof(MYSQL_BIND))`, where 0 is the type of a decimal. -/
def MYSQL_BIND.zero : MYSQL_BIND := ⟨.other 0, .null, 0, none, none⟩

/-- What lies in `pBool` and in `tmpFields` after a `mysql_stmt_fetch` that gives 0. -/
structure Fetched where
  pBool : List Bool
  tmpFields : List DBField
  deriving DecidableEq

/-- What the client library gives for a statement that has columns: `init` and `metadata` say that `mysql_stmt_init` and
`mysql_stmt_result_metadata` are not NULL, `execute` and `fetch` depend on what was bound. -/
structure Statement where
  init : Bool
  prepare : List UInt8 → Int
  param_count : Nat
  metadata : Bool
  fields : List MYSQL_FIELD
  execute : List MYSQL_BIND → Int
  bind_result : List MYSQL_BIND → Int
  store_result : Int
  fetch : List MYSQL_BIND → List Fetched
  columns : fields ≠ []

namespace MysqlAccess

/-- What `Query` comes back with, and what it has passed to `mysql_stmt_bind_result`. -/
structure Run where
  nRet : Int
  result : List (List DBField)
  pOutBind : Option (List MYSQL_BIND)
  deriving DecidableEq

/-- The entry of a parameter; for a string it is the place of the pointer as well. -/
def bindParam (val : DBField) (i : Nat) : MYSQL_BIND :=
  match val.fieldType with
  | .DT_INT => { buffer_type := .MYSQL_TYPE_LONG, buffer := .field i, buffer_length := 4, length := some i, is_null := none }
  | .DT_INT64 =>
    { buffer_type := .MYSQL_TYPE_LONGLONG, buffer := .field i, buffer_length := 8, length := some i, is_null := none }
  | .DT_DOUBLE =>
    { buffer_type := .MYSQL_TYPE_DOUBLE, buffer := .field i, buffer_length := 8, length := some i, is_null := none }
  | .DT_STRING =>
    { buffer_type := .MYSQL_TYPE_STRING, buffer := .field i, buffer_length := val.len, length := some i, is_null := none }
  | .DT_BLOB =>
    { buffer_type := .MYSQL_TYPE_BLOB, buffer := .field i, buffer_length := val.len, length := some i, is_null := none }

/-- `resVec`, bound. -/
def bindParams (args : List DBAccess.ArgType) : List MYSQL_BIND :=
  (args.filter fun a => a.nFlag = 1).zipIdx.map fun p => bindParam p.1.val p.2

/-- `tmpField` for a column. What lies in a buffer before the library writes is not read. -/
def tmpField : enum_field_types → DBField
  | .MYSQL_TYPE_SHORT | .MYSQL_TYPE_LONG => { DBField.new with fieldType := .DT_INT, ptr := .nInt32 0 }
  | .MYSQL_TYPE_LONGLONG => { DBField.new with fieldType := .DT_INT64, ptr := .nInt64 0 }
  | .MYSQL_TYPE_FLOAT | .MYSQL_TYPE_DOUBLE => { DBField.new with fieldType := .DT_DOUBLE, ptr := .lfDouble 0 }
  | .MYSQL_TYPE_VARCHAR | .MYSQL_TYPE_STRING | .MYSQL_TYPE_VAR_STRING =>
    { DBField.new with fieldType := .DT_STRING, memType := 0, len := 1024, ptr := .pStr (.ofBytes []) }
  | .MYSQL_TYPE_BLOB | .MYSQL_TYPE_LONG_BLOB =>
    { DBField.new with fieldType := .DT_BLOB, memType := 0, len := 8 * 1024, ptr := .pBlob [] }
  | .MYSQL_TYPE_TIME | .MYSQL_TYPE_DATE | .MYSQL_TYPE_DATETIME | .other _ => .new

/-- The buffer of column `i`. -/
def buffer (type : enum_field_types) (i : Nat) : Buffer :=
  match (tmpField type).fieldType with
  | .DT_INT | .DT_INT64 | .DT_DOUBLE => .field i
  | .DT_STRING | .DT_BLOB => .heap i

/-- What the loop writes for column `i`: the type into entry `i`, the rest into entry 1. -/
def bindColumn (pOutBind : List MYSQL_BIND) (column : enum_field_types × Nat) : Except QueryFault (List MYSQL_BIND) :=
  if pOutBind.length ≤ 1 then .error .overflow
  else .ok ((pOutBind.modify column.2 fun b => { b with buffer_type := column.1 }).modify 1 fun b =>
    { b with
      buffer_length := (tmpField column.1).len
      is_null := some column.2
      length := some column.2
      buffer := buffer column.1 column.2 })

def bindColumns (vecTypes : List enum_field_types) : Except QueryFault (List MYSQL_BIND) :=
  vecTypes.zipIdx.foldlM bindColumn (List.replicate vecTypes.length .zero)

/-- The loop over the columns of a row, until a NULL. -/
def pushFields : List (Bool × DBField) → List DBField → Option (List DBField)
  | [], lstFields => some lstFields
  | (isNull, field) :: columns, lstFields => if isNull then none else pushFields columns (lstFields ++ [field])

/-- The loop over the rows; `lstFields` is gone at the end of each. -/
def fetchRows : List Fetched → List (List DBField) → Int × List (List DBField)
  | [], result => (0, result)
  | row :: rows, result =>
    match pushFields (row.pBool.zip row.tmpFields) [] with
    | none => (7, result)
    | some _ => fetchRows rows result

/-- From `mysql_stmt_bind_result` on. -/
def fetchResult (stmt : Statement) (result : List (List DBField)) (pOutBind : List MYSQL_BIND) : Run :=
  if stmt.bind_result pOutBind ≠ 0 then ⟨5, result, some pOutBind⟩
  else if stmt.store_result ≠ 0 then ⟨6, result, some pOutBind⟩
  else
    let fetched := fetchRows (stmt.fetch pOutBind) result
    ⟨fetched.1, fetched.2, some pOutBind⟩

/-- From `mysql_stmt_init` on. -/
def runStatement (stmt : Statement) (result : List (List DBField)) (pSql : List UInt8) (pBindParam : List MYSQL_BIND) :
    Except QueryFault Run :=
  if ¬stmt.init then .ok ⟨-4, result, none⟩
  else if stmt.prepare pSql ≠ 0 then .ok ⟨1, result, none⟩
  else if stmt.param_count ≠ pBindParam.length then .ok ⟨2, result, none⟩
  else if ¬stmt.metadata then .ok ⟨3, result, none⟩
  else if stmt.execute pBindParam ≠ 0 then .ok ⟨4, result, none⟩
  else do
    let pOutBind ← bindColumns (stmt.fields.map MYSQL_FIELD.type)
    .ok (fetchResult stmt result pOutBind)

variable (sprintf : DBAccess.Sprintf)

/-- `Query` with a list of arguments. -/
def queryPrepared (isValidConnect : Bool) (stmt : Statement) (sql : CStr) (argTypeList : List SqlArg)
    (result : List (List DBField)) : Except QueryFault Run :=
  if ¬isValidConnect then .ok ⟨-1, result, none⟩
  else
    match DBAccess.fromat sprintf (some (.ofBytes [])) sql 1024 argTypeList with
    | .error f => .error (.format f)
    | .ok (none, _) => .error .badRead
    | .ok (some pSql, args) =>
      if (CStr.ofBytes pSql).strlen = 0 then .ok ⟨-2, result, none⟩
      else if args.length ≠ argTypeList.length then .ok ⟨-3, result, none⟩
      else runStatement stmt result pSql (bindParams args)

/-! ## What a prepared query should do -/

/-- Entry `i` has the buffer, the length and the null flag of column `i`. -/
def OwnEntries (vecTypes : List enum_field_types) (pOutBind : List MYSQL_BIND) : Prop :=
  ∀ i type, vecTypes[i]? = some type → ∃ b, pOutBind[i]? = some b ∧ b.buffer = buffer type i ∧ b.length = some i ∧ b.is_null = some i

/-- What is bound are the columns, each in its own entry, and 0 comes back with a list for each row that was fetched. -/
structure Returns (stmt : Statement) (result : List (List DBField)) (run : Run) : Prop where
  bound : ∀ pOutBind, run.pOutBind = some pOutBind → OwnEntries (stmt.fields.map MYSQL_FIELD.type) pOutBind
  rows : run.nRet = 0 → ∃ pOutBind, run.pOutBind = some pOutBind ∧
    run.result = result ++ (stmt.fetch pOutBind).map Fetched.tmpFields

/-- The run comes back from one of the calls before the columns are bound. -/
def StopsBefore (stmt : Statement) (pSql : List UInt8) (pBindParam : List MYSQL_BIND) : Prop :=
  stmt.init = false ∨ stmt.prepare pSql ≠ 0 ∨ stmt.param_count ≠ pBindParam.length ∨ stmt.metadata = false ∨
    stmt.execute pBindParam ≠ 0

/-- There is no connection, or the text of the statement is made, and it is empty or the run stops at one of the calls. -/
def LeavesBefore (isValidConnect : Bool) (stmt : Statement) (sql : CStr) (argTypeList : List SqlArg) : Prop :=
  isValidConnect = true → ∃ pSql args, DBAccess.fromat sprintf (some (.ofBytes [])) sql 1024 argTypeList = .ok (some pSql, args) ∧
    ((CStr.ofBytes pSql).strlen = 0 ∨ args.length ≠ argTypeList.length ∨ StopsBefore stmt pSql (bindParams args))

/-! ## The entries -/

/-- The first entry has no buffer. -/
def FirstNull (pOutBind : List MYSQL_BIND) : Prop := ∀ b, pOutBind[0]? = some b → b.buffer = .null

theorem FirstNull.bindColumn {s t : List MYSQL_BIND} {column : enum_field_types × Nat} (hs : FirstNull s)
    (h : bindColumn s column = .ok t) : FirstNull t := by
  unfold MysqlAccess.bindColumn at h
  split at h
  · cases h
  · cases h
    intro b hb
    simp only [List.getElem?_modify, Option.map_eq_map, Option.map_map, Option.map_eq_some_iff] at hb
    obtain ⟨a, ha, rfl⟩ := hb
    have hnull := hs a ha
    by_cases hi : column.2 = 0
    · simpa [hi] using hnull
    · simpa [hi] using hnull

theorem bindColumns_first {vecTypes : List enum_field_types} {pOutBind : List MYSQL_BIND}
    (h : bindColumns vecTypes = .ok pOutBind) : FirstNull pOutBind := by
  refine foldlM_run FirstNull h (fun b hb => ?_) fun s t a _ hs hstep => hs.bindColumn hstep
  obtain rfl := List.eq_of_mem_replicate (List.mem_of_getElem? hb)
  rfl

theorem buffer_ne_null {type : enum_field_types} {i : Nat} : buffer type i ≠ .null := by
  cases type <;> exact nofun

/-- No column but those of an empty table has its own entry. -/
theorem not_ownEntries {vecTypes : List enum_field_types} {pOutBind : List MYSQL_BIND} (hne : vecTypes ≠ [])
    (h : bindColumns vecTypes = .ok pOutBind) : ¬OwnEntries vecTypes pOutBind := by
  intro hown
  obtain ⟨type, rest, rfl⟩ := List.exists_cons_of_ne_nil hne
  obtain ⟨b, hb, hbuffer, -⟩ := hown 0 type rfl
  exact buffer_ne_null (hbuffer ▸ bindColumns_first h b hb)

/-! ## The run -/

theorem fetchResult_bound {stmt : Statement} {result : List (List DBField)} {pOutBind : List MYSQL_BIND} :
    (fetchResult stmt result pOutBind).pOutBind = some pOutBind := by
  unfold fetchResult
  split_ifs <;> rfl

theorem fetchRows_result {rows : List Fetched} {result : List (List DBField)} : (fetchRows rows result).2 = result := by
  induction rows with
  | nil => rfl
  | cons row rows ih =>
    unfold fetchRows
    split
    · rfl
    · exact ih

/-- Whatever is fetched, `result` stays as it is. -/
theorem fetchResult_result {stmt : Statement} {result : List (List DBField)} {pOutBind : List MYSQL_BIND} :
    (fetchResult stmt result pOutBind).result = result := by
  unfold fetchResult
  split_ifs
  · rfl
  · rfl
  · exact fetchRows_result

theorem runStatement_stops {stmt : Statement} {result : List (List DBField)} {pSql : List UInt8} {pBindParam : List MYSQL_BIND}
    (h : StopsBefore stmt pSql pBindParam) : ∃ n, n ≠ 0 ∧ runStatement stmt result pSql pBindParam = .ok ⟨n, result, none⟩ := by
  unfold runStatement
  split
  · exact ⟨-4, by decide, rfl⟩
  split
  · exact ⟨1, by decide, rfl⟩
  split
  · exact ⟨2, by decide, rfl⟩
  split
  · exact ⟨3, by decide, rfl⟩
  split
  · exact ⟨4, by decide, rfl⟩
  · simp_all [StopsBefore]

theorem runStatement_binds {stmt : Statement} {result : List (List DBField)} {pSql : List UInt8} {pBindParam : List MYSQL_BIND}
    (h : ¬StopsBefore stmt pSql pBindParam) {run : Run} (hrun : runStatement stmt result pSql pBindParam = .ok run) :
    ∃ pOutBind, bindColumns (stmt.fields.map MYSQL_FIELD.type) = .ok pOutBind ∧ run = fetchResult stmt result pOutBind := by
  simp only [StopsBefore, not_or, ne_eq, not_not, Bool.not_eq_false] at h
  obtain ⟨hinit, hprepare, hcount, hmetadata, hexecute⟩ := h
  simpa [runStatement, hinit, hprepare, hcount, hmetadata, hexecute, bind_eq_ok, eq_comm (b := run)] using hrun

/-- A run that binds the columns does not do what it should. -/
theorem not_returns {stmt : Statement} {result : List (List DBField)} {pOutBind : List MYSQL_BIND}
    (h : bindColumns (stmt.fields.map MYSQL_FIELD.type) = .ok pOutBind) :
    ¬Returns stmt result (fetchResult stmt result pOutBind) := fun hreturns =>
  not_ownEntries (fun h => stmt.columns (List.map_eq_nil_iff.1 h)) h (hreturns.bound pOutBind fetchResult_bound)

theorem returns_left {stmt : Statement} {result : List (List DBField)} {n : Int} (hn : n ≠ 0) :
    Returns stmt result ⟨n, result, none⟩ :=
  ⟨nofun, fun h => absurd h hn⟩

theorem runStatement_iff {stmt : Statement} {result : List (List DBField)} {pSql : List UInt8} {pBindParam : List MYSQL_BIND} :
    (∃ run, runStatement stmt result pSql pBindParam = .ok run ∧ Returns stmt result run) ↔ StopsBefore stmt pSql pBindParam := by
  refine ⟨?_, ?_⟩
  · rintro ⟨run, hrun, hreturns⟩
    by_contra h
    obtain ⟨pOutBind, hbinds, rfl⟩ := runStatement_binds h hrun
    exact not_returns hbinds hreturns
  · intro h
    obtain ⟨n, hn, hrun⟩ := @runStatement_stops stmt result pSql pBindParam h
    exact ⟨_, hrun, returns_left hn⟩

theorem queryPrepared_iff (isValidConnect : Bool) (stmt : Statement) (sql : CStr) (argTypeList : List SqlArg)
    (result : List (List DBField)) :
    (∃ run, queryPrepared sprintf isValidConnect stmt sql argTypeList result = .ok run ∧ Returns stmt result run) ↔
      LeavesBefore sprintf isValidConnect stmt sql argTypeList := by
  unfold queryPrepared LeavesBefore
  cases isValidConnect with
  | false => simpa using returns_left (by decide)
  | true =>
    simp only [not_true_eq_false, if_false, true_implies]
    split
    · rename_i hformat
      simp [hformat]
    · rename_i hformat
      simp [hformat]
    · rename_i pSql args hformat
      simp only [hformat]
      split
      · rename_i hempty
        simpa [hempty] using returns_left (by decide)
      split
      · rename_i hargs
        simpa [hargs] using returns_left (by decide)
      · rename_i hempty hargs
        rw [runStatement_iff]
        simp_all

theorem runStatement_result {stmt : Statement} {result : List (List DBField)} {pSql : List UInt8} {pBindParam : List MYSQL_BIND}
    {run : Run} (h : runStatement stmt result pSql pBindParam = .ok run) : run.result = result := by
  by_cases hstop : StopsBefore stmt pSql pBindParam
  · obtain ⟨n, -, hrun⟩ := @runStatement_stops stmt result pSql pBindParam hstop
    cases hrun.symm.trans h
    rfl
  · obtain ⟨pOutBind, -, rfl⟩ := runStatement_binds hstop h
    exact fetchResult_result

/-- No run puts anything into `result`. -/
theorem queryPrepared_result {isValidConnect : Bool} {stmt : Statement} {sql : CStr} {argTypeList : List SqlArg}
    {result : List (List DBField)} {run : Run}
    (h : queryPrepared sprintf isValidConnect stmt sql argTypeList result = .ok run) : run.result = result := by
  unfold queryPrepared at h
  split at h
  · cases h; rfl
  split at h
  · cases h
  · cases h
  · split at h
    · cases h; rfl
    split at h
    · cases h; rfl
    · exact runStatement_result h

/-- Two columns of numbers, and no row. -/
def twoColumns : Statement where
  init := true
  prepare := fun _ => 0
  param_count := 0
  metadata := true
  fields := [⟨"id", .MYSQL_TYPE_LONG⟩, ⟨"count", .MYSQL_TYPE_LONG⟩]
  execute := fun _ => 0
  bind_result := fun _ => 0
  store_result := 0
  fetch := fun _ => []
  columns := nofun

/-- The first of two columns has no buffer. -/
theorem not_returns_two : ¬∀ (sprintf : DBAccess.Sprintf) (stmt : Statement) (sql : CStr) (argTypeList : List SqlArg)
    (result : List (List DBField)),
    ∃ run, queryPrepared sprintf true stmt sql argTypeList result = .ok run ∧ Returns stmt result run := fun h => by
  obtain ⟨run, hrun, hreturns⟩ := h DBAccess.sprintfString twoColumns (.ofBytes [97]) [] []
  have hbound : queryPrepared DBAccess.sprintfString true twoColumns (.ofBytes [97]) [] [] =
      .ok ⟨0, [], some [⟨.MYSQL_TYPE_LONG, .null, 0, none, none⟩, ⟨.MYSQL_TYPE_LONG, .field 1, 0, some 1, some 1⟩]⟩ := by
    decide +kernel
  cases hbound.symm.trans hrun
  obtain ⟨b, hb, hbuffer, -⟩ := hreturns.bound _ rfl 0 .MYSQL_TYPE_LONG rfl
  cases hb
  cases hbuffer

end MysqlAccess
