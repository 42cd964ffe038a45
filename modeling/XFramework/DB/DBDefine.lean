/-
Fields and values (DB/DBDefine.h).

A field has one value, under the member of the union `ptr` that its type
names. `memType` is 0 throughout, so a copy of a field is one of its bytes, and
the destructor does not free what it points to. A copy has the name by value
here; who owns the bytes of a name is left out, and so is `offset`, which
nothing reads.
-/
import XFramework.Lib.CText

inductive DBFieldType
  | DT_INT
  | DT_INT64
  | DT_DOUBLE
  | DT_STRING
  | DT_BLOB
  deriving DecidableEq

/-- The union `ptr`. A `double` is its bits. -/
inductive FieldPtr
  | pBase
  | nInt32 (n : Int)
  | nInt64 (n : Int)
  | lfDouble (bits : UInt64)
  | pStr (s : CStr)
  | pBlob (bytes : List UInt8)
  deriving DecidableEq

structure DBField where
  fieldType : DBFieldType
  fieldName : String
  memType : Nat
  len : Nat
  ptr : FieldPtr
  deriving DecidableEq

/-- `DBField()`. -/
def DBField.new : DBField := ⟨.DT_INT, "", 0, 0, .pBase⟩

/-- An argument that is passed for an entry of `argTypeList`. -/
inductive SqlValue
  | int (n : Int)
  | int64 (n : Int)
  | double (bits : UInt64)
  | string (s : CStr)
  | blob (bytes : List UInt8)
  deriving DecidableEq

/-- An entry of `argTypeList` with the argument for it, whose type is the one that the entry names. -/
structure SqlArg where
  fieldName : String
  value : SqlValue
  deriving DecidableEq

/-- The field that `Fromat` makes of an argument. -/
def SqlArg.val (a : SqlArg) : DBField :=
  match a.value with
  | .int n => { fieldType := .DT_INT, fieldName := a.fieldName, memType := 0, len := 4, ptr := .nInt32 n }
  | .int64 n => { fieldType := .DT_INT64, fieldName := a.fieldName, memType := 0, len := 8, ptr := .nInt64 n }
  | .double bits => { fieldType := .DT_DOUBLE, fieldName := a.fieldName, memType := 0, len := 8, ptr := .lfDouble bits }
  | .string s => { fieldType := .DT_STRING, fieldName := a.fieldName, memType := 0, len := s.strlen, ptr := .pStr s }
  | .blob bytes => { fieldType := .DT_BLOB, fieldName := a.fieldName, memType := 0, len := bytes.length, ptr := .pBlob bytes }
