/-
Counted references (Mem/RefPtr.h).

A `RefPtr` is entered under the address of its object in the table of `Ref`.
Outside loop mode the last of them deletes the object; in loop mode the one
that was given the object does, and tells the others through the table
(`_bHasFree`). The members of a deleted object are destroyed next, `RefPtr`s
among them, and other code may run between them: `pending` is what is left to
be done.

An address may be used again, so a pointer is an address with the number of
the object it was taken from, and `deletes` lists what was deleted.
-/
import XFramework.Lib.Fallible
import Mathlib.Data.Finset.Basic
import Mathlib.Data.Finset.Card
import Mathlib.Logic.Function.Basic

open Fallible

namespace Counted

structure Pointer (α : Type) where
  addr : α
  object : Nat
  deriving DecidableEq

/-- `RefPtr<T>`, where `ρ` are the addresses of such. -/
structure RefPtr (α ρ : Type) where
  _bHasFree : Bool
  _bLoopRef : Bool
  _pData : Option (Pointer α)
  _fromRef : Option ρ
  deriving DecidableEq

/-- An object, with the `RefPtr`s in it in the order of their construction. -/
structure Object (ρ : Type) where
  number : Nat
  members : List ρ
  deriving DecidableEq

/-- The destructor of a member, or the rest of `operator=` behind its `delete`. -/
inductive Pending (ρ : Type)
  | destroy (r : ρ)
  | take (r that : ρ)
  deriving DecidableEq

/-- The call is for a `RefPtr` that is not there, or its storage is not free. -/
inductive RefFault
  | notThere
  deriving DecidableEq

/-- `made` counts the objects, and `dangling` are the `RefPtr`s that an assignment used after their end. -/
structure Refs (α ρ : Type) where
  refs : ρ → Option (RefPtr α ρ)
  m_refMaps : α → Finset ρ
  heap : α → Option (Object ρ)
  made : Nat
  deletes : List Nat
  pending : List (Pending ρ)
  dangling : List ρ

/-- `copy` of a NULL `RefPtr` leaves the flags of the new one as they are in its storage, `junk`. -/
inductive Action (α ρ : Type)
  | null (r : ρ)
  | new (r : ρ) (addr : α) (members : List ρ)
  | copy (r that : ρ) (junk : RefPtr α ρ)
  | assign (r that : ρ)
  | enableLoopRefMode (r : ρ)
  | destroy (r : ρ)
  | next

namespace Refs

variable {α ρ : Type} [DecidableEq α] [DecidableEq ρ]

def begin : Refs α ρ := ⟨fun _ => none, fun _ => ∅, fun _ => none, 0, [], [], []⟩

/-! ## `Ref` -/

def addRef (t : Refs α ρ) (pMem : Option (Pointer α)) (pObj : ρ) : Refs α ρ :=
  match pMem with
  | none => t
  | some p => { t with m_refMaps := Function.update t.m_refMaps p.addr (insert pObj (t.m_refMaps p.addr)) }

def delRef (t : Refs α ρ) (pMem : Option (Pointer α)) (pObj : ρ) : Refs α ρ :=
  match pMem with
  | none => t
  | some p => { t with m_refMaps := Function.update t.m_refMaps p.addr ((t.m_refMaps p.addr).erase pObj) }

def getRefCount (t : Refs α ρ) (pMem : Option (Pointer α)) : Nat :=
  match pMem with
  | none => 0
  | some p => (t.m_refMaps p.addr).card

/-! ## `RefPtr` -/

def store (t : Refs α ρ) (r : ρ) (x : Option (RefPtr α ρ)) : Refs α ρ := { t with refs := Function.update t.refs r x }

/-- `NotifyFree` for the object at `p`. -/
def notifyFree (t : Refs α ρ) (p : Pointer α) : Refs α ρ :=
  { t with
    refs := fun r => if r ∈ t.m_refMaps p.addr then (t.refs r).map fun x => { x with _bHasFree := true } else t.refs r
    m_refMaps := Function.update t.m_refMaps p.addr ∅ }

/-- `delete p`: when the object is there it is no more, and its members are destroyed next, the last one first. -/
def delete (t : Refs α ρ) (p : Option (Pointer α)) : Refs α ρ :=
  match p with
  | none => t
  | some p =>
    match t.heap p.addr with
    | some o =>
      if o.number = p.object then { t with
        heap := Function.update t.heap p.addr none
        deletes := t.deletes ++ [p.object]
        pending := o.members.reverse.map .destroy ++ t.pending }
      else { t with deletes := t.deletes ++ [p.object] }
    | none => { t with deletes := t.deletes ++ [p.object] }

/-- `~RefPtr` of `x`, at `r`. -/
def destructor (t : Refs α ρ) (r : ρ) (x : RefPtr α ρ) : Refs α ρ :=
  if x._bLoopRef then
    match x._fromRef, x._bHasFree, x._pData with
    | none, false, some p => ((t.notifyFree p).store r none).delete (some p)
    | some _, _, _ => (t.delRef x._pData r).store r none
    | none, _, _ => t.store r none
  else
    let t := (t.delRef x._pData r).store r none
    if t.getRefCount x._pData = 0 then t.delete x._pData else t

/-- The last part of `operator=`, with `x` at `r` and `y` at `that`. -/
def takeFrom (t : Refs α ρ) (r : ρ) (x : RefPtr α ρ) (that : ρ) (y : RefPtr α ρ) : Refs α ρ :=
  match y._pData with
  | none => t.store r (some x)
  | some p => (t.store r (some ⟨y._bHasFree, y._bLoopRef, some p, some (y._fromRef.getD that)⟩)).addRef (some p) r

/-- The rest of `operator=` behind its `delete`. -/
def take (t : Refs α ρ) (r that : ρ) : Refs α ρ :=
  match t.refs r, t.refs that with
  | some x, some y => t.takeFrom r { x with _pData := none } that y
  | none, _ => { t with dangling := t.dangling ++ [r] }
  | some _, none => { t with dangling := t.dangling ++ [that] }

/-- `operator=` of `x` at `r`, with `y` at `that`. -/
def assign (t : Refs α ρ) (r : ρ) (x : RefPtr α ρ) (that : ρ) (y : RefPtr α ρ) : Refs α ρ :=
  if r = that then t
  else if x._bLoopRef then
    match x._fromRef, x._bHasFree, x._pData with
    | none, false, some p => { t.notifyFree p with pending := .take r that :: t.pending }.delete (some p)
    | some _, _, some p =>
      (t.delRef (some p) r).takeFrom r { x with _pData := none, _fromRef := none, _bHasFree := false } that y
    | _, _, _ => t.takeFrom r x that y
  else (t.delRef x._pData r).takeFrom r { x with _pData := none } that y

/-- `RefPtr(that)` with `y` at `that`. -/
def copy (t : Refs α ρ) (r that : ρ) (y junk : RefPtr α ρ) : Refs α ρ :=
  match y._pData with
  | none => t.store r (some { junk with _pData := none })
  | some p => (t.store r (some ⟨y._bHasFree, y._bLoopRef, some p, some (y._fromRef.getD that)⟩)).addRef (some p) r

/-- `RefPtr(new T)`, when the members of the object have been constructed. -/
def construct (t : Refs α ρ) (r : ρ) (addr : α) (members : List ρ) : Refs α ρ :=
  { t.store r (some ⟨false, false, some ⟨addr, t.made⟩, none⟩) with
    heap := Function.update t.heap addr (some ⟨t.made, members⟩)
    made := t.made + 1 }.addRef (some ⟨addr, t.made⟩) r

def destroy (t : Refs α ρ) (r : ρ) : Except RefFault (Refs α ρ) :=
  match t.refs r with
  | none => .error .notThere
  | some x => .ok (t.destructor r x)

def step (t : Refs α ρ) : Action α ρ → Except RefFault (Refs α ρ)
  | .null r =>
    match t.refs r with
    | none => .ok (t.store r (some ⟨false, false, none, none⟩))
    | some _ => .error .notThere
  | .new r addr members =>
    if t.refs r = none ∧ t.heap addr = none ∧ ∀ m ∈ members, t.refs m ≠ none then .ok (t.construct r addr members)
    else .error .notThere
  | .copy r that junk =>
    match t.refs r, t.refs that with
    | none, some y => .ok (t.copy r that y junk)
    | _, _ => .error .notThere
  | .assign r that =>
    match t.refs r, t.refs that with
    | some x, some y => .ok (t.assign r x that y)
    | _, _ => .error .notThere
  | .enableLoopRefMode r =>
    match t.refs r with
    | none => .error .notThere
    | some x => .ok (t.store r (some { x with _bLoopRef := true }))
  | .destroy r => t.destroy r
  | .next =>
    match t.pending with
    | [] => .error .notThere
    | .destroy r :: rest => { t with pending := rest }.destroy r
    | .take r that :: rest => .ok ({ t with pending := rest }.take r that)

end Refs

end Counted
