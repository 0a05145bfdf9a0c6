import Zveltio.SyncPush
import Mathlib.Data.List.Induction
import Mathlib.Data.List.Perm.Basic
namespace Zveltio.SyncPushOrder

open Fields Runs SyncPush

section
variable {ν : Type u}

-- One operation of any kind against the one row it names.
def rowStep (env : Env ν) (op : Accepted ν) (row : Option (Row ν)) : Option (Row ν) × Result :=
  if isCreate op then
    match refusedInsert env op,row with
    | some text,_ => (row,failed op.place.recordId (env.explain text))
    | none,some _ => (row,conflicted op.place.recordId)
    | none,none => (some (newRow env op),done op.place.recordId)
  else writeRow env op row

def oneByOne (env : Env ν) (tables : Tables ν) (ops : List (Accepted ν)) : Tables ν × List (Accepted ν × Result) :=
  emit (keyed Accepted.place (rowStep env)) tables ops

def atPlace (ops : List (Accepted ν)) (place : Place) : List (Accepted ν) := atKey Accepted.place ops place

def inCollection (ops : List (Accepted ν)) (collection : String) : List (Accepted ν) :=
  ops.filter fun op => op.place.collection = collection

def answered (answers : List (Accepted ν × Result)) : List (Accepted ν × Status) :=
  answers.map fun answer => (answer.1,answer.2.status)

-- Every create stands where the updates and deletes before it leave a row.
def CreatesMeetRow (env : Env ν) (row : Option (Row ν)) : List (Accepted ν) → Prop
  | [] => True
  | op::rest =>
    if isCreate op then row ≠ none ∧ CreatesMeetRow env row rest else CreatesMeetRow env (writeRow env op row).1 rest

-- Without a row there is one create, and what stands before it does not match the
-- row it makes (the plain case: nothing stands before it).
def PlaceInOrder (env : Env ν) (row : Option (Row ν)) (ops : List (Accepted ν)) : Prop :=
  match row with
  | some _ => CreatesMeetRow env row ops
  | none => ∃ before create after, ops = before ++ create::after ∧ isCreate create = true ∧
      (∀ op ∈ before ++ after, isCreate op = false) ∧
      (before = [] ∨ env.admits create.place (newRow env create) = false)

def presence (row : Option (Row ν)) : Nat := if row.isSome then 1 else 0

def landed (entry : Accepted ν × Status) : Bool := isCreate entry.1 && entry.2 = .ok

def removed (entry : Accepted ν × Status) : Bool := entry.1.operation = .delete && entry.2 = .ok

-- For the admitted operations of one push: in each collection with creates, either
-- every create is refused, or none is and every id is in order.
def InOrder (env : Env ν) (tables : Tables ν) (ops : List (Accepted ν)) : Prop :=
  ∀ op ∈ ops, isCreate op = true →
    (∀ other ∈ inCollection (ops.filter isCreate) op.place.collection, (refusedInsert env other).isSome) ∨
    (∀ other ∈ inCollection (ops.filter isCreate) op.place.collection, refusedInsert env other = none) ∧
      PlaceInOrder env (tables op.place) (atPlace ops op.place)

def accepted (env : Env ν) (operations : List (RawOp ν)) : List (Accepted ν) :=
  (numbered operations).filterMap fun sent => (validate env sent).toOption

end

section

theorem title_own : "title" ≠ "__proto__" := by decide

def title : FieldName := ⟨"title",title_own⟩

end

end Zveltio.SyncPushOrder
