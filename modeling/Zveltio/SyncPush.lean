import Zveltio.Fields
import Zveltio.Runs
import Mathlib.Logic.Function.Basic
namespace Zveltio.SyncPush

open Fields Runs

inductive Operation where
  | create
  | update
  | delete
  deriving DecidableEq

inductive Status where
  | ok
  | conflict
  | error
  deriving DecidableEq

-- The primary key of one row: the table and its id, in the form the column stores.
structure Place where
  collection : String
  recordId : String
  deriving DecidableEq

-- One operation of the request body; a field that is missing is ''.
structure RawOp (ν : Type u) where
  collection : String
  recordId : String
  operation : String
  payload : Record FieldName ν
  deriving DecidableEq

-- An operation with its place in the batch, so that equal operations stay apart.
structure Sent (ν : Type u) where
  position : Nat
  op : RawOp ν
  deriving DecidableEq

structure Accepted (ν : Type u) where
  sent : Sent ν
  place : Place
  operation : Operation
  payload : Record FieldName ν

structure Result where
  recordId : String
  status : Status
  error : Option String

abbrev Row (ν : Type u) := Record FieldName ν

abbrev Tables (ν : Type u) := Place → Option (Row ν)

-- What the handler asks of the rest of the engine for one user, and what the
-- database enforces on one row. Keys other than the primary one are not modelled.
structure Env (ν : Type u) where
  fieldsOf : String → Option (List FieldName)
  checkPermission : String → Operation → Bool
  refusal : String → Operation → Record FieldName ν → Option String
  processInput : String → Operation → Record FieldName ν → List String × Record FieldName ν
  filterWritable : String → Record FieldName ν → List String × Record FieldName ν
  userId : ν
  admits : Place → Row ν → Bool
  refuseInsert : Place → Row ν → Option String
  refuseUpdate : Place → Row ν → Row ν → Option String
  refuseDelete : Place → Row ν → Option String
  explain : String → String

section
variable {ν : Type u}

def protectedFields : List String :=
  ["id","created_at","created_by","updated_at","tenant_id","search_vector","embedding"]

-- One turn of the loop over the payload's entries.
def keepField (allowedFields : List FieldName) (collection : String)
    (payload : Except String (Record FieldName ν)) (key : FieldName) (value : ν) : Except String (Record FieldName ν) :=
  match payload with
  | .error reason => .error reason
  | .ok kept =>
    if protectedFields.contains key.val then .ok kept
    else if key ∈ allowedFields then .ok (kept.insert key value)
    else .error ("Unknown field \"" ++ key.val ++ "\" in collection \"" ++ collection ++ "\"")

def sanitizeSyncPayload (env : Env ν) (collectionName : String) (raw : Record FieldName ν) (operation : Operation) :
    Except String (Record FieldName ν) :=
  let shortName := (collectionName.drop 4).toString
  match env.fieldsOf shortName with
  | none => .error ("Collection \"" ++ collectionName ++ "\" not found")
  | some allowedFields =>
    match raw.foldl (keepField allowedFields collectionName) (.ok ∅) with
    | .error reason => .error reason
    | .ok payload =>
      match env.processInput shortName operation payload with
      | (problem::problems,_) => .error (String.intercalate "; " (problem::problems))
      | ([],processed) =>
        match env.filterWritable shortName processed with
        | (blocked::others,_) =>
          .error ("Fields are read-only for your role: " ++ String.intercalate ", " (blocked::others))
        | ([],writable) => .ok writable

-- ^zvd_[a-z][a-z0-9_]*$
def isCollectionName (name : String) : Bool :=
  match name.toList with
  | 'z':: 'v':: 'd':: '_'::first::rest =>
    first.isLower && rest.all fun c => c.isLower || c.isDigit || c == '_'
  | _ => false

def tableName (collection : String) : String :=
  if "zvd_".toList.isPrefixOf collection.toList then collection else "zvd_" ++ collection

def parseOperation : String → Option Operation
  | "create" => some .create
  | "update" => some .update
  | "delete" => some .delete
  | _ => none

def failed (recordId error : String) : Result := ⟨recordId,.error,some error⟩

-- The checks of the first loop, in its order.
def validate (env : Env ν) (sent : Sent ν) : Except Result (Accepted ν) :=
  let op := sent.op
  if op.collection = "" ∨ op.recordId = "" ∨ op.operation = "" then
    .error (failed (if op.recordId = "" then "unknown" else op.recordId) "Missing required fields")
  else
    let table := tableName op.collection
    let shortName := (table.drop 4).toString
    if !isCollectionName table || (env.fieldsOf shortName).isNone then
      .error (failed op.recordId ("Invalid collection name: \"" ++ op.collection ++
        "\". Only user-defined collections are writable via sync."))
    else match parseOperation op.operation with
      | none => .error (failed op.recordId ("Unknown operation: \"" ++ op.operation ++
          "\". Allowed: create, update, delete."))
      | some operation =>
        if !env.checkPermission shortName operation then
          .error (failed op.recordId ("No permission to " ++ op.operation ++ " in collection \"" ++ shortName ++ "\""))
        else match env.refusal shortName operation op.payload with
          | some reason => .error (failed op.recordId reason)
          | none =>
            if operation = .delete then .ok ⟨sent,⟨table,op.recordId⟩,operation,op.payload⟩
            else match sanitizeSyncPayload env table op.payload operation with
              | .error reason => .error (failed op.recordId reason)
              | .ok payload => .ok ⟨sent,⟨table,op.recordId⟩,operation,payload⟩

def done (recordId : String) : Result := ⟨recordId,.ok,none⟩

def conflicted (recordId : String) : Result := ⟨recordId,.conflict,none⟩

def createdBy : FieldName := ⟨"created_by",by decide⟩

def updatedBy : FieldName := ⟨"updated_by",by decide⟩

def newRow (env : Env ν) (op : Accepted ν) : Row ν :=
  spread ((AList.singleton updatedBy env.userId : Row ν).insert createdBy env.userId) op.payload

def updatedRow (env : Env ν) (op : Accepted ν) (old : Row ν) : Row ν :=
  spread old (spread op.payload (AList.singleton updatedBy env.userId))

def refusedInsert (env : Env ν) (op : Accepted ν) : Option String := env.refuseInsert op.place (newRow env op)

-- ON CONFLICT (id) DO NOTHING for one row of the statement; the second part are
-- the ids RETURNING names.
def landRow (env : Env ν) (state : Tables ν × List Place) (op : Accepted ν) : Tables ν × List Place :=
  match state.1 op.place with
  | some _ => state
  | none => (Function.update state.1 op.place (some (newRow env op)),state.2 ++ [op.place])

-- One INSERT for all creates of a collection, inside a savepoint: a refused row
-- takes every row of the statement with it.
def insertGroup (env : Env ν) (tables : Tables ν) (creates : List (Accepted ν)) :
    Tables ν × List (Accepted ν × Result) :=
  match creates.findSome? (refusedInsert env) with
  | some text => (tables,creates.map fun op => (op,failed op.place.recordId (env.explain text)))
  | none =>
    let landed := creates.foldl (landRow env) (tables,[])
    (landed.1,creates.map fun op =>
      (op,if op.place ∈ landed.2 then done op.place.recordId else conflicted op.place.recordId))

-- createsByCollection: a Map from collection to its creates, in insertion order.
def addCreate (groups : List (String × List (Accepted ν))) (op : Accepted ν) : List (String × List (Accepted ν)) :=
  match groups with
  | [] => [(op.place.collection,[op])]
  | group::rest =>
    if group.1 = op.place.collection then (group.1,group.2 ++ [op])::rest else group::addCreate rest op

def createsByCollection (creates : List (Accepted ν)) : List (String × List (Accepted ν)) :=
  creates.foldl addCreate []

-- The row an UPDATE or DELETE by id finds, with the row rules in its WHERE. A
-- create never reaches this switch; its default branch answers for one.
def writeRow (env : Env ν) (op : Accepted ν) (row : Option (Row ν)) : Option (Row ν) × Result :=
  match op.operation,row with
  | .create,_ => (row,failed op.place.recordId "Unknown operation: create")
  | _,none => (row,conflicted op.place.recordId)
  | .update,some old =>
    if env.admits op.place old then
      match env.refuseUpdate op.place old (updatedRow env op old) with
      | some text => (row,failed op.place.recordId (env.explain text))
      | none => (some (updatedRow env op old),done op.place.recordId)
    else (row,conflicted op.place.recordId)
  | .delete,some old =>
    if env.admits op.place old then
      match env.refuseDelete op.place old with
      | some text => (row,failed op.place.recordId (env.explain text))
      | none => (none,done op.place.recordId)
    else (row,conflicted op.place.recordId)

def writeOp (env : Env ν) (tables : Tables ν) (op : Accepted ν) : Tables ν × List (Accepted ν × Result) :=
  let written := writeRow env op (tables op.place)
  (Function.update tables op.place written.1,[(op,written.2)])

def isCreate (op : Accepted ν) : Bool := op.operation = .create

def rejectedResult (env : Env ν) (sent : Sent ν) : Option (Sent ν × Result) :=
  match validate env sent with
  | .error result => some (sent,result)
  | .ok _ => none

def push (env : Env ν) (tables : Tables ν) (batch : List (Sent ν)) : Tables ν × List (Sent ν × Result) :=
  let rejected := batch.filterMap (rejectedResult env)
  let accepted := batch.filterMap fun sent => (validate env sent).toOption
  let created := emit (fun state group => insertGroup env state group.2) tables
    (createsByCollection (accepted.filter isCreate))
  let written := emit (writeOp env) created.1 (accepted.filter fun op => !isCreate op)
  (written.1,rejected ++ (created.2 ++ written.2).map fun answer => (answer.1.sent,answer.2))

def numbered (operations : List (RawOp ν)) : List (Sent ν) :=
  operations.zipIdx.map fun entry => ⟨entry.2,entry.1⟩

end

end Zveltio.SyncPush
