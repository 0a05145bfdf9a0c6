import Zveltio.Runs
import Zveltio.SchemaPlan
namespace Zveltio.SchemaApply
open Tables SchemaJson SchemaFiles SchemaPlan
open PolicyTable (isDefaultGrant)

-- The schema as exportSchema reads it, and zv_schema_migrations.
structure Instance where
  schema : Parsed
  applied : Table String String

def Instance.withCollection (state : Instance) (name : String) (change : Json → Option Json) : Option Instance := do
  let held ← state.schema.collections.get name
  let next ← change held
  return {state with schema := {state.schema with collections := state.schema.collections.set name next}}

theorem withCollection_some {state : Instance} (changed : state.withCollection name change = some after) :
    ∃ held next, state.schema.collections.get name = some held ∧ change held = some next ∧
      after = {state with schema := {state.schema with collections := state.schema.collections.set name next}} := by
  unfold Instance.withCollection at changed
  obtain ⟨held,found,rest⟩ := Option.bind_eq_some_iff.mp changed
  obtain ⟨next,made,last⟩ := Option.bind_eq_some_iff.mp rest
  exact ⟨held,next,found,made,(Option.some.inj last).symm⟩

def changeFields (change : List Json → List Json) (collection : Json) : Json :=
  collection.set "fields" (.arr (change (entries (some collection) "fields")))

-- addFieldToCollection, and the end of addField: a name already there stays.
def appendField (field : Json) (fields : List Json) : List Json :=
  if fields.any fun held => fieldName held = fieldName field then fields else fields ++ [exportField field]

def changeNamed (name : String) (change : Json → Json) (fields : List Json) : List Json :=
  fields.map fun field => if fieldName field = name then change field else field

def setKey (source : Json) (field : Json) (key : String) : Json := match source.get key with
  | none | some .null => field.delete key
  | some value => field.set key value

def alterKeys (source : Json) (keys : List String) (field : Json) : Json :=
  exportField (keys.foldl (setKey source) field)

-- A stable sort by the order given, unknown names last.
def reorder (order : List String) (fields : List Json) : List Json :=
  fields.insertionSort fun a b => order.idxOf (fieldName a) ≤ order.idxOf (fieldName b)

def bareField (name kind : String) (options : List (String × Json)) : Json :=
  .obj [("name",.str name),("type",.str kind),("options",.obj options)]

def storedRelation (collection : String) (entry : Json) : Json :=
  let defaults := relationDefaults collection entry
  let targetField := if is (entry.get "type") "o2m" then orElse (defaults.get "targetField") .null else .str "id"
  .obj [("name",orElse (entry.get "name") .null),("type",orElse (entry.get "type") .null),("field",orElse (entry.get "field") .null),
    ("target",orElse (entry.get "target") .null),("targetField",targetField),("onDelete",orElse (defaults.get "onDelete") .null),
    ("onUpdate",orElse (defaults.get "onUpdate") .null),("metadata",orElse (defaults.get "metadata") .null)]

-- updateRelation: what PATCH sets, and the name.
def updateRelation (stored held : Json) : Json :=
  ["name","onDelete","onUpdate","metadata"].foldl (setKey stored) held

def appendEntry (key : String) (entry collection : Json) : Json := collection.set key (.arr (entries (some collection) key ++ [entry]))

-- The fields createRelation adds; an m2a adds none.
def relationFields (collection : String) (stored : Json) (source target : Option Json) : List (String × Json) :=
  let field := text (stored.get "field")
  let related := text (stored.get "target")
  let column := text (stored.get "targetField")
  if is (stored.get "type") "m2o" then [(collection,source.getD (bareField field "m2o" [("related_collection",.str related)]))]
  else if is (stored.get "type") "o2m" then
    [(collection,source.getD (bareField field "o2m" [("related_collection",.str related),("related_field",.str column)])),
      (related,target.getD (bareField column "m2o" [("related_collection",.str collection)]))]
  else if is (stored.get "type") "m2m" then [(collection,source.getD (bareField field "m2m" [("related_collection",.str related)]))]
  else []

def addRelationField (state : Instance) (entry : String × Json) : Option Instance :=
  state.withCollection entry.1 fun held => some (changeFields (appendField entry.2) held)

def createRelation (state : Instance) (collection : String) (stored : Json) (source target : Option Json) : Option Instance := do
  let _ ← state.schema.collections.get (text (stored.get "target"))
  let created ← (relationFields collection stored source target).foldlM addRelationField state
  created.withCollection collection fun held => some (appendEntry "relations" stored held)

def putRelation (state : Instance) (collection : String) (entry : Json) (source target : Option Json) : Option Instance := do
  let held ← state.schema.collections.get collection
  let stored := storedRelation collection entry
  let holds (relation : Json) : Bool := same (relation.get "field") (stored.get "field")
  if (entries (some held) "relations").any holds then
    state.withCollection collection fun held => some
      (mapEntries "relations" (fun relation => if holds relation then updateRelation stored relation else relation) held)
  else createRelation state collection stored source target

def listKey : EntryList → String
  | .indexes => "indexes"
  | .rowRules => "rowRules"
  | .columnPermissions => "columnPermissions"
  | .validation => "validation"
  | .validationGroups => "validationGroups"

def rowKeys : EntryList → List String
  | .indexes => ["fields"]
  | .rowRules => ["role","field","op","value"]
  | .columnPermissions => ["role","column"]
  | .validation => ["field","rule","config"]
  | .validationGroups => ["name"]

def isRow (list : EntryList) (entry row : Json) : Bool := (rowKeys list).all fun key => same (row.get key) (entry.get key)

-- flag !== false, as exportSchema writes it.
def unlessFalse (flag : Option Json) : Json := match flag with
  | some (.bool false) => .bool false
  | _ => .null

def notFalse (flag : Option Json) : Json := match flag with
  | some (.bool false) => .bool false
  | _ => .bool true

def valueOf (entry : Json) (key : String) : String × Json := (key,orElse (entry.get key) .null)

-- The rules of the collection a group's members name, each once.
def resolved (validation : List Json) (group : Json) : List Json :=
  ((validation.filter fun rule => same (rule.get "field") (group.get "field") &&
    (entries (some group) "rules").any fun member => same (rule.get "rule") (member.get "rule") && same (rule.get "config") (member.get "config")).map
      fun rule => Json.obj [valueOf rule "rule",valueOf rule "config"]).insertionSort fun a b => memberKey a ≤ memberKey b

def storedEntry (validation : List Json) (entry : Json) : EntryList → Json
  | .indexes => .obj [valueOf entry "fields",("unique",.bool true)]
  | .rowRules => .obj [valueOf entry "role",valueOf entry "field",valueOf entry "op",valueOf entry "value",
      ("enabled",unlessFalse (entry.get "enabled")),valueOf entry "description"]
  | .columnPermissions => .obj [valueOf entry "role",valueOf entry "column",("read",notFalse (entry.get "read")),
      ("write",notFalse (entry.get "write"))]
  | .validation => .obj [valueOf entry "field",valueOf entry "rule",valueOf entry "config",valueOf entry "message",
      valueOf entry "description",("active",unlessFalse (entry.get "active"))]
  | .validationGroups => .obj [valueOf entry "name",valueOf entry "field",("logic",orElse (entry.get "logic") (.str "AND")),
      valueOf entry "description",("active",unlessFalse (entry.get "active")),("rules",.arr (resolved validation entry))]

-- updateRlsPolicy keeps the description an entry leaves out.
def updatedEntry (list : EntryList) (stored row : Json) : Json := match list,stored.get "description" with
  | .rowRules,some .null => stored.set "description" (orElse (row.get "description") .null)
  | _,_ => stored

def canPut (engine : Engine) (collection entry : Json) : EntryList → Bool
  | .indexes => (strings (entry.get "fields")).all fun name =>
      (entries (some collection) "fields").any fun field => fieldName field = name && !engine.isVirtual (fieldType field)
  | .validationGroups => (entries (some entry) "rules").all fun member =>
      (entries (some collection) "validation").any fun rule => same (rule.get "field") (entry.get "field") &&
        same (rule.get "rule") (member.get "rule") && same (rule.get "config") (member.get "config")
  | _ => true

def putEntry (engine : Engine) (list : EntryList) (entry collection : Json) : Option Json :=
  if !canPut engine collection entry list then none else
  let rows := entries (some collection) (listKey list)
  let stored := storedEntry (entries (some collection) "validation") entry list
  some (if rows.any (isRow list entry) then
    collection.set (listKey list) (.arr (rows.map fun row => if isRow list entry row then updatedEntry list stored row else row))
  else appendEntry (listKey list) stored collection)

def removeEntry (list : EntryList) (entry collection : Json) : Json :=
  filterEntries (listKey list) (fun row => !isRow list entry row) collection

def dropAction (key resource action : String) (role : Json) : Json :=
  mapEntries key (fun entry => if is (entry.get "resource") resource then
    filterEntries "actions" (fun held => !is (some held) action) entry else entry) role

def addAction (key resource action : String) (role : Json) : Json :=
  role.set key (.arr (entries (some role) key ++ [.obj [("resource",.str resource),("actions",.arr [.str action])]]))

def Instance.withRole (state : Instance) (name : String) (change : Json → Json) : Instance :=
  let held := (state.schema.roles.get name).getD (.obj [("name",.str name)])
  {state with schema := {state.schema with roles := state.schema.roles.set name (change held)}}

def descriptionOf (description : Option String) : Json := match description with
  | some held => .str held
  | none => .null

-- Runs one migration op; none where alterField refuses the new name.
def runMigration (state : Instance) (op : MigrationOp) : Option Instance :=
  let refused := match op with
    | .renameField collection «from» «to» => match state.schema.collections.get collection with
      | some held => hasField held «from» && hasField held «to»
      | none => false
    | _ => false
  if refused then none else some {state with schema := effect state.schema op}

-- none where the op throws; the ops before it stay applied.
def run (engine : Engine) (state : Instance) : ApplyOp → Option Instance
  | .createCollection definition =>
    let stored := changeFields (fun fields => fields.map exportField) definition
    some {state with schema := {state.schema with collections := state.schema.collections.set (text (definition.get "name")) stored}}
  | .addField collection field => state.withCollection collection fun held => some (changeFields (appendField field) held)
  | .setCollection collection key item => state.withCollection collection fun held => some (held.set key item)
  | .reorderFields collection order => state.withCollection collection fun held => some (changeFields (reorder order) held)
  | .alterField collection field keys =>
    state.withCollection collection fun held => some (changeFields (changeNamed (fieldName field) (alterKeys field keys)) held)
  | .intoSecret collection field =>
    state.withCollection collection fun held => some (changeFields (changeNamed field afterIntoSecret) held)
  | .putRelation collection entry source target => putRelation state collection entry source target
  | .putEntry collection list entry => state.withCollection collection (putEntry engine list entry)
  | .removeEntry collection list entry => state.withCollection collection fun held => some (removeEntry list entry held)
  | .createRole name description | .setRole name description =>
    some (state.withRole name fun held => held.set "description" (descriptionOf description))
  | .grant role resource action => some (state.withRole role fun held =>
      let cleared := dropAction "revokedDefaults" resource action held
      if isDefaultGrant engine.sensitive (role,resource,action) then cleared else addAction "permissions" resource action cleared)
  | .revoke role resource action => some (state.withRole role (dropAction "permissions" resource action))
  | .revokeDefault role resource action => some (state.withRole role (addAction "revokedDefaults" resource action))
  | .migration id checksum last change => do
    let next ← runMigration state change
    return if last ∧ id ∉ next.applied.keys then {next with applied := next.applied.set id checksum} else next

inductive Refusal where
  | cannotRun
  | destructive
  deriving DecidableEq

-- The gate of applySchema: the ops to run, or why nothing was changed.
def applySchema (steps : List PlanStep) (allowDestructive : Bool) : Except Refusal (List ApplyOp) :=
  if steps.any fun step => step.op.isNone then .error .cannotRun
  else if !allowDestructive && steps.any PlanStep.destructive then .error .destructive
  else .ok (steps.filterMap PlanStep.op)

end Zveltio.SchemaApply
