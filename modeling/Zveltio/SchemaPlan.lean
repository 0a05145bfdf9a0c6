import Zveltio.SchemaFiles
import Mathlib.Data.List.Dedup
namespace Zveltio.SchemaPlan
open Tables SchemaJson SchemaFiles
open PolicyTable (isDefaultGrant DEFAULT_ROLE_GRANTS EXTENSION_RESOURCE_GRANTS)

inductive EntryList where
  | indexes
  | rowRules
  | columnPermissions
  | validation
  | validationGroups
  deriving DecidableEq

inductive ApplyOp where
  | createCollection (definition : Json)
  | addField (collection : String) (field : Json)
  | setCollection (collection key : String) (value : Json)
  | reorderFields (collection : String) (order : List String)
  | alterField (collection : String) (field : Json) (keys : List String)
  | intoSecret (collection field : String)
  | putRelation (collection : String) (entry : Json) (source target : Option Json)
  | putEntry (collection : String) (list : EntryList) (entry : Json)
  | removeEntry (collection : String) (list : EntryList) (entry : Json)
  | createRole (name : String) (description : Option String)
  | setRole (name : String) (description : Option String)
  | grant (role resource action : String)
  | revoke (role resource action : String)
  | revokeDefault (role resource action : String)
  | migration (id checksum : String) (last : Bool) (change : MigrationOp)

inductive Change where
  | adds
  | removes
  | changes
  deriving DecidableEq

structure PlanStep where
  change : Change
  target : String
  action : String
  destructive : Bool
  op : Option ApplyOp

def ALTERABLE : List String := ["required","label","description","options","unique","indexed","defaultValue","writtenBy"]

def INTO_SECRET_FROM : List String := ["text","textarea","longtext","richtext","email","url"]

def afterIntoSecret (field : Json) : Json :=
  (["defaultValue","unique","indexed","encrypted"].foldl Json.delete (.obj field.members)).set "type" (.str "secret")

def NOT_ON_RELATION : List String := ["options","unique","indexed","defaultValue"]

def RELATION_PATCHABLE : List String := ["onDelete","onUpdate","metadata"]

def RELATION_TYPES : List String := ["m2o","reference","o2m","m2m","m2a"]

def CREATE_KEYS : List String := ["name","displayName","singularName","description","icon","routeGroup","isPermissioned",
  "sort","schemaLocked","aiSearchEnabled","aiSearchField","defaultGrants","writtenBy","fields"]

def canSet (key : String) (value : Option Json) : Bool :=
  key = "description" || key = "writtenBy" || ((key = "displayName" || key = "icon") && isText value)

def sortKeys (keys : List String) : List String := keys.insertionSort fun a b => a ≤ b

structure EntrySpec where
  key : String
  entries : Option EntryList
  noun : String
  id : Json → String
  canon : Json → Json

def spread (entry : Json) : Json := .obj entry.members

def defaultTrue (key : String) (entry : Json) : Json :=
  (spread entry).set key (if isTrue (entry.get key) then .null else (entry.get key).getD .null)

def LISTS : List EntrySpec := [
  {key := "indexes", entries := some .indexes, noun := "unique index",
    id := fun e => "(" ++ ", ".intercalate (match e.get "fields" with | some (.arr items) => itemTexts items | _ => []) ++ ")",
    canon := fun e => e},
  {key := "relations", entries := none, noun := "relation", id := fun e => text (e.get "name"), canon := fun e => e},
  {key := "rowRules", entries := some .rowRules, noun := "row rule",
    id := fun e => text (e.get "role") ++ ": " ++ text (e.get "field") ++ " " ++ text (e.get "op") ++ " " ++ text (e.get "value"),
    canon := defaultTrue "enabled"},
  {key := "columnPermissions", entries := some .columnPermissions, noun := "column permission",
    id := fun e => text (e.get "role") ++ ": " ++ text (e.get "column"), canon := fun e => e},
  {key := "validation", entries := some .validation, noun := "validation",
    id := fun e => text (e.get "field") ++ " " ++ memberKey e, canon := defaultTrue "active"},
  {key := "validationGroups", entries := some .validationGroups, noun := "validation group",
    id := fun e => text (e.get "name"),
    canon := fun e => ((defaultTrue "active" e).set "logic" (orElse (e.get "logic") (.str "AND"))).set "rules"
      (.arr ((sortKeys ((entries (some e) "rules").map memberKey)).map .str))}]

-- virtualConfig without the upstream credential.
def withoutAuthValue (engine : Engine) (config : Option Json) : Option Json :=
  let inner : Option Json := match config with
    | some (.str held) => match engine.parse held with
      | none | some (.str _) => some .null
      | some value => some value
    | other => other
  match inner with
  | some (.obj members) => some ((Json.obj members).delete "auth_value")
  | other => other

-- One setting of a collection; a setting the file leaves out is kept, except writtenBy.
def settingSteps (engine : Engine) (name : String) (cur des : Json) (key : String) : List PlanStep :=
  let want := if key = "virtualConfig" then withoutAuthValue engine (des.get key) else des.get key
  let holds := if key = "defaultGrants" then some (orElse (cur.get key) (.bool true)) else cur.get key
  if (if key = "writtenBy" then same holds want else (orElse want .null).isNull || same holds want) then [] else
  [⟨.changes,name,"set " ++ key ++ " " ++ shown (cur.get key) ++ " → " ++ shown want,false,
    if canSet key want then some (.setCollection name key (orElse want .null)) else none⟩]

def settingKeys : List String :=
  (sortKeys COLLECTION_KEYS).filter fun key => key ∉ ["$schema","name","fields"] ∧ key ∉ LIST_KEYS

def fieldName (field : Json) : String := text (field.get "name")

def fieldType (field : Json) : String := text (field.get "type")

def desiredFields (des : Option Json) : List Json := (entries des "fields").map exportField

def changedKeys (old new : Json) : List String :=
  sortKeys ((old.members.keys ++ new.members.keys).dedup.filter fun key => !same (old.get key) (new.get key))

def alterSteps (name : String) (old field : Json) : List PlanStep :=
  if same (some old) (some field) then [] else
  let keys := changedKeys old field
  let relation := decide (fieldType field ∈ RELATION_TYPES)
  let runnable := keys.all (· ∈ ALTERABLE) && !(relation && keys.any (· ∈ NOT_ON_RELATION)) &&
    !(relation && decide ("required" ∈ keys) && fieldType field ≠ "m2o" && fieldType field ≠ "reference")
  [⟨.changes,name,"alter field " ++ fieldName field ++ " (" ++ ", ".intercalate keys ++ ")",false,
    if runnable then some (.alterField name field keys) else none⟩]

-- A desired field against the current one of its name; owned holds what a new relation creates.
def fieldSteps (name : String) (owned : List String) (intoSecret : Bool) (cur : Table String Json) (field : Json) : List PlanStep :=
  match cur.get (fieldName field) with
  | none =>
    if fieldName field ∈ owned then [] else
    [⟨.adds,name,"add field " ++ fieldName field ++ " (" ++ fieldType field ++ ")",false,some (.addField name field)⟩]
  | some old =>
    if fieldType old = fieldType field then alterSteps name old field else
    let action := "change field " ++ fieldName field ++ " type " ++ fieldType old ++ " → " ++ fieldType field
    if !intoSecret || fieldType field ≠ "secret" || fieldType old ∉ INTO_SECRET_FROM then [⟨.changes,name,action,true,none⟩] else
    ⟨.changes,name,action,false,some (.intoSecret name (fieldName field))⟩::alterSteps name (afterIntoSecret old) field

-- New fields are appended, those of relations last; any other order needs a reorder.
def orderSteps (name : String) (owned : List String) (cur des : List String) : List PlanStep :=
  let added := des.filter fun field => field ∉ cur
  let byRelation := added.filter fun field => field ∈ owned
  let after := cur.filter (fun field => field ∈ des) ++ added.filter (fun field => field ∉ owned) ++ byRelation
  if after = des ∧ byRelation.length ≤ 1 then [] else
  [⟨.changes,name,"reorder fields (" ++ ", ".intercalate des ++ ")",false,some (.reorderFields name des)⟩]

def byId (spec : EntrySpec) (name : String) (holder : Option Json) : Table String Json :=
  Table.ofEntries ((entries holder spec.key).map fun entry =>
    (spec.id entry,if spec.key = "relations" then relationDefaults name entry else entry))

def fieldOf (des : Table String Json) (collection field : String) : Option Json :=
  (desiredFields (des.get collection)).find? (named field)

def putOp (des : Table String Json) (spec : EntrySpec) (name : String) (entry : Json) : Option ApplyOp :=
  match spec.entries with
  | none => some (.putRelation name entry (fieldOf des name (text (entry.get "field")))
      (if is (entry.get "type") "o2m" then
        fieldOf des (text (entry.get "target")) (text (some (orElse (entry.get "targetField") (.str (name ++ "_id")))))
      else none))
  | some list => some (.putEntry name list entry)

def removeOp (spec : EntrySpec) (name : String) (entry : Json) : Option ApplyOp :=
  spec.entries.map fun list => .removeEntry name list entry

-- An existing relation can only take what PATCH sets.
def patchable (spec : EntrySpec) (old entry : Json) : Bool :=
  spec.key ≠ "relations" || (old.members.keys ++ entry.members.keys).all fun key =>
    same (old.get key) (entry.get key) || decide (key ∈ RELATION_PATCHABLE)

def entrySteps (des : Table String Json) (spec : EntrySpec) (name : String) (cur : Table String Json) (id : String) (entry : Json) :
    List PlanStep :=
  match cur.get id with
  | none => [⟨.adds,name,"add " ++ spec.noun ++ " " ++ id,false,putOp des spec name entry⟩]
  | some old =>
    if same (some (spec.canon old)) (some (spec.canon entry)) then [] else
    [⟨.changes,name,"alter " ++ spec.noun ++ " " ++ id,false,if patchable spec old entry then putOp des spec name entry else none⟩]

def listSteps (des : Table String Json) (name : String) (cur new : Json) (spec : EntrySpec) : List PlanStep :=
  let had := byId spec name (some cur)
  let has := byId spec name (some new)
  (had.filter fun entry => entry.1 ∉ has.keys).map (fun entry =>
    ⟨.removes,name,"remove " ++ spec.noun ++ " " ++ entry.1,false,removeOp spec name entry.2⟩) ++
  has.flatMap fun entry => entrySteps des spec name had entry.1 entry.2

-- Relations run once every plain field exists; what can name a relation's field runs last.
structure Sink where
  steps : List PlanStep
  relations : List PlanStep
  tail : List PlanStep

structure Desired where
  collections : Table String Json
  owned : String → List String
  intoSecret : Bool

def diffCollection (engine : Engine) (desired : Desired) (name : String) (cur des : Json) : Sink :=
  let curFields := entries (some cur) "fields"
  let desFields := desiredFields (some des)
  let curByName := Table.ofEntries (curFields.map fun field => (fieldName field,field))
  let desNames := desFields.map fieldName
  {steps := settingKeys.flatMap (settingSteps engine name cur des) ++
      (curFields.filter fun field => fieldName field ∉ desNames).map (fun field =>
        ⟨.removes,name,"drop field " ++ fieldName field,true,none⟩) ++
      desFields.flatMap (fieldSteps name (desired.owned name) desired.intoSecret curByName),
    relations := (LISTS.filter fun spec => spec.key = "relations").flatMap (listSteps desired.collections name cur des),
    tail := orderSteps name (desired.owned name) (curFields.map fieldName) desNames ++
      (LISTS.filter fun spec => spec.key ≠ "relations").flatMap (listSteps desired.collections name cur des)}

-- Every grant of a role with the defaults left out, or every default it lost, by "<resource> <action>".
def actions (value : Option Json) : Except Failure (List Json) := match value with
  | none | some .null => .ok []
  | some (.arr items) => .ok items
  | some (.str word) => .ok (word.toList.map fun char => .str (String.singleton char))
  | some _ => .error (.typeError "actions is not iterable")

def grantsOf (engine : Engine) (role : Option Json) (key : String) (permission : Json) :
    Except Failure (List (String × String × String)) := do
  let resource := text (permission.get "resource")
  let listed ← actions (permission.get "actions")
  return (listed.filter fun action =>
      isDefaultGrant engine.sensitive (text (role.bind fun held => held.get "name"),resource,action.text) ≠ (key = "permissions")).map
    fun action => (resource ++ " " ++ action.text,resource,action.text)

def grants (engine : Engine) (role : Option Json) (key : String) : Except Failure (Table String (String × String)) := do
  let found ← (entries role key).mapM (grantsOf engine role key)
  return Table.ofEntries found.flatten

def sorted (found : Table String (String × String)) : Table String (String × String) :=
  found.insertionSort fun a b => a.1 ≤ b.1

def isDefaultGrantRole (role : String) : Bool := (DEFAULT_ROLE_GRANTS ++ EXTENSION_RESOURCE_GRANTS).any fun entry => entry.1 = role

def ENGINE_SEEDED_ROLES : List String := ["admin","client","employee","manager","member","tenant_owner","tenant_admin",
  "tenant_manager","tenant_member","tenant_viewer"]

def asText (value : Option Json) : Option String := match value with
  | some (.str held) => some held
  | _ => none

def grantSteps (found other : Table String (String × String)) (change : Change) (role word : String)
    (op : String → String → ApplyOp) : List PlanStep :=
  ((sorted found).filter fun entry => entry.1 ∉ other.keys).map fun entry =>
    ⟨change,"role " ++ role,word ++ entry.1,false,some (op entry.2.1 entry.2.2)⟩

-- A role the defaults go to, or one the engine seeds, is implied where a file leaves it out.
def implied (name : String) : Bool := isDefaultGrantRole name || name ∈ ENGINE_SEEDED_ROLES

def impliedRole (name : String) (cur : Option Json) : Json :=
  .obj (("name",.str name)::match cur.bind fun role => role.get "description" with
    | some description => [("description",description)]
    | none => [])

def roleSteps (engine : Engine) (name : String) (cur des : Option Json) : Except Failure (List PlanStep) :=
  match if implied name then des.orElse fun _ => some (impliedRole name cur) else des with
  | none => .ok [⟨.removes,"role " ++ name,"remove role",true,none⟩]
  | some role => do
    let description := asText (role.get "description")
    let first : List PlanStep := match cur with
      | none => if !implied name || description.isSome then
          [⟨.adds,"role " ++ name,"create role",false,some (.createRole name description)⟩] else []
      | some held => if same (held.get "description") (role.get "description") then [] else
          [⟨.changes,"role " ++ name,"set description " ++ shown (role.get "description"),false,some (.setRole name description)⟩]
    let had ← grants engine cur "permissions"
    let has ← grants engine (some role) "permissions"
    let lost ← grants engine cur "revokedDefaults"
    let loses ← grants engine (some role) "revokedDefaults"
    return first ++ grantSteps had has .removes name "revoke " (.revoke name) ++ grantSteps has had .adds name "grant " (.grant name) ++
      grantSteps loses lost .removes name "revoke default " (.revokeDefault name) ++
      grantSteps lost loses .adds name "restore default " (.grant name)

def mapEntries (key : String) (change : Json → Json) (holder : Json) : Json := match holder.get key with
  | some (.arr items) => holder.set key (.arr (items.map change))
  | _ => holder

def filterEntries (key : String) (keep : Json → Bool) (holder : Json) : Json :=
  holder.set key (.arr ((entries (some holder) key).filter keep))

def mapValues (change : Json → Json) (table : Table String Json) : Table String Json :=
  table.map fun entry => (entry.1,change entry.2)

def setWhere (test : Json → Bool) (key value : String) (entry : Json) : Json :=
  if test entry then entry.set key (.str value) else entry

def replaceName («from» «to» : String) (item : Json) : Json := if is (some item) «from» then .str «to» else item

-- The first field of a name is the one find answers with.
def changeField (name key value : String) : List Json → List Json
  | [] => []
  | field::rest => if named name field then field.set key (.str value)::rest else field::changeField name key value rest

def renameIn («from» «to» : String) (collection : Json) : Json :=
  let fields := collection.set "fields" (.arr (changeField «from» "name" «to» (entries (some collection) "fields")))
  mapEntries "indexes" (mapEntries "fields" (replaceName «from» «to»))
    (mapEntries "relations" (setWhere (fun relation => is (relation.get "field") «from») "field" «to») fields)

def hasField (collection : Json) (name : String) : Bool := (entries (some collection) "fields").any (named name)

def retarget (collection «from» «to» : String) (relation : Json) : Json :=
  setWhere (fun held => is (held.get "target") collection && is (held.get "targetField") «from») "targetField" «to» relation

def dropIn (field : String) (collection : Json) : Json :=
  filterEntries "indexes" (fun index => field ∉ strings (index.get "fields"))
    (filterEntries "relations" (fun relation => !is (relation.get "field") field)
      (filterEntries "fields" (fun held => !named field held) collection))

-- What migrate leaves in the state it plans against.
def effect (state : Parsed) : MigrationOp → Parsed
  | .dropRole role => {state with roles := state.roles.delete role}
  | .dropCollection collection =>
    let kept := mapValues (filterEntries "relations" fun relation => !is (relation.get "target") collection) (state.collections.delete collection)
    {state with collections := kept}
  | .renameField collection «from» «to» => match state.collections.get collection with
    | none => state
    | some col =>
      if !hasField col «from» then state else
      let renamed := state.collections.set collection (renameIn «from» «to» col)
      {state with collections := mapValues (mapEntries "relations" (retarget collection «from» «to»)) renamed}
  | .changeFieldType collection field «to» => match state.collections.get collection with
    | none => state
    | some col =>
      let fields := changeField field "type" «to» (entries (some col) "fields")
      {state with collections := state.collections.set collection (col.set "fields" (.arr fields))}
  | .dropField collection field => match state.collections.get collection with
    | none => state
    | some col => {state with collections := state.collections.set collection (dropIn field col)}

def opWord : MigrationOp → String
  | .renameField .. => "renameField"
  | .changeFieldType .. => "changeFieldType"
  | .dropField .. => "dropField"
  | .dropCollection .. => "dropCollection"
  | .dropRole .. => "dropRole"

-- The collection of an op that changes a field of one.
def changesFieldsOf : MigrationOp → Option String
  | .renameField collection _ _ | .changeFieldType collection _ _ | .dropField collection _ => some collection
  | _ => none

-- The refusals of migrate; word is what a message starts with.
def checkRename (word : String) (col : Json) («from» «to» : String) : Except Failure Unit := do
  refuseIf (!isName «to») (word ++ "to " ++ shown (some (.str «to»)) ++ " is not a field name")
  refuseIf (hasField col «from» && hasField col «to») (word ++ «to» ++ " exists already")
  refuseIf (!hasField col «from» && !hasField col «to») (word ++ "names field " ++ «from» ++ ", which does not exist")

def checkOp (word : String) (state : Parsed) (op : MigrationOp) : Except Failure Unit := match changesFieldsOf op with
  | none => .ok ()
  | some collection => match state.collections.get collection with
    | none => fail (word ++ "names collection " ++ collection ++ ", which does not exist")
    | some col => match op with
      | .renameField _ «from» «to» => checkRename word col «from» «to»
      | .changeFieldType _ field _ => refuseIf (!hasField col field) (word ++ "names field " ++ field ++ ", which does not exist")
      | _ => .ok ()

def migrateStep (state : Parsed) (id checksum : String) (last : Bool) (op : MigrationOp) : PlanStep :=
  let step (change : Change) (target action : String) (destructive : Bool) : PlanStep :=
    ⟨change,target,action ++ " (migration " ++ id ++ ")",destructive,some (.migration id checksum last op)⟩
  match op with
  | .dropRole role => step .removes ("role " ++ role) "remove role" true
  | .dropCollection collection => step .removes collection "drop collection" true
  | .renameField collection «from» «to» => step .changes collection ("rename field " ++ «from» ++ " → " ++ «to») false
  | .changeFieldType collection field «to» =>
    let was := ((entries (state.collections.get collection) "fields").find? (named field)).bind fun held => held.get "type"
    step .changes collection ("change field " ++ field ++ " type " ++ text was ++ " → " ++ «to») true
  | .dropField collection field => step .removes collection ("drop field " ++ field) true

-- One migration op as a plan step, and the state once it ran.
def migrate (state : Parsed) (id checksum : String) (op : MigrationOp) (last : Bool) : Except Failure (Parsed × PlanStep) := do
  checkOp ("migration " ++ id ++ ": " ++ opWord op ++ " ") state op
  return (effect state op,migrateStep state id checksum last op)

def migrateAll (id checksum : String) : Parsed → List MigrationOp → Except Failure (Parsed × List PlanStep)
  | state,[] => .ok (state,[])
  | state,op::rest => do
    let (next,step) ← migrate state id checksum op rest.isEmpty
    let (final,steps) ← migrateAll id checksum next rest
    return (final,step::steps)

-- Pending migrations in the order given; an applied one whose file changed is refused.
def pending (applied : Table String String) : Parsed → List (String × Migration) → Except Failure (Parsed × List PlanStep)
  | state,[] => .ok (state,[])
  | state,(id,migration)::rest => match applied.get id with
    | some was =>
      if was ≠ migration.checksum then fail ("migrations/" ++ id ++ ".json changed after it was applied")
      else pending applied state rest
    | none => do
      let (next,first) ← migrateAll id migration.checksum state migration.ops
      let (final,steps) ← pending applied next rest
      return (final,first ++ steps)

-- Membership in a Set of property values: an object is only itself.
def identical : Option Json → Option Json → Bool
  | none,none | some .null,some .null => true
  | some (.bool a),some (.bool b) => a = b
  | some (.num a),some (.num b) => a = b
  | some (.str a),some (.str b) => a = b
  | _,_ => false

-- The fields each new relation creates: its own, and an o2m's key on the target.
def ownedBy (cur des : Table String Json) : List (String × String) := des.flatMap fun entry =>
  ((entries (some entry.2) "relations").filter fun relation =>
    !(entries (cur.get entry.1) "relations").any fun had => identical (had.get "name") (relation.get "name")).flatMap fun relation =>
      (entry.1,text (relation.get "field"))::
        if is (relation.get "type") "o2m" then
          [(text (relation.get "target"),text (some (orElse (relation.get "targetField") (.str (entry.1 ++ "_id")))))]
        else []

def createCollection (name : String) (owned : List String) (des : Json) : PlanStep × Json :=
  let plain := (entries (some des) "fields").filter fun field => fieldName field ∉ owned
  let unsupported := des.members.keys.any fun key => key ≠ "$schema" && key ∉ CREATE_KEYS && key ∉ LIST_KEYS
  let definition := Json.obj (CREATE_KEYS.filterMap fun key => (des.get key).map fun value =>
    (key,if key = "fields" then .arr plain else value))
  -- Its settings and fields are the creation; its lists show as additions.
  let created := LIST_KEYS.foldl (fun held key => held.set key (.arr []))
    ((Json.obj des.members).set "fields" (.arr (plain.map exportField)))
  (⟨.adds,name,"create collection (" ++ toString (entries (some des) "fields").length ++ " fields)",false,
    if unsupported then none else some (.createCollection definition)⟩,created)

def collectionSteps (engine : Engine) (desired : Desired) (cur : Table String Json) (name : String) : Sink :=
  match desired.collections.get name with
  | none => ⟨[⟨.removes,name,"drop collection",true,none⟩],[],[]⟩
  | some des => match cur.get name with
    | none =>
      let (step,created) := createCollection name (desired.owned name) des
      let sink := diffCollection engine desired name created des
      {sink with steps := step::sink.steps}
    | some held => diffCollection engine desired name held des

def allNames (cur des : Table String Json) : List String := sortKeys (cur.keys ++ des.keys).dedup

def stateSteps (engine : Engine) (desired : Desired) (cur : Table String Json) : List PlanStep :=
  let sinks := (allNames cur desired.collections).map (collectionSteps engine desired cur)
  sinks.flatMap Sink.steps ++ sinks.flatMap Sink.relations ++ sinks.flatMap Sink.tail

-- The state diff after the pending migrations.
def planDiff (engine : Engine) (cur des : Parsed) (intoSecret : Bool) : Except Failure (List PlanStep) := do
  let owned := ownedBy cur.collections des.collections
  let desired : Desired := ⟨des.collections,fun name => (owned.filter fun field => field.1 = name).map Prod.snd,intoSecret⟩
  let roles ← (allNames cur.roles des.roles).mapM fun name => roleSteps engine name (cur.roles.get name) (des.roles.get name)
  return stateSteps engine desired cur.collections ++ roles.flatten

def planParsed (engine : Engine) (cur des : Parsed) (applied : Table String String) (intoSecret : Bool) :
    Except Failure (Parsed × List PlanStep × List PlanStep) := do
  checkRequiredSetNull des.collections
  let (state,migrations) ← pending applied cur (des.migrations.insertionSort fun a b => a.1 ≤ b.1)
  let diff ← planDiff engine state des intoSecret
  return (state,migrations,diff)

def planSchema (engine : Engine) (current desired : Files) (applied : Table String String) (intoSecret : Bool) :
    Except Failure (List PlanStep) := do
  let cur ← read engine current
  let des ← read engine desired
  let (_,migrations,diff) ← planParsed engine cur des applied intoSecret
  return migrations ++ diff

end Zveltio.SchemaPlan
