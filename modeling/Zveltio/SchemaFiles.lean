import Zveltio.PolicyTable
import Zveltio.SchemaJson
namespace Zveltio.SchemaFiles
open Tables SchemaJson
open PolicyTable (isDefaultGrant)

-- A SchemaFileError, or what JavaScript throws by itself.
inductive Failure where
  | schemaFile (message : String)
  | typeError (message : String)

-- What is read besides the files: the names withheld from default grants, SHA-256, JSON.parse
-- and the field types of the registry that have no column.
structure Engine where
  sensitive : List String
  sha256 : String → String
  parse : String → Option Json
  isVirtual : String → Bool

-- A file set after JSON.parse of each content.
abbrev Files := List (String × Json)

inductive MigrationOp where
  | renameField (collection «from» «to» : String)
  | changeFieldType (collection field «to» : String)
  | dropField (collection field : String)
  | dropCollection (collection : String)
  | dropRole (role : String)
  deriving DecidableEq

structure Migration where
  checksum : String
  ops : List MigrationOp

structure Parsed where
  collections : Table String Json
  roles : Table String Json
  migrations : Table String Migration

def SCHEMA_FORMAT : String := "3"

def COLLECTION_KEYS : List String := ["$schema","name","displayName","singularName","description","icon","routeGroup",
  "isPermissioned","sort","sourceType","virtualConfig","schemaLocked","aiSearchEnabled","aiSearchField",
  "aiEmbedExcludedFields","defaultGrants","writtenBy","fields","indexes","relations","rowRules","columnPermissions",
  "validation","validationGroups"]

def fail (message : String) : Except Failure α := .error (.schemaFile message)

def refuseIf (wrong : Bool) (message : String) : Except Failure Unit := if wrong then fail message else .ok ()

theorem bind_ok {value : Except Failure α} {next : α → Except Failure β} (ok : (value >>= next) = .ok result) :
    ∃ item, value = .ok item ∧ next item = .ok result := by
  cases value with
  | error reason => cases ok
  | ok item => exact ⟨item,rfl,ok⟩

theorem refuseIf_ok (ok : refuseIf wrong message = .ok done) : wrong = false := by
  cases wrong with
  | false => rfl
  | true => cases ok

theorem toOption_some {value : Except ε α} (found : value.toOption = some item) : value = .ok item := by
  cases value with
  | error reason => cases found
  | ok held => exact congrArg Except.ok (Option.some.inj found)

theorem foldlM_ok {step : σ → α → Except Failure σ} (invariant : σ → Prop) (items : List α)
    (preserved : ∀ before item after, item ∈ items → invariant before → step before item = .ok after → invariant after)
    (initial : invariant start) (ok : items.foldlM step start = .ok final) : invariant final := by
  induction items generalizing start with
  | nil =>
    cases ok
    exact initial
  | cons item rest ih =>
    rw [List.foldlM_cons] at ok
    obtain ⟨next,one,later⟩ := bind_ok ok
    exact ih (fun before item after member => preserved before item after (List.mem_cons_of_mem _ member))
      (preserved start item next (List.mem_cons_self ..) initial one) later

-- typeof value === 'object', and not null.
def Json.isObject : Json → Bool
  | .obj _ | .arr _ => true
  | _ => false

def isRecord : Json → Bool
  | .obj _ => true
  | _ => false

def isText : Option Json → Bool
  | some (.str value) => value ≠ ""
  | _ => false

def list (path : String) (value : Option Json) (key : String) : Except Failure (List Json) := match value with
  | none | some .null => .ok []
  | some (.arr items) => if items.all Json.isObject then .ok items else fail (path ++ ": " ++ key ++ " must be an array of objects")
  | some _ => fail (path ++ ": " ++ key ++ " must be an array of objects")

-- list of a value that read has checked already.
def entries (holder : Option Json) (key : String) : List Json := match holder.bind fun value => value.get key with
  | some (.arr items) => items
  | _ => []

@[simp] theorem entries_set (holder item : Json) (key other : String) :
    entries (some (holder.set key item)) other =
      if other = key then (match item with | .arr items => items | _ => []) else entries (some holder) other := by
  simp only [entries,Option.bind_some,json_get_set]
  by_cases here : other = key
  · simp only [here,if_true]
    cases item <;> rfl
  · simp only [here,if_false]

-- value === word
def is (value : Option Json) (word : String) : Bool := match value with
  | some (.str held) => held = word
  | _ => false

def isTrue (value : Option Json) : Bool := match value with
  | some (.bool held) => held
  | _ => false

def named (name : String) (entry : Json) : Bool := is (entry.get "name") name

def lowercase (char : Char) : Bool := 'a' ≤ char ∧ char ≤ 'z'

-- NAME
def isName (text : String) : Bool := match text.toList with
  | first::rest => lowercase first && rest.all fun char => lowercase char || char.isDigit || char = '_'
  | [] => false

-- MIGRATION_ID
def isMigrationId (id : String) : Bool :=
  let chars := id.toList
  (chars.take 8).length = 8 && (chars.take 8).all Char.isDigit && (chars.drop 8).take 1 = ['T'] &&
    ((chars.drop 9).take 6).length = 6 && ((chars.drop 9).take 6).all Char.isDigit &&
    match chars.drop 15 with
    | [] => true
    | dash::rest => dash = '-' && rest ≠ [] && rest.all fun char => lowercase char || char.isDigit || char = '-'

def fileName (folder path : String) : Option String :=
  let rest := path.toList.drop folder.toList.length
  let name := rest.take (rest.length - 5)
  if folder.toList.isPrefixOf path.toList ∧ ".json".toList.isSuffixOf rest ∧ name ≠ [] ∧ '/' ∉ name then some (String.ofList name) else none

def firstRepeat : List String → Option String
  | [] => none
  | name::rest => if name ∈ rest then some name else firstRepeat rest

-- A group names each member by the key of a rule in the same file.
def checkGroup (path : String) (rules seen : List String) (group : Json) : Except Failure Unit := do
  let name := text (group.get "name")
  refuseIf (!isText (group.get "name") || !isText (group.get "field")) (path ++ ": every validation group needs a name and a field")
  refuseIf (name ∈ seen) (path ++ ": validation group " ++ name ++ " twice")
  let logic := text (some (orElse (group.get "logic") (.str "AND")))
  refuseIf (logic ≠ "AND" ∧ logic ≠ "OR") (path ++ ": validation group " ++ shown (group.get "name") ++ ": logic must be AND or OR")
  let members ← list path (group.get "rules") (name ++ ".rules")
  members.forM fun member =>
    refuseIf (text (group.get "field") ++ " " ++ memberKey member ∉ rules)
      (path ++ ": validation group " ++ shown (group.get "name") ++ " names rule " ++ memberKey member ++ " on " ++
        text (group.get "field") ++ ", which no validation entry in this file is")

def checkGroups (path : String) (rules seen : List String) : List Json → Except Failure Unit
  | [] => .ok ()
  | group::rest => do
    checkGroup path rules seen group
    checkGroups path rules (text (group.get "name")::seen) rest

def strings (value : Option Json) : List String := match value with
  | some (.arr items) => items.filterMap fun item => match item with
    | .str name => some name
    | _ => none
  | _ => []

-- An index is a unique key over two or more of the file's fields.
def checkIndex (path : String) (fields seen : List String) (index : Json) : Except Failure Unit := do
  let extra := index.members.keys.filter fun key => key ≠ "fields" ∧ key ≠ "unique"
  refuseIf (extra ≠ []) (path ++ ": index has unknown key " ++ ", ".intercalate extra)
  let names := strings (index.get "fields")
  let wellFormed := match index.get "fields" with
    | some (.arr items) => decide (2 ≤ items.length ∧ names.length = items.length ∧ names.Nodup ∧ ∀ name ∈ names, name ∈ fields)
    | _ => false
  refuseIf (!wellFormed)
    (path ++ ": an index names two or more distinct fields of this file (one field's key is its `unique` flag)")
  let key := ", ".intercalate names
  refuseIf (!isTrue (index.get "unique")) (path ++ ": index (" ++ key ++ ") must be unique; only unique indexes are supported")
  refuseIf (key ∈ seen) (path ++ ": index (" ++ key ++ ") twice")

def checkIndexes (path : String) (fields seen : List String) : List Json → Except Failure Unit
  | [] => .ok ()
  | index::rest => do
    checkIndex path fields seen index
    checkIndexes path fields (", ".intercalate (strings (index.get "fields"))::seen) rest

def checkFields (path : String) (seen : List String) : List Json → Except Failure Unit
  | [] => .ok ()
  | field::rest => do
    let name := text (field.get "name")
    let typed := match field.get "type" with
      | some (.str _) => true
      | _ => false
    refuseIf (!isText (field.get "name") || !typed) (path ++ ": every field needs a name and a type")
    refuseIf (name ∈ seen) (path ++ ": field " ++ name ++ " twice")
    checkFields path (name::seen) rest

-- Fields with names of their own.
structure Named (fields : List Json) : Prop where
  texts : ∀ field ∈ fields, ∃ name, field.get "name" = some (.str name)
  distinct : (fields.map fun field => text (field.get "name")).Nodup

theorem isText_some (ok : isText value = true) : ∃ name, value = some (.str name) := by
  unfold isText at ok
  split at ok
  · exact ⟨_,rfl⟩
  · cases ok

theorem checkFields_named (ok : checkFields path seen fields = .ok done) :
    Named fields ∧ ∀ field ∈ fields, text (field.get "name") ∉ seen := by
  induction fields generalizing seen with
  | nil => exact ⟨⟨by simp,List.nodup_nil⟩,by simp⟩
  | cons field rest ih =>
    obtain ⟨_,typed,ok⟩ := bind_ok ok
    obtain ⟨_,fresh,ok⟩ := bind_ok ok
    obtain ⟨later,apart⟩ := ih ok
    have typed := refuseIf_ok typed
    simp only [Bool.or_eq_false_iff,Bool.not_eq_false'] at typed
    have fresh : text (field.get "name") ∉ seen := of_decide_eq_false (refuseIf_ok fresh)
    refine ⟨⟨?_,?_⟩,?_⟩
    · intro other member
      rcases List.mem_cons.mp member with rfl | member
      · exact isText_some typed.1
      · exact later.texts other member
    · refine List.nodup_cons.mpr ⟨fun again => ?_,later.distinct⟩
      obtain ⟨other,member,same⟩ := List.mem_map.mp again
      exact apart other member (same ▸ List.mem_cons_self ..)
    · intro other member
      rcases List.mem_cons.mp member with rfl | member
      · exact fresh
      · exact fun wrong => apart other member (List.mem_cons_of_mem _ wrong)

-- The list keys in the order of LISTS.
def LIST_KEYS : List String := ["indexes","relations","rowRules","columnPermissions","validation","validationGroups"]

def readCollection (path name : String) (file : Json) : Except Failure Unit := do
  refuseIf (!named name file) (path ++ ": name " ++ shown (file.get "name") ++ " does not match the file name")
  let unknown := file.members.keys.filter fun key => key ∉ COLLECTION_KEYS
  refuseIf (unknown ≠ []) (path ++ ": unknown key " ++ ", ".intercalate unknown)
  let fields ← list path (file.get "fields") "fields"
  checkFields path [] fields
  LIST_KEYS.forM fun key => do
    let _ ← list path (file.get key) key
  checkIndexes path (fields.map fun field => text (field.get "name")) [] (entries (some file) "indexes")
  let rules := (entries (some file) "validation").map fun rule => text (rule.get "field") ++ " " ++ memberKey rule
  checkGroups path rules [] (entries (some file) "validationGroups")

theorem list_entries {file : Json} (ok : list path (file.get key) key = .ok items) : entries (some file) key = items := by
  unfold list at ok
  simp only [entries,Option.bind_some]
  split at ok
  · next absent => cases ok; rw [absent]
  · next absent => cases ok; rw [absent]
  · next held =>
    rw [held]
    split at ok
    · exact Except.ok.inj ok
    · cases ok
  · cases ok

theorem readCollection_named (ok : readCollection path name file = .ok done) : Named (entries (some file) "fields") := by
  obtain ⟨_,_,ok⟩ := bind_ok ok
  obtain ⟨_,_,ok⟩ := bind_ok ok
  obtain ⟨fields,listed,ok⟩ := bind_ok ok
  obtain ⟨_,checked,_⟩ := bind_ok ok
  rw [list_entries listed]
  exact (checkFields_named checked).1

def checkRevoked (engine : Engine) (path role : String) (revoked : Json) : Except Failure Unit := do
  let actions := match revoked.get "actions" with
    | some (.arr items) => items
    | _ => []
  let resource := text (revoked.get "resource")
  refuseIf (!isText (revoked.get "resource") || actions.isEmpty) (path ++ ": " ++ role ++ ".revokedDefaults needs a resource and its actions")
  actions.forM fun action =>
    let default := match action with
      | .str name => isDefaultGrant engine.sensitive (role,resource,name)
      | _ => false
    refuseIf (!default) (path ++ ": " ++ role ++ " " ++ resource ++ " " ++ shown (some action) ++ " is not a default grant")

def readRole (engine : Engine) (path : String) (roles : Table String Json) (role : Json) : Except Failure (Table String Json) := do
  let name := text (role.get "name")
  refuseIf (!isText (role.get "name")) (path ++ ": every role needs a name")
  refuseIf (name ∈ roles.keys) (path ++ ": role " ++ name ++ " twice")
  let _ ← list path (role.get "permissions") (name ++ ".permissions")
  let revoked ← list path (role.get "revokedDefaults") (name ++ ".revokedDefaults")
  revoked.forM (checkRevoked engine path name)
  return roles.set name role

def MIGRATION_OPS : Table String (List String) := [("renameField",["collection","from","to"]),
  ("changeFieldType",["collection","field","to"]),("dropField",["collection","field"]),("dropCollection",["collection"]),
  ("dropRole",["role"])]

def readOp (path : String) (op : Json) : Except Failure MigrationOp := do
  let kind := text (op.get "op")
  refuseIf (kind = "renameCollection") (path ++ ": renameCollection is not supported yet")
  let unknown : Except Failure MigrationOp := fail (path ++ ": unknown op " ++ shown (op.get "op"))
  let keys := orElseKeys (MIGRATION_OPS.get kind)
  if keys = [] then unknown else
  let extra := op.members.keys.filter fun key => key ≠ "op" ∧ key ∉ keys
  refuseIf (extra ≠ []) (path ++ ": " ++ kind ++ " has unknown key " ++ ", ".intercalate extra)
  keys.forM fun key => refuseIf (!isText (op.get key)) (path ++ ": " ++ kind ++ " needs " ++ key)
  let value key := text (op.get key)
  match kind with
  | "renameField" => .ok (.renameField (value "collection") (value "from") (value "to"))
  | "changeFieldType" => .ok (.changeFieldType (value "collection") (value "field") (value "to"))
  | "dropField" => .ok (.dropField (value "collection") (value "field"))
  | "dropCollection" => .ok (.dropCollection (value "collection"))
  | "dropRole" => .ok (.dropRole (value "role"))
  | _ => unknown
where orElseKeys (keys : Option (List String)) : List String := keys.getD []

def migrationChecksum (engine : Engine) (file : Json) : String := engine.sha256 (serialize file)

def readMigration (engine : Engine) (path id : String) (file : Json) : Except Failure Migration := do
  refuseIf (!isMigrationId id) (path ++ ": a migration id is a timestamp, like 20261004T120000-name")
  refuseIf (!is (file.get "id") id) (path ++ ": id " ++ shown (file.get "id") ++ " does not match the file name")
  let ops ← list path (file.get "ops") "ops"
  refuseIf ops.isEmpty (path ++ ": ops is empty")
  return ⟨migrationChecksum engine file,← ops.mapM (readOp path)⟩

def readFile (engine : Engine) (out : Parsed) (entry : String × Json) : Except Failure Parsed := do
  let (path,file) := entry
  refuseIf (!isRecord file) (path ++ ": must be a JSON object")
  if path = "zveltio-schema.json" then
    let format := match file.get "format" with
      | some (.num format) => decide (format.text = SCHEMA_FORMAT)
      | _ => false
    refuseIf (!format)
      (path ++ ": format " ++ shown (file.get "format") ++ " is not supported (this engine reads " ++ SCHEMA_FORMAT ++ ")")
    return out
  else if path = "roles.json" then
    let roles ← list path (file.get "roles") "roles"
    return {out with roles := ← roles.foldlM (readRole engine path) out.roles}
  else if "migrations/".toList.isPrefixOf path.toList then
    match fileName "migrations/" path with
    | none => fail (path ++ ": not a schema file")
    | some id => return {out with migrations := out.migrations.set id (← readMigration engine path id file)}
  else
    match fileName "collections/" path with
    | none => fail (path ++ ": not a schema file")
    | some name => do
      readCollection path name file
      return {out with collections := out.collections.set name file}

-- A relation entry with what createRelation stores for a key it leaves out.
def relationDefaults (collection : String) (entry : Json) : Json :=
  let targetField := orElse (entry.get "targetField") (.str (if is (entry.get "type") "o2m" then collection ++ "_id" else "id"))
  ((((Json.obj entry.members).set "targetField" targetField).set "onDelete" (orElse (entry.get "onDelete") (.str "SET NULL"))).set
    "onUpdate" (orElse (entry.get "onUpdate") (.str "CASCADE"))).set "metadata" (orElse (entry.get "metadata") (.obj []))

structure RelationKeyed where
  name : Option Json
  type : String
  source_collection : String
  source_field : String
  target_collection : String
  target_field : String
  on_delete : String
  on_update : String

structure RelationKey where
  holder : String
  column : String
  parent : String

-- Where a m2o or o2m keeps its key.
def relationKey (relation : RelationKeyed) : Option RelationKey :=
  if relation.type = "m2o" then some ⟨relation.source_collection,relation.source_field,relation.target_collection⟩
  else if relation.type = "o2m" then
    some ⟨relation.target_collection,
      if relation.target_field = "" then relation.source_collection ++ "_id" else relation.target_field,relation.source_collection⟩
  else none

-- toUpperCase where the result can be ASCII.
def upper (char : Char) : Char := if char = 'ſ' then 'S' else char.toUpper

def requiredSetNull (relation : RelationKeyed) (required : Bool) : Option String :=
  match relationKey relation with
  | some key =>
    if !required then none else
    let refusal word verb := "relation " ++ shown relation.name ++ ": " ++ key.holder ++ "." ++ key.column ++
      " is required, so " ++ word ++ " cannot be SET NULL (" ++ verb ++ " a " ++ key.parent ++
      " row would fail); use CASCADE, RESTRICT or NO ACTION"
    if relation.on_delete.toList.map upper = "SET NULL".toList then some (refusal "onDelete" "deleting")
    else if relation.on_update.toList.map upper = "SET NULL".toList then some (refusal "onUpdate" "changing the key of")
    else none
  | none => none

def checkRequiredSetNull (collections : Table String Json) : Except Failure Unit :=
  collections.forM fun entry => (entries (some entry.2) "relations").forM fun relation =>
    let defaults := relationDefaults entry.1 relation
    let keyed : RelationKeyed := ⟨relation.get "name",text (relation.get "type"),entry.1,text (relation.get "field"),
      text (relation.get "target"),
      if is (relation.get "type") "o2m" then text (defaults.get "targetField") else "",
      text (defaults.get "onDelete"),text (defaults.get "onUpdate")⟩
    match relationKey keyed with
    | none => .ok ()
    | some key =>
      let required := match (entries (collections.get key.holder) "fields").find? (named key.column) with
        | some field => isTrue (field.get "required")
        | none => false
      match requiredSetNull keyed required with
      | some refusal => fail ("collections/" ++ entry.1 ++ ".json: " ++ refusal)
      | none => .ok ()

def read (engine : Engine) (files : Files) : Except Failure Parsed := do
  ["zveltio-schema.json","roles.json"].forM fun required =>
    refuseIf (required ∉ files.map Prod.fst) (required ++ " is missing")
  files.foldlM (readFile engine) ⟨[],[],[]⟩

def WellNamed (state : Parsed) : Prop :=
  ∀ name collection, state.collections.get name = some collection → Named (entries (some collection) "fields")

theorem readFile_each {property : String → Json → Prop}
    (checks : ∀ path name file done, readCollection path name file = .ok done → property name file)
    (held : ∀ name collection, out.collections.get name = some collection → property name collection)
    (ok : readFile engine out entry = .ok after) :
    ∀ name collection, after.collections.get name = some collection → property name collection := by
  obtain ⟨path,file⟩ := entry
  unfold readFile at ok
  dsimp only at ok
  obtain ⟨_,_,ok⟩ := bind_ok ok
  split at ok
  · obtain ⟨_,_,ok⟩ := bind_ok ok
    cases ok
    exact held
  · split at ok
    · obtain ⟨_,_,ok⟩ := bind_ok ok
      obtain ⟨_,_,ok⟩ := bind_ok ok
      cases ok
      exact held
    · split at ok
      · split at ok
        · cases ok
        · obtain ⟨_,_,ok⟩ := bind_ok ok
          cases ok
          exact held
      · split at ok
        · cases ok
        · next name _ =>
          obtain ⟨_,checked,ok⟩ := bind_ok ok
          cases ok
          intro other collection found
          rw [get_set] at found
          split at found
          · next same =>
            cases Option.some.inj found
            exact same ▸ checks _ _ _ _ checked
          · exact held other collection found

theorem read_each {property : String → Json → Prop}
    (checks : ∀ path name file done, readCollection path name file = .ok done → property name file)
    (ok : read engine files = .ok parsed) : ∀ name collection, parsed.collections.get name = some collection → property name collection := by
  obtain ⟨_,_,ok⟩ := bind_ok ok
  exact foldlM_ok (fun out => ∀ name collection, out.collections.get name = some collection → property name collection) files (fun _ _ _ _ held one => readFile_each checks held one) (fun _ _ found => by cases found) ok

theorem read_named (ok : read engine files = .ok parsed) : WellNamed parsed :=
  read_each (fun _ _ _ _ checked => readCollection_named checked) ok

theorem read_names (ok : read engine files = .ok parsed) (found : parsed.collections.get name = some collection) :
    named name collection = true := by
  have checks : ∀ path name file done, readCollection path name file = .ok done → named name file = true := by
    intro path name file done checked
    obtain ⟨_,held,_⟩ := bind_ok checked
    simpa using refuseIf_ok held
  exact read_each checks ok name collection found

theorem checkFields_typed (ok : checkFields path seen fields = .ok done) : ∀ field ∈ fields, ∃ type, field.get "type" = some (.str type) := by
  induction fields generalizing seen with
  | nil => simp
  | cons field rest ih =>
    obtain ⟨_,typed,ok⟩ := bind_ok ok
    obtain ⟨_,_,ok⟩ := bind_ok ok
    have typed := refuseIf_ok typed
    simp only [Bool.or_eq_false_iff,Bool.not_eq_false'] at typed
    intro other member
    rcases List.mem_cons.mp member with rfl | member
    · have word := typed.2
      split at word
      · exact ⟨_,by assumption⟩
      · cases word
    · exact ih ok other member

theorem read_typed (ok : read engine files = .ok parsed) (found : parsed.collections.get name = some collection) :
    ∀ field ∈ entries (some collection) "fields", ∃ type, field.get "type" = some (.str type) := by
  have checks : ∀ path name file done, readCollection path name file = .ok done →
      ∀ field ∈ entries (some file) "fields", ∃ type, field.get "type" = some (.str type) := by
    intro path name file done checked
    obtain ⟨_,_,checked⟩ := bind_ok checked
    obtain ⟨_,_,checked⟩ := bind_ok checked
    obtain ⟨fields,listed,checked⟩ := bind_ok checked
    obtain ⟨_,typed,_⟩ := bind_ok checked
    rw [list_entries listed]
    exact checkFields_typed typed
  exact read_each checks ok name collection found

theorem readFile_distinct (held : out.collections.keys.Nodup) (ok : readFile engine out entry = .ok after) :
    after.collections.keys.Nodup := by
  obtain ⟨path,file⟩ := entry
  unfold readFile at ok
  dsimp only at ok
  obtain ⟨_,_,ok⟩ := bind_ok ok
  split at ok
  · obtain ⟨_,_,ok⟩ := bind_ok ok
    cases ok
    exact held
  · split at ok
    · obtain ⟨_,_,ok⟩ := bind_ok ok
      obtain ⟨_,_,ok⟩ := bind_ok ok
      cases ok
      exact held
    · split at ok
      · split at ok
        · cases ok
        · obtain ⟨_,_,ok⟩ := bind_ok ok
          cases ok
          exact held
      · split at ok
        · cases ok
        · obtain ⟨_,_,ok⟩ := bind_ok ok
          cases ok
          exact nodup_set held

theorem read_distinct (ok : read engine files = .ok parsed) : parsed.collections.keys.Nodup := by
  obtain ⟨_,_,ok⟩ := bind_ok ok
  exact foldlM_ok (fun out => out.collections.keys.Nodup) files (fun _ _ _ _ held one => readFile_distinct held one) List.nodup_nil ok

end Zveltio.SchemaFiles
