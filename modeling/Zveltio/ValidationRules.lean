import Zveltio.RowRules
import Zveltio.Tables
namespace Zveltio.ValidationRules

open RowRules (split trim)
open Tables (Table)

-- The values of a record and of a rule's configuration: a Date, a bigint, an array or an object is other.
inductive Value (Number Object : Type) where
  | undefined
  | null
  | bool (value : Bool)
  | number (value : Number)
  | string (text : String)
  | other (object : Object)

inductive Outcome where
  | passed
  | failed
  | refused (reason : String)

-- What the rules call: the language's operators, JSON.parse (none where it throws), the worker's pattern test and CEL.
structure Runtime (Number Object : Type) where
  parse : String → Option (Option (Table String (Value Number Object)))
  less : Value Number Object → Value Number Object → Bool
  length : String → Number
  truthy : Value Number Object → Bool
  text : Value Number Object → String
  inherited : String → Option (Value Number Object)
  safeRegexTest : Value Number Object → String → Bool
  isUrl : Value Number Object → Bool
  evaluateExpressionRule : String → Value Number Object → Option String → Outcome
  evaluateTransitionRule : String → Value Number Object → Value Number Object → Option String → Outcome

-- A configuration is null or has members; a list, a number or a text has none of those a rule reads.
inductive Config (Number Object : Type) where
  | text (json : String)
  | parsed (members : Option (Table String (Value Number Object)))

structure ValidationRule (Number Object : Type) where
  id : Option String
  tenant_id : Option String
  field_name : String
  rule_type : String
  rule_config : Config Number Object
  error_message : Option String

structure RuleRow (Number Object : Type) where
  id : String
  collection : String
  is_active : Bool
  tenant_id : Option String
  field_name : String
  rule_type : String
  rule_config : Config Number Object
  error_message : Option String

inductive IdColumn where
  | array (ids : List String)
  | text (literal : String)
  | none

structure GroupRow where
  collection : String
  is_active : Bool
  field_name : String
  logic : Option String
  rule_ids : IdColumn

structure RuleGroup where
  field_name : String
  logic : String
  rule_ids : List String

inductive Transitions where
  | skip
  | only
  deriving DecidableEq

-- The stored record: left out, null on create, or as it was read.
inductive Previous (Number Object : Type) where
  | absent
  | create
  | stored (record : Table String (Value Number Object))

structure Options (Number Object : Type) where
  previous : Previous Number Object
  transitions : Option Transitions
  opaque_fields : List String

def stripFirst (char : Char) (text : String) : String := if text.toList.head? = some char then String.ofList text.toList.tail else text

def stripLast (char : Char) (text : String) : String := if text.toList.getLast? = some char then String.ofList text.toList.dropLast else text

def toIdArray : IdColumn → List String
  | .array ids => ids
  | .none => []
  | .text literal =>
    let inner := stripLast '}' (stripFirst '{' (trim literal))
    if inner = "" then [] else (split ',' inner).map fun part => stripLast '"' (stripFirst '"' (trim part))

-- The groups of a collection; a failed read has none.
def getRuleGroups (rows : Option (List GroupRow)) (collection : String) : List RuleGroup :=
  ((rows.getD []).filter fun row => row.collection = collection && row.is_active).map fun row =>
    ⟨row.field_name,(row.logic.getD "AND").toUpper,toIdArray row.rule_ids⟩

def truthyText (text : Option String) : Bool := text.any (· ≠ "")

section
variable {Number Object : Type}

def RuleRow.rule (row : RuleRow Number Object) : ValidationRule Number Object :=
  { id := some row.id
    tenant_id := row.tenant_id
    field_name := row.field_name
    rule_type := row.rule_type
    rule_config := match row.rule_config with | .parsed none => .parsed (some []) | given => given
    error_message := row.error_message }

-- The instance's rules and those of the tenant; a field without a name takes every rule of the collection.
def getValidationRules (rows : List (RuleRow Number Object)) (collection : String) (tenant : Option String) (fieldName : String) :
    List (ValidationRule Number Object) :=
  (rows.filter fun row => row.collection = collection && row.is_active &&
    (if truthyText tenant then row.tenant_id = none || row.tenant_id = tenant else row.tenant_id = none) &&
    (fieldName = "" || row.field_name = fieldName)).map RuleRow.rule

variable (runtime : Runtime Number Object)

-- What one rule says of a value: none where its code throws, else whether it is violated or cannot be evaluated.
inductive Finding where
  | violated (violated : Bool)
  | misconfigured (reason : String)

def ofOutcome : Outcome → Finding
  | .passed => .violated false
  | .failed => .violated true
  | .refused reason => .misconfigured reason

-- cfg.key; a null cfg throws.
def property (cfg : Option (Table String (Value Number Object))) (key : String) : Option (Value Number Object) :=
  cfg.map fun members => (members.get key).getD .undefined

-- String(cfg?.expression ?? '')
def expression (cfg : Option (Table String (Value Number Object))) : String :=
  match (property cfg "expression").getD .undefined with
  | .undefined | .null => ""
  | value => runtime.text value

def isEmail (text : String) : Bool :=
  let plain (part : List Char) := part ≠ [] && part.all fun char => !RowRules.isSpace char
  match text.toList.splitOn '@' with
  | [name,host] => plain name && plain host && '.' ∈ host.tail.dropLast
  | _ => false

def finding (value : Value Number Object) (rule : ValidationRule Number Object) (fieldType : Option String)
    (previous : Option (Value Number Object)) (cfg : Option (Table String (Value Number Object))) : Option Finding :=
  match rule.rule_type with
  | "required" => some (.violated (match value with | .null | .undefined => true | .string text => text = "" | _ => false))
  | "min" => match value with
    | .number _ => (property cfg "value").map fun bound => .violated (runtime.less value bound)
    | _ => some (.violated false)
  | "max" => match value with
    | .number _ => (property cfg "value").map fun bound => .violated (runtime.less bound value)
    | _ => some (.violated false)
  | "minLength" => match value with
    | .string text => (property cfg "value").map fun bound => .violated (runtime.less (.number (runtime.length text)) bound)
    | _ => some (.violated false)
  | "maxLength" => match value with
    | .string text => (property cfg "value").map fun bound => .violated (runtime.less bound (.number (runtime.length text)))
    | _ => some (.violated false)
  | "pattern" => match value with
    | .string text => (property cfg "pattern").map fun pattern => .violated (!runtime.safeRegexTest pattern text)
    | _ => some (.violated false)
  | "range" => match value with
    | .number _ => (property cfg "min").bind fun low => (property cfg "max").map fun high =>
        .violated (runtime.less value low || runtime.less high value)
    | _ => some (.violated false)
  | "email" => some (.violated (match value with | .string text => text ≠ "" && !isEmail text | _ => false))
  | "url" => some (.violated (runtime.truthy value && !runtime.isUrl value))
  | "custom" | "nlp" =>
    if expression runtime cfg = "" then some (.misconfigured "has no expression")
    else some (ofOutcome (runtime.evaluateExpressionRule (expression runtime cfg) value fieldType))
  | "transition" =>
    if expression runtime cfg = "" then some (.misconfigured "has no expression")
    else match previous with
      | none => some (.misconfigured ("is a transition rule without the stored value to compare with (this write path " ++
          "reads no stored record, the read withheld the column, or the field is encrypted)"))
      | some stored => some (ofOutcome (runtime.evaluateTransitionRule (expression runtime cfg) value stored fieldType))
  | rule_type => some (.misconfigured ("has rule type `" ++ rule_type ++ "`, which this engine does not implement"))

def config (rule : ValidationRule Number Object) : Option (Option (Table String (Value Number Object))) :=
  match rule.rule_config with
  | .text json => runtime.parse json
  | .parsed members => some members

-- One round of the loop over the rules: the messages it adds.
def ruleErrors (value : Value Number Object) (fieldType : Option String) (previous : Option (Value Number Object))
    (rule : ValidationRule Number Object) : Option (List String) :=
  (config runtime rule).bind fun cfg => (finding runtime value rule fieldType previous cfg).map fun
    | .violated violated => if violated then [rule.error_message.getD ("Validation failed: " ++ rule.rule_type)] else []
    | .misconfigured _ => ["a validation rule on this field cannot be evaluated; an administrator must fix or deactivate it"]

def validateFieldValue (value : Value Number Object) (fieldType : Option String) (previous : Option (Value Number Object)) :
    List (ValidationRule Number Object) → Option (List String)
  | [] => some []
  | rule::rules => (ruleErrors runtime value fieldType previous rule).bind fun errors =>
      (validateFieldValue value fieldType previous rules).map fun more => errors ++ more

def groupable (rule : ValidationRule Number Object) : Bool :=
  rule.id.isSome && !truthyText rule.tenant_id && rule.rule_type ≠ "transition"

def inGroup (ids : List String) (rule : ValidationRule Number Object) : Bool := ids.contains (rule.id.getD "")

-- The rules of a field that a pass looks at.
def chosen (transitions : Option Transitions) (rules : List (ValidationRule Number Object)) : List (ValidationRule Number Object) :=
  rules.filter fun rule =>
    if transitions = some .skip then rule.rule_type ≠ "transition"
    else transitions ≠ some .only || rule.rule_type = "transition"

def storedValue (opts : Options Number Object) (fieldName : String) : Option (Value Number Object) :=
  if fieldName ∈ opts.opaque_fields then none
  else match opts.previous with
    | .absent => none
    | .create => some .null
    | .stored record => (record.get fieldName).or (runtime.inherited fieldName)

def ungrouped (fieldGroups : List RuleGroup) (rules : List (ValidationRule Number Object)) : List (ValidationRule Number Object) :=
  rules.filter fun rule => !groupable rule || !inGroup (fieldGroups.flatMap RuleGroup.rule_ids) rule

def members (group : RuleGroup) (rules : List (ValidationRule Number Object)) : List (ValidationRule Number Object) :=
  rules.filter fun rule => groupable rule && inGroup group.rule_ids rule

-- What a group adds. Of an OR group every member is evaluated, and all of their messages stand when each has one.
def groupErrors (value : Value Number Object) (fieldType : Option String) (rules : List (ValidationRule Number Object)) (group : RuleGroup) :
    Option (List String) :=
  if (members group rules).isEmpty then some []
  else if group.logic = "OR" then
    ((members group rules).mapM fun rule => validateFieldValue runtime value fieldType none [rule]).map fun perRule =>
      if perRule.all fun errors => !errors.isEmpty then perRule.flatten else []
  else validateFieldValue runtime value fieldType none (members group rules)

def fieldErrors (fieldGroups : List RuleGroup) (value : Value Number Object) (fieldType : Option String) (previous : Option (Value Number Object))
    (rules : List (ValidationRule Number Object)) : Option (List String) :=
  if rules.isEmpty then some []
  else (validateFieldValue runtime value fieldType previous (ungrouped fieldGroups rules)).bind fun errors =>
    (fieldGroups.mapM (groupErrors runtime value fieldType rules)).map fun more => errors ++ more.flatten

-- errors[fieldName] = fieldErrors: under __proto__ the list becomes the prototype, no entry.
def assign (errors : Table String (List String)) (fieldName : String) (messages : List String) : Table String (List String) :=
  if fieldName = "__proto__" then errors else errors.set fieldName messages

-- Where the rules and the groups are read from, and what is known of the write.
structure Write (Number Object : Type) where
  rules : List (RuleRow Number Object)
  groups : Option (List GroupRow)
  collection : String
  data : List (String × Value Number Object)
  fieldTypes : Table String String

def checkField (write : Write Number Object) (tenant : Option String) (opts : Options Number Object) (fieldName : String)
    (value : Value Number Object) : Option (List String) :=
  fieldErrors runtime ((getRuleGroups write.groups write.collection).filter fun group => group.field_name = fieldName) value
    (write.fieldTypes.get fieldName) (storedValue runtime opts fieldName)
    (chosen opts.transitions (getValidationRules write.rules write.collection tenant fieldName))

def checkFields (write : Write Number Object) (tenant : Option String) (opts : Options Number Object) :
    List (String × Value Number Object) → Table String (List String) → Option (Table String (List String))
  | [], errors => some errors
  | entry::entries, errors => (checkField runtime write tenant opts entry.1 entry.2).bind fun messages =>
      checkFields write tenant opts entries (if messages.isEmpty then errors else assign errors entry.1 messages)

-- The verdict and its errors; none where the evaluation throws.
def validateRecord (write : Write Number Object) (tenant : Option String) (opts : Options Number Object) :
    Option (Bool × Table String (List String)) :=
  (checkFields runtime write tenant opts write.data []).map fun errors => (errors.keys.isEmpty,errors)

def ReportsValid (write : Write Number Object) (tenant : Option String) (opts : Options Number Object) : Prop :=
  ∃ errors, validateRecord runtime write tenant opts = some (true,errors)

end

section
variable {Number Object : Type} {runtime : Runtime Number Object}

-- A result that leaves the record valid: nothing thrown, and no message unless it is lost.
def Accepts (lost : Prop) (result : Option (List String)) : Prop := ∃ messages, result = some messages ∧ (messages = [] ∨ lost)

theorem accepts_nil : Accepts lost (some []) := ⟨[],rfl,.inl rfl⟩

theorem accepts_append {first second : Option (List String)} :
    Accepts lost (first.bind fun errors => second.map fun more => errors ++ more) ↔ Accepts lost first ∧ Accepts lost second := by
  constructor
  · rintro ⟨messages,whole,clear⟩
    obtain ⟨errors,left,rest⟩ := Option.bind_eq_some_iff.mp whole
    obtain ⟨more,right,same⟩ := Option.map_eq_some_iff.mp rest
    refine ⟨⟨errors,left,?_⟩,⟨more,right,?_⟩⟩
    · exact clear.imp_left fun empty => (List.append_eq_nil_iff.mp (same.trans empty)).1
    · exact clear.imp_left fun empty => (List.append_eq_nil_iff.mp (same.trans empty)).2
  · rintro ⟨⟨errors,left,clear⟩,⟨more,right,also_clear⟩⟩
    refine ⟨errors ++ more,by simp [left,right],?_⟩
    by_cases is_lost : lost
    · exact .inr is_lost
    · exact .inl (by simp [clear.resolve_right is_lost,also_clear.resolve_right is_lost])

theorem validate_accepts {value : Value Number Object} : Accepts lost (validateFieldValue runtime value fieldType previous rules) ↔
    ∀ rule ∈ rules, Accepts lost (ruleErrors runtime value fieldType previous rule) := by
  induction rules with
  | nil => simpa [validateFieldValue] using accepts_nil
  | cons rule rules ih => rw [validateFieldValue,accepts_append,ih,List.forall_mem_cons]

theorem mapM_accepts {list : List α} {errors : α → Option (List String)} :
    Accepts lost ((list.mapM errors).map List.flatten) ↔ ∀ entry ∈ list, Accepts lost (errors entry) := by
  induction list with
  | nil => simpa using accepts_nil
  | cons entry list ih =>
    have step : ((entry::list).mapM errors).map List.flatten =
        (errors entry).bind fun first => ((list.mapM errors).map List.flatten).map fun more => first ++ more := by
      rw [List.mapM_cons]
      cases errors entry <;> simp [Option.map_map,Function.comp_def]
      cases list.mapM errors <;> rfl
    rw [step,accepts_append,ih,List.forall_mem_cons]

theorem field_accepts {value : Value Number Object} : Accepts lost (fieldErrors runtime fieldGroups value fieldType previous rules) ↔
    (∀ rule ∈ ungrouped fieldGroups rules, Accepts lost (ruleErrors runtime value fieldType previous rule)) ∧
      ∀ group ∈ fieldGroups, Accepts lost (groupErrors runtime value fieldType rules group) := by
  unfold fieldErrors
  split
  · next empty =>
    obtain rfl : rules = [] := List.isEmpty_iff.mp empty
    have alone : ∀ group ∈ fieldGroups, Accepts lost (groupErrors runtime value fieldType [] group) := by
      intro group _
      exact accepts_nil
    exact ⟨fun _ => ⟨by simp [ungrouped],alone⟩,fun _ => accepts_nil⟩
  · have shape : ((validateFieldValue runtime value fieldType previous (ungrouped fieldGroups rules)).bind fun errors =>
        (fieldGroups.mapM (groupErrors runtime value fieldType rules)).map fun more => errors ++ more.flatten) =
        (validateFieldValue runtime value fieldType previous (ungrouped fieldGroups rules)).bind fun errors =>
          ((fieldGroups.mapM (groupErrors runtime value fieldType rules)).map List.flatten).map fun more => errors ++ more := by
      simp [Option.map_map,Function.comp_def]
    rw [shape,accepts_append,validate_accepts,mapM_accepts]

theorem group_members {value : Value Number Object} (same : members group rules = members group others) :
    groupErrors runtime value fieldType rules group = groupErrors runtime value fieldType others group := by
  unfold groupErrors
  rw [same]

theorem set_some (errors : Table String (List String)) (name : String) (messages : List String) : (errors.set name messages).keys ≠ [] := by
  intro empty
  have held : name ∈ (errors.set name messages).keys := by simp
  rw [empty] at held
  exact absurd held List.not_mem_nil

theorem fields_accept {write : Write Number Object} :
    (∃ held, checkFields runtime write tenant opts entries errors = some held ∧ held.keys = []) ↔
      errors.keys = [] ∧ ∀ entry ∈ entries, Accepts (entry.1 = "__proto__") (checkField runtime write tenant opts entry.1 entry.2) := by
  induction entries generalizing errors with
  | nil => simp [checkFields]
  | cons entry entries ih =>
    rw [List.forall_mem_cons,checkFields]
    cases here : checkField runtime write tenant opts entry.1 entry.2 with
    | none => simp [Accepts]
    | some messages =>
      rw [Option.bind_some,ih]
      by_cases clear : messages = []
      · simp [clear,accepts_nil]
      · by_cases lost : entry.1 = "__proto__"
        · simp [clear,assign,lost,Accepts]
        · have some_key := set_some errors entry.1 messages
          simp [clear,assign,lost,Accepts,some_key]

theorem valid_exact {write : Write Number Object} : ReportsValid runtime write tenant opts ↔
    ∀ entry ∈ write.data, Accepts (entry.1 = "__proto__") (checkField runtime write tenant opts entry.1 entry.2) := by
  have shape : ReportsValid runtime write tenant opts ↔
      ∃ held, checkFields runtime write tenant opts write.data [] = some held ∧ held.keys = [] := by
    unfold ReportsValid validateRecord
    constructor
    · rintro ⟨errors,whole⟩
      obtain ⟨held,found,same⟩ := Option.map_eq_some_iff.mp whole
      exact ⟨held,found,List.isEmpty_iff.mp (Prod.mk.inj same).1⟩
    · rintro ⟨held,found,empty⟩
      exact ⟨held,by simp [found,empty]⟩
  rw [shape,fields_accept]
  simp [Table.keys]

theorem members_chosen (group : RuleGroup) (rules : List (ValidationRule Number Object)) :
    members group (chosen (some .skip) rules) = members group (chosen none rules) ∧ members group (chosen (some .only) rules) = [] := by
  constructor
  · simp only [members,chosen,List.filter_filter]
    refine List.filter_congr fun rule _ => ?_
    cases groups : groupable rule with
    | false => simp
    | true =>
      have apart : rule.rule_type ≠ "transition" := by simp_all [groupable]
      simp [apart]
  · simp only [members,chosen,List.filter_filter,List.filter_eq_nil_iff]
    intro rule _ kept
    simp [groupable] at kept
    exact kept.1.1.2 kept.2

theorem mem_ungrouped : rule ∈ ungrouped fieldGroups rules ↔
    rule ∈ rules ∧ (groupable rule = false ∨ inGroup (fieldGroups.flatMap RuleGroup.rule_ids) rule = false) := by
  simp [ungrouped]

theorem mem_chosen : rule ∈ chosen transitions rules ↔ rule ∈ rules ∧
    (transitions = some .skip → rule.rule_type ≠ "transition") ∧ (transitions = some .only → rule.rule_type = "transition") := by
  rcases transitions with _ | (_ | _) <;> simp [chosen]

theorem field_split {value : Value Number Object} :
    Accepts lost (fieldErrors runtime fieldGroups value fieldType previous (chosen none rules)) ↔
      Accepts lost (fieldErrors runtime fieldGroups value fieldType previous (chosen (some .skip) rules)) ∧
        Accepts lost (fieldErrors runtime fieldGroups value fieldType previous (chosen (some .only) rules)) := by
  have whole_groups (group : RuleGroup) : groupErrors runtime value fieldType (chosen none rules) group =
      groupErrors runtime value fieldType (chosen (some .skip) rules) group := group_members (members_chosen group rules).1.symm
  have no_groups (group : RuleGroup) : groupErrors runtime value fieldType (chosen (some .only) rules) group = some [] := by
    simp [groupErrors,(members_chosen group rules).2]
  simp only [field_accepts,whole_groups,no_groups,accepts_nil,implies_true,and_true]
  constructor
  · rintro ⟨each,groups⟩
    refine ⟨⟨fun rule member => each rule ?_,groups⟩,fun rule member => each rule ?_⟩
    · obtain ⟨listed,apart⟩ := mem_ungrouped.mp member
      exact mem_ungrouped.mpr ⟨mem_chosen.mpr ⟨(mem_chosen.mp listed).1,by simp⟩,apart⟩
    · obtain ⟨listed,apart⟩ := mem_ungrouped.mp member
      exact mem_ungrouped.mpr ⟨mem_chosen.mpr ⟨(mem_chosen.mp listed).1,by simp⟩,apart⟩
  · rintro ⟨⟨skipped,groups⟩,only⟩
    refine ⟨fun rule member => ?_,groups⟩
    obtain ⟨listed,apart⟩ := mem_ungrouped.mp member
    have listed := (mem_chosen.mp listed).1
    by_cases transition : rule.rule_type = "transition"
    · exact only rule (mem_ungrouped.mpr ⟨mem_chosen.mpr ⟨listed,by simp,fun _ => transition⟩,apart⟩)
    · exact skipped rule (mem_ungrouped.mpr ⟨mem_chosen.mpr ⟨listed,fun _ => transition,by simp⟩,apart⟩)

theorem instance_selected {rows : List (RuleRow Number Object)} (member : rule ∈ getValidationRules rows collection none fieldName) :
    rule ∈ getValidationRules rows collection tenant fieldName := by
  obtain ⟨row,selected,rfl⟩ := List.mem_map.mp member
  refine List.mem_map_of_mem ?_
  have own : row.tenant_id = none := by simp_all [truthyText]
  simp_all [truthyText]

theorem members_instance (rows : List (RuleRow Number Object)) (collection fieldName : String) (tenant : Option String) (transitions : Option Transitions)
    (group : RuleGroup) : members group (chosen transitions (getValidationRules rows collection tenant fieldName)) =
      members group (chosen transitions (getValidationRules rows collection none fieldName)) := by
  simp only [members,chosen,getValidationRules,List.filter_map,List.filter_filter]
  refine congrArg _ (List.filter_congr fun row _ => ?_)
  by_cases own : row.tenant_id = none
  · simp [own,truthyText]
  · by_cases tenanted : truthyText tenant = true
    · by_cases same : row.tenant_id = tenant
      · simp [groupable,RuleRow.rule,same,tenanted]
      · simp [own,same]
    · simp [own,tenanted]

theorem field_instance {value : Value Number Object}
    (accepts : Accepts lost (fieldErrors runtime fieldGroups value fieldType previous (chosen transitions (getValidationRules rows collection tenant fieldName)))) :
    Accepts lost (fieldErrors runtime fieldGroups value fieldType previous (chosen transitions (getValidationRules rows collection none fieldName))) := by
  obtain ⟨each,groups⟩ := field_accepts.mp accepts
  refine field_accepts.mpr ⟨fun rule member => each rule ?_,fun group listed => ?_⟩
  · obtain ⟨listed,apart⟩ := mem_ungrouped.mp member
    obtain ⟨listed,kept⟩ := mem_chosen.mp listed
    exact mem_ungrouped.mpr ⟨mem_chosen.mpr ⟨instance_selected listed,kept⟩,apart⟩
  · rw [← group_members (members_instance rows collection fieldName tenant transitions group)]
    exact groups group listed

theorem validation_splits (runtime : Runtime Number Object) (write : Write Number Object) (tenant : Option String) (previous : Previous Number Object)
    (opaque_fields : List String) :
    (ReportsValid runtime write tenant ⟨previous,none,opaque_fields⟩ ↔
      ReportsValid runtime write tenant ⟨previous,some .skip,opaque_fields⟩ ∧ ReportsValid runtime write tenant ⟨previous,some .only,opaque_fields⟩) ∧
      ∀ transitions, ReportsValid runtime write tenant ⟨previous,transitions,opaque_fields⟩ →
        ReportsValid runtime write none ⟨previous,transitions,opaque_fields⟩ := by
  refine ⟨?_,fun transitions valid => valid_exact.mpr fun entry listed => field_instance (valid_exact.mp valid entry listed)⟩
  simp only [valid_exact,← forall_and]
  refine forall_congr' fun entry => ?_
  exact imp_congr_right fun _ => field_split

end

end Zveltio.ValidationRules
