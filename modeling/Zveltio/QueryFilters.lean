import Zveltio.Binary64
import Zveltio.RowRules
import Zveltio.Tables
namespace Zveltio.QueryFilters

open Binary64 (Number)
open RowRules (split trim)
open Tables

inductive Op where
  | eq
  | neq
  | lt
  | lte
  | gt
  | gte
  | ilike
  | not_contains
  | starts_with
  | ends_with
  | inList
  | notIn
  | null
  | not_null
  | near
  | within
  deriving DecidableEq

def OP_ALIAS : List (String × Op) :=
  [("eq",.eq),("neq",.neq),("lt",.lt),("lte",.lte),("gt",.gt),("gte",.gte),("like",.ilike),("contains",.ilike),("ilike",.ilike),
    ("not_contains",.not_contains),("starts_with",.starts_with),("ends_with",.ends_with),("in",.inList),("not_in",.notIn),
    ("null",.null),("is_null",.null),("not_null",.not_null),("is_not_null",.not_null),("near",.near),("within",.within)]

def mapOp (op : String) : Option Op := Table.get OP_ALIAS op

def GEO_OPS : List Op := [.near,.within]
def LOCATION_OPS : List Op := [.near,.within,.null,.not_null]
def NUMERIC_OPS : List Op := [.gt,.gte,.lt,.lte]

-- What JSON.parse returns.
inductive Json where
  | null
  | bool (value : Bool)
  | number (value : Number)
  | text (value : String)
  | list (items : List Json)
  | object (members : List (String × Json))

-- Object.entries, and a member read; none is undefined.
def entries (members : List (String × Json)) : Table String Json := Table.ofEntries members

@[grind] def Json.get : Json → String → Option Json
  | .object members, key => (entries members).get key
  | _, _ => none

inductive FilterValue where
  | text (value : String)
  | list (items : List String)
  | number (value : Number)
  | json (value : Json)
  | near (lat lng radius : ℚ)
  | box (minLat minLng maxLat maxLng : ℚ)

structure FilterCondition where
  op : Op
  value : FilterValue

@[grind] def finite : Option Json → Option ℚ
  | some (.number (.finite value)) => some value
  | _ => none

def isLat (value : Option Json) : Option ℚ := (finite value).filter fun number => -90 ≤ number && number ≤ 90

def isLng (value : Option Json) : Option ℚ := (finite value).filter fun number => -180 ≤ number && number ≤ 180

def toNear (value : Json) : Option FilterValue := do
  let lat ← isLat (value.get "lat")
  let lng ← isLng (value.get "lng")
  let radius ← (finite (value.get "radius")).filter (0 < ·)
  some (.near lat lng radius)

def toBox (value : Json) : Option FilterValue := do
  let minLat ← isLat (value.get "minLat")
  let maxLat ← isLat (value.get "maxLat")
  let minLng ← isLng (value.get "minLng")
  let maxLng ← isLng (value.get "maxLng")
  if maxLat < minLat || maxLng < minLng then none else some (.box minLat minLng maxLat maxLng)

-- /^([a-zA-Z_][a-zA-Z0-9_]*)\[([a-zA-Z_]+)\]$/
def letter (char : Char) : Bool := char.isAlpha || char = '_'

@[grind] def BRACKET_RE (key : String) : Option (String × String) :=
  let field := key.toList.takeWhile fun char => letter char || char.isDigit
  match key.toList.dropWhile fun char => letter char || char.isDigit with
  | '['::rest =>
    if field.head?.any letter && rest.takeWhile letter ≠ [] && rest.dropWhile letter = [']'] then
      some (String.ofList field,String.ofList (rest.takeWhile letter))
    else none
  | _ => none

-- What a read of the map may find besides a condition: a member of its prototype.
inductive Item where
  | condition (condition : FilterCondition)
  | foreign (name : String)

inductive Slot where
  | one (item : Item)
  | many (items : List Item)

@[grind] def Slot.items : Slot → List Item
  | .one item => [item]
  | .many items => items

-- The map's own entries, and its prototype once it is not Object.prototype.
structure Filters where
  own : Table String Slot
  prototype : Option Slot

def OBJECT_PROTOTYPE : List String :=
  ["constructor","__defineGetter__","__defineSetter__","hasOwnProperty","__lookupGetter__","__lookupSetter__","isPrototypeOf",
    "propertyIsEnumerable","toString","valueOf","toLocaleString"]

def ARRAY_PROTOTYPE : List String :=
  ["length","at","concat","copyWithin","fill","find","findIndex","findLast","findLastIndex","lastIndexOf","pop","push","reverse","shift",
    "unshift","slice","sort","splice","includes","indexOf","join","keys","entries","values","forEach","filter","flat","flatMap","map",
    "every","some","reduce","reduceRight","toReversed","toSorted","toSpliced","with"]

def inherits (prototype : Option Slot) (field : String) : Bool :=
  field ∈ OBJECT_PROTOTYPE || match prototype with
    | none => false
    | some (.many _) => field ∈ ARRAY_PROTOTYPE
    | some (.one _) => field = "op" || field = "value"

@[grind] def Filters.read (filters : Filters) (field : String) : Option Slot :=
  match filters.own.get field with
  | some slot => some slot
  | none =>
    if field = "__proto__" then some (filters.prototype.getD (.one (.foreign "Object.prototype")))
    else if inherits filters.prototype field then some (.one (.foreign field))
    else none

-- filters[field] = slot: under __proto__ it becomes the prototype, no entry.
def Filters.put (filters : Filters) (field : String) (slot : Slot) : Filters :=
  if field = "__proto__" then { filters with prototype := some slot } else { filters with own := filters.own.set field slot }

def add (filters : Filters) (field : String) (cond : FilterCondition) : Filters :=
  filters.put field (match filters.read field with
    | some prev => .many (prev.items ++ [.condition cond])
    | none => .one (.condition cond))

def MALFORMED_FILTER : String := "Malformed filter: 'filter' must be a JSON object"

def unknownOp (field op : String) : String := "Unknown filter operator: '" ++ op ++ "' on '" ++ field ++ "'"

@[grind] def GEO_FORMAT : Op → String
  | .near => "\x7b\"lat\",\"lng\",\"radius\"\x7d (metres) or lat,lng,radius"
  | _ => "\x7b\"minLat\",\"minLng\",\"maxLat\",\"maxLng\"\x7d or minLat,minLng,maxLat,maxLng, not crossing the antimeridian"

-- What parseFilters is given, with JSON.parse (none where it throws) and Number on texts.
structure Query where
  params : List (String × String)
  filterJson : Option String
  allowedCols : List String
  locationCols : List String
  parse : String → Option Json
  number : String → Number

namespace Query

variable (query : Query)

def geoValue (op : Op) (raw : Json) : Option FilterValue :=
  let raw := match raw with
    | .text text =>
      let n := (split ',' text).map fun part => if trim part = "" then Json.number .nan else .number (query.number part)
      match op,n with
      | .near,[lat,lng,radius] => .object [("lat",lat),("lng",lng),("radius",radius)]
      | .near,_ => .bool false
      | _,[minLat,minLng,maxLat,maxLng] => .object [("minLat",minLat),("minLng",minLng),("maxLat",maxLat),("maxLng",maxLng)]
      | _,_ => .bool false
    | raw => raw
  if op = .near then toNear raw else toBox raw

def geoError (field op : String) (mapped : Op) (value : Option FilterValue) : Option String :=
  if if field ∈ query.locationCols then mapped ∉ LOCATION_OPS else mapped ∈ GEO_OPS then
    some ("Filter operator '" ++ op ++ "' does not apply to '" ++ field ++ "'")
  else if mapped ∈ GEO_OPS ∧ value.isNone then some ("Malformed '" ++ op ++ "' on '" ++ field ++ "': " ++ GEO_FORMAT mapped)
  else none

def bracketValue (op : Op) (text : String) : Option FilterValue :=
  if op ∈ GEO_OPS then query.geoValue op (.text text)
  else if op = .inList ∨ op = .notIn then some (.list (split ',' text))
  else if op ∈ NUMERIC_OPS ∧ text ≠ "" then
    match query.number text with
    | .nan => some (.text text)
    | number => some (.number number)
  else some (.text text)

def jsonValue (op : Op) (value : Json) : Option FilterValue := if op ∈ GEO_OPS then query.geoValue op value else some (.json value)

@[grind] def condition (field op : String) (mapped : Op) (value : Option FilterValue) : Except String FilterCondition :=
  match query.geoError field op mapped value with
  | some bad => .error bad
  | none => .ok ⟨mapped,value.getD (.json .null)⟩

@[grind] def addParams : List (String × String) → Filters → Except String Filters
  | [], filters => .ok filters
  | (paramKey,paramVal)::params, filters =>
    match BRACKET_RE paramKey with
    | none => if '[' ∈ paramKey.toList then .error ("Malformed filter key: '" ++ paramKey ++ "'") else addParams params filters
    | some (field,op) =>
      if field ∉ query.allowedCols then .error ("Unknown filter field: '" ++ field ++ "'")
      else match mapOp op with
        | none => .error (unknownOp field op)
        | some mappedOp => (query.condition field op mappedOp (query.bracketValue mappedOp paramVal)).bind fun cond =>
          addParams params (add filters field cond)

@[grind] def operators (key : String) : List (String × Json) → Except String (List FilterCondition)
  | [] => .ok []
  | (op,val)::rest =>
    match mapOp op with
    | none => .error (unknownOp key op)
    | some mappedOp => (query.condition key op mappedOp (query.jsonValue mappedOp val)).bind fun cond =>
      (operators key rest).map fun conds => cond::conds

@[grind] def entryConditions (key : String) : Json → Except String (List FilterCondition)
  | .list _ => .error ("Filter on '" ++ key ++ "' is a list; use \x7b\"in\": [...]\x7d")
  | .object members => query.operators key (entries members)
  | value => (query.condition key "eq" .eq (some (.json value))).map fun cond => [cond]

@[grind] def addEntries : List (String × Json) → Filters → Except String Filters
  | [], filters => .ok filters
  | (key,value)::rest, filters =>
    if key ∉ query.allowedCols then .error ("Unknown filter field: '" ++ key ++ "'")
    else (query.entryConditions key value).bind fun conds =>
      addEntries rest (match conds with
        | [] => filters
        | [cond] => filters.put key (.one (.condition cond))
        | conds => filters.put key (.many (conds.map .condition)))

-- if (filterJson)
def given : Option String := query.filterJson.filter (· ≠ "")

def parseFilters : Except String Filters :=
  (query.addParams query.params ⟨[],none⟩).bind fun filters =>
    match query.given with
    | none => .ok filters
    | some text => match query.parse text with
      | some (.object members) => query.addEntries (entries members) filters
      | _ => .error MALFORMED_FILTER

-- What is asked for: the bracket conditions of a field, those its JSON value states, and which of the two stand.
def asked (mapped : Op) (value : Option FilterValue) : Option FilterCondition := value.map fun value => ⟨mapped,value⟩

def paramAsked (param : String × String) : Option (String × FilterCondition) :=
  (BRACKET_RE param.1).bind fun parts => (mapOp parts.2).bind fun mapped =>
    (asked mapped (query.bracketValue mapped param.2)).map fun cond => (parts.1,cond)

def bracketAsked (params : List (String × String)) (field : String) : List FilterCondition :=
  ((params.filterMap query.paramAsked).filter fun pair => pair.1 = field).map Prod.snd

def operatorAsked (member : String × Json) : Option FilterCondition :=
  (mapOp member.1).bind fun mapped => asked mapped (query.jsonValue mapped member.2)

@[grind] def stated : Json → List FilterCondition
  | .list _ => []
  | .object members => (entries members).filterMap query.operatorAsked
  | value => [⟨.eq,.json value⟩]

@[grind] def fields : Table String Json :=
  match query.given with
  | none => []
  | some text => match query.parse text with
    | some (.object members) => entries members
    | _ => []

def jsonAsked (rows : Table String Json) (field : String) : List FilterCondition := (rows.get field).elim [] query.stated

def conditions (field : String) : List FilterCondition :=
  if query.jsonAsked query.fields field ≠ [] then query.jsonAsked query.fields field else query.bracketAsked query.params field

-- What has to be refused.
def Misplaced (field : String) (mapped : Op) (value : Option FilterValue) : Prop :=
  (field ∈ query.locationCols ∧ mapped ∉ LOCATION_OPS) ∨ (field ∉ query.locationCols ∧ mapped ∈ GEO_OPS) ∨ (mapped ∈ GEO_OPS ∧ value = none)

@[grind] def BadParam (param : String × String) : Prop :=
  match BRACKET_RE param.1 with
  | none => '[' ∈ param.1.toList
  | some (field,op) => field ∉ query.allowedCols ∨
      match mapOp op with
      | none => True
      | some mapped => query.Misplaced field mapped (query.bracketValue mapped param.2)

@[grind] def BadOperator (key : String) (member : String × Json) : Prop :=
  match mapOp member.1 with
  | none => True
  | some mapped => query.Misplaced key mapped (query.jsonValue mapped member.2)

@[grind] def BadEntry (entry : String × Json) : Prop := entry.1 ∉ query.allowedCols ∨
  match entry.2 with
  | .list _ => True
  | .object members => ∃ member ∈ entries members, query.BadOperator entry.1 member
  | value => query.Misplaced entry.1 .eq (some (.json value))

@[grind] def BadJson : Prop :=
  match query.given with
  | none => False
  | some text => match query.parse text with
    | some (.object members) => ∃ entry ∈ entries members, query.BadEntry entry
    | _ => True

def Refused : Prop := (∃ param ∈ query.params, query.BadParam param) ∨ query.BadJson

-- Nothing dropped, nothing invented, and an error for what has to be refused.
def Exact : Prop :=
  (∀ filters, query.parseFilters = .ok filters → ∀ field, (filters.own.get field).elim [] Slot.items = (query.conditions field).map .condition) ∧
    (query.Refused → ∃ error, query.parseFilters = .error error)

-- No condition is asked for __proto__, and no bracket condition stands for a field that every object has.
def Plain : Prop := query.conditions "__proto__" = [] ∧
  ∀ field ∈ OBJECT_PROTOTYPE, query.bracketAsked query.params field ≠ [] → query.jsonAsked query.fields field ≠ []

end Query

section
variable {query : Query}

theorem geoError_exact : query.geoError field op mapped value = none ↔ ¬ query.Misplaced field mapped value := by
  unfold Query.geoError Query.Misplaced
  by_cases located : field ∈ query.locationCols <;> by_cases placed : mapped ∈ LOCATION_OPS <;> by_cases geo : mapped ∈ GEO_OPS <;>
    simp_all

theorem condition_good (good : ¬ query.Misplaced field mapped value) (settled : value = none → mapped ∈ GEO_OPS) :
    ∃ cond, Query.asked mapped value = some cond ∧ query.condition field op mapped value = .ok cond := by
  have clear := (@geoError_exact query field op mapped value).mpr good
  cases value with
  | none => exact absurd (.inr (.inr ⟨settled rfl,rfl⟩)) good
  | some value => exact ⟨⟨mapped,value⟩,rfl,by simp [Query.condition,clear]⟩

theorem condition_bad (bad : query.Misplaced field mapped value) : ∃ error, query.condition field op mapped value = .error error := by
  cases found : query.geoError field op mapped value with
  | none => exact absurd bad (geoError_exact.mp found)
  | some error => exact ⟨error,by simp [Query.condition,found]⟩

theorem bracketValue_none (empty : query.bracketValue mapped text = none) : mapped ∈ GEO_OPS := by
  by_contra plain
  unfold Query.bracketValue at empty
  rw [if_neg plain] at empty
  split at empty
  · cases empty
  · split at empty
    · split at empty <;> cases empty
    · cases empty

theorem jsonValue_none (empty : query.jsonValue mapped value = none) : mapped ∈ GEO_OPS := by
  by_contra plain
  simp [Query.jsonValue,plain] at empty

-- One parameter, one operator and one entry: what has to be refused errs, and anything else adds what it asks.
def addAsked (filters : Filters) (pair : String × FilterCondition) : Filters := add filters pair.1 pair.2

theorem param_step (good : ¬ query.BadParam param) :
    query.addParams (param::params) filters = query.addParams params ((query.paramAsked param).elim filters (addAsked filters)) := by
  obtain ⟨key,val⟩ := param
  unfold Query.BadParam at good
  unfold Query.paramAsked
  rw [Query.addParams]
  cases read : BRACKET_RE key with
  | none => simp_all
  | some parts =>
    obtain ⟨field,op⟩ := parts
    simp only [read,not_or,not_not] at good
    cases mapping : mapOp op with
    | none => simp [mapping] at good
    | some mapped =>
      rw [mapping] at good
      obtain ⟨cond,same,run⟩ := @condition_good query field mapped (query.bracketValue mapped val) op good.2 bracketValue_none
      simp only [good.1,not_true_eq_false,if_false,run,mapping,Option.bind_some,same,Option.map_some,Option.elim_some]
      rfl

theorem param_bad (bad : query.BadParam param) : ∃ error, query.addParams (param::params) filters = .error error := by
  obtain ⟨key,val⟩ := param
  unfold Query.BadParam at bad
  rw [Query.addParams]
  cases read : BRACKET_RE key with
  | none => exact ⟨_,if_pos (by simpa [read] using bad)⟩
  | some parts =>
    obtain ⟨field,op⟩ := parts
    simp only [read] at bad
    by_cases known : field ∈ query.allowedCols
    · cases mapping : mapOp op with
      | none => exact ⟨_,by simp [known,mapping]; rfl⟩
      | some mapped =>
        simp only [known,not_true_eq_false,false_or,mapping] at bad
        obtain ⟨error,run⟩ := @condition_bad query field mapped (query.bracketValue mapped val) op bad
        exact ⟨error,by simp [known,mapping,run]; rfl⟩
    · exact ⟨_,by simp [known]; rfl⟩

theorem params_good (good : ∀ param ∈ params, ¬ query.BadParam param) :
    query.addParams params filters = .ok ((params.filterMap query.paramAsked).foldl addAsked filters) := by
  induction params generalizing filters with
  | nil => rfl
  | cons param params ih =>
    rw [param_step (good param List.mem_cons_self),ih fun held member => good held (List.mem_cons_of_mem _ member)]
    cases asks : query.paramAsked param <;> simp [asks]

theorem params_bad (listed : param ∈ params) (bad : query.BadParam param) : ∃ error, query.addParams params filters = .error error := by
  induction params generalizing filters with
  | nil => cases listed
  | cons first params ih =>
    by_cases first_bad : query.BadParam first
    · exact param_bad first_bad
    · rw [param_step first_bad]
      rcases List.mem_cons.mp listed with rfl | listed
      · exact absurd bad first_bad
      · exact ih listed

theorem operators_good (good : ∀ member ∈ members, ¬ query.BadOperator key member) :
    query.operators key members = .ok (members.filterMap query.operatorAsked) := by
  induction members with
  | nil => rfl
  | cons member members ih =>
    obtain ⟨op,val⟩ := member
    have here := good (op,val) List.mem_cons_self
    have later := ih fun held listed => good held (List.mem_cons_of_mem _ listed)
    rw [Query.operators]
    unfold Query.BadOperator at here
    cases mapping : mapOp op with
    | none => simp [mapping] at here
    | some mapped =>
      simp only [mapping] at here
      obtain ⟨cond,same,run⟩ := @condition_good query key mapped (query.jsonValue mapped val) op here jsonValue_none
      have asks : query.operatorAsked (op,val) = some cond := by simp [Query.operatorAsked,mapping,same]
      rw [List.filterMap_cons_some asks]
      simp only [run,later]
      rfl

theorem operators_bad (listed : member ∈ members) (bad : query.BadOperator key member) : ∃ error, query.operators key members = .error error := by
  induction members with
  | nil => cases listed
  | cons first members ih =>
    obtain ⟨op,val⟩ := first
    rw [Query.operators]
    cases mapping : mapOp op with
    | none => exact ⟨_,rfl⟩
    | some mapped =>
      by_cases misplaced : query.Misplaced key mapped (query.jsonValue mapped val)
      · obtain ⟨error,run⟩ := @condition_bad query key mapped (query.jsonValue mapped val) op misplaced
        exact ⟨error,by simp only [run]; rfl⟩
      · obtain ⟨cond,_,run⟩ := @condition_good query key mapped (query.jsonValue mapped val) op misplaced jsonValue_none
        have apart : member ∈ members := by
          rcases List.mem_cons.mp listed with rfl | listed
          · simp [Query.BadOperator,mapping,misplaced] at bad
          · exact listed
        obtain ⟨error,later⟩ := ih apart
        exact ⟨error,by simp only [run,later]; rfl⟩

theorem entry_good (good : ¬ query.BadEntry (key,value)) : query.entryConditions key value = .ok (query.stated value) := by
  unfold Query.BadEntry at good
  obtain ⟨_,good⟩ := not_or.mp good
  have scalar (given : ¬ query.Misplaced key .eq (some (.json value))) :
      (query.condition key "eq" .eq (some (.json value))).map (fun cond => [cond]) = .ok [⟨.eq,.json value⟩] := by
    obtain ⟨cond,same,run⟩ := @condition_good query key .eq (some (.json value)) "eq" given (by simp)
    cases same
    rw [run]
    rfl
  cases value with
  | list => simp at good
  | object members =>
    refine operators_good fun member listed bad => good ⟨member,listed,bad⟩
  | null | bool | number | text => exact scalar good

theorem entry_bad (known : key ∈ query.allowedCols) (bad : query.BadEntry (key,value)) : ∃ error, query.entryConditions key value = .error error := by
  unfold Query.BadEntry at bad
  simp only [known,not_true_eq_false,false_or] at bad
  have scalar (given : query.Misplaced key .eq (some (.json value))) :
      ∃ error, (query.condition key "eq" .eq (some (.json value))).map (fun cond => [cond]) = .error error := by
    obtain ⟨error,run⟩ := @condition_bad query key .eq (some (.json value)) "eq" given
    exact ⟨error,by rw [run]; rfl⟩
  cases value with
  | list => exact ⟨_,rfl⟩
  | object members =>
    obtain ⟨member,listed,bad⟩ := bad
    exact operators_bad listed bad
  | null | bool | number | text => exact scalar bad

@[grind] def putConditions (filters : Filters) (key : String) : List FilterCondition → Filters
  | [] => filters
  | [cond] => filters.put key (.one (.condition cond))
  | conds => filters.put key (.many (conds.map .condition))

theorem entries_good (good : ∀ entry ∈ rows, ¬ query.BadEntry entry) :
    query.addEntries rows filters = .ok (rows.foldl (fun filters entry => putConditions filters entry.1 (query.stated entry.2)) filters) := by
  induction rows generalizing filters with
  | nil => rfl
  | cons entry rows ih =>
    obtain ⟨key,value⟩ := entry
    have here := good (key,value) List.mem_cons_self
    have known : key ∈ query.allowedCols := by
      by_contra unknown
      exact here (.inl unknown)
    rw [Query.addEntries,if_neg (not_not.mpr known),entry_good here]
    exact ih fun held listed => good held (List.mem_cons_of_mem _ listed)

theorem entries_bad (listed : entry ∈ rows) (bad : query.BadEntry entry) : ∃ error, query.addEntries rows filters = .error error := by
  induction rows generalizing filters with
  | nil => cases listed
  | cons first rows ih =>
    obtain ⟨key,value⟩ := first
    rw [Query.addEntries]
    by_cases known : key ∈ query.allowedCols
    · rw [if_neg (not_not.mpr known)]
      by_cases here : query.BadEntry (key,value)
      · obtain ⟨error,run⟩ := entry_bad known here
        exact ⟨error,by rw [run]; rfl⟩
      · rw [entry_good here]
        rcases List.mem_cons.mp listed with rfl | listed
        · exact absurd bad here
        · exact ih listed
    · exact ⟨_,if_pos known⟩

def shown (filters : Filters) (field : String) : List Item := (filters.own.get field).elim [] Slot.items

def seen (filters : Filters) (field : String) : List Item := (filters.read field).elim [] Slot.items

theorem shown_put (filters : Filters) (key field : String) (slot : Slot) :
    shown (filters.put key slot) field = if field = key ∧ key ≠ "__proto__" then slot.items else shown filters field := by
  unfold shown Filters.put
  by_cases proto : key = "__proto__"
  · simp [proto]
  · by_cases same : field = key <;> simp [proto,same]

theorem shown_conditions (filters : Filters) (key field : String) (conds : List FilterCondition) :
    shown (putConditions filters key conds) field =
      if field = key ∧ key ≠ "__proto__" ∧ conds ≠ [] then conds.map .condition else shown filters field := by
  rcases conds with _ | ⟨first,_ | ⟨second,more⟩⟩
  · simp [putConditions]
  · simp [putConditions,shown_put,Slot.items]
  · simp [putConditions,shown_put,Slot.items]

theorem jsonAsked_cons : query.jsonAsked (entry::rows) field = if entry.1 = field then query.stated entry.2 else query.jsonAsked rows field := by
  unfold Query.jsonAsked
  rw [get_cons]
  split <;> rfl

theorem shown_entries {rows : Table String Json} (distinct : rows.keys.Nodup) (plain : field ≠ "__proto__") :
    shown (rows.foldl (fun filters entry => putConditions filters entry.1 (query.stated entry.2)) filters) field =
      if query.jsonAsked rows field ≠ [] then (query.jsonAsked rows field).map .condition else shown filters field := by
  induction rows generalizing filters with
  | nil => simp [Query.jsonAsked]
  | cons entry rows ih =>
    obtain ⟨apart,distinct⟩ := List.nodup_cons.mp distinct
    rw [List.foldl_cons,ih distinct,jsonAsked_cons,shown_conditions]
    by_cases same : entry.1 = field
    · have none_later : query.jsonAsked rows field = [] := by
        simp [Query.jsonAsked,get_eq_none.mpr (same ▸ apart)]
      subst same
      simp [none_later,plain]
    · simp [same,Ne.symm same]

theorem shown_proto (filters : Filters) (rows : List (String × List FilterCondition)) (bare : shown filters "__proto__" = []) :
    shown (rows.foldl (fun filters row => putConditions filters row.1 row.2) filters) "__proto__" = [] := by
  induction rows generalizing filters with
  | nil => exact bare
  | cons row rows ih =>
    refine ih _ ?_
    rw [shown_conditions,if_neg (by rintro ⟨same,apart,_⟩; exact apart same.symm)]
    exact bare

theorem seen_add (plain : key ≠ "__proto__") (filters : Filters) (field : String) (cond : FilterCondition) :
    seen (add filters key cond) field = if field = key then seen filters key ++ [.condition cond] else seen filters field := by
  unfold seen add Filters.put
  rw [if_neg plain]
  by_cases same : field = key
  · subst same
    cases filters.read field <;> simp [Filters.read,Slot.items]
  · simp [Filters.read,same]

theorem shown_add (plain : key ≠ "__proto__") (filters : Filters) (field : String) (cond : FilterCondition) :
    shown (add filters key cond) field = if field = key then seen filters key ++ [.condition cond] else shown filters field := by
  unfold add
  rw [shown_put]
  cases found : filters.read key <;> simp [seen,found,plain,Slot.items]

theorem shown_pairs {pairs : List (String × FilterCondition)} (plain : ∀ pair ∈ pairs, pair.1 ≠ "__proto__") (filters : Filters) (field : String) :
    shown (pairs.foldl addAsked filters) field =
      if (pairs.filter fun pair => pair.1 = field) = [] then shown filters field
      else seen filters field ++ ((pairs.filter fun pair => pair.1 = field).map Prod.snd).map .condition := by
  induction pairs generalizing filters with
  | nil => rfl
  | cons pair pairs ih =>
    have apart := plain pair List.mem_cons_self
    rw [List.foldl_cons,ih (fun held listed => plain held (List.mem_cons_of_mem _ listed)),addAsked,shown_add apart,seen_add apart]
    by_cases same : pair.1 = field
    · by_cases more : (pairs.filter fun pair => pair.1 = field) = [] <;> simp [same,more]
    · rw [List.filter_cons_of_neg (by simpa using same),if_neg (Ne.symm same),if_neg (Ne.symm same)]

theorem seen_empty (plain : field ≠ "__proto__") : seen ⟨[],none⟩ field = if field ∈ OBJECT_PROTOTYPE then [.foreign field] else [] := by
  unfold seen Filters.read inherits
  by_cases common : field ∈ OBJECT_PROTOTYPE <;> simp [plain,common,Slot.items]

theorem shown_proto_pairs (pairs : List (String × FilterCondition)) (filters : Filters) (bare : shown filters "__proto__" = []) :
    shown (pairs.foldl addAsked filters) "__proto__" = [] := by
  induction pairs generalizing filters with
  | nil => exact bare
  | cons pair pairs ih =>
    refine ih _ ?_
    unfold addAsked add
    rw [shown_put,if_neg (by rintro ⟨same,apart⟩; exact apart same.symm)]
    exact bare

theorem fields_distinct (query : Query) : (Table.keys query.fields).Nodup := by
  have listed (members : List (String × Json)) : (Table.keys (entries members)).Nodup := by
    unfold entries Table.ofEntries
    have kept : ∀ table : Table String Json, table.keys.Nodup →
        (Table.keys (members.foldl (fun table entry => Table.set table entry.1 entry.2) table)).Nodup := by
      induction members with
      | nil => exact fun _ distinct => distinct
      | cons member members ih => exact fun table distinct => ih _ (nodup_set distinct)
    exact kept [] List.nodup_nil
  unfold Query.fields
  split
  · exact List.nodup_nil
  · split
    · exact listed _
    · exact List.nodup_nil

def found (query : Query) : Filters :=
  query.fields.foldl (fun filters entry => putConditions filters entry.1 (query.stated entry.2))
    ((query.params.filterMap query.paramAsked).foldl addAsked ⟨[],none⟩)

theorem parse_good (good : ¬ query.Refused) : query.parseFilters = .ok (found query) := by
  obtain ⟨params,json⟩ := not_or.mp good
  have brackets := @params_good query query.params ⟨[],none⟩ fun param listed bad => params ⟨param,listed,bad⟩
  unfold Query.parseFilters found Query.fields
  rw [brackets]
  unfold Query.BadJson at json
  cases given : query.given with
  | none => rfl
  | some text =>
    rw [given] at json
    cases parsed : query.parse text with
    | none => simp [parsed] at json
    | some value =>
      cases value with
      | object members =>
        have clean : ∀ entry ∈ entries members, ¬ query.BadEntry entry := by
          intro entry listed bad
          exact json (by simp only [parsed]; exact ⟨entry,listed,bad⟩)
        simp only [parsed]
        exact entries_good clean
      | null | bool | number | text | list => simp [parsed] at json

theorem parse_bad (bad : query.Refused) : ∃ error, query.parseFilters = .error error := by
  by_cases params : ∃ param ∈ query.params, query.BadParam param
  · obtain ⟨param,listed,bad⟩ := params
    obtain ⟨error,run⟩ := @params_bad query query.params param ⟨[],none⟩ listed bad
    exact ⟨error,by unfold Query.parseFilters; rw [run]; rfl⟩
  · have brackets := @params_good query query.params ⟨[],none⟩ fun param listed bad => params ⟨param,listed,bad⟩
    have json := bad.resolve_left params
    unfold Query.parseFilters
    rw [brackets]
    unfold Query.BadJson at json
    cases given : query.given with
    | none => simp [given] at json
    | some text =>
      rw [given] at json
      cases parsed : query.parse text with
      | none => exact ⟨_,by simp only [Except.bind,parsed]; rfl⟩
      | some value =>
        cases value with
        | object members =>
          simp only [parsed] at json
          obtain ⟨entry,listed,bad⟩ := json
          obtain ⟨error,run⟩ := @entries_bad query _ entry ((query.params.filterMap query.paramAsked).foldl addAsked ⟨[],none⟩) listed bad
          exact ⟨error,by simp only [Except.bind,parsed,run]⟩
        | null | bool | number | text | list => exact ⟨_,by simp only [Except.bind,parsed]; rfl⟩

theorem asked_proto : query.conditions "__proto__" = [] ↔
    query.jsonAsked query.fields "__proto__" = [] ∧ query.bracketAsked query.params "__proto__" = [] := by
  unfold Query.conditions
  by_cases json : query.jsonAsked query.fields "__proto__" = [] <;> simp [json]

theorem found_proto (query : Query) : shown (found query) "__proto__" = [] := by
  have bare := shown_proto_pairs (query.params.filterMap query.paramAsked) ⟨[],none⟩ rfl
  have whole := shown_proto _ (query.fields.map fun entry => (entry.1,query.stated entry.2)) bare
  rwa [List.foldl_map] at whole

theorem found_shown (bare : query.conditions "__proto__" = []) (plain : field ≠ "__proto__") :
    shown (found query) field = if query.jsonAsked query.fields field ≠ [] then (query.jsonAsked query.fields field).map .condition
      else if query.bracketAsked query.params field = [] then []
      else (if field ∈ OBJECT_PROTOTYPE then [.foreign field] else []) ++ (query.bracketAsked query.params field).map .condition := by
  have apart : ∀ pair ∈ query.params.filterMap query.paramAsked, pair.1 ≠ "__proto__" := by
    intro pair listed same
    have none_asked := (asked_proto.mp bare).2
    unfold Query.bracketAsked at none_asked
    rw [List.map_eq_nil_iff,List.filter_eq_nil_iff] at none_asked
    exact none_asked pair listed (by simpa using same)
  unfold found
  rw [shown_entries (fields_distinct query) plain,shown_pairs apart,seen_empty plain]
  unfold Query.bracketAsked
  simp only [List.map_eq_nil_iff]
  rfl

theorem filters_exact (query : Query) : query.Exact ↔ query.Refused ∨ query.Plain := by
  constructor
  · rintro ⟨shows,_⟩
    by_cases refused : query.Refused
    · exact .inl refused
    · have each := shows _ (parse_good refused)
      have bare : query.conditions "__proto__" = [] := by
        have proto := each "__proto__"
        rw [show ((found query).own.get "__proto__").elim [] Slot.items = [] from found_proto query] at proto
        exact List.map_eq_nil_iff.mp proto.symm
      refine .inr ⟨bare,fun field common brackets json => ?_⟩
      have plain : field ≠ "__proto__" := by
        rintro rfl
        exact absurd common (by decide)
      have here := each field
      rw [show ((found query).own.get field).elim [] Slot.items = _ from found_shown bare plain] at here
      have length := congrArg List.length here
      simp [json,brackets,common,Query.conditions] at length
  · rintro (refused | ⟨bare,covered⟩)
    · obtain ⟨error,run⟩ := parse_bad refused
      exact ⟨by simp [run],fun _ => ⟨error,run⟩⟩
    · refine ⟨fun filters run field => ?_,parse_bad⟩
      by_cases refused : query.Refused
      · obtain ⟨error,wrong⟩ := parse_bad refused
        rw [wrong] at run
        cases run
      · obtain rfl : found query = filters := Except.ok.inj ((parse_good refused).symm.trans run)
        by_cases plain : field = "__proto__"
        · subst plain
          rw [bare]
          exact found_proto query
        · refine (found_shown bare plain).trans ?_
          unfold Query.conditions
          by_cases json : query.jsonAsked query.fields field = []
          · by_cases common : field ∈ OBJECT_PROTOTYPE
            · have brackets : query.bracketAsked query.params field = [] := by
                by_contra some_bracket
                exact covered field common some_bracket json
              simp [json,brackets]
            · by_cases brackets : query.bracketAsked query.params field = [] <;> simp [json,brackets,common]
          · simp [json]

-- ?constructor[eq]=x on a column of that name: the function every object has under it comes first.
theorem constructor_invented : ¬ Query.Exact ⟨[("constructor[eq]","x")],none,["constructor"],[],fun _ => none,fun _ => .nan⟩ := by
  rintro ⟨shows,_⟩
  exact absurd (congrArg List.length (shows _ rfl "constructor")) (by decide +kernel)

end

end Zveltio.QueryFilters
