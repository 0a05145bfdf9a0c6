import Zveltio.Kleene
namespace Zveltio.RowRules

open Kleene

def split (separator : Char) (text : String) : List String := (text.toList.splitOn separator).map String.ofList

def join (separator : Char) (texts : List String) : String :=
  String.ofList ([separator].intercalate (texts.map String.toList))

def isSpace (char : Char) : Bool :=
  char.val ∈ [0x9,0xa,0xb,0xc,0xd,0x20,0xa0,0x1680,0x2028,0x2029,0x202f,0x205f,0x3000,0xfeff] ||
    (0x2000 ≤ char.val && char.val ≤ 0x200a)

def trim (text : String) : String :=
  String.ofList ((text.toList.dropWhile isSpace).reverse.dropWhile isSpace).reverse

def startsWith (text start : String) : Bool := start.toList.isPrefixOf text.toList

def slice (text : String) (count : Nat) : String := String.ofList (text.toList.drop count)

-- value.split(',').map(trim).filter(Boolean)
def staticList (text : String) : List String := ((split ',' text).map trim).filter fun item => item ≠ ""

inductive RuleOperator where
  | eq
  | neq
  | inList
  | notIn
  deriving DecidableEq

-- Object.hasOwn(RULE_OPERATORS, op)
def isRuleOperator : String → Option RuleOperator
  | "eq" => some .eq
  | "neq" => some .neq
  | "in" => some .inList
  | "not_in" => some .notIn
  | _ => none

def RuleOperator.list : RuleOperator → Bool
  | .inList | .notIn => true
  | .eq | .neq => false

def RuleOperator.sql : RuleOperator → String
  | .eq => "="
  | .neq => "<>"
  | .inList => "IN"
  | .notIn => "NOT IN"

def RuleOperator.negative : RuleOperator → Bool
  | .neq | .notIn => true
  | .eq | .inList => false

-- SQL as the four appliers write it: text expressions, and conditions over them.
inductive Expr where
  | column (name : String)
  | ref (name : String)
  | member (key : String)
  | quoted (value : String)
  | setting (name : String)
  | nullif (inner other : Expr)
  | coalesce (inner other : Expr)
  | lower (inner : Expr)
  | scalar (inner : Expr)
  | cast (inner : Expr) (pgType : String)
  deriving DecidableEq

inductive Cond where
  | never
  | compare (op : RuleOperator) (left right : Expr)
  | listed (op : RuleOperator) (left : Expr) (right : List Expr)
  | present (inner : Expr)
  | anyOf (value array : Expr)
  | distinct (left right : Expr)
  | not (inner : Cond)
  | or (left right : Cond)
  | and (left right : Cond)
  | select (inner : Cond)
  | group (inner : Cond)
  deriving DecidableEq

-- column: by its quoted name. ref: as the query builder resolves a reference;
-- none is NULL or a reference that fails. member: ->> on the jsonb snapshot.
structure Env where
  lower : String → String
  cast : String → String → Option String
  setting : String → Option String
  column : String → Option String
  ref : String → Option String
  member : String → Option String

def Expr.eval (env : Env) : Expr → Option String
  | .column name => env.column name
  | .ref name => env.ref name
  | .member key => env.member key
  | .quoted value => some value
  | .setting name => env.setting name
  | .nullif inner other => if inner.eval env = other.eval env then none else inner.eval env
  | .coalesce inner other => (inner.eval env).or (other.eval env)
  | .lower inner => (inner.eval env).map env.lower
  | .scalar inner => inner.eval env
  | .cast inner pgType => (inner.eval env).bind (env.cast pgType)

def signed (op : RuleOperator) (truth : Option Bool) : Option Bool := if op.negative then neg truth else truth

-- string_to_array: no elements for the empty string.
def stringToArray (text : String) : List String := if text = "" then [] else split ',' text

def Cond.eval (env : Env) : Cond → Option Bool
  | .never => some false
  | .compare op left right => signed op (equal (left.eval env) (right.eval env))
  | .listed op left right => signed op (oneOf (left.eval env) (right.map (Expr.eval env)))
  | .present inner => some (inner.eval env).isSome
  | .anyOf value array => (array.eval env).bind fun text => oneOf (value.eval env) ((stringToArray text).map some)
  | .distinct left right => some (left.eval env ≠ right.eval env)
  | .not inner => neg (inner.eval env)
  | .or left right => either (left.eval env) (right.eval env)
  | .and left right => both (left.eval env) (right.eval env)
  | .select inner => inner.eval env
  | .group inner => inner.eval env

structure RowRule where
  role : String
  filterField : String
  filterOp : String
  filterValueSource : String
  deriving DecidableEq

inductive FilterValue where
  | one (value : String)
  | many (values : List String)
  deriving DecidableEq

def FilterValue.asList : FilterValue → List String
  | .one value => [value]
  | .many values => values

-- String(value)
def FilterValue.text : FilterValue → String
  | .one value => value
  | .many values => join ',' values

def RuleOperator.keep (op : RuleOperator) (value : String) (condition : FilterValue) : Bool :=
  match op with
  | .eq => value = condition.text
  | .neq => value ≠ condition.text
  | .inList => value ∈ condition.asList
  | .notIn => value ∉ condition.asList

structure RuleFilter where
  field : String
  op : String
  value : FilterValue
  caseless : Bool

def keepsNothing (op : String) (value : FilterValue) : Bool := op = "in" && value = .many []

def keepsEveryPresent (op : String) (value : FilterValue) : Bool := op = "not_in" && value = .many []

def foldsCase (source : String) : Bool := source = "user_email"

def unsupportedOperator (field op : String) : String :=
  "RLS policy on \"" ++ field ++ "\" uses operator \"" ++ op ++ "\", which this engine " ++
  "cannot apply. Refusing the query rather than returning rows the policy was " ++
  "meant to hide. Fix or disable the policy."

-- Whom a rule's value sources resolve against, and the roles it is matched on.
structure Identity where
  id : String
  email : Option String
  role : String
  roles : List String

-- keyIssuerRowActor: exempt, null, or the issuer as their own session would be.
inductive Issuer where
  | exempt
  | unknown
  | acting (issuer : Identity)

inductive Caller where
  | session (user : Identity) (named : user.id ≠ "")
  | key (id : String) (issuer : Issuer)

structure Actor where
  caller : Caller
  exempt : Bool

def Caller.own : Caller → Identity
  | .session user _ => user
  | .key id _ => ⟨id,none,"api_key",["api_key"]⟩

def Caller.issuer : Caller → Issuer
  | .session _ _ => .exempt
  | .key _ issuer => issuer

def resolveValue (source : String) (user : Identity) : Option String :=
  if source = "user_id" then some user.id
  else if source = "user_email" then some (user.email.getD "")
  else if source = "user_role" then some user.role
  else if startsWith source "static:" then some (slice source 7)
  else none

def ownerSource (source : String) : Bool := source = "user_id" || source = "user_email"

-- The filter of a rule whose value is known. Only a static source is a list.
def filterOf (lower : String → String) (policy : RowRule) (value : String) : RuleFilter :=
  let op := if policy.filterOp = "" then "eq" else policy.filterOp
  let isListOp := op = "in" || op = "not_in"
  let condValue : FilterValue :=
    if isListOp && startsWith policy.filterValueSource "static:" then .many (staticList value) else .one value
  if foldsCase policy.filterValueSource then ⟨policy.filterField,op,.one (lower condValue.text),true⟩
  else ⟨policy.filterField,op,condValue,false⟩

def ruleFilter (lower : String → String) (actor : Identity) (policy : RowRule) : Option RuleFilter :=
  if ¬(policy.role = "*" ∨ policy.role ∈ actor.roles) then none else
  match resolveValue policy.filterValueSource actor with
  | none => some ⟨policy.filterField,"in",.many [],false⟩
  | some value =>
    if value = "" && ownerSource policy.filterValueSource then some ⟨policy.filterField,"in",.many [],false⟩
    else some (filterOf lower policy value)

def rulesFor (lower : String → String) (policies : List RowRule) (actor : Identity) : List RuleFilter :=
  policies.filterMap (ruleFilter lower actor)

def getRlsFilters (lower : String → String) (policies : List RowRule) (actor : Actor) : List RuleFilter :=
  if actor.exempt || policies.isEmpty then [] else
  rulesFor lower policies actor.caller.own ++
    match actor.caller.issuer with
    | .exempt => []
    | .unknown => [⟨"id","in",.many [],false⟩]
    | .acting issuer => rulesFor lower policies issuer

def matchesRlsFilters (lower : String → String) (record : String → Option String) :
    List RuleFilter → Except String Bool
  | [] => .ok true
  | filter::rest => match isRuleOperator filter.op with
    | none => .error (unsupportedOperator filter.field filter.op)
    | some op => match record filter.field with
      | none => .ok false
      | some raw =>
        if op.keep (if filter.caseless then lower raw else raw) filter.value then matchesRlsFilters lower record rest
        else .ok false

-- The condition of one filter on a column, shared by the two that write SQL.
def operatorCond (op : RuleOperator) (filter : RuleFilter) (column : Expr) : Cond :=
  let left := if filter.caseless then .lower column else column
  if op.list then .listed op left (filter.value.asList.map .quoted) else .compare op left (.quoted filter.value.text)

def whereOf (filter : RuleFilter) : Except String Cond :=
  if keepsNothing filter.op filter.value then .ok .never
  else if keepsEveryPresent filter.op filter.value then .ok (.present (.ref filter.field))
  else match isRuleOperator filter.op with
    | some op => .ok (operatorCond op filter (.ref filter.field))
    | none => .error (unsupportedOperator filter.field filter.op)

def applyRlsFilters (filters : List RuleFilter) : Except String (List Cond) := filters.mapM whereOf

-- SQL over the jsonb snapshot.
def jsonConditionOf (filter : RuleFilter) : Except String Cond :=
  match isRuleOperator filter.op with
  | none => .error (unsupportedOperator filter.field filter.op)
  | some op =>
    if keepsNothing filter.op filter.value then .ok .never
    else if keepsEveryPresent filter.op filter.value then .ok (.present (.member filter.field))
    else .ok (operatorCond op filter (.member filter.field))

def rlsJsonConditions (filters : List RuleFilter) : Except String (List Cond) := filters.mapM jsonConditionOf

def keepsInMemory (lower : String → String) (record : String → Option String) (filters : List RuleFilter) : Prop :=
  matchesRlsFilters lower record filters = .ok true

def keepsRow (env : Env) (conditions : Except String (List Cond)) : Prop :=
  ∃ conds, conditions = .ok conds ∧ ∀ cond ∈ conds, cond.eval env = some true

end Zveltio.RowRules
