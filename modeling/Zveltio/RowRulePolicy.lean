import Zveltio.RowRules
namespace Zveltio.RowRulePolicy

open RowRules

def lit (value : String) : String :=
  "'" ++ String.ofList (value.toList.flatMap fun char => if char = '\'' then ['\'','\''] else [char]) ++ "'"

def Expr.text : Expr → String
  | .column name => "\"" ++ name ++ "\""
  | .ref name => "\"" ++ name ++ "\""
  | .member key => "data ->> " ++ lit key
  | .quoted value => lit value
  | .setting name => "current_setting('" ++ name ++ "', true)"
  | .nullif inner other => "nullif(" ++ Expr.text inner ++ ", " ++ Expr.text other ++ ")"
  | .coalesce inner other => "coalesce(" ++ Expr.text inner ++ ", " ++ Expr.text other ++ ")"
  | .lower inner => "lower(" ++ Expr.text inner ++ ")"
  | .scalar inner => "(SELECT " ++ Expr.text inner ++ ")"
  | .cast inner pgType => "CAST(" ++ Expr.text inner ++ " AS " ++ pgType ++ ")"

def Cond.text : Cond → String
  | .never => "false"
  | .compare op left right => Expr.text left ++ " " ++ op.sql ++ " " ++ Expr.text right
  | .listed op left right => Expr.text left ++ " " ++ op.sql ++ " (" ++ ", ".intercalate (right.map Expr.text) ++ ")"
  | .present inner => Expr.text inner ++ " IS NOT NULL"
  | .anyOf value array => Expr.text value ++ " = ANY (string_to_array(" ++ Expr.text array ++ ", ','))"
  | .distinct left right => Expr.text left ++ " IS DISTINCT FROM " ++ Expr.text right
  | .not inner => "NOT " ++ Cond.text inner
  | .or left right => Cond.text left ++ " OR " ++ Cond.text right
  | .and left right => Cond.text left ++ " AND " ++ Cond.text right
  | .select inner => "(SELECT " ++ Cond.text inner ++ ")"
  | .group inner => "(" ++ Cond.text inner ++ ")"

def castable : List String := ["text","character varying","character","uuid","integer","bigint","smallint","boolean",
  "numeric","double precision","real"]

def identStart (char : Char) : Bool :=
  ('a' ≤ char && char ≤ 'z') || ('A' ≤ char && char ≤ 'Z') || char = '_'

def identPart (char : Char) : Bool := identStart char || ('0' ≤ char && char ≤ '9')

-- /^[a-zA-Z_][a-zA-Z0-9_]*$/
def isIdent (name : String) : Bool :=
  match name.toList with
  | [] => false
  | first::rest => identStart first && rest.all identPart

def ident (name : String) : Option Expr := if isIdent name then some (.column name) else none

def hexDigit (digit : Nat) : Char := "0123456789abcdef".toList.getD digit '0'

-- JSON.stringify of a string.
def jsonString (text : String) : String :=
  "\"" ++ String.ofList (text.toList.flatMap fun char =>
    if char = '"' then ['\\','"']
    else if char = '\\' then ['\\','\\']
    else if char.val = 8 then ['\\','b']
    else if char.val = 9 then ['\\','t']
    else if char.val = 10 then ['\\','n']
    else if char.val = 12 then ['\\','f']
    else if char.val = 13 then ['\\','r']
    else if char.toNat < 32 then ['\\','u','0','0',hexDigit (char.toNat / 16),hexDigit (char.toNat % 16)]
    else [char]) ++ "\""

def callerPrefix : String := "zveltio."

def issuerPrefix : String := "zveltio.issuer_"

def castTo (pgType : String) (inner : Expr) : Expr := if pgType = "text" then inner else .cast inner pgType

-- The caller's value for a source; none for a source this cannot express.
def valueExpr (source pgType start : String) : Option Expr :=
  if source = "user_id" ∨ source = "user_email" then
    some (castTo pgType (.scalar (.nullif (.setting (start ++ source)) (.quoted ""))))
  else if source = "user_role" then some (castTo pgType (.scalar (.setting (start ++ source))))
  else if startsWith source "static:" then some (castTo pgType (.quoted (slice source 7)))
  else none

def roleGuard (role start : String) : Option Cond :=
  if role = "*" then none
  else some (.select (.anyOf (.quoted role) (.coalesce (.setting (start ++ "user_roles")) (.quoted ""))))

def issuerApplicable (rule : RowRule) (condition : Cond) : Cond :=
  match roleGuard rule.role issuerPrefix with
  | some role => .group (.or (.not (.group role)) condition)
  | none => .group condition

def noActor : Cond := .select (.distinct (.setting "zveltio.actor") (.quoted "on"))

def applicable (rule : RowRule) (condition : Cond) (perActor : Bool) : Cond :=
  let role := ((roleGuard rule.role callerPrefix).map fun role => Cond.not (.group role)).toList
  let guards := role ++ if perActor then [noActor] else []
  .group (guards.foldr .or condition)

def conditionOf (rule : RowRule) (op : RuleOperator) (col : Expr) (pgType : String) (lhs rhs : Expr) : Cond :=
  if op.list then
    if startsWith rule.filterValueSource "static:" then
      let items := staticList (slice rule.filterValueSource 7)
      if keepsNothing rule.filterOp (.many items) then .never
      else if keepsEveryPresent rule.filterOp (.many items) then .present col
      else .listed op lhs (items.map fun item => castTo pgType (.quoted item))
    else .listed op lhs [rhs]
  else .compare op lhs rhs

-- What one rule adds: a term, its twin for the issuer, and why it was denied.
structure RuleTerm where
  term : Cond
  issuerTerm : Cond
  reason : Option String
  column : Option String

def perActor (rule : RowRule) : Bool := !startsWith rule.filterValueSource "static:"

def deny (rule : RowRule) (perActor : Bool) (reason : Option String) : RuleTerm :=
  ⟨applicable rule .never perActor,issuerApplicable rule .never,reason,none⟩

def conditionFor (rule : RowRule) (op : RuleOperator) (col : Expr) (pgType start : String) : Cond :=
  let fold (inner : Expr) : Expr := if foldsCase rule.filterValueSource then .lower inner else inner
  match valueExpr rule.filterValueSource pgType start with
  | some value => conditionOf rule op col pgType (fold col) (fold value)
  | none => .never

def ruleTerm (columnTypes : String → Option String) (rule : RowRule) : RuleTerm :=
  if (valueExpr rule.filterValueSource "text" callerPrefix).isNone then deny rule true none else
  match ident rule.filterField with
  | none => deny rule (perActor rule) (some ("field " ++ jsonString rule.filterField ++ " is not an identifier"))
  | some col =>
    match (columnTypes rule.filterField).filter fun pgType => pgType ≠ "" with
    | none => deny rule (perActor rule) (some ("column " ++ rule.filterField ++ " does not exist on the table"))
    | some pgType =>
      if pgType ∉ castable then deny rule (perActor rule)
        (some ("column " ++ rule.filterField ++ " is " ++ pgType ++ ", which this cannot cast a setting into safely"))
      else match isRuleOperator rule.filterOp with
        | none => deny rule (perActor rule)
          (some ("operator " ++ jsonString rule.filterOp ++ " is not one of eq/neq/in/not_in"))
        | some op =>
          let condition := conditionFor rule op col pgType callerPrefix
          ⟨applicable rule condition (perActor rule),
            issuerApplicable rule (conditionFor rule op col pgType issuerPrefix),none,
            if condition = .never then none else some rule.filterField⟩

def fingerprint (rule : RowRule) : String :=
  rule.role ++ "|" ++ rule.filterField ++ "|" ++ rule.filterOp ++ "|" ++ rule.filterValueSource

def unseen (seen : List String) : List RowRule → List RowRule
  | [] => []
  | rule::rest =>
    if fingerprint rule ∈ seen then unseen seen rest else rule::unseen (fingerprint rule::seen) rest

structure GeneratedPolicy where
  predicate : Option Cond
  skipped : List (RowRule × String)
  columns : List String

def joinAnd (first : Cond) : List Cond → Cond
  | [] => first
  | next::rest => .and first (joinAnd next rest)

def exemptCond : Cond := .select (.listed .inList
  (.lower (.coalesce (.nullif (.setting "zveltio.rls_bypass") (.quoted "")) (.quoted "off")))
  [.quoted "on",.quoted "true",.quoted "1"])

def issuerCond (issuerTerms : List Cond) : Cond :=
  .group (.or (.select (.compare .eq (.coalesce (.setting "zveltio.issuer_rows") (.quoted "")) (.quoted "")))
    (.group (joinAnd (.select (.compare .eq (.setting "zveltio.issuer_rows") (.quoted "on"))) issuerTerms)))

def buildRowRulePredicate (rules : List RowRule) (columnTypes : String → Option String) : GeneratedPolicy :=
  let kept := unseen [] rules
  let terms := kept.map (ruleTerm columnTypes)
  let skipped := kept.filterMap fun rule => (ruleTerm columnTypes rule).reason.map fun reason => (rule,reason)
  match terms with
  | [] => ⟨none,skipped,[]⟩
  | first::rest =>
    let issuer := issuerCond (terms.map RuleTerm.issuerTerm)
    ⟨some (.or exemptCond (.group (joinAnd first.term (rest.map RuleTerm.term ++ [issuer])))),skipped,
      (terms.filterMap RuleTerm.column).eraseDups⟩

def GeneratedPolicy.text (policy : GeneratedPolicy) : Option String := policy.predicate.map Cond.text

-- issuerSettings, and the settings a request's transaction publishes.
structure IssuerSettings where
  mode : String
  userId : String
  email : String
  role : String
  roles : String

def issuerSettings : Issuer → IssuerSettings
  | .exempt => ⟨"","","","",""⟩
  | .unknown => ⟨"deny","","","",""⟩
  | .acting issuer => ⟨"on",issuer.id,issuer.email.getD "",issuer.role,join ',' issuer.roles⟩

def hasActor : Caller → Bool
  | .session user _ => user.id ≠ ""
  | .key _ _ => true

def published (actor : Actor) : List (String × String) :=
  let own := actor.caller.own
  let issuer := issuerSettings actor.caller.issuer
  [("zveltio.user_id",own.id),
    ("zveltio.user_email",own.email.getD ""),
    ("zveltio.user_role",own.role),
    ("zveltio.user_roles",join ',' own.roles),
    ("zveltio.issuer_rows",issuer.mode),
    ("zveltio.issuer_user_id",issuer.userId),
    ("zveltio.issuer_user_email",issuer.email),
    ("zveltio.issuer_user_role",issuer.role),
    ("zveltio.issuer_user_roles",issuer.roles),
    ("zveltio.actor",if hasActor actor.caller then "on" else "off"),
    ("zveltio.rls_bypass",if actor.exempt then "on" else "off")]

def currentSetting (actor : Actor) (name : String) : Option String := (published actor).lookup name

-- A restrictive policy keeps what it confirms; without one every row is kept.
def policyKeeps (env : Env) (policy : GeneratedPolicy) : Prop :=
  ∀ predicate, policy.predicate = some predicate → predicate.eval env = some true

end Zveltio.RowRulePolicy
