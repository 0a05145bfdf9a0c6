import Zveltio.RowRuleAgreement
namespace Zveltio.ElectricShape

open Kleene RowRules RowRuleAgreement

-- A column of the shape's table, in lower case where the rule asks for it.
def ident (name : String) : String :=
  "\"" ++ String.ofList (name.toList.flatMap fun char => if char = '"' then ['"','"'] else [char]) ++ "\""

structure Col where
  field : String
  caseless : Bool
  deriving DecidableEq

def Col.expr (col : Col) : Expr := if col.caseless then .lower (.column col.field) else .column col.field

def Col.text (col : Col) : String := if col.caseless then "lower(" ++ ident col.field ++ ")" else ident col.field

-- A clause of the WHERE, its params by their numbers.
inductive Clause where
  | never
  | tenants (numbers : List Nat)
  | present (col : Col)
  | compare (op : RuleOperator) (col : Col) (number : Nat)
  | listed (op : RuleOperator) (col : Col) (numbers : List Nat)
  deriving DecidableEq

def placeholder (number : Nat) : String := "$" ++ number.repr

def placeholders (numbers : List Nat) : String := ", ".intercalate (numbers.map placeholder)

namespace Clause

def text : Clause → String
  | never => "false"
  | tenants numbers => "tenant_id IN (" ++ placeholders numbers ++ ")"
  | present col => col.text ++ " IS NOT NULL"
  | compare op col number => col.text ++ " " ++ op.sql ++ " " ++ placeholder number
  | listed op col numbers => col.text ++ " " ++ op.sql ++ " (" ++ placeholders numbers ++ ")"

-- The params a clause names, as they stand in its text.
def numbers : Clause → List Nat
  | never | present _ => []
  | tenants numbers => numbers
  | compare _ _ number => [number]
  | listed _ _ numbers => numbers

end Clause

-- $n bound by position; a number without a param is unknown.
def bound (params : List String) (number : Nat) : Option String := if number = 0 then none else params[number - 1]?

def Clause.eval (env : Env) (params : List String) : Clause → Option Bool
  | .never => some false
  | .tenants numbers => oneOf (env.column "tenant_id") (numbers.map (bound params))
  | .present col => some (col.expr.eval env).isSome
  | .compare op col number => signed op (equal (col.expr.eval env) (bound params number))
  | .listed op col numbers => signed op (oneOf (col.expr.eval env) (numbers.map (bound params)))

structure Scope where
  rls : List RuleFilter
  readable : String → Bool
  altersRestrict : Bool
  entityChecks : Bool

inductive Reach where
  | all
  | some (tenants : List String)

structure ShapeInput where
  table : String
  columns : List String
  withheld : List String
  scope : Scope
  tenants : Reach

structure Refusal where
  code : String
  detail : String

structure ShapeDefinition where
  table : String
  columns : List String
  clauses : List Clause
  params : List String

def ShapeDefinition.whereText (shape : ShapeDefinition) : Option String :=
  if shape.clauses = [] then none else some (" AND ".intercalate (shape.clauses.map fun clause => "(" ++ clause.text ++ ")"))

def INTERNAL_COLUMNS : List String := ["search_vector","search_text"]

def MAX_SHAPE_TENANTS : Nat := 100

-- The clauses so far and the params they have pushed.
structure Draft where
  clauses : List Clause
  params : List String

def param (params : List String) (value : String) : List String × Nat := (params ++ [value],params.length + 1)

def paramAll (params : List String) : List String → List String × List Nat
  | [] => (params,[])
  | value::values =>
    let first := param params value
    let rest := paramAll first.1 values
    (rest.1,first.2::rest.2)

def tenantClause (input : ShapeInput) : Except Refusal Draft :=
  match input.tenants with
  | .all => .ok ⟨[],[]⟩
  | .some tenants =>
    if "tenant_id" ∉ input.columns then .error ⟨"electric.untenanted","\"" ++ input.table ++ "\" has no tenant_id to filter on."⟩
    else if MAX_SHAPE_TENANTS < tenants.length then
      .error ⟨"electric.reach_too_wide","This request reads " ++ tenants.length.repr ++ " tenants; an Electric shape holds at most " ++
        MAX_SHAPE_TENANTS.repr ++ "."⟩
    else if tenants = [] then .ok ⟨[.never],[]⟩
    else .ok ⟨[.tenants (paramAll [] tenants).2],(paramAll [] tenants).1⟩

-- One rule: its clause, and the params with those it pushes.
def ruleClause (params : List String) (filter : RuleFilter) (op : RuleOperator) : Clause × List String :=
  let col : Col := ⟨filter.field,filter.caseless⟩
  if keepsNothing filter.op filter.value then (.never,params)
  else if keepsEveryPresent filter.op filter.value then (.present col,params)
  else if op.list then
    let pushed := paramAll params filter.value.asList
    (.listed op col pushed.2,pushed.1)
  else
    let pushed := param params filter.value.text
    (.compare op col pushed.2,pushed.1)

def ruleClauses (input : ShapeInput) : List RuleFilter → Draft → Except Refusal Draft
  | [], draft => .ok draft
  | filter::filters, draft =>
    match if filter.field ∈ input.columns then isRuleOperator filter.op else none with
    | none => .error ⟨"electric.unfilterable","A row rule on \"" ++ input.table ++ "\" (" ++ filter.field ++ " " ++ filter.op ++
        ") cannot be applied by Electric."⟩
    | some op => ruleClauses input filters ⟨draft.clauses ++ [(ruleClause draft.params filter op).1],(ruleClause draft.params filter op).2⟩

def buildShapeDefinition (input : ShapeInput) : Except Refusal ShapeDefinition :=
  if input.scope.altersRestrict then
    .error ⟨"electric.unfilterable","An extension narrows what this caller reads from \"" ++ input.table ++ "\" with a query alter, " ++
      "which Electric cannot apply. Use provider: \"crdt\" for this collection."⟩
  else if input.scope.entityChecks then
    .error ⟨"electric.unfilterable","An extension decides row access on \"" ++ input.table ++ "\" in code, which Electric cannot apply. " ++
      "Use provider: \"crdt\" for this collection."⟩
  else (tenantClause input).bind fun draft => (ruleClauses input input.scope.rls draft).bind fun draft =>
    if !input.scope.readable "id" then
      .error ⟨"electric.columns","The caller may not read the primary key of \"" ++ input.table ++ "\"."⟩
    else .ok
      { table := input.table
        columns := input.columns.filter fun column => input.scope.readable column && column ∉ INTERNAL_COLUMNS && column ∉ input.withheld
        clauses := draft.clauses
        params := draft.params }

-- The definition as Electric's query parameters.
def shapeSearchParams (shape : ShapeDefinition) : List (String × String) :=
  [("table",shape.table),("columns",",".intercalate (shape.columns.map ident))] ++ (shape.whereText.map fun text => ("where",text)).toList ++
    shape.params.mapIdx fun index value => ("params[" ++ (index + 1).repr ++ "]",value)

-- A row stays where every clause is true; without a WHERE every row does.
def ShapeDefinition.Keeps (shape : ShapeDefinition) (env : Env) : Prop :=
  match shape.clauses with
  | [] => True
  | first::rest => rest.foldl (fun truth clause => both truth (clause.eval env shape.params)) (first.eval env shape.params) = some true

def InReach (tenant : Option String) : Reach → Prop
  | .all => True
  | .some tenants => ∃ id ∈ tenants, tenant = some id

theorem paramAll_exact (params values : List String) :
    paramAll params values = (params ++ values,List.range' (params.length + 1) values.length) := by
  induction values generalizing params with
  | nil => simp [paramAll]
  | cons value values ih =>
    rw [paramAll,ih]
    simp [param,List.range'_succ]

theorem bound_range (params values more : List String) :
    (List.range' (params.length + 1) values.length).map (bound (params ++ values ++ more)) = values.map some := by
  apply List.ext_getElem
  · simp
  · intro index first second
    have inside : index < values.length := by simpa using second
    simp only [List.getElem_map,List.getElem_range',bound]
    rw [if_neg (by omega),show params.length + 1 + 1 * index - 1 = params.length + index by omega,List.append_assoc,
      List.getElem?_append_right (by omega),List.getElem?_append_left (by omega)]
    simp

theorem bound_last (params more : List String) (value : String) : bound (params ++ [value] ++ more) (params.length + 1) = some value := by
  have whole := bound_range params [value] more
  simpa using whole

section
variable {env : Env}

theorem oneOf_listed {values : List String} {cell : Option String} (listed : values ≠ []) :
    oneOf cell (values.map some) = some true ↔ ∃ value ∈ values, cell = some value := by
  cases cell with
  | none => simp [oneOf_unknown (values.map some) (by simpa using listed)]
  | some raw =>
    rw [oneOf_some]
    simp

theorem col_expr (filter : RuleFilter) : (⟨filter.field,filter.caseless⟩ : Col).expr =
    if filter.caseless then .lower (.column filter.field) else .column filter.field := rfl

theorem listed_eval (op : RuleOperator) (filter : RuleFilter) (params more : List String) (list : op.list = true) :
    (Clause.listed op ⟨filter.field,filter.caseless⟩ (paramAll params filter.value.asList).2).eval env
        ((paramAll params filter.value.asList).1 ++ more) = (operatorCond op filter (.column filter.field)).eval env := by
  rw [paramAll_exact,operatorCond,if_pos list]
  simp only [Clause.eval,Cond.eval,bound_range,col_expr]
  simp [Function.comp_def,Expr.eval]

theorem compare_eval (op : RuleOperator) (filter : RuleFilter) (params more : List String) (scalar : op.list = false) :
    (Clause.compare op ⟨filter.field,filter.caseless⟩ (param params filter.value.text).2).eval env
        ((param params filter.value.text).1 ++ more) = (operatorCond op filter (.column filter.field)).eval env := by
  rw [operatorCond,if_neg (by simp [scalar])]
  simp only [Clause.eval,Cond.eval,param,bound_last,col_expr]
  rfl

theorem present_eval (filter : RuleFilter) (params : List String) :
    (Clause.present ⟨filter.field,filter.caseless⟩).eval env params = some (env.column filter.field).isSome := by
  cases filter.caseless <;> simp [Clause.eval,Col.expr,Expr.eval]

theorem ruleClause_exact {filter : RuleFilter} (params : List String) (known : isRuleOperator filter.op = some op) :
    ∃ pushed, (ruleClause params filter op).2 = params ++ pushed ∧
      (ruleClause params filter op).1.numbers = List.range' (params.length + 1) pushed.length ∧
      ∀ env more, (ruleClause params filter op).1.eval env (params ++ pushed ++ more) = some true ↔
        FilterKeeps env.lower filter (env.column filter.field) := by
  unfold ruleClause
  dsimp only
  split
  · next nothing =>
    obtain ⟨named,value⟩ := keepsNothing_exact.mp nothing
    refine ⟨[],by simp,rfl,fun env more => ?_⟩
    simp [Clause.eval,empty_list named value]
  · split
    · next present =>
      obtain ⟨named,value⟩ := keepsEveryPresent_exact.mp present
      refine ⟨[],by simp,rfl,fun env more => ?_⟩
      simp [present_eval,empty_exclusion named value]
    · next present =>
      have keeps (env : Env) := operator_exact env (.column filter.field) known (by simpa using present)
      by_cases list : op.list = true
      · rw [if_pos list]
        refine ⟨filter.value.asList,by simp [paramAll_exact],by simp [Clause.numbers,paramAll_exact],fun env more => ?_⟩
        have whole := @listed_eval env op filter params more list
        rw [paramAll_exact] at whole ⊢
        rw [whole]
        exact keeps env
      · rw [if_neg list]
        refine ⟨[filter.value.text],by simp [param],by simp [Clause.numbers,param],fun env more => ?_⟩
        exact (congrArg (· = some true) (@compare_eval env op filter params more (by simpa using list))).to_iff.trans (keeps env)

def Draft.Holds (draft : Draft) (env : Env) (more : List String) : Prop :=
  ∀ clause ∈ draft.clauses, clause.eval env (draft.params ++ more) = some true

def Draft.Numbered (draft : Draft) : Prop := draft.clauses.flatMap Clause.numbers = List.range' 1 draft.params.length

theorem rules_exact (numbered : draft.Numbered) (run : ruleClauses input filters draft = .ok next) :
    next.Numbered ∧ ∃ pushed, next.params = draft.params ++ pushed ∧
      ∀ env more, next.Holds env more ↔ draft.Holds env (pushed ++ more) ∧
        ∀ filter ∈ filters, FilterKeeps env.lower filter (env.column filter.field) := by
  induction filters generalizing draft with
  | nil =>
    cases run
    exact ⟨numbered,[],by simp,by simp⟩
  | cons filter filters ih =>
    rw [ruleClauses] at run
    split at run
    · cases run
    · next op found =>
      have known : isRuleOperator filter.op = some op := by
        split at found
        · exact found
        · cases found
      obtain ⟨pushed,params,numbers,keeps⟩ := ruleClause_exact draft.params known
      have numbered : Draft.Numbered ⟨draft.clauses ++ [(ruleClause draft.params filter op).1],(ruleClause draft.params filter op).2⟩ := by
        unfold Draft.Numbered at numbered ⊢
        rw [List.flatMap_append,numbered,params,List.flatMap_singleton,numbers,List.length_append,Nat.add_comm draft.params.length 1]
        exact List.range'_append_1
      obtain ⟨last,later,same,holds⟩ := ih numbered run
      refine ⟨last,pushed ++ later,by rw [same,params,List.append_assoc],fun env more => ?_⟩
      have here : Draft.Holds ⟨draft.clauses ++ [(ruleClause draft.params filter op).1],(ruleClause draft.params filter op).2⟩ env (later ++ more) ↔
          draft.Holds env (pushed ++ later ++ more) ∧ FilterKeeps env.lower filter (env.column filter.field) := by
        unfold Draft.Holds
        dsimp only
        rw [params,List.forall_mem_append,List.forall_mem_singleton,keeps env (later ++ more),List.append_assoc,List.append_assoc]
      rw [holds,here,List.forall_mem_cons,and_assoc]

theorem tenants_exact (run : tenantClause input = .ok draft) :
    draft.Numbered ∧ ∀ env more, draft.Holds env more ↔ InReach (env.column "tenant_id") input.tenants := by
  unfold tenantClause at run
  split at run
  · next reach =>
    cases run
    rw [reach]
    exact ⟨rfl,by simp [Draft.Holds,InReach]⟩
  · next tenants reach =>
    rw [reach]
    split at run
    · cases run
    · split at run
      · cases run
      · split at run
        · next empty =>
          cases run
          exact ⟨rfl,by simp [Draft.Holds,InReach,Clause.eval,empty]⟩
        · next listed =>
          cases run
          refine ⟨by simp [Draft.Numbered,Clause.numbers,paramAll_exact],fun env more => ?_⟩
          have values := bound_range [] tenants more
          simp only [List.length_nil,Nat.zero_add,List.nil_append] at values
          simp [Draft.Holds,InReach,Clause.eval,paramAll_exact,values,oneOf_listed listed]

theorem both_fold (eval : Clause → Option Bool) (clauses : List Clause) (start : Option Bool) :
    clauses.foldl (fun truth clause => both truth (eval clause)) start = some true ↔ start = some true ∧ ∀ clause ∈ clauses, eval clause = some true := by
  induction clauses generalizing start with
  | nil => simp
  | cons clause clauses ih => rw [List.foldl_cons,ih,both_true,List.forall_mem_cons,and_assoc]

theorem keeps_each (shape : ShapeDefinition) (env : Env) : shape.Keeps env ↔ ∀ clause ∈ shape.clauses, clause.eval env shape.params = some true := by
  unfold ShapeDefinition.Keeps
  split
  · next empty => simp [empty]
  · next first rest whole => rw [both_fold (fun clause => clause.eval env shape.params),whole,List.forall_mem_cons]

theorem rules_refuse (bad : ∃ filter ∈ filters, isRuleOperator filter.op = none ∨ filter.field ∉ input.columns) (draft : Draft) :
    ∃ refusal, ruleClauses input filters draft = .error refusal := by
  induction filters generalizing draft with
  | nil =>
    obtain ⟨_,listed,_⟩ := bad
    cases listed
  | cons filter filters ih =>
    rw [ruleClauses]
    cases found : (if filter.field ∈ input.columns then isRuleOperator filter.op else none) with
    | none => exact ⟨_,rfl⟩
    | some op =>
      obtain ⟨other,listed,wrong⟩ := bad
      rcases List.mem_cons.mp listed with rfl | listed
      · split at found
        · next physical => simp [found,physical] at wrong
        · cases found
      · exact ih ⟨other,listed,wrong⟩ _

theorem sent_exact {draft : Draft} (numbered : draft.Numbered) :
    draft.params.mapIdx (fun index value => ("params[" ++ (index + 1).repr ++ "]",value)) =
      ((draft.clauses.flatMap Clause.numbers).zip draft.params).map fun sent => ("params[" ++ sent.1.repr ++ "]",sent.2) := by
  unfold Draft.Numbered at numbered
  rw [numbered]
  apply List.ext_getElem
  · simp
  · intro index first second
    simp [Nat.add_comm]

theorem shape_exact (input : ShapeInput) :
    (∀ shape, buildShapeDefinition input = .ok shape →
      (∀ env, shape.Keeps env ↔ InReach (env.column "tenant_id") input.tenants ∧ keepsInMemory env.lower env.column input.scope.rls) ∧
      shape.clauses.flatMap Clause.numbers = List.range' 1 shape.params.length ∧
      shapeSearchParams shape = [("table",shape.table),("columns",",".intercalate (shape.columns.map ident))] ++
        (shape.whereText.map fun text => ("where",text)).toList ++
        ((shape.clauses.flatMap Clause.numbers).zip shape.params).map fun sent => ("params[" ++ sent.1.repr ++ "]",sent.2)) ∧
      ((∃ filter ∈ input.scope.rls, isRuleOperator filter.op = none ∨ filter.field ∉ input.columns) →
        ∃ refusal, buildShapeDefinition input = .error refusal) := by
  constructor
  · intro shape built
    unfold buildShapeDefinition at built
    split at built
    · cases built
    · split at built
      · cases built
      · cases reach : tenantClause input with
        | error refusal => simp [reach,Except.bind] at built
        | ok start =>
          cases run : ruleClauses input input.scope.rls start with
          | error refusal => simp [reach,run,Except.bind] at built
          | ok draft =>
            simp only [reach,run,Except.bind] at built
            split at built
            · cases built
            · obtain ⟨numbered,tenants⟩ := tenants_exact reach
              obtain ⟨last,pushed,_,holds⟩ := rules_exact numbered run
              cases built
              refine ⟨fun env => ?_,last,?_⟩
              · have whole := holds env []
                rw [tenants] at whole
                rw [keeps_each,matches_exact,← whole]
                simp [Draft.Holds]
              · unfold shapeSearchParams
                dsimp only
                rw [sent_exact last]
  · intro bad
    unfold buildShapeDefinition
    split
    · exact ⟨_,rfl⟩
    · split
      · exact ⟨_,rfl⟩
      · cases reach : tenantClause input with
        | error refusal => exact ⟨refusal,rfl⟩
        | ok start =>
          obtain ⟨refusal,run⟩ := rules_refuse bad start
          exact ⟨refusal,by simp [run,Except.bind]⟩

end

end Zveltio.ElectricShape
