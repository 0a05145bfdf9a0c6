import Zveltio.RowRulePolicy
namespace Zveltio.RowRuleAgreement

open Kleene RowRules RowRulePolicy

section
variable (lower : String → String)

-- What a rule says of a cell, before any of its four readers: an address compares
-- without case, only a static source is a list, and nobody owns no row.
def fold (source text : String) : String := if foldsCase source then lower text else text

def items (source value : String) : List String :=
  if startsWith source "static:" then staticList value else [value]

def Means (op : RuleOperator) (source text value : String) : Prop :=
  match op with
  | .eq => fold lower source text = fold lower source value
  | .neq => fold lower source text ≠ fold lower source value
  | .inList => ∃ item ∈ items source value, fold lower source text = fold lower source item
  | .notIn => ∀ item ∈ items source value, fold lower source text ≠ fold lower source item

def ownValue (source : String) (actor : Identity) : Option String :=
  (resolveValue source actor).filter fun value => !(value = "" && ownerSource source)

def Satisfied (actor : Identity) (op source : String) (cell : Option String) : Prop :=
  ∃ known text value, isRuleOperator op = some known ∧ cell = some text ∧ ownValue source actor = some value ∧
    Means lower known source text value

-- The engine's readers match whole role names and take an empty operator for eq.
def Bound (actor : Identity) (rule : RowRule) : Prop := rule.role = "*" ∨ rule.role ∈ actor.roles

def orEq (op : String) : String := if op = "" then "eq" else op

def HidesEngine (actor : Identity) (rule : RowRule) (cell : Option String) : Prop :=
  Bound actor rule ∧ ¬Satisfied lower actor (orEq rule.filterOp) rule.filterValueSource cell

-- The policy matches the comma-joined list, denies what it cannot name, and reads
-- only the first rule of a fingerprint.
def Listed (actor : Identity) (rule : RowRule) : Prop :=
  rule.role = "*" ∨ rule.role ∈ stringToArray (join ',' actor.roles)

def Shadowed (rules : List RowRule) (rule : RowRule) : Prop :=
  rules.find? (fun other => fingerprint other = fingerprint rule) ≠ some rule

def HidesPolicy (rules : List RowRule) (actor : Identity) (rule : RowRule) (cell : Option String) : Prop :=
  ¬Shadowed rules rule ∧ Listed actor rule ∧
    (isIdent rule.filterField = false ∨ ¬Satisfied lower actor rule.filterOp rule.filterValueSource cell)

end

def halves (caller : Caller) : List Identity :=
  caller.own::match caller.issuer with
    | .acting issuer => [issuer]
    | _ => []

-- A row is hidden by some rule of the actor or of a key's issuer; a key whose
-- issuer is unknown sees no row of a collection that has rules.
def Hidden (rules : List RowRule) (caller : Caller) (hides : Identity → RowRule → Prop) : Prop :=
  rules ≠ [] ∧ caller.issuer = .unknown ∨ ∃ actor ∈ halves caller, ∃ rule ∈ rules, hides actor rule

section
variable {lower : String → String}

def FilterKeeps (lower : String → String) (filter : RuleFilter) (cell : Option String) : Prop :=
  ∃ op raw, isRuleOperator filter.op = some op ∧ cell = some raw ∧
    op.keep (if filter.caseless then lower raw else raw) filter.value

theorem matches_exact {record : String → Option String} {filters : List RuleFilter} :
    keepsInMemory lower record filters ↔ ∀ filter ∈ filters, FilterKeeps lower filter (record filter.field) := by
  unfold keepsInMemory
  induction filters with
  | nil => simp [matchesRlsFilters]
  | cons filter rest ih =>
    rw [List.forall_mem_cons,← ih]
    simp only [matchesRlsFilters,FilterKeeps]
    cases known : isRuleOperator filter.op with
    | none => simp
    | some op =>
      cases cell : record filter.field with
      | none => simp
      | some raw =>
        by_cases kept : op.keep (if filter.caseless = true then lower raw else raw) filter.value <;> simp [kept]

theorem keepsRow_exact {conditionOf : RuleFilter → Except String Cond} {filters : List RuleFilter} :
    keepsRow env (filters.mapM conditionOf) ↔
      ∀ filter ∈ filters, ∃ cond, conditionOf filter = .ok cond ∧ cond.eval env = some true := by
  induction filters with
  | nil => simp [keepsRow,pure,Except.pure]
  | cons filter rest ih =>
    rw [List.forall_mem_cons,← ih]
    simp only [keepsRow,List.mapM_cons,bind,Except.bind,pure,Except.pure]
    cases conditionOf filter with
    | error message => simp
    | ok cond => cases rest.mapM conditionOf <;> simp

theorem signed_true {truth : Option Bool} (op : RuleOperator) :
    signed op truth = some true ↔ truth = some (!op.negative) := by
  cases negative : op.negative <;> simp [signed,negative]

theorem operatorCond_exact {op : RuleOperator} {filter : RuleFilter}
    (listed : op = .notIn → filter.value ≠ .many []) : (operatorCond op filter column).eval env = some true ↔
      ∃ raw, column.eval env = some raw ∧ op.keep (if filter.caseless then env.lower raw else raw) filter.value := by
  have left : (if filter.caseless = true then Expr.lower column else column).eval env =
      (column.eval env).map fun raw => if filter.caseless then env.lower raw else raw := by
    cases filter.caseless <;> simp [Expr.eval]
  have right : (filter.value.asList.map Expr.quoted).map (Expr.eval env) = filter.value.asList.map some := by
    simp [Function.comp_def,Expr.eval]
  cases cell : column.eval env with
  | none =>
    simp only [reduceCtorEq,false_and,exists_const,iff_false]
    cases op with
    | eq | neq => simp [operatorCond,RuleOperator.list,Cond.eval,left,cell,equal,signed_true]
    | inList | notIn =>
      simp only [operatorCond,RuleOperator.list,if_true,Cond.eval,left,cell,right,Option.map_none,signed_true]
      cases items : filter.value.asList with
      | nil =>
        have empty : filter.value = .many [] := by
          cases value : filter.value with
          | one text => simp [FilterValue.asList,value] at items
          | many texts =>
            simp only [FilterValue.asList,value] at items
            rw [items]
        simp_all [oneOf,RuleOperator.negative]
      | cons first rest => simp [oneOf_unknown]
  | some raw =>
    simp only [Option.some.injEq,exists_eq_left']
    cases op <;>
      simp [operatorCond,RuleOperator.list,Cond.eval,left,cell,right,Expr.eval,oneOf_some,signed_true,
        RuleOperator.negative,RuleOperator.keep]

theorem keepsNothing_exact : keepsNothing op value = true ↔ op = "in" ∧ value = .many [] := by
  simp [keepsNothing]

theorem keepsEveryPresent_exact : keepsEveryPresent op value = true ↔ op = "not_in" ∧ value = .many [] := by
  simp [keepsEveryPresent]

theorem notIn_exact : isRuleOperator op = some .notIn ↔ op = "not_in" := by
  unfold isRuleOperator
  split <;> simp_all

theorem empty_list {filter : RuleFilter} (op : filter.op = "in") (value : filter.value = .many []) :
    ¬FilterKeeps lower filter cell := by
  rintro ⟨known,raw,named,_,kept⟩
  rw [op] at named
  cases Option.some.inj named
  simp [RuleOperator.keep,value,FilterValue.asList] at kept

theorem empty_exclusion {filter : RuleFilter} (op : filter.op = "not_in") (value : filter.value = .many []) :
    FilterKeeps lower filter cell ↔ cell.isSome := by
  constructor
  · rintro ⟨_,_,_,rfl,_⟩
    rfl
  · intro present
    obtain ⟨raw,rfl⟩ := Option.isSome_iff_exists.mp present
    exact ⟨.notIn,raw,op ▸ rfl,rfl,by simp [RuleOperator.keep,value,FilterValue.asList]⟩

theorem operator_exact {filter : RuleFilter} (env : Env) (column : Expr) (known : isRuleOperator filter.op = some op)
    (kept : keepsEveryPresent filter.op filter.value = false) :
    (operatorCond op filter column).eval env = some true ↔ FilterKeeps env.lower filter (column.eval env) := by
  have listed : op = .notIn → filter.value ≠ .many [] := by
    rintro rfl empty
    have present := keepsEveryPresent_exact.mpr ⟨notIn_exact.mp known,empty⟩
    simp [kept] at present
  rw [operatorCond_exact listed,FilterKeeps]
  constructor
  · rintro ⟨raw,cell,passes⟩
    exact ⟨op,raw,known,cell,passes⟩
  · rintro ⟨other,raw,same,cell,passes⟩
    cases Option.some.inj (known.symm.trans same)
    exact ⟨raw,cell,passes⟩

theorem where_exact {filter : RuleFilter} : (∃ cond, whereOf filter = .ok cond ∧ cond.eval env = some true) ↔
    FilterKeeps env.lower filter (env.ref filter.field) := by
  unfold whereOf
  split
  · next nothing =>
    obtain ⟨op,value⟩ := keepsNothing_exact.mp nothing
    simp [Cond.eval,empty_list op value]
  · split
    · next present =>
      obtain ⟨op,value⟩ := keepsEveryPresent_exact.mp present
      simp [Cond.eval,Expr.eval,empty_exclusion op value]
    · next present =>
      cases known : isRuleOperator filter.op with
      | none => simp [FilterKeeps,known]
      | some op =>
        have exact' := operator_exact env (.ref filter.field) known (by simpa using present)
        simpa [Expr.eval] using exact'

theorem json_exact {filter : RuleFilter} : (∃ cond, jsonConditionOf filter = .ok cond ∧ cond.eval env = some true) ↔
    FilterKeeps env.lower filter (env.member filter.field) := by
  unfold jsonConditionOf
  cases known : isRuleOperator filter.op with
  | none => simp [FilterKeeps,known]
  | some op =>
    simp only
    split
    · next nothing =>
      obtain ⟨named,value⟩ := keepsNothing_exact.mp nothing
      simp [Cond.eval,empty_list named value]
    · split
      · next present =>
        obtain ⟨named,value⟩ := keepsEveryPresent_exact.mp present
        simp [Cond.eval,Expr.eval,empty_exclusion named value]
      · next present =>
        have exact' := operator_exact env (.member filter.field) known (by simpa using present)
        simpa [Expr.eval] using exact'

theorem static_apart (static : startsWith source "static:" = true) :
    source ≠ "user_id" ∧ source ≠ "user_email" ∧ source ≠ "user_role" := by
  refine ⟨?_,?_,?_⟩ <;> rintro rfl <;> revert static <;> decide

theorem static_sharp (static : startsWith source "static:" = true) : foldsCase source = false ∧ ownerSource source = false := by
  obtain ⟨id,email,_⟩ := static_apart static
  simp [foldsCase,ownerSource,id,email]

theorem ownValue_resolves {actor : Identity} (resolved : resolveValue source actor = some value) :
    ownValue source actor = if value = "" && ownerSource source then none else some value := by
  rw [ownValue,resolved,Option.filter]
  cases value = "" && ownerSource source <;> rfl

theorem isList_exact (known : isRuleOperator op = some operator) : (op = "in" || op = "not_in") = operator.list := by
  unfold isRuleOperator at known
  split at known <;> simp_all [RuleOperator.list] <;> subst known <;> rfl

theorem filterOf_means {rule : RowRule} (known : isRuleOperator (orEq rule.filterOp) = some op) (text value : String) :
    op.keep (if (filterOf lower rule value).caseless then lower text else text) (filterOf lower rule value).value ↔
      Means lower op rule.filterValueSource text value := by
  have isList := isList_exact known
  unfold orEq at isList
  unfold filterOf
  simp only [isList]
  cases static : startsWith rule.filterValueSource "static:" with
  | true =>
    obtain ⟨sharp,_⟩ := static_sharp static
    cases op <;>
      simp [sharp,static,RuleOperator.list,RuleOperator.keep,FilterValue.text,FilterValue.asList,Means,fold,items]
    rw [List.forall_mem_ne]
  | false =>
    cases folded : foldsCase rule.filterValueSource <;> cases op <;>
      simp [folded,static,RuleOperator.keep,FilterValue.text,FilterValue.asList,Means,fold,items]

theorem filterOf_op (lower : String → String) (rule : RowRule) (value : String) :
    (filterOf lower rule value).op = orEq rule.filterOp ∧ (filterOf lower rule value).field = rule.filterField := by
  unfold filterOf
  cases foldsCase rule.filterValueSource <;> exact ⟨rfl,rfl⟩

theorem filterOf_exact {rule : RowRule} {actor : Identity} (lower : String → String) (own : ownValue rule.filterValueSource actor = some value) :
    FilterKeeps lower (filterOf lower rule value) cell ↔
      Satisfied lower actor (orEq rule.filterOp) rule.filterValueSource cell := by
  unfold FilterKeeps Satisfied
  rw [own,(filterOf_op lower rule value).1]
  constructor
  · rintro ⟨op,raw,known,rfl,kept⟩
    exact ⟨op,raw,value,known,rfl,rfl,(filterOf_means known raw value).mp kept⟩
  · rintro ⟨op,raw,other,known,rfl,equal,holds⟩
    cases Option.some.inj equal
    exact ⟨op,raw,known,rfl,(filterOf_means known raw value).mpr holds⟩

theorem ruleFilter_exact {rule : RowRule} {actor : Identity} {cells : String → Option String} :
    (∃ filter, ruleFilter lower actor rule = some filter ∧ ¬FilterKeeps lower filter (cells filter.field)) ↔
      HidesEngine lower actor rule (cells rule.filterField) := by
  unfold HidesEngine ruleFilter Bound
  by_cases bound : rule.role = "*" ∨ rule.role ∈ actor.roles
  · simp only [bound,not_true,if_false,true_and]
    cases resolved : resolveValue rule.filterValueSource actor with
    | none =>
      have own : ownValue rule.filterValueSource actor = none := by rw [ownValue,resolved]; rfl
      simp [empty_list,Satisfied,own]
    | some value =>
      have own := ownValue_resolves resolved
      simp only
      split
      · next nobody =>
        rw [if_pos nobody] at own
        simp [empty_list,Satisfied,own]
      · next somebody =>
        rw [if_neg somebody] at own
        rw [← filterOf_exact lower own]
        simp [(filterOf_op lower rule value).2]
  · simp [bound]

theorem filters_hold {keeps : RuleFilter → Prop} {rules : List RowRule} {actor : Actor} (subject : actor.exempt = false)
    (nothing : ∀ filter : RuleFilter, filter.op = "in" → filter.value = .many [] → ¬keeps filter) :
    (∀ filter ∈ getRlsFilters lower rules actor, keeps filter) ↔
      ¬Hidden rules actor.caller fun who rule => ∃ filter, ruleFilter lower who rule = some filter ∧ ¬keeps filter := by
  have each : ∀ who, (∀ filter ∈ rulesFor lower rules who, keeps filter) ↔
      ¬∃ rule ∈ rules, ∃ filter, ruleFilter lower who rule = some filter ∧ ¬keeps filter := by
    intro who
    simp only [rulesFor,List.mem_filterMap]
    constructor
    · rintro all ⟨rule,member,filter,found,fails⟩
      exact fails (all filter ⟨rule,member,found⟩)
    · rintro none' filter ⟨rule,member,found⟩
      exact Classical.byContradiction fun fails => none' ⟨rule,member,filter,found,fails⟩
  cases rules with
  | nil => simp [getRlsFilters,Hidden]
  | cons first rest =>
    unfold getRlsFilters Hidden halves
    simp only [subject,List.isEmpty_cons,Bool.or_self,Bool.false_eq_true,if_false,List.forall_mem_append,each]
    cases actor.caller.issuer with
    | exempt => simp
    | unknown => simp [nothing]
    | acting issuer => simp only [each]; simp [not_or]

-- The loop reads exactly the first rule of each fingerprint.
theorem unseen_exact {rules : List RowRule} : rule ∈ unseen seen rules ↔
    fingerprint rule ∉ seen ∧ rules.find? (fun other => fingerprint other = fingerprint rule) = some rule := by
  induction rules generalizing seen with
  | nil => simp [unseen]
  | cons first rest ih =>
    rw [unseen,List.find?_cons]
    by_cases same : fingerprint first = fingerprint rule
    · simp only [same,decide_true]
      split
      · next known => simp [ih,known]
      · next fresh =>
        simp only [List.mem_cons,ih,Option.some.injEq]
        constructor
        · rintro (rfl | ⟨blocked,_⟩)
          · exact ⟨fresh,rfl⟩
          · exact absurd (.inl trivial) blocked
        · rintro ⟨_,rfl⟩
          exact .inl rfl
    · simp only [same,decide_false]
      split
      · next known => rw [ih]
      · next fresh =>
        simp only [List.mem_cons,ih,not_or]
        constructor
        · rintro (rfl | ⟨⟨_,open'⟩,found⟩)
          · exact absurd rfl same
          · exact ⟨open',found⟩
        · rintro ⟨open',found⟩
          exact .inr ⟨⟨Ne.symm same,open'⟩,found⟩

theorem kept_exact {rules : List RowRule} : rule ∈ unseen [] rules ↔ rule ∈ rules ∧ ¬Shadowed rules rule := by
  rw [unseen_exact,Shadowed,not_not]
  constructor
  · rintro ⟨_,found⟩
    exact ⟨List.mem_of_find?_eq_some found,found⟩
  · rintro ⟨_,found⟩
    exact ⟨by simp,found⟩

-- The settings of one half carry its identity.
structure Publishes (env : Env) (start : String) (actor : Identity) : Prop where
  id : env.setting (start ++ "user_id") = some actor.id
  email : env.setting (start ++ "user_email") = some (actor.email.getD "")
  role : env.setting (start ++ "user_role") = some actor.role
  roles : env.setting (start ++ "user_roles") = some (join ',' actor.roles)

theorem valueExpr_exact {actor : Identity} (publishes : Publishes env start actor) (source : String) :
    (valueExpr source "text" start).map (Expr.eval env) =
      (resolveValue source actor).map fun value => if value = "" && ownerSource source then none else some value := by
  unfold valueExpr resolveValue
  by_cases id : source = "user_id"
  · subst id
    simp only [true_or,if_true,castTo,Option.map_some,Expr.eval,publishes.id,ownerSource]
    by_cases empty : actor.id = "" <;> simp [empty]
  · by_cases email : source = "user_email"
    · subst email
      simp only [or_true,if_true,castTo,Option.map_some,Expr.eval,publishes.email,ownerSource]
      by_cases empty : actor.email.getD "" = "" <;> simp [empty]
    · by_cases role : source = "user_role"
      · subst role
        simp [castTo,Expr.eval,publishes.role,ownerSource]
      · simp only [id,email,role,or_self,if_false]
        split
        · next static =>
          simp [castTo,Expr.eval,(static_sharp static).2]
        · rfl

theorem roleGuard_exact {actor : Identity} (publishes : Publishes env start actor) (rule : RowRule) :
    match roleGuard rule.role start with
    | none => Listed actor rule
    | some guard => ∃ truth, guard.eval env = some truth ∧ (truth ↔ Listed actor rule) := by
  unfold roleGuard Listed
  by_cases every : rule.role = "*"
  · simp [every]
  · simp [every,Cond.eval,Expr.eval,publishes.roles,oneOf_some]

theorem issuerApplicable_exact {actor : Identity} (publishes : Publishes env issuerPrefix actor) :
    (issuerApplicable rule condition).eval env = some true ↔ (Listed actor rule → condition.eval env = some true) := by
  have guarded := roleGuard_exact publishes rule
  unfold issuerApplicable
  cases guard : roleGuard rule.role issuerPrefix with
  | none =>
    simp only [guard] at guarded
    simp [Cond.eval,guarded]
  | some role =>
    simp only [guard] at guarded
    obtain ⟨truth,found,listed⟩ := guarded
    rw [← listed]
    cases truth <;> simp [Cond.eval,found]

theorem applicable_exact {actor : Identity} {attended : Bool} (publishes : Publishes env callerPrefix actor)
    (acting : env.setting "zveltio.actor" = some "on") :
    (applicable rule condition attended).eval env = some true ↔
      (Listed actor rule → condition.eval env = some true) := by
  have guarded := roleGuard_exact publishes rule
  have present : noActor.eval env = some false := by simp [noActor,Cond.eval,Expr.eval,acting]
  unfold applicable
  cases guard : roleGuard rule.role callerPrefix with
  | none =>
    simp only [guard] at guarded
    cases attended <;> simp [Cond.eval,guarded,present]
  | some role =>
    simp only [guard] at guarded
    obtain ⟨truth,found,listed⟩ := guarded
    rw [← listed]
    cases truth <;> cases attended <;> simp [Cond.eval,found,present]

theorem valueExpr_own {actor : Identity} (publishes : Publishes env start actor)
    (known : valueExpr source "text" start = some expr) : expr.eval env = ownValue source actor := by
  have same := valueExpr_exact publishes source
  rw [known] at same
  cases resolved : resolveValue source actor with
  | none => simp [resolved] at same
  | some value =>
    rw [resolved] at same
    rw [ownValue_resolves resolved]
    exact Option.some.inj same

theorem signed_equal {left right : Option String} (op : RuleOperator) :
    signed op (equal left right) = some true ↔
      ∃ one other, left = some one ∧ right = some other ∧ (op.negative = false ↔ one = other) := by
  rw [signed_true]
  cases left with
  | none => simp [equal]
  | some one =>
    cases right with
    | none => simp [equal]
    | some other =>
      by_cases same : one = other <;> cases negative : op.negative <;> simp [same]

theorem static_own {actor : Identity} (static : startsWith source "static:" = true) :
    ownValue source actor = some (slice source 7) := by
  obtain ⟨id,email,role⟩ := static_apart static
  have resolved : resolveValue source actor = some (slice source 7) := by
    simp [resolveValue,id,email,role,static]
  rw [ownValue_resolves resolved]
  simp [(static_sharp static).2]

theorem staticList_exact {rule : RowRule} (env : Env) (actor : Identity) (name : String) (rhs : Expr) (known : isRuleOperator rule.filterOp = some op)
    (static : startsWith rule.filterValueSource "static:" = true) (list : op.list = true) :
    (conditionOf rule op (.column name) "text" (.column name) rhs).eval env = some true ↔
      ∃ text value, env.column name = some text ∧ ownValue rule.filterValueSource actor = some value ∧
        Means env.lower op rule.filterValueSource text value := by
  have sharp := (static_sharp static).1
  simp only [conditionOf,list,static,if_true,static_own static,Option.some.injEq,exists_and_left,exists_eq_left']
  generalize listed : staticList (slice rule.filterValueSource 7) = entries
  have means : ∀ text, Means env.lower op rule.filterValueSource text (slice rule.filterValueSource 7) ↔
      (op.negative = false ↔ text ∈ entries) := by
    intro text
    cases op <;> simp_all [RuleOperator.list,RuleOperator.negative,Means,fold,items]
    rw [List.forall_mem_ne]
  simp only [means]
  split
  · next nothing =>
    obtain ⟨named,empty⟩ := keepsNothing_exact.mp nothing
    rw [named] at known
    cases Option.some.inj known
    cases empty
    simp [Cond.eval,RuleOperator.negative]
  · split
    · next present =>
      obtain ⟨named,empty⟩ := keepsEveryPresent_exact.mp present
      rw [named] at known
      cases Option.some.inj known
      cases empty
      simp [Cond.eval,Expr.eval,RuleOperator.negative,Option.isSome_iff_exists]
    · next present =>
      have right : (entries.map fun item => castTo "text" (.quoted item)).map (Expr.eval env) = entries.map some := by
        simp [Function.comp_def,castTo,Expr.eval]
      simp only [Cond.eval,Expr.eval,right,signed_true]
      cases cell : env.column name with
      | some text =>
        rw [oneOf_some]
        by_cases found : text ∈ entries <;> cases op.negative <;> simp [found]
      | none =>
        simp only [reduceCtorEq,false_and,exists_false,iff_false]
        cases entries with
        | nil =>
          have exclusion : op = .inList := by
            cases op <;> simp_all [RuleOperator.list,keepsEveryPresent,notIn_exact]
          subst exclusion
          simp [oneOf,RuleOperator.negative]
        | cons first rest => simp [oneOf_unknown]

theorem folded_eval (env : Env) (source : String) (inner : Expr) :
    (if foldsCase source then Expr.lower inner else inner).eval env = (inner.eval env).map (fold env.lower source) := by
  cases sharp : foldsCase source
  · have plain : fold env.lower source = id := by
      funext text
      simp [fold,sharp]
    simp [plain]
  · have lowered : fold env.lower source = env.lower := by
      funext text
      simp [fold,sharp]
    simp [lowered,Expr.eval]

theorem conditionFor_exact {rule : RowRule} {actor : Identity} (publishes : Publishes env start actor)
    (known : isRuleOperator rule.filterOp = some op) (named : (valueExpr rule.filterValueSource "text" start).isSome) :
    (conditionFor rule op (.column name) "text" start).eval env = some true ↔
      Satisfied env.lower actor rule.filterOp rule.filterValueSource (env.column name) := by
  obtain ⟨expr,found⟩ := Option.isSome_iff_exists.mp named
  have own := valueExpr_own publishes found
  have satisfied : Satisfied env.lower actor rule.filterOp rule.filterValueSource (env.column name) ↔
      ∃ text value, env.column name = some text ∧ ownValue rule.filterValueSource actor = some value ∧
        Means env.lower op rule.filterValueSource text value := by
    simp [Satisfied,known]
  have folded := folded_eval env rule.filterValueSource
  have scalar : signed op (equal ((env.column name).map (fold env.lower rule.filterValueSource))
      ((ownValue rule.filterValueSource actor).map (fold env.lower rule.filterValueSource))) = some true ↔
      ∃ text value, env.column name = some text ∧ ownValue rule.filterValueSource actor = some value ∧
        (op.negative = false ↔ fold env.lower rule.filterValueSource text = fold env.lower rule.filterValueSource value) := by
    simp [signed_equal]
  rw [satisfied,conditionFor,found]
  simp only [conditionOf]
  cases list : op.list with
  | false =>
    simp only [Bool.false_eq_true,if_false,Cond.eval,folded,own,Expr.eval,scalar]
    cases op <;> simp_all [RuleOperator.list,RuleOperator.negative,Means]
  | true =>
    simp only [if_true]
    cases static : startsWith rule.filterValueSource "static:" with
    | false =>
      simp only [Bool.false_eq_true,if_false,Cond.eval,List.map_cons,List.map_nil,oneOf_single,folded,own,Expr.eval,scalar]
      cases op <;> simp_all [RuleOperator.list,RuleOperator.negative,Means,items]
    | true =>
      have sharp := (static_sharp static).1
      have whole := staticList_exact env actor name expr known static list
      simp only [conditionOf,list,static,if_true] at whole
      simpa [sharp] using whole

-- What a rule's term requires of a row, in one half of the policy.
def Requires (env : Env) (actor : Identity) (rule : RowRule) : Prop :=
  Listed actor rule → isIdent rule.filterField = true ∧
    Satisfied env.lower actor rule.filterOp rule.filterValueSource (env.column rule.filterField)

theorem ruleTerm_exact {columnTypes : String → Option String} (text : columnTypes rule.filterField = some "text")
    {own : Identity} (publishes : Publishes env callerPrefix own) (acting : env.setting "zveltio.actor" = some "on") :
    ((ruleTerm columnTypes rule).term.eval env = some true ↔ Requires env own rule) ∧
    ∀ issuer, Publishes env issuerPrefix issuer →
      ((ruleTerm columnTypes rule).issuerTerm.eval env = some true ↔ Requires env issuer rule) := by
  have denied : ∀ attended reason, (∀ actor, ¬(isIdent rule.filterField = true ∧
      Satisfied env.lower actor rule.filterOp rule.filterValueSource (env.column rule.filterField))) →
      ((deny rule attended reason).term.eval env = some true ↔ Requires env own rule) ∧
      ∀ issuer, Publishes env issuerPrefix issuer →
        ((deny rule attended reason).issuerTerm.eval env = some true ↔ Requires env issuer rule) := by
    intro attended reason never
    refine ⟨?_,fun issuer published => ?_⟩
    · simp [deny,applicable_exact publishes acting,Requires,never,Cond.eval]
    · simp [deny,issuerApplicable_exact published,Requires,never,Cond.eval]
  have resolves : ∀ start actor, (valueExpr rule.filterValueSource "text" start).isSome =
      (resolveValue rule.filterValueSource actor).isSome := by
    intro start actor
    unfold valueExpr resolveValue
    by_cases id : rule.filterValueSource = "user_id"
    · simp [id]
    · by_cases email : rule.filterValueSource = "user_email"
      · simp [email]
      · by_cases role : rule.filterValueSource = "user_role"
        · simp [role]
        · cases startsWith rule.filterValueSource "static:" <;> simp [id,email,role]
  unfold ruleTerm
  split
  · next unknown =>
    refine denied _ _ fun actor holds => ?_
    obtain ⟨_,_,_,value,_,_,own,_⟩ := holds
    have absent : resolveValue rule.filterValueSource actor = none := by
      have same := resolves callerPrefix actor
      rw [Option.isNone_iff_eq_none.mp unknown] at same
      exact Option.isSome_eq_false_iff.mp same.symm |> Option.isNone_iff_eq_none.mp
    rw [ownValue,absent] at own
    cases own
  · next source =>
    have named : ∀ start, (valueExpr rule.filterValueSource "text" start).isSome := by
      intro start
      rw [resolves start own,← resolves callerPrefix own]
      cases found : valueExpr rule.filterValueSource "text" callerPrefix <;> simp_all
    unfold ident
    cases field : isIdent rule.filterField with
    | false => exact denied _ _ fun _ holds => by simp [field] at holds
    | true =>
      have typed : (some "text" : Option String).filter (fun pgType => pgType ≠ "") = some "text" := by decide
      simp only [if_true,text,typed]
      rw [if_neg (by decide)]
      cases known : isRuleOperator rule.filterOp with
      | none => exact denied _ _ fun _ holds => by simp [Satisfied,known] at holds
      | some op =>
        refine ⟨?_,fun issuer published => ?_⟩
        · simp only [applicable_exact publishes acting,conditionFor_exact publishes known (named _),Requires,field,true_and]
        · simp only [issuerApplicable_exact published,conditionFor_exact published known (named _),Requires,field,true_and]

theorem joinAnd_exact {first : Cond} {rest : List Cond} :
    (joinAnd first rest).eval env = some true ↔ ∀ cond ∈ first::rest, cond.eval env = some true := by
  induction rest generalizing first with
  | nil => simp [joinAnd]
  | cons next rest ih => simp only [joinAnd,Cond.eval,both_true,ih,List.forall_mem_cons]

-- The environment a request of the actor reads a row in. reference is what the
-- query builder makes of a column name.
def environment (lower : String → String) (convert : String → String → Option String)
    (reference : String → Option String) (actor : Actor) (row : String → Option String) : Env :=
  ⟨lower,convert,currentSetting actor,row,fun name => (reference name).bind row,row⟩

theorem publishes_own (actor : Actor) :
    Publishes (environment lower convert reference actor row) callerPrefix actor.caller.own := ⟨rfl,rfl,rfl,rfl⟩

theorem publishes_issuer {actor : Actor} (acting : actor.caller.issuer = .acting issuer) :
    Publishes (environment lower convert reference actor row) issuerPrefix issuer := by
  refine ⟨?_,?_,?_,?_⟩ <;>
    simp [environment,currentSetting,published,acting,issuerSettings,issuerPrefix,List.lookup_cons]

theorem acts (actor : Actor) : currentSetting actor "zveltio.actor" = some "on" := by
  have present : hasActor actor.caller = true := by
    cases actor.caller with
    | session user named => simpa [hasActor] using named
    | key id issuer => rfl
  simp [currentSetting,published,present,List.lookup_cons]

theorem exempt_denied (plain : lower "off" = "off") (subject : actor.exempt = false) :
    exemptCond.eval (environment lower convert reference actor row) = some false := by
  have bypass : currentSetting actor "zveltio.rls_bypass" = some "off" := by
    simp [currentSetting,published,subject,List.lookup_cons]
  have listed : ([.quoted "on",.quoted "true",.quoted "1"] : List Expr).map
      (Expr.eval (environment lower convert reference actor row)) = ["on","true","1"].map some := rfl
  have inner : (Expr.lower (.coalesce (.nullif (.setting "zveltio.rls_bypass") (.quoted "")) (.quoted "off"))).eval
      (environment lower convert reference actor row) = some "off" := by
    simp [Expr.eval,environment,bypass,plain]
  rw [exemptCond,Cond.eval,Cond.eval,listed,inner,oneOf_some]
  decide

theorem issuer_mode (actor : Actor) :
    currentSetting actor "zveltio.issuer_rows" = some (issuerSettings actor.caller.issuer).mode := rfl

theorem issuerCond_exact {actor : Actor} {terms : List Cond} :
    (issuerCond terms).eval (environment lower convert reference actor row) = some true ↔
      match actor.caller.issuer with
      | .exempt => True
      | .unknown => False
      | .acting _ => ∀ term ∈ terms, term.eval (environment lower convert reference actor row) = some true := by
  have mode := issuer_mode actor
  cases issuer : actor.caller.issuer with
  | exempt =>
    rw [issuer] at mode
    simp [issuerCond,Cond.eval,Expr.eval,environment,mode,issuerSettings,signed,RuleOperator.negative]
  | unknown =>
    rw [issuer] at mode
    simp [issuerCond,Cond.eval,Expr.eval,environment,mode,issuerSettings,signed,RuleOperator.negative,joinAnd_exact]
  | acting who =>
    rw [issuer] at mode
    have off : currentSetting actor "zveltio.issuer_rows" = some "on" := mode
    simp only [issuerCond,Cond.eval,either_true,joinAnd_exact,List.forall_mem_cons,Expr.eval]
    simp [environment,off,signed,RuleOperator.negative]

theorem requires_exact {rules : List RowRule} (kept : ¬Shadowed rules rule) :
    ¬Requires env who rule ↔ HidesPolicy env.lower rules who rule (env.column rule.filterField) := by
  unfold Requires HidesPolicy
  cases isIdent rule.filterField <;> simp [kept]

theorem policy_exact {rules : List RowRule} {columnTypes : String → Option String} (plain : lower "off" = "off")
    (subject : actor.exempt = false) (text : ∀ rule ∈ rules, columnTypes rule.filterField = some "text") :
    policyKeeps (environment lower convert reference actor row) (buildRowRulePredicate rules columnTypes) ↔
      ¬Hidden rules actor.caller fun who rule => HidesPolicy lower rules who rule (row rule.filterField) := by
  let env := environment lower convert reference actor row
  have terms : ∀ rule ∈ unseen [] rules,
      ((ruleTerm columnTypes rule).term.eval env = some true ↔ Requires env actor.caller.own rule) ∧
      ∀ issuer, Publishes env issuerPrefix issuer →
        ((ruleTerm columnTypes rule).issuerTerm.eval env = some true ↔ Requires env issuer rule) :=
    fun rule member => ruleTerm_exact (text rule (kept_exact.mp member).1) (publishes_own actor) (acts actor)
  have half : ∀ who, (∀ rule ∈ unseen [] rules, Requires env who rule) ↔
      ¬∃ rule ∈ rules, HidesPolicy lower rules who rule (row rule.filterField) := by
    intro who
    constructor
    · rintro all ⟨rule,member,hides⟩
      have kept := hides.1
      exact (requires_exact kept).mpr hides (all rule (kept_exact.mpr ⟨member,kept⟩))
    · intro none' rule member
      obtain ⟨present,kept⟩ := kept_exact.mp member
      exact Classical.byContradiction fun fails => none' ⟨rule,present,(requires_exact kept).mp fails⟩
  have whole : (∀ rule ∈ unseen [] rules, (ruleTerm columnTypes rule).term.eval env = some true) ↔
      ¬∃ rule ∈ rules, HidesPolicy lower rules actor.caller.own rule (row rule.filterField) := by
    rw [← half]
    exact forall₂_congr fun rule member => (terms rule member).1
  cases found : unseen [] rules with
  | nil =>
    have empty : rules = [] := by
      cases rules with
      | nil => rfl
      | cons first rest => simp [unseen] at found
    subst empty
    simp [policyKeeps,buildRowRulePredicate,unseen,Hidden]
  | cons first rest =>
    have some' : rules ≠ [] := by
      rintro rfl
      cases found
    have cut : policyKeeps env (buildRowRulePredicate rules columnTypes) ↔
        (∀ rule ∈ unseen [] rules, (ruleTerm columnTypes rule).term.eval env = some true) ∧
        (issuerCond ((unseen [] rules).map fun rule => (ruleTerm columnTypes rule).issuerTerm)).eval env = some true := by
      have denied : exemptCond.eval env = some false := exempt_denied plain subject
      simp only [policyKeeps,buildRowRulePredicate,found,List.map_cons,List.map_map,Option.some.injEq,forall_eq',
        Cond.eval,either_true,denied,joinAnd_exact,Bool.false_eq_true,false_or,List.forall_mem_cons,
        List.forall_mem_append,List.forall_mem_map,List.not_mem_nil,false_implies,implies_true,and_true,and_assoc]
      rfl
    rw [cut,whole,issuerCond_exact]
    unfold Hidden halves
    cases issuer : actor.caller.issuer with
    | exempt => simp
    | unknown => simp [some']
    | acting who =>
      have other : (∀ rule ∈ unseen [] rules, (ruleTerm columnTypes rule).issuerTerm.eval env = some true) ↔
          ¬∃ rule ∈ rules, HidesPolicy lower rules who rule (row rule.filterField) := by
        rw [← half]
        exact forall₂_congr fun rule member => (terms rule member).2 who (publishes_issuer issuer)
      simp only [List.forall_mem_map]
      rw [other]
      simp

-- The readers apart: an empty operator, a field the policy cannot name, a rule in
-- the shadow of another, a role the joined list tells differently.
def Odd (rules : List RowRule) (who : Identity) (rule : RowRule) : Prop :=
  rule.filterOp = "" ∨ isIdent rule.filterField = false ∨ Shadowed rules rule ∨ ¬(Bound who rule ↔ Listed who rule)

def Agree (lower : String → String) (convert : String → String → Option String) (reference : String → Option String)
    (columnTypes : String → Option String) (rules : List RowRule) (actor : Actor) (row : String → Option String) : Prop :=
  let env := environment lower convert reference actor row
  let filters := getRlsFilters lower rules actor
  (policyKeeps env (buildRowRulePredicate rules columnTypes) ↔ keepsInMemory lower row filters) ∧
  (keepsRow env (applyRlsFilters filters) ↔ keepsInMemory lower row filters) ∧
  (keepsRow env (rlsJsonConditions filters) ↔ keepsInMemory lower row filters)

def OddHides (rules : List RowRule) (caller : Caller) (hides : Identity → RowRule → Prop) : Prop :=
  ∃ who ∈ halves caller, ∃ rule ∈ rules, Odd rules who rule ∧ hides who rule

-- Some other rule hides the row, or the odd rules decide it alike in each reading.
def Settles (lower : String → String) (reference : String → Option String) (rules : List RowRule) (actor : Actor)
    (row : String → Option String) : Prop :=
  Hidden rules actor.caller (fun who rule => ¬Odd rules who rule ∧ HidesEngine lower who rule (row rule.filterField)) ∨
  (OddHides rules actor.caller (fun who rule => HidesPolicy lower rules who rule (row rule.filterField)) ↔
    OddHides rules actor.caller (fun who rule => HidesEngine lower who rule (row rule.filterField))) ∧
  (OddHides rules actor.caller (fun who rule => HidesEngine lower who rule ((reference rule.filterField).bind row)) ↔
    OddHides rules actor.caller (fun who rule => HidesEngine lower who rule (row rule.filterField)))

theorem hidden_split {rules : List RowRule} {hides : Identity → RowRule → Prop} :
    Hidden rules caller hides ↔
      Hidden rules caller (fun who rule => ¬Odd rules who rule ∧ hides who rule) ∨ OddHides rules caller hides := by
  unfold Hidden OddHides
  constructor
  · rintro (blind | ⟨who,half,rule,member,hidden⟩)
    · exact .inl (.inl blind)
    · by_cases odd : Odd rules who rule
      · exact .inr ⟨who,half,rule,member,odd,hidden⟩
      · exact .inl (.inr ⟨who,half,rule,member,odd,hidden⟩)
  · rintro ((blind | ⟨who,half,rule,member,_,hidden⟩) | ⟨who,half,rule,member,_,hidden⟩)
    · exact .inl blind
    · exact .inr ⟨who,half,rule,member,hidden⟩
    · exact .inr ⟨who,half,rule,member,hidden⟩

theorem hidden_congr {rules : List RowRule} {hides other : Identity → RowRule → Prop}
    (same : ∀ who, ∀ rule ∈ rules, hides who rule ↔ other who rule) :
    Hidden rules caller hides ↔ Hidden rules caller other := by
  unfold Hidden
  exact or_congr Iff.rfl (exists_congr fun who => and_congr_right fun _ =>
    exists_congr fun rule => and_congr_right fun member => same who rule member)

theorem even_policy {rules : List RowRule} (even : ¬Odd rules who rule) :
    HidesPolicy lower rules who rule cell ↔ HidesEngine lower who rule cell := by
  simp only [Odd,not_or,not_not,Bool.not_eq_false] at even
  obtain ⟨op,field,kept,listed⟩ := even
  simp [HidesPolicy,HidesEngine,kept,field,← listed,orEq,op]

theorem settles_of_even {rules : List RowRule} {actor : Actor}
    (even : ∀ who ∈ halves actor.caller, ∀ rule ∈ rules, ¬Odd rules who rule) :
    Settles lower reference rules actor row := by
  have none' : ∀ hides, ¬OddHides rules actor.caller hides := by
    rintro hides ⟨who,half,rule,member,odd,_⟩
    exact even who half rule member odd
  exact .inr ⟨iff_of_false (none' _) (none' _),iff_of_false (none' _) (none' _)⟩

theorem split_iff {shared one other third : Prop} :
    ((¬(shared ∨ one) ↔ ¬(shared ∨ other)) ∧ (¬(shared ∨ third) ↔ ¬(shared ∨ other))) ↔
      shared ∨ ((one ↔ other) ∧ (third ↔ other)) := by
  by_cases shared <;> by_cases one <;> by_cases other <;> by_cases third <;> simp [*]

theorem filters_hidden {actor : Actor} (subject : actor.exempt = false) (cells : String → Option String) :
    (∀ filter ∈ getRlsFilters lower rules actor, FilterKeeps lower filter (cells filter.field)) ↔
      ¬Hidden rules actor.caller fun who rule => HidesEngine lower who rule (cells rule.filterField) := by
  rw [filters_hold subject fun _ op value => empty_list op value]
  exact not_congr (hidden_congr fun who rule _ => ruleFilter_exact)

-- The four readers keep the same rows except where an odd rule decides.
theorem rules_agree {columnTypes : String → Option String} (plain : lower "off" = "off")
    (refers : ∀ name, isIdent name = true → reference name = some name) (subject : actor.exempt = false)
    (text : ∀ rule ∈ rules, columnTypes rule.filterField = some "text") :
    Agree lower convert reference columnTypes rules actor row ↔ Settles lower reference rules actor row := by
  let live : String → Option String := fun name => (reference name).bind row
  have memory : keepsInMemory lower row (getRlsFilters lower rules actor) ↔ _ :=
    matches_exact.trans (filters_hidden subject row)
  have json : keepsRow (environment lower convert reference actor row)
      (rlsJsonConditions (getRlsFilters lower rules actor)) ↔ _ :=
    keepsRow_exact.trans ((forall₂_congr fun _ _ => json_exact).trans (filters_hidden subject row))
  have table : keepsRow (environment lower convert reference actor row)
      (applyRlsFilters (getRlsFilters lower rules actor)) ↔ _ :=
    keepsRow_exact.trans ((forall₂_congr fun _ _ => where_exact).trans (filters_hidden subject live))
  have policy : policyKeeps (environment lower convert reference actor row) (buildRowRulePredicate rules columnTypes) ↔ _ :=
    policy_exact plain subject text
  have even : Hidden rules actor.caller (fun who rule =>
        ¬Odd rules who rule ∧ HidesPolicy lower rules who rule (row rule.filterField)) ↔
      Hidden rules actor.caller (fun who rule =>
        ¬Odd rules who rule ∧ HidesEngine lower who rule (row rule.filterField)) :=
    hidden_congr fun _ _ _ => and_congr_right fun even => even_policy even
  have named : Hidden rules actor.caller (fun who rule =>
        ¬Odd rules who rule ∧ HidesEngine lower who rule (live rule.filterField)) ↔
      Hidden rules actor.caller (fun who rule =>
        ¬Odd rules who rule ∧ HidesEngine lower who rule (row rule.filterField)) := by
    refine hidden_congr fun who rule _ => and_congr_right fun even => ?_
    simp only [Odd,not_or,Bool.not_eq_false] at even
    simp only [live,refers _ even.2.1,Option.bind_some]
  rw [hidden_split,named] at table
  rw [hidden_split,even] at policy
  rw [hidden_split] at memory json
  simp only [Agree,memory,json,table,policy,iff_self,and_true]
  exact split_iff

end

def member : Actor := ⟨.session ⟨"u1",some "u1@example.org","member",["member"]⟩ (by decide),false⟩

-- A stored rule without an operator: the engine takes it for eq, the policy denies.
theorem empty_operator_differs :
    ¬Agree id (fun _ _ => none) some (fun _ => some "text") [⟨"*","state","","static:open"⟩] member
      (fun _ => some "open") := by
  rintro ⟨policy,_⟩
  have kept : keepsInMemory id (fun _ => some "open")
      (getRlsFilters id [⟨"*","state","","static:open"⟩] member) := by rfl
  have confirmed := policy.mpr kept _ rfl
  exact absurd confirmed (by decide)

theorem rules_agree_member :
    Agree id (fun _ _ => none) some (fun _ => some "text")
      [⟨"member","owner","eq","user_id"⟩,⟨"*","state","not_in","static:draft, closed"⟩] member (fun _ => some "u1") := by
  refine (rules_agree rfl (fun _ _ => rfl) rfl fun _ _ => rfl).mpr (settles_of_even ?_)
  have even : ∀ who ∈ halves member.caller, ∀ rule ∈ ([⟨"member","owner","eq","user_id"⟩,
      ⟨"*","state","not_in","static:draft, closed"⟩] : List RowRule), ¬Odd [⟨"member","owner","eq","user_id"⟩,
      ⟨"*","state","not_in","static:draft, closed"⟩] who rule := by
    unfold Odd Shadowed Bound Listed
    decide
  exact even

end Zveltio.RowRuleAgreement
