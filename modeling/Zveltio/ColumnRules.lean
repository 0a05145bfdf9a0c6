import Zveltio.Tables
import Zveltio.Listing
namespace Zveltio.ColumnRules
open Tables IpText Listing

def SYSTEM_COLUMNS : List String :=
  ["id","created_at","updated_at","created_by","updated_by","tenant_id","search_vector","search_text"]

-- What every object inherits: a lookup by one of these names finds no list of columns.
def INHERITED : List String :=
  ["constructor","__defineGetter__","__defineSetter__","hasOwnProperty","__lookupGetter__","__lookupSetter__","isPrototypeOf","propertyIsEnumerable",
    "toString","valueOf","__proto__","toLocaleString"]

-- A row of zvd_column_permissions of one collection; both of its writers refuse a role without a name.
structure Rule where
  column : String
  role : String
  can_read : Bool
  can_write : Bool
  named : role ≠ ""

structure ColumnAccess where
  hidden : List String
  readOnly : List String

-- Roles as they are now, and what the policies say of data:view_all_columns, false where the lookup fails.
structure Directory where
  principalRole : String → String
  exempt : String → Bool

-- A key's subject is a row of no policy.
def subject (id : String) : Bool := ['a','p','i','k','e','y',':'].isPrefixOf id.toList

def job (id : String) : Bool := ['a','p','i','k','e','y',':','j','o','b',':'].isPrefixOf id.toList

def Directory.viewsAll (directory : Directory) (id : String) : Bool := !subject id && directory.exempt id

def addRow (access : ColumnAccess) (rule : Rule) : ColumnAccess :=
  if !rule.can_read then {access with hidden := access.hidden ++ [rule.column]}
  else if !rule.can_write then {access with readOnly := access.readOnly ++ [rule.column]}
  else access

def ruledAccess (rules : List Rule) (role : String) : ColumnAccess :=
  (rules.filter fun rule => rule.role = role || rule.role = "*").foldl addRow ⟨[],[]⟩

def everyColumn : ColumnAccess := ⟨["*"],["*"]⟩

def identityAccess (directory : Directory) (rules : List Rule) (role id : String) : ColumnAccess :=
  if subject id && !job id then everyColumn
  else if directory.viewsAll id then ⟨[],[]⟩
  else ruledAccess rules role

def keyColumnAccess (directory : Directory) (rules : List Rule) (role : String) (issuer : Option String) : ColumnAccess :=
  match issuer with
  | none => everyColumn
  | some issuer =>
    if issuer = "" then everyColumn
    else
      let own := ruledAccess rules role
      let theirs := identityAccess directory rules (directory.principalRole issuer) issuer
      let hidden := own.hidden ++ theirs.hidden
      ⟨hidden,(own.readOnly ++ theirs.readOnly).filter fun column => column ∉ hidden⟩

-- Who is asking: the id, and for a key its author.
def getColumnAccess (directory : Directory) (rules : List Rule) (role id : String) (author : Option String) : ColumnAccess :=
  if subject id && !job id then keyColumnAccess directory rules role author
  else if directory.viewsAll id then ⟨[],[]⟩
  else ruledAccess rules role

def applyColumnAccess (record : Table String ν) (access : ColumnAccess) : Table String ν :=
  if access.hidden.length = 0 then record
  else record.filter fun entry => entry.1 ∉ access.hidden ∧ "*" ∉ access.hidden

def blocks (access : ColumnAccess) (column : String) : Bool :=
  decide (column ∈ access.readOnly ∨ "*" ∈ access.readOnly ∨ column ∈ access.hidden ∨ "*" ∈ access.hidden)

-- What is left of the data, and the keys that were blocked.
def filterWritableFields (data : Table String ν) (access : ColumnAccess) : Table String ν × List String :=
  if 0 < access.readOnly.length ∨ "*" ∈ access.readOnly ∨ 0 < access.hidden.length ∨ "*" ∈ access.hidden then
    (data.filter fun entry => !blocks access entry.1,(data.filter fun entry => blocks access entry.1).map Prod.fst)
  else (data,[])

-- The trigger's argument.
structure Spec where
  roles : Table String (List String)
  system : List String

-- One round of compileColumnGuard; none where it throws.
def restrict (roles : Table String (List String)) (rule : Rule) : Option (Table String (List String)) :=
  if rule.can_read && rule.can_write then some roles
  else if rule.column ∈ SYSTEM_COLUMNS then some roles
  else if rule.role ∈ INHERITED then none
  else
    let cols := (roles.get rule.role).getD []
    some (roles.set rule.role (if rule.column ∈ cols then cols else cols ++ [rule.column]))

-- None where it throws; no argument, no trigger.
def compileColumnGuard (rules : List Rule) : Option (Option Spec) :=
  (rules.foldlM restrict []).map fun roles => if roles.isEmpty then none else some ⟨roles,SYSTEM_COLUMNS⟩

structure Settings where
  actor : Text
  columns_all : Text
  system_collections : Text
  engine_read : Text
  user_role : String
  issuer_role : String

def on : Text := ['o','n']

-- The settings under which both the guard and the view stand down.
def standsDown (settings : Settings) (collection : Text) : Bool :=
  decide (settings.actor ≠ on) || decide (settings.columns_all = on) || lists ',' settings.system_collections collection || lists ',' settings.system_collections ['*']

def restricted (spec : Spec) (settings : Settings) : List String :=
  ((spec.roles.get settings.user_role).getD [] ++ (spec.roles.get settings.issuer_role).getD [] ++ (spec.roles.get "*").getD []).eraseDups

-- The columns an update is refused for: rows as to_jsonb gives them, depth of the trigger.
def zveltio_column_guard [DecidableEq ν] (settings : Settings) (depth : Nat) (collection : Text) (spec : Spec) (old new : Table String ν) : List String :=
  if settings.actor ≠ on ∨ 1 < depth then []
  else if settings.columns_all = on then []
  else if settings.system_collections ≠ [] ∧ (lists ',' settings.system_collections collection = true ∨ lists ',' settings.system_collections ['*'] = true) then []
  else
    let named := restricted spec settings
    let n := new.filter fun entry => entry.1 ∉ spec.system
    let o := old.filter fun entry => entry.1 ∉ spec.system
    let cols := if "*" ∈ named then n.map Prod.fst else named
    cols.filter fun column => (Table.get n column).isSome ∧ Table.get n column ≠ Table.get o column

def guard [DecidableEq ν] (settings : Settings) (depth : Nat) (collection : Text) (spec : Option Spec) (old new : Table String ν) : List String :=
  match spec with
  | none => []
  | some spec => zveltio_column_guard settings depth collection spec old new

def SEARCH : List String := ["search_vector","search_text"]

-- The roles a column is masked for; fields of a search type are those the search columns are derived from.
def maskRoles (rules : List Rule) (search : List String) (column : String) : List String :=
  let masks (name : String) := (rules.filter fun rule => rule.column = name && !rule.can_read).map Rule.role
  if column ∈ SEARCH then masks "*" ++ search.flatMap masks
  else if column ∈ SYSTEM_COLUMNS then []
  else masks "*" ++ masks column

-- A column of the masking view; a column that is served to no one is not there.
def maskedCell (settings : Settings) (collection : Text) (rules : List Rule) (unserved search : List String) (column : String) (value : Option ν) :
    Option (Option ν) :=
  if column ∈ unserved then none
  else
    let roles := maskRoles rules search column
    if roles = [] then some value
    else if standsDown settings collection || decide (settings.engine_read = on) ||
        (decide ("*" ∉ roles) && (decide (settings.user_role ∉ roles) && decide (settings.issuer_role ∉ roles))) then some value
    else some none

-- Rules as they are in force: a writer commits them with the guard they compile to, or not at all.
structure InForce where
  rules : List Rule
  spec : Option Spec
  compiled : compileColumnGuard rules = some spec

-- A session's user, a key with the user who issued it, a job of the engine.
inductive Actor where
  | session (id : String) (user : subject id = false)
  | key (id : String) (key : subject id = true ∧ job id = false) (issuer : String) (user : subject issuer = false ∧ issuer ≠ "")
  | job (id : String) (key : subject id = true ∧ job id = true)

def Actor.id : Actor → String
  | .session id _ => id
  | .key id .. => id
  | .job id _ => id

def Actor.author : Actor → Option String
  | .key _ _ issuer _ => some issuer
  | _ => none

def Actor.role (directory : Directory) : Actor → String
  | .session id _ => directory.principalRole id
  | _ => "api_key"

def Actor.access (directory : Directory) (rules : List Rule) (actor : Actor) : ColumnAccess :=
  getColumnAccess directory rules (actor.role directory) actor.id actor.author

-- What the engine publishes: a session's exemption as columns_all, of a key's issuer the role unless the issuer is exempt.
def Actor.published (directory : Directory) : Actor → Settings
  | .session id _ => ⟨on,if directory.viewsAll id then on else ['o','f','f'],[],[],directory.principalRole id,""⟩
  | .key _ _ issuer _ => ⟨on,['o','f','f'],[],[],"api_key",if directory.viewsAll issuer then "" else directory.principalRole issuer⟩
  | .job .. => ⟨on,['o','f','f'],[],[],"api_key",""⟩

section
variable {rules : List Rule} {role column : String}

def Rule.binds (rule : Rule) (role column : String) : Prop := (rule.role = role ∨ rule.role = "*") ∧ (rule.column = column ∨ rule.column = "*")

def Hides (rules : List Rule) (role column : String) : Prop := ∃ rule ∈ rules, rule.binds role column ∧ rule.can_read = false

def Restricts (rules : List Rule) (role column : String) : Prop := ∃ rule ∈ rules, rule.binds role column ∧ (rule.can_read && rule.can_write) = false

theorem addRows_exact (rows : List Rule) (access : ColumnAccess) :
    (∀ name, name ∈ (rows.foldl addRow access).hidden ↔ name ∈ access.hidden ∨ ∃ rule ∈ rows, rule.can_read = false ∧ rule.column = name) ∧
    ∀ name, name ∈ (rows.foldl addRow access).readOnly ↔ name ∈ access.readOnly ∨ ∃ rule ∈ rows, rule.can_read = true ∧ rule.can_write = false ∧ rule.column = name := by
  induction rows generalizing access with
  | nil => simp
  | cons rule rest ih =>
    obtain ⟨hidden,readOnly⟩ := ih (addRow access rule)
    rw [List.foldl_cons]
    unfold addRow at hidden readOnly ⊢
    cases read : rule.can_read <;> cases write : rule.can_write <;> simp only [read,write] at hidden readOnly ⊢ <;>
      refine ⟨fun name => (hidden name).trans ?_,fun name => (readOnly name).trans ?_⟩ <;> simp [read,write,or_assoc,@eq_comm String name rule.column]

theorem mem_hidden : (column ∈ (ruledAccess rules role).hidden ∨ "*" ∈ (ruledAccess rules role).hidden) ↔ Hides rules role column := by
  have rows := (addRows_exact (rules.filter fun rule => rule.role = role || rule.role = "*") ⟨[],[]⟩).1
  unfold ruledAccess
  rw [rows,rows]
  constructor
  · rintro ((wrong | ⟨rule,member,read,same⟩) | (wrong | ⟨rule,member,read,same⟩))
    · cases wrong
    · obtain ⟨there,of_role⟩ := List.mem_filter.mp member
      exact ⟨rule,there,⟨by simpa using of_role,.inl same⟩,read⟩
    · cases wrong
    · obtain ⟨there,of_role⟩ := List.mem_filter.mp member
      exact ⟨rule,there,⟨by simpa using of_role,.inr same⟩,read⟩
  · rintro ⟨rule,there,⟨of_role,same⟩,read⟩
    have member : rule ∈ rules.filter fun rule => rule.role = role || rule.role = "*" := List.mem_filter.mpr ⟨there,by simpa using of_role⟩
    rcases same with same | same
    · exact .inl (.inr ⟨rule,member,read,same⟩)
    · exact .inr (.inr ⟨rule,member,read,same⟩)

theorem mem_blocked : blocks (ruledAccess rules role) column = true ↔ Restricts rules role column := by
  have rows := (addRows_exact (rules.filter fun rule => rule.role = role || rule.role = "*") ⟨[],[]⟩).2
  have hidden := @mem_hidden rules role column
  have split : blocks (ruledAccess rules role) column = true ↔
      (column ∈ (ruledAccess rules role).readOnly ∨ "*" ∈ (ruledAccess rules role).readOnly) ∨ Hides rules role column := by
    unfold blocks
    rw [decide_eq_true_eq,← hidden,or_assoc]
  rw [split]
  unfold ruledAccess
  rw [rows,rows]
  constructor
  · rintro (((wrong | ⟨rule,member,read,write,same⟩) | (wrong | ⟨rule,member,read,write,same⟩)) | ⟨rule,member,bound,read⟩)
    · cases wrong
    · obtain ⟨there,of_role⟩ := List.mem_filter.mp member
      exact ⟨rule,there,⟨by simpa using of_role,.inl same⟩,by rw [write,Bool.and_false]⟩
    · cases wrong
    · obtain ⟨there,of_role⟩ := List.mem_filter.mp member
      exact ⟨rule,there,⟨by simpa using of_role,.inr same⟩,by rw [write,Bool.and_false]⟩
    · exact ⟨rule,member,bound,by rw [read,Bool.false_and]⟩
  · rintro ⟨rule,there,bound,closed⟩
    have member : rule ∈ rules.filter fun rule => rule.role = role || rule.role = "*" := List.mem_filter.mpr ⟨there,by simpa using bound.1⟩
    cases read : rule.can_read with
    | false => exact .inr ⟨rule,there,bound,read⟩
    | true =>
      rw [read,Bool.true_and] at closed
      rcases bound.2 with same | same
      · exact .inl (.inl (.inr ⟨rule,member,read,closed,same⟩))
      · exact .inl (.inr (.inr ⟨rule,member,read,closed,same⟩))

end

def Listed (rules : List Rule) (role column : String) : Prop :=
  ∃ rule ∈ rules, rule.role = role ∧ rule.column = column ∧ (rule.can_read && rule.can_write) = false ∧ column ∉ SYSTEM_COLUMNS

theorem restrict_exact {roles next : Table String (List String)} {rule : Rule} (restricted : restrict roles rule = some next) (role column : String) :
    column ∈ (next.get role).getD [] ↔ column ∈ (roles.get role).getD [] ∨ Listed [rule] role column := by
  unfold restrict at restricted
  unfold Listed
  split at restricted
  · next open' =>
    cases Option.some.inj restricted
    simp only [List.mem_singleton,exists_eq_left,iff_self_or]
    rintro ⟨_,_,closed,_⟩
    rw [open'] at closed
    cases closed
  · next closed =>
    split at restricted
    · next system =>
      cases Option.some.inj restricted
      simp only [List.mem_singleton,exists_eq_left,iff_self_or]
      rintro ⟨_,same,_,apart⟩
      exact absurd (same ▸ system) apart
    · next apart =>
      split at restricted
      · cases restricted
      · cases Option.some.inj restricted
        have shut : (rule.can_read && rule.can_write) = false := by simpa using closed
        rw [get_set]
        by_cases here : role = rule.role
        · subst here
          simp only [if_pos,Option.getD_some,List.mem_singleton,exists_eq_left,true_and,shut]
          split
          · next listed =>
            simp only [iff_self_or]
            rintro ⟨same,_⟩
            exact same ▸ listed
          · simp only [List.mem_append,List.mem_singleton]
            constructor
            · rintro (old | same)
              · exact .inl old
              · exact .inr ⟨same.symm,same ▸ apart⟩
            · rintro (old | ⟨same,_⟩)
              · exact .inl old
              · exact .inr same.symm
        · have other : rule.role ≠ role := Ne.symm here
          simp [here,other]

theorem compile_rows {rules : List Rule} {roles next : Table String (List String)} (compiled : rules.foldlM restrict roles = some next) (role column : String) :
    column ∈ (next.get role).getD [] ↔ column ∈ (roles.get role).getD [] ∨ Listed rules role column := by
  induction rules generalizing roles with
  | nil =>
    cases Option.some.inj compiled
    simp [Listed]
  | cons rule rest ih =>
    rw [List.foldlM_cons] at compiled
    obtain ⟨middle,first,later⟩ := Option.bind_eq_some_iff.mp compiled
    rw [ih later,restrict_exact first,or_assoc]
    simp [Listed]

theorem compiled_exact {rules : List Rule} {spec : Option Spec} (compiled : compileColumnGuard rules = some spec) :
    (spec = none → ∀ role column, ¬Listed rules role column) ∧
    ∀ held, spec = some held → held.system = SYSTEM_COLUMNS ∧ ∀ role column, column ∈ (held.roles.get role).getD [] ↔ Listed rules role column := by
  obtain ⟨roles,rows,same⟩ := Option.map_eq_some_iff.mp compiled
  have exact (role column : String) := compile_rows rows role column
  constructor
  · intro none_left role column listed
    rw [none_left] at same
    split at same
    · next empty =>
      have there := (exact role column).mpr (.inr listed)
      rw [List.isEmpty_iff.mp empty] at there
      cases there
    · cases same
  · intro held found
    rw [found] at same
    split at same
    · cases same
    · cases Option.some.inj same
      refine ⟨rfl,fun role column => ?_⟩
      rw [exact]
      simp

-- The roles whose rules bind an actor, those of '*' besides: none for an exempt session.
def Actor.bound (directory : Directory) : Actor → List String
  | .session id _ => if directory.viewsAll id then [] else [directory.principalRole id]
  | .key _ _ issuer _ => "api_key"::(if directory.viewsAll issuer then [] else [directory.principalRole issuer])
  | .job .. => ["api_key"]

section
variable {directory : Directory} {actor : Actor} {rules : List Rule} {column : String}

theorem access_open (column : String) : blocks ⟨[],[]⟩ column = false := by
  simp [blocks]

theorem identity_blocked {id : String} (user : subject id = false) :
    blocks (identityAccess directory rules role id) column = true ↔ directory.viewsAll id = false ∧ Restricts rules role column := by
  unfold identityAccess
  rw [user,Bool.false_and,if_neg Bool.false_ne_true]
  cases directory.viewsAll id with
  | true => simp [access_open]
  | false => simp [mem_blocked]

theorem union_blocked (own theirs : ColumnAccess) :
    blocks ⟨own.hidden ++ theirs.hidden,(own.readOnly ++ theirs.readOnly).filter fun column => column ∉ own.hidden ++ theirs.hidden⟩ column = true ↔
      blocks own column = true ∨ blocks theirs column = true := by
  unfold blocks
  simp only [decide_eq_true_eq,List.mem_filter,List.mem_append]
  by_cases here : column ∈ own.hidden ∨ column ∈ theirs.hidden <;> by_cases whole : "*" ∈ own.hidden ∨ "*" ∈ theirs.hidden <;> simp only [here,whole] <;> grind

theorem blocked_exact : blocks (actor.access directory rules) column = true ↔ ∃ role ∈ actor.bound directory, Restricts rules role column := by
  unfold Actor.access Actor.bound getColumnAccess
  cases actor with
  | session id user =>
    simp only [Actor.id,Actor.role,user,Bool.false_and,if_neg Bool.false_ne_true]
    by_cases viewed : directory.viewsAll id = true
    · simp [viewed,access_open]
    · simp [viewed,mem_blocked]
  | key id key issuer user =>
    simp only [Actor.id,Actor.role,Actor.author,key.1,key.2,Bool.not_false,Bool.and_true,if_pos]
    unfold keyColumnAccess
    simp only [if_neg user.2]
    rw [union_blocked,mem_blocked,identity_blocked user.1]
    by_cases viewed : directory.viewsAll issuer = true <;> simp [viewed]
  | job id key =>
    have mortal : directory.viewsAll id = false := by
      unfold Directory.viewsAll
      rw [key.1]
      rfl
    simp only [Actor.id,Actor.role,key.1,key.2,mortal,Bool.not_true,Bool.and_false,if_neg Bool.false_ne_true]
    simp [mem_blocked]

theorem listed_named : ¬Listed rules "" column := by
  rintro ⟨rule,_,same,_⟩
  exact rule.named same

theorem restricts_listed (user : column ∉ SYSTEM_COLUMNS) {role : String} :
    Restricts rules role column ↔ (Listed rules role column ∨ Listed rules "*" column) ∨ Listed rules role "*" ∨ Listed rules "*" "*" := by
  have whole : "*" ∉ SYSTEM_COLUMNS := by decide
  constructor
  · rintro ⟨rule,member,⟨of_role | of_role,same | same⟩,closed⟩
    · exact .inl (.inl ⟨rule,member,of_role,same,closed,user⟩)
    · exact .inr (.inl ⟨rule,member,of_role,same,closed,whole⟩)
    · exact .inl (.inr ⟨rule,member,of_role,same,closed,user⟩)
    · exact .inr (.inr ⟨rule,member,of_role,same,closed,whole⟩)
  · rintro ((⟨rule,member,of_role,same,closed,_⟩ | ⟨rule,member,of_role,same,closed,_⟩) | ⟨rule,member,of_role,same,closed,_⟩ | ⟨rule,member,of_role,same,closed,_⟩)
    · exact ⟨rule,member,⟨.inl of_role,.inl same⟩,closed⟩
    · exact ⟨rule,member,⟨.inr of_role,.inl same⟩,closed⟩
    · exact ⟨rule,member,⟨.inl of_role,.inr same⟩,closed⟩
    · exact ⟨rule,member,⟨.inr of_role,.inr same⟩,closed⟩

-- Under an actor's settings the rules reach a column by their two roles or by '*'.
def Reaches (rules : List Rule) (settings : Settings) (column : String) : Prop :=
  Listed rules settings.user_role column ∨ Listed rules settings.issuer_role column ∨ Listed rules "*" column

theorem off_on : (['o','f','f'] : Text) ≠ on := by decide

-- What the rules of an actor's roles say together with those of '*' is what they say under its two published roles.
theorem bound_any {holds : String → Prop} (unnamed : ¬holds "") : (∃ role ∈ actor.bound directory, holds role ∨ holds "*") ↔
    (actor.published directory).columns_all ≠ on ∧
      (holds (actor.published directory).user_role ∨ holds (actor.published directory).issuer_role ∨ holds "*") := by
  unfold Actor.bound Actor.published
  cases actor with
  | session id _ =>
    by_cases viewed : directory.viewsAll id = true
    · simp [viewed]
    · simp [viewed,unnamed,off_on]
  | key _ _ issuer _ =>
    by_cases viewed : directory.viewsAll issuer = true
    · simp [viewed,unnamed,off_on]
    · simp only [viewed]
      simp [off_on]
      grind
  | job _ _ => simp [unnamed,off_on]

theorem bound_exact (user : column ∉ SYSTEM_COLUMNS) : (∃ role ∈ actor.bound directory, Restricts rules role column) ↔
    (actor.published directory).columns_all ≠ on ∧ (Reaches rules (actor.published directory) column ∨ Reaches rules (actor.published directory) "*") := by
  have unnamed : ¬(Listed rules "" column ∨ Listed rules "" "*") := not_or.mpr ⟨listed_named,listed_named⟩
  have any := @bound_any directory actor (fun role => Listed rules role column ∨ Listed rules role "*") unnamed
  have same (role : String) : Restricts rules role column ↔ (Listed rules role column ∨ Listed rules role "*") ∨ Listed rules "*" column ∨ Listed rules "*" "*" := by
    rw [restricts_listed user,or_or_or_comm]
  simp only [same]
  rw [any]
  unfold Reaches
  exact and_congr_right fun _ => (or_congr Iff.rfl or_or_or_comm).trans or_or_or_comm

theorem published_plain : (actor.published directory).actor = on ∧ (actor.published directory).system_collections = [] ∧
    (actor.published directory).engine_read = [] := by
  cases actor <;> exact ⟨rfl,rfl,rfl⟩

theorem get_kept {ν : Type u} (table : Table String ν) (keep : String → Prop) [DecidablePred keep] (key : String) :
    Table.get (table.filter fun entry => keep entry.1) key = if keep key then Table.get table key else none := by
  induction table with
  | nil => simp
  | cons entry rest ih =>
    by_cases kept : keep entry.1
    · rw [List.filter_cons_of_pos (by simpa using kept),get_cons,get_cons,ih]
      by_cases here : entry.1 = key
      · subst here
        simp [kept]
      · simp [here]
    · rw [List.filter_cons_of_neg (by simpa using kept),get_cons,ih]
      by_cases here : entry.1 = key
      · subst here
        simp [kept]
      · simp [here]

theorem identity_hidden {role id : String} (user : subject id = false) :
    (column ∈ (identityAccess directory rules role id).hidden ∨ "*" ∈ (identityAccess directory rules role id).hidden) ↔
      directory.viewsAll id = false ∧ Hides rules role column := by
  unfold identityAccess
  rw [user,Bool.false_and,if_neg Bool.false_ne_true]
  by_cases viewed : directory.viewsAll id = true
  · simp [viewed]
  · simp [viewed,mem_hidden]

theorem hidden_exact : (column ∈ (actor.access directory rules).hidden ∨ "*" ∈ (actor.access directory rules).hidden) ↔
    ∃ role ∈ actor.bound directory, Hides rules role column := by
  unfold Actor.access Actor.bound getColumnAccess
  cases actor with
  | session id user =>
    simp only [Actor.id,Actor.role,user,Bool.false_and,if_neg Bool.false_ne_true]
    by_cases viewed : directory.viewsAll id = true
    · simp [viewed]
    · simp [viewed,mem_hidden]
  | key id key issuer user =>
    simp only [Actor.id,Actor.role,Actor.author,key.1,key.2,Bool.not_false,Bool.and_true,if_pos]
    have own := @mem_hidden rules "api_key" column
    have theirs := @identity_hidden directory rules column (directory.principalRole issuer) issuer user.1
    unfold keyColumnAccess
    simp only [if_neg user.2,List.mem_append]
    by_cases viewed : directory.viewsAll issuer = true
    · simp only [viewed] at theirs ⊢
      simp only [Bool.true_eq_false,false_and,iff_false,not_or] at theirs
      simp [← own,theirs]
    · simp only [viewed] at theirs ⊢
      simp only [true_and] at theirs
      simp only [if_neg Bool.false_ne_true,List.mem_cons,List.not_mem_nil,or_false,exists_eq_or_imp,exists_eq_left,← own,← theirs]
      grind
  | job id key =>
    have mortal : directory.viewsAll id = false := by
      unfold Directory.viewsAll
      rw [key.1]
      rfl
    simp only [Actor.id,Actor.role,key.1,key.2,mortal,Bool.not_true,Bool.and_false,if_neg Bool.false_ne_true]
    simp [mem_hidden]

theorem mem_maskRoles {search : List String} {role : String} (user : column ∉ SYSTEM_COLUMNS) :
    role ∈ maskRoles rules search column ↔ ∃ rule ∈ rules, rule.can_read = false ∧ rule.role = role ∧ (rule.column = column ∨ rule.column = "*") := by
  have apart : column ∉ SEARCH := by
    intro searched
    apply user
    revert searched
    unfold SEARCH SYSTEM_COLUMNS
    simp only [List.mem_cons,List.not_mem_nil,or_false]
    grind
  unfold maskRoles
  rw [if_neg apart,if_neg user,List.mem_append,List.mem_map,List.mem_map]
  constructor
  · rintro (⟨rule,member,same⟩ | ⟨rule,member,same⟩)
    · obtain ⟨there,fits⟩ := List.mem_filter.mp member
      rw [Bool.and_eq_true,decide_eq_true_eq,Bool.not_eq_true'] at fits
      exact ⟨rule,there,fits.2,same,.inr fits.1⟩
    · obtain ⟨there,fits⟩ := List.mem_filter.mp member
      rw [Bool.and_eq_true,decide_eq_true_eq,Bool.not_eq_true'] at fits
      exact ⟨rule,there,fits.2,same,.inl fits.1⟩
  · rintro ⟨rule,there,read,same,here | whole⟩
    · exact .inr ⟨rule,List.mem_filter.mpr ⟨there,by simp [here,read]⟩,same⟩
    · exact .inl ⟨rule,List.mem_filter.mpr ⟨there,by simp [whole,read]⟩,same⟩

variable {ν : Type u} [DecidableEq ν] {old new : Table String ν}

theorem mem_guard (force : InForce) (directory : Directory) (actor : Actor) (collection : Text) (old new : Table String ν) (column : String) :
    column ∈ guard (actor.published directory) 1 collection force.spec old new ↔
      column ∉ SYSTEM_COLUMNS ∧ column ∈ Table.keys new ∧ Table.get new column ≠ Table.get old column ∧
        ∃ role ∈ actor.bound directory, Restricts force.rules role column := by
  obtain ⟨acting,quiet,_⟩ := @published_plain directory actor
  obtain ⟨absent,present⟩ := compiled_exact force.compiled
  unfold guard
  cases found : force.spec with
  | none =>
    refine iff_of_false List.not_mem_nil ?_
    rintro ⟨user,_,_,bound⟩
    rcases ((bound_exact user).mp bound).2 with (listed | listed | listed) | (listed | listed | listed) <;> exact absent found _ _ listed
  | some spec =>
    obtain ⟨system,roles⟩ := present spec found
    have reached (name : String) : name ∈ restricted spec (actor.published directory) ↔ Reaches force.rules (actor.published directory) name := by
      unfold restricted Reaches
      rw [List.mem_eraseDups,List.mem_append,List.mem_append,roles,roles,roles,or_assoc]
    have kept (table : Table String ν) := get_kept table fun name => name ∉ spec.system
    unfold zveltio_column_guard
    simp only [if_neg (show ¬((actor.published directory).actor ≠ on ∨ 1 < 1) by simp [acting])]
    by_cases all : (actor.published directory).columns_all = on
    · simp only [if_pos all]
      refine iff_of_false List.not_mem_nil ?_
      rintro ⟨user,_,_,bound⟩
      exact ((bound_exact user).mp bound).1 all
    · simp only [if_neg all,quiet,ne_eq,not_true_eq_false,false_and,if_false,List.mem_filter,kept]
      have there : column ∈ (new.filter fun entry => entry.1 ∉ spec.system).map Prod.fst ↔ column ∉ SYSTEM_COLUMNS ∧ column ∈ Table.keys new := by
        unfold Table.keys
        rw [List.mem_map,List.mem_map,← system]
        constructor
        · rintro ⟨entry,member,same⟩
          obtain ⟨inside,apart⟩ := List.mem_filter.mp member
          exact ⟨same ▸ of_decide_eq_true apart,entry,inside,same⟩
        · rintro ⟨apart,entry,inside,same⟩
          exact ⟨entry,List.mem_filter.mpr ⟨inside,decide_eq_true (same ▸ apart)⟩,same⟩
      have seen : (∃ value, Table.get new column = some value) ↔ column ∈ Table.keys new := get_isSome
      by_cases user : column ∈ SYSTEM_COLUMNS
      · have hidden : column ∈ spec.system := system ▸ user
        simp [hidden,user]
      · have shown : column ∉ spec.system := system ▸ user
        rw [bound_exact user]
        by_cases wild : "*" ∈ restricted spec (actor.published directory)
        · have whole := (reached _).mp wild
          simp only [if_pos wild,there]
          simp [shown,user,all,whole,Option.isSome_iff_exists,seen]
        · have apart := mt (reached _).mpr wild
          simp only [if_neg wild,reached]
          simp [shown,user,all,apart,Option.isSome_iff_exists,seen]
          grind

-- A served user column comes out of the view as it is, or NULL for whom the application hides it.
omit [DecidableEq ν] in
theorem cell_exact (rules : List Rule) (directory : Directory) (actor : Actor) (collection : Text) {unserved : List String} (search : List String)
    {column : String} (user : column ∉ SYSTEM_COLUMNS) (served : column ∉ unserved) (value : Option ν) :
    maskedCell (actor.published directory) collection rules unserved search column value =
      some (if column ∈ (actor.access directory rules).hidden ∨ "*" ∈ (actor.access directory rules).hidden then none else value) := by
  obtain ⟨acting,quiet,engine⟩ := @published_plain directory actor
  have unnamed : "" ∉ maskRoles rules search column := by
    rw [mem_maskRoles user]
    rintro ⟨rule,_,_,same,_⟩
    exact rule.named same
  have hides (role : String) : Hides rules role column ↔ role ∈ maskRoles rules search column ∨ "*" ∈ maskRoles rules search column := by
    rw [mem_maskRoles user,mem_maskRoles user]
    constructor
    · rintro ⟨rule,member,⟨same | same,reaches⟩,read⟩
      · exact .inl ⟨rule,member,read,same,reaches⟩
      · exact .inr ⟨rule,member,read,same,reaches⟩
    · rintro (⟨rule,member,read,same,reaches⟩ | ⟨rule,member,read,same,reaches⟩)
      · exact ⟨rule,member,⟨.inl same,reaches⟩,read⟩
      · exact ⟨rule,member,⟨.inr same,reaches⟩,read⟩
  have bound := @bound_any directory actor (fun role => role ∈ maskRoles rules search column) unnamed
  have empty : lists ',' [] collection = false ∧ lists ',' [] ['*'] = false := by
    simp [lists]
  have silent : ([] : Text) ≠ on := by decide
  have masked := @hidden_exact directory actor rules column
  simp only [hides] at masked
  rw [bound] at masked
  simp only [masked]
  unfold maskedCell standsDown
  simp only [if_neg served,acting,quiet,engine,empty.1,empty.2]
  by_cases none_left : maskRoles rules search column = []
  · simp [none_left]
  · simp only [if_neg none_left]
    by_cases all : (actor.published directory).columns_all = on
    · simp [all]
    · by_cases wild : "*" ∈ maskRoles rules search column <;> by_cases own : (actor.published directory).user_role ∈ maskRoles rules search column <;>
        by_cases issued : (actor.published directory).issuer_role ∈ maskRoles rules search column <;> simp [all,wild,own,issued,silent]

omit [DecidableEq ν] in
theorem mem_filtered (data : Table String ν) (access : ColumnAccess) (column : String) :
    column ∈ (filterWritableFields data access).2 ↔ column ∈ Table.keys data ∧ blocks access column = true := by
  unfold filterWritableFields
  split
  · unfold Table.keys
    rw [List.mem_map,List.mem_map]
    constructor
    · rintro ⟨entry,member,same⟩
      obtain ⟨inside,blocked⟩ := List.mem_filter.mp member
      exact ⟨⟨entry,inside,same⟩,same ▸ blocked⟩
    · rintro ⟨⟨entry,inside,same⟩,blocked⟩
      exact ⟨entry,List.mem_filter.mpr ⟨inside,same ▸ blocked⟩,same⟩
  · next no_mask =>
    have empty : access.readOnly = [] ∧ access.hidden = [] := by
      simp only [not_or,Nat.not_lt,Nat.le_zero,List.length_eq_zero_iff] at no_mask
      exact ⟨no_mask.1,no_mask.2.2.1⟩
    simp [blocks,empty]

omit [DecidableEq ν] in
theorem keys_shown (record : Table String ν) (access : ColumnAccess) (column : String) :
    column ∈ Table.keys (applyColumnAccess record access) ↔ column ∈ Table.keys record ∧ ¬(column ∈ access.hidden ∨ "*" ∈ access.hidden) := by
  unfold applyColumnAccess
  split
  · next empty =>
    rw [List.length_eq_zero_iff.mp empty]
    simp
  · unfold Table.keys
    rw [List.mem_map,List.mem_map]
    constructor
    · rintro ⟨entry,member,same⟩
      obtain ⟨inside,kept⟩ := List.mem_filter.mp member
      have apart := of_decide_eq_true kept
      exact ⟨⟨entry,inside,same⟩,not_or.mpr ⟨same ▸ apart.1,apart.2⟩⟩
    · rintro ⟨⟨entry,inside,same⟩,apart⟩
      have split := not_or.mp apart
      exact ⟨entry,List.mem_filter.mpr ⟨inside,decide_eq_true ⟨same ▸ split.1,split.2⟩⟩,same⟩

end

-- Every door reads the rules alike: the filter takes from the data the columns an update of which is refused, an update is refused
-- when it changes one of those, and the view shows NULL for the columns that are hidden.
theorem doors_agree {ν : Type u} [DecidableEq ν] (force : InForce) (directory : Directory) (actor : Actor) (collection : Text) :
    let access := actor.access directory force.rules
    let settings := actor.published directory
    (∀ data old new : Table String ν, ∀ column ∉ SYSTEM_COLUMNS, column ∈ Table.keys data → column ∈ Table.keys new → Table.get new column ≠ Table.get old column →
      (column ∈ (filterWritableFields data access).2 ↔ column ∈ guard settings 1 collection force.spec old new)) ∧
    (∀ old new : Table String ν, guard settings 1 collection force.spec old new ≠ [] ↔
      ∃ column ∉ SYSTEM_COLUMNS, column ∈ Table.keys new ∧ Table.get new column ≠ Table.get old column ∧ column ∈ (filterWritableFields new access).2) ∧
    ∀ record : Table String ν, ∀ unserved search, ∀ column ∉ SYSTEM_COLUMNS, column ∈ Table.keys record → column ∉ unserved → ∀ value : Option ν,
      maskedCell settings collection force.rules unserved search column value =
        some (if column ∈ Table.keys (applyColumnAccess record access) then value else none) := by
  intro access settings
  refine ⟨fun data old new column user written there changed => ?_,fun old new => ?_,fun record unserved search column user held served value => ?_⟩
  · rw [mem_filtered,mem_guard]
    have blocked : blocks access column = true ↔ _ := blocked_exact
    rw [blocked]
    simp [user,written,there,changed]
  · rw [ne_eq,List.eq_nil_iff_forall_not_mem,not_forall]
    simp only [not_not]
    refine exists_congr fun column => ?_
    have blocked : blocks access column = true ↔ _ := blocked_exact
    rw [mem_guard,mem_filtered,blocked]
    grind
  · rw [cell_exact force.rules directory actor collection search user served value]
    have shown := keys_shown record access column
    by_cases hidden : column ∈ access.hidden ∨ "*" ∈ access.hidden
    · rw [if_pos hidden,if_neg fun inside => (shown.mp inside).2 hidden]
    · rw [if_neg hidden,if_pos (shown.mpr ⟨held,hidden⟩)]

example : compileColumnGuard [⟨"salary","member",true,false,by decide⟩,⟨"id","member",false,false,by decide⟩,⟨"notes","*",false,true,by decide⟩] =
    some (some ⟨[("member",["salary"]),("*",["notes"])],SYSTEM_COLUMNS⟩) := by rfl

end Zveltio.ColumnRules
