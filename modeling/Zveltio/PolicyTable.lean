import Mathlib.Data.List.Basic
namespace Zveltio.PolicyTable

inductive Sec where
  | p
  | g
  deriving DecidableEq

-- A row of zvd_permissions without its null columns, and a rule of casbin's model.
structure Rule where
  sec : Sec
  values : List String
  deriving DecidableEq

abbrev Grant := String × String × String

-- rows holds each rule at most once; revoked is zv_default_grant_revocations.
structure Store where
  rows : List Rule
  revoked : List Grant

-- Model.addPolicy and Model.removePolicy; ON CONFLICT DO NOTHING in the table.
def addPolicy (model : List Rule) (rule : Rule) : List Rule := if rule ∈ model then model else model ++ [rule]

def removePolicy (model : List Rule) (rule : Rule) : List Rule := model.filter fun held => held ≠ rule

@[simp] theorem mem_addPolicy {model : List Rule} : other ∈ addPolicy model rule ↔ other ∈ model ∨ other = rule := by
  unfold addPolicy
  split
  · next held =>
    constructor
    · exact .inl
    · rintro (old | rfl)
      · exact old
      · exact held
  · simp

@[simp] theorem mem_removePolicy {model : List Rule} : other ∈ removePolicy model rule ↔ other ∈ model ∧ other ≠ rule := by
  simp [removePolicy]

theorem mem_addPolicies {model rules : List Rule} : other ∈ rules.foldl addPolicy model ↔ other ∈ model ∨ other ∈ rules := by
  induction rules generalizing model with
  | nil => simp
  | cons rule rest ih => rw [List.foldl_cons,ih,mem_addPolicy,List.mem_cons,or_assoc]

def DEFAULT_ROLE_GRANTS : List (String × List String) :=
  [("tenant_member",["read","create","update"]),("tenant_viewer",["read"])]

def EXTENSION_RESOURCE_GRANTS : List (String × List String) := [("tenant_member",["execute"])]

def isDefaultGrant (sensitive : List String) (grant : Grant) : Bool :=
  grant.2.1 ∉ sensitive ∧ (DEFAULT_ROLE_GRANTS ++ EXTENSION_RESOURCE_GRANTS).any fun entry =>
    entry.1 = grant.1 ∧ grant.2.2 ∈ entry.2

-- The triples of writeDefaultGrants in the order of its loops.
def defaultGrants (sensitive resources : List String) (extension : Bool) : List Grant :=
  let targets := resources.eraseDups.filter fun resource => resource ≠ "" ∧ resource ∉ sensitive
  let grants := if extension then DEFAULT_ROLE_GRANTS ++ EXTENSION_RESOURCE_GRANTS else DEFAULT_ROLE_GRANTS
  targets.flatMap fun resource => grants.flatMap fun entry => entry.2.map fun action => (entry.1,resource,action)

-- Role, resource and action of a p rule of every domain.
def Rule.grant (rule : Rule) : Option Grant := match rule.sec,rule.values with
  | .p,role::"*"::resource::action::_ => some (role,resource,action)
  | _,_ => none

def Grant.rule (grant : Grant) : Rule := ⟨.p,[grant.1,"*",grant.2.1,grant.2.2]⟩

-- The adapter's addPolicy: the insert takes back the revocation of the same grant.
def Store.insert (store : Store) (rule : Rule) : Store :=
  ⟨addPolicy store.rows rule,store.revoked.filter fun grant => some grant ≠ rule.grant⟩

-- deleteRecordingRevokes: the default grants among the deleted rows are recorded.
def Store.delete (store : Store) (sensitive : List String) (conditions : Rule → Bool) : Store :=
  ⟨store.rows.filter fun row => !conditions row,
    store.revoked ++ ((store.rows.filter conditions).filterMap Rule.grant).filter (isDefaultGrant sensitive)⟩

-- One insert of writeDefaultGrants; none where the grant is revoked.
def Store.grant (store : Store) (grant : Grant) : Option Store :=
  if grant ∈ store.revoked then none else some {store with rows := addPolicy store.rows grant.rule}

@[simp] theorem mem_insert {store : Store} : other ∈ (store.insert rule).rows ↔ other ∈ store.rows ∨ other = rule :=
  mem_addPolicy

@[simp] theorem mem_delete {store : Store} : other ∈ (store.delete sensitive conditions).rows ↔
    other ∈ store.rows ∧ conditions other = false := by
  simp [Store.delete]

theorem mem_grant {store : Store} (granted : store.grant grant = some after) :
    other ∈ after.rows ↔ other ∈ store.rows ∨ other = grant.rule := by
  unfold Store.grant at granted
  split at granted
  · cases granted
  · cases Option.some.inj granted
    exact mem_addPolicy

-- A filter names the column of its first value; an empty value stands for any.
structure Filter where
  fieldIndex : Nat
  fieldValues : List String

def Filter.matches' (filter : Filter) (rule : Rule) : Bool :=
  filter.fieldValues.zipIdx.all fun value => value.1 = "" ∨ rule.values[filter.fieldIndex + value.2]? = some value.1

structure Change where
  sec : Sec
  rules : List (List String)
  filter : Option Filter

def Change.named (change : Change) : List Rule := change.rules.map (Rule.mk change.sec)

def Change.filtered (change : Change) (rule : Rule) : Bool :=
  rule.sec = change.sec ∧ change.filter.any fun filter => filter.matches' rule

-- The rules of a change, and the live model's own that its filter matches.
def candidates (change : Change) (model : List Rule) : List Rule := change.named ++ model.filter change.filtered

def heldRows (rows named : List Rule) : List Rule := rows.filter fun row =>
  named.any fun candidate => candidate.sec = row.sec ∧ candidate.values[0]? = row.values[0]?

theorem mem_candidates {change : Change} : rule ∈ candidates change model ↔
    rule ∈ change.named ∨ rule ∈ model ∧ change.filtered rule = true := by
  simp [candidates]

theorem mem_heldRows {named : List Rule} (candidate : rule ∈ named) : rule ∈ heldRows rows named ↔ rule ∈ rows := by
  simp only [heldRows,List.mem_filter,List.any_eq_true,and_iff_left_iff_imp]
  exact fun _ => ⟨rule,candidate,by simp⟩

theorem kept_or_erased {calls : List κ} (member : call ∈ calls) (index : Nat) : call ∈ calls.eraseIdx index ∨ calls[index]? = some call := by
  obtain ⟨place,here⟩ := List.mem_iff_getElem?.mp member
  by_cases same : place = index
  · exact .inr (same ▸ here)
  · exact .inl (List.mem_eraseIdx_iff_getElem?.mpr ⟨place,same,here⟩)

theorem kept_or_set {calls : List κ} (member : call ∈ calls) (index : Nat) (other : κ) :
    call ∈ calls.set index other ∨ calls[index]? = some call := by
  obtain ⟨place,here⟩ := List.mem_iff_getElem?.mp member
  by_cases same : place = index
  · exact .inr (same ▸ here)
  · exact .inl (List.mem_of_getElem? ((List.getElem?_set_ne (Ne.symm same)).trans here))

theorem set_member {calls : List κ} (here : calls[index]? = some call) (other : κ) : other ∈ calls.set index other :=
  List.mem_set (List.getElem?_eq_some_iff.mp here).1 other

end Zveltio.PolicyTable
