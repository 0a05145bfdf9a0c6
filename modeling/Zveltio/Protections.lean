import Mathlib.Data.List.Basic
import Zveltio.Runs
namespace Zveltio.Protections
open Runs

structure Grant (γ ρ : Type) where
  grantee : γ
  privilege : ρ
  grantable : Bool

-- What decides who may read and write one table. A grantee is any role but the table's owner, whose privileges no statement here touches.
structure Protection (ν π γ ρ κ δ : Type) where
  policies : List (ν × π)
  guard : Option δ
  rowSecurity : Bool
  forced : Bool
  tableGrants : List (Grant γ ρ)
  columnGrants : List (κ × Grant γ ρ)

inductive Ddl (ν π γ ρ κ δ : Type) where
  | dropPolicy (name : ν)
  | dropTrigger
  | enableRowSecurity
  | forceRowSecurity
  | createPolicy (policy : ν × π)
  | createTrigger (guard : δ)
  | revokeAll (grantee : γ)
  | grant (grant : Grant γ ρ)
  | grantColumn (grant : κ × Grant γ ρ)

section
variable {ν π γ ρ κ δ : Type} [DecidableEq ν] [DecidableEq γ]

def Protection.grantees (table : Protection ν π γ ρ κ δ) : List γ :=
  (table.tableGrants.map Grant.grantee ++ table.columnGrants.map fun grant => grant.2.grantee).eraseDups

-- What mirrorPublicProtections reads of a table of public and of its copy in the branch, as the statements it makes of them.
-- shared: the copy has the column.
def mirrorDdl (shared : κ → Bool) (here branch : Protection ν π γ ρ κ δ) : List (Ddl ν π γ ρ κ δ) :=
  branch.policies.map (fun policy => .dropPolicy policy.1) ++ ((if branch.guard.isSome then [.dropTrigger] else []) ++
    ((if here.rowSecurity then [.enableRowSecurity] else []) ++ ((if here.forced then [.forceRowSecurity] else []) ++
      (here.policies.map .createPolicy ++ (here.guard.toList.map .createTrigger ++
        (branch.grantees.map .revokeAll ++ (here.tableGrants.map .grant ++ (here.columnGrants.filter fun grant => shared grant.1).map .grantColumn)))))))

-- A statement fails where what it drops is not there, or what it creates is. A table-level REVOKE takes the grantee's column privileges with it.
def exec (table : Protection ν π γ ρ κ δ) : Ddl ν π γ ρ κ δ → Option (Protection ν π γ ρ κ δ)
  | .dropPolicy name =>
    if name ∈ table.policies.map Prod.fst then some {table with policies := table.policies.filter fun policy => policy.1 ≠ name} else none
  | .dropTrigger => if table.guard.isSome then some {table with guard := none} else none
  | .enableRowSecurity => some {table with rowSecurity := true}
  | .forceRowSecurity => some {table with forced := true}
  | .createPolicy policy => if policy.1 ∈ table.policies.map Prod.fst then none else some {table with policies := table.policies ++ [policy]}
  | .createTrigger guard => if table.guard.isSome then none else some {table with guard := some guard}
  | .revokeAll grantee => some {table with
      tableGrants := table.tableGrants.filter fun grant => grant.grantee ≠ grantee
      columnGrants := table.columnGrants.filter fun grant => grant.2.grantee ≠ grantee}
  | .grant grant => some {table with tableGrants := table.tableGrants ++ [grant]}
  | .grantColumn grant => some {table with columnGrants := table.columnGrants ++ [grant]}

def mirrored (shared : κ → Bool) (here branch table : Protection ν π γ ρ κ δ) : Option (Protection ν π γ ρ κ δ) :=
  run exec table (mirrorDdl shared here branch)

-- All that is on the table now was there when the branch was read, so the statements take all of it off.
structure Covers (branch now : Protection ν π γ ρ κ δ) : Prop where
  policies : ∀ policy ∈ now.policies, policy.1 ∈ branch.policies.map Prod.fst
  guard : now.guard.isSome = true → branch.guard.isSome = true
  grants : ∀ grantee ∈ now.grantees, grantee ∈ branch.grantees

-- The copy has the protections of the table of public, on the columns it shares, and row security at least as strict.
structure Mirrors (shared : κ → Bool) (here branch : Protection ν π γ ρ κ δ) : Prop where
  policies : branch.policies = here.policies
  guard : branch.guard = here.guard
  rowSecurity : here.rowSecurity = true → branch.rowSecurity = true
  forced : here.forced = true → branch.forced = true
  tableGrants : branch.tableGrants = here.tableGrants
  columnGrants : branch.columnGrants = here.columnGrants.filter fun grant => shared grant.1

end

section
variable {ν π γ ρ κ δ ω : Type}

structure Access (γ ρ κ ω : Type) where
  role : γ
  privilege : ρ
  column : κ
  row : ω

-- member: a role has what was granted to another, or to all. passes: a row is let through by the policies; admits: the column guard does not refuse.
def Allows (member : γ → γ → Prop) (passes : List (ν × π) → Access γ ρ κ ω → Prop) (admits : δ → Access γ ρ κ ω → Prop)
    (table : Protection ν π γ ρ κ δ) (access : Access γ ρ κ ω) : Prop :=
  ((∃ grant ∈ table.tableGrants, member access.role grant.grantee ∧ grant.privilege = access.privilege) ∨
    ∃ grant ∈ table.columnGrants, grant.1 = access.column ∧ member access.role grant.2.grantee ∧ grant.2.privilege = access.privilege) ∧
  (table.rowSecurity = true → passes table.policies access) ∧ ∀ guard, table.guard = some guard → admits guard access

theorem mirrors_allows {member : γ → γ → Prop} {passes : List (ν × π) → Access γ ρ κ ω → Prop} {admits : δ → Access γ ρ κ ω → Prop}
    (mirrors : Mirrors shared here branch) (allowed : Allows member passes admits branch access) : Allows member passes admits here access := by
  obtain ⟨granted,passed,admitted⟩ := allowed
  rw [mirrors.policies] at passed
  rw [mirrors.guard] at admitted
  refine ⟨?_,fun secured => passed (mirrors.rowSecurity secured),admitted⟩
  rw [mirrors.tableGrants,mirrors.columnGrants] at granted
  obtain table | ⟨grant,member,rest⟩ := granted
  · exact .inl table
  · exact .inr ⟨grant,(List.mem_filter.mp member).1,rest⟩

end

section
variable {ν π γ ρ κ δ : Type} [DecidableEq ν] [DecidableEq γ]

theorem drop_policies (dropped : run exec (table : Protection ν π γ ρ κ δ) ((names : List ν).map .dropPolicy) = some after) :
    after = {table with policies := table.policies.filter fun policy => policy.1 ∉ names} := by
  induction names generalizing table with
  | nil =>
    cases dropped
    simp only [List.not_mem_nil,not_false_eq_true,decide_true,List.filter_true]
  | cons name rest ih =>
    obtain ⟨next,now,later⟩ := run_cons.mp dropped
    simp only [exec] at now
    split at now
    · cases now
      rw [ih later]
      simp [List.filter_filter,Bool.and_comm]
    · cases now

theorem create_policies (created : run exec (table : Protection ν π γ ρ κ δ) ((policies : List (ν × π)).map .createPolicy) = some after) :
    after = {table with policies := table.policies ++ policies} := by
  induction policies generalizing table with
  | nil =>
    cases created
    simp
  | cons policy rest ih =>
    obtain ⟨next,now,later⟩ := run_cons.mp created
    simp only [exec] at now
    split at now
    · cases now
    · cases now
      rw [ih later]
      simp

theorem revoke_all (table : Protection ν π γ ρ κ δ) : run exec table ((grantees : List γ).map .revokeAll) = some {table with
    tableGrants := table.tableGrants.filter fun grant => grant.grantee ∉ grantees
    columnGrants := table.columnGrants.filter fun grant => grant.2.grantee ∉ grantees} := by
  induction grantees generalizing table with
  | nil => simp only [List.map_nil,run_nil,List.not_mem_nil,not_false_eq_true,decide_true,List.filter_true]
  | cons grantee rest ih =>
    rw [List.map_cons,run_cons_bind]
    simp only [exec,Option.bind_some,ih]
    simp [List.filter_filter,Bool.and_comm]

theorem grant_all (table : Protection ν π γ ρ κ δ) : run exec table ((grants : List (Grant γ ρ)).map .grant) = some {table with tableGrants := table.tableGrants ++ grants} := by
  induction grants generalizing table with
  | nil => simp
  | cons grant rest ih =>
    rw [List.map_cons,run_cons_bind]
    simp only [exec,Option.bind_some,ih]
    simp

theorem grant_columns (table : Protection ν π γ ρ κ δ) :
    run exec table ((grants : List (κ × Grant γ ρ)).map .grantColumn) = some {table with columnGrants := table.columnGrants ++ grants} := by
  induction grants generalizing table with
  | nil => simp
  | cons grant rest ih =>
    rw [List.map_cons,run_cons_bind]
    simp only [exec,Option.bind_some,ih]
    simp

omit [DecidableEq ν] in
theorem mem_grantees {table : Protection ν π γ ρ κ δ} :
    grantee ∈ table.grantees ↔ (∃ grant ∈ table.tableGrants, grant.grantee = grantee) ∨ ∃ grant ∈ table.columnGrants, grant.2.grantee = grantee := by
  simp [Protection.grantees]

omit [DecidableEq ν] in
theorem covers_refl (table : Protection ν π γ ρ κ δ) : Covers table table :=
  ⟨fun _ member => List.mem_map_of_mem member,id,fun _ member => member⟩

theorem drop_trigger {table after : Protection ν π γ ρ κ δ} (dropped : run exec table (if is = true then [.dropTrigger] else []) = some after)
    (had : table.guard.isSome = true → is = true) : after = {table with guard := none} := by
  by_cases held : is = true
  · rw [if_pos held] at dropped
    obtain ⟨next,now,later⟩ := run_cons.mp dropped
    cases later
    simp only [exec] at now
    split at now
    · exact (Option.some.inj now).symm
    · cases now
  · rw [if_neg held] at dropped
    cases dropped
    have none : table.guard = Option.none := by
      cases there : table.guard with
      | none => rfl
      | some guard => exact absurd (had (by simp [there])) held
    rw [← none]

theorem create_trigger {table after : Protection ν π γ ρ κ δ} {guard : Option δ} (free : table.guard = none)
    (created : run exec table (guard.toList.map .createTrigger) = some after) : after = {table with guard} := by
  cases guard with
  | none =>
    cases created
    rw [← free]
  | some guard =>
    obtain ⟨next,now,later⟩ := run_cons.mp created
    cases later
    simpa [exec,free] using now.symm

theorem enable_row_security {table : Protection ν π γ ρ κ δ} {is : Bool} :
    run exec table (if is then [.enableRowSecurity] else []) = some {table with rowSecurity := table.rowSecurity || is} := by
  cases is <;> simp [run,exec]

theorem force_row_security {table : Protection ν π γ ρ κ δ} {is : Bool} :
    run exec table (if is then [.forceRowSecurity] else []) = some {table with forced := table.forced || is} := by
  cases is <;> simp [run,exec]

-- The statements made of a snapshot of the branch, run on a table that has nothing the snapshot had not, leave what public had at the snapshot.
theorem mirrored_exact {here branch table after : Protection ν π γ ρ κ δ} (covers : Covers branch table) (done : mirrored shared here branch table = some after) :
    Mirrors shared here after := by
  unfold mirrored mirrorDdl at done
  obtain ⟨undone,dropped,done⟩ := run_append.mp done
  obtain ⟨untriggered,triggered,done⟩ := run_append.mp done
  obtain ⟨enabled,enables,done⟩ := run_append.mp done
  obtain ⟨forced,forces,done⟩ := run_append.mp done
  obtain ⟨policed,created,done⟩ := run_append.mp done
  obtain ⟨guarded,guards,done⟩ := run_append.mp done
  obtain ⟨revoked,revokes,done⟩ := run_append.mp done
  obtain ⟨granted,grants,done⟩ := run_append.mp done
  have unpoliced : undone = {table with policies := []} := by
    have names : branch.policies.map (fun policy => Ddl.dropPolicy policy.1) = (branch.policies.map Prod.fst).map (.dropPolicy : ν → Ddl ν π γ ρ κ δ) := by
      rw [List.map_map]
      rfl
    rw [names] at dropped
    rw [drop_policies dropped]
    have none : table.policies.filter (fun policy => policy.1 ∉ branch.policies.map Prod.fst) = [] := by
      apply List.filter_eq_nil_iff.mpr
      intro policy member
      simpa using covers.policies policy member
    rw [none]
  subst unpoliced
  cases drop_trigger triggered covers.guard
  cases enable_row_security.symm.trans enables
  cases force_row_security.symm.trans forces
  cases create_policies created
  cases create_trigger rfl guards
  cases (revoke_all _).symm.trans revokes
  cases (grant_all _).symm.trans grants
  cases (grant_columns _).symm.trans done
  have tables : table.tableGrants.filter (fun grant => grant.grantee ∉ branch.grantees) = [] := by
    apply List.filter_eq_nil_iff.mpr
    intro grant member
    simpa using covers.grants _ (mem_grantees.mpr (.inl ⟨grant,member,rfl⟩))
  have columns : table.columnGrants.filter (fun grant => grant.2.grantee ∉ branch.grantees) = [] := by
    apply List.filter_eq_nil_iff.mpr
    intro grant member
    simpa using covers.grants _ (mem_grantees.mpr (.inr ⟨grant,member,rfl⟩))
  refine ⟨rfl,rfl,fun secured => by simp [secured],fun forced => by simp [forced],?_,?_⟩
  · show table.tableGrants.filter (fun grant => grant.grantee ∉ branch.grantees) ++ here.tableGrants = here.tableGrants
    rw [tables,List.nil_append]
  · show table.columnGrants.filter (fun grant => grant.2.grantee ∉ branch.grantees) ++ _ = _
    rw [columns,List.nil_append]

end
end Zveltio.Protections
