import Zveltio.Runs
namespace Zveltio.SchemaBranches
open Runs

inductive Status where
  | opened
  | merged
  | closed
  deriving DecidableEq

-- number tells apart changes that are equal.
structure Entry (κ : Type) where
  number : Nat
  change : κ
  deriving DecidableEq

-- A merge on its way through the changes it read: those that failed, and those to come.
structure Merge (κ : Type) where
  failed : List (Entry κ)
  rest : List (Entry κ)

-- status and changes are the branch's row, schema what its changes are made to, jobs the DDL queue. posts has the list each post on its way read.
-- posted has the changes whose post was answered with success, applied those a merge counted as applied.
structure State (ρ κ σ : Type) where
  status : Status
  changes : List (Entry κ)
  schema : σ
  jobs : List (Entry κ)
  posts : ρ → Option (List (Entry κ))
  merges : ρ → Option (Merge κ)
  posted : List (Entry κ)
  applied : List (Entry κ)
  wasClosed : Bool

def State.start {ρ κ σ : Type} (base : σ) : State ρ κ σ := ⟨.opened,[],base,[],fun _ => none,fun _ => none,[],[],false⟩

inductive Action (ρ κ : Type) where
  | postSelect (r : ρ)
  | postUpdate (r : ρ) (change : κ)
  | mergeSelect (r : ρ)
  | apply (r : ρ) (ok : Bool)
  | mergeUpdate (r : ρ)
  | close
  | job (entry : Entry κ) (ok : Bool)

section
variable {ρ κ σ : Type} [DecidableEq ρ] [DecidableEq κ]

-- effect: what a change does, where it can. queued: an add_collection, which a merge only hands to the DDL queue.
-- A change or a job may fail though its effect could be made.
def step (effect : σ → κ → Option σ) (queued : κ → Bool) (state : State ρ κ σ) : Action ρ κ → Option (State ρ κ σ)
  | .postSelect r =>
    if state.status = .opened ∧ (state.posts r).isNone then some {state with posts := Function.update state.posts r (some state.changes)} else none
  | .postUpdate r change => (state.posts r).map fun currentChanges =>
    let entry : Entry κ := ⟨state.posted.length,change⟩
    {state with changes := currentChanges ++ [entry],posted := state.posted ++ [entry],posts := Function.update state.posts r none}
  | .mergeSelect r =>
    if state.status = .opened ∧ (state.merges r).isNone then
      some {state with merges := Function.update state.merges r (some ⟨[],state.changes⟩)}
    else none
  | .apply r ok => (state.merges r).bind fun merge => match merge.rest with
    | [] => none
    | entry::rest =>
      if !ok then some {state with merges := Function.update state.merges r (some ⟨merge.failed ++ [entry],rest⟩)}
      else
        let counted := {state with merges := Function.update state.merges r (some ⟨merge.failed,rest⟩),applied := state.applied ++ [entry]}
        if queued entry.change then some {counted with jobs := state.jobs ++ [entry]}
        else (effect state.schema entry.change).map fun schema => {counted with schema}
  | .mergeUpdate r => (state.merges r).bind fun merge => match merge.rest with
    | [] => some {state with
        status := if merge.failed.isEmpty then .merged else state.status
        changes := if merge.failed.isEmpty then state.changes else merge.failed
        merges := Function.update state.merges r none}
    | _::_ => none
  | .close => some {state with status := .closed,wasClosed := true}
  | .job entry ok =>
    if entry ∈ state.jobs then
      let done := {state with jobs := state.jobs.erase entry}
      if ok then (effect state.schema entry.change).map fun schema => {done with schema} else some done
    else none

def effects (effect : σ → κ → Option σ) (schema : σ) (entry : Entry κ) : Option σ := effect schema entry.change

-- What the claim on the branch comes to, whatever is on its way.
structure Conserved (effect : σ → κ → Option σ) (base : σ) (state : State ρ κ σ) : Prop where
  distinct : state.posted.Nodup
  kept : state.status = .opened → (∀ r, state.posts r = none) → (∀ r, state.merges r = none) → (state.applied ++ state.changes).Perm state.posted
  once : state.applied.Nodup
  whole : state.status = .merged → state.applied.Perm state.posted ∧ run (effects effect) base state.posted = some state.schema
  unmerged : state.wasClosed = true → state.status ≠ .merged

-- A post writes back the list that is there, with no merge on its way and the branch not merged; merges do not overlap; a change is applied that commutes
-- with the ones its merge failed before it, and with the waiting jobs where it does not wait itself; a merge is clean only on a branch that is not closed,
-- with no job waiting; no job fails, and it commutes with the ones it overtakes.
def Permitted (effect : σ → κ → Option σ) (queued : κ → Bool) (state : State ρ κ σ) : Action ρ κ → Prop
  | .postUpdate r _ => state.status ≠ .merged ∧ (state.status = .opened → state.posts r = some state.changes ∧ ∀ other, state.merges other = none)
  | .mergeSelect _ => ∀ other, state.merges other = none
  | .apply r ok => ok = true → ∀ failed entry rest, state.merges r = some ⟨failed,entry::rest⟩ →
      (∀ other ∈ failed, Commute (effects effect) other entry) ∧
      (queued entry.change = false → ∀ other ∈ state.jobs, Commute (effects effect) other entry)
  | .mergeUpdate r => state.merges r = some ⟨[],[]⟩ → state.status ≠ .closed ∧ state.jobs = []
  | .job entry ok => ok = true ∧ ∀ ahead behind, state.jobs = ahead ++ entry::behind → ∀ other ∈ ahead, Commute (effects effect) other entry
  | _ => True

def Whole (effect : σ → κ → Option σ) (base : σ) (state : State ρ κ σ) (todo : List (Entry κ)) : Prop :=
  (state.applied ++ todo).Perm state.posted ∧ run (effects effect) base (state.applied ++ todo) = run (effects effect) base state.posted

-- Only one merge is on its way.
def Alone (merges : ρ → Option (Merge κ)) : Prop := ∀ r other, merges r ≠ none → merges other ≠ none → r = other

structure Sound (effect : σ → κ → Option σ) (base : σ) (state : State ρ κ σ) : Prop where
  numbered : state.posted.map Entry.number = List.range state.posted.length
  alone : Alone state.merges
  idle : state.status = .opened → (∀ r, state.merges r = none) → Whole effect base state state.changes
  flight : ∀ r merge, state.merges r = some merge → state.status ≠ .merged ∧ (state.applied ++ (merge.failed ++ merge.rest)).Nodup ∧
    (state.status = .opened → Whole effect base state (merge.failed ++ merge.rest))
  once : state.applied.Nodup
  done : state.status = .merged → state.jobs = [] ∧ Whole effect base state []
  ran : run (effects effect) base state.applied = run (effects effect) state.schema state.jobs
  shut : state.wasClosed = true → state.status = .closed

omit [DecidableEq κ] in
theorem distinct_of (numbered : posted.map Entry.number = List.range posted.length) : (posted : List (Entry κ)).Nodup := by
  have distinct : (posted.map Entry.number).Nodup := by
    rw [numbered]
    exact List.nodup_range
  apply List.Pairwise.imp _ (List.pairwise_map.1 distinct)
  intro one other apart same
  exact apart (congrArg Entry.number same)

omit [DecidableEq ρ] [DecidableEq κ] in
theorem start_sound (base : σ) : Sound effect base (State.start base : State ρ κ σ) where
  numbered := rfl
  alone _ _ some _ := absurd rfl some
  idle _ _ := ⟨.refl _,rfl⟩
  flight _ _ there := by cases there
  once := .nil
  done wrong := by cases wrong
  ran := rfl
  shut wrong := by cases wrong

omit [DecidableEq ρ] [DecidableEq κ] in
theorem Sound.conserved (sound : Sound effect base (state : State ρ κ σ)) : Conserved effect base state where
  distinct := distinct_of sound.numbered
  kept opened _ none := (sound.idle opened none).1
  once := sound.once
  whole merged := by
    obtain ⟨through,all,same⟩ := sound.done merged
    rw [List.append_nil] at all same
    refine ⟨all,?_⟩
    rw [← same,sound.ran,through]
    rfl
  unmerged closed merged := by
    rw [sound.shut closed] at merged
    cases merged

theorem postSelect_sound (sound : Sound effect base (state : State ρ κ σ)) (read : step effect queued state (.postSelect r) = some after) :
    Sound effect base after := by
  simp only [step] at read
  split at read
  · cases read
    exact {sound with}
  · cases read

theorem postUpdate_sound (sound : Sound effect base (state : State ρ κ σ)) (permitted : Permitted effect queued state (.postUpdate r change))
    (wrote : step effect queued state (.postUpdate r change) = some after) : Sound effect base after := by
  simp only [step,Option.map_eq_some_iff] at wrote
  obtain ⟨read,there,rfl⟩ := wrote
  obtain ⟨unmerged,current⟩ := permitted
  refine ⟨?_,sound.alone,?_,?_,sound.once,fun merged => absurd merged unmerged,sound.ran,sound.shut⟩
  · simp [sound.numbered,List.range_succ]
  · intro opened none
    obtain ⟨same,-⟩ := current opened
    rw [there] at same
    cases same
    obtain ⟨all,equal⟩ := sound.idle opened none
    constructor
    · rw [← List.append_assoc]
      exact all.append_right _
    · rw [← List.append_assoc,run_append_bind,equal,← run_append_bind]
  · intro other merge found
    obtain ⟨first,distinct,-⟩ := sound.flight other merge found
    refine ⟨first,distinct,?_⟩
    intro opened
    have none := (current opened).2 other
    rw [found] at none
    cases none

theorem mergeSelect_sound (sound : Sound effect base (state : State ρ κ σ)) (permitted : Permitted effect queued state (.mergeSelect r))
    (read : step effect queued state (.mergeSelect r) = some after) : Sound effect base after := by
  simp only [step] at read
  split at read
  case isFalse => cases read
  case isTrue may =>
  cases read
  have own : ∀ other, Function.update state.merges r (some ⟨[],state.changes⟩) other ≠ none → other = r := by
    intro other there
    apply Classical.byContradiction
    intro apart
    rw [Function.update_of_ne apart,permitted other] at there
    exact there rfl
  have whole := sound.idle may.1 permitted
  refine ⟨sound.numbered,?_,?_,?_,sound.once,?_,sound.ran,sound.shut⟩
  · intro one other first second
    rw [own one first,own other second]
  · intro _ none
    have wrong := none r
    simp only [Function.update_self] at wrong
    cases wrong
  · intro other merge there
    have here := own other fun wrong => by cases wrong.symm.trans there
    subst here
    simp only [Function.update_self] at there
    cases there
    refine ⟨by simp [may.1],?_,fun _ => whole⟩
    exact whole.1.nodup_iff.2 (distinct_of sound.numbered)
  · intro merged
    rw [may.1] at merged
    cases merged

omit [DecidableEq ρ] [DecidableEq κ] in
theorem Whole.skip (whole : Whole effect base (state : State ρ κ σ) (failed ++ entry::rest)) :
    Whole effect base state ((failed ++ [entry]) ++ rest) := by
  rw [List.append_assoc]
  exact whole

omit [DecidableEq κ] in
theorem moved (applied failed rest : List (Entry κ)) :
    ((applied ++ [entry]) ++ (failed ++ rest)).Perm (applied ++ (failed ++ entry::rest)) := by
  rw [List.append_assoc,List.singleton_append]
  exact List.perm_middle.symm.append_left _

-- What commutes with the ones that failed before it may be done before them.
omit [DecidableEq ρ] [DecidableEq κ] in
theorem Whole.advance (whole : Whole effect base (state : State ρ κ σ) (failed ++ entry::rest))
    (commute : ∀ other ∈ failed, Commute (effects effect) other entry) (counted : after.applied = state.applied ++ [entry])
    (same : after.posted = state.posted) : Whole effect base (after : State ρ κ σ) (failed ++ rest) := by
  obtain ⟨all,equal⟩ := whole
  constructor
  · rw [counted,same]
    exact (moved ..).trans all
  · rw [counted,same,← equal,List.append_assoc,List.singleton_append,run_append_bind,run_append_bind]
    simp only [run_move commute]

omit [DecidableEq κ] in
theorem Alone.place (alone : Alone (merges : ρ → Option (Merge κ))) (there : merges r = some merge)
    (found : Function.update merges r (some now) other = some held) : other = r ∧ held = now := by
  by_cases same : other = r
  · subst same
    simp only [Function.update_self] at found
    cases found
    exact ⟨rfl,rfl⟩
  · rw [Function.update_of_ne same] at found
    have wrong := alone other r (by rw [found]; exact Option.some_ne_none _) (by rw [there]; exact Option.some_ne_none _)
    exact absurd wrong same

omit [DecidableEq κ] in
theorem Alone.replace (alone : Alone (merges : ρ → Option (Merge κ))) (there : merges r = some merge) :
    Alone (Function.update merges r (some now)) := by
  intro one other first second
  obtain ⟨held,is⟩ := Option.ne_none_iff_exists'.1 first
  obtain ⟨too,has⟩ := Option.ne_none_iff_exists'.1 second
  rw [(alone.place there is).1,(alone.place there has).1]

omit [DecidableEq κ] in
theorem flying (none : ∀ other : ρ, Function.update merges r (some (now : Merge κ)) other = none) : False := by
  have wrong := none r
  simp only [Function.update_self] at wrong
  cases wrong

-- A merge counts a change, whatever that does to the schema and the queue.
omit [DecidableEq κ] in
theorem counted_sound (sound : Sound effect base (state : State ρ κ σ)) (there : state.merges r = some ⟨failed,entry::rest⟩)
    (commute : ∀ other ∈ failed, Commute (effects effect) other entry) (status : after.status = state.status)
    (merges : after.merges = Function.update state.merges r (some ⟨failed,rest⟩)) (applied : after.applied = state.applied ++ [entry])
    (posted : after.posted = state.posted) (wasClosed : after.wasClosed = state.wasClosed)
    (ran : run (effects effect) base after.applied = run (effects effect) after.schema after.jobs) : Sound effect base (after : State ρ κ σ) := by
  obtain ⟨unmerged,distinct,whole⟩ := sound.flight r _ there
  have kept : (after.applied ++ (failed ++ rest)).Nodup := by
    rw [applied]
    exact (moved ..).nodup_iff.2 distinct
  refine ⟨?_,?_,?_,?_,(List.nodup_append.1 kept).1,?_,ran,?_⟩
  · rw [posted]
    exact sound.numbered
  · rw [merges]
    exact sound.alone.replace there
  · rw [merges]
    intro _ none
    exact (flying none).elim
  · rw [merges,status]
    intro other merge held
    obtain ⟨-,rfl⟩ := sound.alone.place there held
    exact ⟨unmerged,kept,fun opened => (whole opened).advance commute applied posted⟩
  · rw [status]
    intro merged
    exact absurd merged unmerged
  · rw [status,wasClosed]
    exact sound.shut

theorem apply_sound (sound : Sound effect base (state : State ρ κ σ)) (permitted : Permitted effect queued state (.apply r ok))
    (tried : step effect queued state (.apply r ok) = some after) : Sound effect base after := by
  simp only [step,Option.bind_eq_some_iff] at tried
  obtain ⟨merge,there,tried⟩ := tried
  obtain ⟨failed,todo⟩ := merge
  split at tried
  case h_1 => cases tried
  case h_2 entry rest found =>
  cases found
  split at tried
  · cases tried
    obtain ⟨unmerged,distinct,whole⟩ := sound.flight r _ there
    refine ⟨sound.numbered,sound.alone.replace there,fun _ none => (flying none).elim,?_,sound.once,fun merged => absurd merged unmerged,sound.ran,sound.shut⟩
    intro other merge held
    obtain ⟨-,rfl⟩ := sound.alone.place there held
    refine ⟨unmerged,?_,fun opened => (whole opened).skip⟩
    rw [List.append_assoc failed]
    exact distinct
  · rename_i isOk
    obtain ⟨commute,ahead⟩ := permitted (by simpa using isOk) failed entry rest there
    split at tried
    · cases tried
      refine counted_sound sound there commute rfl rfl rfl rfl rfl ?_
      simp only [run_append_bind,sound.ran]
    · rename_i direct
      obtain ⟨schema,made,rfl⟩ := Option.map_eq_some_iff.1 tried
      refine counted_sound sound there commute rfl rfl rfl rfl rfl ?_
      have now : effects effect state.schema entry = some schema := made
      have overtaken : run (effects effect) state.schema (state.jobs ++ [entry]) = run (effects effect) state.schema (entry::(state.jobs ++ [])) :=
        run_move (ahead (by simpa using direct))
      rw [run_append_bind,sound.ran,← run_append_bind,overtaken,run_cons_bind,now]
      simp

omit [DecidableEq κ] in
theorem Alone.gone (alone : Alone (merges : ρ → Option (Merge κ))) (there : merges r = some merge) (other : ρ) :
    Function.update merges r none other = none := by
  by_cases same : other = r
  · rw [same,Function.update_self]
  · rw [Function.update_of_ne same]
    apply Classical.byContradiction
    intro held
    exact same (alone other r held (by rw [there]; exact Option.some_ne_none _))

theorem mergeUpdate_sound (sound : Sound effect base (state : State ρ κ σ)) (permitted : Permitted effect queued state (.mergeUpdate r))
    (wrote : step effect queued state (.mergeUpdate r) = some after) : Sound effect base after := by
  simp only [step,Option.bind_eq_some_iff] at wrote
  obtain ⟨merge,there,wrote⟩ := wrote
  obtain ⟨failed,todo⟩ := merge
  split at wrote
  case h_2 => cases wrote
  case h_1 found =>
  cases found
  cases wrote
  obtain ⟨unmerged,distinct,whole⟩ := sound.flight r _ there
  have gone := sound.alone.gone there
  have alone : Alone (Function.update state.merges r none) := fun one _ first _ => absurd (gone one) first
  have flight : ∀ other merge, ¬Function.update state.merges r none other = some merge := by
    intro other merge held
    cases (gone other).symm.trans held
  cases failed with
  | nil =>
    obtain ⟨unclosed,through⟩ := permitted there
    have opened : state.status = .opened := by
      cases is : state.status with
      | opened => rfl
      | merged => exact absurd is unmerged
      | closed => exact absurd is unclosed
    refine ⟨sound.numbered,alone,fun wrong => (by cases wrong),fun other merge held => absurd held (flight other merge),sound.once,fun _ => ⟨through,whole opened⟩,sound.ran,?_⟩
    intro closed
    exact absurd (sound.shut closed) unclosed
  | cons head failed =>
    refine ⟨sound.numbered,alone,?_,fun other merge held => absurd held (flight other merge),sound.once,fun merged => absurd merged unmerged,sound.ran,sound.shut⟩
    intro opened _
    have left := whole opened
    rw [List.append_nil] at left
    exact left

theorem close_sound (sound : Sound effect base (state : State ρ κ σ)) (closed : step effect queued state .close = some after) :
    Sound effect base after := by
  cases closed
  refine ⟨sound.numbered,sound.alone,fun wrong => (by cases wrong),?_,sound.once,fun wrong => (by cases wrong),sound.ran,fun _ => rfl⟩
  intro r merge there
  refine ⟨fun wrong => (by cases wrong),(sound.flight r merge there).2.1,fun wrong => (by cases wrong)⟩

theorem job_sound (sound : Sound effect base (state : State ρ κ σ)) (permitted : Permitted effect queued state (.job entry ok))
    (made : step effect queued state (.job entry ok) = some after) : Sound effect base after := by
  obtain ⟨rfl,overtakes⟩ := permitted
  simp only [step] at made
  split at made
  case isFalse => cases made
  case isTrue waits =>
  obtain ⟨schema,now,rfl⟩ := Option.map_eq_some_iff.1 made
  obtain ⟨ahead,behind,-,split,erased⟩ := List.exists_erase_eq waits
  have first : effects effect state.schema entry = some schema := now
  have left : run (effects effect) base state.applied = run (effects effect) schema (state.jobs.erase entry) := by
    rw [sound.ran,split,run_move (overtakes ahead behind split),run_cons_bind,first,← split,erased]
    rfl
  refine ⟨sound.numbered,sound.alone,sound.idle,sound.flight,sound.once,?_,left,sound.shut⟩
  intro merged
  have through := (sound.done merged).1
  rw [through] at waits
  cases waits

theorem step_sound (action : Action ρ κ) (sound : Sound effect base state) (permitted : Permitted effect queued state action)
    (done : step effect queued state action = some after) : Sound effect base after := by
  cases action with
  | postSelect r => exact postSelect_sound sound done
  | postUpdate r change => exact postUpdate_sound sound permitted done
  | mergeSelect r => exact mergeSelect_sound sound permitted done
  | apply r ok => exact apply_sound sound permitted done
  | mergeUpdate r => exact mergeUpdate_sound sound permitted done
  | close => exact close_sound sound done
  | job entry ok => exact job_sound sound permitted done

theorem changes_conserved {effect : σ → κ → Option σ} {queued : κ → Bool} {base : σ} {actions : List (Action ρ κ)} {state : State ρ κ σ}
    (path : run (step effect queued) (.start base) actions = some state)
    (guarded : Guarded (step effect queued) (Permitted effect queued) (.start base) actions) : Conserved effect base state := by
  have preserved : Preserved (step effect queued) (Permitted effect queued) (Sound effect base : State ρ κ σ → Prop) :=
    fun _ action _ sound permitted done => step_sound action sound permitted done
  exact (run_preserves preserved (start_sound base) guarded path).conserved

end

-- A schema as its columns; a change adds one or removes one.
def setColumn (schema : Nat → Bool) (change : Nat × Bool) : Option (Nat → Bool) := some (Function.update schema change.1 change.2)

theorem columns_commute (apart : (one : Entry (Nat × Bool)).change.1 ≠ (other : Entry (Nat × Bool)).change.1) : Commute (effects setColumn) one other := by
  intro schema
  exact congrArg some (Function.update_comm apart _ _ _)

def retried : List (Action Nat (Nat × Bool)) := [.postSelect 0,.postUpdate 0 (1,true),.postSelect 0,.postUpdate 0 (2,false),
  .mergeSelect 1,.apply 1 false,.apply 1 true,.mergeUpdate 1,.mergeSelect 2,.apply 2 true,.mergeUpdate 2]

theorem retried_guarded : Guarded (step setColumn fun _ => false) (Permitted setColumn fun _ => false) (.start fun _ => false) retried := by
  have unmerged : Status.opened ≠ Status.merged := by decide
  refine guarded_cons trivial rfl (guarded_cons ⟨unmerged,fun _ => ⟨rfl,fun _ => rfl⟩⟩ rfl ?_)
  refine guarded_cons trivial rfl (guarded_cons ⟨unmerged,fun _ => ⟨rfl,fun _ => rfl⟩⟩ rfl ?_)
  refine guarded_cons (fun _ => rfl) rfl (guarded_cons (fun wrong => by cases wrong) rfl ?_)
  refine guarded_cons ?_ rfl (guarded_cons (fun wrong => by cases wrong) rfl ?_)
  · intro _ failed entry rest there
    cases there
    refine ⟨?_,fun _ _ wrong => (by cases wrong)⟩
    intro other member
    cases List.mem_singleton.mp member
    exact columns_commute (by decide)
  refine guarded_cons ?_ rfl (guarded_cons ?_ rfl (guarded_cons ?_ rfl trivial))
  · intro other
    by_cases own : other = 1
    · subst own
      rfl
    · simp only [Function.update_of_ne own]
      rfl
  · intro _ failed entry rest there
    cases there
    exact ⟨fun _ wrong => (by cases wrong),fun _ _ wrong => (by cases wrong)⟩
  · intro _
    exact ⟨by decide,rfl⟩

theorem changes_conserved_retried : ∃ state, run (step setColumn fun _ => false) (.start fun _ => false) retried = some state ∧
    state.status = .merged ∧ state.applied = [⟨1,(2,false)⟩,⟨0,(1,true)⟩] ∧ Conserved setColumn (fun _ => false) state :=
  ⟨_,rfl,rfl,rfl,changes_conserved rfl retried_guarded⟩

-- Two posts read the empty list, and the second writes the first one's change away.
theorem lost_post : ∃ state : State Nat (Nat × Bool) (Nat → Bool), run (step setColumn fun _ => false) (.start fun _ => false)
    [.postSelect 0,.postSelect 1,.postUpdate 0 (1,true),.postUpdate 1 (2,true)] = some state ∧
    state.posted = [⟨0,(1,true)⟩,⟨1,(2,true)⟩] ∧ state.changes = [⟨1,(2,true)⟩] ∧ ¬Conserved setColumn (fun _ => false) state := by
  refine ⟨_,rfl,rfl,rfl,?_⟩
  intro conserved
  have idle : ∀ r : Nat, Function.update (Function.update (Function.update (Function.update (fun _ : Nat => none) 0 (some [])) 1 (some [])) 0 none) 1 none r =
      (none : Option (List (Entry (Nat × Bool)))) := by
    intro r
    simp only [Function.update_apply]
    grind
  have wrong := (conserved.kept rfl idle fun _ => rfl).length_eq
  cases wrong

end Zveltio.SchemaBranches
