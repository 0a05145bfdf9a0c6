import Zveltio.Runs
namespace Zveltio.FlowBranches
open Runs

inductive Kind (ι : Type) where
  | condition (trueBranch falseBranch : List ι)
  | other

-- continues: on_error is 'continue'.
structure Step (ι : Type) where
  id : ι
  kind : Kind ι
  continues : Bool

def Step.branches (step : Step ι) : List ι :=
  match step.kind with
  | .condition trueBranch falseBranch => trueBranch ++ falseBranch
  | .other => []

structure Result (ι : Type) where
  skip : List ι
  stop : Bool
  branches : List ι

-- Each step names only steps after it.
def forward {ι : Type} [DecidableEq ι] (seen : List ι) : List (Step ι) → Bool
  | [] => true
  | step::later => (step.branches.all fun id => id ∉ seen && id ≠ step.id && id ∈ later.map Step.id) && forward (seen ++ [step.id]) later

-- A flow's steps by step_order, each condition before the steps it names.
structure Flow (ι : Type) [DecidableEq ι] where
  steps : List (Step ι)
  ordered : forward [] steps = true

-- What a step was answered: none where it threw, or where a condition's expression did not evaluate to a boolean.
structure Entry (ι : Type) where
  step : Step ι
  answer : Option Bool

-- The loop over the steps: taken has those whose turn has been, executed those of them that ran.
structure State (ι : Type) where
  taken : List (Step ι)
  rest : List (Step ι)
  skipped : List ι
  executed : List (Entry ι)
  ended : Bool

section
variable {ι : Type} [DecidableEq ι]

def State.start (flow : Flow ι) : State ι := ⟨[],flow.steps,[],[],false⟩

def executeStep (step : Step ι) (answer : Option Bool) : Option (Result ι) := answer.map fun passed =>
  match step.kind with
  | .condition trueBranch falseBranch =>
    ⟨if passed then falseBranch else trueBranch,!passed && trueBranch.isEmpty && falseBranch.isEmpty,trueBranch ++ falseBranch⟩
  | .other => ⟨[],false,[]⟩

def Kind.isCondition : Kind ι → Bool
  | .condition _ _ => true
  | .other => false

-- A condition that cannot decide, or that names a step that is not after it, ends the run whatever on_error says.
def step (state : State ι) (answer : Option Bool) : Option (State ι) :=
  if state.ended then none
  else match state.rest with
  | [] => none
  | step::later =>
    if step.id ∈ state.skipped then some {state with taken := state.taken ++ [step],rest := later}
    else
      let executed := state.executed ++ [⟨step,answer⟩]
      match executeStep step answer with
      | none => some {state with taken := state.taken ++ [step],rest := later,executed,ended := !(step.continues && !step.kind.isCondition)}
      | some result =>
        if result.branches.any fun id => id ∉ later.map Step.id then some {state with taken := state.taken ++ [step],rest := later,executed,ended := true}
        else some ⟨state.taken ++ [step],later,state.skipped ++ result.skip,executed,result.stop⟩

def Entry.chose (entry : Entry ι) (id : ι) : Prop :=
  match entry.step.kind,entry.answer with
  | .condition trueBranch falseBranch,some passed => id ∈ if passed then trueBranch else falseBranch
  | _,_ => False

def Exclusive (flow : Flow ι) (state : State ι) : Prop := ∀ entry ∈ state.executed,(∃ condition ∈ flow.steps,entry.step.id ∈ condition.branches) →
  ∃ chooser ∈ state.executed,chooser.chose entry.step.id

-- A condition is skipped only where each step it names is skipped already, or is named by a condition that ran or has its turn still to come.
def Permitted (state : State ι) (_ : Option Bool) : Prop := ∀ step later, state.rest = step::later → step.id ∈ state.skipped → ∀ id ∈ step.branches,
  id ∈ state.skipped ∨ (∃ entry ∈ state.executed,id ∈ entry.step.branches) ∨ ∃ condition ∈ later,id ∈ condition.branches

theorem step_cases {state after : State ι} {answer : Option Bool} (moved : step state answer = some after) : state.ended = false ∧
    ∃ now later, state.rest = now::later ∧ after.taken = state.taken ++ [now] ∧ after.rest = later ∧
      ((now.id ∈ state.skipped ∧ after.skipped = state.skipped ∧ after.executed = state.executed) ∨
        now.id ∉ state.skipped ∧ after.executed = state.executed ++ [⟨now,answer⟩] ∧
          (after.ended = true ∧ after.skipped = state.skipped ∨ (now.branches = [] ∨ ∃ passed, answer = some passed) ∧
            after.skipped = state.skipped ++ ((executeStep now answer).elim [] Result.skip))) := by
  unfold step at moved
  split at moved
  · cases moved
  · next going =>
    refine ⟨by simpa using going,?_⟩
    split at moved
    · cases moved
    · next now later shape =>
      refine ⟨now,later,shape,?_⟩
      split at moved
      · next skipped =>
        cases Option.some.inj moved
        exact ⟨rfl,rfl,.inl ⟨skipped,rfl,rfl⟩⟩
      · next fresh =>
        simp only at moved
        split at moved
        · next thrown =>
          cases Option.some.inj moved
          refine ⟨rfl,rfl,.inr ⟨fresh,rfl,?_⟩⟩
          cases kind : now.kind with
          | condition trueBranch falseBranch =>
            refine .inl ⟨?_,rfl⟩
            simp [Kind.isCondition]
          | other =>
            refine .inr ⟨.inl ?_,?_⟩
            · simp only [Step.branches,kind]
            · simp only [thrown,Option.elim_none,List.append_nil]
        · next result answered =>
          split at moved
          · cases Option.some.inj moved
            exact ⟨rfl,rfl,.inr ⟨fresh,rfl,.inl ⟨rfl,rfl⟩⟩⟩
          · cases Option.some.inj moved
            refine ⟨rfl,rfl,.inr ⟨fresh,rfl,.inr ⟨.inr ?_,?_⟩⟩⟩
            · obtain ⟨passed,same,_⟩ := Option.map_eq_some_iff.mp answered
              exact ⟨passed,same⟩
            · simp only [answered,Option.elim_some]

omit [DecidableEq ι] in
-- A step that a decided condition names is chosen or skipped.
theorem decided_skips {now : Step ι} {passed : Bool} {id : ι} (named : id ∈ now.branches) :
    Entry.chose ⟨now,some passed⟩ id ∨ id ∈ (executeStep now (some passed)).elim [] Result.skip := by
  unfold Step.branches at named
  unfold Entry.chose executeStep
  cases kind : now.kind with
  | other =>
    rw [kind] at named
    cases named
  | condition trueBranch falseBranch =>
    rw [kind] at named
    simp only [Option.map_some,Option.elim_some]
    cases passed with
    | true => exact List.mem_append.mp named
    | false => exact (List.mem_append.mp named).symm

structure Sound (flow : Flow ι) (state : State ι) : Prop where
  whole : state.taken ++ state.rest = flow.steps
  exclusive : Exclusive flow state
  decided : state.ended = false → ∀ entry ∈ state.executed, ∀ id ∈ entry.step.branches, (∃ chooser ∈ state.executed,chooser.chose id) ∨ id ∈ state.skipped
  handed : state.ended = false → ∀ condition ∈ state.taken, ∀ id ∈ condition.branches,
    id ∈ state.skipped ∨ (∃ chooser ∈ state.executed,chooser.chose id) ∨ ∃ later ∈ state.rest,id ∈ later.branches

theorem forward_split {seen : List ι} {before after steps : List (Step ι)} {step : Step ι} (ordered : forward seen steps = true)
    (split : steps = before ++ step::after) : ∀ id ∈ step.branches,id ∉ seen ++ before.map Step.id ∧ id ≠ step.id ∧ id ∈ after.map Step.id := by
  subst split
  induction before generalizing seen with
  | nil =>
    intro id named
    have clear := List.all_eq_true.mp (Bool.and_eq_true_iff.mp ordered).1 id named
    simp only [Bool.and_eq_true,decide_eq_true_eq] at clear
    rw [List.map_nil,List.append_nil]
    exact ⟨clear.1.1,clear.1.2,clear.2⟩
  | cons first rest ih =>
    have later := ih (Bool.and_eq_true_iff.mp ordered).2
    intro id named
    rw [List.map_cons,List.append_cons]
    exact later id named

theorem Flow.forward (flow : Flow ι) {before after : List (Step ι)} {step : Step ι} (split : flow.steps = before ++ step::after) :
    ∀ id ∈ step.branches,id ∉ before.map Step.id ∧ id ≠ step.id ∧ id ∈ after.map Step.id := forward_split flow.ordered split

theorem forward_rest {flow : Flow ι} {taken later : List (Step ι)} {now condition : Step ι} (whole : taken ++ now::later = flow.steps)
    (member : condition ∈ now::later) : now.id ∉ condition.branches := by
  intro named
  rcases List.mem_cons.mp member with same | further
  · subst same
    exact (flow.forward whole.symm _ named).2.1 rfl
  · obtain ⟨before,after,split⟩ := List.append_of_mem further
    have shape : flow.steps = (taken ++ now::before) ++ condition::after := by
      rw [← whole,split,List.append_assoc]
      rfl
    refine (flow.forward shape _ named).1 ?_
    rw [List.map_append,List.map_cons]
    exact List.mem_append_right _ (List.mem_cons_self ..)

theorem step_sound (flow : Flow ι) : Preserved step Permitted (Sound (ι := ι) flow) := by
  intro state answer after sound permitted moved
  obtain ⟨going,now,later,shape,taken,rest,turn⟩ := step_cases moved
  have whole := sound.whole
  rw [shape] at whole
  have passed : after.taken ++ after.rest = flow.steps := by
    rw [taken,rest,List.append_assoc]
    exact whole
  rcases turn with ⟨member,skipped,executed⟩ | ⟨fresh,executed,result⟩
  · refine ⟨passed,?_,fun _ => ?_,fun _ condition there id named => ?_⟩
    · unfold Exclusive
      rw [executed]
      exact sound.exclusive
    · rw [executed,skipped]
      exact sound.decided going
    · rw [executed,skipped,rest]
      rw [taken] at there
      rcases List.mem_append.mp there with before | this
      · rcases sound.handed going condition before id named with gone | chosen | ⟨other,place,names⟩
        · exact .inl gone
        · exact .inr (.inl chosen)
        · rw [shape] at place
          rcases List.mem_cons.mp place with same | further
          · subst same
            rcases permitted other later shape member id names with gone | ⟨entry,ran,naming⟩ | still
            · exact .inl gone
            · exact (sound.decided going entry ran id naming).elim (fun chosen => .inr (.inl chosen)) .inl
            · exact .inr (.inr still)
          · exact .inr (.inr ⟨other,further,names⟩)
      · cases List.mem_singleton.mp this
        rcases permitted now later shape member id named with gone | ⟨entry,ran,naming⟩ | still
        · exact .inl gone
        · exact (sound.decided going entry ran id naming).elim (fun chosen => .inr (.inl chosen)) .inl
        · exact .inr (.inr still)
  · have kept {id : ι} (chosen : ∃ chooser ∈ state.executed,chooser.chose id) : ∃ chooser ∈ after.executed,chooser.chose id := by
      obtain ⟨chooser,ran,chose⟩ := chosen
      exact ⟨chooser,by rw [executed]; exact List.mem_append_left _ ran,chose⟩
    -- What the step that runs now names is chosen or skipped, unless the run ends.
    have mine (going : after.ended = false) (id : ι) (named : id ∈ now.branches) : (∃ chooser ∈ after.executed,chooser.chose id) ∨ id ∈ after.skipped := by
      rcases result with ⟨wrong,_⟩ | ⟨none_named | ⟨passed,same⟩,skips⟩
      · rw [going] at wrong
        cases wrong
      · rw [none_named] at named
        cases named
      · subst same
        rw [skips,executed]
        rcases decided_skips named with chosen | skipped
        · exact .inl ⟨_,List.mem_append_right _ (List.mem_singleton_self _),chosen⟩
        · exact .inr (List.mem_append_right _ skipped)
    have grown (going : after.ended = false) (id : ι) (skipped : id ∈ state.skipped) : id ∈ after.skipped := by
      rcases result with ⟨wrong,_⟩ | ⟨_,skips⟩
      · rw [going] at wrong
        cases wrong
      · rw [skips]
        exact List.mem_append_left _ skipped
    refine ⟨passed,fun entry ran named => ?_,fun goes entry ran id named => ?_,fun goes condition there id named => ?_⟩
    · rw [executed] at ran
      rcases List.mem_append.mp ran with before | this
      · exact kept (sound.exclusive entry before named)
      · cases List.mem_singleton.mp this
        obtain ⟨condition,there,names⟩ := named
        rw [← whole] at there
        rcases List.mem_append.mp there with before | ahead
        · rcases sound.handed going condition before _ names with gone | chosen | ⟨other,place,naming⟩
          · exact absurd gone fresh
          · exact kept chosen
          · exact absurd naming (forward_rest whole (shape ▸ place))
        · exact absurd names (forward_rest whole ahead)
    · rw [executed] at ran
      rcases List.mem_append.mp ran with before | this
      · exact (sound.decided going entry before id named).imp kept (grown goes id)
      · cases List.mem_singleton.mp this
        exact mine goes id named
    · rw [rest]
      rw [taken] at there
      have settled (naming : id ∈ now.branches) : id ∈ after.skipped ∨ (∃ chooser ∈ after.executed,chooser.chose id) ∨ ∃ other ∈ later,id ∈ other.branches :=
        (mine goes id naming).elim (fun chosen => .inr (.inl chosen)) .inl
      rcases List.mem_append.mp there with before | this
      · rcases sound.handed going condition before id named with gone | chosen | ⟨other,place,names⟩
        · exact .inl (grown goes id gone)
        · exact .inr (.inl (kept chosen))
        · rw [shape] at place
          rcases List.mem_cons.mp place with same | further
          · subst same
            exact settled names
          · exact .inr (.inr ⟨other,further,names⟩)
      · cases List.mem_singleton.mp this
        exact settled named

-- A step that no condition gates any more: it runs when its turn comes.
structure Astray (id : ι) (state : State ι) : Prop where
  unskipped : id ∉ state.skipped
  ungated : ∀ entry ∈ state.executed,id ∉ entry.step.branches
  unnamed : ∀ condition ∈ state.rest,id ∉ condition.branches
  runs : (∃ step ∈ state.rest,step.id = id) ∨ ∃ entry ∈ state.executed,entry.step.id = id

omit [DecidableEq ι] in
theorem skip_named {now : Step ι} {answer : Option Bool} {id : ι} (skips : id ∈ (executeStep now answer).elim [] Result.skip) : id ∈ now.branches := by
  cases answer with
  | none => cases skips
  | some passed =>
    unfold executeStep at skips
    unfold Step.branches
    cases kind : now.kind with
    | other =>
      rw [kind] at skips
      cases skips
    | condition trueBranch falseBranch =>
      rw [kind] at skips
      simp only [Option.map_some,Option.elim_some] at skips
      cases passed with
      | true => exact List.mem_append_right _ skips
      | false => exact List.mem_append_left _ skips

theorem step_astray {state after : State ι} {answer : Option Bool} {id : ι} (astray : Astray id state) (moved : step state answer = some after) :
    Astray id after := by
  obtain ⟨_,now,later,shape,_,rest,turn⟩ := step_cases moved
  have unnamed (condition : Step ι) (there : condition ∈ now::later) : id ∉ condition.branches := astray.unnamed condition (shape ▸ there)
  have runs := astray.runs
  rw [shape] at runs
  rcases turn with ⟨member,skipped,executed⟩ | ⟨fresh,executed,result⟩
  · refine ⟨skipped ▸ astray.unskipped,executed ▸ astray.ungated,fun condition there => ?_,?_⟩
    · exact unnamed condition (List.mem_cons_of_mem _ (rest ▸ there))
    · rw [rest,executed]
      rcases runs with ⟨step,there,same⟩ | ran
      · rcases List.mem_cons.mp there with this | further
        · subst this
          rw [same] at member
          exact absurd member astray.unskipped
        · exact .inl ⟨step,further,same⟩
      · exact .inr ran
  · refine ⟨?_,fun entry ran => ?_,fun condition there => ?_,?_⟩
    · rcases result with ⟨_,same⟩ | ⟨_,skips⟩
      · exact same ▸ astray.unskipped
      · rw [skips]
        intro wrong
        rcases List.mem_append.mp wrong with before | this
        · exact astray.unskipped before
        · exact unnamed now (List.mem_cons_self ..) (skip_named this)
    · rw [executed] at ran
      rcases List.mem_append.mp ran with before | this
      · exact astray.ungated entry before
      · cases List.mem_singleton.mp this
        exact unnamed now (List.mem_cons_self ..)
    · exact unnamed condition (List.mem_cons_of_mem _ (rest ▸ there))
    · rw [rest,executed]
      rcases runs with ⟨step,there,same⟩ | ⟨entry,ran,same⟩
      · rcases List.mem_cons.mp there with this | further
        · subst this
          exact .inr ⟨_,List.mem_append_right _ (List.mem_singleton_self _),same⟩
        · exact .inl ⟨step,further,same⟩
      · exact .inr ⟨entry,List.mem_append_left _ ran,same⟩

theorem run_astray {state after : State ι} {answers : List (Option Bool)} {id : ι} (astray : Astray id state) (path : run step state answers = some after) :
    Astray id after := by
  induction answers generalizing state with
  | nil =>
    cases path
    exact astray
  | cons answer rest ih =>
    obtain ⟨next,one,later⟩ := run_cons.mp path
    exact ih (step_astray astray one) later

theorem exclusive_guarded {flow : Flow ι} {state after : State ι} {answers : List (Option Bool)} (whole : state.taken ++ state.rest = flow.steps)
    (path : run step state answers = some after) (done : after.rest = []) (exclusive : Exclusive flow after) : Guarded step Permitted state answers := by
  induction answers generalizing state with
  | nil => trivial
  | cons answer rest ih =>
    obtain ⟨next,one,later⟩ := run_cons.mp path
    obtain ⟨_,now,behind,shape,taken,left,turn⟩ := step_cases one
    refine guarded_cons ?_ one (ih ?_ later)
    · intro step ahead same member id named
      cases same.symm.trans shape
      by_contra missed
      obtain ⟨unskipped,missed⟩ := not_or.mp missed
      obtain ⟨ungated,unnamed⟩ := not_or.mp missed
      have beyond := (flow.forward (shape ▸ whole.symm) id named).2.2
      obtain ⟨skipped,executed⟩ := (turn.resolve_right fun fresh => fresh.1 member).2
      have astray : Astray id next := by
        refine ⟨skipped ▸ unskipped,fun entry ran names => ungated ⟨entry,executed ▸ ran,names⟩,
          fun condition there names => unnamed ⟨condition,left ▸ there,names⟩,.inl ?_⟩
        rw [left]
        exact List.mem_map.mp beyond
      have final := run_astray astray later
      obtain ⟨entry,ran,same⟩ := final.runs.resolve_left fun ⟨step,there,_⟩ => absurd (done ▸ there) List.not_mem_nil
      have gated : ∃ condition ∈ flow.steps,entry.step.id ∈ condition.branches := by
        refine ⟨now,?_,same ▸ named⟩
        rw [← whole,shape]
        exact List.mem_append_right _ (List.mem_cons_self ..)
      obtain ⟨chooser,chose,names⟩ := exclusive entry ran gated
      refine final.ungated chooser chose ?_
      rw [← same]
      unfold Entry.chose at names
      unfold Step.branches
      split at names
      · next trueBranch falseBranch passed kind answered =>
        rw [kind]
        cases passed with
        | true => exact List.mem_append_left _ names
        | false => exact List.mem_append_right _ names
      · cases names
    · rw [taken,left,List.append_assoc]
      rw [shape] at whole
      exact whole

theorem branches_exclusive {flow : Flow ι} {answers : List (Option Bool)} {state : State ι} (path : run step (State.start flow) answers = some state) :
    (Guarded step Permitted (State.start flow) answers → Exclusive flow state) ∧
      (state.rest = [] → Exclusive flow state → Guarded step Permitted (State.start flow) answers) := by
  refine ⟨fun guarded => ?_,fun done exclusive => exclusive_guarded rfl path done exclusive⟩
  have start : Sound flow (State.start flow) := ⟨rfl,fun _ wrong => absurd wrong List.not_mem_nil,fun _ _ wrong => absurd wrong List.not_mem_nil,
    fun _ _ wrong => absurd wrong List.not_mem_nil⟩
  exact (run_preserves (step_sound flow) start guarded path).exclusive

end

-- A condition in each branch of another, and a step behind both.
def nested (inner : List Nat) : List (Step Nat) :=
  [⟨0,.condition (1::inner) [5],false⟩,⟨1,.condition [2] [3],false⟩,⟨2,.other,false⟩,⟨3,.other,false⟩,⟨5,.other,false⟩,⟨6,.other,false⟩]

def whole : Flow Nat := ⟨nested [2,3],rfl⟩

theorem branches_exclusive_whole : ∃ state, run step (State.start whole) [some false,none,none,none,some true,some true] = some state ∧
    (Guarded step Permitted (State.start whole) [some false,none,none,none,some true,some true] → Exclusive whole state) ∧
    (state.rest = [] → Exclusive whole state → Guarded step Permitted (State.start whole) [some false,none,none,none,some true,some true]) ∧
    state.executed.map (fun entry => entry.step.id) = [0,5,6] := by
  obtain ⟨guarded,exclusive⟩ := branches_exclusive (show run step (State.start whole) [some false,none,none,none,some true,some true] = some _ from rfl)
  exact ⟨_,rfl,guarded,exclusive,rfl⟩

def flat : Flow Nat := ⟨nested [],rfl⟩

-- The outer condition fails, the inner one is skipped, and both of its branches run.
theorem both_branches : ∃ state, run step (State.start flat) [some false,none,some true,some true,some true,some true] = some state ∧
    state.executed.map (fun entry => entry.step.id) = [0,2,3,5,6] ∧ ¬Exclusive flat state := by
  refine ⟨_,rfl,rfl,fun exclusive => ?_⟩
  obtain ⟨chooser,ran,chose⟩ := exclusive ⟨⟨2,.other,false⟩,some true⟩ (by simp) ⟨⟨1,.condition [2] [3],false⟩,by simp [flat,nested],by simp [Step.branches]⟩
  have none_chose : ∀ entry ∈ [⟨⟨0,.condition [1] [5],false⟩,some false⟩,⟨⟨2,.other,false⟩,some true⟩,⟨⟨3,.other,false⟩,some true⟩,
      ⟨⟨5,.other,false⟩,some true⟩,(⟨⟨6,.other,false⟩,some true⟩ : Entry Nat)], ¬entry.chose 2 := by
    simp [Entry.chose]
  exact none_chose chooser ran chose

end Zveltio.FlowBranches
