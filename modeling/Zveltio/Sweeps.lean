import Zveltio.Runs
namespace Zveltio.Sweeps
open Runs

inductive SweepScope where
  | all
  | principals
  deriving DecidableEq

-- A call of revalidateSockets, by its place among them.
structure Request where
  number : Nat
  scope : SweepScope
  deriving DecidableEq

-- _sweep: a pass of its loop, with how many calls came before it began; or, the loop left, its finally still to run.
inductive Sweep where
  | none
  | pass (scope : SweepScope) (before : Nat)
  | leaving
  deriving DecidableEq

-- again and retry are _sweepAgain and whether _sweepRetry is set. owed has the calls that no pass without a failed lookup has followed yet;
-- fullFailed: of the full passes of this sweep, the last had a failed lookup.
structure State where
  sweep : Sweep
  again : Option SweepScope
  retry : Bool
  count : Nat
  owed : List Request
  fullFailed : Bool
  deriving DecidableEq

def State.start : State := ⟨.none,none,false,0,[],false⟩

def revalidateSockets (state : State) (scope : SweepScope) : State :=
  let asked : State := {state with count := state.count + 1,owed := state.owed ++ [⟨state.count,scope⟩]}
  match state.sweep with
  | .none => {asked with sweep := .pass scope asked.count,again := none,fullFailed := false}
  | _ => {asked with again := if state.again = some SweepScope.all then some SweepScope.all else some scope}

-- What a pass answers for: the subscriptions only where it is full, the principals in any case.
def serves (scope : SweepScope) (before : Nat) (who what : Bool) (request : Request) : Bool :=
  request.number < before && !who && (request.scope = SweepScope.principals || (scope = SweepScope.all && !what))

inductive Action where
  | request (scope : SweepScope)
  | finish (who what : Bool)
  | clear
  | timer

-- who and what: a door's lookup failed in the principals' pass, in the subscriptions'. The next pass begins as this one ends, or the loop is left.
-- From there to the finally only promise callbacks run, and the retry is none of them.
def step (state : State) : Action → Option State
  | .request scope => some (revalidateSockets state scope)
  | .finish who what => match state.sweep with
    | .pass scope before =>
      let failed := who || (scope = SweepScope.all && what)
      let served := {state with
        owed := state.owed.filter fun request => !serves scope before who what request
        fullFailed := if scope = SweepScope.all then failed else state.fullFailed}
      match state.again with
      | some next => some {served with sweep := .pass next state.count,again := none}
      | none => some {served with sweep := .leaving,retry := state.retry || failed}
    | _ => none
  | .clear => if state.sweep = .leaving then some {state with sweep := .none} else none
  | .timer => if state.retry && state.sweep ≠ .leaving then some (revalidateSockets {state with retry := false} .all) else none

-- No call comes once the loop is left, unless a retry is scheduled; and a pass of the principals alone
-- that found no failed lookup is not the last one after a full pass that did, unless a retry is scheduled.
def Permitted (state : State) : Action → Prop
  | .request _ => state.sweep = .leaving → state.retry = true
  | .finish who _ => ∀ before, state.sweep = .pass .principals before → state.again = none → who = false → state.retry = false → state.fullFailed = false
  | _ => True

def Settled (state : State) : Prop := state.sweep = .none → state.retry = false → state.owed = []

-- What is still to answer an owed request while a pass runs.
def Awaited (state : State) (scope : SweepScope) (before : Nat) (request : Request) : Prop :=
  state.retry = true ∨ (request.scope = .principals ∧ (request.number < before ∨ state.again ≠ none)) ∨
    (request.scope = .all ∧ ((request.number < before ∧ scope = .all) ∨ state.again = some .all ∨ (scope = .principals ∧ state.fullFailed = true)))

def Covered (state : State) : Prop := (∀ request ∈ state.owed, request.number < state.count) ∧
  match state.sweep with
  | .pass scope before => before ≤ state.count ∧ ∀ request ∈ state.owed, Awaited state scope before request
  | _ => state.owed ≠ [] → state.retry = true

theorem pass_reached {state after : State} {who what : Bool} (moved : step state (.finish who what) = some after) :
    ∃ scope before, state.sweep = .pass scope before := by
  cases sweep : state.sweep with
  | pass scope before => exact ⟨scope,before,rfl⟩
  | _ => simp [step,sweep] at moved

theorem unserved {scope : SweepScope} {before : Nat} {who what : Bool} {request : Request}
    (left : serves scope before who what request = false) (begun : request.number < before) (known : who = false) :
    request.scope = .all ∧ (scope = .all → what = true) := by
  simp only [serves,begun,known] at left
  cases kind : request.scope <;> cases scope <;> simp_all

theorem full_awaited {state : State} {before : Nat} {request : Request} (begun : request.number < before) : Awaited state .all before request := by
  refine .inr ?_
  cases kind : request.scope with
  | principals => exact .inl ⟨rfl,.inl begun⟩
  | all => exact .inr ⟨rfl,.inl ⟨begun,rfl⟩⟩

theorem again_awaited {state : State} {scope : SweepScope} {before : Nat} {request : Request} (again : state.again = some .all) :
    Awaited state scope before request := by
  refine .inr ?_
  cases kind : request.scope with
  | principals => exact .inl ⟨rfl,.inr (by simp [again])⟩
  | all => exact .inr ⟨rfl,.inr (.inl again)⟩

theorem asked_counted {state : State} (scope : SweepScope) (counted : ∀ request ∈ state.owed, request.number < state.count) :
    ∀ request ∈ (revalidateSockets state scope).owed, request.number < (revalidateSockets state scope).count := by
  have owed : (revalidateSockets state scope).owed = state.owed ++ [⟨state.count,scope⟩] := by
    cases sweep : state.sweep <;> simp [revalidateSockets,sweep]
  have count : (revalidateSockets state scope).count = state.count + 1 := by
    cases sweep : state.sweep <;> simp [revalidateSockets,sweep]
  rw [owed,count]
  intro request member
  rcases List.mem_append.mp member with old | new
  · exact Nat.lt_succ_of_lt (counted request old)
  · cases List.mem_singleton.mp new
    exact Nat.lt_succ_self _

theorem asked_sound {state : State} {scope : SweepScope} (sound : Covered state) (resting : state.sweep = .leaving → state.retry = true) :
    Covered (revalidateSockets state scope) := by
  refine ⟨asked_counted scope sound.1,?_⟩
  have covered := sound.2
  cases sweep : state.sweep with
  | none =>
    simp only [sweep] at covered
    simp only [revalidateSockets,sweep]
    refine ⟨Nat.le_refl _,?_⟩
    intro request member
    rcases List.mem_append.mp member with old | new
    · exact .inl (covered (List.ne_nil_of_mem old))
    · cases List.mem_singleton.mp new
      refine .inr ?_
      cases scope with
      | all => exact .inr ⟨rfl,.inl ⟨Nat.lt_succ_self _,rfl⟩⟩
      | principals => exact .inl ⟨rfl,.inl (Nat.lt_succ_self _)⟩
  | pass now before =>
    simp only [sweep] at covered
    simp only [revalidateSockets,sweep]
    refine ⟨Nat.le_succ_of_le covered.1,?_⟩
    intro request member
    rcases List.mem_append.mp member with old | new
    · have earlier := covered.2 request old
      unfold Awaited at earlier ⊢
      grind
    · cases List.mem_singleton.mp new
      unfold Awaited
      cases scope <;> grind
  | leaving =>
    simp only [revalidateSockets,sweep]
    exact fun _ => resting sweep

-- The retry asks for a full sweep, which covers whatever was owed.
theorem retried_sound {state : State} (sound : Covered state) (running : state.sweep ≠ .leaving) :
    Covered (revalidateSockets {state with retry := false} .all) := by
  refine ⟨asked_counted _ sound.1,?_⟩
  have covered := sound.2
  cases sweep : state.sweep with
  | none =>
    simp only [revalidateSockets]
    refine ⟨Nat.le_refl _,?_⟩
    intro request member
    rcases List.mem_append.mp member with old | new
    · exact full_awaited (Nat.lt_succ_of_lt (sound.1 request old))
    · cases List.mem_singleton.mp new
      exact full_awaited (Nat.lt_succ_self _)
  | pass now before =>
    simp only [sweep] at covered
    simp only [revalidateSockets]
    refine ⟨Nat.le_succ_of_le covered.1,?_⟩
    intro request member
    exact again_awaited (by simp)
  | leaving => exact absurd sweep running

theorem finish_sound {state after : State} {who what : Bool} (sound : Covered state) (allowed : Permitted state (.finish who what))
    (moved : step state (.finish who what) = some after) : Covered after := by
  obtain ⟨scope,before,sweep⟩ := pass_reached moved
  have covered := sound.2
  simp only [sweep] at covered
  have kept : ∀ {request : Request}, request ∈ state.owed.filter (fun request => !serves scope before who what request) →
      request ∈ state.owed ∧ serves scope before who what request = false := by
    intro request member
    obtain ⟨there,left⟩ := List.mem_filter.mp member
    exact ⟨there,by simpa using left⟩
  simp only [step,sweep] at moved
  cases again : state.again with
  | some next =>
    simp only [again] at moved
    cases Option.some.inj moved
    refine ⟨fun request member => sound.1 request (kept member).1,Nat.le_refl _,?_⟩
    intro request member
    obtain ⟨there,left⟩ := kept member
    have earlier := covered.2 request there
    have number := sound.1 request there
    have late := unserved left
    unfold Awaited at earlier ⊢
    cases kind : request.scope <;> cases scope <;> cases next <;> simp_all <;> grind
  | none =>
    simp only [again] at moved
    cases Option.some.inj moved
    refine ⟨fun request member => sound.1 request (kept member).1,?_⟩
    intro some_left
    obtain ⟨request,member⟩ := List.exists_mem_of_ne_nil _ some_left
    obtain ⟨there,left⟩ := kept member
    have earlier := covered.2 request there
    have clean := allowed before
    have late := unserved left
    unfold Awaited at earlier
    cases kind : request.scope <;> cases scope <;> simp_all <;> grind

theorem covered_preserved : Preserved step Permitted Covered := by
  intro before action after sound allowed moved
  cases action with
  | request scope =>
    cases Option.some.inj moved
    exact asked_sound sound allowed
  | finish who what => exact finish_sound sound allowed moved
  | clear =>
    have covered := sound.2
    simp only [step] at moved
    split at moved
    · next leaving =>
      simp only [leaving] at covered
      cases Option.some.inj moved
      exact ⟨sound.1,covered⟩
    · cases moved
  | timer =>
    simp only [step] at moved
    split at moved
    · next set =>
      cases Option.some.inj moved
      exact retried_sound sound (by simpa using (Bool.and_eq_true_iff.mp set).2)
    · cases moved

theorem covered_settled {state : State} (sound : Covered state) : Settled state := by
  intro sweep retry
  have covered := sound.2
  simp only [sweep] at covered
  by_contra some_owed
  exact absurd (covered some_owed) (by simp [retry])

-- Whoever is owed a full sweep is still in the list: for the one that runs, for the one that failed, and for the one that comes next.
def Asked (state : State) : Prop := ∀ scope before, state.sweep = .pass scope before → before ≤ state.count ∧
  (state.again = some .all → ∃ request ∈ state.owed, request.scope = .all ∧ before ≤ request.number) ∧
  (scope = .all ∨ state.fullFailed = true → ∃ request ∈ state.owed, request.scope = .all)

theorem asked_asked {state : State} (scope : SweepScope) (asked : Asked state) : Asked (revalidateSockets state scope) := by
  intro now before sweep
  cases old : state.sweep with
  | none =>
    simp only [revalidateSockets,old] at sweep ⊢
    cases sweep
    refine ⟨Nat.le_refl _,by simp,?_⟩
    rintro (full | failed)
    · exact ⟨_,List.mem_append_right _ (List.mem_singleton_self _),full⟩
    · cases failed
  | pass current begun =>
    simp only [revalidateSockets,old] at sweep ⊢
    cases sweep
    obtain ⟨counted,next,earlier⟩ := asked now before old
    refine ⟨Nat.le_succ_of_le counted,?_,?_⟩
    · intro again
      by_cases already : state.again = some .all
      · obtain ⟨request,there,kind,late⟩ := next already
        exact ⟨request,List.mem_append_left _ there,kind,late⟩
      · rw [if_neg already] at again
        exact ⟨_,List.mem_append_right _ (List.mem_singleton_self _),Option.some.inj again,counted⟩
    · intro full
      obtain ⟨request,there,kind⟩ := earlier full
      exact ⟨request,List.mem_append_left _ there,kind⟩
  | leaving => simp [revalidateSockets,old] at sweep

theorem all_left {state : State} {scope : SweepScope} {before : Nat} {who what : Bool} {request : Request} (there : request ∈ state.owed)
    (kind : request.scope = .all) (left : before ≤ request.number ∨ scope = .principals ∨ who = true ∨ what = true) :
    request ∈ state.owed.filter fun request => !serves scope before who what request := by
  refine List.mem_filter.mpr ⟨there,?_⟩
  simp only [serves,kind]
  rcases left with late | narrow | failed | failed
  · simp [Nat.not_lt.mpr late]
  · simp [narrow]
  · simp [failed]
  · simp [failed]

theorem finish_asked {state after : State} {who what : Bool} (asked : Asked state) (moved : step state (.finish who what) = some after) :
    Asked after := by
  obtain ⟨scope,before,sweep⟩ := pass_reached moved
  obtain ⟨counted,next,earlier⟩ := asked scope before sweep
  simp only [step,sweep] at moved
  cases again : state.again with
  | none =>
    simp only [again] at moved
    cases Option.some.inj moved
    intro now begun wrong
    cases wrong
  | some following =>
    simp only [again] at moved
    cases Option.some.inj moved
    intro now begun same
    cases same
    refine ⟨Nat.le_refl _,by simp,?_⟩
    rintro (full | failed)
    · obtain ⟨request,there,kind,late⟩ := next (again.trans (congrArg some full))
      exact ⟨request,all_left there kind (.inl late),kind⟩
    · cases scope with
      | all =>
        obtain ⟨request,there,kind⟩ := earlier (.inl rfl)
        exact ⟨request,all_left there kind (.inr (.inr (by simpa using failed))),kind⟩
      | principals =>
        obtain ⟨request,there,kind⟩ := earlier (.inr (by simpa using failed))
        exact ⟨request,all_left there kind (.inr (.inl rfl)),kind⟩

theorem asked_preserved : Preserved step (fun _ _ => True) Asked := by
  intro before action after asked _ moved
  cases action with
  | request scope =>
    cases Option.some.inj moved
    exact asked_asked scope asked
  | finish who what => exact finish_asked asked moved
  | clear =>
    simp only [step] at moved
    split at moved
    · cases Option.some.inj moved
      intro now begun wrong
      cases wrong
    · cases moved
  | timer =>
    simp only [step] at moved
    split at moved
    · cases Option.some.inj moved
      exact asked_asked .all asked
    · cases moved

theorem refused_unsettled {state after : State} {action : Action} (asked : Asked state) (refused : ¬Permitted state action)
    (moved : step state action = some after) : ∃ cleared, step after .clear = some cleared ∧ ¬Settled cleared := by
  have unsettled : after.sweep = .leaving → after.retry = false → after.owed ≠ [] → ∃ cleared, step after .clear = some cleared ∧ ¬Settled cleared :=
    fun leaving unset some_owed => ⟨{after with sweep := .none},by simp [step,leaving],fun settled => some_owed (settled rfl unset)⟩
  cases action with
  | request scope =>
    simp only [Permitted,Classical.not_imp,Bool.not_eq_true] at refused
    obtain ⟨leaving,unset⟩ := refused
    cases Option.some.inj moved
    refine unsettled ?_ ?_ ?_ <;> simp [revalidateSockets,leaving,unset]
  | finish who what =>
    simp only [Permitted,not_forall,Bool.not_eq_false] at refused
    obtain ⟨before,sweep,again,known,unset,failed⟩ := refused
    obtain ⟨_,_,earlier⟩ := asked .principals before sweep
    obtain ⟨request,there,kind⟩ := earlier (.inr failed)
    simp only [step,sweep,again] at moved
    cases Option.some.inj moved
    refine unsettled rfl (by simp [unset,known]) ?_
    exact List.ne_nil_of_mem (all_left there kind (.inr (.inl rfl)))
  | clear => exact absurd trivial refused
  | timer => exact absurd trivial refused

theorem requests_kept {actions : List Action} {state : State} (path : run step .start actions = some state) :
    (Guarded step Permitted .start actions → Settled state) ∧
    ∀ action after, ¬Permitted state action → step state action = some after → ∃ cleared, step after .clear = some cleared ∧ ¬Settled cleared := by
  constructor
  · intro guarded
    exact covered_settled (run_preserves covered_preserved ⟨by simp [State.start],by simp [State.start]⟩ guarded path)
  · intro action after refused moved
    refine refused_unsettled ?_ refused moved
    exact run_preserves asked_preserved (fun _ _ wrong => (by cases wrong)) (guarded_of_always fun _ _ => trivial) path

-- A principals' call during a full pass whose lookup failed: the narrower pass that follows fails too, so the retry answers both.
theorem requests_kept_retry : Settled ⟨.none,none,false,3,[],false⟩ :=
  (@requests_kept [.request .all,.request .principals,.finish false true,.finish true false,.clear,.timer,.finish false false,.clear] _ rfl).1
    (by simp [Guarded,Permitted,step,revalidateSockets,State.start,serves])

-- A full pass fails, the narrower one after it does not, and no retry is scheduled; and a call comes between the loop's end and the finally.
theorem calls_forgotten :
    (∃ state, run step .start [.request .all,.request .principals,.finish false true,.finish false false,.clear] = some state ∧ ¬Settled state) ∧
    ∃ state, run step .start [.request .principals,.finish false false,.request .all,.clear] = some state ∧ ¬Settled state :=
  ⟨⟨_,rfl,fun settled => absurd (settled rfl rfl) (by decide)⟩,⟨_,rfl,fun settled => absurd (settled rfl rfl) (by decide)⟩⟩

end Zveltio.Sweeps
