import Zveltio.Parties
import Zveltio.Runs
namespace Zveltio.AdvisoryLock
open Parties Runs

-- Why a call rejects: what its work threw, AdvisoryLockLost, an error of the driver or of a statement, a wait that ran out.
inductive Reason where
  | work | lost | driver | timeout
  deriving DecidableEq

-- Where a call is. waiting: between two tries, with no transaction; trying: begun, before the try; setting: the lock is taken, before
-- SET LOCAL; working: in fn; ended: fn has returned and the last beat is awaited; missing: at the end of a transaction that missed.
inductive Phase (V : Type u) where
  | waiting | trying | setting | working
  | ended (value : V)
  | committing (value : V)
  | missing | rolling
  | fulfilled (value : Option V)
  | rejected (reason : Reason)
  deriving DecidableEq

-- alive: the connection of its transaction; lost and failed: those of holdOnce.
structure Call (V : Type u) where
  wait : Bool
  alive : Bool
  lost : Bool
  failed : Bool
  phase : Phase V
  deriving DecidableEq

-- The calls for one key, on whatever instance, each its place; lock: whose transaction has the key's lock.
structure State (V : Type u) where
  calls : List (Call V)
  lock : Option Nat
  deriving DecidableEq

-- The first is a call of withAdvisoryLock (wait) or tryAdvisoryLock; the rest are the steps of a call, and the ends of its connection.
inductive Action (V : Type u) where
  | call (wait : Bool)
  | begins (place : Nat)
  | giveUp (place : Nat)
  | tryOnce (place : Nat)
  | setLocal (place : Nat)
  | work (place : Nat) (result : Option V)
  | beat (place : Nat)
  | check (place : Nat)
  | commit (place : Nat)
  | fails (place : Nat)
  | rollback (place : Nat)
  | die (place : Nat)

section
variable {V : Type u}

def State.start : State V := ⟨[],none⟩

def State.change (state : State V) (place : Nat) (call : Call V) (lock : Option Nat) : State V :=
  ⟨state.calls.modify place fun _ => call,lock⟩

-- The lock goes with the transaction that has it.
def State.freed (state : State V) (place : Nat) : Option Nat := if state.lock = some place then none else state.lock

def Phase.inside : Phase V → Bool
  | .trying => true
  | .setting => true
  | .working => true
  | .ended _ => true
  | .committing _ => true
  | .missing => true
  | .rolling => true
  | _ => false

-- The error that leaves holdOnce.
def Call.reason (call : Call V) : Reason := if call.failed then .work else if call.lost then .lost else .driver

def advance (state : State V) (place : Nat) (call : Call V) (phase : Phase V) : State V :=
  state.change place {call with phase := if call.alive then phase else .rolling} state.lock

def step (state : State V) : Action V → Option (State V)
  | .call wait => some {state with calls := state.calls ++ [⟨wait,false,false,false,.waiting⟩]}
  | .begins place => (state.calls[place]?).bind fun call => match call.phase with
    | .waiting => some (state.change place {call with alive := true,lost := false,failed := false,phase := .trying} state.lock)
    | _ => none
  | .giveUp place => (state.calls[place]?).bind fun call => match call.phase with
    | .waiting => if call.wait then some (state.change place {call with phase := .rejected .timeout} state.lock) else none
    | _ => none
  | .tryOnce place => (state.calls[place]?).bind fun call => match call.phase with
    | .trying =>
      if call.alive ∧ state.lock = none then some (state.change place {call with phase := .setting} (some place))
      else some (advance state place call .missing)
    | _ => none
  | .setLocal place => (state.calls[place]?).bind fun call => match call.phase with
    | .setting => some (advance state place call .working)
    | _ => none
  | .work place result => (state.calls[place]?).bind fun call => match call.phase with
    | .working => some (match result with
      | some value => state.change place {call with phase := .ended value} state.lock
      | none => state.change place {call with failed := true,phase := .rolling} state.lock)
    | _ => none
  | .beat place => (state.calls[place]?).bind fun call => match call.phase with
    | .working => some (state.change place {call with lost := call.lost || !call.alive} state.lock)
    | .ended _ => some (state.change place {call with lost := call.lost || !call.alive} state.lock)
    | _ => none
  | .check place => (state.calls[place]?).bind fun call => match call.phase with
    | .ended value => some (state.change place {call with phase := if call.lost then .rolling else .committing value} state.lock)
    | _ => none
  | .commit place => (state.calls[place]?).bind fun call => match call.phase with
    | .committing value =>
      if call.alive then some (state.change place {call with phase := .fulfilled (some value)} (state.freed place))
      else some (state.change place {call with phase := .rolling} state.lock)
    | .missing => some (advance state place call (if call.wait then .waiting else .fulfilled none))
    | _ => none
  -- A BEGIN or a statement before fn fails.
  | .fails place => (state.calls[place]?).bind fun call => match call.phase with
    | .waiting => some (state.change place {call with phase := .rejected .driver} state.lock)
    | .trying => some (state.change place {call with phase := .rolling} state.lock)
    | .setting => some (state.change place {call with phase := .rolling} state.lock)
    | _ => none
  | .rollback place => (state.calls[place]?).bind fun call => match call.phase with
    | .rolling => some (state.change place {call with phase := .rejected call.reason} (state.freed place))
    | _ => none
  | .die place => (state.calls[place]?).bind fun call =>
    if call.phase.inside then some (state.change place {call with alive := false} (state.freed place)) else none

def Phase.holds : Phase V → Bool
  | .setting => true
  | .working => true
  | .ended _ => true
  | .committing _ => true
  | _ => false

def Call.holds (call : Call V) : Bool := call.alive && call.phase.holds

-- A call of a live connection that has taken the lock still has it.
def Sound (state : State V) : Prop := ∀ (place : Nat) call, state.calls[place]? = some call → call.holds = true → state.lock = some place

def Call.rejects (call : Call V) : Bool := match call.phase with
  | .rejected _ => true
  | _ => false

def Call.settles (call : Call V) : Bool := match call.phase with
  | .fulfilled _ => true
  | .rejected _ => true
  | _ => false

-- The connection ended in the midst of the work: nothing but a rejection can come of the call.
def Call.doomed (call : Call V) : Bool := match call.phase with
  | .working => !call.alive
  | .ended _ => !call.alive
  | .committing _ => !call.alive
  | .rolling => true
  | .rejected _ => true
  | _ => false

-- What a step can make of a call and of the lock.
inductive Moves (state : State V) (place : Nat) (call : Call V) : Call V → Option Nat → Prop
  | keeps {next : Call V} : (next.holds = true → call.holds = true) → (call.doomed = true → next.doomed = true) → Moves state place call next state.lock
  | takes {next : Call V} : state.lock = none → call.doomed = false → Moves state place call next (some place)
  | frees {next : Call V} : next.holds = false → (call.doomed = true → next.doomed = true) → Moves state place call next (state.freed place)

section
variable {state after : State V} {place : Nat} {call next : Call V}

theorem change_sound (sound : Sound state) (found : state.calls[place]? = some call) {lock : Option Nat}
    (own : next.holds = true → lock = some place) (others : ∀ other, other ≠ place → state.lock = some other → lock = some other) :
    Sound (state.change place next lock) := by
  intro other item there holds
  rw [State.change,get_changed found] at there
  split at there
  · next here =>
    cases there
    exact here ▸ own holds
  · next apart => exact others other (Ne.symm apart) (sound other item there holds)

theorem freed_others (state : State V) (place : Nat) : ∀ other, other ≠ place → state.lock = some other → state.freed place = some other := by
  intro other apart held
  rw [State.freed,held,if_neg fun same => apart (Option.some.inj same)]

theorem advance_moves (state : State V) (place : Nat) (call : Call V) {phase : Phase V} (less : phase.holds = true → call.phase.holds = true)
    (safe : call.doomed = false) : ∃ next lock, Moves state place call next lock ∧ advance state place call phase = state.change place next lock := by
  refine ⟨_,_,.keeps (fun holds => ?_) (fun doomed => ?_),rfl⟩
  · obtain ⟨alive,held⟩ := Bool.and_eq_true_iff.mp holds
    dsimp only at alive held
    rw [alive] at held
    exact Bool.and_eq_true_iff.mpr ⟨alive,less held⟩
  · rw [safe] at doomed
    cases doomed

theorem idle_moves (next : Call V) (idle : next.phase.holds = false) (kept : call.doomed = true → next.doomed = true) :
    Moves state place call next state.lock := by
  refine .keeps (fun holds => ?_) kept
  have held := (Bool.and_eq_true_iff.mp holds).2
  rw [idle] at held
  cases held

theorem step_moves {action : Action V} (moved : step state action = some after) :
    (∃ wait, after = {state with calls := state.calls ++ [⟨wait,false,false,false,.waiting⟩]}) ∨
      ∃ place call, state.calls[place]? = some call ∧ ∃ next lock, Moves state place call next lock ∧ after = state.change place next lock := by
  have safe {call : Call V} {phase : Phase V} (here : call.phase = phase) (off : Call.doomed {call with phase} = false) : call.doomed = false := by
    rw [← here] at off
    exact off
  cases action with
  | call wait =>
    cases moved
    exact .inl ⟨wait,rfl⟩
  | begins place =>
    obtain ⟨call,found,moved⟩ := Option.bind_eq_some_iff.mp moved
    split at moved
    · next here =>
      cases moved
      refine .inr ⟨place,call,found,_,_,idle_moves _ ?_ ?_,rfl⟩
      · rfl
      · exact fun doomed => absurd (doomed.symm.trans (safe here rfl)) (Bool.false_ne_true ∘ Eq.symm)
    · cases moved
  | giveUp place =>
    obtain ⟨call,found,moved⟩ := Option.bind_eq_some_iff.mp moved
    split at moved
    · next here =>
      split at moved
      · cases moved
        refine .inr ⟨place,call,found,_,_,idle_moves _ ?_ ?_,rfl⟩
        · rfl
        · exact fun _ => rfl
      · cases moved
    · cases moved
  | tryOnce place =>
    obtain ⟨call,found,moved⟩ := Option.bind_eq_some_iff.mp moved
    split at moved
    · next here =>
      split at moved
      · next free =>
        cases moved
        exact .inr ⟨place,call,found,_,_,.takes free.2 (safe here rfl),rfl⟩
      · cases moved
        exact .inr ⟨place,call,found,advance_moves state place call (fun wrong => absurd wrong Bool.false_ne_true) (safe here rfl)⟩
    · cases moved
  | setLocal place =>
    obtain ⟨call,found,moved⟩ := Option.bind_eq_some_iff.mp moved
    split at moved
    · next here =>
      cases moved
      exact .inr ⟨place,call,found,advance_moves state place call (fun _ => by rw [here]; rfl) (safe here rfl)⟩
    · cases moved
  | work place result =>
    obtain ⟨call,found,moved⟩ := Option.bind_eq_some_iff.mp moved
    split at moved
    · next here =>
      cases moved
      refine .inr ⟨place,call,found,?_⟩
      cases result with
      | none =>
        refine ⟨_,_,idle_moves _ ?_ ?_,rfl⟩
        · rfl
        · exact fun _ => rfl
      | some value =>
        refine ⟨_,_,.keeps (fun holds => ?_) (fun doomed => ?_),rfl⟩
        · rw [Call.holds,here]
          exact holds
        · rw [Call.doomed,here] at doomed
          exact doomed
    · cases moved
  | beat place =>
    obtain ⟨call,found,moved⟩ := Option.bind_eq_some_iff.mp moved
    split at moved
    · cases moved
      refine .inr ⟨place,call,found,_,_,.keeps ?_ ?_,rfl⟩
      · exact id
      · exact id
    · cases moved
      refine .inr ⟨place,call,found,_,_,.keeps ?_ ?_,rfl⟩
      · exact id
      · exact id
    · cases moved
  | check place =>
    obtain ⟨call,found,moved⟩ := Option.bind_eq_some_iff.mp moved
    split at moved
    · next value here =>
      cases moved
      refine .inr ⟨place,call,found,_,_,.keeps (fun holds => ?_) (fun doomed => ?_),rfl⟩
      · rw [Call.holds,here]
        exact Bool.and_eq_true_iff.mpr ⟨(Bool.and_eq_true_iff.mp holds).1,rfl⟩
      · rw [Call.doomed,here] at doomed
        cases lost : call.lost <;> first | exact doomed | rfl
    · cases moved
  | commit place =>
    obtain ⟨call,found,moved⟩ := Option.bind_eq_some_iff.mp moved
    split at moved
    · next value here =>
      split at moved
      · next alive =>
        cases moved
        refine .inr ⟨place,call,found,_,_,.frees ?_ (fun doomed => ?_),rfl⟩
        · exact Bool.and_false _
        · rw [Call.doomed,here,alive] at doomed
          cases doomed
      · cases moved
        refine .inr ⟨place,call,found,_,_,idle_moves _ ?_ ?_,rfl⟩
        · rfl
        · exact fun _ => rfl
    · next here =>
      cases moved
      refine .inr ⟨place,call,found,advance_moves state place call (fun wrong => ?_) (safe here rfl)⟩
      cases waits : call.wait <;> rw [waits] at wrong <;> cases wrong
    · cases moved
  | fails place =>
    obtain ⟨call,found,moved⟩ := Option.bind_eq_some_iff.mp moved
    split at moved
    · cases moved
      refine .inr ⟨place,call,found,_,_,idle_moves _ ?_ ?_,rfl⟩
      · rfl
      · exact fun _ => rfl
    · cases moved
      refine .inr ⟨place,call,found,_,_,idle_moves _ ?_ ?_,rfl⟩
      · rfl
      · exact fun _ => rfl
    · cases moved
      refine .inr ⟨place,call,found,_,_,idle_moves _ ?_ ?_,rfl⟩
      · rfl
      · exact fun _ => rfl
    · cases moved
  | rollback place =>
    obtain ⟨call,found,moved⟩ := Option.bind_eq_some_iff.mp moved
    split at moved
    · cases moved
      refine .inr ⟨place,call,found,_,_,.frees ?_ ?_,rfl⟩
      · exact Bool.and_false _
      · exact fun _ => rfl
    · cases moved
  | die place =>
    obtain ⟨call,found,moved⟩ := Option.bind_eq_some_iff.mp moved
    split at moved
    · cases moved
      refine .inr ⟨place,call,found,_,_,.frees rfl (fun doomed => ?_),rfl⟩
      revert doomed
      rw [Call.doomed,Call.doomed]
      cases call.phase <;> first | exact id | exact fun _ => rfl
    · cases moved

theorem step_sound : Preserved (step (V := V)) (fun _ _ => True) Sound := by
  intro before action after sound _ moved
  rcases step_moves moved with ⟨wait,rfl⟩ | ⟨place,call,found,next,lock,move,rfl⟩
  · intro other item there holds
    rw [get_added] at there
    split at there
    · cases there
      cases holds
    · exact sound other item there holds
  · cases move with
    | keeps less _ => exact change_sound sound found (fun holds => sound place call found (less holds)) fun _ _ held => held
    | takes free _ => exact change_sound sound found (fun _ => rfl) fun other _ held => nomatch free.symm.trans held
    | frees gone _ => exact change_sound sound found (fun holds => nomatch gone.symm.trans holds) (freed_others before place)

theorem step_doomed (place : Nat) : Preserved step (fun _ _ => True)
    fun state : State V => ∃ call, state.calls[place]? = some call ∧ call.doomed = true := by
  rintro before action after ⟨call,found,doomed⟩ _ moved
  rcases step_moves moved with ⟨wait,rfl⟩ | ⟨other,item,there,next,lock,move,rfl⟩
  · refine ⟨call,?_,doomed⟩
    rw [get_added,if_neg (Nat.ne_of_lt (List.getElem?_eq_some_iff.mp found).1)]
    exact found
  · by_cases same : other = place
    · subst same
      cases Option.some.inj (found.symm.trans there)
      refine ⟨next,(get_changed there next other).trans (if_pos rfl),?_⟩
      cases move with
      | keeps _ kept => exact kept doomed
      | takes _ safe => exact nomatch safe.symm.trans doomed
      | frees _ kept => exact kept doomed
    · exact ⟨call,((get_changed there next place).trans (if_neg same)).trans found,doomed⟩

theorem doomed_rejects {call : Call V} (doomed : call.doomed = true) (settles : call.settles = true) : call.rejects = true := by
  unfold Call.doomed at doomed
  unfold Call.settles at settles
  unfold Call.rejects
  cases phase : call.phase with
  | rejected => rfl
  | fulfilled => rw [phase] at doomed; cases doomed
  | _ => rw [phase] at settles; cases settles

-- A call that has not the lock while it works settles by a rejection, whatever comes after.
theorem unlocked_rejects {rest : List (Action V)} {middle after : State V} (sound : Sound middle) (later : run step middle rest = some after)
    {place : Nat} {call final : Call V} (found : middle.calls[place]? = some call) (working : call.phase = .working)
    (without : middle.lock ≠ some place) (there : after.calls[place]? = some final) (settles : final.settles = true) : final.rejects = true := by
  have dead : call.alive = false := by
    refine Bool.eq_false_iff.mpr fun alive => without (sound place call found ?_)
    rw [Call.holds,alive,working]
    rfl
  have doomed : call.doomed = true := by
    rw [Call.doomed,working,dead]
    rfl
  obtain ⟨last,here,still⟩ := run_preserves (step_doomed place) ⟨call,found,doomed⟩ (guarded_of_always fun _ _ => trivial) later
  cases Option.some.inj (here.symm.trans there)
  exact doomed_rejects still settles

-- Whoever fulfils with the value of its work had the lock at every moment of it, and of two calls whose works are under way at one
-- moment at least one settles by a rejection.
theorem overlap_rejects {first rest : List (Action V)} {middle after : State V} (path : run step State.start first = some middle)
    (later : run step middle rest = some after) :
    (∀ (place : Nat) call final value, middle.calls[place]? = some call → call.phase = .working → after.calls[place]? = some final →
      final.phase = .fulfilled value → middle.lock = some place) ∧
    ∀ (one other : Nat) call item final last, one ≠ other → middle.calls[one]? = some call → call.phase = .working →
      middle.calls[other]? = some item → item.phase = .working → after.calls[one]? = some final → after.calls[other]? = some last →
      final.settles = true → last.settles = true → final.rejects = true ∨ last.rejects = true := by
  have start : Sound (State.start : State V) := fun _ _ wrong => (nomatch wrong)
  have sound := run_preserves step_sound start (guarded_of_always fun _ _ => trivial) path
  constructor
  · intro place call final value found working there fulfilled
    refine Decidable.byContradiction fun without => ?_
    have rejects := unlocked_rejects sound later found working without there (by rw [Call.settles,fulfilled])
    rw [Call.rejects,fulfilled] at rejects
    cases rejects
  · intro one other call item final last apart found working again busy there here settles finishes
    by_cases held : middle.lock = some one
    · have without : middle.lock ≠ some other := by
        rw [held]
        exact fun same => apart (Option.some.inj same)
      exact .inr (unlocked_rejects sound later again busy without here finishes)
    · exact .inl (unlocked_rejects sound later found working held there settles)

end

end

-- The connection of the first call ends while it works, the second takes the lock and works beside it.
def beside : List (Action Nat) :=
  [.call true,.call false,.begins 0,.tryOnce 0,.setLocal 0,.die 0,.begins 1,.tryOnce 1,.setLocal 1]

def ends : List (Action Nat) := [.work 0 (some 5),.check 0,.work 1 (some 7),.check 1,.commit 0,.commit 1,.rollback 0]

def bothWorking : State Nat := ⟨[⟨true,false,false,false,.working⟩,⟨false,true,false,false,.working⟩],some 1⟩

def bothSettled : State Nat := ⟨[⟨true,false,false,false,.rejected .driver⟩,⟨false,true,false,false,.fulfilled (some 7)⟩],none⟩

theorem overlap_rejects_beside : bothWorking.lock = some 1 ∧
    (Call.rejects (⟨true,false,false,false,.rejected .driver⟩ : Call Nat) = true ∨
      Call.rejects (⟨false,true,false,false,.fulfilled (some 7)⟩ : Call Nat) = true) := by
  have path : run step State.start beside = some bothWorking := by decide
  have later : run step bothWorking ends = some bothSettled := by decide
  exact ⟨(overlap_rejects path later).1 1 _ _ (some 7) rfl rfl rfl rfl,(overlap_rejects path later).2 0 1 _ _ _ _ (by decide) rfl rfl rfl rfl rfl rfl rfl rfl⟩

end Zveltio.AdvisoryLock
