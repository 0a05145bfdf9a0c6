import Zveltio.Runs
namespace Zveltio.JobRunner
open Runs

def RunnerLimits.hostCalls : Nat := 1000

def RunnerLimits.stdoutBytes : Nat := 16 * 1024 * 1024

-- remote: the process is the runner's, which says on the connection how it ended.
structure RunnerRun where
  timeoutSeconds : Nat
  remote : Bool

structure Ended where
  failure : Option String
  how : String
  stderr : String

-- The runner's line: what it has of Ended.
structure Reported where
  failure : Option String
  how : Option String
  stderr : Option String

-- A line that is a JSON object: runner where it is an object, done and ok where they are true, call where id, name and args are a host call's.
structure Message (γ : Type) where
  runner : Option Reported
  done : Bool
  ok : Bool
  error : Option String
  call : Option γ

inductive Why where
  | timeout
  | unloaded
  | notMessage
  | endedTwice
  | calledAfterEnd
  | malformedCall
  | hostCalls
  | stdoutBytes
  deriving DecidableEq

def Why.text (r : RunnerRun) : Why → String
  | .timeout => "killed after the timeout of " ++ toString r.timeoutSeconds ++ "s"
  | .unloaded => "the extension was unloaded while the job ran"
  | .notMessage => "the job wrote a line that is not a message"
  | .endedTwice => "the job ended twice"
  | .calledAfterEnd => "the job called the engine after it ended"
  | .malformedCall => "the job sent a malformed host call"
  | .hostCalls => "more than " ++ toString RunnerLimits.hostCalls ++ " host calls in one run"
  | .stdoutBytes => "more than " ++ toString RunnerLimits.stdoutBytes ++ " bytes on stdout"

inductive Outcome where
  | ok
  | error (text : String)
  deriving DecidableEq

-- A rejection has the stderr whose tail its message ends with.
inductive Result where
  | resolved
  | rejected (why stderr : String)
  deriving DecidableEq

-- exited: proc.exited resolved, and the calls then in flight are waited for, ten seconds at most.
inductive Phase where
  | running
  | exited (st : Ended) (waiting : List Nat)
  | settled (result : Result)

-- inFlight has the unsettled of executed, by their places; closing: done came, its result is set when the calls in flight then have settled.
-- heard, kills, aborted and late watch the run: the lines onLine was given, every kill, the signal, and the host calls begun too late.
structure State (γ : Type) where
  failure : Option Why
  outcome : Option Outcome
  reported : Option Reported
  ended : Bool
  calls : Nat
  stdoutBytes : Nat
  reading : Bool
  executed : List γ
  inFlight : List Nat
  closing : Option (List Nat × Outcome)
  phase : Phase
  heard : List (Option (Message γ))
  kills : List Why
  aborted : Bool
  late : List γ

section
variable {γ : Type}

def State.start : State γ := ⟨none,none,none,false,0,0,true,[],[],none,.running,[],[],false,[]⟩

def State.settled (state : State γ) : Bool := match state.phase with
  | .settled _ => true
  | _ => false

def State.isOver (state : State γ) : Bool := state.ended || state.failure.isSome || state.aborted || state.settled

def kill (state : State γ) (why : Why) : State γ := {state with failure := some (state.failure.getD why),kills := state.kills ++ [why]}

def answer (state : State γ) (call : γ) : State γ := {state with
  inFlight := state.inFlight ++ [state.executed.length]
  executed := state.executed ++ [call]
  late := if state.isOver then state.late ++ [call] else state.late}

def Message.result (message : Message γ) : Outcome := if message.ok then .ok else .error (message.error.getD "failed")

def onLine (r : RunnerRun) (state : State γ) (line : Option (Message γ)) : State γ :=
  let state := {state with heard := state.heard ++ [line]}
  if state.failure.isSome then state
  else match line with
  | none => kill state .notMessage
  | some message =>
    if r.remote && message.runner.isSome then {state with reported := message.runner}
    else if message.done then
      if state.ended then kill state .endedTwice
      else {state with ended := true,closing := some (state.inFlight,message.result)}
    else if state.ended then kill state .calledAfterEnd
    else match message.call with
    | none => kill state .malformedCall
    | some call =>
      let counted := {state with calls := state.calls + 1}
      if counted.calls > RunnerLimits.hostCalls then kill counted .hostCalls else answer counted call

def settles (r : RunnerRun) (state : State γ) (st : Ended) : Result :=
  let stderr := (state.reported.bind Reported.stderr).getD st.stderr
  match ((state.failure.map (Why.text r)).or (state.reported.bind Reported.failure)).or st.failure with
  | some why => .rejected why stderr
  | none => match state.outcome with
    | some .ok => .resolved
    | some (.error text) => .rejected text stderr
    | none => .rejected ("the job process " ++ (state.reported.bind Reported.how).getD st.how ++ " before it ended") stderr

-- chunk: read from stdout, with the non-empty lines it completes. settle: a host call's promise, answered or thrown.
inductive Action (γ : Type) where
  | chunk (bytes : Nat) (lines : List (Option (Message γ)))
  | settle (call : Nat)
  | close
  | timeout
  | abort
  | exit (st : Ended)
  | finish (elapsed : Bool)

def step (r : RunnerRun) (state : State γ) : Action γ → Option (State γ)
  | .chunk bytes lines =>
    if state.reading then
      let counted := {state with stdoutBytes := state.stdoutBytes + bytes}
      if counted.stdoutBytes > RunnerLimits.stdoutBytes then some {kill counted .stdoutBytes with reading := false}
      else some (lines.foldl (onLine r) counted)
    else none
  | .settle call => if call ∈ state.inFlight then some {state with inFlight := state.inFlight.filter (· ≠ call)} else none
  | .close => match state.closing with
    | some (waiting,result) =>
      if waiting.all (· ∉ state.inFlight) then some {state with outcome := some result,closing := none} else none
    | none => none
  | .timeout => match state.phase with
    | .running => some (kill state .timeout)
    | _ => none
  | .abort => match state.phase with
    | .running => some (kill {state with aborted := true} .unloaded)
    | _ => some {state with aborted := true}
  | .exit st => match state.phase with
    | .running => some {state with phase := .exited st state.inFlight}
    | _ => none
  | .finish elapsed => match state.phase with
    | .exited st waiting =>
      if elapsed || waiting.all (· ∉ state.inFlight) then some {state with phase := .settled (settles r state st)} else none
    | _ => none

def isReport (r : RunnerRun) : Option (Message γ) → Bool
  | some message => r.remote && message.runner.isSome
  | none => false

def isDone (r : RunnerRun) (message : Message γ) : Bool := !(r.remote && message.runner.isSome) && message.done

def isCall (r : RunnerRun) : Option (Message γ) → Bool
  | some message => !(r.remote && message.runner.isSome) && !message.done && message.call.isSome
  | none => false

-- What a run that resolves has behind it: host calls and the runner's reports, one done message with ok true, then reports alone.
structure Whole (r : RunnerRun) (state : State γ) : Prop where
  once : ∃ earlier message later, state.heard = earlier ++ some message::later ∧ isDone r message = true ∧ message.ok = true ∧
    (∀ line ∈ earlier, isCall r line = true ∨ isReport r line = true) ∧ ∀ line ∈ later, isReport r line = true
  answered : state.inFlight = []
  unkilled : state.kills = []
  fewCalls : state.calls ≤ RunnerLimits.hostCalls
  fewBytes : state.stdoutBytes ≤ RunnerLimits.stdoutBytes

-- Once the run has settled, or was aborted, and nothing else makes it deaf to calls,
-- no chunk is read whose first line that is not the runner's report is a host call.
def Permitted (r : RunnerRun) (state : State γ) : Action γ → Prop
  | .chunk bytes lines => state.aborted = true ∨ state.settled = true → state.failure = none → state.ended = false →
      state.stdoutBytes + bytes ≤ RunnerLimits.stdoutBytes → state.calls < RunnerLimits.hostCalls →
      ∀ line, lines.find? (fun line => !isReport r line) = some line → isCall r line = false
  | _ => True

theorem onLine_cases (r : RunnerRun) (state : State γ) (line : Option (Message γ)) :
    let heard : State γ := {state with heard := state.heard ++ [line]}
    (state.failure.isSome = true ∧ onLine r state line = heard) ∨
    (state.failure = none ∧
      ((isReport r line = true ∧ ∃ reported, onLine r state line = {heard with reported}) ∨
      (state.ended = false ∧ ∃ message, line = some message ∧ isDone r message = true ∧
        onLine r state line = {heard with ended := true,closing := some (state.inFlight,message.result)}) ∨
      (state.ended = false ∧ isCall r line = true ∧ state.calls < RunnerLimits.hostCalls ∧
        ∃ call, onLine r state line = answer {heard with calls := state.calls + 1} call) ∨
      ∃ why calls, state.calls ≤ calls ∧ onLine r state line = kill {heard with calls} why)) := by
  intro heard
  by_cases failed : state.failure.isSome = true
  · exact .inl ⟨failed,by simp [onLine,failed,heard]⟩
  · refine .inr ⟨by simpa using failed,?_⟩
    cases line with
    | none => exact .inr (.inr (.inr ⟨.notMessage,state.calls,Nat.le_refl _,by simp [onLine,failed,heard]⟩))
    | some message =>
      by_cases report : (r.remote && message.runner.isSome) = true
      · exact .inl ⟨by simpa [isReport] using report,message.runner,by simp only [onLine,failed,report,heard]; rfl⟩
      · by_cases done : message.done = true
        · cases ended : state.ended with
          | true => exact .inr (.inr (.inr ⟨.endedTwice,state.calls,Nat.le_refl _,by simp [onLine,failed,report,done,ended,heard]⟩))
          | false =>
            refine .inr (.inl ⟨rfl,message,rfl,?_,?_⟩)
            · simp [isDone,report,done]
            · simp [onLine,failed,report,done,ended,heard]
        · cases ended : state.ended with
          | true => exact .inr (.inr (.inr ⟨.calledAfterEnd,state.calls,Nat.le_refl _,by simp [onLine,failed,report,done,ended,heard]⟩))
          | false =>
            cases call : message.call with
            | none => exact .inr (.inr (.inr ⟨.malformedCall,state.calls,Nat.le_refl _,by simp [onLine,failed,report,done,ended,call,heard]⟩))
            | some asked =>
              by_cases few : state.calls < RunnerLimits.hostCalls
              · refine .inr (.inr (.inl ⟨rfl,?_,few,asked,?_⟩))
                · simp [isCall,report,done,call]
                · simp [onLine,failed,report,done,ended,call,heard,Nat.not_lt.mpr few]
              · refine .inr (.inr (.inr ⟨.hostCalls,state.calls + 1,Nat.le_succ _,?_⟩))
                simp [onLine,failed,report,done,ended,call,heard,Nat.lt_succ_of_le (Nat.not_lt.mp few)]

-- While no done message has come, host calls and reports; then one, whose result is waited for or set, and reports.
def Told (r : RunnerRun) (state : State γ) : Prop :=
  if state.ended then ∃ earlier message later, state.heard = earlier ++ some message::later ∧ isDone r message = true ∧
    (∀ line ∈ earlier, isCall r line = true ∨ isReport r line = true) ∧ (∀ line ∈ later, isReport r line = true) ∧
    ((∃ waiting, state.closing = some (waiting,message.result)) ∧ state.outcome = none ∨ state.closing = none ∧ state.outcome = some message.result)
  else ∀ line ∈ state.heard, isCall r line = true ∨ isReport r line = true

structure Sound (r : RunnerRun) (state : State γ) : Prop where
  counted : state.executed.length ≤ state.calls
  few : state.executed.length ≤ RunnerLimits.hostCalls
  unkilled : state.failure = none → state.kills = [] ∧ state.calls ≤ RunnerLimits.hostCalls ∧ state.stdoutBytes ≤ RunnerLimits.stdoutBytes
  told : state.failure = none → Told r state
  undecided : state.ended = false → state.closing = none ∧ state.outcome = none
  waited : ∀ waiting result, state.closing = some (waiting,result) → ∀ call ∈ state.inFlight, call ∈ waiting
  answered : state.outcome.isSome = true → state.inFlight = []

theorem kill_sound {r : RunnerRun} {state : State γ} (why : Why) (sound : Sound r state) : Sound r (kill state why) where
  counted := sound.counted
  few := sound.few
  unkilled := fun unset => absurd unset (by simp [kill])
  told := fun unset => absurd unset (by simp [kill])
  undecided := sound.undecided
  waited := sound.waited
  answered := sound.answered

theorem recount_sound {r : RunnerRun} {state : State γ} {calls : Nat} (heard : List (Option (Message γ))) (bytes : Nat) (why : Why)
    (more : state.calls ≤ calls) (sound : Sound r state) : Sound r (kill {state with heard,calls,stdoutBytes := bytes} why) where
  counted := Nat.le_trans sound.counted more
  few := sound.few
  unkilled := fun unset => absurd unset (by simp [kill])
  told := fun unset => absurd unset (by simp [kill])
  undecided := sound.undecided
  waited := sound.waited
  answered := sound.answered

theorem report_told {r : RunnerRun} {state : State γ} {line : Option (Message γ)} {reported : Option Reported} (report : isReport r line = true)
    (told : Told r state) : Told r {state with heard := state.heard ++ [line],reported} := by
  unfold Told at told ⊢
  cases ended : state.ended with
  | true =>
    simp only [ended,if_true] at told ⊢
    obtain ⟨earlier,message,later,heard,done,before,after,result⟩ := told
    refine ⟨earlier,message,later ++ [line],by simp [heard],done,before,?_,result⟩
    intro other member
    rcases List.mem_append.mp member with old | new
    · exact after other old
    · cases List.mem_singleton.mp new
      exact report
  | false =>
    simp only [ended] at told ⊢
    intro other member
    rcases List.mem_append.mp member with old | new
    · exact told other old
    · cases List.mem_singleton.mp new
      exact .inr report

theorem onLine_sound {r : RunnerRun} {state : State γ} (line : Option (Message γ)) (sound : Sound r state) : Sound r (onLine r state line) := by
  rcases onLine_cases r state line with ⟨failed,same⟩ | ⟨unset,⟨report,reported,same⟩ | ⟨going,message,here,done,same⟩ | ⟨going,call,few,asked,same⟩ | ⟨why,calls,more,same⟩⟩
  · rw [same]
    exact {
      sound with
      unkilled := fun unset => absurd failed (by simp_all)
      told := fun unset => absurd failed (by simp_all)}
  · rw [same]
    exact {sound with told := fun _ => report_told report (sound.told unset)}
  · rw [same]
    obtain ⟨unclosed,unanswered⟩ := sound.undecided going
    have told := sound.told unset
    exact {
      counted := sound.counted
      few := sound.few
      unkilled := sound.unkilled
      told := fun _ => (by
        simp only [Told,going] at told ⊢
        exact ⟨state.heard,message,[],by simp [here],done,told,by simp,.inl ⟨⟨_,rfl⟩,unanswered⟩⟩)
      undecided := fun wrong => (by cases wrong)
      waited := fun waiting result closing call inFlight => (by cases closing; exact inFlight)
      answered := sound.answered}
  · rw [same]
    obtain ⟨unclosed,unanswered⟩ := sound.undecided going
    have told := sound.told unset
    obtain ⟨unkilled,_,bytes⟩ := sound.unkilled unset
    exact {
      counted := by simpa [answer] using sound.counted
      few := by simpa [answer] using Nat.succ_le_of_lt (Nat.lt_of_le_of_lt sound.counted few)
      unkilled := fun _ => ⟨unkilled,few,bytes⟩
      told := fun _ => (by
        simp only [Told,answer,going] at told ⊢
        intro other member
        rcases List.mem_append.mp member with old | new
        · exact told other old
        · cases List.mem_singleton.mp new
          exact .inl call)
      undecided := fun _ => ⟨unclosed,unanswered⟩
      waited := fun waiting result closing => (by simp [answer,unclosed] at closing)
      answered := fun answered => (by simp [answer,unanswered] at answered)}
  · rw [same]
    have killed := recount_sound (state.heard ++ [line]) state.stdoutBytes why more sound
    exact killed

theorem lines_sound {r : RunnerRun} {lines : List (Option (Message γ))} {state : State γ} (sound : Sound r state) :
    Sound r (lines.foldl (onLine r) state) := by
  induction lines generalizing state with
  | nil => exact sound
  | cons line rest ih => exact ih (onLine_sound line sound)

theorem chunk_cases {r : RunnerRun} {state after : State γ} {bytes : Nat} {lines : List (Option (Message γ))}
    (moved : step r state (.chunk bytes lines) = some after) :
    (RunnerLimits.stdoutBytes < state.stdoutBytes + bytes ∧
      after = {kill {state with stdoutBytes := state.stdoutBytes + bytes} .stdoutBytes with reading := false}) ∨
    state.stdoutBytes + bytes ≤ RunnerLimits.stdoutBytes ∧ after = lines.foldl (onLine r) {state with stdoutBytes := state.stdoutBytes + bytes} := by
  simp only [step] at moved
  split at moved
  · split at moved
    · next tripped =>
      cases Option.some.inj moved
      exact .inl ⟨tripped,rfl⟩
    · next within =>
      cases Option.some.inj moved
      exact .inr ⟨Nat.not_lt.mp within,rfl⟩
  · cases moved

theorem chunk_sound {r : RunnerRun} {state after : State γ} {bytes : Nat} {lines : List (Option (Message γ))} (sound : Sound r state)
    (moved : step r state (.chunk bytes lines) = some after) : Sound r after := by
  rcases chunk_cases moved with ⟨_,rfl⟩ | ⟨within,rfl⟩
  · have killed := recount_sound state.heard (state.stdoutBytes + bytes) .stdoutBytes (Nat.le_refl _) sound
    exact {killed with}
  · refine lines_sound {sound with unkilled := ?_}
    intro unset
    obtain ⟨unkilled,calls,_⟩ := sound.unkilled unset
    exact ⟨unkilled,calls,within⟩

theorem settle_sound {r : RunnerRun} {state : State γ} (call : Nat) (sound : Sound r state) :
    Sound r {state with inFlight := state.inFlight.filter (· ≠ call)} := by
  refine {sound with waited := ?_,answered := ?_}
  · intro waiting result closing other member
    exact sound.waited waiting result closing other (List.mem_filter.mp member).1
  · intro answered
    simp [sound.answered answered]

theorem close_sound {r : RunnerRun} {state : State γ} {waiting : List Nat} {result : Outcome} (sound : Sound r state)
    (closing : state.closing = some (waiting,result)) (settled : ∀ call ∈ waiting, call ∉ state.inFlight) :
    Sound r {state with outcome := some result,closing := none} := by
  have quiet : state.inFlight = [] := List.eq_nil_iff_forall_not_mem.mpr fun call member =>
    settled call (sound.waited waiting result closing call member) member
  have ended : state.ended = true := by
    by_contra going
    simpa [closing] using (sound.undecided (by simpa using going)).1
  refine {sound with told := ?_,undecided := ?_,waited := ?_,answered := ?_}
  · intro unset
    have told := sound.told unset
    simp only [Told,ended,if_true] at told ⊢
    obtain ⟨earlier,message,later,heard,done,before,after,resulting⟩ := told
    refine ⟨earlier,message,later,heard,done,before,after,.inr ⟨trivial,?_⟩⟩
    rcases resulting with ⟨⟨_,same⟩,_⟩ | ⟨wrong,_⟩
    · cases closing.symm.trans same
      rfl
    · cases closing.symm.trans wrong
  · intro going
    cases ended.symm.trans going
  · intro _ _ wrong
    cases wrong
  · intro _
    exact quiet

theorem sound_preserved (r : RunnerRun) : Preserved (step (γ := γ) r) (fun _ _ => True) (Sound r) := by
  intro before action after sound _ moved
  cases action with
  | chunk bytes lines => exact chunk_sound sound moved
  | settle call =>
    simp only [step] at moved
    split at moved
    · cases Option.some.inj moved
      exact settle_sound call sound
    · cases moved
  | close =>
    simp only [step] at moved
    split at moved
    · next waiting result closing =>
      split at moved
      · next settled =>
        cases Option.some.inj moved
        exact close_sound sound closing (by simpa using settled)
      · cases moved
    · cases moved
  | timeout =>
    simp only [step] at moved
    split at moved
    · cases Option.some.inj moved
      exact kill_sound .timeout sound
    · cases moved
  | abort =>
    simp only [step] at moved
    split at moved
    · cases Option.some.inj moved
      exact kill_sound .unloaded {sound with}
    · cases Option.some.inj moved
      exact {sound with}
  | exit st =>
    simp only [step] at moved
    split at moved
    · cases Option.some.inj moved
      exact {sound with}
    · cases moved
  | finish elapsed =>
    simp only [step] at moved
    split at moved
    · split at moved
      · cases Option.some.inj moved
        exact {sound with}
      · cases moved
    · cases moved

def Deaf (state : State γ) : Prop := state.failure.isSome = true ∨ state.ended = true ∨ RunnerLimits.hostCalls ≤ state.calls

theorem deaf_line {r : RunnerRun} {state : State γ} (line : Option (Message γ)) (deaf : Deaf state) :
    Deaf (onLine r state line) ∧ (onLine r state line).late = state.late := by
  rcases onLine_cases r state line with ⟨failed,same⟩ | ⟨unset,⟨_,_,same⟩ | ⟨going,_,_,_,same⟩ | ⟨going,_,few,_,same⟩ | ⟨_,_,_,same⟩⟩
  · rw [same]
    exact ⟨.inl failed,rfl⟩
  · rw [same]
    exact ⟨deaf,rfl⟩
  · rw [same]
    exact ⟨.inr (.inl rfl),rfl⟩
  · rcases deaf with failed | ended | full
    · simp [unset] at failed
    · cases going.symm.trans ended
    · exact absurd full (Nat.not_le.mpr few)
  · rw [same]
    exact ⟨.inl rfl,rfl⟩

theorem deaf_lines {r : RunnerRun} {lines : List (Option (Message γ))} {state : State γ} (deaf : Deaf state) :
    (lines.foldl (onLine r) state).late = state.late := by
  induction lines generalizing state with
  | nil => rfl
  | cons line rest ih =>
    obtain ⟨still,same⟩ := deaf_line line deaf
    exact (ih still).trans same

theorem line_frame (r : RunnerRun) (state : State γ) (line : Option (Message γ)) :
    (onLine r state line).aborted = state.aborted ∧ (onLine r state line).settled = state.settled := by
  rcases onLine_cases r state line with ⟨_,same⟩ | ⟨_,⟨_,_,same⟩ | ⟨_,_,_,_,same⟩ | ⟨_,_,_,_,same⟩ | ⟨_,_,_,same⟩⟩ <;>
    (rw [same]; exact ⟨rfl,rfl⟩)

theorem timely_lines {r : RunnerRun} {lines : List (Option (Message γ))} {state : State γ} (alive : state.aborted = false) (unsettled : state.settled = false) :
    (lines.foldl (onLine r) state).late = state.late := by
  induction lines generalizing state with
  | nil => rfl
  | cons line rest ih =>
    obtain ⟨aborted,settled⟩ := line_frame r state line
    refine (ih (aborted.trans alive) (settled.trans unsettled)).trans ?_
    rcases onLine_cases r state line with ⟨_,same⟩ | ⟨unset,⟨_,_,same⟩ | ⟨_,_,_,_,same⟩ | ⟨going,_,_,_,same⟩ | ⟨_,_,_,same⟩⟩
    · rw [same]
    · rw [same]
    · rw [same]
    · rw [same]
      have timely : ({state with heard := state.heard ++ [line],calls := state.calls + 1} : State γ).isOver = false := by
        simp only [State.isOver,going,unset,alive,Option.isSome_none,Bool.false_or]
        exact unsettled
      simp [answer,timely]
    · rw [same]
      rfl

theorem quiet_lines {r : RunnerRun} {lines : List (Option (Message γ))} {state : State γ}
    (quiet : ∀ line, lines.find? (fun line => !isReport r line) = some line → isCall r line = false) :
    (lines.foldl (onLine r) state).late = state.late := by
  induction lines generalizing state with
  | nil => rfl
  | cons line rest ih =>
    rw [List.foldl_cons]
    rcases onLine_cases r state line with ⟨failed,_⟩ | ⟨_,⟨report,reported,same⟩ | ⟨_,_,_,_,same⟩ | ⟨_,call,_,_,_⟩ | ⟨_,_,_,same⟩⟩
    · exact (deaf_lines (deaf_line line (.inl failed)).1).trans (deaf_line line (.inl failed)).2
    · rw [same]
      exact ih fun other first => quiet other (by rw [List.find?_cons_of_neg (by simp [report])]; exact first)
    · rw [same]
      exact deaf_lines (.inr (.inl rfl))
    · have unreported : isReport r line = false := by
        cases line with
        | none => rfl
        | some message =>
          simp only [isCall,Bool.and_eq_true,Bool.not_eq_true'] at call
          exact call.1.1
      rw [quiet line (List.find?_cons_of_pos (by simp [unreported]))] at call
      cases call
    · rw [same]
      exact deaf_lines (.inl rfl)

theorem late_kept (r : RunnerRun) (lines : List (Option (Message γ))) {state : State γ} (late : state.late ≠ []) :
    (lines.foldl (onLine r) state).late ≠ [] := by
  induction lines generalizing state with
  | nil => exact late
  | cons line rest ih =>
    refine ih ?_
    rcases onLine_cases r state line with ⟨_,same⟩ | ⟨_,⟨_,_,same⟩ | ⟨_,_,_,_,same⟩ | ⟨_,_,_,_,same⟩ | ⟨_,_,_,same⟩⟩
    · rw [same]
      exact late
    · rw [same]
      exact late
    · rw [same]
      exact late
    · rw [same]
      simp only [answer]
      split
      · simp
      · exact late
    · rw [same]
      exact late

theorem call_begun {r : RunnerRun} {state : State γ} {line : Option (Message γ)} (call : isCall r line = true) (unset : state.failure = none)
    (going : state.ended = false) (few : state.calls < RunnerLimits.hostCalls) :
    ∃ asked, onLine r state line = answer {state with heard := state.heard ++ [line],calls := state.calls + 1} asked := by
  cases line with
  | none => cases call
  | some message =>
    simp only [isCall,Bool.and_eq_true,Bool.not_eq_true'] at call
    obtain ⟨⟨unreported,undone⟩,asks⟩ := call
    obtain ⟨asked,asks⟩ := Option.isSome_iff_exists.mp asks
    exact ⟨asked,by simp [onLine,unset,unreported,undone,going,asks,Nat.not_lt.mpr few]⟩

theorem report_taken {r : RunnerRun} {state : State γ} {line : Option (Message γ)} (report : isReport r line = true) (unset : state.failure = none) :
    ∃ reported, onLine r state line = {state with heard := state.heard ++ [line],reported} := by
  cases line with
  | none => cases report
  | some message =>
    simp only [isReport] at report
    refine ⟨message.runner,?_⟩
    simp only [onLine,unset,report]
    rfl

theorem late_lines {r : RunnerRun} {lines : List (Option (Message γ))} {state : State γ} {line : Option (Message γ)}
    (closed : state.aborted = true ∨ state.settled = true) (unset : state.failure = none) (going : state.ended = false)
    (few : state.calls < RunnerLimits.hostCalls) (first : lines.find? (fun line => !isReport r line) = some line) (call : isCall r line = true) :
    (lines.foldl (onLine r) state).late ≠ [] := by
  induction lines generalizing state with
  | nil => cases first
  | cons head rest ih =>
    rw [List.foldl_cons]
    by_cases report : isReport r head = true
    · rw [List.find?_cons_of_neg (by simp [report])] at first
      obtain ⟨reported,same⟩ := report_taken report unset
      rw [same]
      exact ih closed unset going few first
    · rw [List.find?_cons_of_pos (by simp [report])] at first
      cases Option.some.inj first
      obtain ⟨asked,same⟩ := call_begun call unset going few
      refine late_kept r rest ?_
      rw [same]
      have closing : ({state with heard := state.heard ++ [line],calls := state.calls + 1} : State γ).isOver = true := by
        rcases closed with aborted | settled
        · simp [State.isOver,aborted]
        · simp only [State.isOver,Bool.or_eq_true]
          exact .inr settled
      simp [answer,closing]

theorem timely_preserved (r : RunnerRun) : Preserved (step (γ := γ) r) (Permitted r) fun state => state.late = [] := by
  intro before action after timely allowed moved
  cases action with
  | chunk bytes lines =>
    rcases chunk_cases moved with ⟨_,rfl⟩ | ⟨within,rfl⟩
    · exact timely
    · refine Eq.trans ?_ timely
      by_cases deaf : Deaf before
      · exact deaf_lines deaf
      · simp only [Deaf,not_or,Nat.not_le,Bool.not_eq_true,Option.isSome_eq_false_iff,Option.isNone_iff_eq_none] at deaf
        obtain ⟨unset,going,few⟩ := deaf
        by_cases closed : before.aborted = true ∨ before.settled = true
        · exact quiet_lines (allowed closed unset going within few)
        · simp only [not_or,Bool.not_eq_true] at closed
          exact timely_lines closed.1 closed.2
  | settle call =>
    simp only [step] at moved
    split at moved
    · cases Option.some.inj moved
      exact timely
    · cases moved
  | close =>
    simp only [step] at moved
    split at moved
    · split at moved
      · cases Option.some.inj moved
        exact timely
      · cases moved
    · cases moved
  | timeout =>
    simp only [step] at moved
    split at moved
    · cases Option.some.inj moved
      exact timely
    · cases moved
  | abort =>
    simp only [step] at moved
    split at moved <;> (cases Option.some.inj moved; exact timely)
  | exit st =>
    simp only [step] at moved
    split at moved
    · cases Option.some.inj moved
      exact timely
    · cases moved
  | finish elapsed =>
    simp only [step] at moved
    split at moved
    · split at moved
      · cases Option.some.inj moved
        exact timely
      · cases moved
    · cases moved

theorem settles_resolved {r : RunnerRun} {state : State γ} {st : Ended} (resolved : settles r state st = .resolved) :
    state.failure = none ∧ state.outcome = some .ok := by
  unfold settles at resolved
  simp only at resolved
  split at resolved
  · cases resolved
  · next unset =>
    refine ⟨?_,?_⟩
    · cases failure : state.failure with
      | none => rfl
      | some why => simp [failure] at unset
    · split at resolved
      · next ok => exact ok
      · cases resolved
      · cases resolved

theorem resolved_whole {r : RunnerRun} {state after : State γ} {elapsed : Bool} (sound : Sound r state)
    (moved : step r state (.finish elapsed) = some after) (resolved : after.phase = .settled .resolved) : Whole r after := by
  simp only [step] at moved
  split at moved
  · next st waiting exited =>
    split at moved
    · cases Option.some.inj moved
      obtain ⟨unset,ok⟩ := settles_resolved (Phase.settled.inj resolved)
      obtain ⟨unkilled,calls,bytes⟩ := sound.unkilled unset
      have ended : state.ended = true := by
        by_contra going
        simpa [ok] using (sound.undecided (by simpa using going)).2
      have told := sound.told unset
      simp only [Told,ended,if_true] at told
      obtain ⟨earlier,message,later,heard,done,before,after,resulting⟩ := told
      have accepted : message.ok = true := by
        rcases resulting with ⟨_,wrong⟩ | ⟨_,same⟩
        · simp [ok] at wrong
        · have result := Option.some.inj (ok.symm.trans same)
          by_contra failed
          simp [Message.result,failed] at result
      exact ⟨⟨earlier,message,later,heard,done,accepted,before,after⟩,sound.answered (by simp [ok]),unkilled,calls,bytes⟩
    · cases moved
  · cases moved

theorem start_sound (r : RunnerRun) : Sound (γ := γ) r .start where
  counted := Nat.le_refl _
  few := Nat.zero_le _
  unkilled := fun _ => ⟨rfl,Nat.zero_le _,Nat.zero_le _⟩
  told := fun _ => (by simp [Told,State.start])
  undecided := fun _ => ⟨rfl,rfl⟩
  waited := fun _ _ wrong => (by cases wrong)
  answered := fun _ => rfl

theorem supervised {r : RunnerRun} {actions : List (Action γ)} {state : State γ} (path : run (step r) .start actions = some state) :
    (Guarded (step r) (Permitted r) .start actions → state.late = []) ∧
    (∀ elapsed after, step r state (.finish elapsed) = some after → after.phase = .settled .resolved → Whole r after) ∧
    state.executed.length ≤ RunnerLimits.hostCalls ∧
    ∀ bytes lines after, ¬Permitted r state (.chunk bytes lines) → step r state (.chunk bytes lines) = some after → after.late ≠ [] := by
  have sound : Sound r state := run_preserves (sound_preserved r) (start_sound r) (guarded_of_always fun _ _ => trivial) path
  refine ⟨?_,?_,sound.few,?_⟩
  · intro guarded
    have timely := run_preserves (timely_preserved r) rfl guarded path
    exact timely
  · intro elapsed after moved resolved
    exact resolved_whole sound moved resolved
  · intro bytes lines after refused moved
    simp only [Permitted,Classical.not_imp,not_forall,Bool.not_eq_false] at refused
    obtain ⟨closed,unset,going,within,few,line,first,call⟩ := refused
    rcases chunk_cases moved with ⟨tripped,_⟩ | ⟨_,rfl⟩
    · exact absurd within (Nat.not_le.mpr tripped)
    · exact late_lines closed unset going few first call

def oneCall : List (Action Nat) := [.chunk 30 [some ⟨none,false,false,none,some 7⟩],.settle 0,.chunk 30 [some ⟨none,true,true,none,none⟩],
  .close,.exit ⟨none,"exited with code 0",""⟩]

theorem oneCall_guarded : Guarded (step ⟨60,false⟩) (Permitted ⟨60,false⟩) .start oneCall := by
  refine guarded_cons (fun closed => ?_) rfl (guarded_cons trivial rfl (guarded_cons (fun closed => ?_) rfl (guarded_cons trivial rfl (guarded_cons trivial rfl trivial))))
  all_goals rcases closed with wrong | wrong <;> cases wrong

theorem supervised_oneCall : ∃ state, run (step ⟨60,false⟩) .start oneCall = some state ∧ state.late = [] ∧
    Whole ⟨60,false⟩ {state with phase := .settled .resolved} :=
  ⟨_,rfl,(@supervised Nat ⟨60,false⟩ oneCall _ rfl).1 oneCall_guarded,
    (@supervised Nat ⟨60,false⟩ oneCall _ rfl).2.1 false _ rfl rfl⟩

-- The process is gone before its last line is read: the run has failed, and the host call of that line is begun all the same.
theorem begun_late : ∃ state : State Nat, run (step ⟨60,false⟩) .start
    [.exit ⟨none,"exited with code 1",""⟩,.finish false,.chunk 30 [some ⟨none,false,false,none,some 7⟩]] = some state ∧
    state.phase = .settled (.rejected "the job process exited with code 1 before it ended" "") ∧ state.late = [7] :=
  ⟨_,rfl,rfl,rfl⟩

end
end Zveltio.JobRunner
