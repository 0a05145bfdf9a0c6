import Zveltio.Runs
import Mathlib.Data.List.Basic
namespace Zveltio.WebhookOutcomes
open Runs

abbrev Text := List UInt16

def DEFAULT_TENANT_ID : String := "00000000-0000-0000-0000-000000000001"

structure Payload where
  deliveryId : Option String
  tenantId : Option String
  retryAttempts : Option Nat

def Payload.maxAttempts (payload : Payload) : Nat := payload.retryAttempts.getD 3

def Payload.tenant (payload : Payload) : String := payload.tenantId.getD DEFAULT_TENANT_ID

-- What the POST of one attempt came to: an answer, with its body where that can be read, or an exception, with its message if it is an Error.
inductive Reply where
  | answered (status : Nat) (text : Option Text)
  | threw (message : Option String)
  deriving DecidableEq

structure Outcome where
  status : Option Nat
  response_body : Option Text
  error : Option String
  delivered_at : Option Int
  deriving DecidableEq

def Reply.ok : Reply → Bool
  | .answered status _ => 200 ≤ status && status ≤ 299
  | .threw _ => false

def deliver (reply : Reply) (now : Int) : Outcome × Bool :=
  match reply with
  | .answered status text => (⟨some status,text.map (·.take 2000),none,if reply.ok then some now else none⟩,reply.ok)
  | .threw message => (⟨none,none,some (message.getD "Request failed"),none⟩,false)

inductive Values where
  | outcome (values : Outcome)
  | attempt (count : Nat)
  deriving DecidableEq

-- An UPDATE of one delivery row, from the attempt that fired it.
structure Write where
  attempt : Nat
  id : String
  tenant : String
  values : Values
  deriving DecidableEq

structure Row where
  id : String
  tenant : String
  attempt : Nat
  outcome : Outcome

def Row.inserted (id tenant : String) : Row := ⟨id,tenant,1,⟨none,none,none,none⟩⟩

def recordOutcome (payload : Payload) (attempt : Nat) (values : Values) : List Write :=
  match payload.deliveryId with
  | some id => if id = "" then [] else [⟨attempt,id,payload.tenant,values⟩]
  | none => []

-- Under the tenant policy an UPDATE as another firm finds no row.
def Write.commit (write : Write) (row : Row) : Row :=
  if row.id = write.id ∧ row.tenant = write.tenant then
    match write.values with
    | .outcome values => {row with outcome := values}
    | .attempt count => {row with attempt := count}
  else row

inductive Phase where
  | delivering (attempt : Nat)
  | sleeping (attempt : Nat)
  | recording
  | returned (ok : Bool)
  deriving DecidableEq

-- flying are the transactions begun and not committed. made and committed watch the attempts and the commits, in their order.
structure State where
  phase : Phase
  flying : List Write
  row : Row
  made : List (Reply × Int)
  committed : List Write

def State.start (row : Row) : State := ⟨.delivering 0,[],row,[],[]⟩

inductive Action where
  | replies (reply : Reply) (now : Int)
  | wakes
  | commits (write : Write)
  | returns

def Values.counts : Values → Bool
  | .attempt _ => true
  | .outcome _ => false

-- One run of _deliverWithRetries: only the count written on giving up is awaited, every outcome is left in flight.
def step (payload : Payload) (state : State) : Action → Option State
  | .replies reply now =>
    match state.phase with
    | .delivering attempt =>
      let (values,ok) := deliver reply now
      let told := {state with
        made := state.made ++ [(reply,now)]
        flying := state.flying ++ recordOutcome payload attempt (.outcome values)}
      if ok then some {told with phase := .returned true}
      else if payload.maxAttempts ≤ attempt then
        some {told with phase := .recording,flying := told.flying ++ recordOutcome payload attempt (.attempt (attempt + 1))}
      else some {told with phase := .sleeping attempt}
    | _ => none
  | .wakes =>
    match state.phase with
    | .sleeping attempt => some {state with phase := .delivering (attempt + 1)}
    | _ => none
  | .commits write =>
    if write ∈ state.flying then
      some {state with
        flying := state.flying.erase write
        row := write.commit state.row
        committed := state.committed ++ [write]}
    else none
  | .returns =>
    match state.phase with
    | .recording => if state.flying.any (·.values.counts) then none else some {state with phase := .returned false}
    | _ => none

-- The row trigger inserted for the payload.
structure Own (payload : Payload) (row : Row) : Prop where
  identified : payload.deliveryId = some row.id
  given : row.id ≠ ""
  tenant : payload.tenant = row.tenant

def Reply.status : Reply → Option Nat
  | .answered status _ => some status
  | .threw _ => none

def Reply.error : Reply → Option String
  | .answered .. => none
  | .threw message => some (message.getD "Request failed")

def Tells (row : Row) (attempt : Reply × Int) : Prop :=
  row.outcome.status = attempt.1.status ∧ row.outcome.error = attempt.1.error ∧
    row.outcome.delivered_at = if attempt.1.ok then some attempt.2 else none

def State.TellsLast (state : State) : Prop := ∃ last, state.made.getLast? = some last ∧ Tells state.row last

def lastCommit (committed : List Write) : Option Nat :=
  ((committed.filter fun write => !write.values.counts).getLast?).map Write.attempt

-- What committed last is of the last attempt, or of one that failed as the last one did.
def State.InOrder (state : State) : Prop :=
  ∃ number earlier last, lastCommit state.committed = some number ∧ state.made[number]? = some earlier ∧
    state.made.getLast? = some last ∧
    (number + 1 = state.made.length ∨ last.1.ok = false ∧ earlier.1.status = last.1.status ∧ earlier.1.error = last.1.error)

theorem deliver_status (reply : Reply) (now : Int) : (deliver reply now).1.status = reply.status := by cases reply <;> rfl

theorem deliver_error (reply : Reply) (now : Int) : (deliver reply now).1.error = reply.error := by cases reply <;> rfl

theorem deliver_at (reply : Reply) (now : Int) : (deliver reply now).1.delivered_at = if reply.ok then some now else none := by cases reply <;> rfl

theorem deliver_ok (reply : Reply) (now : Int) : (deliver reply now).2 = reply.ok := by cases reply <;> rfl

theorem recordOutcome_own {payload : Payload} {row : Row} (own : Own payload row) (attempt : Nat) (values : Values) :
    recordOutcome payload attempt values = [⟨attempt,row.id,row.tenant,values⟩] := by
  simp [recordOutcome,own.identified,own.given,own.tenant]

theorem commit_kept (write : Write) (row : Row) : (write.commit row).id = row.id ∧ (write.commit row).tenant = row.tenant := by
  unfold Write.commit
  split
  · cases write.values <;> exact ⟨rfl,rfl⟩
  · exact ⟨rfl,rfl⟩

theorem commit_outcome {write : Write} {row : Row} (same : row.id = write.id ∧ row.tenant = write.tenant)
    (values : write.values = .outcome outcome) : (write.commit row).outcome = outcome := by
  simp [Write.commit,same,values]

theorem commit_count {write : Write} {row : Row} (counts : write.values.counts = true) : (write.commit row).outcome = row.outcome := by
  unfold Write.commit
  split
  · cases values : write.values with
    | outcome _ => simp [values,Values.counts] at counts
    | attempt _ => rfl
  · rfl

theorem counts_outcome {values : Values} (outcome : values.counts = false) : ∃ told, values = .outcome told := by
  cases values with
  | outcome told => exact ⟨told,rfl⟩
  | attempt _ => cases outcome

def State.writes (state : State) : List Write := state.flying ++ state.committed

def Phased (phase : Phase) (made : Nat) : Prop :=
  match phase with
  | .delivering attempt => made = attempt
  | .sleeping attempt => made = attempt + 1
  | .recording => True
  | .returned _ => True

-- Each attempt made has its outcome in flight or committed, and the row shows what committed last.
structure Sound (payload : Payload) (state : State) : Prop where
  own : Own payload state.row
  phased : Phased state.phase state.made.length
  failed : ∀ (number : Nat) attempt, state.made[number]? = some attempt → attempt.1.ok = true → state.phase = .returned true ∧ number + 1 = state.made.length
  placed : ∀ write ∈ state.writes, state.row.id = write.id ∧ state.row.tenant = write.tenant
  told : ∀ write ∈ state.writes, ∀ values, write.values = .outcome values →
    ∃ attempt, state.made[write.attempt]? = some attempt ∧ values = (deliver attempt.1 attempt.2).1
  each : ∀ number < state.made.length, ∃ write ∈ state.writes, write.attempt = number ∧ write.values.counts = false
  shown : ∀ write, (state.committed.filter fun write => !write.values.counts).getLast? = some write → write.values = .outcome state.row.outcome

theorem start_sound (own : Own payload row) : Sound payload (State.start row) := by
  refine ⟨own,rfl,?_,?_,?_,?_,?_⟩ <;> simp [State.start,State.writes]

theorem Sound.moved (sound : Sound payload state) (phased : Phased phase state.made.length) (open_ : state.phase ≠ .returned true) :
    Sound payload {state with phase := phase} := by
  refine ⟨sound.own,phased,?_,sound.placed,sound.told,sound.each,sound.shown⟩
  intro number attempt found ok
  exact absurd (sound.failed number attempt found ok).1 open_

theorem Sound.answered (sound : Sound payload state) (delivering : state.phase = .delivering attempt) (reply : Reply) (now : Int)
    (phased : Phased phase (attempt + 1)) (ended : reply.ok = true → phase = .returned true)
    (counted : ∀ write ∈ counts, write.values.counts = true ∧ state.row.id = write.id ∧ state.row.tenant = write.tenant) :
    Sound payload {state with
      phase := phase
      made := state.made ++ [(reply,now)]
      flying := state.flying ++ ⟨attempt,state.row.id,state.row.tenant,.outcome (deliver reply now).1⟩::counts} := by
  have length : state.made.length = attempt := by
    have now := sound.phased
    rw [delivering] at now
    exact now
  refine ⟨sound.own,?_,?_,?_,?_,?_,sound.shown⟩
  · rw [List.length_append,length]
    exact phased
  · intro number one found ok
    by_cases last : number = state.made.length
    · subst last
      rw [List.getElem?_concat_length,Option.some.injEq] at found
      subst found
      exact ⟨ended ok,by simp⟩
    · have bound : number < state.made.length := by
        have within := (List.getElem?_eq_some_iff.mp found).1
        simp only [List.length_append,List.length_singleton] at within
        omega
      rw [List.getElem?_append_left bound] at found
      have earlier := sound.failed number one found ok
      rw [delivering] at earlier
      cases earlier.1
  · intro write member
    simp only [State.writes,List.mem_append,List.mem_cons] at member
    rcases member with (flying | rfl | count) | committed
    · exact sound.placed write (List.mem_append_left _ flying)
    · exact ⟨rfl,rfl⟩
    · exact (counted write count).2
    · exact sound.placed write (List.mem_append_right _ committed)
  · intro write member values same
    have old : write ∈ state.writes → ∃ one, (state.made ++ [(reply,now)])[write.attempt]? = some one ∧ values = (deliver one.1 one.2).1 := by
      intro there
      obtain ⟨one,found,told⟩ := sound.told write there values same
      exact ⟨one,by rw [List.getElem?_append_left (List.getElem?_eq_some_iff.mp found).1,found],told⟩
    simp only [State.writes,List.mem_append,List.mem_cons] at member
    rcases member with (flying | rfl | count) | committed
    · exact old (List.mem_append_left _ flying)
    · cases same
      exact ⟨(reply,now),by simp [← length],rfl⟩
    · have counts := (counted write count).1
      rw [same] at counts
      cases counts
    · exact old (List.mem_append_right _ committed)
  · intro number bound
    simp only [List.length_append,List.length_singleton] at bound
    by_cases earlier : number < state.made.length
    · obtain ⟨write,member,own,outcome⟩ := sound.each number earlier
      refine ⟨write,?_,own,outcome⟩
      rcases List.mem_append.mp member with flying | committed
      · exact List.mem_append_left _ (List.mem_append_left _ flying)
      · exact List.mem_append_right _ committed
    · refine ⟨⟨attempt,state.row.id,state.row.tenant,.outcome (deliver reply now).1⟩,?_,by simp only; omega,rfl⟩
      simp [State.writes]

theorem Sound.committed (sound : Sound payload state) (flying : write ∈ state.flying) :
    Sound payload {state with
      flying := state.flying.erase write
      row := write.commit state.row
      committed := state.committed ++ [write]} := by
  have kept := commit_kept write state.row
  have same : ∀ other, other ∈ state.flying.erase write ++ (state.committed ++ [write]) ↔ other ∈ state.writes := by
    intro other
    simp only [State.writes,List.mem_append,List.mem_singleton]
    by_cases own : other = write
    · subst own
      simp [flying]
    · simp [own,List.mem_erase_of_ne own]
  have here := sound.placed write (List.mem_append_left _ flying)
  refine ⟨?_,sound.phased,sound.failed,?_,?_,?_,?_⟩
  · exact ⟨by rw [kept.1]; exact sound.own.identified,by rw [kept.1]; exact sound.own.given,by rw [kept.2]; exact sound.own.tenant⟩
  · intro other member
    rw [kept.1,kept.2]
    exact sound.placed other ((same other).mp member)
  · intro other member
    exact sound.told other ((same other).mp member)
  · intro number bound
    obtain ⟨other,member,own⟩ := sound.each number bound
    exact ⟨other,(same other).mpr member,own⟩
  · intro last found
    rw [List.filter_append] at found
    cases counts : write.values.counts with
    | true =>
      simp only [List.filter_cons,counts,Bool.not_true,Bool.false_eq_true,if_false,List.filter_nil,List.append_nil] at found
      rw [commit_count counts]
      exact sound.shown last found
    | false =>
      obtain ⟨outcome,values⟩ := counts_outcome counts
      simp only [List.filter_cons,counts,Bool.not_false,if_true,List.filter_nil,List.getLast?_concat,Option.some.injEq] at found
      subst found
      rw [values,commit_outcome here values]

theorem step_sound (payload : Payload) : Preserved (step payload) (fun _ _ => True) (Sound payload) := by
  intro before action after sound _ moved
  cases action with
  | replies reply now =>
    simp only [step] at moved
    split at moved
    · rename_i attempt delivering
      rw [recordOutcome_own sound.own,recordOutcome_own sound.own,deliver_ok] at moved
      split at moved
      · rename_i ok
        cases moved
        exact sound.answered delivering reply now trivial (fun _ => rfl) (by simp)
      · rename_i failed
        split at moved
        · cases moved
          rw [List.append_assoc]
          exact sound.answered delivering reply now trivial (fun ok => absurd ok failed) (by simp [Values.counts])
        · cases moved
          exact sound.answered delivering reply now rfl (fun ok => absurd ok failed) (by simp)
    · cases moved
  | wakes =>
    simp only [step] at moved
    split at moved
    · rename_i attempt sleeping
      cases moved
      have length := sound.phased
      rw [sleeping] at length
      exact sound.moved length (by simp [sleeping])
    · cases moved
  | commits write =>
    simp only [step] at moved
    split at moved
    · rename_i flying
      cases moved
      exact sound.committed flying
    · cases moved
  | returns =>
    simp only [step] at moved
    split at moved
    · rename_i recording
      split at moved
      · cases moved
      · cases moved
        exact sound.moved trivial (by simp [recording])
    · cases moved

theorem run_sound (own : Own payload row) (path : run (step payload) (State.start row) actions = some after) : Sound payload after :=
  run_preserves (step_sound payload) (start_sound own) (guarded_of_always fun _ _ => trivial) path

theorem Sound.settled (sound : Sound payload state) (settled : state.flying = []) (made : state.made ≠ []) :
    ∃ number earlier, lastCommit state.committed = some number ∧ state.made[number]? = some earlier ∧
      state.row.outcome = (deliver earlier.1 earlier.2).1 := by
  have writes : state.writes = state.committed := by simp [State.writes,settled]
  obtain ⟨write,member,-,outcome⟩ := sound.each (state.made.length - 1) (by have := List.length_pos_iff.mpr made; omega)
  rw [writes] at member
  have kept : write ∈ state.committed.filter fun write => !write.values.counts := List.mem_filter.mpr ⟨member,by simp [outcome]⟩
  have found := List.getLast?_eq_some_getLast (List.ne_nil_of_mem kept)
  generalize List.getLast _ (List.ne_nil_of_mem kept) = last at found
  have committed := (List.mem_filter.mp (List.mem_of_getLast? found)).1
  have values := sound.shown last found
  obtain ⟨earlier,attempt,told⟩ := sound.told last (writes ▸ committed) _ values
  exact ⟨last.attempt,earlier,by simp [lastCommit,found],attempt,told⟩

theorem tells_iff {row : Row} {earlier : Reply × Int} (told : row.outcome = (deliver earlier.1 earlier.2).1) (last : Reply × Int) :
    Tells row last ↔ earlier.1.status = last.1.status ∧ earlier.1.error = last.1.error ∧
      (if earlier.1.ok then some earlier.2 else none) = if last.1.ok then some last.2 else none := by
  rw [Tells,told,deliver_status,deliver_error,deliver_at]

theorem row_tells_last (own : Own payload row) (path : run (step payload) (State.start row) actions = some after)
    (settled : after.flying = []) : after.TellsLast ↔ after.InOrder := by
  have sound := run_sound own path
  cases found : after.made.getLast? with
  | none => simp [State.TellsLast,State.InOrder,found]
  | some last =>
    have made : after.made ≠ [] := by
      intro none
      simp [none] at found
    have final : after.made[after.made.length - 1]? = some last := by rw [← List.getLast?_eq_getElem?,found]
    obtain ⟨number,earlier,commit,attempt,told⟩ := sound.settled settled made
    have bound := (List.getElem?_eq_some_iff.mp attempt).1
    have tells : after.TellsLast ↔ Tells after.row last := by simp [State.TellsLast,found]
    have order : after.InOrder ↔
        number + 1 = after.made.length ∨ last.1.ok = false ∧ earlier.1.status = last.1.status ∧ earlier.1.error = last.1.error := by
      constructor
      · rintro ⟨_,_,_,commits,attempts,ends,order⟩
        cases commit.symm.trans commits
        cases attempt.symm.trans attempts
        cases found.symm.trans ends
        exact order
      · exact fun order => ⟨number,earlier,last,commit,attempt,found,order⟩
    rw [tells,order,tells_iff told]
    by_cases own : number + 1 = after.made.length
    · have same : earlier = last := by
        have number : number = after.made.length - 1 := by omega
        rw [number,final] at attempt
        exact (Option.some.inj attempt).symm
      simp [own,same]
    · have failed : earlier.1.ok = false := by
        cases ok : earlier.1.ok with
        | false => rfl
        | true => exact absurd (sound.failed number earlier attempt ok).2 own
      cases ok : last.1.ok <;> simp [own,failed]

def overtaken : List Action :=
  let first : Write := ⟨0,"d","t",.outcome (deliver (.answered 500 none) 10).1⟩
  let second : Write := ⟨1,"d","t",.outcome (deliver (.answered 200 none) 1010).1⟩
  [.replies (.answered 500 none) 10,.wakes,.replies (.answered 200 none) 1010,.commits second,.commits first]

def inTurn : List Action :=
  let first : Write := ⟨0,"d","t",.outcome (deliver (.answered 500 none) 10).1⟩
  let second : Write := ⟨1,"d","t",.outcome (deliver (.answered 200 none) 1010).1⟩
  [.replies (.answered 500 none) 10,.wakes,.commits first,.replies (.answered 200 none) 1010,.commits second]

def oneRetry : Payload := ⟨some "d",some "t",some 1⟩

theorem oneRetry_own : Own oneRetry (Row.inserted "d" "t") := ⟨rfl,by decide,rfl⟩

theorem row_tells_last_in_turn : ∃ after, run (step oneRetry) (State.start (Row.inserted "d" "t")) inTurn = some after ∧
    after.flying = [] ∧ (after.TellsLast ↔ after.InOrder) := by
  refine ⟨_,rfl,rfl,?_⟩
  exact row_tells_last oneRetry_own (show run (step oneRetry) _ inTurn = some _ from rfl) rfl

-- The second attempt was delivered and the row says that it was not.
theorem overtaken_lost : ¬ ∀ (payload : Payload) (row : Row) (actions : List Action) (after : State) (ok : Bool), Own payload row →
    run (step payload) (State.start row) actions = some after → after.phase = .returned ok → after.flying = [] → after.TellsLast := by
  intro always
  obtain ⟨last,found,-,-,delivered⟩ := always oneRetry (Row.inserted "d" "t") overtaken _ true oneRetry_own rfl rfl rfl
  cases found
  cases delivered

end Zveltio.WebhookOutcomes
