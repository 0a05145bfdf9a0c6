import Mathlib.Algebra.Order.BigOperators.Group.List
import Mathlib.Algebra.Order.Ring.Nat
import Zveltio.Runs
import Zveltio.Parties
namespace Zveltio.InOrder
open Runs Parties

-- What Promise.race has: nothing yet, the verdict (false where it rejected), or the timer.
inductive Status where
  | undecided
  | settled (ok : Bool)
  | timedOut
  deriving DecidableEq

-- Where a call's chain of promises is. queued: behind what queue.pending was then, or behind nothing; asked: its first then has
-- run and waits for the race; answered: its send has run or was left out; finished: next has settled; cleared: and its last then has run.
inductive Phase where
  | refused | direct
  | queued (behind : Option Nat)
  | asked | answered | finished | cleared
  deriving DecidableEq

structure Call where
  status : Status
  phase : Phase
  deadline : Nat
  deriving DecidableEq

-- A call is its place in calls; sent watches the sends.
structure State where
  now : Nat
  calls : List Call
  pending : Option Nat
  sent : List Nat
  deriving DecidableEq

def State.start : State := ⟨0,[],none,[]⟩

-- verdict: true, false, or a promise. outcome: what the promise resolves to, or that it rejects. The rest but tick are microtasks.
inductive Action where
  | inOrder (verdict : Option Bool) (timeoutMs : Nat)
  | settle (call : Nat) (outcome : Option Bool)
  | timeout (call : Nat)
  | ask (call : Nat)
  | answer (call : Nat)
  | finish (call : Nat)
  | clear (call : Nat)
  | tick (elapsed : Nat)

def State.change (state : State) (place : Nat) (call : Call) : State := {state with calls := state.calls.modify place fun _ => call}

def ended : Phase → Bool
  | .finished => true
  | .cleared => true
  | _ => false

def ready (calls : List Call) (call : Call) : Bool := match call.phase with
  | .queued none => true
  | .queued (some behind) => (calls[behind]?).any fun before => ended before.phase
  | .asked => call.status ≠ .undecided
  | .answered => true
  | .finished => true
  | _ => false

def State.drained (state : State) : Bool := state.calls.all fun call => !ready state.calls call

def admitted (call : Call) : Bool := call.status = .settled true

def inOrder (state : State) (verdict : Option Bool) (timeoutMs : Nat) : State :=
  let place := state.calls.length
  if verdict = some false then {state with calls := state.calls ++ [⟨.settled false,.refused,state.now⟩]}
  else if verdict = some true ∧ state.pending = none then
    {state with calls := state.calls ++ [⟨.settled true,.direct,state.now⟩],sent := state.sent ++ [place]}
  else {state with
    calls := state.calls ++ [⟨if verdict = some true then .settled true else .undecided,.queued state.pending,state.now + timeoutMs⟩]
    pending := some place}

-- A send that throws is caught behind it, so it counts as any other. Time passes when no microtask is left; a timer is late by no more
-- than late.
def step (late : Nat) (state : State) : Action → Option State
  | .inOrder verdict timeoutMs => some (inOrder state verdict timeoutMs)
  | .settle place outcome => (state.calls[place]?).bind fun call =>
    if call.status = .undecided then some (state.change place {call with status := .settled (outcome = some true)}) else none
  | .timeout place => (state.calls[place]?).bind fun call =>
    if call.status = .undecided ∧ call.deadline ≤ state.now then some (state.change place {call with status := .timedOut}) else none
  | .ask place => (state.calls[place]?).bind fun call => match call.phase with
    | .queued _ => if ready state.calls call then some (state.change place {call with phase := .asked}) else none
    | _ => none
  | .answer place => (state.calls[place]?).bind fun call =>
    if call.phase = .asked ∧ ready state.calls call then
      let answered := state.change place {call with phase := .answered}
      some (if admitted call then {answered with sent := answered.sent ++ [place]} else answered)
    else none
  | .finish place => (state.calls[place]?).bind fun call =>
    if call.phase = .answered then some (state.change place {call with phase := .finished}) else none
  | .clear place => (state.calls[place]?).bind fun call =>
    if call.phase = .finished then
      let cleared := state.change place {call with phase := .cleared}
      some {cleared with pending := if state.pending = some place then none else state.pending}
    else none
  | .tick elapsed =>
    if state.drained ∧ ∀ call ∈ state.calls, call.status = .undecided → state.now + elapsed ≤ call.deadline + late then
      some {state with now := state.now + elapsed}
    else none

def past : Phase → Bool
  | .refused => true
  | .direct => true
  | .finished => true
  | .cleared => true
  | _ => false

def chained : Phase → Bool
  | .refused => false
  | .direct => false
  | _ => true

def begun : Phase → Bool
  | .refused => false
  | .queued _ => false
  | _ => true

def sending : Phase → Bool
  | .direct => true
  | .answered => true
  | .finished => true
  | .cleared => true
  | _ => false

def delivered (call : Call) : Bool := admitted call && sending call.phase

def PastAt (calls : List Call) (place : Nat) : Prop := ∀ call, calls[place]? = some call → past call.phase = true

-- The chain of promises: whoever has begun has only calls in front that are past, whoever waits does so behind the last one there was.
structure Chain (calls : List Call) (pending : Option Nat) : Prop where
  begun : ∀ (place : Nat) call, calls[place]? = some call → begun call.phase = true → ∀ before < place, PastAt calls before
  first : ∀ (place : Nat) call, calls[place]? = some call → call.phase = .queued none → ∀ before < place, PastAt calls before
  behind : ∀ (place : Nat) call last, calls[place]? = some call → call.phase = .queued (some last) → last < place ∧
    (∃ other, calls[last]? = some other ∧ chained other.phase = true) ∧ ∀ between, last < between → between < place → PastAt calls between
  tail : ∀ last, pending = some last → (∃ other, calls[last]? = some other ∧ chained other.phase = true) ∧
    ∀ later, last < later → PastAt calls later
  idle : pending = none → ∀ place, PastAt calls place

section
variable {calls : List Call} {pending : Option Nat} {place : Nat} {call next : Call}

theorem past_change (found : calls[place]? = some call) (mono : past call.phase = true → past next.phase = true) (other : Nat)
    (before : PastAt calls other) : PastAt (calls.modify place fun _ => next) other := by
  intro item there
  rw [get_changed found] at there
  split at there
  · next here =>
    cases there
    exact mono (before call (here ▸ found))
  · exact before item there

theorem chained_change {other : Nat} (found : calls[place]? = some call) (same : chained call.phase = true → chained next.phase = true)
    (held : ∃ item : Call, calls[other]? = some item ∧ chained item.phase = true) :
    ∃ item : Call, (calls.modify place fun _ => next)[other]? = some item ∧ chained item.phase = true := by
  obtain ⟨item,there,chains⟩ := held
  rw [get_changed found]
  split
  · next here =>
    subst here
    cases Option.some.inj (found.symm.trans there)
    exact ⟨next,rfl,same chains⟩
  · exact ⟨item,there,chains⟩

theorem change_chain (chain : Chain calls pending) (found : calls[place]? = some call) (mono : past call.phase = true → past next.phase = true)
    (same : chained call.phase = true → chained next.phase = true)
    (begins : begun next.phase = true → begun call.phase = true ∨ ∀ before < place, PastAt calls before)
    (queues : ∀ behind, next.phase = .queued behind → call.phase = .queued behind) : Chain (calls.modify place fun _ => next) pending := by
  have keep := past_change found mono
  have old {other : Nat} {item : Call} (there : (calls.modify place fun _ => next)[other]? = some item) :
      (place = other ∧ item = next) ∨ calls[other]? = some item := by
    rw [get_changed found] at there
    split at there
    · next here => exact .inl ⟨here,(Option.some.inj there).symm⟩
    · exact .inr there
  refine ⟨fun other item there starts before less => keep before ?_,fun other item there waits before less => keep before ?_,
    fun other item last there waits => ?_,fun last held => ?_,fun none other => keep other (chain.idle none other)⟩
  · rcases old there with ⟨rfl,rfl⟩ | there
    · rcases begins starts with was | all
      · exact chain.begun place call found was before less
      · exact all before less
    · exact chain.begun other item there starts before less
  · rcases old there with ⟨rfl,rfl⟩ | there
    · exact chain.first place call found (queues _ waits) before less
    · exact chain.first other item there waits before less
  · have held : last < other ∧ (∃ item : Call, calls[last]? = some item ∧ chained item.phase = true) ∧
        ∀ between, last < between → between < other → PastAt calls between := by
      rcases old there with ⟨rfl,rfl⟩ | there
      · exact chain.behind place call last found (queues _ waits)
      · exact chain.behind other item last there waits
    exact ⟨held.1,chained_change found same held.2.1,fun between after before => keep between (held.2.2 between after before)⟩
  · obtain ⟨chains,later⟩ := chain.tail last held
    exact ⟨chained_change found same chains,fun other after => keep other (later other after)⟩

theorem chained_added (calls : List Call) (item : Call) {other : Nat} (held : ∃ found : Call, calls[other]? = some found ∧ chained found.phase = true) :
    ∃ found : Call, (calls ++ [item])[other]? = some found ∧ chained found.phase = true := by
  obtain ⟨found,there,chains⟩ := held
  have inside := (List.getElem?_eq_some_iff.mp there).1
  exact ⟨found,by rw [get_added,if_neg (Nat.ne_of_lt inside)]; exact there,chains⟩

theorem place_inside {calls : List Call} {call : Call} {place : Nat} (found : calls[place]? = some call) : place < calls.length :=
  (List.getElem?_eq_some_iff.mp found).1

theorem append_chain (chain : Chain calls pending) (item : Call) (tail : Option Nat)
    (shape : past item.phase = true ∧ tail = pending ∧ (begun item.phase = true → pending = none) ∨
      item.phase = .queued pending ∧ tail = some calls.length) : Chain (calls ++ [item]) tail := by
  have old {other : Nat} {found : Call} (there : (calls ++ [item])[other]? = some found) :
      (other = calls.length ∧ found = item) ∨ calls[other]? = some found := by
    rw [get_added] at there
    split at there
    · next here => exact .inl ⟨here,(Option.some.inj there).symm⟩
    · exact .inr there
  have keep {other : Nat} (before : PastAt calls other) (last : past item.phase = true ∨ other < calls.length) :
      PastAt (calls ++ [item]) other := by
    intro found there
    rcases old there with ⟨here,rfl⟩ | there
    · exact last.resolve_right (here ▸ Nat.lt_irrefl _)
    · exact before found there
  refine ⟨fun other found there starts before less => ?_,fun other found there waits before less => ?_,
    fun other found last there waits => ?_,fun last held => ?_,fun none other => ?_⟩
  · rcases old there with ⟨rfl,rfl⟩ | there
    · rcases shape with ⟨_,_,idle⟩ | ⟨queued,_⟩
      · exact keep (chain.idle (idle starts) before) (.inr less)
      · rw [queued] at starts
        cases starts
    · exact keep (chain.begun other found there starts before less) (.inr (Nat.lt_trans less (place_inside there)))
  · rcases old there with ⟨rfl,rfl⟩ | there
    · rcases shape with ⟨ends,_,_⟩ | ⟨queued,_⟩
      · rw [waits] at ends
        cases ends
      · cases queued.symm.trans waits
        exact keep (chain.idle rfl before) (.inr less)
    · exact keep (chain.first other found there waits before less) (.inr (Nat.lt_trans less (place_inside there)))
  · rcases old there with ⟨rfl,rfl⟩ | there
    · rcases shape with ⟨ends,_,_⟩ | ⟨queued,_⟩
      · rw [waits] at ends
        cases ends
      · cases queued.symm.trans waits
        obtain ⟨chains,later⟩ := chain.tail last rfl
        obtain ⟨known,here,_⟩ := chains
        exact ⟨place_inside here,chained_added calls _ (chain.tail last rfl).1,fun between after before => keep (later between after) (.inr before)⟩
    · obtain ⟨less,chains,between⟩ := chain.behind other found last there waits
      exact ⟨less,chained_added calls _ chains,fun place after before => keep (between place after before)
        (.inr (Nat.lt_trans before (place_inside there)))⟩
  · rcases shape with ⟨ends,same,_⟩ | ⟨queued,new⟩
    · obtain ⟨chains,later⟩ := chain.tail last (same ▸ held)
      exact ⟨chained_added calls _ chains,fun other after => keep (later other after) (.inl ends)⟩
    · cases Option.some.inj (new.symm.trans held)
      refine ⟨⟨item,by rw [get_added,if_pos rfl],by rw [queued]; rfl⟩,fun other after found there => ?_⟩
      have inside := place_inside there
      rw [List.length_append,List.length_singleton] at inside
      omega
  · rcases shape with ⟨ends,same,_⟩ | ⟨_,new⟩
    · exact keep (chain.idle (same ▸ none) other) (.inl ends)
    · cases new.symm.trans none

end

structure Sound (late : Nat) (state : State) : Prop where
  chain : Chain state.calls state.pending
  sorted : state.sent.Pairwise (· < ·)
  listed : Lists delivered state.calls state.sent
  decided : ∀ call ∈ state.calls, sending call.phase = true → call.status ≠ .undecided
  timely : ∀ call ∈ state.calls, call.status = .undecided → state.now ≤ call.deadline + late
  refusing : ∀ call ∈ state.calls, call.phase = .refused → call.status = .settled false

section
variable {late : Nat} {state after : State} {place : Nat} {call next : Call}

theorem mem_change {calls : List Call} (member : item ∈ calls.modify place fun _ => next) :
    item = next ∨ item ∈ calls := by
  obtain ⟨old,before,same | ⟨_,same⟩⟩ := mem_modify member
  · exact .inr (same ▸ before)
  · exact .inl same

theorem decide_sound (sound : Sound late state) (found : state.calls[place]? = some call) (undecided : call.status = .undecided)
    {status : Status} (decided : status ≠ .undecided) : Sound late (state.change place {call with status}) := by
  have unsent : sending call.phase = false := Bool.eq_false_iff.mpr fun sends =>
    sound.decided call (List.mem_of_getElem? found) sends undecided
  have same : delivered {call with status} = delivered call := by
    rw [delivered,delivered,unsent,Bool.and_false,Bool.and_false]
  refine ⟨change_chain sound.chain found id id .inl fun _ => id,sound.sorted,lists_same sound.listed found same,fun item member sends => ?_,
    fun item member open' => ?_,fun item member refused => ?_⟩
  · rcases mem_change member with rfl | old
    · exact decided
    · exact sound.decided item old sends
  · rcases mem_change member with rfl | old
    · exact absurd open' decided
    · exact sound.timely item old open'
  · rcases mem_change member with rfl | old
    · cases undecided.symm.trans (sound.refusing call (List.mem_of_getElem? found) refused)
    · exact sound.refusing item old refused

theorem advance_sound (sound : Sound late state) (found : state.calls[place]? = some call) {phase : Phase}
    (mono : past call.phase = true → past phase = true) (same : chained call.phase = true → chained phase = true)
    (begins : begun phase = true → begun call.phase = true ∨ ∀ before < place, PastAt state.calls before)
    (queues : ∀ behind, phase = .queued behind → call.phase = .queued behind) (sends : sending phase = sending call.phase)
    (goes : phase ≠ .refused) : Sound late (state.change place {call with phase}) := by
  refine ⟨change_chain sound.chain found mono same begins queues,sound.sorted,lists_same sound.listed found ?_,fun item member sends' => ?_,
    fun item member open' => ?_,fun item member refused => ?_⟩
  · rw [delivered,delivered,sends]
    rfl
  · rcases mem_change member with rfl | old
    · exact sound.decided call (List.mem_of_getElem? found) (sends ▸ sends')
    · exact sound.decided item old sends'
  · rcases mem_change member with rfl | old
    · exact sound.timely call (List.mem_of_getElem? found) open'
    · exact sound.timely item old open'
  · rcases mem_change member with rfl | old
    · exact absurd refused goes
    · exact sound.refusing item old refused

theorem answer_sound (sound : Sound late state) (found : state.calls[place]? = some call) (asked : call.phase = .asked)
    (decided : call.status ≠ .undecided) :
    Sound late (if admitted call then {state.change place {call with phase := .answered} with sent := state.sent ++ [place]}
      else state.change place {call with phase := .answered}) := by
  have unsent : delivered call = false := by
    rw [delivered,asked]
    exact Bool.and_false _
  have chain : Chain (state.calls.modify place fun _ => {call with phase := .answered}) state.pending := by
    refine change_chain sound.chain found (fun ends => ?_) (fun _ => rfl) (fun _ => .inl ?_) fun _ wrong => (nomatch wrong)
    · rw [asked] at ends
      cases ends
    · rw [asked]
      rfl
  have settled : ∀ item ∈ state.calls.modify place fun _ => {call with phase := .answered}, sending item.phase = true → item.status ≠ .undecided := by
    intro item member sends
    rcases mem_change member with rfl | old
    · exact decided
    · exact sound.decided item old sends
  have timely : ∀ item ∈ state.calls.modify place fun _ => {call with phase := .answered}, item.status = .undecided → state.now ≤ item.deadline + late := by
    intro item member open'
    rcases mem_change member with rfl | old
    · exact absurd open' decided
    · exact sound.timely item old open'
  have refusing : ∀ item ∈ state.calls.modify place fun _ => {call with phase := .answered}, item.phase = .refused → item.status = .settled false := by
    intro item member refused
    rcases mem_change member with rfl | old
    · cases refused
    · exact sound.refusing item old refused
  split
  · next yes =>
    refine ⟨chain,List.pairwise_append.mpr ⟨sound.sorted,List.pairwise_singleton _ _,fun one sent last here => ?_⟩,
      lists_joins sound.listed found unsent (by rw [delivered]; exact Bool.and_eq_true_iff.mpr ⟨yes,rfl⟩),settled,timely,refusing⟩
    rw [List.mem_singleton.mp here]
    -- A later call that is sent has begun, so this one would be past.
    refine Nat.lt_of_not_le fun more => ?_
    obtain ⟨other,there,done⟩ := (Option.any_eq_true _ _).mp ((sound.listed.each one).mp sent)
    rcases Nat.lt_or_eq_of_le more with less | same
    · have started : begun other.phase = true := by
        have sends := (Bool.and_eq_true_iff.mp done).2
        revert sends
        cases other.phase <;> first | exact fun _ => rfl | exact fun wrong => wrong
      have passed := sound.chain.begun one other there started place less call found
      rw [asked] at passed
      cases passed
    · subst same
      cases Option.some.inj (found.symm.trans there)
      exact absurd (unsent.symm.trans done) Bool.false_ne_true
  · next no =>
    refine ⟨chain,sound.sorted,lists_same sound.listed found ?_,settled,timely,refusing⟩
    rw [unsent,delivered]
    exact Bool.and_eq_false_iff.mpr (.inl (Bool.not_eq_true _ ▸ no))

theorem clear_sound (sound : Sound late state) (found : state.calls[place]? = some call) (ends : call.phase = .finished) :
    Sound late {state.change place {call with phase := .cleared} with pending := if state.pending = some place then none else state.pending} := by
  have moved : Sound late (state.change place {call with phase := .cleared}) := by
    refine advance_sound sound found (fun _ => rfl) (fun _ => rfl) (fun _ => .inl ?_) (fun _ wrong => (nomatch wrong)) ?_ fun wrong => (nomatch wrong)
    · rw [ends]
      rfl
    · rw [ends]
      rfl
  refine ⟨?_,moved.sorted,moved.listed,moved.decided,moved.timely,moved.refusing⟩
  by_cases last : state.pending = some place
  · have chain := moved.chain
    rw [if_pos last]
    refine ⟨chain.begun,chain.first,chain.behind,fun _ wrong => (nomatch wrong),fun _ other => ?_⟩
    rcases Nat.lt_trichotomy other place with before | same | after
    · refine chain.begun place {call with phase := .cleared} ?_ rfl other before
      exact (get_changed found _ place).trans (if_pos rfl)
    · intro item there
      subst same
      cases ((get_changed found _ other).trans (if_pos rfl)).symm.trans there
      rfl
    · exact (chain.tail place last).2 other after
  · rw [if_neg last]
    exact moved.chain

theorem inOrder_sound (sound : Sound late state) (verdict : Option Bool) (timeoutMs : Nat) : Sound late (inOrder state verdict timeoutMs) := by
  have decided {item : Call} (safe : sending item.phase = true → item.status ≠ .undecided) :
      ∀ call ∈ state.calls ++ [item], sending call.phase = true → call.status ≠ .undecided := by
    intro call member
    rcases List.mem_append.mp member with old | new
    · exact sound.decided call old
    · rw [List.mem_singleton.mp new]
      exact safe
  have timely {item : Call} (ahead : item.status = .undecided → state.now ≤ item.deadline + late) :
      ∀ call ∈ state.calls ++ [item], call.status = .undecided → state.now ≤ call.deadline + late := by
    intro call member open'
    rcases List.mem_append.mp member with old | new
    · exact sound.timely call old open'
    · cases List.mem_singleton.mp new
      exact ahead open'
  have refusing {item : Call} (no : item.phase = .refused → item.status = .settled false) :
      ∀ call ∈ state.calls ++ [item], call.phase = .refused → call.status = .settled false := by
    intro call member
    rcases List.mem_append.mp member with old | new
    · exact sound.refusing call old
    · rw [List.mem_singleton.mp new]
      exact no
  unfold inOrder
  split
  · exact ⟨append_chain sound.chain _ _ (.inl ⟨rfl,rfl,fun wrong => (nomatch wrong)⟩),sound.sorted,lists_added sound.listed rfl,
      decided fun wrong => (nomatch wrong),timely fun wrong => (nomatch wrong),refusing fun _ => rfl⟩
  split
  · next direct =>
    have fresh : ∀ one ∈ state.sent, one < state.calls.length := by
      intro one sent
      obtain ⟨call,found,_⟩ := (Option.any_eq_true _ _).mp ((sound.listed.each one).mp sent)
      exact place_inside found
    refine ⟨append_chain sound.chain _ _ (.inl ⟨rfl,rfl,fun _ => direct.2⟩),?_,lists_appended sound.listed rfl,
      decided fun _ wrong => (nomatch wrong),timely fun wrong => (nomatch wrong),refusing fun wrong => (nomatch wrong)⟩
    refine List.pairwise_append.mpr ⟨sound.sorted,List.pairwise_singleton _ _,fun one sent last here => ?_⟩
    rw [List.mem_singleton.mp here]
    exact fresh one sent
  · refine ⟨append_chain sound.chain _ _ (.inr ⟨rfl,rfl⟩),sound.sorted,lists_added sound.listed ?_,decided fun wrong => (nomatch wrong),
      timely fun _ => Nat.le_trans (Nat.le_add_right ..) (Nat.le_add_right ..),refusing fun wrong => (nomatch wrong)⟩
    exact Bool.and_false _

theorem start_sound (late : Nat) : Sound late State.start :=
  ⟨⟨fun _ _ wrong => (nomatch wrong),fun _ _ wrong => (nomatch wrong),fun _ _ _ wrong => (nomatch wrong),fun _ wrong => (nomatch wrong),
    fun _ _ _ wrong => (nomatch wrong)⟩,List.Pairwise.nil,lists_nil _,fun _ wrong => absurd wrong List.not_mem_nil,
    fun _ wrong => absurd wrong List.not_mem_nil,fun _ wrong => absurd wrong List.not_mem_nil⟩

theorem ended_past {phase : Phase} (ends : ended phase = true) : past phase = true ∧ begun phase = true := by
  cases phase <;> first | exact ⟨rfl,rfl⟩ | cases ends

theorem ask_sound (sound : Sound late state) (found : state.calls[place]? = some call) {behind : Option Nat} (queued : call.phase = .queued behind)
    (goes : ready state.calls call = true) : Sound late (state.change place {call with phase := .asked}) := by
  have front : ∀ before < place, PastAt state.calls before := by
    cases behind with
    | none => exact sound.chain.first place call found queued
    | some last =>
      rw [ready,queued] at goes
      obtain ⟨other,there,ends⟩ := (Option.any_eq_true _ _).mp goes
      obtain ⟨less,_,between⟩ := sound.chain.behind place call last found queued
      intro before inside
      rcases Nat.lt_trichotomy before last with early | rfl | later
      · exact sound.chain.begun last other there (ended_past ends).2 before early
      · intro item here
        cases Option.some.inj (there.symm.trans here)
        exact (ended_past ends).1
      · exact between before later inside
  refine advance_sound sound found (fun wrong => ?_) (fun _ => rfl) (fun _ => .inr front) (fun _ wrong => (nomatch wrong)) ?_ fun wrong => (nomatch wrong)
  · rw [queued] at wrong
    cases wrong
  · rw [queued]
    rfl

theorem finish_sound (sound : Sound late state) (found : state.calls[place]? = some call) (answered : call.phase = .answered) :
    Sound late (state.change place {call with phase := .finished}) := by
  refine advance_sound sound found (fun _ => rfl) (fun _ => rfl) (fun _ => .inl ?_) (fun _ wrong => (nomatch wrong)) ?_ fun wrong => (nomatch wrong)
  · rw [answered]
    rfl
  · rw [answered]
    rfl

theorem step_sound : Preserved (step late) (fun _ _ => True) (Sound late) := by
  intro before action after sound _ moved
  cases action with
  | inOrder verdict timeoutMs =>
    cases moved
    exact inOrder_sound sound verdict timeoutMs
  | settle place outcome =>
    obtain ⟨call,found,moved⟩ := Option.bind_eq_some_iff.mp moved
    split at moved
    · next undecided =>
      cases moved
      exact decide_sound sound found undecided fun wrong => (nomatch wrong)
    · cases moved
  | timeout place =>
    obtain ⟨call,found,moved⟩ := Option.bind_eq_some_iff.mp moved
    split at moved
    · next due =>
      cases moved
      exact decide_sound sound found due.1 fun wrong => (nomatch wrong)
    · cases moved
  | ask place =>
    obtain ⟨call,found,moved⟩ := Option.bind_eq_some_iff.mp moved
    split at moved
    · next behind queued =>
      split at moved
      · next goes =>
        cases moved
        exact ask_sound sound found queued goes
      · cases moved
    · cases moved
  | answer place =>
    obtain ⟨call,found,moved⟩ := Option.bind_eq_some_iff.mp moved
    split at moved
    · next goes =>
      cases moved
      have decided := goes.2
      rw [ready,goes.1] at decided
      exact answer_sound sound found goes.1 (of_decide_eq_true decided)
    · cases moved
  | finish place =>
    obtain ⟨call,found,moved⟩ := Option.bind_eq_some_iff.mp moved
    split at moved
    · next answered =>
      cases moved
      exact finish_sound sound found answered
    · cases moved
  | clear place =>
    obtain ⟨call,found,moved⟩ := Option.bind_eq_some_iff.mp moved
    split at moved
    · next ends =>
      cases moved
      exact clear_sound sound found ends
    · cases moved
  | tick elapsed =>
    rw [step] at moved
    split at moved
    · next free =>
      cases moved
      exact ⟨sound.chain,sound.sorted,sound.listed,sound.decided,free.2,sound.refusing⟩
    · cases moved

def left : Phase → Nat
  | .queued _ => 4
  | .asked => 3
  | .answered => 2
  | .finished => 1
  | _ => 0

def State.work (state : State) : Nat := (state.calls.map fun call => left call.phase).sum

end

-- The first verdict is a promise, the second true: the second waits, the first is out of time after 5, and then the third is sent at once.
def timed : List Action := [.inOrder none 5,.inOrder (some true) 5,.ask 0,.tick 5,.timeout 0,.answer 0,.finish 0,.ask 1,.clear 0,.answer 1,
  .finish 1,.clear 1,.inOrder (some true) 5]

end Zveltio.InOrder
