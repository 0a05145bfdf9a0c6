import Zveltio.Runs
import Zveltio.WorkerTxn
import Mathlib.Data.List.Basic
namespace Zveltio.WorkerRequest
open Runs Savepoints WorkerTxn

-- What becomes of route:invoke: an answer, whether its handler threw and whether a Response can be made of it,
-- an error (the worker's own, or that it died or was stopped), or nothing (the hard timeout, a body too big to hand over).
inductive Answer where
  | ok (threw builds : Bool)
  | err
  | none

inductive Reply where
  | own (threw : Bool)
  | failed
  | uncommitted
  | refusal
  deriving DecidableEq

inductive Stage where
  | awaiting
  | ending (answer : Answer) (commit : Bool)
  | leaving (reply : Reply)
  | replied (reply : Reply)

-- endRequestTxn's promise: what it was asked, and whether what the request wrote stands.
structure Closing where
  commit : Bool
  stands : Option Bool

inductive Job (ε ω : Type) where
  | work (task : Task ε ω)
  | close (commit : Bool)

-- Connections are numbered as they are reserved; late tells of a statement on a transaction that was ended.
structure State (ε ω : Type) where
  txn : RequestTxn ε ω
  view : View ω
  waiting : List (Task ε ω)
  tail : List (Job ε ω)
  closing : Option Closing
  stage : Stage
  refused : Bool
  reserved : Nat
  released : List Nat
  ended : Bool
  late : Bool
  committed : List ω

-- A joined transaction is the request's tenant transaction; otherwise the first statement opens one.
def State.start {ε ω : Type} (joined : Bool) : State ε ω where
  txn := ⟨if joined then some ⟨0,Savepoints.start []⟩ else none,joined,none,none,[],false⟩
  view := ⟨[],[]⟩
  waiting := []
  tail := []
  closing := none
  stage := .awaiting
  refused := false
  reserved := if joined then 1 else 0
  released := []
  ended := false
  late := false
  committed := []

inductive Action (ε ω : Type) where
  | send (task : Task ε ω)
  | turn (index : Nat)
  | run (fate : Fate)
  | engine (writes : List ω) (fate : Fate)
  | expire
  | refuse
  | answer (answer : Answer)
  | proceed (ok : Bool)

def Answer.keeps : Answer → Bool
  | .ok false _ => true
  | _ => false

section
variable {ε ω : Type} [DecidableEq ε]

-- COMMIT of an aborted transaction rolls back and says nothing; told whether it threw, and what it left in the database.
def endWorkerTxn (session : Session ω) (commit ok : Bool) : Bool × List ω :=
  if commit then
    if session.aborted then (false,[]) else if ok then (false,session.now) else (true,[])
  else (false,[])

def State.endRequestTxn (state : State ε ω) (commit : Bool) : State ε ω :=
  match state.closing with
  | some _ => state
  | none => {state with txn := {state.txn with isOver := true},tail := state.tail ++ [.close commit],closing := some ⟨commit,none⟩}

def State.close (state : State ε ω) (commit ok : Bool) : State ε ω :=
  match state.txn.conn with
  | none => {state with closing := some ⟨commit,some commit⟩}
  | some conn =>
    if state.txn.joined then {state with closing := some ⟨commit,some commit⟩}
    else
      let ended := endWorkerTxn conn.session commit ok
      {state with closing := some ⟨commit,some (commit && !ended.1)⟩,ended := true,released := conn.id::state.released,committed := ended.2}

def State.act (state : State ε ω) (task : Task ε ω) (fate : Fate) : State ε ω :=
  match state.txn.conn with
  | none => state
  | some conn =>
    let done := perform state.txn conn task fate
    {state with txn := done.2,view := if done.1 then state.view.hear task.work else state.view,late := state.late || state.ended}

-- onConnection, its turn come.
def State.serve (state : State ε ω) (task : Task ε ω) (fate : Fate) : State ε ω :=
  if state.txn.isOver then state
  else match state.txn.conn with
    | none => match fate.opened with
      | none => state
      | some false => {state with reserved := state.reserved + 1,released := state.reserved::state.released}
      | some true =>
        let opened := {state with txn := {state.txn with conn := some ⟨state.reserved,Savepoints.start []⟩,ext := some task.ext},reserved := state.reserved + 1}
        opened.act task fate
    | some conn =>
      let switched := switchRole state.txn conn task.ext fate.host
      let placed := {state with txn := switched.2,late := state.late || state.ended}
      if switched.1 then placed.act task fate else placed

-- A statement of the engine's or of an inline extension's, on the tenant transaction.
def State.engine (state : State ε ω) (conn : Reserved ω) (writes : List ω) (fate : Fate) : State ε ω :=
  let done := andThen (releaseWindow state.txn fate.host conn.session) (exec fate.ran writes)
  {state with
    txn := {state.txn.on conn.id done.2 with window := none}
    view := if done.1 then state.view.hear (.query writes) else state.view
    late := state.late || state.ended}

def replyTo (answer : Answer) (commit stands : Bool) : Reply :=
  if commit && !stands then .uncommitted
  else match answer with
    | .ok threw true => .own threw
    | _ => .failed

def State.reply (state : State ε ω) (reply : Reply) (stands ok : Bool) : State ε ω :=
  let given := if state.refused then .refusal else reply
  match state.txn.conn with
  | some conn =>
    if state.txn.joined then
      let commit := stands && !state.refused
      let ended := endWorkerTxn conn.session commit ok
      {state with ended := true,released := conn.id::state.released,committed := ended.2,stage := .replied (if ended.1 then .uncommitted else given)}
    else {state with stage := .replied given}
  | none => {state with stage := .replied given}

def step (state : State ε ω) : Action ε ω → Option (State ε ω)
  | .send task => some {state with waiting := state.waiting ++ [task]}
  | .turn index => state.waiting[index]?.map fun task =>
    {state with waiting := state.waiting.eraseIdx index,tail := state.tail ++ [.work task]}
  | .run fate => match state.tail with
    | [] => none
    | .work task::rest => some ({state with tail := rest}.serve task fate)
    | .close commit::rest => some ({state with tail := rest}.close commit fate.ran)
  | .engine writes fate => if state.txn.joined ∧ ¬state.ended then state.txn.conn.map fun conn => state.engine conn writes fate else none
  | .expire => if ¬state.txn.joined ∧ state.txn.conn.isSome then some (state.endRequestTxn false) else none
  | .refuse => match state.stage with
    | .replied _ => none
    | _ => some {state with refused := true}
  | .answer answer => match state.stage with
    | .awaiting => match answer with
      | .none => some {state.endRequestTxn false with stage := .leaving .failed}
      | _ =>
        let commit := answer.keeps && !state.refused
        some {state.endRequestTxn commit with stage := .ending answer commit}
    | _ => none
  | .proceed ok => (state.closing.bind Closing.stands).bind fun stands => match state.stage with
    | .ending answer commit => some {state with stage := .leaving (replyTo answer commit stands)}
    | .leaving reply => some (state.reply reply stands ok)
    | _ => none

omit [DecidableEq ε] in
-- No COMMIT is sent on an aborted transaction, of an answer that is to be kept a Response can be made, and no
-- check of the admin permission refuses the request once its own transaction is being committed.
def Permitted (state : State ε ω) : Action ε ω → Prop
  | .run _ => ∀ rest conn, state.tail = .close true::rest → state.txn.joined = false → state.txn.conn = some conn → conn.session.aborted = false
  | .proceed _ => ∀ reply conn, state.stage = .leaving reply → state.closing = some ⟨true,some true⟩ → state.txn.joined = true → state.txn.conn = some conn →
      conn.session.aborted = false
  | .answer answer => state.closing = none → state.refused = false → answer.keeps = true → answer = .ok false true
  | .refuse => state.txn.joined = true ∨ ∀ closing, state.closing = some closing → closing.commit = false
  | _ => True

omit [DecidableEq ε] in
def Job.closes : Job ε ω → Option Bool
  | .work _ => none
  | .close commit => some commit

-- What the connection, its number and the database have to do with each other.
structure Held (state : State ε ω) : Prop where
  agrees : Matches state.txn state.view
  joined : state.txn.joined = true → state.txn.conn.isSome
  bound : ∀ id ∈ state.released, id < state.reserved
  once : state.released.Nodup
  spare : ∀ id < state.reserved, id ∈ state.released ∨ ∃ conn, state.txn.conn = some conn ∧ conn.id = id
  own : ∀ conn, state.txn.conn = some conn → conn.id < state.reserved ∧ (conn.id ∈ state.released ↔ state.ended = true)
  unopened : state.txn.conn = none → state.ended = false
  kept : state.ended = false → state.committed = []
  onTime : state.late = false

-- What the end of the transaction and the handler's stage have to do with each other.
structure Sound (state : State ε ω) : Prop extends Held state where
  shut : state.txn.isOver = state.closing.isSome
  closes : state.tail.filterMap Job.closes = match state.closing with
    | some ⟨commit,none⟩ => [commit]
    | _ => []
  ends : state.txn.joined = false → (state.ended = true ↔ ∃ commit stands, state.closing = some ⟨commit,some stands⟩ ∧ state.txn.conn.isSome)
  endsJoined : state.txn.joined = true → (state.ended = true ↔ ∃ reply, state.stage = .replied reply)
  stands : ∀ commit stands, state.closing = some ⟨commit,some stands⟩ → (stands = true → commit = true) ∧
    (state.txn.joined = false → state.committed = if stands then state.view.told else [])
  asked : ∀ stands, state.closing = some ⟨true,stands⟩ → state.stage = .ending (.ok false true) true ∨
    state.stage = .leaving (.own false) ∧ stands = some true ∨ state.stage = .leaving .uncommitted ∧ stands = some false ∨ ∃ reply, state.stage = .replied reply
  begun : state.stage ≠ .awaiting → state.closing ≠ none
  ending : ∀ answer commit, state.stage = .ending answer commit → (commit = true → answer.keeps = true) ∧ (commit = false → state.refused = true ∨ answer.keeps = false)
  leaving : state.stage = .leaving (.own false) → state.refused = true ∨ state.closing = some ⟨true,some true⟩
  willing : state.txn.joined = false → state.refused = true → ∀ stands, state.closing = some ⟨true,stands⟩ → ∃ reply, state.stage = .replied reply
  replied : ∀ reply, state.stage = .replied reply → (∀ id < state.reserved, id ∈ state.released) ∧
    (if reply = .own false then state.committed = state.view.told else state.committed = [])

omit [DecidableEq ε] in
theorem start_sound (joined : Bool) : Sound (State.start joined : State ε ω) := by
  cases joined
  · exact {
      agrees := ⟨rfl,rfl,rfl⟩
      joined := fun wrong => (by cases wrong)
      bound := fun id wrong => (by cases wrong)
      once := List.nodup_nil
      spare := fun id wrong => absurd wrong (Nat.not_lt_zero id)
      own := fun conn wrong => (by cases wrong)
      unopened := fun _ => rfl
      kept := fun _ => rfl
      onTime := rfl
      shut := rfl
      closes := rfl
      ends := fun _ => ⟨fun wrong => (by cases wrong),fun ⟨_,_,wrong,_⟩ => (by cases wrong)⟩
      endsJoined := fun wrong => (by cases wrong)
      stands := fun _ _ wrong => (by cases wrong)
      asked := fun _ wrong => (by cases wrong)
      begun := fun wrong => absurd rfl wrong
      ending := fun _ _ wrong => (by cases wrong)
      leaving := fun wrong => (by cases wrong)
      willing := fun _ wrong => (by cases wrong)
      replied := fun _ wrong => (by cases wrong) }
  · exact {
      agrees := start_agree
      joined := fun _ => rfl
      bound := fun id wrong => (by cases wrong)
      once := List.nodup_nil
      spare := fun id small => .inr ⟨_,rfl,(Nat.lt_one_iff.mp small).symm⟩
      own := fun conn same => by
        cases same
        exact ⟨Nat.zero_lt_one,by simp [State.start]⟩
      unopened := fun wrong => (by cases wrong)
      kept := fun _ => rfl
      onTime := rfl
      shut := rfl
      closes := rfl
      ends := fun wrong => (by cases wrong)
      endsJoined := fun _ => ⟨fun wrong => (by cases wrong),fun ⟨_,wrong⟩ => (by cases wrong)⟩
      stands := fun _ _ wrong => (by cases wrong)
      asked := fun _ wrong => (by cases wrong)
      begun := fun wrong => absurd rfl wrong
      ending := fun _ _ wrong => (by cases wrong)
      leaving := fun wrong => (by cases wrong)
      willing := fun _ wrong => (by cases wrong)
      replied := fun _ wrong => (by cases wrong) }

-- What a statement leaves alone.
structure Steady (before after : State ε ω) : Prop where
  joined : after.txn.joined = before.txn.joined
  isOver : after.txn.isOver = before.txn.isOver
  tail : after.tail = before.tail
  closing : after.closing = before.closing
  stage : after.stage = before.stage
  refused : after.refused = before.refused
  ended : after.ended = before.ended

section
variable {state after : State ε ω}

omit [DecidableEq ε] in
theorem rest_held {waiting : List (Task ε ω)} {tail : List (Job ε ω)} {closing : Option Closing} {stage : Stage} {refused : Bool} (state : State ε ω) (held : Held state) :
    Held {state with waiting,tail,closing,stage,refused} :=
  ⟨held.agrees,held.joined,held.bound,held.once,held.spare,held.own,held.unopened,held.kept,held.onTime⟩

omit [DecidableEq ε] in
theorem open_unended (sound : Sound state) (usable : state.txn.isOver = false) : state.closing = none ∧ state.ended = false ∧ ∀ reply, state.stage ≠ .replied reply := by
  have none_left : state.closing = none := by
    have shut := sound.shut
    rw [usable] at shut
    exact Option.isNone_iff_eq_none.mp (Option.isSome_eq_false_iff.mp shut.symm)
  have unreplied (reply : Reply) : state.stage ≠ .replied reply := by
    intro same
    exact sound.begun (by rw [same]; exact fun wrong => (by cases wrong)) none_left
  refine ⟨none_left,?_,unreplied⟩
  cases joined : state.txn.joined with
  | false =>
    refine Bool.eq_false_iff.mpr fun ended => ?_
    obtain ⟨_,_,wrong,_⟩ := (sound.ends joined).mp ended
    rw [none_left] at wrong
    cases wrong
  | true =>
    refine Bool.eq_false_iff.mpr fun ended => ?_
    obtain ⟨reply,same⟩ := (sound.endsJoined joined).mp ended
    exact unreplied reply same

omit [DecidableEq ε] in
theorem steady_sound (sound : Sound state) (usable : state.txn.isOver = false) (held : Held after) (steady : Steady state after) : Sound after := by
  obtain ⟨none_left,unended,unreplied⟩ := open_unended sound usable
  have closing := steady.closing.trans none_left
  have stage (reply : Reply) : after.stage ≠ .replied reply := steady.stage ▸ unreplied reply
  have ended := steady.ended.trans unended
  exact {
    toHeld := held
    shut := by rw [steady.isOver,usable,closing]; rfl
    closes := by rw [steady.tail,steady.closing]; exact sound.closes
    ends := fun _ => ⟨fun wrong => absurd (ended.symm.trans wrong) Bool.false_ne_true,fun ⟨_,_,wrong,_⟩ => absurd (closing.symm.trans wrong) fun wrong => (by cases wrong)⟩
    endsJoined := fun _ => ⟨fun wrong => absurd (ended.symm.trans wrong) Bool.false_ne_true,fun ⟨reply,same⟩ => absurd same (stage reply)⟩
    stands := fun _ _ wrong => absurd (closing.symm.trans wrong) fun wrong => (by cases wrong)
    asked := fun _ wrong => absurd (closing.symm.trans wrong) fun wrong => (by cases wrong)
    begun := by rw [steady.stage,steady.closing]; exact sound.begun
    ending := by rw [steady.stage,steady.refused]; exact sound.ending
    leaving := by rw [steady.stage,steady.refused,steady.closing]; exact sound.leaving
    willing := fun _ _ _ wrong => absurd (closing.symm.trans wrong) fun wrong => (by cases wrong)
    replied := fun reply same => absurd same (stage reply) }

omit [DecidableEq ε] in
theorem moved_held {txn : RequestTxn ε ω} {view : View ω} {late : Bool} {conn : Reserved ω} {session : Session ω} (held : Held state)
    (there : state.txn.conn = some conn) (placed : txn.conn = some ⟨conn.id,session⟩) (agree : Agree session txn.savepoints.length view) (onTime : late = false) :
    Held {state with txn,view,late} := by
  obtain ⟨small,out⟩ := held.own conn there
  exact {
    agrees := by simp only [Matches,placed]; exact agree
    joined := fun _ => by simp only [placed]; rfl
    bound := held.bound
    once := held.once
    spare := fun id less => (held.spare id less).imp_right fun ⟨other,same,named⟩ => by
      rw [there] at same
      cases same
      exact ⟨_,placed,named⟩
    own := fun other same => by
      simp only [placed,Option.some.injEq] at same
      cases same
      exact ⟨small,out⟩
    unopened := fun wrong => by
      simp only [placed] at wrong
      cases wrong
    kept := held.kept
    onTime := onTime }

omit [DecidableEq ε] in
theorem late_false (held : Held state) (unended : state.ended = false) : (state.late || state.ended) = false := by
  rw [held.onTime,unended]
  rfl

theorem act_held (held : Held state) (unended : state.ended = false) (task : Task ε ω) (fate : Fate) :
    Held (state.act task fate) ∧ Steady state (state.act task fate) := by
  unfold State.act
  cases there : state.txn.conn with
  | none => exact ⟨held,rfl,rfl,rfl,rfl,rfl,rfl,rfl⟩
  | some conn =>
    have agrees := held.agrees
    unfold Matches at agrees
    rw [there] at agrees
    obtain ⟨session,placed,agree⟩ := perform_agree conn agrees task fate
    obtain ⟨joined,isOver⟩ := perform_frame state.txn conn task fate
    exact ⟨moved_held held there placed agree (late_false held unended),joined,isOver,rfl,rfl,rfl,rfl,rfl⟩

theorem serve_held (sound : Sound state) (usable : state.txn.isOver = false) (task : Task ε ω) (fate : Fate) :
    Held (state.serve task fate) ∧ Steady state (state.serve task fate) := by
  have unended := (open_unended sound usable).2.1
  have held := sound.toHeld
  have agrees := held.agrees
  unfold Matches at agrees
  unfold State.serve
  rw [if_neg (by rw [usable]; exact Bool.false_ne_true)]
  have unused : state.reserved ∉ state.released := fun member => Nat.lt_irrefl _ (held.bound _ member)
  cases there : state.txn.conn with
  | none =>
    rw [there] at agrees
    simp only
    split
    · exact ⟨held,rfl,rfl,rfl,rfl,rfl,rfl,rfl⟩
    · refine ⟨{
        agrees := held.agrees
        joined := held.joined
        bound := fun id member => (List.mem_cons.mp member).elim (fun same => same ▸ Nat.lt_succ_self _) fun later => Nat.lt_succ_of_lt (held.bound id later)
        once := List.nodup_cons.mpr ⟨unused,held.once⟩
        spare := fun id less => .inl (by
          rcases Nat.lt_succ_iff_lt_or_eq.mp less with less | same
          · rcases held.spare id less with member | ⟨conn,wrong,_⟩
            · exact List.mem_cons_of_mem _ member
            · rw [there] at wrong
              cases wrong
          · exact same ▸ List.mem_cons_self ..)
        own := fun conn wrong => by
          rw [there] at wrong
          cases wrong
        unopened := held.unopened
        kept := held.kept
        onTime := held.onTime },rfl,rfl,rfl,rfl,rfl,rfl,rfl⟩
    · have opened : Held {state with txn := {state.txn with conn := some ⟨state.reserved,Savepoints.start []⟩,ext := some task.ext},reserved := state.reserved + 1} := {
        agrees := by
          simp only [Matches,agrees.1,agrees.2.2]
          exact start_agree
        joined := fun _ => rfl
        bound := fun id member => Nat.lt_succ_of_lt (held.bound id member)
        once := held.once
        spare := fun id less => by
          rcases Nat.lt_succ_iff_lt_or_eq.mp less with less | same
          · rcases held.spare id less with member | ⟨conn,wrong,_⟩
            · exact .inl member
            · rw [there] at wrong
              cases wrong
          · exact .inr ⟨_,rfl,same.symm⟩
        own := fun conn same => by
          cases same
          exact ⟨Nat.lt_succ_self _,fun wrong => absurd wrong unused,fun wrong => absurd (unended.symm.trans wrong) Bool.false_ne_true⟩
        unopened := fun wrong => (by cases wrong)
        kept := held.kept
        onTime := held.onTime }
      obtain ⟨acted,steady⟩ := act_held opened unended task fate
      exact ⟨acted,steady.joined,steady.isOver,steady.tail,steady.closing,steady.stage,steady.refused,steady.ended⟩
  | some conn =>
    rw [there] at agrees
    obtain ⟨session,switched,agree⟩ := switchRole_agree agrees there task.ext fate.host
    obtain ⟨joined,isOver⟩ := switchRole_frame state.txn conn task.ext fate.host
    have placed := moved_held held there switched agree (late_false held unended)
    simp only
    split
    · obtain ⟨acted,steady⟩ := act_held placed unended task fate
      exact ⟨acted,steady.joined.trans joined,steady.isOver.trans isOver,steady.tail,steady.closing,steady.stage,steady.refused,steady.ended⟩
    · exact ⟨placed,joined,isOver,rfl,rfl,rfl,rfl,rfl⟩

omit [DecidableEq ε] in
theorem engine_sound {conn : Reserved ω} (sound : Sound state) (joined : state.txn.joined = true) (unended : state.ended = false) (there : state.txn.conn = some conn)
    (writes : List ω) (fate : Fate) : Sound (state.engine conn writes fate) := by
  have held := sound.toHeld
  have agrees := held.agrees
  unfold Matches at agrees
  rw [there] at agrees
  have agree : Agree (andThen (releaseWindow state.txn fate.host conn.session) (exec fate.ran writes)).2 state.txn.savepoints.length
      (if (andThen (releaseWindow state.txn fate.host conn.session) (exec fate.ran writes)).1 then state.view.hear (.query writes) else state.view) := by
    have cleared : Agree (releaseWindow state.txn fate.host conn.session).2 _ _ := releaseWindow_agree agrees fate.host
    unfold andThen
    split
    · exact exec_agree cleared fate.ran writes
    · exact cleared
  have unreplied (reply : Reply) : state.stage ≠ .replied reply := fun same =>
    absurd (unended.symm.trans ((sound.endsJoined joined).mpr ⟨reply,same⟩)) Bool.false_ne_true
  exact {
    toHeld := moved_held held there rfl agree (late_false held unended)
    shut := sound.shut
    closes := sound.closes
    ends := fun wrong => absurd (wrong.symm.trans joined) Bool.false_ne_true
    endsJoined := sound.endsJoined
    stands := fun commit stands same => ⟨(sound.stands commit stands same).1,fun wrong => absurd (wrong.symm.trans joined) Bool.false_ne_true⟩
    asked := sound.asked
    begun := sound.begun
    ending := sound.ending
    leaving := sound.leaving
    willing := sound.willing
    replied := fun reply same => absurd same (unreplied reply) }

omit [DecidableEq ε] in
theorem endRequestTxn_held (held : Held state) (commit : Bool) : Held (state.endRequestTxn commit) := by
  unfold State.endRequestTxn
  split
  · exact held
  · exact ⟨held.agrees,held.joined,held.bound,held.once,held.spare,held.own,held.unopened,held.kept,held.onTime⟩

omit [DecidableEq ε] in
-- The handler is still waiting, or waiting no more: the first to end the transaction says how.
theorem endRequestTxn_sound {stage : Stage} (sound : Sound state) (awaiting : state.stage = .awaiting) (commit : Bool)
    (unreplied : ∀ reply, stage ≠ .replied reply) (unanswered : stage ≠ .leaving (.own false))
    (asks : commit = true → state.closing = none → stage = .ending (.ok false true) true ∧ state.refused = false)
    (ending : ∀ answer keeps, stage = .ending answer keeps → (keeps = true → answer.keeps = true) ∧ (keeps = false → state.refused = true ∨ answer.keeps = false)) :
    Sound {state.endRequestTxn commit with stage} := by
  have held := endRequestTxn_held sound.toHeld commit
  have before (stands : Option Bool) (same : state.closing = some ⟨true,stands⟩) : False := by
    rcases sound.asked stands same with at_end | ⟨at_end,_⟩ | ⟨at_end,_⟩ | ⟨reply,at_end⟩ <;> rw [awaiting] at at_end <;> cases at_end
  have unreplied_yet (reply : Reply) : state.stage ≠ .replied reply := by
    rw [awaiting]
    exact fun wrong => (by cases wrong)
  unfold State.endRequestTxn at held ⊢
  cases closing : state.closing with
  | some first =>
    rw [closing] at held
    exact {
      toHeld := rest_held _ held
      shut := sound.shut
      closes := sound.closes
      ends := sound.ends
      endsJoined := fun joined => ⟨fun ended => by
        obtain ⟨reply,same⟩ := (sound.endsJoined joined).mp ended
        exact absurd same (unreplied_yet reply),fun ⟨reply,same⟩ => absurd same (unreplied reply)⟩
      stands := sound.stands
      asked := fun stands same => (before stands same).elim
      begun := fun _ wrong => by
        rw [closing] at wrong
        cases wrong
      ending := ending
      leaving := fun wrong => absurd wrong unanswered
      willing := fun _ _ stands same => (before stands same).elim
      replied := fun reply same => absurd same (unreplied reply) }
  | none =>
    rw [closing] at held
    have open_yet : state.txn.isOver = false := by
      rw [sound.shut,closing]
      rfl
    obtain ⟨_,unended,_⟩ := open_unended sound open_yet
    have none_closes := sound.closes
    rw [closing] at none_closes
    exact {
      toHeld := rest_held _ held
      shut := rfl
      closes := by
        simp only [List.filterMap_append,none_closes]
        rfl
      ends := fun _ => ⟨fun wrong => absurd (unended.symm.trans wrong) Bool.false_ne_true,fun ⟨_,_,wrong,_⟩ => (by cases wrong)⟩
      endsJoined := fun _ => ⟨fun wrong => absurd (unended.symm.trans wrong) Bool.false_ne_true,fun ⟨reply,same⟩ => absurd same (unreplied reply)⟩
      stands := fun _ _ wrong => (by cases wrong)
      asked := fun stands same => by
        cases same
        exact .inl (asks rfl closing).1
      begun := fun _ wrong => (by cases wrong)
      ending := ending
      leaving := fun wrong => absurd wrong unanswered
      willing := fun _ refused stands same => by
        cases same
        exact absurd ((asks rfl closing).2.symm.trans refused) Bool.false_ne_true
      replied := fun reply same => absurd same (unreplied reply) }

omit [DecidableEq ε] in
-- What a COMMIT leaves is what stood on a usable transaction, and nothing where it throws or none was asked for.
theorem endWorkerTxn_exact {session : Session ω} {commit ok : Bool} (usable : commit = true → session.aborted = false) :
    endWorkerTxn session commit ok = if commit && ok then (false,session.now) else (commit,[]) := by
  unfold endWorkerTxn
  cases commit with
  | false => rfl
  | true =>
    rw [usable rfl]
    cases ok <;> rfl

omit [DecidableEq ε] in
theorem ended_held {conn : Reserved ω} (held : Held state) (there : state.txn.conn = some conn) (unended : state.ended = false) (committed : List ω) :
    Held {state with ended := true,released := conn.id::state.released,committed} := by
  obtain ⟨small,out⟩ := held.own conn there
  have unused : conn.id ∉ state.released := fun member => absurd (unended.symm.trans (out.mp member)) Bool.false_ne_true
  exact {
    agrees := held.agrees
    joined := held.joined
    bound := fun id member => (List.mem_cons.mp member).elim (fun same => same ▸ small) (held.bound id)
    once := List.nodup_cons.mpr ⟨unused,held.once⟩
    spare := fun id less => (held.spare id less).imp_left (List.mem_cons_of_mem _)
    own := fun other same => by
      rw [there] at same
      cases same
      exact ⟨small,fun _ => rfl,fun _ => List.mem_cons_self ..⟩
    unopened := fun wrong => by
      rw [there] at wrong
      cases wrong
    kept := fun wrong => (by cases wrong)
    onTime := held.onTime }

omit [DecidableEq ε] in
theorem told_now {conn : Reserved ω} (held : Held state) (there : state.txn.conn = some conn) (usable : conn.session.aborted = false) :
    conn.session.now = state.view.told := by
  have agrees := held.agrees
  unfold Matches at agrees
  rw [there] at agrees
  exact agrees.now usable

omit [DecidableEq ε] in
theorem close_sound {commit : Bool} {rest : List (Job ε ω)} (sound : Sound state) (turn : state.tail = .close commit::rest) (ok : Bool)
    (usable : commit = true → state.txn.joined = false → ∀ conn, state.txn.conn = some conn → conn.session.aborted = false) :
    Sound ({state with tail := rest}.close commit ok) := by
  have closes := sound.closes
  rw [turn,List.filterMap_cons_some (show Job.closes (.close commit : Job ε ω) = some commit from rfl)] at closes
  obtain ⟨closing,later⟩ : state.closing = some ⟨commit,none⟩ ∧ rest.filterMap Job.closes = [] := by
    split at closes
    · next first pending =>
      obtain ⟨same,later⟩ := List.cons.inj closes
      exact ⟨same ▸ pending,later⟩
    · cases closes
  have shut : state.txn.isOver = true := by
    rw [sound.shut,closing]
    rfl
  have asked (stands : Option Bool) (same : commit = true) : state.stage = .ending (.ok false true) true ∨
      state.stage = .leaving (.own false) ∧ stands = some true ∨ state.stage = .leaving .uncommitted ∧ stands = some false ∨ ∃ reply, state.stage = .replied reply := by
    rcases sound.asked none (same ▸ closing) with at_end | ⟨_,wrong⟩ | ⟨_,wrong⟩ | at_end
    · exact .inl at_end
    · cases wrong
    · cases wrong
    · exact .inr (.inr (.inr at_end))
  have leaving (at_end : state.stage = .leaving (.own false)) : state.refused = true := by
    rcases sound.leaving at_end with refused | wrong
    · exact refused
    · rw [closing] at wrong
      cases wrong
  have willing (joined : state.txn.joined = false) (refused : state.refused = true) (same : commit = true) : ∃ reply, state.stage = .replied reply :=
    sound.willing joined refused none (same ▸ closing)
  unfold State.close
  cases there : state.txn.conn with
  | none =>
    have unended := sound.unopened there
    have agrees := sound.agrees
    unfold Matches at agrees
    rw [there] at agrees
    exact {
      toHeld := rest_held state sound.toHeld
      shut := shut
      closes := later
      ends := fun _ => ⟨fun wrong => absurd (unended.symm.trans wrong) Bool.false_ne_true,fun ⟨_,_,_,wrong⟩ => by
        simp only [there] at wrong
        cases wrong⟩
      endsJoined := sound.endsJoined
      stands := fun first stands same => by
        cases same
        refine ⟨id,fun _ => ?_⟩
        simp only [sound.kept unended,agrees.2.2,ite_self]
      asked := fun stands same => asked stands (congrArg Closing.commit (Option.some.inj same))
      begun := fun _ wrong => (by cases wrong)
      ending := sound.ending
      leaving := fun at_end => .inl (leaving at_end)
      willing := fun joined refused stands same => willing joined refused (congrArg Closing.commit (Option.some.inj same))
      replied := sound.replied }
  | some conn =>
    simp only
    split
    · next joined => exact {
        toHeld := rest_held state sound.toHeld
        shut := shut
        closes := later
        ends := fun wrong => absurd (wrong.symm.trans joined) Bool.false_ne_true
        endsJoined := sound.endsJoined
        stands := fun first stands same => by
          cases same
          exact ⟨id,fun wrong => absurd (wrong.symm.trans joined) Bool.false_ne_true⟩
        asked := fun stands same => asked stands (congrArg Closing.commit (Option.some.inj same))
        begun := fun _ wrong => (by cases wrong)
        ending := sound.ending
        leaving := fun at_end => .inl (leaving at_end)
        willing := fun joined refused stands same => willing joined refused (congrArg Closing.commit (Option.some.inj same))
        replied := sound.replied }
    · next apart =>
      have joined : state.txn.joined = false := Bool.not_eq_true _ ▸ apart
      have unended : state.ended = false := by
        refine Bool.eq_false_iff.mpr fun ended => ?_
        obtain ⟨_,_,wrong,_⟩ := (sound.ends joined).mp ended
        rw [closing] at wrong
        cases wrong
      have exactly : endWorkerTxn conn.session commit ok = _ := endWorkerTxn_exact fun same => usable same joined conn there
      have held := ended_held sound.toHeld there unended (endWorkerTxn conn.session commit ok).2
      have unreplied (reply : Reply) (same : state.stage = .replied reply) : False := by
        obtain ⟨small,out⟩ := sound.own conn there
        exact Bool.false_ne_true (unended.symm.trans (out.mp ((sound.replied reply same).1 conn.id small)))
      exact {
        toHeld := rest_held _ held
        shut := shut
        closes := later
        ends := fun _ => ⟨fun _ => ⟨_,_,rfl,by simp only [there]; rfl⟩,fun _ => rfl⟩
        endsJoined := fun wrong => absurd (joined.symm.trans wrong) Bool.false_ne_true
        stands := fun first stands same => by
          obtain ⟨_,told⟩ := Closing.mk.inj (Option.some.inj same)
          cases told
          subst first
          refine ⟨fun stood => ?_,fun _ => ?_⟩
          · exact (Bool.and_eq_true_iff.mp stood).1
          · simp only [exactly]
            cases commit with
            | false => rfl
            | true => cases ok with
              | false => rfl
              | true => exact told_now sound.toHeld there (usable rfl joined conn there)
        asked := fun stands same => asked stands (congrArg Closing.commit (Option.some.inj same))
        begun := fun _ wrong => (by cases wrong)
        ending := sound.ending
        leaving := fun at_end => .inl (leaving at_end)
        willing := fun joined refused stands same => willing joined refused (congrArg Closing.commit (Option.some.inj same))
        replied := fun reply same => (unreplied reply same).elim }

omit [DecidableEq ε] in
theorem proceed_sound {answer : Answer} {commit stands : Bool} {closing : Closing} (sound : Sound state) (at_end : state.stage = .ending answer commit)
    (settled : state.closing = some closing) (stood : closing.stands = some stands) : Sound {state with stage := .leaving (replyTo answer commit stands)} := by
  obtain ⟨willing_to,kept⟩ := sound.ending answer commit at_end
  obtain ⟨first,second⟩ := closing
  simp only at stood
  subst second
  have unreplied (reply : Reply) (same : state.stage = .replied reply) : False := by
    rw [at_end] at same
    cases same
  exact {
    toHeld := rest_held state sound.toHeld
    shut := sound.shut
    closes := sound.closes
    ends := sound.ends
    endsJoined := fun joined => ⟨fun ended => by
      obtain ⟨reply,same⟩ := (sound.endsJoined joined).mp ended
      exact (unreplied reply same).elim,fun ⟨_,wrong⟩ => (by cases wrong)⟩
    stands := sound.stands
    asked := fun given same => by
      rcases sound.asked given same with asked | ⟨wrong,_⟩ | ⟨wrong,_⟩ | ⟨reply,wrong⟩
      · rw [at_end] at asked
        cases asked
        have told := settled.symm.trans same
        cases told
        cases stands with
        | false => exact .inr (.inr (.inl ⟨rfl,rfl⟩))
        | true => exact .inr (.inl ⟨rfl,rfl⟩)
      · rw [at_end] at wrong
        cases wrong
      · rw [at_end] at wrong
        cases wrong
      · exact (unreplied reply wrong).elim
    begun := fun _ wrong => by
      rw [settled] at wrong
      cases wrong
    ending := fun _ _ wrong => (by cases wrong)
    leaving := fun same => by
      have made : replyTo answer commit stands = .own false := Stage.leaving.inj same
      cases commit with
      | false =>
        rcases kept rfl with refused | wrong
        · exact .inl refused
        · cases answer with
          | ok threw builds =>
            cases threw with
            | false => cases wrong
            | true => cases builds <;> cases made
          | err => cases made
          | none => cases made
      | true =>
        cases stands with
        | false => cases made
        | true =>
          have asked := (sound.stands first true settled).1 rfl
          exact .inr (asked ▸ settled)
    willing := fun joined refused given same => by
      obtain ⟨reply,wrong⟩ := sound.willing joined refused given same
      exact (unreplied reply wrong).elim
    replied := fun _ wrong => (by cases wrong) }

omit [DecidableEq ε] in
theorem leaving_true {reply : Reply} {commit stands : Bool} (sound : Sound state) (at_end : state.stage = .leaving reply)
    (closing : state.closing = some ⟨commit,some stands⟩) :
    (state.refused = false → (reply = .own false ↔ stands = true)) ∧ (state.txn.joined = false → state.refused = true → stands = false) := by
  have keeps (stood : stands = true) : state.closing = some ⟨true,some true⟩ := by
    have asked := (sound.stands commit stands closing).1 stood
    rw [closing,asked,stood]
  refine ⟨fun willing => ⟨fun own => ?_,fun stood => ?_⟩,fun joined refused => Bool.eq_false_iff.mpr fun stood => ?_⟩
  · rcases sound.leaving (own ▸ at_end) with refused | same
    · exact absurd (willing.symm.trans refused) Bool.false_ne_true
    · have told := closing.symm.trans same
      cases told
      rfl
  · rcases sound.asked _ (keeps stood) with wrong | ⟨same,_⟩ | ⟨_,wrong⟩ | ⟨_,wrong⟩
    · rw [at_end] at wrong
      cases wrong
    · rw [at_end] at same
      exact Stage.leaving.inj same
    · cases wrong
    · rw [at_end] at wrong
      cases wrong
  · obtain ⟨_,wrong⟩ := sound.willing joined refused _ (keeps stood)
    rw [at_end] at wrong
    cases wrong

omit [DecidableEq ε] in
theorem reply_sound {reply : Reply} {commit stands : Bool} (sound : Sound state) (at_end : state.stage = .leaving reply)
    (closing : state.closing = some ⟨commit,some stands⟩) (ok : Bool)
    (usable : stands = true → state.txn.joined = true → ∀ conn, state.txn.conn = some conn → conn.session.aborted = false) :
    Sound (state.reply reply stands ok) := by
  obtain ⟨own,apart⟩ := leaving_true sound at_end closing
  -- What a reply leaves as it is, whatever the reply.
  have isOver {next : State ε ω} (given : Reply) (held : Held next) (txn : next.txn = state.txn) (tail : next.tail = state.tail) (same : next.closing = state.closing)
      (stage : next.stage = .replied given) (joined : state.txn.joined = true → next.ended = true)
      (unjoined : state.txn.joined = false → next.ended = state.ended ∧ next.committed = state.committed ∧ next.view = state.view)
      (replied : (∀ id < next.reserved, id ∈ next.released) ∧ (if given = .own false then next.committed = next.view.told else next.committed = [])) : Sound next := {
    toHeld := held
    shut := by rw [txn,same]; exact sound.shut
    closes := by rw [tail,same]; exact sound.closes
    ends := fun joined => by
      rw [txn] at joined ⊢
      rw [(unjoined joined).1,same]
      exact sound.ends joined
    endsJoined := fun was => ⟨fun _ => ⟨given,stage⟩,fun _ => joined (txn ▸ was)⟩
    stands := fun first stood kept => by
      rw [same] at kept
      obtain ⟨asked,left⟩ := sound.stands first stood kept
      refine ⟨asked,fun joined => ?_⟩
      rw [txn] at joined
      rw [(unjoined joined).2.1,(unjoined joined).2.2]
      exact left joined
    asked := fun _ _ => .inr (.inr (.inr ⟨given,stage⟩))
    begun := fun _ => by
      rw [same,closing]
      exact fun wrong => (by cases wrong)
    ending := fun _ _ wrong => by
      rw [stage] at wrong
      cases wrong
    leaving := fun wrong => by
      rw [stage] at wrong
      cases wrong
    willing := fun _ _ _ _ => ⟨given,stage⟩
    replied := fun other there => by
      rw [stage] at there
      cases there
      exact replied }
  -- On a transaction of its own, the answer was settled with the transaction.
  have told (joined : state.txn.joined = false) :
      if (if state.refused then .refusal else reply) = .own false then state.committed = state.view.told else state.committed = [] := by
    have left := (sound.stands commit stands closing).2 joined
    cases refused : state.refused with
    | true =>
      rw [apart joined refused] at left
      exact left
    | false =>
      simp only [Bool.false_eq_true,if_false,own refused]
      cases stands <;> exact left
  unfold State.reply
  cases there : state.txn.conn with
  | none =>
    have joined : state.txn.joined = false := by
      refine Bool.eq_false_iff.mpr fun joined => ?_
      have opened := sound.joined joined
      rw [there] at opened
      cases opened
    refine isOver (if state.refused then .refusal else reply) (rest_held state sound.toHeld)
      rfl rfl rfl rfl (fun wrong => absurd (joined.symm.trans wrong) Bool.false_ne_true) (fun _ => ⟨rfl,rfl,rfl⟩) ⟨fun id less => ?_,told joined⟩
    rcases sound.spare id less with member | ⟨_,wrong,_⟩
    · exact member
    · rw [there] at wrong
      cases wrong
  | some conn =>
    simp only
    split
    · next joined =>
      have unended : state.ended = false := by
        refine Bool.eq_false_iff.mpr fun ended => ?_
        obtain ⟨_,wrong⟩ := (sound.endsJoined joined).mp ended
        rw [at_end] at wrong
        cases wrong
      have exactly : endWorkerTxn conn.session (stands && !state.refused) ok = _ := endWorkerTxn_exact fun asked =>
        usable (Bool.and_eq_true_iff.mp asked).1 joined conn there
      have held := ended_held sound.toHeld there unended (endWorkerTxn conn.session (stands && !state.refused) ok).2
      refine isOver _ (rest_held _ held) rfl rfl rfl rfl (fun _ => rfl)
        (fun wrong => absurd (wrong.symm.trans joined) Bool.false_ne_true) ⟨fun id less => ?_,?_⟩
      · rcases sound.spare id less with member | ⟨other,same,named⟩
        · exact List.mem_cons_of_mem _ member
        · rw [there] at same
          cases same
          exact named ▸ List.mem_cons_self ..
      · simp only [exactly]
        cases refused : state.refused with
        | true => simp
        | false =>
          cases stood : stands with
          | false =>
            have other : reply ≠ .own false := fun same => absurd (stood.symm.trans ((own refused).mp same)) Bool.false_ne_true
            simp [other]
          | true =>
            rw [(own refused).mpr stood]
            cases ok with
            | true => simpa using told_now sound.toHeld there (usable stood joined conn there)
            | false => simp
    · next other =>
      have joined : state.txn.joined = false := Bool.not_eq_true _ ▸ other
      refine isOver (if state.refused then .refusal else reply)
        (rest_held state sound.toHeld)
        rfl rfl rfl rfl (fun wrong => absurd (joined.symm.trans wrong) Bool.false_ne_true) (fun _ => ⟨rfl,rfl,rfl⟩) ⟨fun id less => ?_,told joined⟩
      rcases sound.spare id less with member | ⟨other,same,named⟩
      · exact member
      · exact named ▸ (sound.own other same).2.mpr ((sound.ends joined).mpr ⟨commit,stands,closing,by rw [there]; rfl⟩)

end

theorem step_sound : Preserved step Permitted (Sound : State ε ω → Prop) := by
  intro state action after sound permitted moved
  cases action with
  | send task =>
    cases moved
    exact { sound with toHeld := rest_held state sound.toHeld }
  | turn index =>
    obtain ⟨task,_,same⟩ := Option.map_eq_some_iff.mp moved
    subst same
    exact { sound with
      toHeld := rest_held state sound.toHeld
      closes := by
        simp only [List.filterMap_append]
        rw [show [Job.work task].filterMap Job.closes = [] from rfl,List.append_nil]
        exact sound.closes }
  | run fate =>
    simp only [step] at moved
    split at moved
    · cases moved
    · next task rest turn =>
      cases moved
      have closes := sound.closes
      rw [turn,List.filterMap_cons_none (show Job.closes (.work task : Job ε ω) = none from rfl)] at closes
      have taken : Sound {state with tail := rest} := { sound with
        toHeld := rest_held state sound.toHeld
        closes := closes }
      cases isOver : state.txn.isOver with
      | true =>
        unfold State.serve
        rw [if_pos isOver]
        exact taken
      | false =>
        obtain ⟨held,steady⟩ := serve_held taken isOver task fate
        exact steady_sound taken isOver held steady
    · next commit rest turn =>
      cases moved
      exact close_sound sound turn fate.ran fun asked joined conn there => permitted rest conn (asked ▸ turn) joined there
  | engine writes fate =>
    simp only [step] at moved
    split at moved
    · next allowed =>
      obtain ⟨conn,there,same⟩ := Option.map_eq_some_iff.mp moved
      subst same
      exact engine_sound sound allowed.1 (Bool.not_eq_true _ ▸ allowed.2) there writes fate
    · cases moved
  | expire =>
    simp only [step] at moved
    split at moved <;> cases moved
    cases closing : state.closing with
    | some first =>
      unfold State.endRequestTxn
      rw [closing]
      exact sound
    | none =>
      have awaiting : state.stage = .awaiting := by
        by_contra other
        exact sound.begun other closing
      have ended : Sound {state.endRequestTxn false with stage := .awaiting} := endRequestTxn_sound sound awaiting false (fun _ wrong => (by cases wrong))
        (fun wrong => (by cases wrong)) (fun wrong => (by cases wrong)) fun _ _ wrong => (by cases wrong)
      have same : {state.endRequestTxn false with stage := .awaiting} = state.endRequestTxn false := by
        unfold State.endRequestTxn
        rw [closing,awaiting]
      exact same ▸ ended
  | refuse =>
    have refused : Sound {state with refused := true} := { sound with
      toHeld := rest_held state sound.toHeld
      ending := fun answer commit same => ⟨(sound.ending answer commit same).1,fun _ => .inl rfl⟩
      leaving := fun _ => .inl rfl
      willing := fun joined _ stands same => by
        rcases permitted with wrong | idle
        · exact absurd (joined.symm.trans wrong) Bool.false_ne_true
        · exact absurd (idle _ same) (Ne.symm Bool.false_ne_true) }
    simp only [step] at moved
    split at moved <;> cases moved
    exact refused
  | answer answer =>
    simp only [step] at moved
    split at moved
    · next awaiting =>
      split at moved <;> cases moved
      · exact endRequestTxn_sound sound awaiting false (fun _ wrong => (by cases wrong)) (fun wrong => (by cases wrong)) (fun wrong => (by cases wrong))
          fun _ _ wrong => (by cases wrong)
      · refine endRequestTxn_sound sound awaiting _ (fun _ wrong => (by cases wrong)) (fun wrong => (by cases wrong)) (fun asked none_left => ?_)
          fun other keeps same => ?_
        · obtain ⟨keeps,willing⟩ := Bool.and_eq_true_iff.mp asked
          have unrefused : state.refused = false := by simpa using willing
          rw [permitted none_left unrefused keeps,unrefused]
          exact ⟨rfl,rfl⟩
        · cases same
          refine ⟨fun keeps => (Bool.and_eq_true_iff.mp keeps).1,fun gives_up => ?_⟩
          rcases Bool.and_eq_false_iff.mp gives_up with wrong | refused
          · exact .inr wrong
          · exact .inl (by simpa using refused)
    · cases moved
  | proceed ok =>
    obtain ⟨stands,settled,moved⟩ := Option.bind_eq_some_iff.mp moved
    obtain ⟨closing,there,stood⟩ := Option.bind_eq_some_iff.mp settled
    split at moved
    · next answer commit at_end =>
      cases moved
      exact proceed_sound sound at_end there stood
    · next reply at_end =>
      cases moved
      obtain ⟨commit,second⟩ := closing
      simp only at stood
      subst stood
      refine reply_sound sound at_end there ok fun stood joined conn opened => ?_
      have asked := (sound.stands commit stands there).1 stood
      exact permitted reply conn at_end (by rw [there,asked,stood]) joined opened
    · cases moved

-- An answer that is the worker's own is true, and every other one is given where nothing was kept.
theorem request_all_or_nothing {joined : Bool} {actions : List (Action ε ω)} {state : State ε ω} (guarded : Guarded step Permitted (State.start joined) actions)
    (path : run step (State.start joined) actions = some state) :
    state.late = false ∧ state.released.Nodup ∧ (∀ id ∈ state.released, id < state.reserved) ∧
    ∀ reply, state.stage = .replied reply → (∀ id < state.reserved, id ∈ state.released) ∧
      (reply = .own false → state.committed = state.view.told) ∧ (reply ≠ .own false → state.committed = []) := by
  have sound := run_preserves step_sound (start_sound joined) guarded path
  refine ⟨sound.onTime,sound.once,sound.bound,fun reply same => ?_⟩
  obtain ⟨back,kept⟩ := sound.replied reply same
  exact ⟨back,fun own => by rwa [if_pos own] at kept,fun other => by rwa [if_neg other] at kept⟩

end

-- The database answers everything, or fails the worker's statement.
def well : Fate := ⟨some true,true,true,true⟩
def failing : Fate := {well with ran := false}

-- The first statement writes 1; in a scope of a service the second one fails, and the scope is rolled back.
def caught : List (Action Nat Nat) :=
  [.send ⟨1,0,.query [1]⟩,.turn 0,.run well,.send ⟨2,1,.savepoint .begin⟩,.turn 0,.run well,.send ⟨2,1,.query [2]⟩,.turn 0,.run failing,
    .send ⟨2,1,.savepoint .rollback⟩,.turn 0,.run well,.answer (.ok false true),.run well,.proceed true,.proceed true]

theorem caught_kept : ∃ state : State Nat Nat, run step (State.start false) caught = some state ∧ state.stage = .replied (.own false) ∧
    state.committed = [1] ∧ state.released = [0] ∧ state.late = false := by
  have unclosed {state : State Nat Nat} {task : Task Nat Nat} {rest : List (Job Nat Nat)} (turn : state.tail = .work task::rest) (fate : Fate) :
      Permitted state (.run fate) := by
    intro other conn same
    rw [turn] at same
    cases same
  have unjoined {state : State Nat Nat} (own : state.txn.joined = false) (ok : Bool) : Permitted state (.proceed ok) :=
    fun _ _ _ _ wrong => absurd (own.symm.trans wrong) Bool.false_ne_true
  have guarded : Guarded step Permitted (State.start false) caught := by
    refine guarded_cons (show Permitted _ (.send _) from trivial) rfl (guarded_cons (show Permitted _ (.turn 0) from trivial) rfl ?_)
    refine guarded_cons (unclosed rfl well) rfl ?_
    refine guarded_cons (show Permitted _ (.send _) from trivial) rfl (guarded_cons (show Permitted _ (.turn 0) from trivial) rfl ?_)
    refine guarded_cons (unclosed rfl well) rfl ?_
    refine guarded_cons (show Permitted _ (.send _) from trivial) rfl (guarded_cons (show Permitted _ (.turn 0) from trivial) rfl ?_)
    refine guarded_cons (unclosed rfl failing) rfl ?_
    refine guarded_cons (show Permitted _ (.send _) from trivial) rfl (guarded_cons (show Permitted _ (.turn 0) from trivial) rfl ?_)
    refine guarded_cons (unclosed rfl well) rfl ?_
    refine guarded_cons (show Permitted _ (.answer _) from fun _ _ _ => rfl) rfl ?_
    refine guarded_cons (show Permitted _ (.run _) from fun rest conn _ _ there => by cases there; rfl) rfl ?_
    exact guarded_cons (unjoined rfl true) rfl (guarded_cons (unjoined rfl true) rfl trivial)
  obtain ⟨state,path⟩ : ∃ state, run step (State.start false) caught = some state := ⟨_,rfl⟩
  have replied : state.stage = .replied (.own false) ∧ state.view.told = [1] ∧ state.released = [0] := by
    cases path
    exact ⟨rfl,rfl,rfl⟩
  obtain ⟨onTime,_,_,answered⟩ := request_all_or_nothing guarded path
  exact ⟨state,path,replied.1,((answered _ replied.1).2.1 rfl).trans replied.2.1,replied.2.2,onTime⟩

-- The second statement fails, the worker goes on: COMMIT rolls back, and the worker's answer is given.
def swallowed : List (Action Nat Nat) :=
  [.send ⟨1,0,.query [1]⟩,.turn 0,.run well,.send ⟨1,0,.query [2]⟩,.turn 0,.run failing,.answer (.ok false true),.run well,.proceed true,.proceed true]

theorem swallowed_lost : ∃ state : State Nat Nat, run step (State.start false) swallowed = some state ∧ state.stage = .replied (.own false) ∧
    state.view.told = [1] ∧ state.committed = [] := ⟨_,rfl,rfl,rfl,rfl⟩

end Zveltio.WorkerRequest
