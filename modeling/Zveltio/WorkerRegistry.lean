import Zveltio.Runs
import Mathlib.Data.List.Basic
namespace Zveltio.WorkerRegistry
open Runs

-- A process of an extension with what the host keeps of it: the services it registered, the keys it listens by.
structure Generation (ε σ κ : Type) where
  name : ε
  running : Bool
  registered : List σ
  listeners : List κ
  stopped : Bool

-- A service with its owner and the generation whose process answers it.
structure Entry (ε : Type) where
  owner : ε
  maker : Nat

inductive Purpose where
  | start
  | replace (old : Nat)
  deriving DecidableEq

-- A spawn awaits its channel, then the answer to init, then goes on.
inductive Phase where
  | opening
  | waiting
  | answered (ok : Bool)
  deriving DecidableEq

structure Spawn (ε : Type) where
  name : ε
  purpose : Purpose
  phase : Phase

-- An extension's queue of restarts: a respawn, a change of the approval before and after it was read, a restart under way.
inductive Task where
  | respawn (id : Nat)
  | forward
  | deciding
  | replacing

structure State (ε σ κ : Type) where
  gens : Nat → Option (Generation ε σ κ)
  spawns : Nat → Option (Spawn ε)
  workers : ε → Option Nat
  registry : σ → Option (Entry ε)
  bus : Nat → κ → Bool
  timers : List Nat
  queue : ε → List Task
  next : Nat

def State.initial {ε σ κ : Type} : State ε σ κ := ⟨fun _ => none,fun _ => none,fun _ => none,fun _ => none,fun _ _ => false,[],fun _ => [],0⟩

section
variable {ε σ κ : Type} [DecidableEq ε] [DecidableEq σ] [DecidableEq κ]

def registerAs (registry : σ → Option (Entry ε)) (owner : ε) (service : σ) (maker : Nat) : Option (σ → Option (Entry ε)) :=
  match registry service with
  | some entry => if entry.owner = owner then some (Function.update registry service (some ⟨owner,maker⟩)) else none
  | none => some (Function.update registry service (some ⟨owner,maker⟩))

def unregisterAs (registry : σ → Option (Entry ε)) (owner : ε) (services : List σ) : σ → Option (Entry ε) :=
  fun service => (registry service).filter fun entry => ¬(service ∈ services ∧ entry.owner = owner)

def State.clean (state : State ε σ κ) (id : Nat) (generation : Generation ε σ κ) : State ε σ κ :=
  {state with
    registry := unregisterAs state.registry generation.name generation.registered
    bus := Function.update state.bus id fun key => state.bus id key && decide (key ∉ generation.listeners)}

def State.retire (state : State ε σ κ) (id : Nat) : State ε σ κ :=
  match state.gens id with
  | none => state
  | some generation =>
    let cleaned := state.clean id generation
    {cleaned with gens := Function.update state.gens id (some {generation with running := false,registered := [],listeners := []})}

def State.scheduleRespawn (state : State ε σ κ) (id : Nat) : State ε σ κ :=
  match state.gens id with
  | none => state
  | some generation =>
    if generation.stopped ∨ state.workers generation.name ≠ some id then state
    else
      let retired := state.retire id
      {retired with timers := id::state.timers}

def State.terminate (state : State ε σ κ) (id : Nat) : State ε σ κ :=
  {state with gens := Function.update state.gens id ((state.gens id).map fun generation => {generation with running := false})}

def State.stop (state : State ε σ κ) (name : ε) : State ε σ κ :=
  match state.workers name with
  | none => state
  | some id => match state.gens id with
    | none => state
    | some generation =>
      let cleaned := state.clean id generation
      {cleaned with
        gens := Function.update state.gens id (some {generation with running := false,listeners := [],stopped := true})
        workers := Function.update state.workers name none}

def State.setPhase (state : State ε σ κ) (id : Nat) (spawn : Spawn ε) (phase : Phase) : State ε σ κ :=
  {state with spawns := Function.update state.spawns id (some {spawn with phase := phase})}

def State.leave (state : State ε σ κ) (id : Nat) (spawn : Spawn ε) : State ε σ κ :=
  {state with
    spawns := Function.update state.spawns id none
    queue := match spawn.purpose with
      | .start => state.queue
      | .replace _ => Function.update state.queue spawn.name (state.queue spawn.name).tail}

def State.failed (state : State ε σ κ) (id : Nat) (spawn : Spawn ε) : State ε σ κ :=
  match spawn.purpose with
  | .start => state.leave id spawn
  | .replace old => (state.leave id spawn).scheduleRespawn old

def State.spawn (state : State ε σ κ) (name : ε) (purpose : Purpose) : State ε σ κ :=
  {state with spawns := Function.update state.spawns state.next (some ⟨name,purpose,.opening⟩),next := state.next + 1}

def State.put (state : State ε σ κ) (id : Nat) (spawn : Spawn ε) : State ε σ κ :=
  let left := state.leave id spawn
  {left with workers := Function.update state.workers spawn.name (some id)}

def State.stale (state : State ε σ κ) (spawn : Spawn ε) : Bool :=
  match spawn.purpose with
  | .start => false
  | .replace old => (state.gens old).any Generation.stopped || decide (state.workers spawn.name ≠ some old)

inductive Action (ε σ κ : Type) where
  | start (name : ε)
  | stop (name : ε)
  | opened (id : Nat)
  | unopened (id : Nat)
  | register (id : Nat) (service : σ)
  | unregister (id : Nat) (service : σ)
  | on (id : Nat) (key : κ)
  | off (id : Nat) (key : κ)
  | answer (id : Nat) (ok : Bool)
  | expire (id : Nat)
  | settle (id : Nat)
  | crash (id : Nat)
  | hang (id : Nat)
  | fire (id : Nat)
  | change (name : ε)
  | turn (name : ε) (same : Bool)

-- The services an extension may publish: those of its namespace.
variable (owns : ε → σ → Bool)

-- handleServiceRegister of a generation: refused, nothing changes.
def State.publish (state : State ε σ κ) (id : Nat) (generation : Generation ε σ κ) (service : σ) : State ε σ κ :=
  if owns generation.name service then
    match registerAs state.registry generation.name service id with
    | none => state
    | some registry =>
      {state with registry,gens := Function.update state.gens id (some {generation with registered := service::generation.registered})}
  else state

def State.turn (state : State ε σ κ) (name : ε) (same : Bool) : Option (State ε σ κ) :=
  match state.queue name with
  | [] => none
  | .replacing::_ => none
  | .respawn id::rest =>
    if (state.gens id).any Generation.stopped ∨ state.workers name ≠ some id then some {state with queue := Function.update state.queue name rest}
    else
      let spawning := state.spawn name (.replace id)
      some {spawning with queue := Function.update state.queue name (.replacing::rest)}
  | .forward::rest =>
    some {state with queue := Function.update state.queue name (if state.workers name = none then rest else .deciding::rest)}
  | .deciding::rest => match state.workers name with
    | none => some {state with queue := Function.update state.queue name rest}
    | some id =>
      if same then some {state with queue := Function.update state.queue name rest}
      else
        let spawning := (state.retire id).spawn name (.replace id)
        some {spawning with queue := Function.update state.queue name (.replacing::rest)}

def step (state : State ε σ κ) : Action ε σ κ → Option (State ε σ κ)
  | .start name => some (if (state.workers name).isSome then state else state.spawn name .start)
  | .stop name => some (state.stop name)
  | .opened id => (state.spawns id).bind fun spawn =>
    if spawn.phase = .opening then
      let waiting := state.setPhase id spawn .waiting
      some {waiting with gens := Function.update state.gens id (some ⟨spawn.name,true,[],[],false⟩)}
    else none
  | .unopened id => (state.spawns id).bind fun spawn => if spawn.phase = .opening then some (state.failed id spawn) else none
  | .register id service => (state.gens id).map fun generation => state.publish owns id generation service
  | .unregister id service => (state.gens id).map fun generation =>
    if service ∈ generation.registered then
      {state with
        registry := unregisterAs state.registry generation.name [service]
        gens := Function.update state.gens id (some {generation with registered := generation.registered.filter (· ≠ service)})}
    else state
  | .on id key => (state.gens id).map fun generation =>
    {state with
      bus := Function.update state.bus id (Function.update (state.bus id) key true)
      gens := Function.update state.gens id (some {generation with listeners := key::generation.listeners})}
  | .off id key => (state.gens id).map fun generation =>
    if key ∈ generation.listeners then
      {state with
        bus := Function.update state.bus id (Function.update (state.bus id) key false)
        gens := Function.update state.gens id (some {generation with listeners := generation.listeners.filter (· ≠ key)})}
    else state
  | .answer id ok => (state.spawns id).bind fun spawn => if spawn.phase = .waiting then some (state.setPhase id spawn (.answered ok)) else none
  | .expire id => (state.spawns id).bind fun spawn =>
    if spawn.phase = .waiting then some ((state.terminate id).failed id spawn) else none
  | .settle id => (state.spawns id).bind fun spawn => match spawn.phase with
    | .answered true => some (if state.stale spawn then (state.terminate id).failed id spawn else state.put id spawn)
    | .answered false => some ((state.terminate id).failed id spawn)
    | _ => none
  | .crash id => (state.gens id).bind fun generation =>
    if generation.running then match state.spawns id with
      | none => some ((state.terminate id).scheduleRespawn id)
      | some spawn => some (if spawn.phase = .waiting then (state.terminate id).failed id spawn else state.terminate id)
    else none
  | .hang id => if state.spawns id = none then some (state.scheduleRespawn id) else none
  | .fire id => if id ∈ state.timers then (state.gens id).map fun generation =>
      {state with timers := state.timers.erase id,queue := Function.update state.queue generation.name (state.queue generation.name ++ [.respawn id])}
    else none
  | .change name => some {state with queue := Function.update state.queue name (state.queue name ++ [.forward])}
  | .turn name same => state.turn name same

omit [DecidableEq ε] [DecidableEq σ] [DecidableEq κ] in
def Silent (state : State ε σ κ) (id : Nat) : Prop :=
  (∀ service entry, state.registry service = some entry → entry.maker ≠ id) ∧ ∀ key, state.bus id key = false

-- One start or stop of an extension at a time; no message of a process that is over; what never gets into workers leaves silent.
def Permitted (state : State ε σ κ) : Action ε σ κ → Prop
  | .start name => ∀ id spawn, state.spawns id = some spawn → spawn.purpose = .start → spawn.name ≠ name
  | .stop name => ∀ id spawn, state.spawns id = some spawn → spawn.purpose = .start → spawn.name ≠ name
  | .register id _ => ∀ generation, state.gens id = some generation → generation.running = true
  | .on id _ => ∀ generation, state.gens id = some generation → generation.running = true
  | .expire id => Silent state id
  | .settle id => ∀ spawn, state.spawns id = some spawn → spawn.phase = .answered false ∨ state.stale spawn = true → Silent state id
  | .crash id => state.spawns id ≠ none → Silent state id
  | _ => True

structure Sound (state : State ε σ κ) : Prop where
  made : ∀ service entry, state.registry service = some entry → ∃ generation, state.gens entry.maker = some generation ∧
    generation.name = entry.owner ∧ generation.running = true ∧ service ∈ generation.registered
  heard : ∀ id key, state.bus id key = true → ∃ generation, state.gens id = some generation ∧ generation.running = true ∧ key ∈ generation.listeners
  placed : ∀ id generation, state.gens id = some generation → generation.running = true →
    state.workers generation.name = some id ∨ state.spawns id ≠ none
  held : ∀ name id, state.workers name = some id → state.spawns id = none ∧ ∃ generation, state.gens id = some generation ∧
    generation.name = name ∧ generation.stopped = false
  unopened : ∀ id spawn, state.spawns id = some spawn → spawn.phase = .opening → state.gens id = none
  opened : ∀ id spawn, state.spawns id = some spawn → spawn.phase ≠ .opening → ∃ generation, state.gens id = some generation ∧
    generation.name = spawn.name ∧ generation.stopped = false
  starting : ∀ id spawn, state.spawns id = some spawn → spawn.purpose = .start → state.workers spawn.name = none
  single : ∀ id other spawn second, state.spawns id = some spawn → state.spawns other = some second → spawn.purpose = .start → second.purpose = .start →
    spawn.name = second.name → id = other
  restarting : ∀ id spawn old, state.spawns id = some spawn → spawn.purpose = .replace old → ∃ generation, state.gens old = some generation ∧
    generation.running = false ∧ generation.name = spawn.name
  timed : ∀ id ∈ state.timers, ∃ generation, state.gens id = some generation ∧ generation.running = false
  queued : ∀ name id, .respawn id ∈ state.queue name → ∃ generation, state.gens id = some generation ∧ generation.running = false ∧ generation.name = name
  fresh : ∀ id, state.next ≤ id → state.gens id = none ∧ state.spawns id = none

omit [DecidableEq ε] [DecidableEq σ] [DecidableEq κ] in
theorem initial_sound : Sound (State.initial : State ε σ κ) := by
  constructor <;> simp [State.initial]

theorem unregisterAs_some {registry : σ → Option (Entry ε)} : unregisterAs registry owner services service = some entry ↔
    registry service = some entry ∧ ¬(service ∈ services ∧ entry.owner = owner) := by
  unfold unregisterAs
  rw [Option.filter_eq_some_iff,decide_eq_true_eq]

section
variable {state : State ε σ κ} {id : Nat} {generation next : Generation ε σ κ}

theorem clean_sound (sound : Sound state) (found : state.gens id = some generation) : Sound (state.clean id generation) ∧ Silent (state.clean id generation) id := by
  unfold State.clean
  refine ⟨⟨fun service entry held => ?_,fun other key held => ?_,sound.placed,sound.held,sound.unopened,sound.opened,sound.starting,sound.single,
    sound.restarting,sound.timed,sound.queued,sound.fresh⟩,fun service entry held => ?_,fun key => ?_⟩
  · exact sound.made service entry (unregisterAs_some.mp held).1
  · by_cases here : other = id
    · subst here
      simp only [Function.update_self,Bool.and_eq_true] at held
      exact sound.heard other key held.1
    · simp only [Function.update_of_ne here] at held
      exact sound.heard other key held
  · obtain ⟨kept,apart⟩ := unregisterAs_some.mp held
    obtain ⟨maker,there,owner,_,listed⟩ := sound.made service entry kept
    intro same
    rw [same,found] at there
    cases Option.some.inj there
    exact apart ⟨listed,owner.symm⟩
  · simp only [Function.update_self]
    cases heard : state.bus id key with
    | false => rfl
    | true =>
      obtain ⟨maker,there,_,listed⟩ := sound.heard id key heard
      rw [found] at there
      cases Option.some.inj there
      simp [listed]

omit [DecidableEq ε] [DecidableEq σ] [DecidableEq κ] in
theorem end_sound (next : Generation ε σ κ) (sound : Sound state) (silent : Silent state id) (found : state.gens id = some generation) (named : next.name = generation.name)
    (dead : next.running = false) (kept : next.stopped = true → generation.stopped = true ∨ state.spawns id = none ∧ ∀ name, state.workers name ≠ some id) :
    Sound {state with gens := Function.update state.gens id (some next)} := by
  have other (maker : Nat) (apart : maker ≠ id) : Function.update state.gens id (some next) maker = state.gens maker := Function.update_of_ne apart ..
  have retired (old : Nat) (name : ε) (was : ∃ held, state.gens old = some held ∧ held.running = false ∧ held.name = name) :
      ∃ held, Function.update state.gens id (some next) old = some held ∧ held.running = false ∧ held.name = name := by
    obtain ⟨held,there,isOver,same⟩ := was
    by_cases here : old = id
    · subst here
      rw [found] at there
      cases Option.some.inj there
      exact ⟨next,Function.update_self ..,dead,named.trans same⟩
    · exact ⟨held,(other old here).trans there,isOver,same⟩
  have current (new : Nat) (name : ε) (unstopped : state.spawns new ≠ none ∨ state.workers name = some new)
      (was : ∃ held, state.gens new = some held ∧ held.name = name ∧ held.stopped = false) :
      ∃ held, Function.update state.gens id (some next) new = some held ∧ held.name = name ∧ held.stopped = false := by
    obtain ⟨held,there,same,going⟩ := was
    by_cases here : new = id
    · subst here
      rw [found] at there
      cases Option.some.inj there
      refine ⟨next,Function.update_self ..,named.trans same,?_⟩
      cases stopped : next.stopped with
      | false => rfl
      | true =>
        rcases kept stopped with before | ⟨gone,apart⟩
        · rw [before] at going
          cases going
        · rcases unstopped with spawning | mapped
          · exact absurd gone spawning
          · exact absurd mapped (apart name)
    · exact ⟨held,(other new here).trans there,same,going⟩
  refine ⟨fun service entry held => ?_,fun maker key held => ?_,fun maker held there lives => ?_,fun name new mapped => ?_,fun new spawn there opening => ?_,
    fun new spawn there past => ?_,sound.starting,sound.single,fun new spawn old there purpose => ?_,fun old member => ?_,fun name old member => ?_,fun new late => ?_⟩
  · obtain ⟨maker,there,facts⟩ := sound.made service entry held
    exact ⟨maker,(other _ (silent.1 service entry held)).trans there,facts⟩
  · have apart : maker ≠ id := by
      intro same
      rw [same,silent.2 key] at held
      cases held
    obtain ⟨held,there,facts⟩ := sound.heard maker key held
    exact ⟨held,(other maker apart).trans there,facts⟩
  · by_cases here : maker = id
    · subst here
      simp only [Function.update_self] at there
      cases Option.some.inj there
      rw [dead] at lives
      cases lives
    · exact sound.placed maker held ((other maker here).symm.trans there) lives
  · obtain ⟨gone,was⟩ := sound.held name new mapped
    exact ⟨gone,current new name (.inr mapped) was⟩
  · by_cases here : new = id
    · rw [here] at there
      have none_left := sound.unopened id spawn there opening
      rw [found] at none_left
      cases none_left
    · exact (other new here).trans (sound.unopened new spawn there opening)
  · exact current new spawn.name (.inl (by rw [there]; exact Option.some_ne_none _)) (sound.opened new spawn there past)
  · exact retired old spawn.name (sound.restarting new spawn old there purpose)
  · obtain ⟨held,there,isOver⟩ := sound.timed old member
    obtain ⟨held,there,isOver,_⟩ := retired old held.name ⟨held,there,isOver,rfl⟩
    exact ⟨held,there,isOver⟩
  · exact retired old name (sound.queued name old member)
  · obtain ⟨none_left,gone⟩ := sound.fresh new late
    have apart : new ≠ id := by
      intro same
      rw [same,found] at none_left
      cases none_left
    exact ⟨(other new apart).trans none_left,gone⟩

theorem retire_sound (sound : Sound state) (id : Nat) : Sound (state.retire id) := by
  unfold State.retire
  split
  · exact sound
  · next generation found =>
    obtain ⟨cleaned,silent⟩ := clean_sound sound found
    exact end_sound _ cleaned silent found rfl rfl .inl

theorem retire_over {held : Generation ε σ κ} (found : (state.retire id).gens id = some held) : held.running = false := by
  unfold State.retire at found
  split at found
  · next none_left =>
    rw [none_left] at found
    cases found
  · simp only [Function.update_self] at found
    cases Option.some.inj found
    rfl

theorem retire_named {held : Generation ε σ κ} {other : Nat} (id : Nat) (found : state.gens other = some held) :
    ∃ kept, (state.retire id).gens other = some kept ∧ kept.name = held.name ∧ kept.stopped = held.stopped := by
  unfold State.retire
  split
  · exact ⟨held,found,rfl,rfl⟩
  · next generation there =>
    by_cases here : other = id
    · subst here
      rw [there] at found
      cases Option.some.inj found
      exact ⟨_,Function.update_self ..,rfl,rfl⟩
    · exact ⟨held,(Function.update_of_ne here ..).trans found,rfl,rfl⟩

theorem retire_frame (state : State ε σ κ) (id : Nat) : (state.retire id).spawns = state.spawns ∧ (state.retire id).workers = state.workers ∧
    (state.retire id).queue = state.queue ∧ (state.retire id).timers = state.timers ∧ (state.retire id).next = state.next := by
  unfold State.retire
  split <;> exact ⟨rfl,rfl,rfl,rfl,rfl⟩

theorem respawn_sound (sound : Sound state) (id : Nat) : Sound (state.scheduleRespawn id) := by
  unfold State.scheduleRespawn
  split
  · exact sound
  · next generation found =>
    split
    · exact sound
    · have retired := retire_sound sound id
      refine ⟨retired.made,retired.heard,retired.placed,retired.held,retired.unopened,retired.opened,retired.starting,retired.single,retired.restarting,
        fun old member => ?_,retired.queued,retired.fresh⟩
      rcases List.mem_cons.mp member with same | member
      · obtain ⟨kept,there,_⟩ := retire_named id found
        exact ⟨kept,same ▸ there,retire_over there⟩
      · exact retired.timed old ((retire_frame state id).2.2.2.1.symm ▸ member)

omit [DecidableEq ε] [DecidableEq σ] [DecidableEq κ] in
theorem terminate_sound (sound : Sound state) (silent : Silent state id) : Sound (state.terminate id) ∧ Silent (state.terminate id) id := by
  refine ⟨?_,silent⟩
  unfold State.terminate
  cases found : state.gens id with
  | none =>
    have same : Function.update state.gens id none = state.gens := by
      rw [← found]
      exact Function.update_eq_self id state.gens
    simp only [Option.map_none,same]
    exact sound
  | some generation => exact end_sound _ sound silent found rfl rfl .inl

omit [DecidableEq ε] [DecidableEq σ] [DecidableEq κ] in
theorem terminate_over {held : Generation ε σ κ} (found : (state.terminate id).gens id = some held) : held.running = false := by
  unfold State.terminate at found
  simp only [Function.update_self] at found
  obtain ⟨_,_,same⟩ := Option.map_eq_some_iff.mp found
  rw [← same]

omit [DecidableEq σ] [DecidableEq κ] in
theorem leave_onto {workers : ε → Option Nat} (sound : Sound state) (spawn : Spawn ε)
    (placed : ∀ other held, state.gens other = some held → held.running = true → workers held.name = some other ∨ other ≠ id ∧ state.spawns other ≠ none)
    (held : ∀ name new, workers name = some new → (new = id ∨ state.spawns new = none) ∧ ∃ held, state.gens new = some held ∧ held.name = name ∧ held.stopped = false)
    (starting : ∀ other second, other ≠ id → state.spawns other = some second → second.purpose = .start → workers second.name = none) :
    Sound {state.leave id spawn with workers} := by
  have spawned {other : Nat} {second : Spawn ε} (there : Function.update state.spawns id none other = some second) :
      other ≠ id ∧ state.spawns other = some second := by
    by_cases here : other = id
    · rw [here,Function.update_self] at there
      cases there
    · exact ⟨here,(Function.update_of_ne here ..).symm.trans there⟩
  have left {other : Nat} (gone : other = id ∨ state.spawns other = none) : Function.update state.spawns id none other = none := by
    by_cases here : other = id
    · exact here ▸ Function.update_self ..
    · exact (Function.update_of_ne here ..).trans (gone.resolve_left here)
  unfold State.leave
  refine ⟨sound.made,sound.heard,fun other first there lives => ?_,fun name new mapped => ?_,fun other second there => sound.unopened other second (spawned there).2,
    fun other second there => sound.opened other second (spawned there).2,fun other second there => starting other second (spawned there).1 (spawned there).2,
    fun other new second third first there => sound.single other new second third (spawned first).2 (spawned there).2,
    fun other second old there => sound.restarting other second old (spawned there).2,sound.timed,fun name old member => ?_,fun new late => ?_⟩
  · rcases placed other first there lives with mapped | ⟨apart,spawning⟩
    · exact .inl mapped
    · refine .inr ?_
      simpa only [Function.update_of_ne apart] using spawning
  · obtain ⟨gone,was⟩ := held name new mapped
    exact ⟨left gone,was⟩
  · apply sound.queued name old
    cases purpose : spawn.purpose with
    | start => simpa only [purpose] using member
    | replace first =>
      simp only [purpose] at member
      by_cases here : name = spawn.name
      · rw [here,Function.update_self] at member
        exact here ▸ List.mem_of_mem_tail member
      · rwa [Function.update_of_ne here] at member
  · obtain ⟨none_left,gone⟩ := sound.fresh new late
    exact ⟨none_left,left (.inr gone)⟩

omit [DecidableEq σ] [DecidableEq κ] in
theorem leave_sound (sound : Sound state) (spawn : Spawn ε) (isOver : ∀ held, state.gens id = some held → held.running = false) :
    Sound (state.leave id spawn) := by
  refine leave_onto sound spawn (fun other held there lives => ?_) (fun name new mapped => ?_) fun other second _ => sound.starting other second
  · rcases sound.placed other held there lives with mapped | spawning
    · exact .inl mapped
    · refine .inr ⟨?_,spawning⟩
      intro same
      rw [isOver held (same ▸ there)] at lives
      cases lives
  · obtain ⟨gone,was⟩ := sound.held name new mapped
    exact ⟨.inr gone,was⟩

omit [DecidableEq σ] [DecidableEq κ] in
theorem put_sound {spawn : Spawn ε} (sound : Sound state) (there : state.spawns id = some spawn) (past : spawn.phase ≠ .opening) (current : state.stale spawn = false) :
    Sound (state.put id spawn) := by
  obtain ⟨own,found,named,going⟩ := sound.opened id spawn there past
  -- Of a start nothing was in workers; of a restart, the retired generation.
  have before : state.workers spawn.name = none ∨ ∃ old, spawn.purpose = .replace old ∧ state.workers spawn.name = some old := by
    cases purpose : spawn.purpose with
    | start => exact .inl (sound.starting id spawn there purpose)
    | replace old =>
      simp only [State.stale,purpose,Bool.or_eq_false_iff,decide_eq_false_iff_not,not_not] at current
      exact .inr ⟨old,rfl,current.2⟩
  refine leave_onto sound spawn (fun other held here lives => ?_) (fun name new mapped => ?_) fun other second apart begins starts => ?_
  · by_cases same : held.name = spawn.name
    · by_cases self : other = id
      · exact .inl (by rw [same,Function.update_self,self])
      · refine .inr ⟨self,?_⟩
        rcases sound.placed other held here lives with mapped | spawning
        · rw [same] at mapped
          rcases before with none_left | ⟨old,purpose,was⟩
          · rw [mapped] at none_left
            cases none_left
          · rw [mapped] at was
            cases Option.some.inj was
            obtain ⟨retired,gone,isOver,_⟩ := sound.restarting id spawn other there purpose
            rw [here] at gone
            cases Option.some.inj gone
            rw [isOver] at lives
            cases lives
        · exact spawning
    · rcases sound.placed other held here lives with mapped | spawning
      · exact .inl ((Function.update_of_ne same ..).trans mapped)
      · refine .inr ⟨?_,spawning⟩
        intro self
        rw [self,found] at here
        cases Option.some.inj here
        exact same named
  · by_cases same : name = spawn.name
    · rw [same,Function.update_self] at mapped
      cases Option.some.inj mapped
      exact ⟨.inl rfl,own,found,named.trans same.symm,going⟩
    · rw [Function.update_of_ne same] at mapped
      obtain ⟨gone,was⟩ := sound.held name new mapped
      exact ⟨.inr gone,was⟩
  · have apart_named : second.name ≠ spawn.name := by
      intro same
      rcases before with none_left | ⟨old,purpose,was⟩
      · cases purpose : spawn.purpose with
        | start => exact apart (sound.single other id second spawn begins there starts purpose same)
        | replace old =>
          simp only [State.stale,purpose,none_left,Bool.or_eq_false_iff,decide_eq_false_iff_not,not_not] at current
          cases current.2
      · have free := sound.starting other second begins starts
        rw [same,was] at free
        cases free
    exact (Function.update_of_ne apart_named ..).trans (sound.starting other second begins starts)

theorem failed_sound (sound : Sound state) (spawn : Spawn ε) (isOver : ∀ held, state.gens id = some held → held.running = false) :
    Sound (state.failed id spawn) := by
  have left := leave_sound sound spawn isOver
  unfold State.failed
  split
  · exact left
  · exact respawn_sound left _

omit [DecidableEq ε] [DecidableEq σ] [DecidableEq κ] in
theorem spawn_sound (sound : Sound state) (name : ε) (purpose : Purpose)
    (free : purpose = .start → state.workers name = none ∧ ∀ id spawn, state.spawns id = some spawn → spawn.purpose = .start → spawn.name ≠ name)
    (retired : ∀ old, purpose = .replace old → ∃ generation, state.gens old = some generation ∧ generation.running = false ∧ generation.name = name) :
    Sound (state.spawn name purpose) := by
  obtain ⟨none_left,gone⟩ := sound.fresh state.next (Nat.le_refl _)
  have spawned {id : Nat} {spawn : Spawn ε} (there : Function.update state.spawns state.next (some ⟨name,purpose,.opening⟩) id = some spawn) :
      id = state.next ∧ spawn = ⟨name,purpose,.opening⟩ ∨ id ≠ state.next ∧ state.spawns id = some spawn := by
    by_cases here : id = state.next
    · rw [here,Function.update_self] at there
      exact .inl ⟨here,(Option.some.inj there).symm⟩
    · exact .inr ⟨here,(Function.update_of_ne here ..).symm.trans there⟩
  unfold State.spawn
  refine ⟨sound.made,sound.heard,fun id held there lives => ?_,fun other id mapped => ?_,fun id spawn there opening => ?_,fun id spawn there past => ?_,
    fun id spawn there starts => ?_,fun id other spawn second there next starts begins same => ?_,fun id spawn old there replaces => ?_,sound.timed,sound.queued,
    fun id late => ?_⟩
  · rcases sound.placed id held there lives with mapped | spawning
    · exact .inl mapped
    · refine .inr ?_
      by_cases here : id = state.next
      · exact absurd gone (here ▸ spawning)
      · simpa only [Function.update_of_ne here] using spawning
  · obtain ⟨free,was⟩ := sound.held other id mapped
    refine ⟨?_,was⟩
    have apart : id ≠ state.next := by
      intro same
      obtain ⟨_,there,_⟩ := was
      rw [same,none_left] at there
      cases there
    exact (Function.update_of_ne apart ..).trans free
  · rcases spawned there with ⟨here,_⟩ | ⟨_,there⟩
    · exact here ▸ none_left
    · exact sound.unopened id spawn there opening
  · rcases spawned there with ⟨_,same⟩ | ⟨_,there⟩
    · exact absurd (congrArg Spawn.phase same) past
    · exact sound.opened id spawn there past
  · rcases spawned there with ⟨_,same⟩ | ⟨_,there⟩
    · rw [same] at starts ⊢
      exact (free starts).1
    · exact sound.starting id spawn there starts
  · rcases spawned there with ⟨here,first⟩ | ⟨_,there⟩ <;> rcases spawned next with ⟨there',later⟩ | ⟨_,next⟩
    · exact here.trans there'.symm
    · rw [first] at starts same
      exact absurd same.symm ((free starts).2 other second next begins)
    · rw [later] at begins same
      exact absurd same ((free begins).2 id spawn there starts)
    · exact sound.single id other spawn second there next starts begins same
  · rcases spawned there with ⟨_,same⟩ | ⟨_,there⟩
    · rw [same] at replaces ⊢
      exact retired old replaces
    · exact sound.restarting id spawn old there replaces
  · have above : state.next ≤ id := Nat.le_of_succ_le late
    refine ⟨(sound.fresh id above).1,?_⟩
    exact (Function.update_of_ne (Nat.ne_of_gt late) ..).trans (sound.fresh id above).2

omit [DecidableEq σ] [DecidableEq κ] in
theorem unmap_sound {name : ε} (sound : Sound state) (mapped : state.workers name = some id) (isOver : ∀ held, state.gens id = some held → held.running = false) :
    Sound {state with workers := Function.update state.workers name none} := by
  refine ⟨sound.made,sound.heard,fun other held there lives => ?_,fun second new kept => ?_,sound.unopened,sound.opened,fun other spawn there starts => ?_,
    sound.single,sound.restarting,sound.timed,sound.queued,sound.fresh⟩
  · rcases sound.placed other held there lives with was | spawning
    · by_cases same : held.name = name
      · rw [same,mapped] at was
        rw [isOver held (Option.some.inj was ▸ there)] at lives
        cases lives
      · exact .inl ((Function.update_of_ne same ..).trans was)
    · exact .inr spawning
  · by_cases same : second = name
    · simp only [same,Function.update_self] at kept
      cases kept
    · exact sound.held second new ((Function.update_of_ne same ..).symm.trans kept)
  · by_cases same : spawn.name = name
    · simp only [same,Function.update_self]
    · exact (Function.update_of_ne same ..).trans (sound.starting other spawn there starts)

theorem stop_sound (sound : Sound state) (name : ε) : Sound (state.stop name) := by
  unfold State.stop
  split
  · exact sound
  · next id mapped =>
    split
    · exact sound
    · next generation found =>
      obtain ⟨gone,_⟩ := sound.held name id mapped
      obtain ⟨cleaned,silent⟩ := clean_sound sound found
      -- First the process ends, then workers forgets it, then it is marked.
      have ended := end_sound {generation with running := false,listeners := []} cleaned silent found rfl rfl .inl
      have unmapped := unmap_sound ended mapped fun held there => by
        simp only [Function.update_self] at there
        rw [← Option.some.inj there]
      have marked := end_sound {generation with running := false,listeners := [],stopped := true} unmapped silent (Function.update_self ..) rfl rfl fun _ => .inr ⟨gone,fun other kept => by
          by_cases same : other = name
          · simp only [same,Function.update_self] at kept
            cases kept
          · simp only [Function.update_of_ne same] at kept
            obtain ⟨_,held,there,named,_⟩ := sound.held other id kept
            obtain ⟨_,second,here,called,_⟩ := sound.held name id mapped
            rw [there] at here
            cases Option.some.inj here
            exact same (named.symm.trans called)⟩
      simp only [Function.update_idem] at marked
      exact marked

omit [DecidableEq ε] [DecidableEq σ] [DecidableEq κ] in
theorem speak_sound {registry : σ → Option (Entry ε)} (bus : Nat → κ → Bool) (sound : Sound state) (found : state.gens id = some generation)
    (named : next.name = generation.name) (lives : next.running = generation.running) (kept : next.stopped = generation.stopped)
    (made : ∀ service entry, registry service = some entry → entry.maker = id ∧ entry.owner = next.name ∧ next.running = true ∧ service ∈ next.registered ∨
      entry.maker ≠ id ∧ state.registry service = some entry)
    (heard : ∀ other key, bus other key = true → other = id ∧ next.running = true ∧ key ∈ next.listeners ∨ other ≠ id ∧ state.bus other key = true) :
    Sound {state with registry,bus,gens := Function.update state.gens id (some next)} := by
  have carried {maker : Nat} {held : Generation ε σ κ} (there : state.gens maker = some held) :
      ∃ later, Function.update state.gens id (some next) maker = some later ∧ later.name = held.name ∧ later.running = held.running ∧ later.stopped = held.stopped := by
    by_cases here : maker = id
    · subst here
      rw [found] at there
      cases Option.some.inj there
      exact ⟨next,Function.update_self ..,named,lives,kept⟩
    · exact ⟨held,(Function.update_of_ne here ..).trans there,rfl,rfl,rfl⟩
  have back {maker : Nat} {later : Generation ε σ κ} (there : Function.update state.gens id (some next) maker = some later) :
      ∃ held, state.gens maker = some held ∧ later.name = held.name ∧ later.running = held.running := by
    by_cases here : maker = id
    · subst here
      rw [Function.update_self] at there
      cases Option.some.inj there
      exact ⟨generation,found,named,lives⟩
    · exact ⟨later,(Function.update_of_ne here ..).symm.trans there,rfl,rfl⟩
  have absent {maker : Nat} (none_left : state.gens maker = none) : Function.update state.gens id (some next) maker = none := by
    have apart : maker ≠ id := by
      intro same
      rw [same,found] at none_left
      cases none_left
    exact (Function.update_of_ne apart ..).trans none_left
  refine ⟨fun service entry held => ?_,fun other key held => ?_,fun maker later there alive => ?_,fun name new mapped => ?_,
    fun new spawn there opening => absent (sound.unopened new spawn there opening),fun new spawn there past => ?_,sound.starting,sound.single,
    fun new spawn old there replaces => ?_,fun old member => ?_,fun name old member => ?_,
    fun new late => ⟨absent (sound.fresh new late).1,(sound.fresh new late).2⟩⟩
  · rcases made service entry held with ⟨here,owner,alive,listed⟩ | ⟨apart,held⟩
    · exact ⟨next,here ▸ Function.update_self ..,owner.symm,alive,listed⟩
    · obtain ⟨maker,there,facts⟩ := sound.made service entry held
      exact ⟨maker,(Function.update_of_ne apart ..).trans there,facts⟩
  · rcases heard other key held with ⟨here,alive,listed⟩ | ⟨apart,held⟩
    · exact ⟨next,here ▸ Function.update_self ..,alive,listed⟩
    · obtain ⟨maker,there,facts⟩ := sound.heard other key held
      exact ⟨maker,(Function.update_of_ne apart ..).trans there,facts⟩
  · obtain ⟨held,was,same,alike⟩ := back there
    rw [same]
    exact sound.placed maker held was (alike.symm.trans alive)
  · obtain ⟨gone,held,there,same,going⟩ := sound.held name new mapped
    obtain ⟨later,here,alike,_,still⟩ := carried there
    exact ⟨gone,later,here,alike.trans same,still.trans going⟩
  · obtain ⟨held,there,same,going⟩ := sound.opened new spawn there past
    obtain ⟨later,here,alike,_,still⟩ := carried there
    exact ⟨later,here,alike.trans same,still.trans going⟩
  · obtain ⟨held,there,isOver,same⟩ := sound.restarting new spawn old there replaces
    obtain ⟨later,here,alike,still,_⟩ := carried there
    exact ⟨later,here,still.trans isOver,alike.trans same⟩
  · obtain ⟨held,there,isOver⟩ := sound.timed old member
    obtain ⟨later,here,_,still,_⟩ := carried there
    exact ⟨later,here,still.trans isOver⟩
  · obtain ⟨held,there,isOver,same⟩ := sound.queued name old member
    obtain ⟨later,here,alike,still,_⟩ := carried there
    exact ⟨later,here,still.trans isOver,alike.trans same⟩

omit [DecidableEq ε] [DecidableEq σ] [DecidableEq κ] in
theorem phase_sound {spawn : Spawn ε} {phase : Phase} {gens : Nat → Option (Generation ε σ κ)} (sound : Sound state) (there : state.spawns id = some spawn)
    (past : phase ≠ .opening) (others : ∀ other, other ≠ id → gens other = state.gens other) (kept : ∀ held, state.gens id = some held → gens id = some held)
    (placed : ∃ held, gens id = some held ∧ held.name = spawn.name ∧ held.stopped = false) :
    Sound {state.setPhase id spawn phase with gens} := by
  have carried {other : Nat} {held : Generation ε σ κ} (found : state.gens other = some held) : gens other = some held := by
    by_cases here : other = id
    · rw [here] at found ⊢
      exact kept held found
    · exact (others other here).trans found
  have spawned {other : Nat} {second : Spawn ε} (found : Function.update state.spawns id (some {spawn with phase := phase}) other = some second) :
      (other = id ∧ second.phase = phase ∨ other ≠ id ∧ state.spawns other = some second) ∧
      ∃ before, state.spawns other = some before ∧ before.name = second.name ∧ before.purpose = second.purpose := by
    by_cases here : other = id
    · rw [here,Function.update_self] at found
      cases Option.some.inj found
      exact ⟨.inl ⟨here,rfl⟩,spawn,here ▸ there,rfl,rfl⟩
    · have was := (Function.update_of_ne here ..).symm.trans found
      exact ⟨.inr ⟨here,was⟩,second,was,rfl,rfl⟩
  have left {other : Nat} (gone : state.spawns other = none) : other ≠ id := by
    intro same
    rw [same,there] at gone
    cases gone
  unfold State.setPhase
  refine ⟨fun service entry held => ?_,fun other key held => ?_,fun other held found lives => ?_,fun name new mapped => ?_,fun other second found opening => ?_,
    fun other second found later => ?_,fun other second found starts => ?_,fun first other second third found next starts begins same => ?_,
    fun other second old found replaces => ?_,fun old member => ?_,fun name old member => ?_,fun new late => ?_⟩
  · obtain ⟨maker,found,facts⟩ := sound.made service entry held
    exact ⟨maker,carried found,facts⟩
  · obtain ⟨maker,found,facts⟩ := sound.heard other key held
    exact ⟨maker,carried found,facts⟩
  · by_cases here : other = id
    · refine .inr ?_
      simp only [here,Function.update_self]
      exact Option.some_ne_none _
    · rcases sound.placed other held ((others other here).symm.trans found) lives with mapped | spawning
      · exact .inl mapped
      · refine .inr ?_
        simpa only [Function.update_of_ne here] using spawning
  · obtain ⟨gone,held,found,facts⟩ := sound.held name new mapped
    exact ⟨(Function.update_of_ne (left gone) ..).trans gone,held,carried found,facts⟩
  · obtain ⟨⟨_,same⟩ | ⟨apart,found⟩,_⟩ := spawned found
    · exact absurd (same.symm.trans opening) past
    · exact (others other apart).trans (sound.unopened other second found opening)
  · obtain ⟨⟨here,_⟩ | ⟨apart,was⟩,before,there',named,_⟩ := spawned found
    · subst here
      rw [there] at there'
      cases Option.some.inj there'
      exact named ▸ placed
    · obtain ⟨held,found,facts⟩ := sound.opened other second was later
      exact ⟨held,carried found,facts⟩
  · obtain ⟨_,before,was,named,alike⟩ := spawned found
    exact named ▸ sound.starting other before was (alike.trans starts)
  · obtain ⟨_,before,was,named,alike⟩ := spawned found
    obtain ⟨_,after,then_was,called,like⟩ := spawned next
    exact sound.single first other before after was then_was (alike.trans starts) (like.trans begins) ((named.trans same).trans called.symm)
  · obtain ⟨_,before,was,named,alike⟩ := spawned found
    obtain ⟨held,found,isOver,same⟩ := sound.restarting other before old was (alike.trans replaces)
    exact ⟨held,carried found,isOver,same.trans named⟩
  · obtain ⟨held,found,isOver⟩ := sound.timed old member
    exact ⟨held,carried found,isOver⟩
  · obtain ⟨held,found,facts⟩ := sound.queued name old member
    exact ⟨held,carried found,facts⟩
  · obtain ⟨none_left,gone⟩ := sound.fresh new late
    have apart := left gone
    exact ⟨(others new apart).trans none_left,(Function.update_of_ne apart ..).trans gone⟩

omit [DecidableEq σ] [DecidableEq κ] in
theorem queue_sound {timers : List Nat} (name : ε) (tasks : List Task) (sound : Sound state) (fewer : ∀ old ∈ timers, old ∈ state.timers)
    (retired : ∀ old, .respawn old ∈ tasks → .respawn old ∈ state.queue name ∨
      ∃ held, state.gens old = some held ∧ held.running = false ∧ held.name = name) :
    Sound {state with timers,queue := Function.update state.queue name tasks} := by
  refine ⟨sound.made,sound.heard,sound.placed,sound.held,sound.unopened,sound.opened,sound.starting,sound.single,sound.restarting,
    fun old member => sound.timed old (fewer old member),fun other old member => ?_,sound.fresh⟩
  by_cases here : other = name
  · simp only [here,Function.update_self] at member
    subst here
    exact (retired old member).elim (sound.queued other old) id
  · simp only [Function.update_of_ne here] at member
    exact sound.queued other old member

theorem turn_sound {name : ε} {same : Bool} {after : State ε σ κ} (sound : Sound state) (moved : state.turn name same = some after) : Sound after := by
  unfold State.turn at moved
  split at moved
  · cases moved
  · cases moved
  · next old rest pending =>
    have later (task : Nat) (member : .respawn task ∈ rest) : .respawn task ∈ state.queue name := by
      rw [pending]
      exact List.mem_cons_of_mem _ member
    split at moved <;> cases moved
    · exact queue_sound name _ sound (fun _ => id) fun task member => .inl (later task member)
    · have first := sound.queued name old (pending ▸ List.mem_cons_self ..)
      have spawned := spawn_sound sound name (.replace old) (fun wrong => (by cases wrong)) fun other same => by
        cases same
        exact first
      refine queue_sound name _ spawned (fun _ => id) fun task member => .inl (later task ?_)
      rcases List.mem_cons.mp member with wrong | member
      · cases wrong
      · exact member
  · next rest pending =>
    cases moved
    refine queue_sound name _ sound (fun _ => id) fun task member => .inl ?_
    rw [pending]
    split at member
    · exact List.mem_cons_of_mem _ member
    · rcases List.mem_cons.mp member with wrong | member
      · cases wrong
      · exact List.mem_cons_of_mem _ member
  · next rest pending =>
    have later (task : Nat) (member : .respawn task ∈ rest) : .respawn task ∈ state.queue name := by
      rw [pending]
      exact List.mem_cons_of_mem _ member
    split at moved
    · cases moved
      exact queue_sound name _ sound (fun _ => id) fun task member => .inl (later task member)
    · next old mapped =>
      split at moved <;> cases moved
      · exact queue_sound name _ sound (fun _ => id) fun task member => .inl (later task member)
      · obtain ⟨_,held,found,named,_⟩ := sound.held name old mapped
        obtain ⟨kept,there,called,_⟩ := retire_named old found
        have spawned := spawn_sound (retire_sound sound old) name (.replace old) (fun wrong => (by cases wrong)) fun other same => by
          cases same
          exact ⟨kept,there,retire_over there,called.trans named⟩
        obtain ⟨_,_,queues,_,_⟩ := retire_frame state old
        have moved := queue_sound name (.replacing::rest) spawned (fun _ => id) fun task member => .inl (by
          rcases List.mem_cons.mp member with wrong | member
          · cases wrong
          · exact queues.symm ▸ later task member)
        simpa only [State.spawn,queues] using moved

end

variable {owns : ε → σ → Bool} {state after : State ε σ κ}

omit [DecidableEq ε] [DecidableEq σ] [DecidableEq κ] in
theorem heard_own {id : Nat} {generation : Generation ε σ κ} (sound : Sound state) (found : state.gens id = some generation) (held : state.bus id key = true) :
    generation.running = true ∧ key ∈ generation.listeners := by
  obtain ⟨maker,there,lives,listed⟩ := sound.heard id key held
  rw [found] at there
  cases Option.some.inj there
  exact ⟨lives,listed⟩

omit [DecidableEq κ] in
theorem register_sound {id : Nat} {generation : Generation ε σ κ} (sound : Sound state) (found : state.gens id = some generation)
    (lives : generation.running = true) (service : σ) : Sound (state.publish owns id generation service) := by
  unfold State.publish registerAs
  split
  · have published : Sound {state with registry := Function.update state.registry service (some ⟨generation.name,id⟩),gens := Function.update state.gens id (some {generation with registered := service::generation.registered})} := by
      refine speak_sound state.bus sound found rfl rfl rfl (fun other entry held => ?_) fun other key held => ?_
      · by_cases here : other = service
        · rw [here,Function.update_self] at held
          cases Option.some.inj held
          exact .inl ⟨rfl,rfl,lives,here ▸ List.mem_cons_self ..⟩
        · rw [Function.update_of_ne here] at held
          by_cases own : entry.maker = id
          · obtain ⟨maker,there,owner,_,listed⟩ := sound.made other entry held
            rw [own,found] at there
            cases Option.some.inj there
            exact .inl ⟨own,owner.symm,lives,List.mem_cons_of_mem _ listed⟩
          · exact .inr ⟨own,held⟩
      · by_cases own : other = id
        · exact .inl ⟨own,lives,(heard_own sound found (own ▸ held)).2⟩
        · exact .inr ⟨own,held⟩
    split
    · exact sound
    · next registry published_as =>
      split at published_as
      · split at published_as <;> cases published_as
        exact published
      · cases published_as
        exact published
  · exact sound

omit [DecidableEq ε] [DecidableEq σ] [DecidableEq κ] in
theorem listed_sound {id : Nat} {generation : Generation ε σ κ} {registered : List σ} {listeners : List κ} {registry : σ → Option (Entry ε)} (bus : Nat → κ → Bool)
    (sound : Sound state) (found : state.gens id = some generation)
    (made : ∀ service entry, registry service = some entry → state.registry service = some entry ∧
      (entry.owner = generation.name → service ∈ generation.registered → service ∈ registered))
    (heard : ∀ other key, bus other key = true → other = id ∧ generation.running = true ∧ key ∈ listeners ∨ other ≠ id ∧ state.bus other key = true) :
    Sound {state with registry,bus,gens := Function.update state.gens id (some {generation with registered,listeners})} := by
  refine speak_sound bus sound found rfl rfl rfl (fun service entry held => ?_) heard
  obtain ⟨before,kept⟩ := made service entry held
  by_cases own : entry.maker = id
  · obtain ⟨maker,there,owner,lives,listed⟩ := sound.made service entry before
    rw [own,found] at there
    cases Option.some.inj there
    exact .inl ⟨own,owner.symm,lives,kept owner.symm listed⟩
  · exact .inr ⟨own,before⟩

theorem unregister_sound {id : Nat} (sound : Sound state) (moved : step owns state (.unregister id service) = some after) : Sound after := by
  obtain ⟨generation,found,same⟩ := Option.map_eq_some_iff.mp moved
  subst same
  split
  · refine listed_sound state.bus sound found (fun other entry held => ?_) fun other key held => ?_
    · obtain ⟨before,apart⟩ := unregisterAs_some.mp held
      refine ⟨before,fun owner listed => List.mem_filter.mpr ⟨listed,?_⟩⟩
      have different : other ≠ service := fun same => apart ⟨List.mem_singleton.mpr same,owner⟩
      simpa using different
    · by_cases own : other = id
      · obtain ⟨maker,there,lives,listed⟩ := sound.heard other key held
        rw [own,found] at there
        cases Option.some.inj there
        exact .inl ⟨own,lives,listed⟩
      · exact .inr ⟨own,held⟩
  · exact sound

theorem on_sound {id : Nat} (sound : Sound state) (permitted : Permitted state (.on id key)) (moved : step owns state (.on id key) = some after) : Sound after := by
  obtain ⟨generation,found,same⟩ := Option.map_eq_some_iff.mp moved
  subst same
  refine listed_sound _ sound found (fun _ _ held => ⟨held,fun _ listed => listed⟩) fun other heard held => ?_
  by_cases own : other = id
  · subst own
    refine .inl ⟨rfl,permitted generation found,?_⟩
    by_cases here : heard = key
    · exact here ▸ List.mem_cons_self ..
    · simp only [Function.update_self,Function.update_of_ne here] at held
      exact List.mem_cons_of_mem _ (heard_own sound found held).2
  · simp only [Function.update_of_ne own] at held
    exact .inr ⟨own,held⟩

theorem off_sound {id : Nat} (sound : Sound state) (moved : step owns state (.off id key) = some after) : Sound after := by
  obtain ⟨generation,found,same⟩ := Option.map_eq_some_iff.mp moved
  subst same
  split
  · refine listed_sound _ sound found (fun _ _ held => ⟨held,fun _ listed => listed⟩) fun other heard held => ?_
    by_cases own : other = id
    · subst own
      by_cases here : heard = key
      · simp only [here,Function.update_self] at held
        cases held
      · simp only [Function.update_self,Function.update_of_ne here] at held
        obtain ⟨lives,listed⟩ := heard_own sound found held
        exact .inl ⟨rfl,lives,List.mem_filter.mpr ⟨listed,by simpa using here⟩⟩
    · simp only [Function.update_of_ne own] at held
      exact .inr ⟨own,held⟩
  · exact sound

theorem settle_sound {id : Nat} (sound : Sound state) (permitted : Permitted state (.settle id)) (moved : step owns state (.settle id) = some after) : Sound after := by
  obtain ⟨spawn,there,moved⟩ := Option.bind_eq_some_iff.mp moved
  have given := permitted spawn there
  split at moved <;> cases moved
  · next good =>
    have past : spawn.phase ≠ .opening := by
      rw [good]
      exact fun wrong => (by cases wrong)
    split
    · next stale => exact failed_sound (terminate_sound sound (given (.inr stale))).1 spawn fun _ found => terminate_over found
    · next current => exact put_sound sound there past (Bool.not_eq_true _ ▸ current)
  · next bad => exact failed_sound (terminate_sound sound (given (.inl bad))).1 spawn fun _ found => terminate_over found

theorem crash_sound {id : Nat} (sound : Sound state) (permitted : Permitted state (.crash id)) (moved : step owns state (.crash id) = some after) : Sound after := by
  obtain ⟨generation,found,moved⟩ := Option.bind_eq_some_iff.mp moved
  split at moved
  · next lives =>
    split at moved <;> cases moved
    · next gone =>
      -- Not being spawned, it is the one in workers, and scheduleRespawn retires it.
      have mapped := (sound.placed id generation found lives).resolve_right (absurd gone)
      obtain ⟨_,held,there,_,going⟩ := sound.held generation.name id mapped
      rw [found] at there
      cases Option.some.inj there
      have same : (state.terminate id).scheduleRespawn id = state.scheduleRespawn id := by
        simp [State.scheduleRespawn,State.terminate,State.retire,State.clean,found,mapped,going]
      rw [same]
      exact respawn_sound sound id
    · next spawn there =>
      obtain ⟨isOver,_⟩ := terminate_sound sound (permitted (by rw [there]; exact Option.some_ne_none _))
      split
      · exact failed_sound isOver spawn fun _ found => terminate_over found
      · exact isOver
  · cases moved

theorem step_sound : Preserved (step owns) Permitted (Sound : State ε σ κ → Prop) := by
  intro state action after sound permitted moved
  cases action with
  | start name =>
    simp only [step,Option.some.injEq] at moved
    subst moved
    split
    · exact sound
    · next free => exact spawn_sound sound name .start (fun _ => ⟨by simpa using free,permitted⟩) fun _ wrong => (by cases wrong)
  | stop name =>
    cases moved
    exact stop_sound sound name
  | opened id =>
    obtain ⟨spawn,there,moved⟩ := Option.bind_eq_some_iff.mp moved
    split at moved <;> cases moved
    next opening =>
    refine phase_sound sound there (fun wrong => (by cases wrong)) (fun other apart => Function.update_of_ne apart ..) (fun held found => ?_)
      ⟨_,Function.update_self ..,rfl,rfl⟩
    rw [sound.unopened id spawn there opening] at found
    cases found
  | unopened id =>
    obtain ⟨spawn,there,moved⟩ := Option.bind_eq_some_iff.mp moved
    split at moved <;> cases moved
    next opening =>
    apply failed_sound sound spawn
    intro held found
    rw [sound.unopened id spawn there opening] at found
    cases found
  | register id service =>
    obtain ⟨generation,found,same⟩ := Option.map_eq_some_iff.mp moved
    subst same
    exact register_sound sound found (permitted generation found) service
  | unregister id service => exact unregister_sound sound moved
  | on id key => exact on_sound sound permitted moved
  | off id key => exact off_sound sound moved
  | answer id ok =>
    obtain ⟨spawn,there,moved⟩ := Option.bind_eq_some_iff.mp moved
    split at moved <;> cases moved
    next waiting =>
    have past : spawn.phase ≠ .opening := by
      rw [waiting]
      exact fun wrong => (by cases wrong)
    exact phase_sound sound there (fun wrong => (by cases wrong)) (fun _ _ => rfl) (fun _ found => found) (sound.opened id spawn there past)
  | expire id =>
    obtain ⟨spawn,there,moved⟩ := Option.bind_eq_some_iff.mp moved
    split at moved <;> cases moved
    exact failed_sound (terminate_sound sound permitted).1 spawn fun _ found => terminate_over found
  | settle id => exact settle_sound sound permitted moved
  | crash id => exact crash_sound sound permitted moved
  | hang id =>
    simp only [step] at moved
    split at moved <;> cases moved
    exact respawn_sound sound id
  | fire id =>
    simp only [step] at moved
    split at moved
    · next member =>
      obtain ⟨generation,found,same⟩ := Option.map_eq_some_iff.mp moved
      subst same
      obtain ⟨held,there,isOver⟩ := sound.timed id member
      rw [found] at there
      cases Option.some.inj there
      refine queue_sound _ _ sound (fun _ => List.mem_of_mem_erase) fun old member => ?_
      rcases List.mem_append.mp member with member | last
      · exact .inl member
      · cases List.mem_singleton.mp last
        exact .inr ⟨generation,found,isOver,rfl⟩
    · cases moved
  | change name =>
    cases moved
    refine queue_sound name _ sound (fun _ => id) fun old member => ?_
    rcases List.mem_append.mp member with member | last
    · exact .inl member
    · cases List.mem_singleton.mp last
  | turn name same => exact turn_sound sound moved

-- A name is refused only to another extension, whatever the registry holds.
omit [DecidableEq κ] in
theorem registerAs_none {registry : σ → Option (Entry ε)} {service : σ} : registerAs registry owner service maker = none ↔
    ∃ entry, registry service = some entry ∧ entry.owner ≠ owner := by
  unfold registerAs
  cases registry service with
  | none => simp
  | some entry =>
    by_cases own : entry.owner = owner
    · simp [own]
    · simp [own]

theorem registry_names_live {actions : List (Action ε σ κ)} (guarded : Guarded (step owns) Permitted State.initial actions)
    (path : run (step owns) State.initial actions = some state) :
    (∀ name, (∀ id spawn, state.spawns id = some spawn → spawn.name ≠ name) →
      (∀ id generation, state.gens id = some generation → generation.name = name → generation.running = true → state.workers name = some id) ∧
      (∀ service entry, state.registry service = some entry → entry.owner = name → state.workers name = some entry.maker ∧
        (state.gens entry.maker).any Generation.running = true) ∧
      ∀ id generation key, state.bus id key = true → state.gens id = some generation → generation.name = name →
        state.workers name = some id ∧ generation.running = true) ∧
    (∀ service entry, state.registry service = some entry → ∃ generation, state.gens entry.maker = some generation ∧ generation.name = entry.owner) ∧
    (∀ id key, state.bus id key = true → (state.gens id).isSome) ∧
    ∀ id generation service, state.gens id = some generation → registerAs state.registry generation.name service id = none →
      ∃ entry, state.registry service = some entry ∧ entry.owner ≠ generation.name := by
  have sound := run_preserves step_sound initial_sound guarded path
  have alone (name : ε) (quiet : ∀ id spawn, state.spawns id = some spawn → spawn.name ≠ name) {id : Nat} {generation : Generation ε σ κ}
      (found : state.gens id = some generation) (named : generation.name = name) (lives : generation.running = true) : state.workers name = some id := by
    rcases sound.placed id generation found lives with mapped | spawning
    · exact named ▸ mapped
    · obtain ⟨spawn,there⟩ := Option.ne_none_iff_exists'.mp spawning
      by_cases opening : spawn.phase = .opening
      · rw [sound.unopened id spawn there opening] at found
        cases found
      · obtain ⟨own,here,called,_⟩ := sound.opened id spawn there opening
        rw [found] at here
        cases Option.some.inj here
        exact absurd (called.symm.trans named) (quiet id spawn there)
  refine ⟨fun name quiet => ⟨fun id generation found => alone name quiet found,fun service entry held owner => ?_,fun id generation key held found named => ?_⟩,
    fun service entry held => ?_,fun id key held => ?_,fun _ _ _ _ => registerAs_none.mp⟩
  · obtain ⟨generation,found,named,lives,_⟩ := sound.made service entry held
    refine ⟨alone name quiet found (named.trans owner) lives,?_⟩
    rw [found]
    exact lives
  · obtain ⟨maker,there,lives,_⟩ := sound.heard id key held
    rw [found] at there
    cases Option.some.inj there
    exact ⟨alone name quiet found named lives,lives⟩
  · obtain ⟨generation,found,named,_⟩ := sound.made service entry held
    exact ⟨generation,found,named⟩
  · obtain ⟨generation,found,_⟩ := sound.heard id key held
    rw [found]
    rfl

end

def restarting : List (Action Nat Nat Nat) :=
  [.start 1,.opened 0,.register 0 7,.on 0 9,.answer 0 true,.settle 0,.crash 0,.fire 0,.turn 1 true,.opened 1,.register 1 7,.on 1 9,.answer 1 true,.settle 1]

theorem restarting_names_live : ∃ state : State Nat Nat Nat, run (step fun _ _ => true) State.initial restarting = some state ∧
    state.registry 7 = some ⟨1,1⟩ ∧ state.workers 1 = some 1 ∧ (state.gens 1).any Generation.running = true := by
  have speaks {state : State Nat Nat Nat} {id : Nat} {generation : Generation Nat Nat Nat} (found : state.gens id = some generation)
      (lives : generation.running = true) : ∀ held, state.gens id = some held → held.running = true := by
    intro held same
    cases Option.some.inj (found.symm.trans same)
    exact lives
  have settles {state : State Nat Nat Nat} {id : Nat} {spawn : Spawn Nat} (there : state.spawns id = some spawn) (good : spawn.phase = .answered true)
      (current : state.stale spawn = false) : Permitted state (.settle id) := by
    intro other same wrong
    cases Option.some.inj (there.symm.trans same)
    rw [good,current] at wrong
    simp at wrong
  have guarded : Guarded (step fun _ _ => true) Permitted (State.initial : State Nat Nat Nat) restarting := by
    refine guarded_cons (show Permitted _ (.start 1) from fun _ _ wrong => (by cases wrong)) rfl ?_
    refine guarded_cons (show Permitted _ (.opened 0) from trivial) rfl ?_
    refine guarded_cons (show Permitted _ (.register 0 7) from speaks rfl rfl) rfl ?_
    refine guarded_cons (show Permitted _ (.on 0 9) from speaks rfl rfl) rfl ?_
    refine guarded_cons (show Permitted _ (.answer 0 true) from trivial) rfl ?_
    refine guarded_cons (settles rfl rfl rfl) rfl ?_
    refine guarded_cons (show Permitted _ (.crash 0) from fun wrong => absurd rfl wrong) rfl ?_
    refine guarded_cons (show Permitted _ (.fire 0) from trivial) rfl ?_
    refine guarded_cons (show Permitted _ (.turn 1 true) from trivial) rfl ?_
    refine guarded_cons (show Permitted _ (.opened 1) from trivial) rfl ?_
    refine guarded_cons (show Permitted _ (.register 1 7) from speaks rfl rfl) rfl ?_
    refine guarded_cons (show Permitted _ (.on 1 9) from speaks rfl rfl) rfl ?_
    refine guarded_cons (show Permitted _ (.answer 1 true) from trivial) rfl ?_
    refine guarded_cons (settles rfl rfl rfl) rfl ?_
    trivial
  obtain ⟨state,path⟩ : ∃ state, run (step fun _ _ => true) (State.initial : State Nat Nat Nat) restarting = some state := ⟨_,rfl⟩
  have entry : state.registry 7 = some ⟨1,1⟩ := by
    cases path
    rfl
  have quiet : ∀ id, state.spawns id = none := by
    cases path
    intro id
    rcases id with _ | _ | id <;> rfl
  obtain ⟨mapped,lives⟩ := ((registry_names_live guarded path).1 1 fun id _ there => absurd there (by
    rw [quiet id]
    exact fun wrong => (by cases wrong))).2.1 7 ⟨1,1⟩ entry rfl
  exact ⟨state,path,entry,mapped,lives⟩

-- A register() that publishes service 7 and throws.
def throwing : List (Action Nat Nat Nat) := [.start 1,.opened 0,.register 0 7,.answer 0 false,.settle 0]

theorem dead_entry : ∃ state : State Nat Nat Nat, run (step fun _ _ => true) State.initial throwing = some state ∧
    (∀ id, state.spawns id = none) ∧ state.workers 1 = none ∧ state.registry 7 = some ⟨1,0⟩ ∧ (state.gens 0).map Generation.running = some false := by
  refine ⟨_,rfl,fun id => ?_,rfl,rfl,rfl⟩
  simp [State.failed,State.leave,State.terminate,State.setPhase,State.publish,State.spawn,State.initial,registerAs]

end Zveltio.WorkerRegistry
