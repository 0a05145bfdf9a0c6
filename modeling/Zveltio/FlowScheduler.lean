import Zveltio.Runs
namespace Zveltio.FlowScheduler
open Runs

-- trigger_config of a cron flow: its expression, where it is not empty, and interval_seconds.
structure TriggerConfig where
  cron : Option String
  intervalSeconds : Option Int

structure Row where
  isActive : Bool
  nextRunAt : Option Int

def Row.due (row : Row) (now : Int) : Bool := row.isActive && row.nextRunAt.all (· ≤ now)

def defaultCronIntervalMs : Int := 60000

def intervalMs (config : TriggerConfig) : Int :=
  let given := config.intervalSeconds.getD 0 * 1000
  if given = 0 then defaultCronIntervalMs else given

-- probes: the times an expression names from a time on, in the order they are looked at; none where it cannot be parsed.
def nextCronRun (probes : String → Int → Option (List Int)) (expression : String) (start : Int) : Option Int :=
  (probes expression start).bind fun times => times.find? (start < ·)

-- What the advance after an execution writes: a next_run_at, or none, which deactivates the flow.
def nextRunAt (probes : String → Int → Option (List Int)) (config : TriggerConfig) (now : Int) : Option Int :=
  match config.cron with
  | some expression => nextCronRun probes expression now
  | none => some (now + intervalMs config)

-- Of a flow that a tick took: its execution runs, has ended, its advance is written in the claim's transaction, or failed.
inductive Stage where
  | running
  | ended (next : Option Int)
  | written (next : Option Int)
  | unwritten
  deriving DecidableEq

def Stage.isOver : Stage → Bool
  | .written _ => true
  | .unwritten => true
  | _ => false

-- alive: the claim's transaction is open, and its connection there. dispatched: its SELECT has answered and the flows were handed out.
structure Tick (φ : Type) where
  now : Int
  alive : Bool
  dispatched : Bool
  claimed : List φ

-- rows is what is committed, locks who has a row. running counts the executions of a flow in progress; owed: its last execution's end,
-- until a later next_run_at or its deactivation is committed. overlapped and repeated have the flows that were begun all the same.
structure State (τ φ : Type) where
  clock : Int
  rows : φ → Row
  locks : φ → Option τ
  ticks : τ → Option (Tick φ)
  stages : τ → φ → Option Stage
  running : φ → Nat
  owed : φ → Option Int
  overlapped : List φ
  repeated : List φ

def State.start {τ φ : Type} (clock : Int) (rows : φ → Row) : State τ φ :=
  ⟨clock,rows,fun _ => none,fun _ => none,fun _ _ => none,fun _ => 0,fun _ => none,[],[]⟩

inductive Action (τ φ : Type) where
  | elapse (ms : Nat)
  | tick (t : τ)
  | claim (t : τ) (flow : φ)
  | dispatch (t : τ)
  | finish (t : τ) (flow : φ)
  | advance (t : τ) (flow : φ) (ok : Bool)
  | commit (t : τ)
  | lose (t : τ)

section
variable {τ φ : Type} [DecidableEq τ] [DecidableEq φ]

def release (locks : φ → Option τ) (t : τ) (flow : φ) : Option τ := if locks flow = some t then none else locks flow

def setStage (stages : τ → φ → Option Stage) (t : τ) (flow : φ) (stage : Stage) (other : τ) (there : φ) : Option Stage :=
  if other = t ∧ there = flow then some stage else stages other there

def Row.advanced (row : Row) : Option Stage → Row
  | some (.written (some next)) => {row with nextRunAt := some next}
  | some (.written none) => {row with isActive := false}
  | _ => row

def settle (owed : Option Int) : Option Stage → Option Int
  | some (.written next) => owed.filter fun ended => !next.all (ended < ·)
  | _ => owed

-- A row that changed since a claim's snapshot is looked at again before it is locked, so the claim goes by what is committed.
-- Once the flows are dispatched, their executions go on whatever becomes of the transaction.
def step (probes : String → Int → Option (List Int)) (config : φ → TriggerConfig) (state : State τ φ) : Action τ φ → Option (State τ φ)
  | .elapse ms => some {state with clock := state.clock + ms}
  | .tick t => match state.ticks t with
    | none => some {state with ticks := Function.update state.ticks t (some ⟨state.clock,true,false,[]⟩)}
    | some _ => none
  | .claim t flow => (state.ticks t).bind fun tick =>
    if tick.alive && !tick.dispatched && (state.locks flow).isNone && (state.rows flow).due tick.now then
      some {state with
        locks := Function.update state.locks flow (some t)
        ticks := Function.update state.ticks t (some {tick with claimed := tick.claimed ++ [flow]})}
    else none
  | .dispatch t => (state.ticks t).bind fun tick =>
    if tick.alive && !tick.dispatched then
      some {state with
        ticks := Function.update state.ticks t (some {tick with dispatched := true})
        stages := fun other flow => if other = t ∧ flow ∈ tick.claimed then some .running else state.stages other flow
        running := fun flow => if flow ∈ tick.claimed then state.running flow + 1 else state.running flow
        overlapped := state.overlapped ++ tick.claimed.filter fun flow => state.running flow ≠ 0
        repeated := state.repeated ++ tick.claimed.filter fun flow => (state.owed flow).isSome}
    else none
  | .finish t flow =>
    if state.stages t flow = some .running then
      some {state with
        stages := setStage state.stages t flow (.ended (nextRunAt probes (config flow) state.clock))
        running := Function.update state.running flow (state.running flow - 1)
        owed := Function.update state.owed flow (some state.clock)}
    else none
  | .advance t flow ok => (state.ticks t).bind fun tick => match state.stages t flow with
    | some (.ended next) =>
      if ok then
        if tick.alive then some {state with stages := setStage state.stages t flow (.written next)} else none
      else some {state with stages := setStage state.stages t flow .unwritten}
    | _ => none
  | .commit t => (state.ticks t).bind fun tick =>
    if tick.alive && tick.dispatched && tick.claimed.all fun flow => (state.stages t flow).any Stage.isOver then
      some {state with
        rows := fun flow => (state.rows flow).advanced (state.stages t flow)
        locks := release state.locks t
        ticks := Function.update state.ticks t none
        stages := Function.update state.stages t fun _ => none
        owed := fun flow => settle (state.owed flow) (state.stages t flow)}
    else none
  | .lose t => (state.ticks t).bind fun tick =>
    if tick.alive then
      some {state with
        locks := release state.locks t
        ticks := Function.update state.ticks t (some {tick with alive := false,claimed := if tick.dispatched then tick.claimed else []})}
    else none

-- No claim that has dispatched flows is lost, no advance fails, and no flow without an expression counts its interval backwards.
def Permitted (config : φ → TriggerConfig) (state : State τ φ) : Action τ φ → Prop
  | .finish _ flow => (config flow).cron = none → 0 ≤ (config flow).intervalSeconds.getD 0
  | .advance _ _ ok => ok = true
  | .lose t => ∀ tick, state.ticks t = some tick → tick.dispatched = true → tick.claimed = []
  | _ => True

theorem nextCronRun_later {probes : String → Int → Option (List Int)} {expression : String} {start next : Int}
    (found : nextCronRun probes expression start = some next) : start < next := by
  obtain ⟨times,_,first⟩ := Option.bind_eq_some_iff.mp found
  simpa using List.find?_some first

theorem nextRunAt_later {probes : String → Int → Option (List Int)} {config : TriggerConfig} {now next : Int}
    (forward : config.cron = none → 0 ≤ config.intervalSeconds.getD 0) (found : nextRunAt probes config now = some next) : now < next := by
  unfold nextRunAt at found
  split at found
  · exact nextCronRun_later found
  · next uncronned =>
    cases Option.some.inj found
    have forward := forward uncronned
    simp only [intervalMs]
    split
    · simp only [defaultCronIntervalMs]
      omega
    · omega

-- The fence: a flow that runs, or whose last end no committed next_run_at is later than yet, is one that an open claim still has.
structure Sound (state : State τ φ) : Prop where
  held : ∀ flow t, state.locks flow = some t → ∃ tick, state.ticks t = some tick ∧ tick.alive = true ∧ flow ∈ tick.claimed
  claims : ∀ t tick, state.ticks t = some tick → ∀ flow ∈ tick.claimed, tick.alive = true ∧ state.locks flow = some t
  staged : ∀ t flow stage, state.stages t flow = some stage →
    ∃ tick, state.ticks t = some tick ∧ tick.dispatched = true ∧ flow ∈ tick.claimed
  runs : ∀ flow, state.running flow ≠ 0 → state.running flow = 1 ∧ ∃ t, state.locks flow = some t ∧ state.stages t flow = some .running
  owes : ∀ flow ended, state.owed flow = some ended → ∃ t next, state.locks flow = some t ∧
    (state.stages t flow = some (.ended next) ∨ state.stages t flow = some (.written next)) ∧ next.all (ended < ·) = true
  calm : state.overlapped = [] ∧ state.repeated = []

omit [DecidableEq φ] in
theorem release_other {locks : φ → Option τ} {t other : τ} {flow : φ} (held : release locks t flow = some other) :
    locks flow = some other ∧ other ≠ t := by
  unfold release at held
  split at held
  · cases held
  · next apart => exact ⟨held,fun same => apart (same ▸ held)⟩

omit [DecidableEq φ] in
theorem release_kept {locks : φ → Option τ} {t other : τ} {flow : φ} (held : locks flow = some other) (apart : other ≠ t) :
    release locks t flow = some other := by
  unfold release
  rw [if_neg]
  · exact held
  · intro same
    exact apart (Option.some.inj (held.symm.trans same))

omit [DecidableEq φ] in
theorem tick_sound {state : State τ φ} {t : τ} (fresh : state.ticks t = none) (sound : Sound state) :
    Sound {state with ticks := Function.update state.ticks t (some ⟨state.clock,true,false,[]⟩)} := by
  have apart : ∀ {other tick}, state.ticks other = some tick → other ≠ t := by
    rintro other tick found rfl
    cases fresh.symm.trans found
  refine {sound with held := ?_,claims := ?_,staged := ?_}
  · intro flow other held
    obtain ⟨tick,found,rest⟩ := sound.held flow other held
    exact ⟨tick,(Function.update_of_ne (apart found) ..).trans found,rest⟩
  · intro other tick found flow claimed
    by_cases same : other = t
    · subst same
      simp only [Function.update_self] at found
      cases Option.some.inj found
      cases claimed
    · simp only [Function.update_of_ne same] at found
      exact sound.claims other tick found flow claimed
  · intro other flow stage there
    obtain ⟨tick,found,rest⟩ := sound.staged other flow stage there
    exact ⟨tick,(Function.update_of_ne (apart found) ..).trans found,rest⟩

theorem claim_sound {state : State τ φ} {t : τ} {flow : φ} {tick : Tick φ} (found : state.ticks t = some tick) (alive : tick.alive = true)
    (free : state.locks flow = none) (sound : Sound state) :
    Sound {state with
      locks := Function.update state.locks flow (some t)
      ticks := Function.update state.ticks t (some {tick with claimed := tick.claimed ++ [flow]})} := by
  have apart : ∀ {there holder}, state.locks there = some holder → there ≠ flow := by
    rintro there holder held rfl
    cases free.symm.trans held
  refine {sound with held := ?_,claims := ?_,staged := ?_,runs := ?_,owes := ?_}
  · intro there holder held
    by_cases same : there = flow
    · subst same
      simp only [Function.update_self] at held
      cases Option.some.inj held
      exact ⟨_,Function.update_self ..,alive,List.mem_append_right _ (List.mem_singleton_self _)⟩
    · simp only [Function.update_of_ne same] at held
      obtain ⟨other,there_found,rest⟩ := sound.held there holder held
      by_cases own : holder = t
      · subst own
        cases found.symm.trans there_found
        exact ⟨_,Function.update_self ..,alive,List.mem_append_left _ rest.2⟩
      · exact ⟨other,(Function.update_of_ne own ..).trans there_found,rest⟩
  · intro other there_tick there_found there claimed
    by_cases own : other = t
    · subst own
      simp only [Function.update_self] at there_found
      cases Option.some.inj there_found
      refine ⟨alive,?_⟩
      rcases List.mem_append.mp claimed with old | new
      · have kept := (sound.claims other tick found there old).2
        exact (Function.update_of_ne (apart kept) ..).trans kept
      · cases List.mem_singleton.mp new
        exact Function.update_self ..
    · simp only [Function.update_of_ne own] at there_found
      obtain ⟨still,kept⟩ := sound.claims other there_tick there_found there claimed
      exact ⟨still,(Function.update_of_ne (apart kept) ..).trans kept⟩
  · intro other there stage staged
    obtain ⟨there_tick,there_found,dispatched,claimed⟩ := sound.staged other there stage staged
    by_cases own : other = t
    · subst own
      cases found.symm.trans there_found
      exact ⟨_,Function.update_self ..,dispatched,List.mem_append_left _ claimed⟩
    · exact ⟨there_tick,(Function.update_of_ne own ..).trans there_found,dispatched,claimed⟩
  · intro there begun
    obtain ⟨one,holder,held,stage⟩ := sound.runs there begun
    exact ⟨one,holder,(Function.update_of_ne (apart held) ..).trans held,stage⟩
  · intro there ended owed
    obtain ⟨holder,next,held,rest⟩ := sound.owes there ended owed
    exact ⟨holder,next,(Function.update_of_ne (apart held) ..).trans held,rest⟩

theorem setStage_self (stages : τ → φ → Option Stage) (t : τ) (flow : φ) (stage : Stage) : setStage stages t flow stage t flow = some stage :=
  if_pos ⟨rfl,rfl⟩

theorem setStage_other {stages : τ → φ → Option Stage} {t other : τ} {flow there : φ} {stage : Stage} (apart : there ≠ flow) :
    setStage stages t flow stage other there = stages other there :=
  if_neg fun same => apart same.2

theorem setStage_some {stages : τ → φ → Option Stage} {t other : τ} {flow there : φ} {stage found : Stage}
    (set : setStage stages t flow stage other there = some found) (had : ∃ old, stages t flow = some old) : ∃ old, stages other there = some old := by
  unfold setStage at set
  split at set
  · next same =>
    obtain ⟨rfl,rfl⟩ := same
    exact had
  · exact ⟨found,set⟩

omit [DecidableEq τ] [DecidableEq φ] in
theorem unbegun {state : State τ φ} {t : τ} {tick : Tick φ} {flow : φ} (sound : Sound state) (found : state.ticks t = some tick)
    (waiting : tick.dispatched = false) (claimed : flow ∈ tick.claimed) : state.running flow = 0 ∧ state.owed flow = none := by
  obtain ⟨_,locked⟩ := sound.claims t tick found flow claimed
  have unstaged : ∀ stage, state.stages t flow ≠ some stage := by
    intro stage staged
    obtain ⟨other,there,dispatched,_⟩ := sound.staged t flow stage staged
    cases found.symm.trans there
    cases waiting.symm.trans dispatched
  constructor
  · by_contra begun
    obtain ⟨_,holder,held,stage⟩ := sound.runs flow begun
    cases locked.symm.trans held
    exact unstaged _ stage
  · by_contra owing
    obtain ⟨ended,owed⟩ := Option.ne_none_iff_exists'.mp owing
    obtain ⟨holder,next,held,stage,_⟩ := sound.owes flow ended owed
    cases locked.symm.trans held
    rcases stage with stage | stage <;> exact unstaged _ stage

theorem dispatch_sound {state : State τ φ} {t : τ} {tick : Tick φ} (found : state.ticks t = some tick) (waiting : tick.dispatched = false)
    (sound : Sound state) : Sound {state with
      ticks := Function.update state.ticks t (some {tick with dispatched := true})
      stages := fun other flow => if other = t ∧ flow ∈ tick.claimed then some .running else state.stages other flow
      running := fun flow => if flow ∈ tick.claimed then state.running flow + 1 else state.running flow
      overlapped := state.overlapped ++ tick.claimed.filter fun flow => state.running flow ≠ 0
      repeated := state.repeated ++ tick.claimed.filter fun flow => (state.owed flow).isSome} where
  held := by
    intro flow holder held
    obtain ⟨other,there,rest⟩ := sound.held flow holder held
    by_cases own : holder = t
    · subst own
      cases found.symm.trans there
      exact ⟨_,Function.update_self ..,rest⟩
    · exact ⟨other,(Function.update_of_ne own ..).trans there,rest⟩
  claims := by
    intro other there_tick there flow claimed
    by_cases own : other = t
    · subst own
      simp only [Function.update_self] at there
      cases Option.some.inj there
      exact sound.claims other tick found flow claimed
    · simp only [Function.update_of_ne own] at there
      exact sound.claims other there_tick there flow claimed
  staged := by
    intro other flow stage staged
    by_cases own : other = t ∧ flow ∈ tick.claimed
    · obtain ⟨rfl,claimed⟩ := own
      exact ⟨_,Function.update_self ..,rfl,claimed⟩
    · simp only [if_neg own] at staged
      obtain ⟨there_tick,there,dispatched,claimed⟩ := sound.staged other flow stage staged
      by_cases same : other = t
      · subst same
        cases found.symm.trans there
        exact absurd ⟨rfl,claimed⟩ own
      · exact ⟨there_tick,(Function.update_of_ne same ..).trans there,dispatched,claimed⟩
  runs := by
    intro flow begun
    by_cases claimed : flow ∈ tick.claimed
    · obtain ⟨still,_⟩ := unbegun sound found waiting claimed
      refine ⟨by simp [claimed,still],t,(sound.claims t tick found flow claimed).2,?_⟩
      simp [claimed]
    · simp only [if_neg claimed] at begun ⊢
      obtain ⟨one,holder,held,stage⟩ := sound.runs flow begun
      exact ⟨one,holder,held,by simp [claimed,stage]⟩
  owes := by
    intro flow ended owed
    have unclaimed : flow ∉ tick.claimed := by
      intro claimed
      cases (unbegun sound found waiting claimed).2.symm.trans owed
    obtain ⟨holder,next,held,stage,later⟩ := sound.owes flow ended owed
    exact ⟨holder,next,held,by simpa [unclaimed] using stage,later⟩
  calm := by
    obtain ⟨overlapped,repeated⟩ := sound.calm
    constructor
    · simp only [overlapped,List.nil_append,List.filter_eq_nil_iff]
      intro flow claimed
      simp [(unbegun sound found waiting claimed).1]
    · simp only [repeated,List.nil_append,List.filter_eq_nil_iff]
      intro flow claimed
      simp [(unbegun sound found waiting claimed).2]

omit [DecidableEq τ] [DecidableEq φ] in
theorem staged_locked {state : State τ φ} {t : τ} {flow : φ} {stage : Stage} (sound : Sound state) (staged : state.stages t flow = some stage) :
    state.locks flow = some t := by
  obtain ⟨tick,found,_,claimed⟩ := sound.staged t flow stage staged
  exact (sound.claims t tick found flow claimed).2

theorem staged_set {state : State τ φ} {t other : τ} {flow there : φ} {stage later found : Stage} (sound : Sound state)
    (held : state.stages t flow = some stage) (set : setStage state.stages t flow later other there = some found) :
    ∃ tick, state.ticks other = some tick ∧ tick.dispatched = true ∧ there ∈ tick.claimed := by
  obtain ⟨old,had⟩ := setStage_some set ⟨_,held⟩
  exact sound.staged other there old had

theorem finish_sound {probes : String → Int → Option (List Int)} {config : φ → TriggerConfig} {state : State τ φ} {t : τ} {flow : φ}
    (forward : (config flow).cron = none → 0 ≤ (config flow).intervalSeconds.getD 0) (stage : state.stages t flow = some .running) (sound : Sound state) :
    Sound {state with
      stages := setStage state.stages t flow (.ended (nextRunAt probes (config flow) state.clock))
      running := Function.update state.running flow (state.running flow - 1)
      owed := Function.update state.owed flow (some state.clock)} := by
  have locked := staged_locked sound stage
  refine {sound with staged := fun other there found set => (staged_set sound stage set :),runs := ?_,owes := ?_}
  · intro there begun
    by_cases same : there = flow
    · subst same
      simp only [Function.update_self] at begun
      by_cases ran : state.running there = 0
      · exact absurd (by simp [ran]) begun
      · exact absurd (by simp [(sound.runs there ran).1]) begun
    · simp only [Function.update_of_ne same] at begun ⊢
      obtain ⟨one,holder,held,still⟩ := sound.runs there begun
      exact ⟨one,holder,held,(setStage_other same).trans still⟩
  · intro there ended owed
    by_cases same : there = flow
    · subst same
      simp only [Function.update_self] at owed
      cases Option.some.inj owed
      refine ⟨t,_,locked,.inl (setStage_self ..),?_⟩
      cases next : nextRunAt probes (config there) state.clock with
      | none => rfl
      | some later => simpa using nextRunAt_later forward next
    · simp only [Function.update_of_ne same] at owed
      obtain ⟨holder,next,held,still,later⟩ := sound.owes there ended owed
      exact ⟨holder,next,held,by simpa only [setStage_other same] using still,later⟩

theorem advance_sound {state : State τ φ} {t : τ} {flow : φ} {next : Option Int} (stage : state.stages t flow = some (.ended next)) (sound : Sound state) :
    Sound {state with stages := setStage state.stages t flow (.written next)} := by
  have locked := staged_locked sound stage
  refine {sound with staged := fun other there found set => (staged_set sound stage set :),runs := ?_,owes := ?_}
  · intro there begun
    obtain ⟨one,holder,held,still⟩ := sound.runs there begun
    by_cases same : there = flow
    · subst same
      cases locked.symm.trans held
      cases stage.symm.trans still
    · exact ⟨one,holder,held,(setStage_other same).trans still⟩
  · intro there ended owed
    obtain ⟨holder,after,held,still,later⟩ := sound.owes there ended owed
    by_cases same : there = flow
    · subst same
      cases locked.symm.trans held
      refine ⟨t,next,held,.inr (setStage_self ..),?_⟩
      rcases still with still | still
      · cases stage.symm.trans still
        exact later
      · cases stage.symm.trans still
    · exact ⟨holder,after,held,by simpa only [setStage_other same] using still,later⟩

theorem settle_owed {owed : Option Int} {stage : Option Stage} {ended : Int} (left : settle owed stage = some ended) :
    owed = some ended ∧ ∀ next, stage = some (.written next) → next.all (ended < ·) = false := by
  unfold settle at left
  split at left
  · next next =>
    obtain ⟨same,kept⟩ := Option.filter_eq_some_iff.mp left
    refine ⟨same,?_⟩
    rintro other written
    cases Option.some.inj written
    simpa using kept
  · next unwritten => exact ⟨left,fun next written => absurd written (unwritten next)⟩

omit [DecidableEq φ] in
theorem over_held {state : State τ φ} {t : τ} {ticks : τ → Option (Tick φ)} (sound : Sound state) (kept : ∀ other, other ≠ t → ticks other = state.ticks other) :
    ∀ flow holder, release state.locks t flow = some holder → ∃ tick, ticks holder = some tick ∧ tick.alive = true ∧ flow ∈ tick.claimed := by
  intro flow holder held
  obtain ⟨held,apart⟩ := release_other held
  obtain ⟨tick,found,rest⟩ := sound.held flow holder held
  exact ⟨tick,(kept holder apart).trans found,rest⟩

omit [DecidableEq φ] in
theorem commit_sound {state : State τ φ} {t : τ} {tick : Tick φ} (found : state.ticks t = some tick)
    (finished : ∀ flow ∈ tick.claimed, (state.stages t flow).any Stage.isOver = true) (sound : Sound state) : Sound {state with
      rows := fun flow => (state.rows flow).advanced (state.stages t flow)
      locks := release state.locks t
      ticks := Function.update state.ticks t none
      stages := Function.update state.stages t fun _ => none
      owed := fun flow => settle (state.owed flow) (state.stages t flow)} := by
  have own : ∀ flow, state.locks flow = some t → flow ∈ tick.claimed := by
    intro flow locked
    obtain ⟨other,there,_,claimed⟩ := sound.held flow t locked
    cases found.symm.trans there
    exact claimed
  refine ⟨over_held sound fun other apart => Function.update_of_ne apart ..,?_,?_,?_,?_,sound.calm⟩
  · intro other there_tick there flow claimed
    by_cases same : other = t
    · subst same
      simp at there
    · simp only [Function.update_of_ne same] at there
      obtain ⟨alive,locked⟩ := sound.claims other there_tick there flow claimed
      exact ⟨alive,release_kept locked same⟩
  · intro other flow stage staged
    by_cases same : other = t
    · subst same
      simp at staged
    · simp only [Function.update_of_ne same] at staged ⊢
      exact sound.staged other flow stage staged
  · intro flow begun
    obtain ⟨one,holder,held,stage⟩ := sound.runs flow begun
    by_cases same : holder = t
    · subst same
      have ended := finished flow (own flow held)
      simp [stage,Stage.isOver] at ended
    · exact ⟨one,holder,release_kept held same,by simpa only [Function.update_of_ne same] using stage⟩
  · intro flow ended left
    obtain ⟨owed,unlater⟩ := settle_owed left
    obtain ⟨holder,next,held,stage,later⟩ := sound.owes flow ended owed
    by_cases same : holder = t
    · subst same
      rcases stage with running | written
      · have settled := finished flow (own flow held)
        simp [running,Stage.isOver] at settled
      · cases later.symm.trans (unlater next written)
    · exact ⟨holder,next,release_kept held same,by simpa only [Function.update_of_ne same] using stage,later⟩

omit [DecidableEq φ] in
theorem lose_sound {state : State τ φ} {t : τ} {tick : Tick φ} (found : state.ticks t = some tick)
    (allowed : tick.dispatched = true → tick.claimed = []) (sound : Sound state) : Sound {state with
      locks := release state.locks t
      ticks := Function.update state.ticks t (some {tick with alive := false,claimed := if tick.dispatched then tick.claimed else []})} := by
  have nothing : (if tick.dispatched = true then tick.claimed else []) = [] := by
    split
    · next dispatched => exact allowed dispatched
    · rfl
  have unstaged : ∀ flow stage, state.stages t flow ≠ some stage := by
    intro flow stage staged
    obtain ⟨other,there,dispatched,claimed⟩ := sound.staged t flow stage staged
    cases found.symm.trans there
    rw [allowed dispatched] at claimed
    cases claimed
  refine {sound with held := over_held sound fun other apart => Function.update_of_ne apart ..,claims := ?_,staged := ?_,runs := ?_,owes := ?_}
  · intro other there_tick there flow claimed
    by_cases same : other = t
    · subst same
      simp only [Function.update_self] at there
      cases Option.some.inj there
      simp only [nothing] at claimed
      cases claimed
    · simp only [Function.update_of_ne same] at there
      obtain ⟨alive,locked⟩ := sound.claims other there_tick there flow claimed
      exact ⟨alive,release_kept locked same⟩
  · intro other flow stage staged
    obtain ⟨there_tick,there,rest⟩ := sound.staged other flow stage staged
    by_cases same : other = t
    · subst same
      exact absurd staged (unstaged flow stage)
    · exact ⟨there_tick,(Function.update_of_ne same ..).trans there,rest⟩
  · intro flow begun
    obtain ⟨one,holder,held,stage⟩ := sound.runs flow begun
    refine ⟨one,holder,release_kept held ?_,stage⟩
    rintro rfl
    exact unstaged flow _ stage
  · intro flow ended owed
    obtain ⟨holder,next,held,stage,later⟩ := sound.owes flow ended owed
    refine ⟨holder,next,release_kept held ?_,stage,later⟩
    rintro rfl
    rcases stage with stage | stage <;> exact unstaged flow _ stage

theorem sound_preserved (probes : String → Int → Option (List Int)) (config : φ → TriggerConfig) :
    Preserved (step (τ := τ) probes config) (Permitted config) Sound := by
  intro before action after sound allowed moved
  cases action with
  | elapse ms =>
    cases Option.some.inj moved
    exact {sound with}
  | tick t =>
    simp only [step] at moved
    split at moved
    · next fresh =>
      cases Option.some.inj moved
      exact tick_sound fresh sound
    · cases moved
  | claim t flow =>
    obtain ⟨tick,found,moved⟩ := Option.bind_eq_some_iff.mp moved
    split at moved
    · next opened =>
      simp only [Bool.and_eq_true,Option.isNone_iff_eq_none] at opened
      cases Option.some.inj moved
      exact claim_sound found opened.1.1.1 opened.1.2 sound
    · cases moved
  | dispatch t =>
    obtain ⟨tick,found,moved⟩ := Option.bind_eq_some_iff.mp moved
    split at moved
    · next opened =>
      cases Option.some.inj moved
      exact dispatch_sound found (by simpa using (Bool.and_eq_true_iff.mp opened).2) sound
    · cases moved
  | finish t flow =>
    simp only [step] at moved
    split at moved
    · next stage =>
      cases Option.some.inj moved
      exact finish_sound allowed stage sound
    · cases moved
  | advance t flow ok =>
    cases allowed
    obtain ⟨tick,found,moved⟩ := Option.bind_eq_some_iff.mp moved
    simp only at moved
    split at moved
    · next stage =>
      simp only [if_true] at moved
      split at moved
      · cases Option.some.inj moved
        exact advance_sound stage sound
      · cases moved
    · cases moved
  | commit t =>
    obtain ⟨tick,found,moved⟩ := Option.bind_eq_some_iff.mp moved
    split at moved
    · next ready =>
      cases Option.some.inj moved
      exact commit_sound found (List.all_eq_true.mp (Bool.and_eq_true_iff.mp ready).2) sound
    · cases moved
  | lose t =>
    obtain ⟨tick,found,moved⟩ := Option.bind_eq_some_iff.mp moved
    split at moved
    · cases Option.some.inj moved
      exact lose_sound found (allowed tick found) sound
    · cases moved

omit [DecidableEq τ] [DecidableEq φ] in
theorem start_sound (clock : Int) (rows : φ → Row) : Sound (State.start clock rows : State τ φ) where
  held := fun _ _ wrong => (by cases wrong)
  claims := fun _ _ wrong => (by cases wrong)
  staged := fun _ _ _ wrong => (by cases wrong)
  runs := fun _ wrong => absurd rfl wrong
  owes := fun _ _ wrong => (by cases wrong)
  calm := ⟨rfl,rfl⟩

theorem scheduled_once {probes : String → Int → Option (List Int)} {config : φ → TriggerConfig} {clock : Int} {rows : φ → Row}
    {actions : List (Action τ φ)} {state : State τ φ} (path : run (step probes config) (.start clock rows) actions = some state)
    (guarded : Guarded (step probes config) (Permitted config) (.start clock rows) actions) :
    state.overlapped = [] ∧ state.repeated = [] :=
  (run_preserves (sound_preserved probes config) (start_sound clock rows) guarded path).calm

def twoTicks : List (Action Bool Nat) := [.tick true,.claim true 7,.dispatch true,.elapse 500,.finish true 7,.advance true 7 true,.commit true,
  .elapse 60000,.tick false,.claim false 7,.dispatch false]

theorem twoTicks_guarded : Guarded (step (fun _ _ => none) fun _ => ⟨none,none⟩) (Permitted fun _ => ⟨none,none⟩) (.start 0 fun _ => ⟨true,none⟩) twoTicks :=
  guarded_cons trivial rfl (guarded_cons trivial rfl (guarded_cons trivial rfl (guarded_cons trivial rfl (guarded_cons (fun _ => Int.le_refl 0) rfl
    (guarded_cons rfl rfl (guarded_cons trivial rfl (guarded_cons trivial rfl (guarded_cons trivial rfl (guarded_cons trivial rfl
      (guarded_cons trivial rfl trivial))))))))))

theorem scheduled_once_twoTicks : ∃ state, run (step (fun _ _ => none) fun _ => ⟨none,none⟩) (.start 0 fun _ => ⟨true,none⟩) twoTicks = some state ∧
    state.running 7 = 1 ∧ state.overlapped = [] ∧ state.repeated = [] :=
  ⟨_,rfl,rfl,scheduled_once rfl twoTicks_guarded⟩

-- The claim's connection is lost while the flow runs, and the next tick runs it as well.
theorem lost_claim : ∃ state : State Bool Nat, run (step (fun _ _ => none) fun _ => ⟨none,none⟩) (.start 0 fun _ => ⟨true,none⟩)
    [.tick true,.claim true 7,.dispatch true,.elapse 60000,.lose true,.tick false,.claim false 7,.dispatch false] = some state ∧
    state.running 7 = 2 ∧ state.overlapped = [7] :=
  ⟨_,rfl,rfl,rfl⟩

end
end Zveltio.FlowScheduler
