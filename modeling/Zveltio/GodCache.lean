import Zveltio.Runs
import Mathlib.Data.List.Basic
namespace Zveltio.GodCache

open Runs

def LOCAL_GOD_TTL_MS : Nat := 5000

def GOD_CACHE_TTL : Nat := 300

structure LocalEntry where
  value : Bool
  at' : Nat
  deriving DecidableEq

structure SharedEntry where
  value : Bool
  expires : Nat
  deriving DecidableEq

-- lookupGod between two of its awaited steps, with what the last one answered.
inductive Stage where
  | askCache
  | cached (raw : Option Bool)
  | askDatabase
  | answered (isGod : Bool)
  | setex (isGod : Bool)
  deriving DecidableEq

-- later: the lookup began when the answer no longer depends on the old role.
structure Lookup (κ : Type u) where
  instance' : κ
  later : Bool
  stage : Stage
  deriving DecidableEq

-- The role update, then invalidateGodCache and dropUserPermCaches, each a clear of the
-- local cache and a delete of the shared entry.
inductive Update where
  | waiting
  | committed
  | cleared
  | deleted
  | clearedAgain
  | done (at' : Nat)
  deriving DecidableEq

-- One user's flag: in the table, in the shared cache and in each instance's own.
structure State (κ : Type u) where
  now : Nat
  god : Bool
  shared : Option SharedEntry
  locals : κ → Option LocalEntry
  lookups : List (Lookup κ)
  update : Update
  answers : List (Lookup κ × Bool)

def State.initial (god : Bool) (now : Nat) : State κ := ⟨now,god,none,fun _ => none,[],.waiting,[]⟩

-- forget and evict are clears and evictions that other work brings about.
inductive Action (κ : Type u) where
  | tick (ms : Nat)
  | lookup (instance' : κ)
  | finish (position : Nat)
  | fail (position : Nat)
  | update
  | forget (instance' : κ)
  | evict

section
variable {κ : Type u} [DecidableEq κ]

def State.local? (state : State κ) (key : κ) : Option Bool :=
  ((state.locals key).filter fun entry => state.now - entry.at' < LOCAL_GOD_TTL_MS).map LocalEntry.value

def State.shared? (state : State κ) : Option Bool :=
  (state.shared.filter fun entry => state.now < entry.expires).map SharedEntry.value

def State.setLocal (state : State κ) (key : κ) (value : Bool) : State κ :=
  {state with locals := Function.update state.locals key (some ⟨value,state.now⟩)}

def State.clearLocal (state : State κ) (key : κ) : State κ :=
  {state with locals := Function.update state.locals key none}

def State.answer (state : State κ) (lookup : Lookup κ) (value : Bool) : State κ :=
  {state with answers := state.answers ++ [(lookup,value)]}

def State.go (state : State κ) (lookup : Lookup κ) (stage : Stage) : State κ :=
  {state with lookups := state.lookups ++ [{lookup with stage}]}

-- On the updating instance once the update is done, elsewhere when entries of that time
-- have run out.
def later (updating : κ) (state : State κ) (key : κ) : Bool := match state.update with
  | .done at' => key = updating || at' + LOCAL_GOD_TTL_MS ≤ state.now
  | _ => false

def start (valkey : Bool) (updating : κ) (state : State κ) (key : κ) : State κ :=
  let lookup : Lookup κ := ⟨key,later updating state key,if valkey then .askCache else .askDatabase⟩
  match state.local? key with
  | some value => state.answer lookup value
  | none => state.go lookup lookup.stage

def finish (valkey : Bool) (state : State κ) (lookup : Lookup κ) : State κ := match lookup.stage with
  | .askCache => state.go lookup (.cached state.shared?)
  | .cached (some value) => (state.setLocal lookup.instance' value).answer lookup value
  | .cached none => state.go lookup .askDatabase
  | .askDatabase => state.go lookup (.answered state.god)
  | .answered isGod =>
    let filed := state.setLocal lookup.instance' isGod
    if valkey then filed.go lookup (.setex isGod) else filed.answer lookup isGod
  | .setex isGod =>
    State.answer {state with shared := some ⟨isGod,state.now + GOD_CACHE_TTL * 1000⟩} lookup isGod

-- A failed read of the cache goes to the database, a failed write is dropped, and a
-- failed read of the database throws.
def fail (state : State κ) (lookup : Lookup κ) : Option (State κ) := match lookup.stage with
  | .askCache => some (state.go lookup .askDatabase)
  | .askDatabase => some state
  | .setex isGod => some (state.answer lookup isGod)
  | _ => none

def advance (updating : κ) (state : State κ) : Option (State κ) := match state.update with
  | .waiting => some {state with god := false,update := .committed}
  | .committed => some {state.clearLocal updating with update := .cleared}
  | .cleared => some {state with shared := none,update := .deleted}
  | .deleted => some {state.clearLocal updating with update := .clearedAgain}
  | .clearedAgain => some {state with shared := none,update := .done state.now}
  | .done _ => none

def drop (state : State κ) (position : Nat) : State κ := {state with lookups := state.lookups.eraseIdx position}

def step (valkey : Bool) (updating : κ) (state : State κ) : Action κ → Option (State κ)
  | .tick ms => some {state with now := state.now + ms}
  | .lookup key => some (start valkey updating state key)
  | .finish position => (state.lookups[position]?).map (finish valkey (drop state position))
  | .fail position => (state.lookups[position]?).bind (fail (drop state position))
  | .update => advance updating state
  | .forget key => some (state.clearLocal key)
  | .evict => some {state with shared := none}

-- Whether the lookup files its answer in its local cache now, and whether in the shared one.
def filesLocal : Stage → Bool
  | .cached (some true) => true
  | .answered true => true
  | _ => false

def filesShared : Stage → Bool
  | .setex true => true
  | _ => false

-- An answer god from before the purge is filed before it too: in the updating instance's
-- own cache before the second clear, elsewhere before the second delete.
def Permitted (updating : κ) (state : State κ) : Action κ → Prop
  | .finish position => ∀ lookup, state.lookups[position]? = some lookup →
      (filesLocal lookup.stage = true → (∀ at', state.update ≠ .done at') ∧
        (lookup.instance' = updating → state.update ≠ .clearedAgain)) ∧
      (filesShared lookup.stage = true → ∀ at', state.update ≠ .done at')
  | _ => True

end

section
variable {κ : Type u}

def captured : Stage → Bool
  | .cached (some true) => true
  | .answered true => true
  | .setex true => true
  | _ => false

def Finished (state : State κ) (at' : Nat) : Prop := state.update = .done at'

structure Settled (updating : κ) (state : State κ) : Prop where
  role : state.update ≠ .waiting → state.god = false
  clock : ∀ key entry, state.locals key = some entry → entry.at' ≤ state.now
  own : (state.update = .clearedAgain ∨ ∃ at', Finished state at') →
    ∀ entry, state.locals updating = some entry → entry.value = false
  shared : ∀ at', Finished state at' → ∀ entry, state.shared = some entry → entry.value = false
  others : ∀ at', Finished state at' → at' ≤ state.now ∧
    ∀ key entry, state.locals key = some entry → entry.value = true → entry.at' ≤ at'
  lookups : ∀ lookup ∈ state.lookups, lookup.later = true →
    (∃ at', Finished state at') ∧ captured lookup.stage = false
  answers : ∀ answer ∈ state.answers, answer.1.later = true → answer.2 = false

theorem drop_settled {updating : κ} {state : State κ} (settled : Settled updating state) (position : Nat) :
    Settled updating (drop state position) :=
  ⟨settled.role,settled.clock,settled.own,settled.shared,settled.others,
    fun lookup member => settled.lookups lookup (List.mem_of_mem_eraseIdx member),settled.answers⟩

theorem go_settled {updating : κ} {state : State κ} (settled : Settled updating state) {lookup : Lookup κ}
    (done : lookup.later = true → (∃ at', Finished state at') ∧ captured stage = false) :
    Settled updating (state.go lookup stage) := by
  refine ⟨settled.role,settled.clock,settled.own,settled.shared,settled.others,fun other member => ?_,settled.answers⟩
  rcases List.mem_append.mp member with old | new
  · exact settled.lookups other old
  · cases List.mem_singleton.mp new
    exact done

theorem answer_settled {updating : κ} {state : State κ} (settled : Settled updating state) {lookup : Lookup κ}
    (denied : lookup.later = true → value = false) : Settled updating (state.answer lookup value) := by
  refine ⟨settled.role,settled.clock,settled.own,settled.shared,settled.others,settled.lookups,fun other member => ?_⟩
  rcases List.mem_append.mp member with old | new
  · exact settled.answers other old
  · cases List.mem_singleton.mp new
    exact denied

variable [DecidableEq κ]

theorem setLocal_settled {updating : κ} {state : State κ} (settled : Settled updating state)
    (allowed : value = true → (∀ at', state.update ≠ .done at') ∧ (key = updating → state.update ≠ .clearedAgain)) :
    Settled updating (state.setLocal key value) := by
  refine ⟨settled.role,fun other entry found => ?_,fun past entry found => ?_,settled.shared,fun at' done => ?_,
    settled.lookups,settled.answers⟩
  · by_cases same : other = key
    · subst same
      simp only [State.setLocal,Function.update_self,Option.some.injEq] at found
      exact found ▸ Nat.le_refl _
    · simp only [State.setLocal,Function.update_of_ne same] at found
      exact settled.clock other entry found
  · by_cases same : updating = key
    · subst same
      simp only [State.setLocal,Function.update_self,Option.some.injEq] at found
      subst found
      cases value with
      | false => rfl
      | true =>
        rcases past with again | ⟨at',done⟩
        · exact absurd again ((allowed rfl).2 rfl)
        · exact absurd done ((allowed rfl).1 at')
    · simp only [State.setLocal,Function.update_of_ne same] at found
      exact settled.own past entry found
  · refine ⟨(settled.others at' done).1,fun other entry found god => ?_⟩
    by_cases same : other = key
    · subst same
      simp only [State.setLocal,Function.update_self,Option.some.injEq] at found
      subst found
      exact absurd done ((allowed god).1 at')
    · simp only [State.setLocal,Function.update_of_ne same] at found
      exact (settled.others at' done).2 other entry found god

theorem clearLocal_settled {updating : κ} {state : State κ} (settled : Settled updating state) (key : κ) :
    Settled updating (state.clearLocal key) := by
  have sub : ∀ other entry, (state.clearLocal key).locals other = some entry → state.locals other = some entry := by
    intro other entry found
    by_cases same : other = key
    · subst same
      simp [State.clearLocal] at found
    · simpa [State.clearLocal,same] using found
  exact ⟨settled.role,fun other entry found => settled.clock other entry (sub other entry found),
    fun past entry found => settled.own past entry (sub updating entry found),settled.shared,
    fun at' done => ⟨(settled.others at' done).1,fun other entry found =>
      (settled.others at' done).2 other entry (sub other entry found)⟩,settled.lookups,settled.answers⟩

theorem later_done {updating key : κ} {state : State κ} (late : later updating state key = true) :
    ∃ at', Finished state at' ∧ (key = updating ∨ at' + LOCAL_GOD_TTL_MS ≤ state.now) := by
  unfold later at late
  split at late
  · next at' done => exact ⟨at',done,by simpa using late⟩
  · cases late

theorem start_settled {updating : κ} {state : State κ} (settled : Settled updating state) (valkey : Bool) (key : κ) :
    Settled updating (start valkey updating state key) := by
  unfold start
  dsimp only
  split
  · next value here =>
    refine answer_settled settled fun late => ?_
    obtain ⟨at',done,when'⟩ := later_done late
    obtain ⟨entry,found,rfl⟩ := Option.map_eq_some_iff.mp here
    obtain ⟨entry_found,fresh⟩ := Option.filter_eq_some_iff.mp found
    rcases when' with rfl | ended
    · exact settled.own (.inr ⟨at',done⟩) entry entry_found
    · by_contra god
      have old := (settled.others at' done).2 key entry entry_found (by simpa using god)
      have fresh : state.now - entry.at' < LOCAL_GOD_TTL_MS := by simpa using fresh
      omega
  · refine go_settled settled fun late => ?_
    obtain ⟨at',done,_⟩ := later_done late
    exact ⟨⟨at',done⟩,by cases valkey <;> rfl⟩

omit [DecidableEq κ] in
theorem shared_denies {updating : κ} {state : State κ} (settled : Settled updating state) (done : Finished state at') :
    captured (.cached state.shared?) = false := by
  cases here : state.shared? with
  | none => rfl
  | some value =>
    obtain ⟨entry,found,rfl⟩ := Option.map_eq_some_iff.mp here
    have denies := settled.shared at' done entry (Option.filter_eq_some_iff.mp found).1
    rw [denies]
    rfl

theorem finish_settled {updating : κ} {state : State κ} (settled : Settled updating state) (valkey : Bool) {lookup : Lookup κ}
    (own : lookup.later = true → (∃ at', Finished state at') ∧ captured lookup.stage = false)
    (allowedLocal : filesLocal lookup.stage = true → (∀ at', state.update ≠ .done at') ∧
      (lookup.instance' = updating → state.update ≠ .clearedAgain))
    (allowedShared : filesShared lookup.stage = true → ∀ at', state.update ≠ .done at') :
    Settled updating (finish valkey state lookup) := by
  obtain ⟨key,late,stage⟩ := lookup
  cases stage with
  | askCache => exact go_settled settled fun late => ⟨(own late).1,shared_denies settled (own late).1.choose_spec⟩
  | cached raw =>
    cases raw with
    | none => exact go_settled settled fun late => ⟨(own late).1,rfl⟩
    | some value =>
      refine answer_settled (setLocal_settled settled fun god => ?_) fun late => ?_
      · subst god
        exact allowedLocal rfl
      · have denied := (own late).2
        cases value <;> simp_all [captured]
  | askDatabase =>
    refine go_settled settled fun late => ⟨(own late).1,?_⟩
    obtain ⟨at',done⟩ := (own late).1
    rw [settled.role (by rw [show state.update = .done at' from done]; nofun)]
    rfl
  | answered isGod =>
    have filed : Settled updating (state.setLocal key isGod) := by
      refine setLocal_settled settled fun god => ?_
      subst god
      exact allowedLocal rfl
    have denied : late = true → isGod = false := by
      intro late
      have denied := (own late).2
      cases isGod <;> simp_all [captured]
    cases valkey with
    | true => exact go_settled filed fun late => ⟨(own late).1,by rw [denied late]; rfl⟩
    | false => exact answer_settled filed denied
  | setex isGod =>
    have denied : late = true → isGod = false := by
      intro late
      have denied := (own late).2
      cases isGod <;> simp_all [captured]
    have filed : Settled updating {state with shared := some ⟨isGod,state.now + GOD_CACHE_TTL * 1000⟩} := by
      refine ⟨settled.role,settled.clock,settled.own,fun at' done entry found => ?_,settled.others,settled.lookups,
        settled.answers⟩
      cases Option.some.inj found
      cases isGod with
      | false => rfl
      | true => exact absurd done (allowedShared rfl at')
    exact answer_settled filed denied

omit [DecidableEq κ] in
theorem fail_settled {updating : κ} {state : State κ} (settled : Settled updating state) {lookup : Lookup κ}
    (own : lookup.later = true → (∃ at', Finished state at') ∧ captured lookup.stage = false)
    (failed : fail state lookup = some after) : Settled updating after := by
  obtain ⟨key,late,stage⟩ := lookup
  cases stage with
  | askCache =>
    cases Option.some.inj failed
    exact go_settled settled fun late => ⟨(own late).1,rfl⟩
  | askDatabase =>
    cases Option.some.inj failed
    exact settled
  | setex isGod =>
    cases Option.some.inj failed
    refine answer_settled settled fun late => ?_
    have denied := (own late).2
    cases isGod <;> simp_all [captured]
  | _ => cases failed

omit [DecidableEq κ] in
theorem update_settled {updating : κ} {state : State κ} (settled : Settled updating state)
    (running : ∀ at', state.update ≠ .done at') (update : Update) (ended : ∀ at', update ≠ .done at')
    (locals : update = .clearedAgain → state.locals updating = none) (shared : Option SharedEntry) :
    Settled updating {state with god := false,update,shared} := by
  refine ⟨fun _ => rfl,settled.clock,?_,fun at' done => absurd done (ended at'),fun at' done => absurd done (ended at'),
    fun lookup member late => ?_,settled.answers⟩
  · rintro (again | ⟨at',done⟩) entry found
    · cases (locals again).symm.trans found
    · exact absurd done (ended at')
  · obtain ⟨⟨at',done⟩,_⟩ := settled.lookups lookup member late
    exact absurd done (running at')

theorem advance_settled {updating : κ} {state : State κ} (settled : Settled updating state)
    (moved : advance updating state = some after) : Settled updating after := by
  unfold advance at moved
  have role := settled.role
  have cleared := clearLocal_settled settled updating
  have empty : (state.clearLocal updating).locals updating = none := Function.update_self _ _ _
  cases stage : state.update with
  | waiting =>
    simp only [stage] at moved
    cases Option.some.inj moved
    exact update_settled settled (by simp [stage]) .committed nofun nofun state.shared
  | committed =>
    simp only [stage] at moved role
    cases Option.some.inj moved
    have next := update_settled cleared (by simp [State.clearLocal,stage]) .cleared nofun nofun state.shared
    rwa [← role nofun] at next
  | cleared =>
    simp only [stage] at moved role
    cases Option.some.inj moved
    have next := update_settled settled (by simp [stage]) .deleted nofun nofun none
    rwa [← role nofun] at next
  | deleted =>
    simp only [stage] at moved role
    cases Option.some.inj moved
    have next := update_settled cleared (by simp [State.clearLocal,stage]) .clearedAgain nofun (fun _ => empty) state.shared
    rwa [← role nofun] at next
  | clearedAgain =>
    simp only [stage] at moved
    cases Option.some.inj moved
    refine ⟨fun _ => settled.role (by simp [stage]),settled.clock,fun _ => settled.own (.inl stage),nofun,?_,?_,settled.answers⟩
    · rintro _ ⟨⟩
      exact ⟨Nat.le_refl _,fun key entry found _ => settled.clock key entry found⟩
    · intro lookup member late
      obtain ⟨⟨at',done⟩,_⟩ := settled.lookups lookup member late
      cases stage.symm.trans done
  | done at' =>
    simp only [stage] at moved
    cases moved

theorem step_settled (valkey : Bool) (updating : κ) : Preserved (step valkey updating) (Permitted updating) (Settled updating) := by
  intro before action after settled permitted moved
  cases action with
  | tick ms =>
    cases Option.some.inj moved
    exact ⟨settled.role,fun key entry found => Nat.le_add_right_of_le (settled.clock key entry found),settled.own,
      settled.shared,fun at' done => ⟨Nat.le_add_right_of_le (settled.others at' done).1,(settled.others at' done).2⟩,
      settled.lookups,settled.answers⟩
  | lookup key =>
    cases Option.some.inj moved
    exact start_settled settled valkey key
  | finish position =>
    obtain ⟨lookup,here,rfl⟩ := Option.map_eq_some_iff.mp moved
    have allowed := permitted lookup here
    exact finish_settled (drop_settled settled position) valkey (settled.lookups lookup (List.mem_of_getElem? here))
      allowed.1 allowed.2
  | fail position =>
    obtain ⟨lookup,here,failed⟩ := Option.bind_eq_some_iff.mp moved
    exact fail_settled (drop_settled settled position) (settled.lookups lookup (List.mem_of_getElem? here)) failed
  | update => exact advance_settled settled moved
  | forget key =>
    cases Option.some.inj moved
    exact clearLocal_settled settled key
  | evict =>
    cases Option.some.inj moved
    exact ⟨settled.role,settled.clock,settled.own,nofun,settled.others,settled.lookups,settled.answers⟩

omit [DecidableEq κ] in
theorem initial_settled (updating : κ) (god : Bool) (now : Nat) : Settled updating (State.initial god now) :=
  ⟨fun moved => absurd rfl moved,nofun,nofun,nofun,nofun,nofun,nofun⟩

-- Once the update is done the shared cache and the updating instance's own say no god;
-- what another instance still says is older than the update and runs out.
theorem demotion_settles (guarded : Guarded (step valkey updating) (Permitted updating) (State.initial god now) actions)
    (path : run (step valkey updating) (State.initial god now) actions = some (state : State κ)) :
    (∀ answer ∈ state.answers, answer.1.later = true → answer.2 = false) ∧
    ∀ at', state.update = .done at' →
      state.god = false ∧ (∀ entry, state.shared = some entry → entry.value = false) ∧
      (∀ entry, state.locals updating = some entry → entry.value = false) ∧
      ∀ key entry, state.locals key = some entry → entry.value = true → entry.at' ≤ at' := by
  have settled := run_preserves (step_settled valkey updating) (initial_settled updating god now) guarded path
  refine ⟨settled.answers,fun at' done => ⟨settled.role (by rw [done]; nofun),settled.shared at' done,
    settled.own (.inr ⟨at',done⟩),(settled.others at' done).2⟩⟩

end

section
-- A lookup on instance 1 files the flag there; the update runs on instance 0.
def elsewhere : List (Action Nat) :=
  [.lookup 1,.finish 0,.finish 0,.finish 0,.finish 0,.finish 0,.update,.update,.update,.update,.update,.tick 4999]

-- A lookup that read the row before the update files it after.
def overtaken : List (Action Nat) :=
  [.lookup 0,.finish 0,.finish 0,.finish 0,.update,.update,.update,.update,.update,.finish 0,.finish 0]

theorem god_kept :
    (∃ state, run (step true 0) (State.initial true 0) elsewhere = some state ∧ state.update = .done 0 ∧
      state.lookups = [] ∧ state.local? 1 = some true) ∧
    ∃ state, run (step true 0) (State.initial true 0) overtaken = some state ∧ state.update = .done 0 ∧
      state.lookups = [] ∧ state.shared? = some true ∧ state.local? 0 = some true :=
  ⟨⟨_,rfl,rfl,rfl,by decide⟩,_,rfl,rfl,rfl,by decide,by decide⟩

-- The flag filed before the update runs out, and the next lookup reads the table.
def filedBefore : List (Action Nat) :=
  [.lookup 1,.finish 0,.finish 0,.finish 0,.finish 0,.finish 0,.update,.update,.update,.update,.update,.tick 5000,
    .lookup 1,.finish 0,.finish 0,.finish 0,.finish 0,.finish 0]

theorem demotion_settles_elsewhere : ∃ state, run (step true 0) (State.initial true 0) filedBefore = some state ∧
    ∀ answer ∈ state.answers, answer.1.later = true → answer.2 = false := by
  have guarded : Guarded (step true 0) (Permitted 0) (State.initial true 0) filedBefore := by
    refine guarded_cons trivial rfl (guarded_cons ?_ rfl (guarded_cons ?_ rfl (guarded_cons ?_ rfl (guarded_cons ?_ rfl
      (guarded_cons ?_ rfl (guarded_cons trivial rfl (guarded_cons trivial rfl (guarded_cons trivial rfl
      (guarded_cons trivial rfl (guarded_cons trivial rfl (guarded_cons trivial rfl (guarded_cons trivial rfl
      (guarded_cons ?_ rfl (guarded_cons ?_ rfl (guarded_cons ?_ rfl (guarded_cons ?_ rfl
      (guarded_cons ?_ rfl trivial)))))))))))))))))
    iterate 5
      rintro lookup ⟨⟩
      exact ⟨fun _ => ⟨nofun,nofun⟩,fun _ => nofun⟩
    all_goals
      rintro lookup ⟨⟩
      exact ⟨fun files => absurd files (by decide),fun files => absurd files (by decide)⟩
  exact ⟨_,rfl,(demotion_settles guarded rfl).1⟩

end

end Zveltio.GodCache
