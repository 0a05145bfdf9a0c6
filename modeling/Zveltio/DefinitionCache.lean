import Zveltio.Runs
namespace Zveltio.DefinitionCache
open Runs

-- collectionCache at one name, and _collectionsListCache
inductive Door where
  | collection | list
  deriving DecidableEq

-- What a read is for: getCollections, getCollection, and the getCollection of an addField.
inductive Reader where
  | list | look | addField
  deriving DecidableEq

def Reader.door : Reader → Door
  | .list => .list
  | _ => .collection

-- The ways a field changes; keys is the second part of an alterField with key changes. queuedRemove is removeField in the queue's transaction.
inductive Path where
  | alterField (keyChanges : Bool)
  | queuedRemove | addField | removeField | relation | dropField | keys
  deriving DecidableEq

-- The UPDATE is in a transaction of the path's own, and does not commit by itself.
def Path.transaction : Path → Bool
  | .alterField _ => true
  | .queuedRemove => true
  | .relation => true
  | .dropField => true
  | _ => false

-- updateCollectionMetadata invalidates in that transaction.
def Path.early : Path → Bool
  | .alterField _ => true
  | .queuedRemove => true
  | .dropField => true
  | _ => false

-- Something invalidates after the commit.
def Path.late : Path → Bool
  | .alterField keyChanges => keyChanges
  | .queuedRemove => false
  | _ => true

-- What a reader was given: the row after so many commits, and the fields that addField pushed onto it since.
structure Definition (χ : Type u) where
  version : Nat
  pushed : List χ

-- asked: after a miss; selected: its SELECT has answered, with the row of so many commits; holds: an addField and the object it was given.
-- written: the UPDATE is in the open transaction; forgotten: and the invalidation in it has been; settled: and the one after the commit.
inductive Stage where
  | asked (reader : Reader) (genBefore : Nat)
  | selected (reader : Reader) (genBefore version : Nat)
  | holds (object : Nat)
  | working (path : Path)
  | written (path : Path)
  | forgotten (path : Path)
  | committed (path : Path) (version : Nat)
  | settled (path : Path) (version : Nat)
  deriving DecidableEq

-- version: the commits there have been; resolved: the versions of the changes whose promise has resolved; failed: those rolled back.
structure State (χ : Type u) where
  version : Nat
  objects : Nat → Definition χ
  made : Nat
  cache : Door → Option Nat
  cacheGen : Nat
  flight : χ → Option Stage
  used : List χ
  resolved : List Nat
  failed : List χ

-- expire: an entry is past its TTL; other: another collection is invalidated.
inductive Action (χ : Type u) where
  | get (c : χ) (reader : Reader)
  | select (c : χ)
  | receive (c : χ)
  | push (c : χ)
  | listed (c : χ)
  | change (c : χ) (path : Path)
  | write (c : χ)
  | forget (c : χ)
  | commit (c : χ)
  | rollback (c : χ)
  | further (c : χ)
  | resolve (c : χ)
  | reject (c : χ)
  | expire (door : Door)
  | other

section
variable {χ : Type u} [DecidableEq χ]

def State.start : State χ := ⟨0,fun _ => ⟨0,[]⟩,0,fun _ => none,0,fun _ => none,[],[],[]⟩

def State.becomes (state : State χ) (c : χ) (stage : Option Stage) : State χ := {state with flight := Function.update state.flight c stage}

def State.invalidateCache (state : State χ) : State χ := {state with cache := fun _ => none,cacheGen := state.cacheGen + 1}

-- The object a reader is given, at once or when its row is there.
def State.given (state : State χ) (c : χ) (reader : Reader) (object : Nat) : State χ :=
  state.becomes c (if reader = .addField then some (.holds object) else none)

@[grind] def step (state : State χ) : Action χ → Option (State χ)
  | .get c reader =>
    if c ∈ state.used then none
    else
      let asking := {state with used := c::state.used}
      match state.cache reader.door with
      | some object => some (asking.given c reader object)
      | none => some (asking.becomes c (some (.asked reader state.cacheGen)))
  | .select c => match state.flight c with
    | some (.asked reader genBefore) => some (state.becomes c (some (.selected reader genBefore state.version)))
    | _ => none
  | .receive c => match state.flight c with
    | some (.selected reader genBefore version) =>
      let received := {state with
        objects := Function.update state.objects state.made ⟨version,[]⟩
        made := state.made + 1
        cache := if state.cacheGen = genBefore then Function.update state.cache reader.door (some state.made) else state.cache}
      some (received.given c reader state.made)
    | _ => none
  -- fields.push, on the object the cache may share
  | .push c => match state.flight c with
    | some (.holds object) =>
      let pushed : Definition χ := {state.objects object with pushed := c::(state.objects object).pushed}
      some ({state with objects := Function.update state.objects object pushed}.becomes c (some (.working .addField)))
    | _ => none
  | .listed c => match state.flight c with
    | some (.holds _) => some (state.invalidateCache.becomes c none)
    | _ => none
  | .change c path =>
    if c ∈ state.used ∨ path = .addField ∨ path = .keys then none
    else some ({state with used := c::state.used}.becomes c (some (.working path)))
  | .write c => match state.flight c with
    | some (.working path) => if path.transaction then some (state.becomes c (some (.written path))) else none
    | _ => none
  | .forget c => match state.flight c with
    | some (.written path) => if path.early then some (state.invalidateCache.becomes c (some (.forgotten path))) else none
    | some (.committed path version) => if path.late then some (state.invalidateCache.becomes c (some (.settled path version))) else none
    | _ => none
  | .commit c =>
    let committed path := {state with version := state.version + 1}.becomes c (some (.committed path (state.version + 1)))
    match state.flight c with
    | some (.working path) => if path.transaction then none else some (committed path)
    | some (.written path) => if path.early then none else some (committed path)
    | some (.forgotten path) => some (committed path)
    | _ => none
  | .rollback c =>
    let failed := {state with failed := c::state.failed}.becomes c none
    match state.flight c with
    | some (.working _) => some failed
    | some (.written _) => some failed
    | some (.forgotten _) => some failed
    | _ => none
  -- An alterField goes on with its keys.
  | .further c => match state.flight c with
    | some (.settled (.alterField true) _) => some (state.becomes c (some (.working .keys)))
    | _ => none
  | .resolve c =>
    let resolves version := {state with resolved := version::state.resolved}.becomes c none
    match state.flight c with
    | some (.committed path version) => if path.late then none else some (resolves version)
    | some (.settled path version) => if path = .alterField true then none else some (resolves version)
    | _ => none
  | .reject c => match state.flight c with
    | some (.committed _ _) => some (state.becomes c none)
    | some (.settled _ _) => some (state.becomes c none)
    | _ => none
  | .expire door => some {state with cache := Function.update state.cache door none}
  | .other => some {state with cache := Function.update state.cache .list none,cacheGen := state.cacheGen + 1}

-- No entry is older than a change whose promise has resolved, and none has what a change wrote that rolled back.
structure Fresh (state : State χ) : Prop where
  finished : ∀ version ∈ state.resolved, ∀ door object, state.cache door = some object → version ≤ (state.objects object).version
  undone : ∀ c ∈ state.failed, ∀ door object, state.cache door = some object → c ∉ (state.objects object).pushed

-- Nothing is cached, and no answer under way will be.
def Empty (state : State χ) : Prop :=
  (∀ door, state.cache door = none) ∧ ∀ c reader genBefore version, state.flight c = some (.selected reader genBefore version) → genBefore ≠ state.cacheGen

-- Where nothing invalidates after the commit, no read has been answered since the invalidation before it; and an addField that fails has not
-- pushed onto an object that is cached.
def Quiet (state : State χ) : Action χ → Prop
  | .commit c => ∀ path, state.flight c = some (.forgotten path) → path.late = false → Empty state
  | .rollback c => ∀ door object, state.cache door = some object → c ∉ (state.objects object).pushed
  | _ => True

-- No entry, and no answer that will be one, is older than a version.
structure Clear (state : State χ) (version : Nat) : Prop where
  known : version ≤ state.version
  cached : ∀ door object, state.cache door = some object → version ≤ (state.objects object).version
  coming : ∀ c reader genBefore read, state.flight c = some (.selected reader genBefore read) → genBefore = state.cacheGen → version ≤ read

structure Sound (state : State χ) : Prop where
  made : ∀ door object, state.cache door = some object → object < state.made
  held : ∀ c object, state.flight c = some (.holds object) → object < state.made
  asked : ∀ c reader genBefore, state.flight c = some (.asked reader genBefore) → genBefore ≤ state.cacheGen
  selected : ∀ c reader genBefore version, state.flight c = some (.selected reader genBefore version) → genBefore ≤ state.cacheGen
  resolved : ∀ version ∈ state.resolved, Clear state version
  settled : ∀ c path version, state.flight c = some (.settled path version) → Clear state version
  committed : ∀ c path version, state.flight c = some (.committed path version) → version ≤ state.version ∧ (path.late = false → Clear state version)
  used : ∀ c stage, state.flight c = some stage → c ∈ state.used
  failed : ∀ c ∈ state.failed, c ∈ state.used ∧ state.flight c = none
  undone : ∀ c ∈ state.failed, ∀ door object, state.cache door = some object → c ∉ (state.objects object).pushed

def Fits (state : State χ) : Stage → Prop
  | .asked _ genBefore => genBefore ≤ state.cacheGen
  | .selected _ genBefore version => genBefore ≤ state.cacheGen ∧ version = state.version
  | .holds object => object < state.made
  | .committed path version => version ≤ state.version ∧ (path.late = false → Clear state version)
  | .settled _ version => Clear state version
  | _ => True

-- What a step may do: one call enters a stage or leaves, entries go or are made of what a read brought, objects keep their version.
structure Moves (before after : State χ) (entered : Option (χ × Stage)) : Prop where
  flight : ∀ c stage, after.flight c = some stage → before.flight c = some stage ∨ entered = some (c,stage)
  version : before.version ≤ after.version
  gen : before.cacheGen ≤ after.cacheGen
  made : before.made ≤ after.made
  cached : ∀ door object, after.cache door = some object → before.cache door = some object ∨
    (object = before.made ∧ object < after.made ∧ (after.objects object).pushed = [] ∧ ∃ c reader genBefore,
      before.flight c = some (.selected reader genBefore (after.objects object).version) ∧ genBefore = before.cacheGen)
  objects : ∀ object < before.made, (after.objects object).version = (before.objects object).version
  pushed : ∀ object < before.made, ∀ c ∈ (after.objects object).pushed, c ∈ (before.objects object).pushed ∨ before.flight c ≠ none
  used : ∀ c ∈ before.used, c ∈ after.used
  starts : ∀ c stage, entered = some (c,stage) → c ∈ after.used ∧ (c ∈ before.used → before.flight c ≠ none)
  resolved : ∀ version ∈ after.resolved, version ∈ before.resolved ∨ Clear after version
  failed : ∀ c ∈ after.failed, c ∈ before.failed ∨ (c ∈ after.used ∧ after.flight c = none ∧
    ∀ door object, after.cache door = some object → c ∉ (after.objects object).pushed)

section
variable {before after : State χ} {entered : Option (χ × Stage)} {c : χ} {stage : Stage}

omit [DecidableEq χ] in
theorem clear_moves (sound : Sound before) (moves : Moves before after entered) (fits : ∀ c stage, entered = some (c,stage) → Fits after stage)
    {version : Nat} (clear : Clear before version) : Clear after version := by
  refine ⟨Nat.le_trans clear.known moves.version,fun door object held => ?_,fun c reader genBefore read found same => ?_⟩
  · rcases moves.cached door object held with old | ⟨_,_,_,c,reader,genBefore,found,same⟩
    · rw [moves.objects object (sound.made door object old)]
      exact clear.cached door object old
    · exact clear.coming c reader genBefore _ found same
  · rcases moves.flight c _ found with old | new
    · refine clear.coming c reader genBefore read old (Nat.le_antisymm (sound.selected c reader genBefore read old) ?_)
      exact same ▸ moves.gen
    · have now := (fits c _ new).2
      exact now ▸ Nat.le_trans clear.known moves.version

omit [DecidableEq χ] in
theorem moves_sound (sound : Sound before) (moves : Moves before after entered) (fits : ∀ c stage, entered = some (c,stage) → Fits after stage) :
    Sound after := by
  have clear {version : Nat} : Clear before version → Clear after version := clear_moves sound moves fits
  refine ⟨fun door object held => ?_,fun c object found => ?_,fun c reader genBefore found => ?_,fun c reader genBefore version found => ?_,
    fun version finished => ?_,fun c path version found => ?_,fun c path version found => ?_,fun c stage found => ?_,fun c lost => ?_,
    fun c lost door object held => ?_⟩
  · rcases moves.cached door object held with old | ⟨_,inside,_⟩
    · exact Nat.lt_of_lt_of_le (sound.made door object old) moves.made
    · exact inside
  · rcases moves.flight c _ found with old | new
    · exact Nat.lt_of_lt_of_le (sound.held c object old) moves.made
    · exact fits c _ new
  · rcases moves.flight c _ found with old | new
    · exact Nat.le_trans (sound.asked c reader genBefore old) moves.gen
    · exact fits c _ new
  · rcases moves.flight c _ found with old | new
    · exact Nat.le_trans (sound.selected c reader genBefore version old) moves.gen
    · exact (fits c _ new).1
  · rcases moves.resolved version finished with old | new
    · exact clear (sound.resolved version old)
    · exact new
  · rcases moves.flight c _ found with old | new
    · exact clear (sound.settled c path version old)
    · exact fits c _ new
  · rcases moves.flight c _ found with old | new
    · obtain ⟨known,early⟩ := sound.committed c path version old
      exact ⟨Nat.le_trans known moves.version,fun path => clear (early path)⟩
    · exact fits c _ new
  · rcases moves.flight c _ found with old | new
    · exact moves.used c (sound.used c stage old)
    · exact (moves.starts c stage new).1
  · rcases moves.failed c lost with old | ⟨used,gone,_⟩
    · obtain ⟨used,gone⟩ := sound.failed c old
      refine ⟨moves.used c used,?_⟩
      cases found : after.flight c with
      | none => rfl
      | some stage =>
        rcases moves.flight c stage found with there | new
        · cases gone.symm.trans there
        · exact absurd gone ((moves.starts c stage new).2 used)
    · exact ⟨used,gone⟩
  · rcases moves.failed c lost with old | ⟨_,_,unshared⟩
    · rcases moves.cached door object held with there | ⟨_,_,bare,_⟩
      · intro member
        rcases moves.pushed object (sound.made door object there) c member with was | pushing
        · exact sound.undone c old door object there was
        · exact pushing (sound.failed c old).2
      · rw [bare]
        exact List.not_mem_nil
    · exact unshared door object held

theorem plain_moves {stage : Option Stage} (flight : after.flight = Function.update before.flight c stage) (objects : after.objects = before.objects)
    (made : after.made = before.made) (version : before.version ≤ after.version) (gen : before.cacheGen ≤ after.cacheGen)
    (fewer : ∀ door object, after.cache door = some object → before.cache door = some object) (used : ∀ c ∈ before.used, c ∈ after.used)
    (starts : stage ≠ none → c ∈ after.used ∧ (c ∈ before.used → before.flight c ≠ none))
    (resolved : ∀ version ∈ after.resolved, version ∈ before.resolved ∨ Clear after version)
    (failed : ∀ lost ∈ after.failed, lost ∈ before.failed ∨ (lost = c ∧ stage = none ∧ c ∈ after.used ∧
      ∀ door object, before.cache door = some object → c ∉ (before.objects object).pushed)) :
    Moves before after (stage.map (c,·)) := by
  refine ⟨fun other found there => ?_,version,gen,Nat.le_of_eq made.symm,fun door object held => .inl (fewer door object held),
    fun object _ => by rw [objects],fun object _ other member => .inl (by rw [objects] at member; exact member),used,fun other found entered => ?_,resolved,
    fun lost member => ?_⟩
  · rw [flight] at there
    by_cases same : other = c
    · subst same
      rw [Function.update_self] at there
      exact .inr (by rw [there]; rfl)
    · rw [Function.update_of_ne same] at there
      exact .inl there
  · obtain ⟨held,same,pair⟩ := Option.map_eq_some_iff.mp entered
    cases pair
    exact starts (by rw [same]; exact Option.some_ne_none _)
  · rcases failed lost member with old | ⟨rfl,rfl,inside,unshared⟩
    · exact .inl old
    · refine .inr ⟨inside,by rw [flight,Function.update_self],fun door object held => ?_⟩
      rw [objects]
      exact unshared door object (fewer door object held)

omit [DecidableEq χ] in
theorem map_fits {stage : Option Stage} (fits : ∀ held, stage = some held → Fits after held) :
    ∀ other held, stage.map (c,·) = some (other,held) → Fits after held := by
  intro other held entered
  obtain ⟨inner,same,pair⟩ := Option.map_eq_some_iff.mp entered
  cases pair
  exact fits held same

theorem becomes_moves (sound : Sound before) (there : before.flight c = some stage) {next : Option Stage} :
    Moves before (before.becomes c next) (next.map (c,·)) := by
  refine plain_moves rfl rfl rfl (Nat.le_refl _) (Nat.le_refl _) (fun _ _ held => held) (fun _ member => member) (fun _ => ⟨sound.used c stage there,?_⟩)
    (fun _ => .inl) (fun _ => .inl)
  intro _ gone
  cases gone.symm.trans there

theorem invalidated_moves (sound : Sound before) (there : before.flight c = some stage) {next : Option Stage} :
    Moves before (before.invalidateCache.becomes c next) (next.map (c,·)) := by
  refine plain_moves rfl rfl rfl (Nat.le_refl _) (Nat.le_succ _) (fun _ _ held => nomatch held) (fun _ member => member)
    (fun _ => ⟨sound.used c stage there,?_⟩) (fun _ => .inl) (fun _ => .inl)
  intro _ gone
  cases gone.symm.trans there

theorem invalidated_clear (sound : Sound before) {version : Nat} (known : version ≤ before.version) {path : Path} :
    Clear (before.invalidateCache.becomes c (some (.settled path version))) version := by
  refine ⟨known,fun _ _ held => (nomatch held),fun other reader genBefore read found same => ?_⟩
  change Function.update before.flight c (some (.settled path version)) other = _ at found
  by_cases here : other = c
  · subst here
    rw [Function.update_self] at found
    cases found
  · rw [Function.update_of_ne here] at found
    have old := sound.selected other reader genBefore read found
    have new : genBefore = before.cacheGen + 1 := same
    omega

theorem commit_moves (sound : Sound before) (there : before.flight c = some stage) {next : Stage} :
    Moves before ({before with version := before.version + 1}.becomes c (some next)) (some (c,next)) := by
  change Moves _ _ ((some next).map (c,·))
  refine plain_moves rfl rfl rfl (Nat.le_succ _) (Nat.le_refl _) (fun _ _ held => held) (fun _ member => member)
    (fun _ => ⟨sound.used c stage there,?_⟩) (fun _ => .inl) (fun _ => .inl)
  intro _ gone
  cases gone.symm.trans there

theorem commit_clear (empty : Empty before) {path : Path} :
    Clear ({before with version := before.version + 1}.becomes c (some (.committed path (before.version + 1)))) (before.version + 1) := by
  refine ⟨Nat.le_refl _,fun door object held => ?_,fun other reader genBefore read found same => ?_⟩
  · cases (empty.1 door).symm.trans held
  · change Function.update before.flight c _ other = _ at found
    by_cases here : other = c
    · subst here
      rw [Function.update_self] at found
      cases found
    · rw [Function.update_of_ne here] at found
      exact absurd same (empty.2 other reader genBefore read found)

theorem resolve_moves {version : Nat} (clear : Clear before version) :
    Moves before ({before with resolved := version::before.resolved}.becomes c none) none := by
  change Moves _ _ ((none : Option Stage).map (c,·))
  refine plain_moves rfl rfl rfl (Nat.le_refl _) (Nat.le_refl _) (fun _ _ held => held) (fun _ member => member)
    (fun some => absurd rfl some) (fun finished member => ?_) (fun _ => .inl)
  rcases List.mem_cons.mp member with rfl | old
  · refine .inr ⟨clear.known,clear.cached,fun other reader genBefore read found same => ?_⟩
    refine clear.coming other reader genBefore read ?_ same
    change Function.update before.flight c none other = _ at found
    by_cases here : other = c
    · subst here
      rw [Function.update_self] at found
      cases found
    · rwa [Function.update_of_ne here] at found
  · exact .inl old

theorem rollback_moves (sound : Sound before) (there : before.flight c = some stage)
    (unshared : ∀ door object, before.cache door = some object → c ∉ (before.objects object).pushed) :
    Moves before ({before with failed := c::before.failed}.becomes c none) none := by
  change Moves _ _ ((none : Option Stage).map (c,·))
  refine plain_moves rfl rfl rfl (Nat.le_refl _) (Nat.le_refl _) (fun _ _ held => held) (fun _ member => member)
    (fun some => absurd rfl some) (fun _ => .inl) (fun lost member => ?_)
  rcases List.mem_cons.mp member with rfl | old
  · exact .inr ⟨rfl,rfl,sound.used lost stage there,unshared⟩
  · exact .inl old

theorem first_moves (new : c ∉ before.used) {next : Option Stage} :
    Moves before ({before with used := c::before.used}.becomes c next) (next.map (c,·)) :=
  plain_moves rfl rfl rfl (Nat.le_refl _) (Nat.le_refl _) (fun _ _ held => held) (fun _ member => List.mem_cons_of_mem c member)
    (fun _ => ⟨List.mem_cons_self ..,fun old => absurd old new⟩) (fun _ => .inl) (fun _ => .inl)

omit [DecidableEq χ] in
theorem fewer_moves (flight : after.flight = before.flight) (objects : after.objects = before.objects) (made : after.made = before.made)
    (version : after.version = before.version) (gen : before.cacheGen ≤ after.cacheGen)
    (fewer : ∀ door object, after.cache door = some object → before.cache door = some object) (used : after.used = before.used)
    (resolved : after.resolved = before.resolved) (failed : after.failed = before.failed) : Moves before after none := by
  refine ⟨fun c stage found => .inl (flight ▸ found),Nat.le_of_eq version.symm,gen,Nat.le_of_eq made.symm,fun door object held => .inl (fewer door object held),
    fun object _ => by rw [objects],fun object _ c member => .inl (objects ▸ member),fun c member => used ▸ member,fun _ _ none => (nomatch none),
    fun version member => .inl (resolved ▸ member),fun c member => .inl (failed ▸ member)⟩

theorem receive_moves (sound : Sound before) {reader : Reader} {genBefore version : Nat}
    (there : before.flight c = some (.selected reader genBefore version)) (moved : step before (.receive c) = some after) :
    ∃ stage : Option Stage, Moves before after (stage.map (c,·)) ∧ ∀ held, stage = some held → Fits after held := by
  simp only [step,there,Option.some.injEq] at moved
  subst moved
  refine ⟨if reader = .addField then some (.holds before.made) else none,⟨fun other found at_ => ?_,Nat.le_refl _,Nat.le_refl _,Nat.le_succ _,
    fun door object held => ?_,fun object old => ?_,fun object old other member => ?_,fun _ member => member,fun other found entered => ?_,fun _ => .inl,
    fun _ => .inl⟩,fun held same => ?_⟩
  · change Function.update before.flight c _ other = _ at at_
    by_cases here : other = c
    · subst here
      rw [Function.update_self] at at_
      exact .inr (by rw [at_]; rfl)
    · rw [Function.update_of_ne here] at at_
      exact .inl at_
  · change (if before.cacheGen = genBefore then Function.update before.cache reader.door (some before.made) else before.cache) door = _ at held
    split at held
    case isTrue same =>
      by_cases here : door = reader.door
      · subst here
        rw [Function.update_self] at held
        cases held
        refine .inr ⟨rfl,Nat.lt_succ_self _,?_,c,reader,genBefore,?_,same.symm⟩
        · change (Function.update before.objects before.made _ before.made).pushed = []
          rw [Function.update_self]
        · change before.flight c = some (.selected reader genBefore (Function.update before.objects before.made _ before.made).version)
          rw [Function.update_self]
          exact there
      · rw [Function.update_of_ne here] at held
        exact .inl held
    case isFalse => exact .inl held
  · change (Function.update before.objects before.made _ object).version = _
    rw [Function.update_of_ne (Nat.ne_of_lt old)]
  · change other ∈ (Function.update before.objects before.made _ object).pushed at member
    rw [Function.update_of_ne (Nat.ne_of_lt old)] at member
    exact .inl member
  · obtain ⟨_,_,pair⟩ := Option.map_eq_some_iff.mp entered
    cases pair
    refine ⟨sound.used c _ there,fun _ gone => ?_⟩
    cases gone.symm.trans there
  · split at same
    · cases same
      exact Nat.lt_succ_self before.made
    · cases same

theorem push_moves (sound : Sound before) {object : Nat} (there : before.flight c = some (.holds object)) (moved : step before (.push c) = some after) :
    Moves before after (some (c,.working .addField)) := by
  simp only [step,there,Option.some.injEq] at moved
  subst moved
  have going : before.flight c ≠ none := by rw [there]; exact Option.some_ne_none _
  refine ⟨fun other found at_ => ?_,Nat.le_refl _,Nat.le_refl _,Nat.le_refl _,fun door object held => .inl held,fun other _ => ?_,
    fun other _ call member => ?_,fun _ member => member,fun other found entered => ?_,fun _ => .inl,fun _ => .inl⟩
  · change Function.update before.flight c _ other = _ at at_
    by_cases here : other = c
    · subst here
      rw [Function.update_self] at at_
      exact .inr (by rw [← Option.some.inj at_])
    · rw [Function.update_of_ne here] at at_
      exact .inl at_
  · change (Function.update before.objects object _ other).version = _
    by_cases here : other = object
    · subst here
      rw [Function.update_self]
    · rw [Function.update_of_ne here]
  · change call ∈ (Function.update before.objects object _ other).pushed at member
    by_cases here : other = object
    · subst here
      rw [Function.update_self] at member
      rcases List.mem_cons.mp member with rfl | old
      · exact .inr going
      · exact .inl old
    · rw [Function.update_of_ne here] at member
      exact .inl member
  · cases entered
    exact ⟨sound.used c _ there,fun _ => going⟩

def Goes (before after : State χ) (c : χ) : Prop :=
  ∃ stage : Option Stage, Moves before after (stage.map (c,·)) ∧ ∀ held, stage = some held → Fits after held

omit [DecidableEq χ] in
theorem goes_sound (sound : Sound before) (goes : Goes before after c) : Sound after := by
  obtain ⟨_,moves,fits⟩ := goes
  exact moves_sound sound moves (map_fits fits)

theorem becomes_goes (sound : Sound before) (there : before.flight c = some stage) {next : Stage} (fits : Fits (before.becomes c (some next)) next) :
    Goes before (before.becomes c (some next)) c :=
  ⟨some next,becomes_moves sound there,fun _ same => Option.some.inj same ▸ fits⟩

theorem get_goes (sound : Sound before) {reader : Reader} (moved : step before (.get c reader) = some after) : Goes before after c := by
  simp only [step] at moved
  split at moved
  case isTrue => cases moved
  case isFalse new =>
    split at moved
    case h_1 object held =>
      cases moved
      refine ⟨_,first_moves new,fun stage same => ?_⟩
      split at same
      · cases same
        exact sound.made reader.door object held
      · cases same
    case h_2 =>
      cases moved
      exact ⟨some _,first_moves new,fun stage same => Option.some.inj same ▸ Nat.le_refl _⟩

theorem change_goes {path : Path} (moved : step before (.change c path) = some after) : Goes before after c := by
  simp only [step] at moved
  split at moved
  case isTrue => cases moved
  case isFalse new =>
    cases moved
    exact ⟨some _,first_moves fun old => new (.inl old),fun stage same => Option.some.inj same ▸ trivial⟩

theorem select_goes (sound : Sound before) (moved : step before (.select c) = some after) : Goes before after c := by
  simp only [step] at moved
  split at moved
  case h_1 reader genBefore there =>
    cases moved
    exact becomes_goes sound there ⟨sound.asked c reader genBefore there,rfl⟩
  case h_2 => cases moved

theorem write_goes (sound : Sound before) (moved : step before (.write c) = some after) : Goes before after c := by
  simp only [step] at moved
  split at moved
  case h_1 path there =>
    split at moved
    · cases moved
      exact becomes_goes sound there trivial
    · cases moved
  case h_2 => cases moved

theorem further_goes (sound : Sound before) (moved : step before (.further c) = some after) : Goes before after c := by
  simp only [step] at moved
  split at moved
  case h_1 there =>
    cases moved
    exact becomes_goes sound there trivial
  case h_2 => cases moved

theorem listed_goes (sound : Sound before) (moved : step before (.listed c) = some after) : Goes before after c := by
  simp only [step] at moved
  split at moved
  case h_1 there =>
    cases moved
    exact ⟨none,invalidated_moves sound there,fun _ same => (nomatch same)⟩
  case h_2 => cases moved

-- The invalidation in the transaction says nothing; the one after the commit clears what is older.
theorem forget_goes (sound : Sound before) (moved : step before (.forget c) = some after) : Goes before after c := by
  simp only [step] at moved
  split at moved
  case h_1 path there =>
    split at moved
    · cases moved
      exact ⟨some _,invalidated_moves sound there,fun _ same => Option.some.inj same ▸ trivial⟩
    · cases moved
  case h_2 path version there =>
    split at moved
    · cases moved
      refine ⟨some _,invalidated_moves sound there,fun _ same => Option.some.inj same ▸ ?_⟩
      exact invalidated_clear sound (sound.committed c path version there).1
    · cases moved
  case h_3 => cases moved

theorem commit_goes (sound : Sound before) (quiet : Quiet before (.commit c)) (moved : step before (.commit c) = some after) : Goes before after c := by
  simp only [step] at moved
  split at moved
  case h_1 path there =>
    split at moved
    case isTrue => cases moved
    case isFalse alone =>
      cases moved
      refine ⟨some _,commit_moves sound there,fun _ same => Option.some.inj same ▸ ⟨Nat.le_refl _,fun never => ?_⟩⟩
      cases path <;> first | exact absurd rfl alone | cases never
  case h_2 path there =>
    split at moved
    case isTrue => cases moved
    case isFalse plain =>
      cases moved
      refine ⟨some _,commit_moves sound there,fun _ same => Option.some.inj same ▸ ⟨Nat.le_refl _,fun never => ?_⟩⟩
      cases path <;> first | exact absurd rfl plain | cases never
  case h_3 path there =>
    cases moved
    refine ⟨some _,commit_moves sound there,fun _ same => Option.some.inj same ▸ ⟨Nat.le_refl _,fun never => ?_⟩⟩
    exact commit_clear (quiet path there never)
  case h_4 => cases moved

theorem rollback_goes (sound : Sound before) (quiet : Quiet before (.rollback c)) (moved : step before (.rollback c) = some after) : Goes before after c := by
  simp only [step] at moved
  split at moved
  case h_4 => cases moved
  all_goals
    rename_i there
    cases moved
    exact ⟨none,rollback_moves sound there quiet,fun _ same => (nomatch same)⟩

theorem resolve_goes (sound : Sound before) (moved : step before (.resolve c) = some after) : Goes before after c := by
  simp only [step] at moved
  split at moved
  case h_1 path version there =>
    split at moved
    case isTrue => cases moved
    case isFalse never =>
      cases moved
      refine ⟨none,resolve_moves ((sound.committed c path version there).2 ?_),fun _ same => (nomatch same)⟩
      exact Bool.eq_false_iff.mpr never
  case h_2 path version there =>
    split at moved
    case isTrue => cases moved
    case isFalse =>
      cases moved
      exact ⟨none,resolve_moves (sound.settled c path version there),fun _ same => (nomatch same)⟩
  case h_3 => cases moved

theorem reject_goes (sound : Sound before) (moved : step before (.reject c) = some after) : Goes before after c := by
  simp only [step] at moved
  split at moved
  case h_3 => cases moved
  all_goals
    rename_i there
    cases moved
    exact ⟨none,becomes_moves sound there,fun _ same => (nomatch same)⟩

theorem receive_goes (sound : Sound before) (moved : step before (.receive c) = some after) : Goes before after c := by
  cases there : before.flight c with
  | none => simp only [step,there] at moved; cases moved
  | some stage =>
    cases stage with
    | selected reader genBefore version => exact receive_moves sound there moved
    | _ => simp only [step,there] at moved; cases moved

theorem push_goes (sound : Sound before) (moved : step before (.push c) = some after) : Goes before after c := by
  cases there : before.flight c with
  | none => simp only [step,there] at moved; cases moved
  | some stage =>
    cases stage with
    | holds object => exact ⟨some _,push_moves sound there moved,fun _ same => Option.some.inj same ▸ trivial⟩
    | _ => simp only [step,there] at moved; cases moved

omit [DecidableEq χ] in
theorem gone_door {door lost : Door} {object : Nat} (held : Function.update before.cache lost none door = some object) : before.cache door = some object := by
  by_cases here : door = lost
  · subst here
    rw [Function.update_self] at held
    cases held
  · rwa [Function.update_of_ne here] at held

theorem step_sound : Preserved step Quiet (Sound (χ := χ)) := by
  intro before action after sound quiet moved
  cases action with
  | get c reader => exact goes_sound sound (get_goes sound moved)
  | select c => exact goes_sound sound (select_goes sound moved)
  | receive c => exact goes_sound sound (receive_goes sound moved)
  | push c => exact goes_sound sound (push_goes sound moved)
  | listed c => exact goes_sound sound (listed_goes sound moved)
  | change c path => exact goes_sound sound (change_goes moved)
  | write c => exact goes_sound sound (write_goes sound moved)
  | forget c => exact goes_sound sound (forget_goes sound moved)
  | commit c => exact goes_sound sound (commit_goes sound quiet moved)
  | rollback c => exact goes_sound sound (rollback_goes sound quiet moved)
  | further c => exact goes_sound sound (further_goes sound moved)
  | resolve c => exact goes_sound sound (resolve_goes sound moved)
  | reject c => exact goes_sound sound (reject_goes sound moved)
  | expire door =>
    cases moved
    have moves : Moves before {before with cache := Function.update before.cache door none} none :=
      fewer_moves rfl rfl rfl rfl (Nat.le_refl _) (fun _ _ => gone_door) rfl rfl rfl
    exact moves_sound sound moves fun _ _ never => (nomatch never)
  | other =>
    cases moved
    have moves : Moves before {before with cache := Function.update before.cache .list none,cacheGen := before.cacheGen + 1} none :=
      fewer_moves rfl rfl rfl rfl (Nat.le_succ _) (fun _ _ => gone_door) rfl rfl rfl
    exact moves_sound sound moves fun _ _ never => (nomatch never)

omit [DecidableEq χ] in
theorem start_sound : Sound (State.start : State χ) :=
  ⟨fun _ _ held => (nomatch held),fun _ _ held => (nomatch held),fun _ _ _ held => (nomatch held),fun _ _ _ _ held => (nomatch held),
    fun _ member => (nomatch member),fun _ _ _ held => (nomatch held),fun _ _ _ held => (nomatch held),fun _ _ held => (nomatch held),
    fun _ member => (nomatch member),fun _ member => (nomatch member)⟩

theorem definitions_fresh {actions : List (Action χ)} (quiet : Guarded step Quiet State.start actions)
    (path : run step State.start actions = some after) : Fresh after := by
  have sound := run_preserves step_sound start_sound quiet path
  exact ⟨fun version finished => (sound.resolved version finished).cached,sound.undone⟩

end

end

-- A read caches the row, and an alterField that nothing crosses takes it away before the next read.
def reread : List (Action Nat) :=
  [.get 0 .look,.select 0,.receive 0,.change 1 (.alterField false),.write 1,.forget 1,.commit 1,.resolve 1,.get 2 .look,.select 2,.receive 2]

theorem definitions_fresh_reread : ∃ after, run step State.start reread = some after ∧ Fresh after ∧ after.resolved = [1] ∧
    after.cache .collection = some 1 := by
  refine ⟨_,rfl,@definitions_fresh _ _ _ reread ?_ rfl,rfl,rfl⟩
  refine guarded_cons trivial rfl <| guarded_cons trivial rfl <| guarded_cons trivial rfl <| guarded_cons trivial rfl <| guarded_cons trivial rfl <|
    guarded_cons trivial rfl <| guarded_cons (fun _ _ _ => ⟨fun _ => rfl,fun c reader genBefore version found => ?_⟩) rfl <| guarded_cons trivial rfl <|
    guarded_cons trivial rfl <| guarded_cons trivial rfl <| guarded_cons trivial rfl trivial
  match c with
  | 0 => cases found
  | 1 => cases found
  | _ + 2 => cases found

-- A read between the invalidation and the commit of an alterField.
def between : List (Action Nat) :=
  [.change 0 (.alterField false),.write 0,.forget 0,.get 1 .look,.select 1,.receive 1,.commit 0,.resolve 0]

-- An addField that fails after it has pushed onto what it read.
def undone : List (Action Nat) := [.get 0 .addField,.select 0,.receive 0,.push 0,.rollback 0]

theorem stale_between : (∃ after, run step State.start between = some after ∧ ¬Fresh after) ∧
    ∃ after, run step State.start undone = some after ∧ ¬Fresh after := by
  refine ⟨⟨_,rfl,fun fresh => ?_⟩,⟨_,rfl,fun fresh => ?_⟩⟩
  · exact absurd (fresh.finished 1 (List.mem_cons_self ..) .collection 0 rfl) (by decide)
  · exact fresh.undone 0 (List.mem_cons_self ..) .collection 0 rfl (List.mem_cons_self ..)

end Zveltio.DefinitionCache
