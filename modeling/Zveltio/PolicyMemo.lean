import Zveltio.Runs
import Mathlib.Data.List.Basic
namespace Zveltio.PolicyMemo

open Runs

structure Subject where
  domain : String
  userId : String
  deriving DecidableEq

-- Where an answer is filed: _policyObjects, _effective, or under a namespaced key in the
-- shared cache or _localPerm.
inductive Slot where
  | policyObjects
  | effective (subject : Subject)
  | cached (key : String)
  deriving DecidableEq

-- The awaited steps of a permission read. call returns to the caller on a memo hit.
inductive Instr where
  | capture
  | namespace'
  | memo (slot : Slot)
  | read
  | call (body : List Instr)
  | file (slot : Slot)

def policyObjectIndex : List Instr := [.memo .policyObjects,.capture,.read,.file .policyObjects]

-- The role chains, the roles of unloaded rows, and the rules.
def effectivePermissions (subject : Subject) : List Instr :=
  [.memo (.effective subject),.capture,.read,.read,.read,.file (.effective subject)]

def getUserRoles (cacheKey : String) : List Instr :=
  [.capture,.namespace',.memo (.cached cacheKey),.read,.read,.file (.cached cacheKey)]

-- The caller captures the generation before its god lookup.
def casbinAllows (subject : Subject) (cacheKey : String) : List Instr :=
  [.capture,.call policyObjectIndex,.namespace',.memo (.cached cacheKey),.call (effectivePermissions subject),
    .file (.cached cacheKey)]

inductive Call where
  | policyObjectIndex
  | effectivePermissions (subject : Subject)
  | getUserRoles (cacheKey : String)
  | casbinAllows (subject : Subject) (cacheKey : String)

def Call.body : Call → List Instr
  | .policyObjectIndex => PolicyMemo.policyObjectIndex
  | .effectivePermissions subject => PolicyMemo.effectivePermissions subject
  | .getUserRoles cacheKey => PolicyMemo.getUserRoles cacheKey
  | .casbinAllows subject cacheKey => PolicyMemo.casbinAllows subject cacheKey

-- One function under way: the generation it captured, the namespace of its key, and the
-- oldest version of the model that went into its answer so far.
structure Frame where
  gen : Nat
  space : Nat
  oldest : Option Nat
  rest : List Instr

-- since is the newest model version a write had promised when the read began.
structure Reader where
  since : Nat
  frames : List Frame

-- A write after the adapter's clear; version is the model's after its last change.
structure Write where
  version : Nat

-- An entry is the oldest model version that went into it. version counts the changes of
-- the model; answers logs what memos and caches answered, and to whom.
structure State where
  gen : Nat
  version : Nat
  resolved : Nat
  policyObjects : Option Nat
  effective : Subject → Option Nat
  cache : Nat → String → Option Nat
  readers : List Reader
  writes : List Write
  answers : List (Nat × Nat)

def State.initial : State := ⟨0,0,0,none,fun _ => none,fun _ _ => none,[],[],[]⟩

-- skip: a lookup error leaves the answer unfiled; quit: the read throws.
inductive Action where
  | start (call : Call)
  | advance (reader : Nat)
  | skip (reader : Nat)
  | quit (reader : Nat)
  | write
  | change (write : Nat)
  | resolve (write : Nat)
  | clearUser (userId : String)
  | clearAll
  | expire (space : Nat) (slot : Slot)

def State.lookup (state : State) (space : Nat) : Slot → Option Nat
  | .policyObjects => state.policyObjects
  | .effective subject => state.effective subject
  | .cached key => state.cache space key

def State.store (state : State) (space : Nat) (slot : Slot) (entry : Option Nat) : State := match slot with
  | .policyObjects => {state with policyObjects := entry}
  | .effective subject => {state with effective := Function.update state.effective subject entry}
  | .cached key =>
    {state with cache := Function.update state.cache space (Function.update (state.cache space) key entry)}

-- clearLocalPermissionCache, of everything and of one user.
def State.clear (state : State) : State :=
  {state with gen := state.gen + 1,policyObjects := none,effective := fun _ => none}

def State.clearUser (state : State) (userId : String) : State :=
  {state with
    gen := state.gen + 1
    effective := fun subject => if subject.userId = userId then none else state.effective subject}

def older (oldest : Option Nat) (version : Nat) : Option Nat := some (oldest.elim version (min version))

def absorb (version : Nat) : List Frame → List Frame
  | [] => []
  | frame::below => {frame with oldest := older frame.oldest version}::below

-- The next step of the innermost function; an empty body returns to the caller.
def advance (state : State) (since : Nat) : List Frame → State × List Frame
  | [] => (state,[])
  | frame::below => match frame.rest with
    | [] => (state,frame.oldest.elim below fun version => absorb version below)
    | .capture::rest => (state,{frame with gen := state.gen,rest}::below)
    | .namespace'::rest => (state,{frame with space := state.gen,rest}::below)
    | .memo slot::rest => match state.lookup frame.space slot with
      | some entry => ({state with answers := state.answers ++ [(since,entry)]},absorb entry below)
      | none => (state,{frame with rest}::below)
    | .read::rest => (state,{frame with oldest := older frame.oldest state.version,rest}::below)
    | .call body::rest => (state,⟨frame.gen,frame.space,none,body⟩::{frame with rest}::below)
    | .file slot::rest =>
      (if frame.gen = state.gen then frame.oldest.elim state fun version => state.store frame.space slot (some version)
        else state,{frame with rest}::below)

def skipped : List Frame → List Frame
  | frame::below => match frame.rest with
    | .file _::rest => {frame with rest}::below
    | _ => frame::below
  | [] => []

def step (state : State) : Action → Option State
  | .start call =>
    some {state with readers := state.readers ++ [⟨state.resolved,[⟨state.gen,state.gen,none,call.body⟩]⟩]}
  | .advance index => (state.readers[index]?).map fun reader =>
    let next := advance state reader.since reader.frames
    {next.1 with readers := next.1.readers.set index {reader with frames := next.2}}
  | .skip index => (state.readers[index]?).map fun reader =>
    {state with readers := state.readers.set index {reader with frames := skipped reader.frames}}
  | .quit index => (state.readers[index]?).map fun reader =>
    {state with readers := state.readers.set index {reader with frames := []}}
  | .write => some {state.clear with writes := state.writes ++ [⟨0⟩]}
  | .change index => (state.writes[index]?).map fun _ =>
    {state with version := state.version + 1,writes := state.writes.set index ⟨state.version + 1⟩}
  | .resolve index => (state.writes[index]?).map fun write =>
    {state with resolved := max state.resolved write.version,writes := state.writes.eraseIdx index}
  | .clearUser userId => some (state.clearUser userId)
  | .clearAll => some state.clear
  | .expire space slot => some (state.store space slot none)

theorem store_cache {state : State} (found : (state.store space slot entry).cache where' key = some version) :
    entry = some version ∧ where' = space ∨ state.cache where' key = some version := by
  cases slot with
  | policyObjects => exact .inr found
  | effective subject => exact .inr found
  | cached name =>
    by_cases same : where' = space
    · subst same
      by_cases own : key = name
      · subst own
        exact .inl ⟨by simpa [State.store] using found,rfl⟩
      · exact .inr (by simpa [State.store,own] using found)
    · exact .inr (by simpa [State.store,same] using found)

theorem store_lookup {state : State} (found : (state.store space slot entry).lookup where' other = some version) :
    entry = some version ∨ state.lookup where' other = some version := by
  cases other with
  | policyObjects =>
    cases slot with
    | policyObjects => exact .inl found
    | _ => exact .inr found
  | effective holder =>
    cases slot with
    | effective subject =>
      by_cases same : holder = subject
      · subst same
        exact .inl (by simpa [State.lookup,State.store] using found)
      · exact .inr (by simpa [State.lookup,State.store,same] using found)
    | _ => exact .inr found
  | cached key => exact (store_cache found).imp And.left id

-- What a reader's step does to everything but its own frames.
inductive Effect (state : State) (since : Nat) (frames : List Frame) : State → Prop where
  | stays : Effect state since frames state
  | answers {frame : Frame} (inside : frame ∈ frames) (found : state.lookup frame.space slot = some entry) :
      Effect state since frames {state with answers := state.answers ++ [(since,entry)]}
  | files (frame : Frame) (below : List Frame) (slot : Slot) (rest : List Instr) (version : Nat)
      (own : frames = frame::below) (body : frame.rest = .file slot::rest)
      (current : frame.gen = state.gen) (oldest : frame.oldest = some version) :
      Effect state since frames (state.store frame.space slot (some version))

theorem advance_effect (state : State) (since : Nat) (frames : List Frame) :
    Effect state since frames (advance state since frames).1 := by
  cases frames with
  | nil => exact .stays
  | cons frame below =>
    cases body : frame.rest with
    | nil => simpa only [advance,body] using .stays
    | cons instr rest =>
      cases instr with
      | memo slot =>
        cases found : state.lookup frame.space slot with
        | none => simpa only [advance,body,found] using .stays
        | some entry => simpa only [advance,body,found] using .answers (List.mem_cons_self ..) found
      | file slot =>
        simp only [advance,body]
        split
        · next current =>
          cases oldest : frame.oldest with
          | none => exact .stays
          | some version => exact .files frame below slot rest version rfl body current oldest
        · exact .stays
      | _ => simpa only [advance,body] using .stays

theorem absorb_spaces (version : Nat) (member : frame ∈ absorb version below) : ∃ old ∈ below, frame.space = old.space := by
  cases below with
  | nil => cases member
  | cons first rest =>
    rcases List.mem_cons.mp member with rfl | old
    · exact ⟨first,List.mem_cons_self ..,rfl⟩
    · exact ⟨frame,List.mem_cons_of_mem _ old,rfl⟩

theorem advance_spaces {frames : List Frame} (member : frame ∈ (advance state since frames).2) :
    frame.space = state.gen ∨ ∃ old ∈ frames, frame.space = old.space := by
  cases frames with
  | nil => cases member
  | cons first below =>
    have kept : ∀ frame ∈ below, ∃ old ∈ first::below, frame.space = old.space := fun frame inside =>
      ⟨frame,List.mem_cons_of_mem _ inside,rfl⟩
    have own : ∃ old ∈ first::below, first.space = old.space := ⟨first,List.mem_cons_self ..,rfl⟩
    have absorbed : ∀ version, frame ∈ absorb version below → ∃ old ∈ first::below, frame.space = old.space := by
      intro version inside
      obtain ⟨old,member,same⟩ := absorb_spaces version inside
      exact ⟨old,List.mem_cons_of_mem _ member,same⟩
    cases body : first.rest with
    | nil =>
      simp only [advance,body] at member
      cases oldest : first.oldest with
      | none => exact .inr (kept frame (by simpa [oldest] using member))
      | some version => exact .inr (absorbed version (by simpa [oldest] using member))
    | cons instr rest =>
      cases instr with
      | namespace' =>
        simp only [advance,body,List.mem_cons] at member
        rcases member with rfl | inside
        · exact .inl rfl
        · exact .inr (kept frame inside)
      | memo slot =>
        cases found : state.lookup first.space slot with
        | none =>
          simp only [advance,body,found,List.mem_cons] at member
          rcases member with rfl | inside
          · exact .inr own
          · exact .inr (kept frame inside)
        | some entry =>
          simp only [advance,body,found] at member
          exact .inr (absorbed entry member)
      | call inner =>
        simp only [advance,body,List.mem_cons] at member
        rcases member with rfl | rfl | inside
        · exact .inr own
        · exact .inr own
        · exact .inr (kept frame inside)
      | _ =>
        simp only [advance,body,List.mem_cons] at member
        rcases member with rfl | inside
        · exact .inr own
        · exact .inr (kept frame inside)

-- Nothing is on file when a write changes the model, and nothing is filed that was read
-- before the model's last change.
def Permitted (state : State) : Action → Prop
  | .advance index => ∀ reader frame below slot rest version, state.readers[index]? = some reader →
      reader.frames = frame::below → frame.rest = .file slot::rest → frame.gen = state.gen →
      frame.oldest = some version → version = state.version
  | .change _ => ∀ slot, state.lookup state.gen slot = none
  | _ => True

structure FrameOk (state : State) (since : Nat) (frame : Frame) : Prop where
  space : frame.space ≤ state.gen
  cached : ∀ key entry, state.cache frame.space key = some entry → since ≤ entry

structure Fresh (state : State) : Prop where
  memo : ∀ slot entry, state.lookup state.gen slot = some entry → entry = state.version
  ahead : ∀ space key, state.gen < space → state.cache space key = none
  resolved : state.resolved ≤ state.version
  writes : ∀ write ∈ state.writes, write.version ≤ state.version
  readers : ∀ reader ∈ state.readers, reader.since ≤ state.version ∧ ∀ frame ∈ reader.frames, FrameOk state reader.since frame
  answers : ∀ answer ∈ state.answers, answer.1 ≤ answer.2

theorem current_ok {state : State} (fresh : Fresh state) (less : since ≤ state.version) (frame : Frame) :
    FrameOk state since {frame with space := state.gen} :=
  ⟨Nat.le_refl _,fun key entry found => Nat.le_trans less (Nat.le_of_eq (fresh.memo (.cached key) entry found).symm)⟩

theorem answered {state : State} (fresh : Fresh state) (less : since ≤ state.version) (ok : FrameOk state since frame)
    (found : state.lookup frame.space slot = some entry) : since ≤ entry := by
  cases slot with
  | policyObjects => exact Nat.le_trans less (Nat.le_of_eq (fresh.memo .policyObjects entry found).symm)
  | effective subject => exact Nat.le_trans less (Nat.le_of_eq (fresh.memo (.effective subject) entry found).symm)
  | cached key => exact ok.cached key entry found

theorem store_fresh {state : State} (fresh : Fresh state) (slot : Slot) (entry : Option Nat)
    (current : ∀ version ∈ entry, version = state.version ∧ space ≤ state.gen) : Fresh (state.store space slot entry) := by
  have gen : (state.store space slot entry).gen = state.gen := by cases slot <;> rfl
  have version : (state.store space slot entry).version = state.version := by cases slot <;> rfl
  refine ⟨fun other found here => ?_,fun where' key far => ?_,by cases slot <;> exact fresh.resolved,
    by cases slot <;> exact fresh.writes,fun reader member => ?_,by cases slot <;> exact fresh.answers⟩
  · rw [gen] at here
    rw [version]
    rcases store_lookup here with filed | old
    · exact (current found filed).1
    · exact fresh.memo other found old
  · rw [gen] at far
    cases here : (state.store space slot entry).cache where' key with
    | none => rfl
    | some found =>
      rcases store_cache here with ⟨filed,rfl⟩ | old
      · exact absurd (current found filed).2 (Nat.not_le.mpr far)
      · exact absurd ((fresh.ahead where' key far).symm.trans old) nofun
  · obtain ⟨less,frames⟩ := fresh.readers reader (by cases slot <;> exact member)
    rw [version]
    refine ⟨less,fun frame inside => ⟨by rw [gen]; exact (frames frame inside).space,fun key found here => ?_⟩⟩
    rcases store_cache here with ⟨filed,_⟩ | old
    · exact Nat.le_trans less (Nat.le_of_eq (current found filed).1.symm)
    · exact (frames frame inside).cached key found old

theorem logged_fresh {state : State} (fresh : Fresh state) (newer : since ≤ entry) :
    Fresh {state with answers := state.answers ++ [(since,entry)]} := by
  refine ⟨fresh.memo,fresh.ahead,fresh.resolved,fresh.writes,fun reader member => ?_,fun answer inside => ?_⟩
  · obtain ⟨less,frames⟩ := fresh.readers reader member
    exact ⟨less,fun frame inside => ⟨(frames frame inside).space,(frames frame inside).cached⟩⟩
  · rcases List.mem_append.mp inside with old | new
    · exact fresh.answers answer old
    · cases List.mem_singleton.mp new
      exact newer

-- What a step of a reader leaves behind, the reader's own place in the list apart.
structure Moved (before : State) (since : Nat) (moved : State × List Frame) : Prop where
  fresh : Fresh moved.1
  readers : moved.1.readers = before.readers
  less : since ≤ moved.1.version
  frames : ∀ frame ∈ moved.2, FrameOk moved.1 since frame

theorem effect_fresh {state after : State} (fresh : Fresh state) (member : reader ∈ state.readers)
    (permitted : ∀ frame below slot rest version, reader.frames = frame::below → frame.rest = .file slot::rest →
      frame.gen = state.gen → frame.oldest = some version → version = state.version)
    (effect : Effect state reader.since reader.frames after) :
    Fresh after ∧ after.readers = state.readers ∧ after.gen = state.gen := by
  obtain ⟨less,ok⟩ := fresh.readers reader member
  cases effect with
  | stays => exact ⟨fresh,rfl,rfl⟩
  | answers inside found => exact ⟨logged_fresh fresh (answered fresh less (ok _ inside) found),rfl,rfl⟩
  | files frame below slot rest version own body current oldest =>
    have same := permitted frame below slot rest version own body current oldest
    have inside : frame ∈ reader.frames := own ▸ List.mem_cons_self ..
    refine ⟨store_fresh fresh slot (some version) fun other found => ?_,by cases slot <;> rfl,by cases slot <;> rfl⟩
    cases Option.some.inj found
    exact ⟨same,(ok frame inside).space⟩

theorem space_ok {state : State} (ok : FrameOk state since old) (same : frame.space = old.space) : FrameOk state since frame :=
  ⟨same ▸ ok.space,same ▸ ok.cached⟩

theorem advance_fresh {state : State} (fresh : Fresh state) (member : reader ∈ state.readers)
    (permitted : ∀ frame below slot rest version, reader.frames = frame::below → frame.rest = .file slot::rest →
      frame.gen = state.gen → frame.oldest = some version → version = state.version) :
    Moved state reader.since (advance state reader.since reader.frames) := by
  obtain ⟨moved,readers,gen⟩ := effect_fresh fresh member permitted (advance_effect ..)
  obtain ⟨less,ok⟩ := moved.readers reader (readers ▸ member)
  refine ⟨moved,readers,less,fun frame inside => ?_⟩
  rcases advance_spaces inside with present | ⟨old,before,same⟩
  · exact space_ok (current_ok moved less frame) (present.trans gen.symm)
  · exact space_ok (ok old before) same

theorem set_fresh {state : State} (fresh : Fresh state) (less : since ≤ state.version)
    (ok : ∀ frame ∈ frames, FrameOk state since frame) (index : Nat) :
    Fresh {state with readers := state.readers.set index ⟨since,frames⟩} := by
  refine ⟨fresh.memo,fresh.ahead,fresh.resolved,fresh.writes,fun reader member => ?_,fresh.answers⟩
  rcases List.mem_or_eq_of_mem_set member with old | rfl
  · obtain ⟨less,frames⟩ := fresh.readers reader old
    exact ⟨less,fun frame inside => ⟨(frames frame inside).space,(frames frame inside).cached⟩⟩
  · exact ⟨less,fun frame inside => ⟨(ok frame inside).space,(ok frame inside).cached⟩⟩

theorem bump_fresh {state : State} (fresh : Fresh state) (keep : Bool) (kept : Subject → Bool) :
    Fresh {state with
      gen := state.gen + 1
      policyObjects := if keep then state.policyObjects else none
      effective := fun subject => if kept subject then state.effective subject else none} := by
  refine ⟨fun slot entry found => ?_,fun space key far => fresh.ahead space key (Nat.lt_of_succ_lt far),fresh.resolved,
    fresh.writes,fun reader member => ?_,fresh.answers⟩
  · cases slot with
    | policyObjects =>
      cases keep with
      | false => cases found
      | true => exact fresh.memo .policyObjects entry found
    | effective subject =>
      cases here : kept subject with
      | false => simp [State.lookup,here] at found
      | true => exact fresh.memo (.effective subject) entry (by simpa [State.lookup,here] using found)
    | cached key => exact absurd ((fresh.ahead _ key (Nat.lt_succ_self _)).symm.trans found) nofun
  · obtain ⟨less,frames⟩ := fresh.readers reader member
    exact ⟨less,fun frame inside => ⟨Nat.le_succ_of_le (frames frame inside).space,(frames frame inside).cached⟩⟩

theorem clear_fresh {state : State} (fresh : Fresh state) : Fresh state.clear :=
  bump_fresh fresh false fun _ => false

theorem clearUser_fresh {state : State} (fresh : Fresh state) (userId : String) : Fresh (state.clearUser userId) := by
  have bumped := bump_fresh fresh true fun subject => !decide (subject.userId = userId)
  have same : (fun subject => if (!decide (subject.userId = userId)) = true then state.effective subject else none) =
      fun subject : Subject => if subject.userId = userId then none else state.effective subject := by
    funext subject
    by_cases own : subject.userId = userId <;> simp [own]
  rw [same] at bumped
  exact bumped

theorem change_fresh {state : State} (fresh : Fresh state) (nothing : ∀ slot, state.lookup state.gen slot = none) (index : Nat) :
    Fresh {state with version := state.version + 1,writes := state.writes.set index ⟨state.version + 1⟩} := by
  refine ⟨fun slot entry found => ?_,fresh.ahead,Nat.le_succ_of_le fresh.resolved,fun write member => ?_,
    fun reader member => ?_,fresh.answers⟩
  · have empty : state.lookup state.gen slot = some entry := by cases slot <;> exact found
    cases (nothing slot).symm.trans empty
  · rcases List.mem_or_eq_of_mem_set member with old | rfl
    · exact Nat.le_succ_of_le (fresh.writes write old)
    · exact Nat.le_refl _
  · obtain ⟨less,frames⟩ := fresh.readers reader member
    exact ⟨Nat.le_succ_of_le less,fun frame inside => ⟨(frames frame inside).space,(frames frame inside).cached⟩⟩

theorem resolve_fresh {state : State} (fresh : Fresh state) (member : write ∈ state.writes) (index : Nat) :
    Fresh {state with resolved := max state.resolved write.version,writes := state.writes.eraseIdx index} := by
  refine ⟨fresh.memo,fresh.ahead,Nat.max_le.mpr ⟨fresh.resolved,fresh.writes write member⟩,fun other inside => ?_,
    fun reader inside => ?_,fresh.answers⟩
  · exact fresh.writes other (List.eraseIdx_subset inside)
  · obtain ⟨less,frames⟩ := fresh.readers reader inside
    exact ⟨less,fun frame inside => ⟨(frames frame inside).space,(frames frame inside).cached⟩⟩

theorem skipped_ok {frames : List Frame} (ok : ∀ frame ∈ frames, FrameOk state since frame) :
    ∀ frame ∈ skipped frames, FrameOk state since frame := by
  cases frames with
  | nil => exact ok
  | cons frame below =>
    rw [List.forall_mem_cons] at ok
    dsimp only [skipped]
    split
    · exact List.forall_mem_cons.mpr ⟨⟨ok.1.space,ok.1.cached⟩,ok.2⟩
    · exact List.forall_mem_cons.mpr ok

theorem step_fresh : Preserved step Permitted Fresh := by
  intro before action after fresh permitted moved
  cases action with
  | start call =>
    cases Option.some.inj moved
    refine ⟨fresh.memo,fresh.ahead,fresh.resolved,fresh.writes,fun reader member => ?_,fresh.answers⟩
    rcases List.mem_append.mp member with old | new
    · obtain ⟨less,frames⟩ := fresh.readers reader old
      exact ⟨less,fun frame inside => ⟨(frames frame inside).space,(frames frame inside).cached⟩⟩
    · cases List.mem_singleton.mp new
      refine ⟨fresh.resolved,fun frame inside => ?_⟩
      cases List.mem_singleton.mp inside
      have own := current_ok fresh fresh.resolved ⟨before.gen,before.gen,none,call.body⟩
      exact ⟨own.space,own.cached⟩
  | advance index =>
    obtain ⟨reader,here,rfl⟩ := Option.map_eq_some_iff.mp moved
    have next := advance_fresh fresh (List.mem_of_getElem? here) fun frame below slot rest version =>
      permitted reader frame below slot rest version here
    exact set_fresh next.fresh next.less next.frames index
  | skip index =>
    obtain ⟨reader,here,rfl⟩ := Option.map_eq_some_iff.mp moved
    obtain ⟨less,ok⟩ := fresh.readers reader (List.mem_of_getElem? here)
    exact set_fresh fresh less (skipped_ok ok) index
  | quit index =>
    obtain ⟨reader,here,rfl⟩ := Option.map_eq_some_iff.mp moved
    exact set_fresh fresh (fresh.readers reader (List.mem_of_getElem? here)).1 (List.forall_mem_nil _) index
  | write =>
    cases Option.some.inj moved
    have cleared := clear_fresh fresh
    refine ⟨cleared.memo,cleared.ahead,cleared.resolved,fun write member => ?_,fun reader member => ?_,cleared.answers⟩
    · rcases List.mem_append.mp member with old | new
      · exact fresh.writes write old
      · cases List.mem_singleton.mp new
        exact Nat.zero_le _
    · obtain ⟨less,frames⟩ := cleared.readers reader member
      exact ⟨less,fun frame inside => ⟨(frames frame inside).space,(frames frame inside).cached⟩⟩
  | change index =>
    obtain ⟨write,here,rfl⟩ := Option.map_eq_some_iff.mp moved
    exact change_fresh fresh permitted index
  | resolve index =>
    obtain ⟨write,here,rfl⟩ := Option.map_eq_some_iff.mp moved
    exact resolve_fresh fresh (List.mem_of_getElem? here) index
  | clearUser userId =>
    cases Option.some.inj moved
    exact clearUser_fresh fresh userId
  | clearAll =>
    cases Option.some.inj moved
    exact clear_fresh fresh
  | expire space slot =>
    cases Option.some.inj moved
    exact store_fresh fresh slot none nofun

theorem initial_fresh : Fresh State.initial :=
  ⟨fun slot entry found => (by cases slot <;> cases found),fun _ _ _ => rfl,Nat.le_refl _,nofun,nofun,nofun⟩

-- Every answer from a memo or a cache is at least as new as the writes resolved before its read.
theorem answers_follow_writes (guarded : Guarded step Permitted State.initial actions)
    (path : run step State.initial actions = some state) : ∀ answer ∈ state.answers, answer.1 ≤ answer.2 :=
  (run_preserves step_fresh initial_fresh guarded path).answers

section
def member : Subject := ⟨"tenant","user"⟩

-- The first read starts after the adapter's clear and files before the model changes.
def betweenClearAndChange : List Action :=
  [.write,.start (.effectivePermissions member),.advance 0,.advance 0,.advance 0,.advance 0,.advance 0,.advance 0,
    .change 0,.resolve 0,.start (.effectivePermissions member),.advance 1]

theorem answer_before_write : ∃ state, run step State.initial betweenClearAndChange = some state ∧
    state.answers = [(1,0)] := by
  refine ⟨_,rfl,?_⟩
  decide

-- Nothing reads before the change; what is filed after it answers the next read.
def afterChange : List Action :=
  [.write,.change 0,.resolve 0,.start (.effectivePermissions member),.advance 0,.advance 0,.advance 0,.advance 0,.advance 0,
    .advance 0,.start (.effectivePermissions member),.advance 1]

theorem answers_follow_writes_afterChange : ∃ state, run step State.initial afterChange = some state ∧
    state.answers = [(1,1)] ∧ ∀ answer ∈ state.answers, answer.1 ≤ answer.2 := by
  have guarded : Guarded step Permitted State.initial afterChange := by
    refine guarded_cons trivial rfl (guarded_cons ?_ rfl (guarded_cons trivial rfl (guarded_cons trivial rfl
      (guarded_cons ?_ rfl (guarded_cons ?_ rfl (guarded_cons ?_ rfl (guarded_cons ?_ rfl (guarded_cons ?_ rfl
      (guarded_cons ?_ rfl (guarded_cons trivial rfl (guarded_cons ?_ rfl trivial)))))))))))
    · intro slot
      cases slot <;> rfl
    iterate 5
      rintro _ _ _ _ _ _ ⟨⟩ ⟨⟩ ⟨⟩
    · rintro _ _ _ _ _ _ ⟨⟩ ⟨⟩ ⟨⟩ _ ⟨⟩
      rfl
    · rintro _ _ _ _ _ _ ⟨⟩ ⟨⟩ ⟨⟩
  exact ⟨_,rfl,by decide,answers_follow_writes guarded rfl⟩

end

end Zveltio.PolicyMemo
