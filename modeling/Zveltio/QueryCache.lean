import Zveltio.Runs
import Zveltio.Parties
import Mathlib.Logic.Function.Basic
import Mathlib.Data.List.AList
namespace Zveltio.QueryCache
open Runs Parties

-- qc:{tenant}:{collection}:{hash of user and query}
structure Key where
  tenant : String
  collection : String
  user : String
  query : String
  deriving DecidableEq

-- qc_keys:{tenant}:{collection} and user:qc-keys:{user}
inductive Index where
  | collection (tenant collection : String)
  | user (user : String)
  deriving DecidableEq

-- A cached answer goes by the number of changes committed when it was computed.
structure Cached where
  snapshot : Nat
  deadline : Nat

structure IndexSet where
  members : List Key
  deadline : Option Nat

-- A list read on its way: after the miss, the database read, SETEX, SADD, EXPIRE, SADD of the user's index, its EXPIRE.
inductive Phase where
  | missed | computed | stored | added | kept | userAdded | userKept
  deriving DecidableEq

structure Reader where
  key : Key
  snapshot : Nat
  phase : Phase

inductive Scope where
  | write (tenant collection : String)
  | user (user : String)
  | policy (collection : String)
  deriving DecidableEq

-- A change's invalidation: not begun, SCAN under way with the sets there from its start, sets to go through, one listed, finished.
inductive Stage where
  | committed
  | scanning (kept : List Index)
  | sweeping (left : List Index)
  | listed (keys : List Key) (index : Index) (left : List Index)
  | finished

structure Change where
  scope : Scope
  stage : Stage

structure State where
  now : Nat
  values : Key → Option Cached
  indexes : AList fun _ : Index => IndexSet
  readers : List Reader
  changes : List Change

def State.start : State := ⟨0,fun _ => none,∅,[],[]⟩

def Cached.live (cached : Cached) (now : Nat) : Bool := now < cached.deadline

def IndexSet.live (set : IndexSet) (now : Nat) : Bool := set.deadline.elim true fun deadline => now < deadline

def State.value (state : State) (key : Key) : Option Cached := (state.values key).filter fun cached => cached.live state.now

def State.set (state : State) (index : Index) : Option IndexSet := (state.indexes.lookup index).filter fun set => set.live state.now

def State.smembers (state : State) (index : Index) : List Key := (state.set index).elim [] IndexSet.members

def collectionIndex (key : Key) : Index := .collection key.tenant key.collection

def userIndex (key : Key) : Index := .user key.user

def Scope.relevant (scope : Scope) (key : Key) : Bool :=
  match scope with
  | .write tenant collection => key.tenant = tenant && key.collection = collection
  | .user who => key.user = who
  | .policy collection => key.collection = collection

-- The set an invalidation of the scope finds the key in.
def Scope.index (scope : Scope) (key : Key) : Index :=
  match scope with
  | .write _ _ => collectionIndex key
  | .user _ => userIndex key
  | .policy _ => collectionIndex key

-- qc_keys:*:{collection}
def Index.matches (index : Index) (pattern : String) : Bool :=
  match index with
  | .collection _ name => name = pattern
  | .user _ => false

def Scope.deletes (scope : Scope) (keys : List Key) : Bool :=
  match scope with
  | .write _ _ => keys ≠ []
  | .user _ => true
  | .policy _ => true

def setex (ttl : Nat) (key : Key) (snapshot : Nat) (state : State) : State :=
  { state with values := Function.update state.values key (some ⟨snapshot,state.now + ttl⟩) }

def sadd (index : Index) (key : Key) (state : State) : State :=
  let set := (state.set index).getD ⟨[],none⟩
  { state with indexes := state.indexes.insert index { set with members := key::set.members } }

def expire (ttl : Nat) (index : Index) (state : State) : State :=
  match state.set index with
  | some set => { state with indexes := state.indexes.insert index { set with deadline := some (state.now + ttl + 5) } }
  | none => state

def Stage.without (gone : Index → Bool) : Stage → Stage
  | .scanning kept => .scanning (kept.filter fun index => !gone index)
  | stage => stage

def del (keys : List Key) (index : Index) (state : State) : State :=
  { state with
    values := fun key => if key ∈ keys then none else state.values key
    indexes := state.indexes.erase index
    changes := state.changes.map fun change => { change with stage := change.stage.without fun other => other = index } }

def tick (state : State) : State :=
  { state with
    now := state.now + 1
    changes := state.changes.map fun change => { change with
      stage := change.stage.without fun index => (state.indexes.lookup index).elim true fun set => !set.live (state.now + 1) } }

def State.reach (state : State) (reader : Nat) (phase : Phase) : State :=
  { state with readers := state.readers.modify reader fun old => { old with phase := phase } }

def State.turn (state : State) (change : Nat) (stage : Stage) : State :=
  { state with changes := state.changes.modify change fun old => { old with stage := stage } }

inductive Action where
  | miss (key : Key)
  | compute (reader : Nat)
  | store (reader : Nat)
  | add (reader : Nat)
  | keep (reader : Nat)
  | addUser (reader : Nat)
  | keepUser (reader : Nat)
  | commit (scope : Scope)
  | begin (change : Nat)
  | scanned (change : Nat) (found : List Index)
  | list (change : Nat)
  | drop (change : Nat)
  | finish (change : Nat)
  | tick

-- One step of a reader in the phase it is in.
def State.go (state : State) (reader : Nat) (phase next : Phase) (work : Reader → State → State) : Option State :=
  (state.readers[reader]?).bind fun r => if r.phase = phase then some ((work r state).reach reader next) else none

def step (ttl : Nat) (state : State) : Action → Option State
  | .miss key => if (state.value key).isNone then some { state with readers := state.readers ++ [⟨key,0,.missed⟩] } else none
  | .compute reader => (state.readers[reader]?).bind fun r =>
    if r.phase = .missed then
      some { state with readers := state.readers.modify reader fun old => { old with snapshot := state.changes.length, phase := .computed } }
    else none
  | .store reader => state.go reader .computed .stored fun r => setex ttl r.key r.snapshot
  | .add reader => state.go reader .stored .added fun r => sadd (collectionIndex r.key) r.key
  | .keep reader => state.go reader .added .kept fun r => expire ttl (collectionIndex r.key)
  | .addUser reader => state.go reader .kept .userAdded fun r => sadd (userIndex r.key) r.key
  | .keepUser reader => state.go reader .userAdded .userKept fun r => expire ttl (userIndex r.key)
  | .commit scope => some { state with changes := state.changes ++ [⟨scope,.committed⟩] }
  | .begin change => (state.changes[change]?).bind fun c =>
    match c.stage,c.scope with
    | .committed,.write tenant collection => some (state.turn change (.listed (state.smembers (.collection tenant collection)) (.collection tenant collection) []))
    | .committed,.user user => some (state.turn change (.listed (state.smembers (.user user)) (.user user) []))
    | .committed,.policy collection =>
      some (state.turn change (.scanning (state.indexes.keys.filter fun index => index.matches collection && (state.set index).isSome)))
    | _,_ => none
  -- A full SCAN returns what was there from its start to its end, and may return more.
  | .scanned change found => (state.changes[change]?).bind fun c =>
    match c.stage,c.scope with
    | .scanning kept,.policy collection =>
      if kept.all (fun index => index ∈ found) && found.all (fun index => index.matches collection) then some (state.turn change (.sweeping found)) else none
    | _,_ => none
  | .list change => (state.changes[change]?).bind fun c =>
    match c.stage with
    | .sweeping (index::left) => some (state.turn change (.listed (state.smembers index) index left))
    | _ => none
  | .drop change => (state.changes[change]?).bind fun c =>
    match c.stage with
    | .listed keys index left => some ((if c.scope.deletes keys then del keys index state else state).turn change (.sweeping left))
    | _ => none
  | .finish change => (state.changes[change]?).bind fun c =>
    match c.stage with
    | .sweeping [] => some (state.turn change .finished)
    | _ => none
  | .tick => some (tick state)

def Reader.pending (reader : Reader) (index : Index) : Bool :=
  index = collectionIndex reader.key && reader.phase = .stored ||
    index = userIndex reader.key && (reader.phase = .stored || reader.phase = .added || reader.phase = .kept)

def Reader.holding (reader : Reader) (index : Index) : Bool :=
  index = collectionIndex reader.key && reader.phase = .added || index = userIndex reader.key && reader.phase = .userAdded

-- An answer is stored before an invalidation it is too old for has begun, such an invalidation begins with no older answer between
-- its SETEX and its SADD, an SADD does not fall between an SMEMBERS and its DEL, no set dies between an SADD and its EXPIRE.
def Permitted (state : State) : Action → Prop
  | .store reader => ∀ r change c, state.readers[reader]? = some r → state.changes[change]? = some c → r.snapshot ≤ change →
      c.scope.relevant r.key = true → c.stage = .committed
  | .begin change => ∀ c, state.changes[change]? = some c → ∀ r ∈ state.readers, r.snapshot ≤ change → c.scope.relevant r.key = true →
      r.pending (c.scope.index r.key) = false
  | .add reader => ∀ r, state.readers[reader]? = some r → ∀ c ∈ state.changes, ∀ keys left, c.stage = .listed keys (collectionIndex r.key) left → r.key ∈ keys
  | .addUser reader => ∀ r, state.readers[reader]? = some r → ∀ c ∈ state.changes, ∀ keys left, c.stage = .listed keys (userIndex r.key) left → r.key ∈ keys
  | .tick => ∀ r ∈ state.readers, ∀ index set, r.holding index = true → state.indexes.lookup index = some set → set.live (state.now + 1) = true
  | _ => True

-- What an invalidation under way will still delete.
def Stage.covers (stage : Stage) (key : Key) (index : Index) : Prop :=
  match stage with
  | .committed => True
  | .scanning kept => index ∈ kept
  | .sweeping left => index ∈ left
  | .listed keys current left => index = current ∧ key ∈ keys ∨ index ∈ left
  | .finished => False

def Registered (state : State) (key : Key) (cached : Cached) (index : Index) : Prop :=
  (∃ r ∈ state.readers, r.key = key ∧ r.snapshot = cached.snapshot ∧ r.pending index = true) ∨
  ∃ set, state.set index = some set ∧ key ∈ set.members ∧
    ((∀ deadline, set.deadline = some deadline → cached.deadline < deadline) ∨ ∃ r ∈ state.readers, r.key = key ∧ r.holding index = true)

structure Sound (ttl : Nat) (state : State) : Prop where
  deadlines : ∀ key cached, state.values key = some cached → cached.deadline ≤ state.now + ttl
  registered : ∀ key cached, state.value key = some cached → Registered state key cached (collectionIndex key) ∧ Registered state key cached (userIndex key)
  listing : ∀ c ∈ state.changes, ∀ keys index left, c.stage = .listed keys index left → ∀ key ∈ state.smembers index, key ∈ keys
  settled : ∀ change c, state.changes[change]? = some c → c.stage ≠ .committed → ∀ r ∈ state.readers, r.snapshot ≤ change → c.scope.relevant r.key = true →
    r.pending (c.scope.index r.key) = false
  covered : ∀ change c, state.changes[change]? = some c → ∀ key cached, state.value key = some cached → cached.snapshot ≤ change →
    c.scope.relevant key = true → c.stage.covers key (c.scope.index key)

theorem scope_index (scope : Scope) (key : Key) : scope.index key = collectionIndex key ∨ scope.index key = userIndex key := by
  cases scope with
  | write tenant collection => exact .inl rfl
  | user who => exact .inr rfl
  | policy collection => exact .inl rfl

theorem value_some {state : State} : state.value key = some cached ↔ state.values key = some cached ∧ state.now < cached.deadline := by
  unfold State.value Cached.live
  rw [Option.filter_eq_some_iff,decide_eq_true_eq]

theorem set_some {state : State} {index : Index} {entry : IndexSet} :
    state.set index = some entry ↔ state.indexes.lookup index = some entry ∧ entry.live state.now = true :=
  Option.filter_eq_some_iff

theorem smembers_some {state : State} {index : Index} : key ∈ state.smembers index ↔ ∃ set, state.set index = some set ∧ key ∈ set.members := by
  unfold State.smembers
  cases state.set index with
  | none => simp
  | some set => simp

theorem stale_registered {state : State} (sound : Sound ttl state) (found : state.changes[change]? = some c) (begun : c.stage ≠ .committed)
    (value : state.value key = some cached) (old : cached.snapshot ≤ change) (relevant : c.scope.relevant key = true) :
    ∃ set, state.set (c.scope.index key) = some set ∧ key ∈ set.members ∧
      ((∀ deadline, set.deadline = some deadline → cached.deadline < deadline) ∨ ∃ r ∈ state.readers, r.key = key ∧ r.holding (c.scope.index key) = true) := by
  have registered : Registered state key cached (c.scope.index key) := by
    obtain ⟨first,second⟩ := sound.registered key cached value
    rcases scope_index c.scope key with same | same <;> rw [same] <;> assumption
  rcases registered with waiting | there
  · obtain ⟨r,member,own,snapshot,pending⟩ := waiting
    have never := sound.settled change c found begun r member (snapshot ▸ old) (own ▸ relevant)
    rw [own,pending] at never
    cases never
  · exact there

section
variable {ttl : Nat} {state : State} {reader : Nat} {r : Reader}

theorem readers_registered {readers : List Reader} (registered : Registered state key cached index)
    (pending : ∀ old ∈ state.readers, old.key = key → old.pending index = true →
      (∃ now ∈ readers, now.key = key ∧ now.snapshot = old.snapshot ∧ now.pending index = true))
    (holding : ∀ old ∈ state.readers, old.key = key → old.holding index = true → ∃ now ∈ readers, now.key = key ∧ now.holding index = true) :
    Registered { state with readers := readers } key cached index := by
  rcases registered with waiting | ⟨entry,there,member,kept⟩
  · obtain ⟨old,member,own,snapshot,waits⟩ := waiting
    obtain ⟨now,here,same,equal,still⟩ := pending old member own waits
    exact .inl ⟨now,here,same,equal.trans snapshot,still⟩
  · refine .inr ⟨entry,there,member,kept.imp_right fun held => ?_⟩
    obtain ⟨old,member,own,holds⟩ := held
    exact holding old member own holds

theorem miss_sound (sound : Sound ttl state) (key : Key) : Sound ttl { state with readers := state.readers ++ [⟨key,0,.missed⟩] } := by
  refine ⟨sound.deadlines,fun other cached value => ?_,sound.listing,fun change c found begun r member old relevant => ?_,sound.covered⟩
  · have still (index : Index) (registered : Registered state other cached index) :
        Registered { state with readers := state.readers ++ [⟨key,0,.missed⟩] } other cached index :=
      readers_registered registered (fun old member own pending => ⟨old,List.mem_append_left _ member,own,rfl,pending⟩)
        fun old member own holding => ⟨old,List.mem_append_left _ member,own,holding⟩
    exact (sound.registered other cached value).imp (still _) (still _)
  · rcases List.mem_append.mp member with before | last
    · exact sound.settled change c found begun r before old relevant
    · rw [List.mem_singleton.mp last]
      simp [Reader.pending]

theorem compute_sound (sound : Sound ttl state) (found : state.readers[reader]? = some r) (phase : r.phase = .missed) :
    Sound ttl { state with readers := state.readers.modify reader fun old => { old with snapshot := state.changes.length, phase := .computed } } := by
  refine ⟨sound.deadlines,fun other cached value => ?_,sound.listing,fun change c there begun now member old relevant => ?_,sound.covered⟩
  · have still (index : Index) (registered : Registered state other cached index) :
        Registered { state with readers := state.readers.modify reader fun old => { old with snapshot := state.changes.length, phase := .computed } } other cached index := by
      refine readers_registered registered (fun old member own pending => ?_) fun old member own holding => ?_
      · rcases modify_mem reader _ member with same | changed
        · exact ⟨old,same,own,rfl,pending⟩
        · cases Option.some.inj (found.symm.trans changed.1)
          simp [Reader.pending,phase] at pending
      · rcases modify_mem reader _ member with same | changed
        · exact ⟨old,same,own,holding⟩
        · cases Option.some.inj (found.symm.trans changed.1)
          simp [Reader.holding,phase] at holding
    exact (sound.registered other cached value).imp (still _) (still _)
  · obtain ⟨before,listed,same | same⟩ := mem_modify member
    · rw [same] at old relevant ⊢
      exact sound.settled change c there begun before listed old relevant
    · rw [same.2]
      simp [Reader.pending]

theorem reach_mem (state : State) (reader : Nat) (next : Phase) (member : old ∈ state.readers) : old ∈ (state.reach reader next).readers ∨
    state.readers[reader]? = some old ∧ { old with phase := next } ∈ (state.reach reader next).readers := modify_mem reader _ member

theorem reach_back (member : now ∈ (state.reach reader next).readers) :
    ∃ old ∈ state.readers, now = old ∨ state.readers[reader]? = some old ∧ now = { old with phase := next } := mem_modify member

theorem store_sound (sound : Sound ttl state) (found : state.readers[reader]? = some r) (allowed : Permitted state (.store reader)) :
    Sound ttl ((setex ttl r.key r.snapshot state).reach reader .stored) := by
  have mine : { r with phase := .stored } ∈ (state.reach reader .stored).readers := by
    rcases reach_mem state reader .stored (List.mem_of_getElem? found) with same | changed
    · have there : (state.reach reader .stored).readers[reader]? = some { r with phase := .stored } := by
        show (state.readers.modify reader _)[reader]? = _
        rw [List.getElem?_modify,found]
        simp
      exact List.mem_of_getElem? there
    · exact changed.2
  refine ⟨fun key cached there => ?_,fun key cached value => ?_,sound.listing,fun change c there begun now member old relevant => ?_,fun change c there key cached value old relevant => ?_⟩
  · by_cases same : key = r.key
    · have new : some (⟨r.snapshot,state.now + ttl⟩ : Cached) = some cached := by
        rw [← there]
        show _ = Function.update state.values r.key _ key
        rw [same,Function.update_self]
      cases Option.some.inj new
      exact Nat.le_refl _
    · have before : state.values key = some cached := by
        rw [← there]
        exact (Function.update_of_ne same ..).symm
      exact sound.deadlines key cached before
  · obtain ⟨there,alive⟩ := value_some.mp value
    by_cases same : key = r.key
    · have new : some (⟨r.snapshot,state.now + ttl⟩ : Cached) = some cached := by
        rw [← there]
        show _ = Function.update state.values r.key _ key
        rw [same,Function.update_self]
      cases Option.some.inj new
      rw [same]
      exact ⟨.inl ⟨_,mine,rfl,rfl,by simp [Reader.pending]⟩,.inl ⟨_,mine,rfl,rfl,by simp [Reader.pending]⟩⟩
    · have before : state.value key = some cached := value_some.mpr ⟨by rw [← there]; exact (Function.update_of_ne same ..).symm,alive⟩
      have still (index : Index) (registered : Registered state key cached index) :
          Registered { state with readers := (state.reach reader .stored).readers } key cached index := by
        refine readers_registered registered (fun old member own pending => ?_) fun old member own holding => ?_
        · rcases reach_mem state reader .stored member with kept | changed
          · exact ⟨old,kept,own,rfl,pending⟩
          · cases Option.some.inj (found.symm.trans changed.1)
            exact absurd own.symm same
        · rcases reach_mem state reader .stored member with kept | changed
          · exact ⟨old,kept,own,holding⟩
          · cases Option.some.inj (found.symm.trans changed.1)
            exact absurd own.symm same
      exact (sound.registered key cached before).imp (still _) (still _)
  · obtain ⟨before,listed,same | same⟩ := reach_back member
    · rw [same] at old relevant ⊢
      exact sound.settled change c there begun before listed old relevant
    · cases Option.some.inj (found.symm.trans same.1)
      rw [same.2] at old relevant
      exact absurd (allowed r change c found there old relevant) begun
  · obtain ⟨held,alive⟩ := value_some.mp value
    by_cases same : key = r.key
    · have new : some (⟨r.snapshot,state.now + ttl⟩ : Cached) = some cached := by
        rw [← held]
        show _ = Function.update state.values r.key _ key
        rw [same,Function.update_self]
      cases Option.some.inj new
      rw [allowed r change c found there old (same ▸ relevant)]
      trivial
    · exact sound.covered change c there key cached (value_some.mpr ⟨by rw [← held]; exact (Function.update_of_ne same ..).symm,alive⟩) old relevant

theorem sadd_set (index : Index) (key : Key) (state : State) : ∃ entry, (sadd index key state).set index = some entry ∧ key ∈ entry.members ∧
    (∀ other ∈ entry.members, other = key ∨ other ∈ state.smembers index) ∧
    ∀ old, state.set index = some old → entry = { old with members := key::old.members } := by
  have alive : ((state.set index).getD ⟨[],none⟩).live state.now = true := by
    cases found : state.set index with
    | none => rfl
    | some entry => exact (set_some.mp found).2
  refine ⟨_,set_some.mpr ⟨AList.lookup_insert _,alive⟩,List.mem_cons_self ..,fun other member => ?_,fun old found => by rw [found]; rfl⟩
  refine (List.mem_cons.mp member).imp_right fun later => ?_
  unfold State.smembers
  cases found : state.set index with
  | none =>
    rw [found] at later
    cases later
  | some entry =>
    rw [found] at later
    exact later

theorem sadd_other {index other : Index} (apart : other ≠ index) (key : Key) (state : State) : (sadd index key state).set other = state.set other := by
  unfold State.set sadd
  rw [AList.lookup_insert_ne apart]

theorem sadd_sound (sound : Sound ttl state) (found : state.readers[reader]? = some r) (index : Index) (next : Phase)
    (rest : ∀ other, other ≠ index → r.pending other = true → ({ r with phase := next } : Reader).pending other = true)
    (holds : ({ r with phase := next } : Reader).holding index = true) (free : ∀ other, r.holding other = false)
    (less : ∀ other, ({ r with phase := next } : Reader).pending other = true → r.pending other = true)
    (allowed : ∀ c ∈ state.changes, ∀ keys left, c.stage = .listed keys index left → r.key ∈ keys) :
    Sound ttl ((sadd index r.key state).reach reader next) := by
  obtain ⟨entry,there,own,others,grown⟩ := sadd_set index r.key state
  refine ⟨sound.deadlines,fun key cached value => ?_,fun c listed keys current left stage key member => ?_,fun change c here begun now member old relevant => ?_,sound.covered⟩
  · have still (other : Index) (registered : Registered state key cached other) : Registered ((sadd index r.key state).reach reader next) key cached other := by
      by_cases same : other = index
      · subst same
        rcases registered with waiting | ⟨before,was,member,kept⟩
        · obtain ⟨old,listed,mine,snapshot,pending⟩ := waiting
          rcases reach_mem state reader next listed with stays | changed
          · exact .inl ⟨old,stays,mine,snapshot,pending⟩
          · cases Option.some.inj (found.symm.trans changed.1)
            exact .inr ⟨entry,there,mine ▸ own,.inr ⟨_,changed.2,mine,holds⟩⟩
        · have bigger := grown before was
          refine .inr ⟨entry,there,by rw [bigger]; exact List.mem_cons_of_mem _ member,?_⟩
          rcases kept with longer | held
          · exact .inl fun deadline equal => longer deadline (by rw [bigger] at equal; exact equal)
          · obtain ⟨old,listed,mine,holding⟩ := held
            rcases reach_mem state reader next listed with stays | changed
            · exact .inr ⟨old,stays,mine,holding⟩
            · cases Option.some.inj (found.symm.trans changed.1)
              rw [free] at holding
              cases holding
      · have moved : Registered { state with readers := (state.reach reader next).readers } key cached other := by
          refine readers_registered registered (fun old listed mine pending => ?_) fun old listed mine holding => ?_
          · rcases reach_mem state reader next listed with stays | changed
            · exact ⟨old,stays,mine,rfl,pending⟩
            · cases Option.some.inj (found.symm.trans changed.1)
              exact ⟨_,changed.2,mine,rfl,rest other same pending⟩
          · rcases reach_mem state reader next listed with stays | changed
            · exact ⟨old,stays,mine,holding⟩
            · cases Option.some.inj (found.symm.trans changed.1)
              rw [free] at holding
              cases holding
        refine moved.imp_right fun present => ?_
        obtain ⟨before,was,more⟩ := present
        exact ⟨before,(sadd_other same r.key state).trans was,more⟩
    exact (sound.registered key cached value).imp (still _) (still _)
  · by_cases same : current = index
    · subst same
      obtain ⟨now,here,inside⟩ := smembers_some.mp member
      cases Option.some.inj (there.symm.trans here)
      rcases others key inside with equal | before
      · rw [equal]
        exact allowed c listed keys left stage
      · exact sound.listing c listed keys current left stage key before
    · obtain ⟨now,here,inside⟩ := smembers_some.mp member
      have before : state.set current = some now := (sadd_other same r.key state).symm.trans here
      exact sound.listing c listed keys current left stage key (smembers_some.mpr ⟨now,before,inside⟩)
  · obtain ⟨before,listed,same | same⟩ := reach_back member
    · rw [same] at old relevant ⊢
      exact sound.settled change c here begun before listed old relevant
    · cases Option.some.inj (found.symm.trans same.1)
      rw [same.2] at old relevant ⊢
      have never := sound.settled change c here begun r listed old relevant
      by_contra wrong
      have was := less _ (Bool.not_eq_false _ ▸ wrong)
      rw [never] at was
      cases was

theorem expire_set (ttl : Nat) (index : Index) (state : State) : (expire ttl index state).set index =
    (state.set index).map fun entry => { entry with deadline := some (state.now + ttl + 5) } := by
  unfold expire
  cases found : state.set index with
  | none => exact found
  | some entry =>
    refine set_some.mpr ⟨AList.lookup_insert _,decide_eq_true ?_⟩
    show state.now < state.now + ttl + 5
    omega

theorem expire_other {index other : Index} (apart : other ≠ index) (ttl : Nat) (state : State) : (expire ttl index state).set other = state.set other := by
  unfold expire
  cases state.set index with
  | none => rfl
  | some entry =>
    unfold State.set
    rw [AList.lookup_insert_ne apart]

theorem expire_fields (ttl : Nat) (index : Index) (state : State) : (expire ttl index state).now = state.now ∧ (expire ttl index state).values = state.values ∧
    (expire ttl index state).readers = state.readers ∧ (expire ttl index state).changes = state.changes := by
  unfold expire
  cases state.set index <;> exact ⟨rfl,rfl,rfl,rfl⟩

theorem expire_sound (sound : Sound ttl state) (found : state.readers[reader]? = some r) (index : Index) (next : Phase)
    (only : ∀ other, r.holding other = true → other = index)
    (rest : ∀ other, r.pending other = true → ({ r with phase := next } : Reader).pending other = true)
    (less : ∀ other, ({ r with phase := next } : Reader).pending other = true → r.pending other = true) :
    Sound ttl ((expire ttl index state).reach reader next) := by
  obtain ⟨now_same,values_same,readers_same,changes_same⟩ := expire_fields ttl index state
  have value_same (key : Key) : ((expire ttl index state).reach reader next).value key = state.value key := by
    show ((expire ttl index state).values key).filter (fun cached => cached.live (expire ttl index state).now) = _
    rw [now_same,values_same]
    rfl
  have set_same {other : Index} (apart : other ≠ index) : ((expire ttl index state).reach reader next).set other = state.set other := expire_other apart ttl state
  have forth {old : Reader} (listed : old ∈ state.readers) : old ∈ ((expire ttl index state).reach reader next).readers ∨
      old = r ∧ { r with phase := next } ∈ ((expire ttl index state).reach reader next).readers := by
    have moved := reach_mem (expire ttl index state) reader next (readers_same ▸ listed)
    refine moved.imp_right fun changed => ?_
    have equal : old = r := Option.some.inj (changed.1.symm.trans (by rw [readers_same]; exact found))
    exact ⟨equal,equal ▸ changed.2⟩
  refine ⟨fun key cached there => ?_,fun key cached value => ?_,fun c listed keys current left stage key member => ?_,
    fun change c here begun now member old relevant => ?_,fun change c here key cached value old relevant => ?_⟩
  · show cached.deadline ≤ (expire ttl index state).now + ttl
    rw [now_same]
    exact sound.deadlines key cached (by rw [← values_same]; exact there)
  · rw [value_same] at value
    obtain ⟨there,_⟩ := value_some.mp value
    have bound := sound.deadlines key cached there
    have still (other : Index) (registered : Registered state key cached other) : Registered ((expire ttl index state).reach reader next) key cached other := by
      rcases registered with waiting | ⟨before,was,member,kept⟩
      · obtain ⟨old,listed,mine,snapshot,pending⟩ := waiting
        rcases forth listed with stays | changed
        · exact .inl ⟨old,stays,mine,snapshot,pending⟩
        · refine .inl ⟨_,changed.2,changed.1 ▸ mine,changed.1 ▸ snapshot,rest other ?_⟩
          rw [← changed.1]
          exact pending
      · by_cases same : other = index
        · subst same
          have longer : ((expire ttl other state).reach reader next).set other = some { before with deadline := some (state.now + ttl + 5) } := by
            show (expire ttl other state).set other = _
            rw [expire_set,was]
            rfl
          refine .inr ⟨_,longer,member,.inl fun deadline equal => ?_⟩
          cases Option.some.inj equal
          omega
        · refine .inr ⟨before,(set_same same).trans was,member,kept.imp_right fun held => ?_⟩
          obtain ⟨old,listed,mine,holding⟩ := held
          rcases forth listed with stays | changed
          · exact ⟨old,stays,mine,holding⟩
          · exact absurd (only other (changed.1 ▸ holding)) same
    exact (sound.registered key cached value).imp (still _) (still _)
  · have before : key ∈ state.smembers current := by
      obtain ⟨entry,here,inside⟩ := smembers_some.mp member
      by_cases same : current = index
      · have here : (expire ttl index state).set current = some entry := here
        rw [same,expire_set] at here
        obtain ⟨old,was,equal⟩ := Option.map_eq_some_iff.mp here
        rw [← equal] at inside
        exact smembers_some.mpr ⟨old,same ▸ was,inside⟩
      · exact smembers_some.mpr ⟨entry,(set_same same).symm.trans here,inside⟩
    exact sound.listing c (changes_same ▸ listed) keys current left stage key before
  · have here : state.changes[change]? = some c := by rw [← changes_same]; exact here
    obtain ⟨before,listed,same | same⟩ := reach_back member
    · rw [same] at old relevant ⊢
      exact sound.settled change c here begun before (readers_same ▸ listed) old relevant
    · rw [readers_same] at same
      cases Option.some.inj (found.symm.trans same.1)
      rw [same.2] at old relevant ⊢
      have never := sound.settled change c here begun r (List.mem_of_getElem? found) old relevant
      by_contra wrong
      have was := less _ (Bool.not_eq_false _ ▸ wrong)
      rw [never] at was
      cases was
  · rw [value_same] at value
    exact sound.covered change c (by rw [← changes_same]; exact here) key cached value old relevant

theorem commit_sound (sound : Sound ttl state) (scope : Scope) : Sound ttl { state with changes := state.changes ++ [⟨scope,.committed⟩] } := by
  have place {change : Nat} {c : Change} (there : (state.changes ++ [⟨scope,.committed⟩])[change]? = some c) : state.changes[change]? = some c ∨ c = ⟨scope,.committed⟩ := by
    rcases Nat.lt_or_ge change state.changes.length with less | more
    · rw [List.getElem?_append_left less] at there
      exact .inl there
    · rw [List.getElem?_append_right more] at there
      exact .inr (List.mem_singleton.mp (List.mem_of_getElem? there))
  refine ⟨sound.deadlines,sound.registered,fun c listed keys current left stage key member => ?_,fun change c there begun r member old relevant => ?_,
    fun change c there key cached value old relevant => ?_⟩
  · rcases List.mem_append.mp listed with before | last
    · exact sound.listing c before keys current left stage key member
    · rw [List.mem_singleton.mp last] at stage
      cases stage
  · rcases place there with before | last
    · exact sound.settled change c before begun r member old relevant
    · rw [last] at begun
      exact absurd rfl begun
  · rcases place there with before | last
    · exact sound.covered change c before key cached value old relevant
    · rw [last]
      trivial

theorem turn_sound (sound : Sound ttl state) (found : state.changes[change]? = some c) (stage : Stage)
    (listing : ∀ keys index left, stage = .listed keys index left → ∀ key ∈ state.smembers index, key ∈ keys)
    (settled : ∀ r ∈ state.readers, r.snapshot ≤ change → c.scope.relevant r.key = true → r.pending (c.scope.index r.key) = false)
    (covered : ∀ key cached, state.value key = some cached → cached.snapshot ≤ change → c.scope.relevant key = true → stage.covers key (c.scope.index key)) :
    Sound ttl (state.turn change stage) := by
  have place {other : Nat} {now : Change} (there : (state.turn change stage).changes[other]? = some now) :
      state.changes[other]? = some now ∨ other = change ∧ now = { c with stage := stage } := by
    have there : (state.changes.modify change _)[other]? = some now := there
    rw [List.getElem?_modify] at there
    obtain ⟨old,before,same⟩ := Option.map_eq_some_iff.mp there
    by_cases mine : change = other
    · subst mine
      cases Option.some.inj (found.symm.trans before)
      simp only [if_true] at same
      exact .inr ⟨rfl,same.symm⟩
    · simp only [if_neg mine] at same
      exact .inl (same ▸ before)
  refine ⟨sound.deadlines,sound.registered,fun now listed keys current left equal key member => ?_,fun other now there begun r member old relevant => ?_,
    fun other now there key cached value old relevant => ?_⟩
  · obtain ⟨old,before,same | same⟩ := mem_modify listed
    · exact sound.listing old before keys current left (same ▸ equal) key member
    · rw [same.2] at equal
      exact listing keys current left equal key member
  · rcases place there with before | mine
    · exact sound.settled other now before begun r member old relevant
    · rw [mine.2] at relevant ⊢
      exact settled r member (mine.1 ▸ old) relevant
  · rcases place there with before | mine
    · exact sound.covered other now before key cached value old relevant
    · rw [mine.2] at relevant ⊢
      exact covered key cached value (mine.1 ▸ old) relevant

theorem covers_without {stage : Stage} {gone : Index → Bool} (covers : stage.covers key index) (there : stage ≠ .committed → gone index = false) :
    (stage.without gone).covers key index := by
  cases stage with
  | scanning kept =>
    refine List.mem_filter.mpr ⟨covers,?_⟩
    rw [there Stage.noConfusion]
    rfl
  | committed => exact covers
  | sweeping left => exact covers
  | listed keys current left => exact covers
  | finished => exact covers

theorem without_committed {stage : Stage} {gone : Index → Bool} (begun : stage.without gone ≠ .committed) : stage ≠ .committed := by
  intro same
  rw [same] at begun
  exact begun rfl

theorem without_listed {stage : Stage} {gone : Index → Bool} (listed : stage.without gone = .listed keys index left) : stage = .listed keys index left := by
  cases stage with
  | scanning kept => cases listed
  | committed => cases listed
  | sweeping rest => cases listed
  | listed other current rest => exact listed
  | finished => cases listed

theorem del_sound (sound : Sound ttl state) (keys : List Key) (index : Index) (inside : ∀ key ∈ state.smembers index, key ∈ keys) : Sound ttl (del keys index state) := by
  have held {key : Key} {cached : Cached} (there : (del keys index state).values key = some cached) : key ∉ keys ∧ state.values key = some cached := by
    have there : (if key ∈ keys then none else state.values key) = some cached := there
    split at there
    · cases there
    · next apart => exact ⟨apart,there⟩
  have valued {key : Key} {cached : Cached} (value : (del keys index state).value key = some cached) : key ∉ keys ∧ state.value key = some cached := by
    obtain ⟨there,alive⟩ := value_some.mp value
    exact ⟨(held there).1,value_some.mpr ⟨(held there).2,alive⟩⟩
  have set_same {other : Index} (apart : other ≠ index) : (del keys index state).set other = state.set other := by
    unfold State.set del
    rw [AList.lookup_erase_ne apart]
  have set_gone : (del keys index state).set index = none := by
    unfold State.set del
    rw [AList.lookup_erase]
    rfl
  have place {change : Nat} {c : Change} (there : (del keys index state).changes[change]? = some c) :
      ∃ old, state.changes[change]? = some old ∧ c = { old with stage := old.stage.without fun other => other = index } := by
    have there : (state.changes.map _)[change]? = some c := there
    rw [List.getElem?_map] at there
    obtain ⟨old,before,same⟩ := Option.map_eq_some_iff.mp there
    exact ⟨old,before,same.symm⟩
  refine ⟨fun key cached there => sound.deadlines key cached (held there).2,fun key cached value => ?_,fun c listed other current left stage key member => ?_,
    fun change c there begun r member old relevant => ?_,fun change c there key cached value old relevant => ?_⟩
  · obtain ⟨apart,before⟩ := valued value
    have still (other : Index) (registered : Registered state key cached other) : Registered (del keys index state) key cached other := by
      refine registered.imp_right fun present => ?_
      obtain ⟨entry,there,member,more⟩ := present
      by_cases same : other = index
      · exact absurd (inside key (smembers_some.mpr ⟨entry,same ▸ there,member⟩)) apart
      · exact ⟨entry,(set_same same).trans there,member,more⟩
    exact (sound.registered key cached before).imp (still _) (still _)
  · obtain ⟨before,listed,same⟩ := List.mem_map.mp listed
    rw [← same] at stage
    obtain ⟨entry,there,member⟩ := smembers_some.mp member
    by_cases equal : current = index
    · rw [equal,set_gone] at there
      cases there
    · exact sound.listing before listed other current left (without_listed stage) key (smembers_some.mpr ⟨entry,(set_same equal).symm.trans there,member⟩)
  · obtain ⟨before,here,same⟩ := place there
    rw [same] at begun relevant ⊢
    exact sound.settled change before here (without_committed begun) r member old relevant
  · obtain ⟨before,here,same⟩ := place there
    obtain ⟨apart,was⟩ := valued value
    rw [same] at relevant ⊢
    refine covers_without (sound.covered change before here key cached was old relevant) fun begun => decide_eq_false fun equal => ?_
    obtain ⟨entry,registered,member,_⟩ := stale_registered sound here begun was old relevant
    exact apart (inside key (smembers_some.mpr ⟨entry,equal ▸ registered,member⟩))

theorem tick_sound (sound : Sound ttl state) (allowed : Permitted state .tick) : Sound ttl (tick state) := by
  have valued {key : Key} {cached : Cached} (value : (tick state).value key = some cached) : state.value key = some cached ∧ state.now + 1 < cached.deadline := by
    obtain ⟨there,alive⟩ := value_some.mp value
    have later : state.now + 1 < cached.deadline := alive
    exact ⟨value_some.mpr ⟨there,by omega⟩,later⟩
  have earlier {index : Index} {entry : IndexSet} (there : (tick state).set index = some entry) : state.set index = some entry := by
    obtain ⟨found,alive⟩ := set_some.mp there
    refine set_some.mpr ⟨found,?_⟩
    have alive : entry.live (state.now + 1) = true := alive
    unfold IndexSet.live at alive ⊢
    cases dies : entry.deadline with
    | none => rfl
    | some deadline =>
      rw [dies] at alive
      have later : state.now + 1 < deadline := of_decide_eq_true alive
      exact decide_eq_true (by omega)
  -- A set that holds a live answer outlives it.
  have outlives {key : Key} {cached : Cached} {index : Index} {entry : IndexSet} (alive : state.now + 1 < cached.deadline) (there : state.set index = some entry)
      (more : (∀ deadline, entry.deadline = some deadline → cached.deadline < deadline) ∨ ∃ r ∈ state.readers, r.key = key ∧ r.holding index = true) :
      entry.live (state.now + 1) = true := by
    obtain ⟨found,_⟩ := set_some.mp there
    rcases more with longer | held
    · unfold IndexSet.live
      cases dies : entry.deadline with
      | none => rfl
      | some deadline =>
        have bound := longer deadline dies
        exact decide_eq_true (by omega)
    · obtain ⟨r,member,_,holding⟩ := held
      exact allowed r member index entry holding found
  have place {change : Nat} {c : Change} (there : (tick state).changes[change]? = some c) : ∃ old, state.changes[change]? = some old ∧
      c = { old with stage := old.stage.without fun index => (state.indexes.lookup index).elim true fun set => !set.live (state.now + 1) } := by
    have there : (state.changes.map _)[change]? = some c := there
    rw [List.getElem?_map] at there
    obtain ⟨old,before,same⟩ := Option.map_eq_some_iff.mp there
    exact ⟨old,before,same.symm⟩
  refine ⟨fun key cached there => ?_,fun key cached value => ?_,fun c listed keys current left stage key member => ?_,
    fun change c there begun r member old relevant => ?_,fun change c there key cached value old relevant => ?_⟩
  · have bound := sound.deadlines key cached there
    show cached.deadline ≤ state.now + 1 + ttl
    omega
  · obtain ⟨before,alive⟩ := valued value
    have still (index : Index) (registered : Registered state key cached index) : Registered (tick state) key cached index := by
      refine registered.imp_right fun present => ?_
      obtain ⟨entry,there,member,more⟩ := present
      exact ⟨entry,set_some.mpr ⟨(set_some.mp there).1,outlives alive there more⟩,member,more⟩
    exact (sound.registered key cached before).imp (still _) (still _)
  · obtain ⟨before,listed,same⟩ := List.mem_map.mp listed
    rw [← same] at stage
    obtain ⟨entry,there,member⟩ := smembers_some.mp member
    exact sound.listing before listed keys current left (without_listed stage) key (smembers_some.mpr ⟨entry,earlier there,member⟩)
  · obtain ⟨before,here,same⟩ := place there
    rw [same] at begun relevant ⊢
    exact sound.settled change before here (without_committed begun) r member old relevant
  · obtain ⟨before,here,same⟩ := place there
    obtain ⟨was,alive⟩ := valued value
    rw [same] at relevant ⊢
    refine covers_without (sound.covered change before here key cached was old relevant) fun begun => ?_
    obtain ⟨entry,registered,member,more⟩ := stale_registered sound here begun was old relevant
    rw [(set_some.mp registered).1,Option.elim_some,outlives alive registered more]
    rfl

theorem start_sound (ttl : Nat) : Sound ttl State.start :=
  ⟨fun _ _ wrong => (by cases wrong),fun _ _ wrong => (by cases wrong),fun _ member => absurd member List.not_mem_nil,fun _ _ wrong => (by cases wrong),
    fun _ _ wrong => (by cases wrong)⟩

theorem listed_covers (sound : Sound ttl state) (found : state.changes[change]? = some c) (begun : c.stage ≠ .committed) (value : state.value key = some cached)
    (old : cached.snapshot ≤ change) (relevant : c.scope.relevant key = true) (same : c.scope.index key = index) : key ∈ state.smembers index := by
  obtain ⟨entry,there,member,_⟩ := stale_registered sound found begun value old relevant
  exact smembers_some.mpr ⟨entry,same ▸ there,member⟩

theorem begin_registered (sound : Sound ttl state) (found : state.changes[change]? = some c) (allowed : Permitted state (.begin change))
    (value : state.value key = some cached) (old : cached.snapshot ≤ change) (relevant : c.scope.relevant key = true) :
    ∃ entry, state.set (c.scope.index key) = some entry ∧ key ∈ entry.members := by
  have registered : Registered state key cached (c.scope.index key) := by
    obtain ⟨first,second⟩ := sound.registered key cached value
    rcases scope_index c.scope key with same | same <;> rw [same] <;> assumption
  rcases registered with waiting | ⟨entry,there,member,_⟩
  · obtain ⟨r,member,own,snapshot,pending⟩ := waiting
    have never := allowed c found r member (snapshot ▸ old) (own ▸ relevant)
    rw [own,pending] at never
    cases never
  · exact ⟨entry,there,member⟩

theorem begin_sound (sound : Sound ttl state) (allowed : Permitted state (.begin change)) (moved : step ttl state (.begin change) = some after) : Sound ttl after := by
  obtain ⟨c,found,moved⟩ := Option.bind_eq_some_iff.mp moved
  obtain ⟨scope,stage⟩ := c
  cases stage with
  | committed =>
    cases scope with
    | write tenant collection =>
      cases Option.some.inj moved
      refine turn_sound sound found _ (fun keys index left same key member => by cases same; exact member) (allowed _ found) fun key cached value old relevant => ?_
      obtain ⟨entry,there,member⟩ := begin_registered sound found allowed value old relevant
      have names : key.tenant = tenant ∧ key.collection = collection := by simpa [Scope.relevant] using relevant
      have same : collectionIndex key = .collection tenant collection := by rw [collectionIndex,names.1,names.2]
      exact .inl ⟨same,smembers_some.mpr ⟨entry,same ▸ there,member⟩⟩
    | user who =>
      cases Option.some.inj moved
      refine turn_sound sound found _ (fun keys index left same key member => by cases same; exact member) (allowed _ found) fun key cached value old relevant => ?_
      obtain ⟨entry,there,member⟩ := begin_registered sound found allowed value old relevant
      have name : key.user = who := by simpa [Scope.relevant] using relevant
      have same : userIndex key = .user who := by rw [userIndex,name]
      exact .inl ⟨same,smembers_some.mpr ⟨entry,same ▸ there,member⟩⟩
    | policy collection =>
      cases Option.some.inj moved
      refine turn_sound sound found _ (fun keys index left same => by cases same) (allowed _ found) fun key cached value old relevant => ?_
      obtain ⟨entry,there,member⟩ := begin_registered sound found allowed value old relevant
      have name : key.collection = collection := by simpa [Scope.relevant] using relevant
      refine List.mem_filter.mpr ⟨?_,?_⟩
      · exact AList.mem_keys.mp (AList.lookup_isSome.mp (by rw [(set_some.mp there).1]; rfl))
      · rw [there]
        simp [Scope.index,collectionIndex,Index.matches,name]
  | scanning kept => cases moved
  | sweeping left => cases moved
  | listed keys index left => cases moved
  | finished => cases moved

theorem drop_sound {scope : Scope} {keys : List Key} {index : Index} {left : List Index} (sound : Sound ttl state)
    (found : state.changes[change]? = some ⟨scope,.listed keys index left⟩) :
    Sound ttl ((if scope.deletes keys then del keys index state else state).turn change (.sweeping left)) := by
  have listing := sound.listing _ (List.mem_of_getElem? found) keys index left rfl
  split
  · have deleted := del_sound sound keys index listing
    have still : (del keys index state).changes[change]? = some ⟨scope,.listed keys index left⟩ := by
      show (state.changes.map _)[change]? = _
      rw [List.getElem?_map,found]
      rfl
    refine turn_sound deleted still _ (fun other current rest same => by cases same) (deleted.settled change _ still Stage.noConfusion) fun key cached value old relevant => ?_
    rcases deleted.covered change _ still key cached value old relevant with both | later
    · obtain ⟨there,_⟩ := value_some.mp value
      have there : (if key ∈ keys then none else state.values key) = some cached := there
      rw [if_pos both.2] at there
      cases there
    · exact later
  · next none_left =>
    refine turn_sound sound found _ (fun other current rest same => by cases same) (sound.settled change _ found Stage.noConfusion) fun key cached value old relevant => ?_
    rcases sound.covered change _ found key cached value old relevant with both | later
    · refine absurd ?_ none_left
      have some_key : keys ≠ [] := List.ne_nil_of_mem both.2
      cases scope with
      | write tenant collection => exact decide_eq_true some_key
      | user who => rfl
      | policy collection => rfl
    · exact later

theorem step_sound : Preserved (step ttl) Permitted (Sound ttl) := by
  intro state action after sound allowed moved
  cases action with
  | miss key =>
    simp only [step] at moved
    split at moved
    · cases Option.some.inj moved
      exact miss_sound sound key
    · cases moved
  | compute reader =>
    obtain ⟨r,found,moved⟩ := Option.bind_eq_some_iff.mp moved
    split at moved
    · next phase =>
      cases Option.some.inj moved
      exact compute_sound sound found phase
    · cases moved
  | store reader =>
    obtain ⟨r,found,moved⟩ := Option.bind_eq_some_iff.mp moved
    split at moved
    · cases Option.some.inj moved
      exact store_sound sound found allowed
    · cases moved
  | add reader =>
    obtain ⟨r,found,moved⟩ := Option.bind_eq_some_iff.mp moved
    split at moved
    · next phase =>
      cases Option.some.inj moved
      apply sadd_sound sound found _ _ _ _ _ _ (allowed r found)
      · intro other apart pending
        simpa [Reader.pending,phase,apart] using pending
      · simp [Reader.holding]
      · simp [Reader.holding,phase]
      · intro other pending
        simp [Reader.pending,phase] at pending ⊢
        exact .inr pending
    · cases moved
  | keep reader =>
    obtain ⟨r,found,moved⟩ := Option.bind_eq_some_iff.mp moved
    split at moved
    · next phase =>
      cases Option.some.inj moved
      apply expire_sound sound found
      · intro other holding
        simpa [Reader.holding,phase] using holding
      · intro other pending
        simpa [Reader.pending,phase] using pending
      · intro other pending
        simpa [Reader.pending,phase] using pending
    · cases moved
  | addUser reader =>
    obtain ⟨r,found,moved⟩ := Option.bind_eq_some_iff.mp moved
    split at moved
    · next phase =>
      cases Option.some.inj moved
      apply sadd_sound sound found _ _ _ _ _ _ (allowed r found)
      · intro other apart pending
        simp [Reader.pending,phase,apart] at pending
      · simp [Reader.holding]
      · simp [Reader.holding,phase]
      · intro other pending
        simp [Reader.pending] at pending
    · cases moved
  | keepUser reader =>
    obtain ⟨r,found,moved⟩ := Option.bind_eq_some_iff.mp moved
    split at moved
    · next phase =>
      cases Option.some.inj moved
      apply expire_sound sound found
      · intro other holding
        simpa [Reader.holding,phase] using holding
      · intro other pending
        simp [Reader.pending,phase] at pending
      · intro other pending
        simp [Reader.pending] at pending
    · cases moved
  | commit scope =>
    cases Option.some.inj moved
    exact commit_sound sound scope
  | begin change => exact begin_sound sound allowed moved
  | scanned change found =>
    obtain ⟨⟨scope,stage⟩,there,moved⟩ := Option.bind_eq_some_iff.mp moved
    cases stage with
    | scanning kept =>
      cases scope with
      | policy collection =>
        simp only at moved
        split at moved
        · next complete =>
          cases Option.some.inj moved
          have all := List.all_eq_true.mp (Bool.and_eq_true_iff.mp complete).1
          refine turn_sound sound there _ (fun keys index left same => by cases same) (sound.settled change _ there Stage.noConfusion) fun key cached value old relevant => ?_
          have kept : Scope.index (.policy collection) key ∈ kept := sound.covered change _ there key cached value old relevant
          have returned : Scope.index (.policy collection) key ∈ found := of_decide_eq_true (all _ kept)
          exact returned
        · cases moved
      | write tenant collection => cases moved
      | user who => cases moved
    | committed => cases moved
    | sweeping left => cases moved
    | listed keys index left => cases moved
    | finished => cases moved
  | list change =>
    obtain ⟨⟨scope,stage⟩,there,moved⟩ := Option.bind_eq_some_iff.mp moved
    cases stage with
    | sweeping left =>
      cases left with
      | nil => cases moved
      | cons index left =>
        cases Option.some.inj moved
        refine turn_sound sound there _ (fun keys other rest same key member => by cases same; exact member) (sound.settled change _ there Stage.noConfusion)
          fun key cached value old relevant => ?_
        rcases List.mem_cons.mp (sound.covered change _ there key cached value old relevant) with same | later
        · exact .inl ⟨same,listed_covers sound there Stage.noConfusion value old relevant same⟩
        · exact .inr later
    | committed => cases moved
    | scanning kept => cases moved
    | listed keys index left => cases moved
    | finished => cases moved
  | drop change =>
    obtain ⟨⟨scope,stage⟩,there,moved⟩ := Option.bind_eq_some_iff.mp moved
    cases stage with
    | listed keys index left =>
      cases Option.some.inj moved
      exact drop_sound sound there
    | committed => cases moved
    | scanning kept => cases moved
    | sweeping left => cases moved
    | finished => cases moved
  | finish change =>
    obtain ⟨⟨scope,stage⟩,there,moved⟩ := Option.bind_eq_some_iff.mp moved
    cases stage with
    | sweeping left =>
      cases left with
      | nil =>
        cases Option.some.inj moved
        refine turn_sound sound there _ (fun keys index left same => by cases same) (sound.settled change _ there Stage.noConfusion) fun key cached value old relevant => ?_
        exact absurd (sound.covered change _ there key cached value old relevant) List.not_mem_nil
      | cons index left => cases moved
    | committed => cases moved
    | scanning kept => cases moved
    | listed keys index left => cases moved
    | finished => cases moved
  | tick =>
    cases Option.some.inj moved
    exact tick_sound sound allowed

end

-- After an invalidation has finished no live answer of its tenant and collection, or its user, is older than the change.
theorem hits_fresh {ttl : Nat} {state : State} (guarded : Guarded (step ttl) Permitted State.start actions) (path : run (step ttl) State.start actions = some state) :
    ∀ change c, state.changes[change]? = some c → c.stage = .finished →
      ∀ key cached, state.value key = some cached → c.scope.relevant key = true → change < cached.snapshot := by
  intro change c found finished key cached value relevant
  have sound := run_preserves step_sound (start_sound ttl) guarded path
  by_contra old
  have covered := sound.covered change c found key cached value (Nat.le_of_not_lt old) relevant
  rw [finished] at covered
  exact covered

def contacts : Key := ⟨"t","contacts","ana","/api/data/contacts"⟩

-- The read is before the commit, its SETEX after the invalidation.
def overtaken : List Action := [.miss contacts,.compute 0,.commit (.write "t" "contacts"),.begin 0,.drop 0,.finish 0,.store 0]

theorem stale_hit : ∃ state c cached, run (step 10) State.start overtaken = some state ∧ state.changes[0]? = some c ∧ c.stage = .finished ∧
    c.scope.relevant contacts = true ∧ state.value contacts = some cached ∧ cached.snapshot ≤ 0 :=
  ⟨_,_,_,rfl,rfl,rfl,by decide,rfl,Nat.le_refl 0⟩

def following : List Action :=
  [.miss contacts,.compute 0,.store 0,.add 0,.keep 0,.addUser 0,.keepUser 0,.commit (.write "t" "contacts"),.begin 0,.drop 0,.finish 0,
    .miss contacts,.compute 1,.store 1]

theorem hits_fresh_following : ∃ state cached, run (step 10) State.start following = some state ∧ state.value contacts = some cached ∧ 0 < cached.snapshot := by
  have guarded : Guarded (step 10) Permitted State.start following := by
    refine guarded_cons (show Permitted _ (.miss contacts) from trivial) rfl ?_
    refine guarded_cons (show Permitted _ (.compute 0) from trivial) rfl ?_
    refine guarded_cons (show Permitted _ (.store 0) from fun r change c _ wrong => by cases wrong) rfl ?_
    refine guarded_cons (show Permitted _ (.add 0) from fun r _ c member => absurd member List.not_mem_nil) rfl ?_
    refine guarded_cons (show Permitted _ (.keep 0) from trivial) rfl ?_
    refine guarded_cons (show Permitted _ (.addUser 0) from fun r _ c member => absurd member List.not_mem_nil) rfl ?_
    refine guarded_cons (show Permitted _ (.keepUser 0) from trivial) rfl ?_
    refine guarded_cons (show Permitted _ (.commit _) from trivial) rfl ?_
    refine guarded_cons (show Permitted _ (.begin 0) from fun c found r member _ _ => by cases found; cases List.mem_singleton.mp member; decide) rfl ?_
    refine guarded_cons (show Permitted _ (.drop 0) from trivial) rfl ?_
    refine guarded_cons (show Permitted _ (.finish 0) from trivial) rfl ?_
    refine guarded_cons (show Permitted _ (.miss contacts) from trivial) rfl ?_
    refine guarded_cons (show Permitted _ (.compute 1) from trivial) rfl ?_
    refine guarded_cons (show Permitted _ (.store 1) from fun r change c found there old => by
      cases found
      have after : 1 ≤ change := old
      obtain ⟨later,same⟩ : ∃ later, change = later + 1 := ⟨change - 1,by omega⟩
      subst same
      have none_there : (none : Option Change) = some c := there
      cases none_there) rfl ?_
    trivial
  exact ⟨_,_,rfl,rfl,hits_fresh guarded rfl 0 _ rfl rfl contacts _ rfl (by decide)⟩

end Zveltio.QueryCache
