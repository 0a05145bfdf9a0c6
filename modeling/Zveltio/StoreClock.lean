import Zveltio.StoreCalls
namespace Zveltio.StoreClock

open Fields Crdt LocalStore StoreCalls Runs

section
variable {ν : Type u} {ι : Type v}

-- What a store has done to its clock: a put wrote its document, a server document came in.
inductive Event (ν : Type u) (ι : Type v) where
  | put (lamport : Nat) (doc : LWWDocument ν ι)
  | applied (doc : LWWDocument ν ι)

-- A call between two of its awaited steps.
inductive Stage (ν : Type u) (ι : Type v) where
  | put (key : Key) (data : Record FieldName ν) (existing : Option (LocalRecord ν ι))
  | persistLamport (lamport : Nat)
  | applyServerUpdate (key : Key) (data : Record FieldName ν) (serverVersion : Nat)
      (existing : Option (LocalRecord ν ι))
  | persistMerged (key : Key) (record : LocalRecord ν ι) (theirs : LWWDocument ν ι)
  | storeMerged (key : Key) (record : LocalRecord ν ι) (theirs : LWWDocument ν ι)

inductive Session where
  | closed
  | opening
  | opened
  deriving DecidableEq

-- records and queue of the store, clientId and lamport are on disk; the clock of the
-- store is in memory and means something in an open session only.
structure State (ν : Type u) (ι : Type v) where
  store : Store ν ι
  clientId : Option ι
  lamport : Nat
  session : Session
  pending : List (Stage ν ι)
  history : List (Event ν ι)

def State.empty (clock : LamportClock ι) : State ν ι := ⟨.empty clock,none,0,.closed,[],[]⟩

-- fresh is the id that generateUUID draws; a crash may come at any point.
inductive Action (ν : Type u) (ι : Type v) where
  | «open» (fresh : ι)
  | readClock
  | close
  | crash
  | put (key : Key) (data : Record FieldName ν)
  | applyServerUpdate (key : Key) (data : Record FieldName ν) (serverVersion : Nat)
  | finish (index now : Nat) (opId : String)

def State.drop (state : State ν ι) (index : Nat) : State ν ι := {state with pending := state.pending.eraseIdx index}

def State.add (state : State ν ι) (stage : Stage ν ι) : State ν ι := {state with pending := state.pending ++ [stage]}

def State.log (state : State ν ι) (events : List (Event ν ι)) : State ν ι :=
  {state with history := state.history ++ events}

-- put from its tick on: the transaction is refused when the id of its item is taken.
def commitPut (state : State ν ι) (key : Key) (data : Record FieldName ν) (existing : Option (LocalRecord ν ι))
    (now : Nat) (opId : String) : State ν ι :=
  let after := {state with store := state.store.commitPut key data existing now opId}
  if state.store.queue.any fun item => item.id == opId then after
  else
    let ticked := state.store.clock.tick
    (after.add (.persistLamport ticked.value)).log [.put ticked.value (toDocument data ticked.value ticked.clientId)]

def persistLamport (state : State ν ι) : State ν ι := {state with lamport := state.store.clock.value}

variable [LinearOrder ι]

def applyUpdate (document? : ν → Option (LWWDocument ν ι)) (state : State ν ι) (key : Key) (data : Record FieldName ν)
    (serverVersion : Nat) (existing : Option (LocalRecord ν ι)) (now : Nat) : State ν ι :=
  let written := StoreCalls.applyServerUpdate document? state.store key data serverVersion existing now
  let after := {state with store := written.1}
  match written.2,remoteDoc document? data with
  | some (.storeMerged key record),some theirs => after.add (.persistMerged key record theirs)
  | _,theirs => after.log (theirs.toList.map .applied)

def finish (document? : ν → Option (LWWDocument ν ι)) (state : State ν ι) (now : Nat) (opId : String) :
    Stage ν ι → State ν ι
  | .put key data existing => commitPut state key data existing now opId
  | .persistLamport _ => persistLamport state
  | .applyServerUpdate key data serverVersion existing => applyUpdate document? state key data serverVersion existing now
  | .persistMerged key record theirs => (persistLamport state).add (.storeMerged key record theirs)
  | .storeMerged key record theirs => State.log {state with store := state.store.putRecord key record} [.applied theirs]

-- open and close are awaited before the next call; puts and server updates may overlap.
def step (document? : ν → Option (LWWDocument ν ι)) (state : State ν ι) : Action ν ι → Option (State ν ι)
  | .open fresh =>
    if state.pending = [] then some {state with clientId := some (state.clientId.getD fresh),session := .opening}
    else none
  | .readClock => match state.session,state.clientId with
    | .opening,some clientId =>
      some {state with store := {state.store with clock := ⟨state.lamport,clientId⟩},session := .opened}
    | _,_ => none
  | .close => if state.pending = [] then some {state with session := .closed} else none
  | .crash => some {state with session := .closed,pending := []}
  | .put key data =>
    if state.session = .opened then some (state.add (.put key data (state.store.records key))) else none
  | .applyServerUpdate key data serverVersion =>
    if state.session = .opened then
      some (state.add (.applyServerUpdate key data serverVersion (state.store.records key)))
    else none
  | .finish index now opId => (state.pending[index]?).map fun stage =>
    finish document? (state.drop index) now opId stage

-- Two events in the order they happened: no two puts share their Lamport value, and a
-- put after a document is newer than every field of it and wins the merge against it.
def Follows : Event ν ι → Event ν ι → Prop
  | .put first _,.put second _ => first ≠ second
  | .applied theirs,.put lamport mine =>
    (∀ name field, theirs.lookup name = some field → field.lamport < lamport) ∧
      ∀ name field, mine.lookup name = some field → (mergeLWW mine theirs).lookup name = some field
  | _,_ => True

-- Whether applyServerUpdate merges this field: the record is unconfirmed, has a document,
-- and the field is not dropped for a name that every object answers.
def Merged (existing : Option (LocalRecord ν ι)) (name : FieldName) : Prop :=
  ∃ record mine, existing = some record ∧ unconfirmed record ∧ record.crdtDoc = some mine ∧
    (inherited name = true → mine.lookup name ≠ none)

-- A crash finds every committed put's clock on disk, and a document that is not merged
-- is no newer than the clock on disk.
def Permitted (document? : ν → Option (LWWDocument ν ι)) (state : State ν ι) : Action ν ι → Prop
  | .crash => ∀ lamport, .persistLamport lamport ∈ state.pending → lamport ≤ state.lamport
  | .finish index _ _ => ∀ key data serverVersion existing theirs,
      state.pending[index]? = some (.applyServerUpdate key data serverVersion existing) →
      remoteDoc document? data = some theirs →
        ∀ name field, theirs.lookup name = some field → field.lamport ≤ state.lamport ∨ Merged existing name
  | _ => True

def Below (doc : LWWDocument ν ι) (bound : Nat) : Prop := ∀ name field, doc.lookup name = some field → field.lamport ≤ bound

omit [LinearOrder ι] in
theorem newest_below (doc : LWWDocument ν ι) : Below doc (newestLamport doc) := by
  have grows : ∀ (entries : List (Sigma fun _ : FieldName => LWWField ν ι)) (start : Nat),
      start ≤ entries.foldl (fun newest entry => max newest entry.2.lamport) start ∧
        ∀ entry ∈ entries, entry.2.lamport ≤ entries.foldl (fun newest entry => max newest entry.2.lamport) start := by
    intro entries
    induction entries with
    | nil => simp
    | cons entry rest ih =>
      intro start
      obtain ⟨first,later⟩ := ih (max start entry.2.lamport)
      simp only [List.foldl_cons,List.forall_mem_cons]
      exact ⟨by omega,by omega,later⟩
  intro name field found
  exact (grows doc.entries 0).2 ⟨name,field⟩ (AList.mem_lookup_iff.mp found)

theorem merged_below {mine theirs : LWWDocument ν ι} (here : theirs.lookup name = some field)
    (kept : inherited name = true → mine.lookup name ≠ none) : field.lamport ≤ newestLamport (mergeLWW mine theirs) := by
  cases own : mine.lookup name with
  | none =>
    have plain : inherited name = false := by
      by_contra named
      exact kept (by simpa using named) own
    refine newest_below _ name field ?_
    rw [mergeLWW_remote own here,plain]
    rfl
  | some localField =>
    have merged := mergeLWW_own own here
    split at merged
    · exact newest_below _ name field merged
    · next newer =>
      have bound := newest_below _ name localField merged
      unfold LWWField.older at newer
      omega

theorem put_wins {data : Record FieldName ν} {theirs : LWWDocument ν ι} (above : Below theirs bound) (less : bound < lamport)
    (found : (toDocument data lamport clientId).lookup name = some field) :
    (mergeLWW (toDocument data lamport clientId) theirs).lookup name = some field := by
  cases there : theirs.lookup name with
  | none => rw [mergeLWW_local there,found]
  | some other =>
    have stamp : field.lamport = lamport := by
      rw [lookup_toDocument] at found
      obtain ⟨_,_,rfl⟩ := Option.map_eq_some_iff.mp found
      rfl
    have under := above name other there
    rw [mergeLWW_own found there,if_neg]
    unfold LWWField.older
    omega

structure Safe (state : State ν ι) : Prop where
  open' : state.session = .opened → state.lamport ≤ state.store.clock.value
  idle : state.session ≠ .opened → state.pending = []
  puts : ∀ lamport doc, .put lamport doc ∈ state.history →
    lamport ≤ state.lamport ∨ .persistLamport lamport ∈ state.pending
  waiting : ∀ lamport, .persistLamport lamport ∈ state.pending → lamport ≤ state.store.clock.value
  applied : ∀ doc, .applied doc ∈ state.history → Below doc state.lamport
  merged : ∀ key record doc, .persistMerged key record doc ∈ state.pending → Below doc state.store.clock.value
  stored : ∀ key record doc, .storeMerged key record doc ∈ state.pending → Below doc state.lamport
  ordered : state.history.Pairwise Follows

theorem drop_safe {state : State ν ι} {position : Nat} (safe : Safe state) (here : state.pending[position]? = some stage)
    (other : ∀ lamport, stage ≠ .persistLamport lamport) : Safe (state.drop position) := by
  have sub : ∀ left, left ∈ (state.drop position).pending → left ∈ state.pending := fun _ => List.mem_of_mem_eraseIdx
  refine ⟨safe.open',fun closed => ?_,fun lamport doc member => ?_,fun lamport member => safe.waiting lamport (sub _ member),
    safe.applied,fun key record doc member => safe.merged key record doc (sub _ member),
    fun key record doc member => safe.stored key record doc (sub _ member),safe.ordered⟩
  · have none' := safe.idle closed
    simp [none'] at here
  · refine (safe.puts lamport doc member).imp_right fun waiting => ?_
    obtain ⟨place,found⟩ := List.mem_iff_getElem?.mp waiting
    refine List.mem_eraseIdx_iff_getElem?.mpr ⟨place,?_,found⟩
    rintro rfl
    exact other lamport (Option.some.inj (here.symm.trans found))

omit [LinearOrder ι] in
theorem commitPut_clock (store : Store ν ι) (key : Key) (data : Record FieldName ν) (existing : Option (LocalRecord ν ι))
    (now : Nat) (opId : String) : (store.commitPut key data existing now opId).clock = store.clock.tick := by
  unfold Store.commitPut
  simp only
  rcases putAndQueue_cases {store with clock := store.clock.tick} key _ _ with same | ⟨_,same⟩
  · rw [same]
  · rw [same]
    rfl

theorem commitPut_safe (safe : Safe (state : State ν ι)) (opened : state.session = .opened) :
    Safe (commitPut state key data existing now opId) := by
  have stored := safe.open' opened
  have clock := commitPut_clock state.store key data existing now opId
  have value : (state.store.commitPut key data existing now opId).clock.value = state.store.clock.value + 1 := by
    rw [clock]
    rfl
  unfold commitPut
  split
  · refine ⟨fun _ => ?_,fun closed => absurd opened closed,safe.puts,fun lamport member => ?_,safe.applied,
      fun key record doc member name field found => ?_,safe.stored,safe.ordered⟩
    · dsimp only
      omega
    · have bound := safe.waiting lamport member
      dsimp only
      omega
    · have bound := safe.merged key record doc member name field found
      dsimp only
      omega
  · -- The new value is above the clock, and so above everything on record.
    have under : ∀ lamport doc, .put lamport doc ∈ state.history → lamport ≤ state.store.clock.value := by
      intro lamport doc member
      rcases safe.puts lamport doc member with old | waiting
      · omega
      · exact safe.waiting lamport waiting
    refine ⟨fun _ => ?_,fun closed => absurd opened closed,fun lamport doc member => ?_,fun lamport member => ?_,
      fun doc member => ?_,fun key record doc member name field found => ?_,fun key record doc member => ?_,?_⟩
    · simp only [State.log,State.add]
      omega
    · rcases List.mem_append.mp member with old | new
      · exact (safe.puts lamport doc old).imp_right (List.mem_append_left _)
      · cases List.mem_singleton.mp new
        exact .inr (List.mem_append_right _ List.mem_cons_self)
    · simp only [State.log,State.add] at member ⊢
      rcases List.mem_append.mp member with old | new
      · have bound := safe.waiting lamport old
        omega
      · cases List.mem_singleton.mp new
        exact value.ge
    · rcases List.mem_append.mp member with old | new
      · exact safe.applied doc old
      · cases List.mem_singleton.mp new
    · rcases List.mem_append.mp member with old | new
      · have bound := safe.merged key record doc old name field found
        simp only [State.log,State.add]
        omega
      · cases List.mem_singleton.mp new
    · rcases List.mem_append.mp member with old | new
      · exact safe.stored key record doc old
      · cases List.mem_singleton.mp new
    · refine List.pairwise_append.mpr ⟨safe.ordered,List.pairwise_singleton _ _,fun event member other new => ?_⟩
      cases List.mem_singleton.mp new
      cases event with
      | put lamport doc =>
        have bound := under lamport doc member
        exact fun same => absurd same (by simp only [LamportClock.tick]; omega)
      | applied theirs =>
        have below := safe.applied theirs member
        have less : state.lamport < state.store.clock.tick.value := Nat.lt_succ_of_le stored
        exact ⟨fun name field found => Nat.lt_of_le_of_lt (below name field found) less,fun name field => put_wins below less⟩

omit [LinearOrder ι] in
theorem Below.mono {doc : LWWDocument ν ι} (below : Below doc low) (less : low ≤ high) : Below doc high :=
  fun name field found => Nat.le_trans (below name field found) less

theorem persistLamport_safe {state : State ν ι} {position : Nat} (safe : Safe state) (opened : state.session = .opened) :
    Safe (persistLamport (state.drop position)) := by
  have stored := safe.open' opened
  have sub : ∀ left, left ∈ (state.drop position).pending → left ∈ state.pending := fun _ => List.mem_of_mem_eraseIdx
  refine ⟨fun _ => Nat.le_refl _,fun closed => absurd opened closed,fun lamport doc member => .inl ?_,
    fun lamport member => safe.waiting lamport (sub _ member),fun doc member => (safe.applied doc member).mono stored,
    fun key record doc member => safe.merged key record doc (sub _ member),
    fun key record doc member => (safe.stored key record doc (sub _ member)).mono stored,safe.ordered⟩
  rcases safe.puts lamport doc member with old | waiting
  · exact Nat.le_trans old stored
  · exact safe.waiting lamport waiting

theorem add_safe {state : State ν ι} (safe : Safe state) (opened : state.session = .opened)
    (put : ∀ lamport, stage ≠ .persistLamport lamport)
    (merged : ∀ key record doc, stage = .persistMerged key record doc → Below doc state.store.clock.value)
    (stored : ∀ key record doc, stage = .storeMerged key record doc → Below doc state.lamport) : Safe (state.add stage) := by
  refine ⟨safe.open',fun closed => absurd opened closed,
    fun lamport doc member => (safe.puts lamport doc member).imp_right (List.mem_append_left _),fun lamport member => ?_,
    safe.applied,fun key record doc member => ?_,fun key record doc member => ?_,safe.ordered⟩
  · rcases List.mem_append.mp member with old | new
    · exact safe.waiting lamport old
    · exact absurd (List.mem_singleton.mp new).symm (put lamport)
  · rcases List.mem_append.mp member with old | new
    · exact safe.merged key record doc old
    · exact merged key record doc (List.mem_singleton.mp new).symm
  · rcases List.mem_append.mp member with old | new
    · exact safe.stored key record doc old
    · exact stored key record doc (List.mem_singleton.mp new).symm

theorem applied_safe {state : State ν ι} (safe : Safe state) (docs : List (LWWDocument ν ι))
    (below : ∀ doc ∈ docs, Below doc state.lamport) : Safe (state.log (docs.map .applied)) := by
  refine ⟨safe.open',safe.idle,fun lamport doc member => ?_,safe.waiting,fun doc member => ?_,safe.merged,safe.stored,
    List.pairwise_append.mpr ⟨safe.ordered,List.pairwise_map.mpr ?_,fun event _ other new => ?_⟩⟩
  · rcases List.mem_append.mp member with old | new
    · exact safe.puts lamport doc old
    · obtain ⟨_,_,same⟩ := List.mem_map.mp new
      cases same
  · rcases List.mem_append.mp member with old | new
    · exact safe.applied doc old
    · obtain ⟨_,inside,same⟩ := List.mem_map.mp new
      cases same
      exact below doc inside
  · exact List.pairwise_of_forall fun _ _ => trivial
  · obtain ⟨_,_,rfl⟩ := List.mem_map.mp new
    cases event <;> trivial

theorem record_safe {state : State ν ι} (safe : Safe state) (key : Key) (record : LocalRecord ν ι) :
    Safe {state with store := state.store.putRecord key record} :=
  ⟨safe.open',safe.idle,safe.puts,safe.waiting,safe.applied,safe.merged,safe.stored,safe.ordered⟩

theorem advance_safe {state : State ν ι} (safe : Safe state) (newest : Nat) :
    Safe {state with store := {state.store with clock := state.store.clock.update newest}} := by
  have grows : state.store.clock.value ≤ (state.store.clock.update newest).value := by
    simp only [LamportClock.update]
    omega
  exact ⟨fun opened => Nat.le_trans (safe.open' opened) grows,safe.idle,safe.puts,
    fun lamport member => Nat.le_trans (safe.waiting lamport member) grows,safe.applied,
    fun key record doc member => (safe.merged key record doc member).mono grows,safe.stored,safe.ordered⟩

theorem applyUpdate_cases (document? : ν → Option (LWWDocument ν ι)) (state : State ν ι) (key : Key)
    (data : Record FieldName ν) (serverVersion : Nat) (existing : Option (LocalRecord ν ι)) (now : Nat) :
    (∃ record mine theirs, existing = some record ∧ unconfirmed record ∧ record.crdtDoc = some mine ∧
      remoteDoc document? data = some theirs ∧ applyUpdate document? state key data serverVersion existing now =
        State.add {state with store :=
          {state.store with clock := state.store.clock.update (newestLamport (mergeLWW mine theirs))}}
          (.persistMerged key (mergedRecord record (mergeLWW mine theirs) serverVersion) theirs)) ∨
    (∀ theirs, remoteDoc document? data = some theirs → ∀ name, ¬Merged existing name) ∧
      ∃ record, applyUpdate document? state key data serverVersion existing now =
        State.log {state with store := state.store.putRecord key record}
          ((remoteDoc document? data).toList.map .applied) := by
  unfold applyUpdate StoreCalls.applyServerUpdate
  cases existing with
  | none =>
    refine .inr ⟨?_,_,rfl⟩
    rintro _ _ _ ⟨_,_,same,_⟩
    cases same
  | some record =>
    by_cases waits : unconfirmed record
    · simp only [waits,if_true]
      cases own : record.crdtDoc with
      | none =>
        refine .inr ⟨?_,_,rfl⟩
        rintro _ _ _ ⟨_,_,same,_,doc,_⟩
        cases Option.some.inj same
        cases own.symm.trans doc
      | some mine =>
        cases there : remoteDoc document? data with
        | none => exact .inr ⟨fun _ same => (by cases same),_,rfl⟩
        | some theirs => exact .inl ⟨record,mine,theirs,rfl,waits,own,rfl,rfl⟩
    · simp only [waits,if_false]
      refine .inr ⟨?_,_,rfl⟩
      rintro _ _ _ ⟨_,_,same,unsettled,_⟩
      cases Option.some.inj same
      exact waits unsettled

theorem applyUpdate_safe {state : State ν ι} (safe : Safe state) (opened : state.session = .opened)
    (permitted : ∀ theirs, remoteDoc document? data = some theirs → ∀ name field, theirs.lookup name = some field →
      field.lamport ≤ state.lamport ∨ Merged existing name) :
    Safe (applyUpdate document? state key data serverVersion existing now) := by
  rcases applyUpdate_cases document? state key data serverVersion existing now with
    ⟨record,mine,theirs,rfl,_,own,there,same⟩ | ⟨unmerged,record,same⟩
  · rw [same]
    refine add_safe (advance_safe safe _) opened nofun ?_ nofun
    rintro _ _ _ ⟨⟩ name field found
    have stored := safe.open' opened
    rcases permitted theirs there name field found with old | ⟨_,_,here,_,doc,kept⟩
    · simp only [LamportClock.update]
      omega
    · cases Option.some.inj here
      cases Option.some.inj (own.symm.trans doc)
      have bound := merged_below found kept
      simp only [LamportClock.update]
      omega
  · rw [same]
    refine applied_safe (record_safe safe key record) _ fun theirs member name field found => ?_
    have there : remoteDoc document? data = some theirs := Option.mem_toList.mp member
    exact (permitted theirs there name field found).resolve_right (unmerged theirs there name)

theorem finish_safe {state : State ν ι} {position : Nat} (safe : Safe state) (here : state.pending[position]? = some stage)
    (permitted : Permitted document? state (.finish position now opId)) :
    Safe (finish document? (state.drop position) now opId stage) := by
  have opened : state.session = .opened := by
    by_contra closed
    have none' := safe.idle closed
    simp [none'] at here
  have member : stage ∈ state.pending := List.mem_of_getElem? here
  cases stage with
  | put key data existing => exact commitPut_safe (drop_safe safe here nofun) opened
  | persistLamport lamport => exact persistLamport_safe safe opened
  | applyServerUpdate key data serverVersion existing =>
    exact applyUpdate_safe (drop_safe safe here nofun) opened fun theirs there =>
      permitted key data serverVersion existing theirs here there
  | persistMerged key record theirs =>
    refine add_safe (persistLamport_safe safe opened) opened nofun nofun ?_
    rintro _ _ _ ⟨⟩
    exact safe.merged key record theirs member
  | storeMerged key record theirs =>
    refine applied_safe (record_safe (drop_safe safe here nofun) key record) [theirs] ?_
    simp only [List.mem_singleton,forall_eq]
    exact safe.stored key record theirs member

theorem idle_safe {state : State ν ι} (safe : Safe state) (idle : state.pending = []) (clientId : Option ι)
    (clock : LamportClock ι) (session : Session) (read : session = .opened → clock.value = state.lamport) :
    Safe {state with clientId,session,store := {state.store with clock}} := by
  refine ⟨fun opened => (read opened).ge,fun _ => idle,fun lamport doc member => ?_,fun lamport member => ?_,safe.applied,
    fun key record doc member => ?_,fun key record doc member => ?_,safe.ordered⟩
  · exact .inl ((safe.puts lamport doc member).resolve_right (by simp [idle]))
  all_goals simp [idle] at member

theorem step_safe (document? : ν → Option (LWWDocument ν ι)) : Preserved (step document?) (Permitted document?) Safe := by
  intro before action after safe permitted moved
  cases action with
  | «open» fresh =>
    simp only [step] at moved
    split at moved
    · next idle =>
      cases Option.some.inj moved
      exact idle_safe safe idle _ before.store.clock .opening nofun
    · cases moved
  | readClock =>
    simp only [step] at moved
    split at moved
    · next clientId opening found =>
      cases Option.some.inj moved
      exact idle_safe safe (safe.idle (by simp [opening])) before.clientId ⟨before.lamport,clientId⟩ .opened fun _ => rfl
    · cases moved
  | close =>
    simp only [step] at moved
    split at moved
    · next idle =>
      cases Option.some.inj moved
      exact idle_safe safe idle before.clientId before.store.clock .closed nofun
    · cases moved
  | crash =>
    cases Option.some.inj moved
    refine ⟨nofun,fun _ => rfl,fun lamport doc member => .inl ?_,nofun,safe.applied,nofun,nofun,safe.ordered⟩
    exact (safe.puts lamport doc member).elim id (permitted lamport)
  | put key data =>
    simp only [step] at moved
    split at moved
    · next opened =>
      cases Option.some.inj moved
      exact add_safe safe opened nofun nofun nofun
    · cases moved
  | applyServerUpdate key data serverVersion =>
    simp only [step] at moved
    split at moved
    · next opened =>
      cases Option.some.inj moved
      exact add_safe safe opened nofun nofun nofun
    · cases moved
  | finish position now opId =>
    obtain ⟨stage,here,rfl⟩ := Option.map_eq_some_iff.mp moved
    exact finish_safe safe here permitted

theorem empty_safe (clock : LamportClock ι) : Safe (State.empty clock : State ν ι) :=
  ⟨nofun,fun _ => rfl,nofun,nofun,nofun,nofun,nofun,List.Pairwise.nil⟩

-- Puts stay apart and ahead of every document that came in, in whatever order calls
-- overlap, sessions end and the store crashes.
theorem puts_ordered (guarded : Guarded (step document?) (Permitted document?) (State.empty clock) actions)
    (path : run (step document?) (State.empty clock) actions = some (state : State ν ι)) :
    state.history.Pairwise Follows :=
  (run_preserves (step_safe document?) (empty_safe clock) guarded path).ordered

end

section
-- A put whose transaction commits and whose clock does not reach the disk.
def crashedPut : List (Action Nat Nat) :=
  [.open 7,.readClock,.put note (titled 1),.finish 0 10 "10-a",.crash,
    .open 8,.readClock,.put note (titled 2),.finish 0 11 "11-b",.finish 0 12 "12-c"]

theorem crashed_put_repeated : ∃ state, run (step plainValue) (State.empty ⟨0,0⟩) crashedPut = some state ∧
    state.history = [.put 1 (toDocument (titled 1) 1 7),.put 1 (toDocument (titled 2) 1 7)] ∧
    ¬state.history.Pairwise Follows := by
  refine ⟨_,rfl,rfl,?_⟩
  intro ordered
  exact absurd rfl ((List.pairwise_cons.mp ordered).1 _ List.mem_cons_self)

-- The value 9 reads as a document of another client, whose title is at 40.
def markedValue (value : Nat) : Option (LWWDocument Nat Nat) :=
  if value = 9 then some (AList.singleton title ⟨5,40,3⟩) else none

def mergedPut : List (Action Nat Nat) :=
  [.open 7,.readClock,.put note (titled 1),.finish 0 10 "10-a",.finish 0 11 "11-b",
    .applyServerUpdate note (AList.singleton crdtField 9) 12,.finish 0 13 "13-c",.finish 0 14 "14-d",.finish 0 15 "15-e",
    .crash,.open 8,.readClock,.put note (titled 2),.finish 0 16 "16-f"]

theorem puts_ordered_merged : ∃ state, run (step markedValue) (State.empty ⟨0,0⟩) mergedPut = some state ∧
    state.history.Pairwise Follows := by
  have guarded : Guarded (step markedValue) (Permitted markedValue) (State.empty ⟨0,0⟩) mergedPut := by
    refine guarded_cons trivial rfl (guarded_cons trivial rfl (guarded_cons trivial rfl (guarded_cons ?_ rfl
      (guarded_cons ?_ rfl (guarded_cons trivial rfl (guarded_cons ?_ rfl (guarded_cons ?_ rfl (guarded_cons ?_ rfl
      (guarded_cons nofun rfl (guarded_cons trivial rfl (guarded_cons trivial rfl (guarded_cons trivial rfl
      (guarded_cons ?_ rfl trivial)))))))))))))
    case refine_3 =>
      rintro _ _ _ _ theirs ⟨⟩ there name field found
      cases Option.some.inj there
      have named : name = title := by
        by_contra other
        have absent : name ∉ (AList.singleton title ⟨5,40,3⟩ : LWWDocument Nat Nat) :=
          fun member => other (List.mem_singleton.mp member)
        exact absurd (AList.lookup_eq_none.mpr absent) (by rw [found]; nofun)
      subst named
      exact .inr ⟨_,_,rfl,.inl (by decide),rfl,fun answered => absurd answered (by decide)⟩
    all_goals
      rintro _ _ _ _ _ here
      cases Option.some.inj here
  exact ⟨_,rfl,puts_ordered guarded rfl⟩

end

end Zveltio.StoreClock
