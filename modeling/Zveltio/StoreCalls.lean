import Zveltio.LocalStore
namespace Zveltio.StoreCalls

open Fields Crdt LocalStore Runs

section
variable {ν : Type u} {ι : Type v}

-- Calls that read in one transaction and write in a later one.
inductive Call (ν : Type u) where
  | put (key : Key) (data : Record FieldName ν)
  | markFailed (opId error : String)
  | applyServerUpdate (key : Key) (data : Record FieldName ν) (serverVersion : Nat)
  | resolveConflict (key : Key) (resolvedData : Record FieldName ν)

-- The same calls between their read and their write, with what the read returned.
inductive Pending (ν : Type u) (ι : Type v) where
  | put (key : Key) (data : Record FieldName ν) (existing : Option (LocalRecord ν ι))
  | markFailed (item : SyncQueueItem ν) (error : String)
  | applyServerUpdate (key : Key) (data : Record FieldName ν) (serverVersion : Nat)
      (existing : Option (LocalRecord ν ι))
  | storeMerged (key : Key) (record : LocalRecord ν ι)
  | resolveConflict (key : Key) (resolvedData : Record FieldName ν) (record : LocalRecord ν ι)

structure State (ν : Type u) (ι : Type v) where
  store : Store ν ι
  pending : List (Pending ν ι)

def State.empty (clock : LamportClock ι) : State ν ι := ⟨.empty clock,[]⟩

-- now and opId are the clock reading and the random id of the write.
inductive Action (ν : Type u) where
  | start (call : Call ν)
  | finish (index now : Nat) (opId : String)
  | delete (key : Key) (now : Nat) (opId : String)
  | markSynced (opId : String) (key : Key) (serverVersion : Nat)
  | applyServerDelete (key : Key)
  | dropSynced (collection : String)

def crdtField : FieldName := ⟨"__crdt",by decide⟩

-- document? reads a value as a document; none stands for a falsy __crdt.
def remoteDoc (document? : ν → Option (LWWDocument ν ι)) (data : Record FieldName ν) : Option (LWWDocument ν ι) :=
  (data.lookup crdtField).bind document?

def newestLamport (doc : LWWDocument ν ι) : Nat :=
  doc.entries.foldl (fun newest entry => max newest entry.2.lamport) 0

def read (store : Store ν ι) : Call ν → Option (Pending ν ι)
  | .put key data => some (.put key data (store.records key))
  | .markFailed opId error => (store.findItem opId).map fun item => .markFailed item error
  | .applyServerUpdate key data serverVersion => some (.applyServerUpdate key data serverVersion (store.records key))
  | .resolveConflict key resolvedData => (store.records key).map (.resolveConflict key resolvedData)

def unconfirmed (record : LocalRecord ν ι) : Prop :=
  record.syncStatus ≠ .synced ∨ record.serverVersion < record.localVersion

instance (record : LocalRecord ν ι) : Decidable (unconfirmed record) :=
  inferInstanceAs (Decidable (_ ∨ _))

def serverRecord (data : Record FieldName ν) (serverVersion now : Nat) (existing : Option (LocalRecord ν ι)) :
    LocalRecord ν ι :=
  { data
    localVersion := existing.elim 0 LocalRecord.localVersion
    serverVersion
    syncStatus := .synced
    updatedAt := now
    deletedAt := none
    conflictData := none
    crdtDoc := existing.bind LocalRecord.crdtDoc }

def mergedRecord (record : LocalRecord ν ι) (merged : LWWDocument ν ι) (serverVersion : Nat) : LocalRecord ν ι :=
  {record with data := fromDocument merged,crdtDoc := some merged,serverVersion,syncStatus := .synced}

def conflictRecord (record : LocalRecord ν ι) (data : Record FieldName ν) (serverVersion : Nat) : LocalRecord ν ι :=
  {record with conflictData := some data,serverVersion,syncStatus := .conflict}

def resolvedRecord (record : LocalRecord ν ι) (resolvedData : Record FieldName ν) : LocalRecord ν ι :=
  {record with data := resolvedData,syncStatus := .pending,localVersion := record.localVersion + 1,conflictData := none}

def resolveConflict (store : Store ν ι) (key : Key) (resolvedData : Record FieldName ν) (record : LocalRecord ν ι)
    (now : Nat) (opId : String) : Store ν ι :=
  ((store.putRecord key (resolvedRecord record resolvedData)).addItem
    (newItem opId key .update resolvedData now)).getD store

theorem putRecord_unsynced (valid : Unsynced (store : Store ν ι))
    (status : store.queued key → record.syncStatus ≠ .synced) : Unsynced (store.putRecord key record) := by
  refine (putRecord_touches store key record).unsynced valid ?_
  intro found here waiting
  have same : record = found := by simpa [Store.putRecord] using here
  exact same ▸ status waiting

theorem putItem_unsynced (valid : Unsynced (store : Store ν ι)) (member : other ∈ store.queue)
    (sameId : other.id = item.id) (sameKey : other.key = item.key) : Unsynced (store.putItem item) := by
  have taken : store.queue.any (fun entry => entry.id == item.id) = true :=
    List.any_eq_true.mpr ⟨other,member,by simpa using sameId⟩
  have equal : store.putItem item =
      {store with queue := store.queue.map fun entry => if entry.id = item.id then item else entry} := if_pos taken
  rw [equal]
  rintro key record found ⟨waiting,within,owner⟩
  refine valid key record found ?_
  obtain ⟨entry,old,replaced⟩ := List.mem_map.mp within
  split at replaced
  · subst replaced
    exact ⟨other,member,sameKey.trans owner⟩
  · subst replaced
    exact ⟨entry,old,owner⟩

theorem markSynced_unsynced (valid : Unsynced (store : Store ν ι))
    (last : ∀ item ∈ store.queue, item.key = key → item.id = opId) :
    Unsynced (store.markSynced opId key serverVersion) := by
  have acked : Unsynced {store with queue := store.queue.filter fun item => item.id ≠ opId} := by
    rintro other record found ⟨waiting,member,owner⟩
    exact valid other record found ⟨waiting,List.mem_of_mem_filter member,owner⟩
  unfold Store.markSynced
  simp only
  split
  · refine putRecord_unsynced acked ?_
    rintro ⟨waiting,member,owner⟩
    obtain ⟨old,other⟩ := List.mem_filter.mp member
    exact absurd (last waiting old owner) (by simpa using other)
  · exact acked

theorem delete_unsynced (valid : Unsynced (store : Store ν ι)) : Unsynced (store.delete key now opId) := by
  unfold Store.delete
  simp only
  split
  · exact putAndQueue_unsynced valid rfl (by simp)
  · rename_i absent
    cases added : store.addItem (newItem opId key .delete ∅ now) with
    | none => exact valid
    | some after =>
      refine (addItem_touches added).unsynced valid ?_
      obtain ⟨_,rfl⟩ := addItem_exact.mp added
      intro record found
      exact absurd (absent.symm.trans found) (by simp)

theorem commitPut_unsynced (valid : Unsynced (store : Store ν ι)) :
    Unsynced (store.commitPut key data existing now opId) := by
  have ticked : Unsynced {store with clock := store.clock.tick} := valid
  exact putAndQueue_unsynced ticked rfl (by simp [newRecord])

theorem resolveConflict_unsynced (valid : Unsynced (store : Store ν ι)) :
    Unsynced (resolveConflict store key resolvedData record now opId) :=
  putAndQueue_unsynced valid rfl (by simp [resolvedRecord])

theorem applyServerDelete_unsynced (valid : Unsynced (store : Store ν ι)) :
    Unsynced (store.applyServerDelete key) := by
  have touches : Touches key store (store.applyServerDelete key) :=
    ⟨fun _ different => Function.update_of_ne different _ _,fun _ _ waiting => waiting⟩
  refine touches.unsynced valid ?_
  intro record found
  simp [Store.applyServerDelete] at found

theorem dropSynced_kept (found : (store : Store ν ι).records key = some record) (status : record.syncStatus ≠ .synced) :
    (store.dropSynced collection).records key = some record := by
  simp [Store.dropSynced,found,status]

theorem dropSynced_unsynced (valid : Unsynced (store : Store ν ι)) : Unsynced (store.dropSynced collection) := by
  intro key record found waiting
  refine valid key record ?_ waiting
  simp only [Store.dropSynced] at found
  split at found
  · exact (Option.filter_eq_some_iff.mp found).1
  · exact found

theorem empty_unsynced (clock : LamportClock ι) : Unsynced (State.empty clock : State ν ι).store := by
  intro key record found
  cases found

variable [LinearOrder ι]

-- applyServerUpdate after its read. A merge advances the clock first and stores
-- the merged record in a write of its own.
def applyServerUpdate (document? : ν → Option (LWWDocument ν ι)) (store : Store ν ι) (key : Key)
    (data : Record FieldName ν) (serverVersion : Nat) (existing : Option (LocalRecord ν ι)) (now : Nat) :
    Store ν ι × Option (Pending ν ι) :=
  match existing with
  | some record =>
    if unconfirmed record then
      match record.crdtDoc,remoteDoc document? data with
      | some mine,some theirs =>
        let merged := mergeLWW mine theirs
        ({store with clock := store.clock.update (newestLamport merged)},
          some (.storeMerged key (mergedRecord record merged serverVersion)))
      | _,_ => (store.putRecord key (conflictRecord record data serverVersion),none)
    else (store.putRecord key (serverRecord data serverVersion now existing),none)
  | none => (store.putRecord key (serverRecord data serverVersion now existing),none)

def write (document? : ν → Option (LWWDocument ν ι)) (store : Store ν ι) (now : Nat) (opId : String) :
    Pending ν ι → Store ν ι × Option (Pending ν ι)
  | .put key data existing => (store.commitPut key data existing now opId,none)
  | .markFailed item error => (store.putItem (failedItem item error now),none)
  | .applyServerUpdate key data serverVersion existing =>
    applyServerUpdate document? store key data serverVersion existing now
  | .storeMerged key record => (store.putRecord key record,none)
  | .resolveConflict key resolvedData record => (resolveConflict store key resolvedData record now opId,none)

def step (document? : ν → Option (LWWDocument ν ι)) (state : State ν ι) : Action ν → Option (State ν ι)
  | .start call => some {state with pending := state.pending ++ (read state.store call).toList}
  | .finish index now opId => (state.pending[index]?).map fun pending =>
    let written := write document? state.store now opId pending
    ⟨written.1,state.pending.eraseIdx index ++ written.2.toList⟩
  | .delete key now opId => some {state with store := state.store.delete key now opId}
  | .markSynced opId key serverVersion => some {state with store := state.store.markSynced opId key serverVersion}
  | .applyServerDelete key => some {state with store := state.store.applyServerDelete key}
  | .dropSynced collection => some {state with store := state.store.dropSynced collection}

-- A write may rely on what its call read only while that is still in place.
def permittedWrite (document? : ν → Option (LWWDocument ν ι)) (store : Store ν ι) : Pending ν ι → Prop
  | .markFailed item _ => ∃ other ∈ store.queue, other.id = item.id ∧ other.key = item.key
  | .applyServerUpdate key data _ existing => store.queued key →
      existing = store.records key ∧
        ∃ record, existing = some record ∧ (record.crdtDoc = none ∨ remoteDoc document? data = none)
  | .storeMerged key _ => ¬store.queued key
  | _ => True

def Permitted (document? : ν → Option (LWWDocument ν ι)) (state : State ν ι) : Action ν → Prop
  | .finish index _ _ => ∀ pending, state.pending[index]? = some pending →
      permittedWrite document? state.store pending
  | .markSynced opId key _ => ∀ item ∈ state.store.queue, item.key = key → item.id = opId
  | _ => True

theorem applyServerUpdate_unsynced (valid : Unsynced (store : Store ν ι))
    (permitted : permittedWrite document? store (.applyServerUpdate key data serverVersion existing)) :
    Unsynced (applyServerUpdate document? store key data serverVersion existing now).1 := by
  have settled : (∀ record, existing = some record → unconfirmed record → False) → ¬store.queued key := by
    intro confirmed waiting
    obtain ⟨current,record,found,_⟩ := permitted waiting
    exact confirmed record found (.inl (valid key record (current.symm.trans found) waiting))
  unfold applyServerUpdate
  split
  · rename_i record
    split
    · split
      · exact valid
      · exact putRecord_unsynced valid fun _ => by simp [conflictRecord]
    · rename_i confirmed
      refine putRecord_unsynced valid fun waiting => absurd waiting (settled ?_)
      rintro _ same
      cases Option.some.inj same
      exact confirmed
  · refine putRecord_unsynced valid fun waiting => absurd waiting (settled ?_)
    simp

theorem write_unsynced (valid : Unsynced (store : Store ν ι)) (permitted : permittedWrite document? store pending) :
    Unsynced (write document? store now opId pending).1 := by
  cases pending with
  | put => exact commitPut_unsynced valid
  | markFailed item error =>
    obtain ⟨other,member,sameId,sameKey⟩ := permitted
    exact putItem_unsynced valid member sameId sameKey
  | applyServerUpdate => exact applyServerUpdate_unsynced valid permitted
  | storeMerged => exact putRecord_unsynced valid fun waiting => absurd waiting permitted
  | resolveConflict => exact resolveConflict_unsynced valid

theorem step_unsynced (document? : ν → Option (LWWDocument ν ι)) :
    Preserved (step document?) (Permitted document?) fun state => Unsynced state.store := by
  intro before action after valid permitted moved
  cases action with
  | start call => cases Option.some.inj moved; exact valid
  | finish index now opId =>
    obtain ⟨pending,found,equal⟩ := Option.map_eq_some_iff.mp moved
    subst equal
    exact write_unsynced valid (permitted pending found)
  | delete => cases Option.some.inj moved; exact delete_unsynced valid
  | markSynced => cases Option.some.inj moved; exact markSynced_unsynced valid permitted
  | applyServerDelete => cases Option.some.inj moved; exact applyServerDelete_unsynced valid
  | dropSynced => cases Option.some.inj moved; exact dropSynced_unsynced valid

-- The action that writes an applyServerUpdate of this record whose data brings no document.
def WritesPlainUpdate (document? : ν → Option (LWWDocument ν ι)) (state : State ν ι) (key : Key) : Action ν → Prop
  | .finish index _ _ => ∃ data serverVersion existing,
      state.pending[index]? = some (.applyServerUpdate key data serverVersion existing) ∧
        remoteDoc document? data = none
  | _ => False

theorem plainUpdate_keeps (valid : Unsynced (state : State ν ι).store) (permitted : Permitted document? state action)
    (plain : WritesPlainUpdate document? state key action) (moved : step document? state action = some after)
    (found : state.store.records key = some record) (waiting : state.store.queued key) :
    ∃ kept, after.store.records key = some kept ∧ kept.data = record.data := by
  cases action with
  | finish index now opId =>
    obtain ⟨data,serverVersion,existing,pending,noDoc⟩ := plain
    obtain ⟨_,same,equal⟩ := Option.map_eq_some_iff.mp moved
    cases Option.some.inj (pending.symm.trans same)
    subst equal
    obtain ⟨current,_⟩ := permitted _ pending waiting
    have unacked : unconfirmed record := .inl (valid key record found waiting)
    rw [found] at current
    subst current
    refine ⟨conflictRecord record data serverVersion,?_,rfl⟩
    simp [write,applyServerUpdate,unacked,noDoc,Store.putRecord]
  | _ => exact absurd plain id

theorem unacknowledged_kept (guarded : Guarded (step document?) (Permitted document?) (State.empty clock) actions)
    (path : run (step document?) (State.empty clock) actions = some (state : State ν ι)) :
    Unsynced state.store ∧ ∀ key record, state.store.records key = some record → state.store.queued key →
      (∀ action after, Permitted document? state action → WritesPlainUpdate document? state key action →
        step document? state action = some after →
          ∃ kept, after.store.records key = some kept ∧ kept.data = record.data) ∧
      ∀ collection, (state.store.dropSynced collection).records key = some record := by
  have valid := run_preserves (step_unsynced document?) (empty_unsynced clock) guarded path
  refine ⟨valid,fun key record found waiting => ⟨?_,?_⟩⟩
  · intro action after permitted plain moved
    exact plainUpdate_keeps valid permitted plain moved found waiting
  · intro collection
    exact dropSynced_kept found (valid key record found waiting)

end

section
-- No value of these runs reads as a document.
def plainValue : Nat → Option (LWWDocument Nat Nat) := fun _ => none

def twoPuts : List (Action Nat) :=
  [.start (.put note (titled 1)),.finish 0 10 "10-a",.start (.put note (titled 2)),.finish 0 11 "11-b"]

-- The server's version is a clock reading in milliseconds, as syncNow passes it.
def firstAcknowledged : List (Action Nat) := twoPuts ++ [.markSynced "10-a" note 1790144009198]

def serverAnswers : List (Action Nat) :=
  [.start (.applyServerUpdate note (titled 1) 1790144009200),.finish 0 12 "12-c"]

theorem unacknowledged_kept_pending : ∃ state, run (step plainValue) (State.empty ⟨0,7⟩) (twoPuts ++ serverAnswers) =
    some state ∧ Unsynced state.store := by
  have guarded : Guarded (step plainValue) (Permitted plainValue) (State.empty ⟨0,7⟩) (twoPuts ++ serverAnswers) := by
    refine guarded_cons trivial rfl (guarded_cons ?_ rfl (guarded_cons trivial rfl (guarded_cons ?_ rfl
      (guarded_cons trivial rfl (guarded_cons ?_ rfl trivial)))))
    · rintro _ ⟨⟩
      trivial
    · rintro _ ⟨⟩
      trivial
    · rintro _ ⟨⟩ _
      exact ⟨rfl,_,rfl,.inr rfl⟩
  exact ⟨_,rfl,(unacknowledged_kept guarded rfl).1⟩

-- The acknowledgement of the first put marks the record synced while the second
-- is queued, and the server's answer then replaces its data.
theorem acknowledged_too_early :
    (∃ state, run (step plainValue) (State.empty ⟨0,7⟩) firstAcknowledged = some state ∧
      ¬Unsynced state.store ∧ (state.store.dropSynced "notes").records note = none) ∧
    ∃ state, run (step plainValue) (State.empty ⟨0,7⟩) (firstAcknowledged ++ serverAnswers) = some state ∧
      state.store.queued note ∧ (state.store.records note).map LocalRecord.data = some (titled 1) := by
  refine ⟨⟨_,rfl,?_,by decide⟩,_,rfl,⟨_,List.mem_singleton.mpr rfl,rfl⟩,rfl⟩
  intro unsynced
  exact unsynced note _ rfl ⟨_,List.mem_singleton.mpr rfl,rfl⟩ rfl

end

end Zveltio.StoreCalls
