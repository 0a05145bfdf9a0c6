import Zveltio.Crdt
import Zveltio.Runs
import Mathlib.Data.List.Sort
namespace Zveltio.LocalStore

open Fields Crdt

inductive SyncStatus where
  | synced
  | pending
  | conflict
  deriving DecidableEq

inductive Operation where
  | create
  | update
  | delete
  deriving DecidableEq

-- The key path [collection,id] of the records store.
structure Key where
  collection : String
  id : String
  deriving DecidableEq

-- id and collection of a record are its key and are not repeated in it.
structure LocalRecord (ν : Type u) (ι : Type v) where
  data : Record FieldName ν
  localVersion : Nat
  serverVersion : Nat
  syncStatus : SyncStatus
  updatedAt : Nat
  deletedAt : Option Nat
  conflictData : Option (Record FieldName ν)
  crdtDoc : Option (LWWDocument ν ι)
  deriving DecidableEq

structure SyncQueueItem (ν : Type u) where
  id : String
  key : Key
  operation : Operation
  payload : Record FieldName ν
  attempts : Nat
  createdAt : Nat
  lastAttemptAt : Option Nat
  error : Option String
  deriving DecidableEq

structure Store (ν : Type u) (ι : Type v) where
  records : Key → Option (LocalRecord ν ι)
  queue : List (SyncQueueItem ν)
  clock : LamportClock ι

def Store.empty (clock : LamportClock ι) : Store ν ι := ⟨fun _ => none,[],clock⟩

section
variable {ν : Type u} {ι : Type v}

def Store.queued (store : Store ν ι) (key : Key) : Prop := ∃ item ∈ store.queue, item.key = key

def Store.putRecord (store : Store ν ι) (key : Key) (record : LocalRecord ν ι) : Store ν ι :=
  {store with records := Function.update store.records key (some record)}

-- Adding under an id that is taken fails, and with it the whole transaction.
def Store.addItem (store : Store ν ι) (item : SyncQueueItem ν) : Option (Store ν ι) :=
  if store.queue.any (fun other => other.id == item.id) then none else some {store with queue := store.queue ++ [item]}

def Store.putItem (store : Store ν ι) (item : SyncQueueItem ν) : Store ν ι :=
  if store.queue.any (fun other => other.id == item.id) then
    {store with queue := store.queue.map fun other => if other.id = item.id then item else other}
  else {store with queue := store.queue ++ [item]}

def newItem (opId : String) (key : Key) (operation : Operation) (payload : Record FieldName ν) (now : Nat) :
    SyncQueueItem ν :=
  ⟨opId,key,operation,payload,0,now,none,none⟩

-- One transaction over both stores: a refused add leaves neither write behind.
def Store.putAndQueue (store : Store ν ι) (key : Key) (record : LocalRecord ν ι) (item : SyncQueueItem ν) : Store ν ι :=
  ((store.putRecord key record).addItem item).getD store

def newRecord (clock : LamportClock ι) (data : Record FieldName ν) (existing : Option (LocalRecord ν ι)) (now : Nat) :
    LocalRecord ν ι :=
  { data
    localVersion := existing.elim 0 LocalRecord.localVersion + 1
    serverVersion := existing.elim 0 LocalRecord.serverVersion
    syncStatus := .pending
    updatedAt := now
    deletedAt := none
    conflictData := none
    crdtDoc := some (toDocument data clock.value clock.clientId) }

-- put after its first read; existing is what that read returned. The clock has
-- ticked even when the transaction is aborted.
def Store.commitPut (store : Store ν ι) (key : Key) (data : Record FieldName ν)
    (existing : Option (LocalRecord ν ι)) (now : Nat) (opId : String) : Store ν ι :=
  let ticked := {store with clock := store.clock.tick}
  ticked.putAndQueue key (newRecord ticked.clock data existing now)
    (newItem opId key (if existing.isSome then .update else .create) data now)

def Store.put (store : Store ν ι) (key : Key) (data : Record FieldName ν) (now : Nat) (opId : String) : Store ν ι :=
  store.commitPut key data (store.records key) now opId

-- Date.now() is positive, so deletedAt is truthy once it is set.
def Store.get (store : Store ν ι) (key : Key) : Option (LocalRecord ν ι) :=
  (store.records key).filter fun record => record.deletedAt.isNone

def Store.delete (store : Store ν ι) (key : Key) (now : Nat) (opId : String) : Store ν ι :=
  let item := newItem opId key .delete ∅ now
  match store.records key with
  | some record => store.putAndQueue key {record with deletedAt := some now,syncStatus := .pending} item
  | none => (store.addItem item).getD store

-- The order of the by-created index: equal keys stand in the order of their ids.
def createdBefore (item other : SyncQueueItem ν) : Prop :=
  item.createdAt < other.createdAt ∨ (item.createdAt = other.createdAt ∧ item.id ≤ other.id)

instance : DecidableRel (@createdBefore ν) :=
  fun _ _ => inferInstanceAs (Decidable (_ ∨ _))

def Store.getPendingOps (store : Store ν ι) : List (SyncQueueItem ν) := store.queue.insertionSort createdBefore

def Store.markSynced (store : Store ν ι) (opId : String) (key : Key) (serverVersion : Nat) : Store ν ι :=
  let acked : Store ν ι := {store with queue := store.queue.filter fun item => item.id ≠ opId}
  match acked.records key with
  | some record => acked.putRecord key {record with serverVersion,syncStatus := .synced}
  | none => acked

def failedItem (item : SyncQueueItem ν) (error : String) (now : Nat) : SyncQueueItem ν :=
  {item with attempts := item.attempts + 1,lastAttemptAt := some now,error := some error}

def Store.findItem (store : Store ν ι) (opId : String) : Option (SyncQueueItem ν) :=
  store.queue.find? fun item => item.id == opId

def Store.markFailed (store : Store ν ι) (opId error : String) (now : Nat) : Store ν ι :=
  match store.findItem opId with
  | some item => store.putItem (failedItem item error now)
  | none => store

def Store.applyServerDelete (store : Store ν ι) (key : Key) : Store ν ι :=
  {store with records := Function.update store.records key none}

def Store.dropSynced (store : Store ν ι) (collection : String) : Store ν ι :=
  {store with records := fun key =>
    if key.collection = collection then (store.records key).filter fun record => record.syncStatus ≠ .synced
    else store.records key}

-- A record with an operation the server has not acknowledged is not synced.
def Unsynced (store : Store ν ι) : Prop :=
  ∀ key record, store.records key = some record → store.queued key → record.syncStatus ≠ .synced

-- One operation looks at one key; the others keep their record and gain no item.
structure Touches (key : Key) (before after : Store ν ι) : Prop where
  records : ∀ other, other ≠ key → after.records other = before.records other
  queued : ∀ other, other ≠ key → after.queued other → before.queued other

theorem Touches.unsynced (touches : Touches key before after) (valid : Unsynced (before : Store ν ι))
    (here : ∀ record, after.records key = some record → after.queued key → record.syncStatus ≠ .synced) :
    Unsynced after := by
  intro other record found waiting
  by_cases equal : other = key
  · subst equal
    exact here record found waiting
  · exact valid other record ((touches.records other equal).symm.trans found) (touches.queued other equal waiting)

theorem putRecord_touches (store : Store ν ι) (key : Key) (record : LocalRecord ν ι) :
    Touches key store (store.putRecord key record) :=
  ⟨fun _ other => Function.update_of_ne other _ _,fun _ _ waiting => waiting⟩

theorem Touches.trans (first : Touches key before middle) (second : Touches key middle (after : Store ν ι)) :
    Touches key before after :=
  ⟨fun other different => (second.records other different).trans (first.records other different),
    fun other different waiting => first.queued other different (second.queued other different waiting)⟩

theorem addItem_exact : (store : Store ν ι).addItem item = some after ↔
    (∀ other ∈ store.queue, other.id ≠ item.id) ∧ after = {store with queue := store.queue ++ [item]} := by
  unfold Store.addItem
  split
  · rename_i taken
    obtain ⟨other,member,equal⟩ := List.any_eq_true.mp taken
    simp only [reduceCtorEq,false_iff]
    rintro ⟨fresh,_⟩
    exact fresh other member (by simpa using equal)
  · rename_i free
    have fresh : ∀ other ∈ store.queue, other.id ≠ item.id := by
      intro other member equal
      exact free (List.any_eq_true.mpr ⟨other,member,by simpa using equal⟩)
    simp only [Option.some.injEq]
    exact ⟨fun equal => ⟨fresh,equal.symm⟩,fun facts => facts.2.symm⟩

theorem addItem_touches (added : (store : Store ν ι).addItem item = some after) : Touches item.key store after := by
  obtain ⟨_,rfl⟩ := addItem_exact.mp added
  refine ⟨fun _ _ => rfl,?_⟩
  rintro other different ⟨waiting,member,equal⟩
  rcases List.mem_append.mp member with old | new
  · exact ⟨waiting,old,equal⟩
  · cases List.mem_singleton.mp new
    exact absurd equal.symm different

theorem putAndQueue_fresh (fresh : ∀ other ∈ (store : Store ν ι).queue, other.id ≠ item.id) :
    store.putAndQueue key record item = {store.putRecord key record with queue := store.queue ++ [item]} := by
  have added : (store.putRecord key record).addItem item =
      some {store.putRecord key record with queue := store.queue ++ [item]} := addItem_exact.mpr ⟨fresh,rfl⟩
  simp only [Store.putAndQueue,added]
  rfl

theorem putAndQueue_cases (store : Store ν ι) (key : Key) (record : LocalRecord ν ι) (item : SyncQueueItem ν) :
    store.putAndQueue key record item = store ∨
      (∀ other ∈ store.queue, other.id ≠ item.id) ∧ store.putAndQueue key record item =
        {store.putRecord key record with queue := store.queue ++ [item]} := by
  cases added : (store.putRecord key record).addItem item with
  | none => exact .inl (by simp [Store.putAndQueue,added])
  | some after =>
    obtain ⟨fresh,rfl⟩ := addItem_exact.mp added
    exact .inr ⟨fresh,putAndQueue_fresh fresh⟩

theorem putAndQueue_unsynced (valid : Unsynced (store : Store ν ι)) (own : item.key = key)
    (status : record.syncStatus ≠ .synced) : Unsynced (store.putAndQueue key record item) := by
  subst key
  rcases putAndQueue_cases store item.key record item with equal | ⟨fresh,equal⟩
  · exact equal.symm ▸ valid
  · rw [equal]
    have added : (store.putRecord item.key record).addItem item =
        some {store.putRecord item.key record with queue := store.queue ++ [item]} := addItem_exact.mpr ⟨fresh,rfl⟩
    refine ((putRecord_touches store item.key record).trans (addItem_touches added)).unsynced valid ?_
    intro found here _
    have same : record = found := by simpa [Store.putRecord] using here
    exact same ▸ status

end

def title : FieldName := ⟨"title",by decide⟩

def note : Key := ⟨"notes","n1"⟩

def titled (value : Nat) : Record FieldName Nat := AList.singleton title value

end Zveltio.LocalStore
