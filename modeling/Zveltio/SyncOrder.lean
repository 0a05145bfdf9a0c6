import Zveltio.SyncManager
namespace Zveltio.SyncOrder

open Fields Crdt LocalStore SyncManager Runs

section
variable {ν : Type u} {ι : Type v}

-- Sending what is still queued for the record, in queue order, would bring the
-- server to the local record. replay is partial: an operation the server refuses
-- stops it, and then it stays in the queue.
structure InStep (key : Key) (state : State ν ι) : Prop where
  ids : (state.store.queue.map SyncQueueItem.id).Nodup
  ordered : (ofKey state.store.queue key).Pairwise createdBefore
  distinct : (state.cycle.inFlight.map SyncQueueItem.id).Nodup
  queued : ∀ op ∈ state.cycle.inFlight, op ∈ state.store.queue
  leading : ofKey state.cycle.inFlight key <+: ofKey state.store.queue key
  agrees : ∀ row, replay (state.server key) (ofKey (unsent state) key) = some row →
    SameRow row (localRow state.store key)

@[simp] theorem ofKey_nil (key : Key) : ofKey ([] : List (SyncQueueItem ν)) key = [] := rfl

theorem ofKey_append (first second : List (SyncQueueItem ν)) (key : Key) :
    ofKey (first ++ second) key = ofKey first key ++ ofKey second key := List.filter_append ..

theorem ofKey_cons_own {op : SyncQueueItem ν} (own : op.key = key) (rest : List (SyncQueueItem ν)) :
    ofKey (op::rest) key = op::ofKey rest key := List.filter_cons_of_pos (by simpa using own)

theorem ofKey_cons_other {op : SyncQueueItem ν} (other : op.key ≠ key) (rest : List (SyncQueueItem ν)) :
    ofKey (op::rest) key = ofKey rest key := List.filter_cons_of_neg (by simpa using other)

theorem ofKey_absent {ops : List (SyncQueueItem ν)} (absent : ∀ op ∈ ops, op.key ≠ key) : ofKey ops key = [] :=
  List.filter_eq_nil_iff.mpr fun op member => by simpa using absent op member

theorem mem_ofKey {ops : List (SyncQueueItem ν)} : op ∈ ofKey ops key ↔ op ∈ ops ∧ op.key = key := by
  simp [ofKey]

theorem ofKey_filter (ops : List (SyncQueueItem ν)) (keep : SyncQueueItem ν → Bool) (key : Key) :
    ofKey (ops.filter keep) key = (ofKey ops key).filter keep := by
  simp only [ofKey,List.filter_filter,Bool.and_comm]

theorem ofKey_unsent (state : State ν ι) (key : Key) :
    ofKey (unsent state) key = (ofKey state.store.queue key).filter fun op => !state.cycle.stored op.id :=
  ofKey_filter _ _ _

theorem unique_id {ops : List (SyncQueueItem ν)} (ids : (ops.map SyncQueueItem.id).Nodup) (member : op ∈ ops)
    (other : entry ∈ ops) (equal : entry.id = op.id) : entry = op :=
  List.inj_on_of_nodup_map ids other member equal

theorem remove_head {op : SyncQueueItem ν} (ids : ((op::later).map SyncQueueItem.id).Nodup) :
    (op::later).filter (fun entry => entry.id ≠ op.id) = later := by
  have apart : ∀ entry ∈ later, entry.id ≠ op.id := by
    intro entry member equal
    have fresh := (List.nodup_cons.mp ids).1
    exact fresh (List.mem_map.mpr ⟨entry,member,equal⟩)
  rw [List.filter_cons_of_neg (by simp),List.filter_eq_self]
  intro entry member
  simpa using apart entry member

theorem remove_other {queue : List (SyncQueueItem ν)} (ids : (queue.map SyncQueueItem.id).Nodup) (member : op ∈ queue)
    (other : op.key ≠ key) : (ofKey queue key).filter (fun entry => entry.id ≠ op.id) = ofKey queue key := by
  rw [List.filter_eq_self]
  intro entry within
  obtain ⟨present,own⟩ := mem_ofKey.mp within
  have apart : entry.id ≠ op.id := fun equal => other (unique_id ids member present equal ▸ own)
  simpa using apart

theorem replay_append (row : Row ν) (first second : List (SyncQueueItem ν)) (final : Row ν) :
    replay row (first ++ second) = some final ↔
      ∃ middle, replay row first = some middle ∧ replay middle second = some final := run_append

theorem replay_one (row : Row ν) (op : SyncQueueItem ν) : replay row [op] = replayOne row op := by
  cases found : replayOne row op <;> simp [replay,run,found]

theorem replay_map (change : SyncQueueItem ν → SyncQueueItem ν)
    (alike : ∀ op ∈ ops, ∀ row, replayOne row (change op) = replayOne row op) :
    replay row (ops.map change) = replay row ops := by
  induction ops generalizing row with
  | nil => rfl
  | cons op rest ih =>
    have later : ∀ next, replay next (rest.map change) = replay next rest := fun next =>
      ih fun entry member => alike entry (List.mem_cons_of_mem _ member)
    simp only [replay,List.map_cons,run,alike op (List.mem_cons_self ..)] at later ⊢
    exact congrArg _ (funext later)

-- A local call appends one operation and sets the record; the operation has to
-- bring the server from the old local record to the new one.
theorem InStep.issue {state : State ν ι} {store : Store ν ι} (valid : InStep key state)
    (fresh : ∀ other ∈ state.store.queue, other.id ≠ op.id) (queue : store.queue = state.store.queue ++ [op])
    (place : op.key = key → ∀ other ∈ state.store.queue, other.key = key → createdBefore other op)
    (other : op.key ≠ key → localRow store key = localRow state.store key)
    (own : op.key = key → ∀ old row, SameRow old (localRow state.store key) → replayOne old op = some row →
      SameRow row (localRow store key)) : InStep key {state with store} := by
  have sent : unsent {state with store} = unsent state ++ [op] := by
    have pending : state.cycle.stored op.id = false := by
      cases cycle : state.cycle with
      | settling current accepted serverVersion rest =>
        have member := valid.queued current (by simp [Cycle.inFlight,cycle])
        have apart := fresh current member
        cases accepted <;> simp [Cycle.stored,Ne.symm apart]
      | _ => rfl
    simp [unsent,queue,List.filter_append,pending]
  refine ⟨?_,?_,valid.distinct,?_,?_,?_⟩
  · simp only [queue,List.map_append,List.map_cons,List.map_nil]
    refine List.nodup_append.mpr ⟨valid.ids,List.nodup_singleton _,?_⟩
    intro first old second new
    obtain ⟨entry,member,rfl⟩ := List.mem_map.mp old
    cases List.mem_singleton.mp new
    exact fresh entry member
  · simp only [queue,ofKey_append]
    refine List.pairwise_append.mpr ⟨valid.ordered,List.Pairwise.filter _ (List.pairwise_singleton ..),?_⟩
    intro before old after new
    obtain ⟨member,same⟩ := mem_ofKey.mp old
    obtain ⟨last,mine⟩ := mem_ofKey.mp new
    cases List.mem_singleton.mp last
    exact place mine before member same
  · intro entry member
    rw [queue]
    exact List.mem_append_left _ (valid.queued entry member)
  · simp only [queue,ofKey_append]
    exact valid.leading.trans (List.prefix_append ..)
  · intro row replayed
    rw [sent,ofKey_append,replay_append] at replayed
    obtain ⟨old,before,last⟩ := replayed
    have same := valid.agrees old before
    by_cases mine : op.key = key
    · rw [ofKey_cons_own mine,ofKey_nil,replay_one] at last
      exact own mine old row same last
    · rw [ofKey_cons_other mine,ofKey_nil] at last
      cases Option.some.inj last
      exact (other mine).symm ▸ same

theorem localRow_other (store : Store ν ι) (record : LocalRecord ν ι) (apart : other ≠ key) :
    localRow (store.putRecord key record) other = localRow store other := by
  simp [localRow,Store.get,Store.putRecord,apart]

theorem localRow_live (store : Store ν ι) (key : Key) (live : (record : LocalRecord ν ι).deletedAt = none) :
    localRow (store.putRecord key record) key = some record.data := by
  simp [localRow,Store.get,Store.putRecord,live]

theorem localRow_deleted (store : Store ν ι) (key : Key) (gone : (record : LocalRecord ν ι).deletedAt = some now) :
    localRow (store.putRecord key record) key = none := by
  simp [localRow,Store.get,Store.putRecord,gone]

theorem spread_covers {old data shown : Record FieldName ν} (same : ∀ field, old.lookup field = shown.lookup field)
    (repeats : ∀ field ∈ shown, field ∈ data) (field : FieldName) :
    (spread old data).lookup field = data.lookup field := by
  rw [lookup_spread]
  cases given : data.lookup field with
  | some value => rfl
  | none =>
    have absent : field ∉ shown := fun member => AList.lookup_eq_none.mp given (repeats field member)
    rw [same field,AList.lookup_eq_none.mpr absent]
    rfl

theorem put_effect {store : Store ν ι} (same : SameRow old (localRow store key))
    (repeats : ∀ record, store.get key = some record → ∀ field ∈ record.data, field ∈ data)
    (stored : replayOne old (newItem opId key (if (store.records key).isSome then .update else .create) data now) =
      some row) : SameRow row (some data) := by
  cases existing : store.records key with
  | none =>
    simp only [newItem,existing,replayOne] at stored
    cases old with
    | none =>
      cases Option.some.inj stored
      exact fun _ => rfl
    | some fields => cases stored
  | some record =>
    simp only [newItem,existing,replayOne] at stored
    cases old with
    | none => cases stored
    | some fields =>
      cases Option.some.inj stored
      cases shown : store.get key with
      | none => simp [localRow,shown,SameRow] at same
      | some current =>
        simp only [localRow,shown,Option.map_some,SameRow] at same
        exact spread_covers same (repeats current shown)

theorem put_inStep {state : State ν ι} (valid : InStep key state)
    (permitted : Permitted key state (.put other data now opId)) :
    InStep key {state with store := state.store.put other data now opId} := by
  unfold Store.put Store.commitPut
  simp only
  rcases putAndQueue_cases {state.store with clock := state.store.clock.tick} other
    (newRecord state.store.clock.tick data (state.store.records other) now)
    (newItem opId other (if (state.store.records other).isSome then .update else .create) data now)
    with equal | ⟨fresh,equal⟩
  · rw [equal]
    exact ⟨valid.ids,valid.ordered,valid.distinct,valid.queued,valid.leading,valid.agrees⟩
  rw [equal]
  refine valid.issue fresh rfl ?_ ?_ ?_
  · intro own entry member same
    exact (permitted own).1 entry member same
  · intro apart
    exact localRow_other _ _ (Ne.symm apart)
  · intro own old row same stored
    have owner : other = key := own
    subst owner
    have written := localRow_live {state.store with clock := state.store.clock.tick} other
      (show (newRecord state.store.clock.tick data (state.store.records other) now).deletedAt = none from rfl)
    exact (congrArg (SameRow row) written).mpr (put_effect same (permitted rfl).2 stored)

theorem delete_inStep {state : State ν ι} (valid : InStep key state)
    (permitted : Permitted key state (.delete other now opId)) :
    InStep key {state with store := state.store.delete other now opId} := by
  have refused : ∀ (old row : Row ν), replayOne old (newItem opId other .delete ∅ now) = some row → row = none := by
    intro old row stored
    cases old with
    | none => cases stored
    | some _ => exact (Option.some.inj stored).symm
  unfold Store.delete
  simp only
  split
  · rename_i record _
    rcases putAndQueue_cases state.store other {record with deletedAt := some now,syncStatus := .pending}
      (newItem opId other .delete ∅ now) with equal | ⟨fresh,equal⟩
    · rw [equal]
      exact valid
    rw [equal]
    refine valid.issue fresh rfl permitted ?_ ?_
    · intro apart
      exact localRow_other _ _ (Ne.symm apart)
    · intro own old row _ stored
      have owner : other = key := own
      subst owner
      cases refused old row stored
      have gone := localRow_deleted state.store other
        (show ({record with deletedAt := some now,syncStatus := .pending} : LocalRecord ν ι).deletedAt = some now from rfl)
      exact (congrArg (SameRow none) gone).mpr trivial
  · rename_i absent
    cases added : state.store.addItem (newItem opId other .delete ∅ now) with
    | none => exact valid
    | some after =>
      obtain ⟨fresh,rfl⟩ := addItem_exact.mp added
      refine valid.issue fresh rfl permitted (fun _ => rfl) ?_
      intro own old row _ stored
      have owner : other = key := own
      subst owner
      cases refused old row stored
      have gone : localRow state.store other = none := by simp [localRow,Store.get,absent]
      exact (congrArg (SameRow none) gone).mpr trivial

theorem snapshot_ofKey {store : Store ν ι} (ordered : (ofKey store.queue key).Pairwise createdBefore) :
    ofKey store.getPendingOps key = ofKey store.queue key := by
  have perm : store.getPendingOps.Perm store.queue := List.perm_insertionSort _ _
  have within : (ofKey store.queue key).Sublist store.getPendingOps :=
    List.sublist_insertionSort ordered List.filter_sublist
  have own : (ofKey store.queue key).Sublist (ofKey store.getPendingOps key) := by
    have kept := within.filter fun op => op.key = key
    rwa [show (ofKey store.queue key).filter (fun op => op.key = key) = ofKey store.queue key by simp [ofKey]] at kept
  exact (own.eq_of_length (perm.filter _).length_eq.symm).symm

theorem begin_inStep {state : State ν ι} (valid : InStep key state) (idle : state.cycle = .idle) :
    InStep key {state with cycle := .sending state.store.getPendingOps} := by
  have perm : state.store.getPendingOps.Perm state.store.queue := List.perm_insertionSort _ _
  refine ⟨valid.ids,valid.ordered,?_,?_,?_,?_⟩
  · exact (perm.map _).nodup_iff.mpr valid.ids
  · exact fun op member => perm.mem_iff.mp member
  · exact (snapshot_ofKey valid.ordered).symm ▸ List.prefix_refl _
  · have agrees := valid.agrees
    simp only [unsent,idle,Cycle.stored] at agrees
    exact agrees

theorem InStep.holds {state : State ν ι} (valid : InStep key state) (inFlight : state.cycle.inFlight = ops) :
    (ops.map SyncQueueItem.id).Nodup ∧ (∀ op ∈ ops, op ∈ state.store.queue) ∧
      ofKey ops key <+: ofKey state.store.queue key :=
  inFlight ▸ ⟨valid.distinct,valid.queued,valid.leading⟩

theorem skip_inStep {state : State ν ι} (valid : InStep key state) (cycle : state.cycle = .sending (op::rest))
    (last : op.key = key → ∀ later ∈ rest, later.key ≠ key) : InStep key {state with cycle := .sending rest} := by
  obtain ⟨distinct,queued,leading⟩ := valid.holds (show state.cycle.inFlight = op::rest by rw [cycle]; rfl)
  refine ⟨valid.ids,valid.ordered,(List.nodup_cons.mp distinct).2,?_,?_,?_⟩
  · exact fun entry member => queued entry (List.mem_cons_of_mem _ member)
  · by_cases own : op.key = key
    · exact (ofKey_absent (last own)).symm ▸ List.nil_prefix
    · exact ofKey_cons_other own rest ▸ leading
  · have agrees := valid.agrees
    simp only [unsent,cycle,Cycle.stored] at agrees
    exact agrees

theorem failedSend_inStep {state : State ν ι} (valid : InStep key state) (cycle : state.cycle = .sending (op::rest)) :
    InStep key {state with cycle := .settling op false now rest} := by
  obtain ⟨distinct,queued,leading⟩ := valid.holds (show state.cycle.inFlight = op::rest by rw [cycle]; rfl)
  have agrees := valid.agrees
  simp only [unsent,cycle,Cycle.stored] at agrees
  exact ⟨valid.ids,valid.ordered,distinct,queued,leading,agrees⟩

theorem storedSend_inStep {state : State ν ι} (valid : InStep key state) (cycle : state.cycle = .sending (op::rest))
    (stored : replayOne (state.server op.key) op = some row) :
    InStep key {state with
      server := Function.update state.server op.key row
      cycle := .settling op true now rest} := by
  obtain ⟨distinct,queued,leading⟩ := valid.holds (show state.cycle.inFlight = op::rest by rw [cycle]; rfl)
  refine ⟨valid.ids,valid.ordered,distinct,queued,leading,?_⟩
  have member : op ∈ state.store.queue := queued op (List.mem_cons_self ..)
  have agrees := valid.agrees
  rw [ofKey_unsent] at agrees ⊢
  simp only [cycle,Cycle.stored,Bool.not_false,List.filter_true] at agrees
  have taken : ∀ entry : SyncQueueItem ν, (!(Cycle.settling op true now rest).stored entry.id) = decide (entry.id ≠ op.id) := by
    intro entry
    simp [Cycle.stored]
  simp only [taken]
  by_cases own : op.key = key
  · subst own
    obtain ⟨later,whole⟩ := leading
    rw [ofKey_cons_own rfl,List.cons_append] at whole
    have ids : ((ofKey state.store.queue op.key).map SyncQueueItem.id).Nodup :=
      valid.ids.sublist (List.filter_sublist.map _)
    rw [← whole] at ids agrees ⊢
    rw [remove_head ids,Function.update_self]
    intro final replayed
    refine agrees final ?_
    simp only [replay,run,stored]
    exact replayed
  · rw [remove_other valid.ids member own,Function.update_of_ne (Ne.symm own)]
    exact agrees

theorem localRow_markSynced (store : Store ν ι) (opId : String) (other key : Key) (serverVersion : Nat) :
    localRow (store.markSynced opId other serverVersion) key = localRow store key := by
  unfold Store.markSynced
  simp only
  split
  · rename_i record found
    by_cases equal : key = other
    · subst equal
      cases gone : record.deletedAt <;> simp_all [localRow,Store.get,Store.putRecord,Option.filter]
    · exact localRow_other _ _ equal
  · rfl

theorem queue_markSynced (store : Store ν ι) (opId : String) (other : Key) (serverVersion : Nat) :
    (store.markSynced opId other serverVersion).queue = store.queue.filter fun op => op.id ≠ opId := by
  unfold Store.markSynced
  simp only
  split <;> rfl

theorem acked_inStep {state : State ν ι} (valid : InStep key state)
    (cycle : state.cycle = .settling op true serverVersion rest) :
    InStep key {state with store := state.store.markSynced op.id op.key serverVersion,cycle := .sending rest} := by
  obtain ⟨distinct,queued,leading⟩ := valid.holds (show state.cycle.inFlight = op::rest by rw [cycle]; rfl)
  have fresh := (List.nodup_cons.mp distinct).1
  have member : op ∈ state.store.queue := queued op (List.mem_cons_self ..)
  have queue := queue_markSynced state.store op.id op.key serverVersion
  refine ⟨?_,?_,(List.nodup_cons.mp distinct).2,?_,?_,?_⟩
  · rw [queue]
    exact valid.ids.sublist (List.filter_sublist.map _)
  · rw [queue,ofKey_filter]
    exact valid.ordered.filter _
  · intro entry within
    rw [queue]
    refine List.mem_filter.mpr ⟨queued entry (List.mem_cons_of_mem _ within),?_⟩
    have apart : entry.id ≠ op.id := fun equal => fresh (List.mem_map.mpr ⟨entry,within,equal⟩)
    simpa using apart
  · rw [queue,ofKey_filter]
    by_cases own : op.key = key
    · obtain ⟨later,whole⟩ := leading
      rw [ofKey_cons_own own,List.cons_append] at whole
      have ids : ((ofKey state.store.queue key).map SyncQueueItem.id).Nodup :=
        valid.ids.sublist (List.filter_sublist.map _)
      rw [← whole] at ids ⊢
      rw [remove_head ids]
      exact List.prefix_append ..
    · rw [remove_other valid.ids member own]
      exact ofKey_cons_other own rest ▸ leading
  · have agrees := valid.agrees
    simp only [unsent,cycle,Cycle.stored] at agrees
    simp only [unsent,queue,Cycle.stored,Bool.not_false,List.filter_true,localRow_markSynced]
    simpa using agrees

theorem markFailed_exact {store : Store ν ι} (ids : (store.queue.map SyncQueueItem.id).Nodup) (member : op ∈ store.queue) :
    store.markFailed op.id error now =
      {store with queue := store.queue.map fun entry => if entry.id = op.id then failedItem op error now else entry} := by
  have found : store.findItem op.id = some op := by
    cases search : store.findItem op.id with
    | none => exact absurd (List.find?_eq_none.mp search op member) (by simp)
    | some entry =>
      have equal : entry.id = op.id := by simpa using List.find?_some search
      rw [unique_id ids member (List.mem_of_find?_eq_some search) equal]
  have taken : store.queue.any (fun entry => entry.id == op.id) = true :=
    List.any_eq_true.mpr ⟨op,member,by simp⟩
  simp only [Store.markFailed,found,Store.putItem]
  exact if_pos taken

theorem failed_inStep {state : State ν ι} (valid : InStep key state)
    (cycle : state.cycle = .settling op false serverVersion rest)
    (last : op.key = key → ∀ later ∈ rest, later.key ≠ key) :
    InStep key {state with store := state.store.markFailed op.id error now,cycle := .sending rest} := by
  obtain ⟨distinct,queued,leading⟩ := valid.holds (show state.cycle.inFlight = op::rest by rw [cycle]; rfl)
  have fresh := (List.nodup_cons.mp distinct).1
  have member : op ∈ state.store.queue := queued op (List.mem_cons_self ..)
  rw [markFailed_exact valid.ids member]
  let change := fun entry : SyncQueueItem ν => if entry.id = op.id then failedItem op error now else entry
  have same : ∀ entry ∈ state.store.queue, change entry = entry ∨ entry = op ∧ change entry = failedItem op error now := by
    intro entry within
    by_cases equal : entry.id = op.id
    · exact .inr ⟨unique_id valid.ids member within equal,if_pos equal⟩
    · exact .inl (if_neg equal)
  have place : ∀ entry ∈ state.store.queue, (change entry).createdAt = entry.createdAt ∧ (change entry).id = entry.id := by
    intro entry within
    rcases same entry within with equal | ⟨rfl,equal⟩ <;> rw [equal] <;> exact ⟨rfl,rfl⟩
  have owned : ofKey (state.store.queue.map change) key = (ofKey state.store.queue key).map change := by
    unfold ofKey
    rw [List.filter_map]
    refine congrArg _ (List.filter_congr ?_)
    intro entry within
    rcases same entry within with equal | ⟨rfl,equal⟩
    · simp [equal]
    · simp [equal,failedItem]
  refine ⟨?_,?_,(List.nodup_cons.mp distinct).2,?_,?_,?_⟩
  · have ids : (state.store.queue.map change).map SyncQueueItem.id = state.store.queue.map SyncQueueItem.id := by
      rw [List.map_map]
      exact List.map_congr_left fun entry within => (place entry within).2
    exact ids.symm ▸ valid.ids
  · change (ofKey (state.store.queue.map change) key).Pairwise createdBefore
    rw [owned,List.pairwise_map]
    refine valid.ordered.imp_of_mem ?_
    intro before after first second order
    obtain ⟨firstTime,firstId⟩ := place before (mem_ofKey.mp first).1
    obtain ⟨secondTime,secondId⟩ := place after (mem_ofKey.mp second).1
    unfold createdBefore at order ⊢
    rwa [firstTime,firstId,secondTime,secondId]
  · intro entry within
    refine List.mem_map.mpr ⟨entry,queued entry (List.mem_cons_of_mem _ within),if_neg ?_⟩
    exact fun equal => fresh (List.mem_map.mpr ⟨entry,within,equal⟩)
  · change ofKey rest key <+: ofKey (state.store.queue.map change) key
    by_cases own : op.key = key
    · exact (ofKey_absent (last own)).symm ▸ List.nil_prefix
    · have untouched : (ofKey state.store.queue key).map change = ofKey state.store.queue key := by
        refine (List.map_congr_left fun entry within => ?_).trans (List.map_id _)
        obtain ⟨present,mine⟩ := mem_ofKey.mp within
        rcases same entry present with equal | ⟨rfl,_⟩
        · exact equal
        · exact absurd mine own
      rw [owned,untouched]
      exact ofKey_cons_other own rest ▸ leading
  · have agrees := valid.agrees
    simp only [unsent,cycle,Cycle.stored,Bool.not_false,List.filter_true] at agrees
    simp only [unsent,Cycle.stored,Bool.not_false,List.filter_true]
    change ∀ row, replay (state.server key) (ofKey (state.store.queue.map change) key) = some row → _
    rw [owned,replay_map]
    · exact agrees
    · intro entry within row
      rcases same entry (mem_ofKey.mp within).1 with equal | ⟨rfl,equal⟩
      · rw [equal]
      · rw [equal]
        rfl

theorem send_inStep {state : State ν ι} (valid : InStep key state) (cycle : state.cycle = .sending (op::rest))
    (moved : send state op rest delivered now = some after) : InStep key after := by
  unfold send at moved
  simp only [request] at moved
  split at moved
  · cases answered : answer (state.server op.key) op.operation op.payload with
    | stored row =>
      rw [answered] at moved
      cases Option.some.inj moved
      exact storedSend_inStep valid cycle (by simp [replayOne,answered])
    | missing =>
      rw [answered] at moved
      cases Option.some.inj moved
      exact failedSend_inStep valid cycle
    | «exists» =>
      rw [answered] at moved
      cases moved
  · cases Option.some.inj moved
    exact failedSend_inStep valid cycle

theorem step_inStep (maxRetries : Nat) (key : Key) :
    Preserved (step maxRetries) (Permitted key) (InStep key : State ν ι → Prop) := by
  intro before action after valid permitted moved
  cases action with
  | put => cases Option.some.inj moved; exact put_inStep valid permitted
  | delete => cases Option.some.inj moved; exact delete_inStep valid permitted
  | begin =>
    simp only [step] at moved
    split at moved
    · rename_i idle
      cases Option.some.inj moved
      exact begin_inStep valid idle
    · cases moved
  | skip =>
    simp only [step] at moved
    split at moved
    · rename_i op rest cycle
      split at moved
      · cases Option.some.inj moved
        exact skip_inStep valid cycle (permitted op rest cycle)
      · cases moved
    · cases moved
  | send delivered now =>
    simp only [step] at moved
    split at moved
    · rename_i op rest cycle
      split at moved
      · cases moved
      · exact send_inStep valid cycle moved
    · cases moved
  | settle error now =>
    simp only [step] at moved
    split at moved
    · rename_i op serverVersion rest cycle
      cases Option.some.inj moved
      exact acked_inStep valid cycle
    · rename_i op serverVersion rest cycle
      cases Option.some.inj moved
      exact failed_inStep valid cycle (permitted op serverVersion rest cycle)
    · cases moved
  | finish =>
    simp only [step] at moved
    split at moved
    · rename_i cycle
      cases Option.some.inj moved
      have agrees := valid.agrees
      simp only [unsent,cycle,Cycle.stored] at agrees
      exact ⟨valid.ids,valid.ordered,List.nodup_nil,by simp [Cycle.inFlight],List.nil_prefix,agrees⟩
    · cases moved
  | otherWriter other row =>
    cases Option.some.inj moved
    refine ⟨valid.ids,valid.ordered,valid.distinct,valid.queued,valid.leading,?_⟩
    have unchanged : Function.update before.server other row key = before.server key :=
      Function.update_of_ne (Ne.symm permitted) _ _
    simp only [unchanged]
    exact valid.agrees

-- The record as it is before any of its operations: nothing queued, no cycle
-- running, the server and the store agree on it.
structure Starts (key : Key) (state : State ν ι) : Prop where
  ids : (state.store.queue.map SyncQueueItem.id).Nodup
  idle : state.cycle = .idle
  empty : ¬state.store.queued key
  agrees : SameRow (state.server key) (localRow state.store key)

theorem ofKey_unqueued {state : State ν ι} (empty : ¬state.store.queued key) : ofKey state.store.queue key = [] :=
  ofKey_absent fun op member own => empty ⟨op,member,own⟩

theorem Starts.inStep {state : State ν ι} (start : Starts key state) : InStep key state := by
  have none := ofKey_unqueued start.empty
  refine ⟨start.ids,none ▸ .nil,?_,?_,?_,?_⟩
  · simp [start.idle,Cycle.inFlight]
  · simp [start.idle,Cycle.inFlight]
  · simp [start.idle,Cycle.inFlight]
  · intro row replayed
    rw [ofKey_unsent,none] at replayed
    cases Option.some.inj replayed
    exact start.agrees

theorem drained_record_agrees {initial state : State ν ι} (start : Starts key initial)
    (guarded : Guarded (step maxRetries) (Permitted key) initial actions)
    (path : run (step maxRetries) initial actions = some state) :
    (¬state.store.queued key → SameRow (state.server key) (localRow state.store key)) ∧
    ∀ op rest, state.cycle = .sending (op::rest) → op.key = key → (ofKey state.store.queue key).head? = some op := by
  have valid := run_preserves (step_inStep maxRetries key) start.inStep guarded path
  constructor
  · intro empty
    refine valid.agrees _ ?_
    rw [ofKey_unsent,ofKey_unqueued empty]
    rfl
  · intro op rest cycle own
    obtain ⟨_,_,later,whole⟩ := valid.holds (show state.cycle.inFlight = op::rest by rw [cycle]; rfl)
    rw [← whole,ofKey_cons_own own]
    rfl

end

section

-- A record synced earlier, with one field.
def syncedNote : State Nat Nat :=
  { store := ⟨fun key => if key = note then some ⟨titled 0,1,1,.synced,5,none,none,none⟩ else none,[],⟨0,7⟩⟩
    server := fun key => if key = note then some (titled 0) else none
    cycle := .idle }

theorem syncedNote_starts : Starts note syncedNote :=
  ⟨List.nodup_nil,rfl,fun ⟨_,member,_⟩ => (nomatch member),fun _ => rfl⟩

def twoPuts : List (Action Nat) := [.put note (titled 1) 10 "10-a",.put note (titled 2) 11 "11-b"]

def sendOnce (delivered : Bool) : List (Action Nat) := [.send delivered 20,.settle "Failed to fetch" 21]

theorem drained_record_agrees_once : ∃ state,
    run (step 5) syncedNote ([.put note (titled 1) 10 "10-a",.begin] ++ sendOnce false ++ [.finish,.begin] ++
      sendOnce true) = some state ∧ SameRow (state.server note) (localRow state.store note) := by
  have guarded : Guarded (step 5) (Permitted note) syncedNote ([.put note (titled 1) 10 "10-a",.begin] ++
      sendOnce false ++ [.finish,.begin] ++ sendOnce true) := by
    refine guarded_cons ?_ rfl (guarded_cons trivial rfl (guarded_cons trivial rfl (guarded_cons ?_ rfl
      (guarded_cons trivial rfl (guarded_cons trivial rfl (guarded_cons trivial rfl (guarded_cons ?_ rfl trivial)))))))
    · intro _
      refine ⟨fun _ member => (nomatch member),?_⟩
      rintro _ ⟨⟩ field member
      exact member
    · rintro _ _ _ ⟨⟩ _ _ member
      cases member
    · rintro _ _ _ ⟨⟩
  refine ⟨_,rfl,(drained_record_agrees syncedNote_starts guarded rfl).1 ?_⟩
  rintro ⟨_,member,_⟩
  cases member

-- The first send fails, the second put goes out in the same cycle, and the next
-- cycle sends the first one over it.
theorem stale_put_sent_last : ∃ state,
    run (step 5) syncedNote (twoPuts ++ [.begin] ++ sendOnce false ++ sendOnce true ++ [.finish,.begin] ++
      sendOnce true ++ [.finish]) = some state ∧
    ¬state.store.queued note ∧ ¬SameRow (state.server note) (localRow state.store note) := by
  refine ⟨_,rfl,?_,?_⟩
  · rintro ⟨_,member,_⟩
    cases member
  · intro same
    have values : some 1 = some 2 := same title
    cases values

end

end Zveltio.SyncOrder
