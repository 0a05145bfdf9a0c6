import Zveltio.StoreCalls
namespace Zveltio.StoreDocuments

open Fields Crdt LocalStore StoreCalls Runs

section
variable {ν : Type u} {ι : Type v}

def Describes (doc : LWWDocument ν ι) (data : Record FieldName ν) : Prop :=
  ∀ name, (fromDocument doc).lookup name = data.lookup name

def Described (record : LocalRecord ν ι) : Prop := ∀ doc, record.crdtDoc = some doc → Describes doc record.data

def Faithful (store : Store ν ι) : Prop := ∀ key record, store.records key = some record → Described record

def heldDescribed : Pending ν ι → Prop
  | .applyServerUpdate _ _ _ existing => ∀ record, existing = some record → Described record
  | .storeMerged _ record => Described record
  | _ => True

structure Consistent (state : State ν ι) : Prop where
  faithful : Faithful state.store
  held : ∀ pending ∈ state.pending, heldDescribed pending

-- The two writes that replace data and leave the document as it was.
def keepsDocument (store : Store ν ι) (opId : String) : Pending ν ι → Prop
  | .applyServerUpdate _ data _ (some record) =>
      unconfirmed record ∨ ∀ doc, record.crdtDoc = some doc → Describes doc data
  | .resolveConflict _ resolvedData record =>
      (∃ item ∈ store.queue, item.id = opId) ∨ ∀ doc, record.crdtDoc = some doc → Describes doc resolvedData
  | _ => True

def KeepsDocument (state : State ν ι) : Action ν → Prop
  | .finish index _ opId => ∀ pending, state.pending[index]? = some pending → keepsDocument state.store opId pending
  | _ => True

theorem describes_toDocument (data : Record FieldName ν) (lamport : Nat) (clientId : ι) :
    Describes (toDocument data lamport clientId) data := by
  intro name
  rw [lookup_fromDocument,lookup_toDocument]
  cases data.lookup name <;> rfl

theorem newRecord_described (clock : LamportClock ι) (data : Record FieldName ν) (existing : Option (LocalRecord ν ι))
    (now : Nat) : Described (newRecord clock data existing now) := by
  intro doc same
  cases Option.some.inj same
  exact describes_toDocument data clock.value clock.clientId

theorem empty_consistent (clock : LamportClock ι) : Consistent (State.empty clock : State ν ι) := by
  refine ⟨?_,?_⟩
  · intro key record found
    cases found
  · intro pending member
    cases member

theorem putRecord_faithful (faithful : Faithful (store : Store ν ι)) (described : Described record) :
    Faithful (store.putRecord key record) := by
  intro other found here
  by_cases equal : other = key
  · subst equal
    have same : record = found := by simpa [Store.putRecord] using here
    exact same ▸ described
  · exact faithful other found ((Function.update_of_ne equal _ _).symm.trans here)

theorem putAndQueue_faithful (faithful : Faithful (store : Store ν ι)) (described : Described record) :
    Faithful (store.putAndQueue key record item) := by
  rcases putAndQueue_cases store key record item with equal | ⟨_,equal⟩
  · exact equal.symm ▸ faithful
  · rw [equal]
    exact putRecord_faithful faithful described

theorem delete_faithful (faithful : Faithful (store : Store ν ι)) : Faithful (store.delete key now opId) := by
  unfold Store.delete
  simp only
  split
  · rename_i record found
    exact putAndQueue_faithful faithful (faithful key record found)
  · cases added : store.addItem (newItem opId key .delete ∅ now) with
    | none => exact faithful
    | some after =>
      obtain ⟨_,rfl⟩ := addItem_exact.mp added
      exact faithful

theorem markSynced_faithful (faithful : Faithful (store : Store ν ι)) :
    Faithful (store.markSynced opId key serverVersion) := by
  unfold Store.markSynced
  simp only
  split
  · rename_i record found
    exact putRecord_faithful faithful (faithful key record found)
  · exact faithful

theorem putItem_faithful (faithful : Faithful (store : Store ν ι)) : Faithful (store.putItem item) := by
  unfold Store.putItem
  split <;> exact faithful

theorem applyServerDelete_faithful (faithful : Faithful (store : Store ν ι)) : Faithful (store.applyServerDelete key) := by
  intro other record found
  by_cases equal : other = key
  · subst equal
    simp [Store.applyServerDelete] at found
  · exact faithful other record ((Function.update_of_ne equal _ _).symm.trans found)

theorem dropSynced_faithful (faithful : Faithful (store : Store ν ι)) : Faithful (store.dropSynced collection) := by
  intro key record found
  simp only [Store.dropSynced] at found
  split at found
  · exact faithful key record (Option.filter_eq_some_iff.mp found).1
  · exact faithful key record found

theorem read_held (faithful : Faithful (store : Store ν ι)) (call : Call ν) :
    ∀ pending ∈ (StoreCalls.read store call).toList, heldDescribed pending := by
  intro pending member
  cases call with
  | put => cases List.mem_singleton.mp member; trivial
  | markFailed opId =>
    obtain ⟨_,_,equal⟩ := Option.map_eq_some_iff.mp (Option.mem_toList.mp member)
    subst equal
    trivial
  | applyServerUpdate key => cases List.mem_singleton.mp member; exact faithful key
  | resolveConflict key =>
    obtain ⟨_,_,equal⟩ := Option.map_eq_some_iff.mp (Option.mem_toList.mp member)
    subst equal
    trivial

theorem resolveConflict_faithful (faithful : Faithful (store : Store ν ι))
    (keeps : keepsDocument store opId (.resolveConflict key resolvedData record)) :
    Faithful (resolveConflict store key resolvedData record now opId) := by
  have whole : resolveConflict store key resolvedData record now opId = store.putAndQueue key
      (resolvedRecord record resolvedData) (newItem opId key .update resolvedData now) := rfl
  rw [whole]
  rcases keeps with ⟨item,member,taken⟩ | described
  · rcases putAndQueue_cases store key (resolvedRecord record resolvedData)
      (newItem opId key .update resolvedData now) with equal | ⟨fresh,_⟩
    · exact equal.symm ▸ faithful
    · exact absurd taken (fresh item member)
  · exact putAndQueue_faithful faithful described

theorem resolveConflict_shown (faithful : Faithful (resolveConflict (store : Store ν ι) key resolvedData record now opId))
    (fresh : ∀ item ∈ store.queue, item.id ≠ opId) (carried : record.crdtDoc = some doc) :
    Describes doc resolvedData := by
  have whole : resolveConflict store key resolvedData record now opId =
      {store.putRecord key (resolvedRecord record resolvedData) with
        queue := store.queue ++ [newItem opId key .update resolvedData now]} := putAndQueue_fresh fresh
  rw [whole] at faithful
  exact faithful key _ (Function.update_self ..) doc carried

variable [LinearOrder ι]

theorem applyServerUpdate_consistent (faithful : Faithful (store : Store ν ι))
    (held : heldDescribed (.applyServerUpdate key data serverVersion existing))
    (keeps : keepsDocument store opId (.applyServerUpdate key data serverVersion existing)) :
    Faithful (applyServerUpdate document? store key data serverVersion existing now).1 ∧
      ∀ pending ∈ (applyServerUpdate document? store key data serverVersion existing now).2.toList,
        heldDescribed pending := by
  cases existing with
  | none =>
    refine ⟨putRecord_faithful faithful ?_,by simp [applyServerUpdate]⟩
    intro doc absent
    cases absent
  | some record =>
    by_cases ahead : unconfirmed record
    · simp only [applyServerUpdate,if_pos ahead]
      split
      · refine ⟨faithful,?_⟩
        simp only [Option.toList_some,List.mem_singleton,forall_eq]
        intro doc same
        cases Option.some.inj same
        exact fun _ => rfl
      · exact ⟨putRecord_faithful faithful (held record rfl),by simp⟩
    · simp only [applyServerUpdate,if_neg ahead]
      exact ⟨putRecord_faithful faithful (keeps.resolve_left ahead),by simp⟩

theorem write_consistent (document? : ν → Option (LWWDocument ν ι)) (now : Nat) (faithful : Faithful (store : Store ν ι))
    (held : heldDescribed pending) (keeps : keepsDocument store opId pending) :
    Faithful (write document? store now opId pending).1 ∧
      ∀ later ∈ (write document? store now opId pending).2.toList, heldDescribed later := by
  cases pending with
  | put key data existing =>
    refine ⟨?_,by simp [write]⟩
    have ticked : Faithful {store with clock := store.clock.tick} := faithful
    exact putAndQueue_faithful ticked (newRecord_described store.clock.tick data existing now)
  | markFailed => exact ⟨putItem_faithful faithful,by simp [write]⟩
  | applyServerUpdate => exact applyServerUpdate_consistent faithful held keeps
  | storeMerged => exact ⟨putRecord_faithful faithful held,by simp [write]⟩
  | resolveConflict => exact ⟨resolveConflict_faithful faithful keeps,by simp [write]⟩

theorem step_consistent (document? : ν → Option (LWWDocument ν ι)) :
    Preserved (step document?) KeepsDocument Consistent := by
  intro before action after valid keeps moved
  cases action with
  | start call =>
    cases Option.some.inj moved
    refine ⟨valid.faithful,?_⟩
    intro pending member
    rcases List.mem_append.mp member with old | new
    · exact valid.held pending old
    · exact read_held valid.faithful call pending new
  | finish index now opId =>
    obtain ⟨pending,found,equal⟩ := Option.map_eq_some_iff.mp moved
    subst equal
    obtain ⟨faithful,held⟩ := write_consistent document? now valid.faithful
      (valid.held pending (List.mem_of_getElem? found)) (keeps pending found)
    refine ⟨faithful,?_⟩
    intro other member
    rcases List.mem_append.mp member with old | new
    · exact valid.held other (List.mem_of_mem_eraseIdx old)
    · exact held other new
  | delete => cases Option.some.inj moved; exact ⟨delete_faithful valid.faithful,valid.held⟩
  | markSynced => cases Option.some.inj moved; exact ⟨markSynced_faithful valid.faithful,valid.held⟩
  | applyServerDelete => cases Option.some.inj moved; exact ⟨applyServerDelete_faithful valid.faithful,valid.held⟩
  | dropSynced => cases Option.some.inj moved; exact ⟨dropSynced_faithful valid.faithful,valid.held⟩

theorem applyServerUpdate_shown
    (faithful : Faithful (applyServerUpdate document? (store : Store ν ι) key data serverVersion (some record) now).1)
    (confirmed : ¬unconfirmed record) (carried : record.crdtDoc = some doc) : Describes doc data := by
  simp only [applyServerUpdate,if_neg confirmed] at faithful
  exact faithful key _ (Function.update_self ..) doc carried

theorem write_shown (faithful : Faithful (write document? (store : Store ν ι) now opId pending).1) :
    keepsDocument store opId pending := by
  cases pending with
  | applyServerUpdate key data serverVersion existing =>
    cases existing with
    | none => trivial
    | some record =>
      by_cases ahead : unconfirmed record
      · exact .inl ahead
      · exact .inr fun doc carried => applyServerUpdate_shown faithful ahead carried
  | resolveConflict key resolvedData record =>
    by_cases taken : ∃ item ∈ store.queue, item.id = opId
    · exact .inl taken
    · refine .inr fun doc carried => resolveConflict_shown faithful ?_ carried
      intro item member same
      exact taken ⟨item,member,same⟩
  | _ => trivial

theorem step_shown (state : State ν ι) (action : Action ν) (after : State ν ι)
    (moved : step document? state action = some after) (faithful : Faithful after.store) :
    KeepsDocument state action := by
  cases action with
  | finish index now opId =>
    intro pending found
    obtain ⟨_,same,equal⟩ := Option.map_eq_some_iff.mp moved
    cases Option.some.inj (found.symm.trans same)
    subst equal
    exact write_shown faithful
  | _ => trivial

theorem merge_resurrects_nothing (described : Describes doc data)
    (merged : (fromDocument (mergeLWW doc (remote : LWWDocument ν ι))).lookup name = some value) :
    data.lookup name = some value ∨ (fromDocument remote).lookup name = some value := by
  rw [← described name]
  simp only [lookup_fromDocument,Option.map_eq_some_iff] at merged ⊢
  obtain ⟨field,found,equal⟩ := merged
  cases here : doc.lookup name with
  | none =>
    cases there : remote.lookup name with
    | none => simp [lookup_mergeLWW,here,there] at found
    | some remoteField =>
      rw [mergeLWW_remote here there] at found
      split at found
      · cases found
      · exact .inr ⟨field,found,equal⟩
  | some localField =>
    cases there : remote.lookup name with
    | none =>
      rw [mergeLWW_local there,here] at found
      exact .inl ⟨field,found,equal⟩
    | some remoteField =>
      rw [mergeLWW_own here there] at found
      split at found
      · exact .inr ⟨field,found,equal⟩
      · exact .inl ⟨field,found,equal⟩

theorem documents_exact
    (path : run (step document?) (State.empty clock) actions = some (state : State ν ι)) :
    ((∀ before after, actions = before ++ after → ∀ reached,
        run (step document?) (State.empty clock) before = some reached → Faithful reached.store) ↔
      Guarded (step document?) KeepsDocument (State.empty clock) actions) ∧
    (Guarded (step document?) KeepsDocument (State.empty clock) actions → ∀ key record doc,
      state.store.records key = some record → record.crdtDoc = some doc → ∀ remote name value,
        (fromDocument (mergeLWW doc remote)).lookup name = some value →
          record.data.lookup name = some value ∨ (fromDocument remote).lookup name = some value) := by
  have kept (first : List (Action ν)) (reached : State ν ι)
      (guarded : Guarded (step document?) KeepsDocument (State.empty clock) first)
      (there : run (step document?) (State.empty clock) first = some reached) : Faithful reached.store :=
    (run_preserves (step_consistent document?) (empty_consistent clock) guarded there).faithful
  refine ⟨⟨?_,?_⟩,?_⟩
  · intro faithful
    exact guarded_of_reached step_shown path faithful
  · rintro guarded before after rfl reached there
    exact kept before reached (guarded_append.mp guarded).1 there
  · intro guarded key record doc found carried remote name value merged
    exact merge_resurrects_nothing (kept actions state guarded path key record found doc carried) merged

end

section
-- The server confirms the edit and then answers with a value of its own.
def confirmed : List (Action Nat) :=
  [.start (.put note (titled 1)),.finish 0 10 "10-a",.markSynced "10-a" note 1790144009198]

def answered (value : Nat) : List (Action Nat) :=
  confirmed ++ [.start (.applyServerUpdate note (titled value) 1790144009200),.finish 0 12 "12-b"]

theorem documents_exact_answered : ∃ state, run (step plainValue) (State.empty ⟨0,7⟩) (answered 1) = some state ∧
    Faithful state.store := by
  refine ⟨_,rfl,(documents_exact rfl).1.mpr ?_ (answered 1) [] rfl _ rfl⟩
  refine guarded_cons trivial rfl (guarded_cons ?_ rfl (guarded_cons trivial rfl (guarded_cons trivial rfl
    (guarded_cons ?_ rfl trivial))))
  · rintro _ ⟨⟩
    trivial
  · rintro _ ⟨⟩
    refine .inr fun doc carried => ?_
    cases Option.some.inj carried
    exact describes_toDocument (titled 1) 1 7

-- The record's title is 2 while its document still says 1, and a merge with an
-- empty remote document brings the 1 back.
theorem overwritten_document : ∃ state record doc, run (step plainValue) (State.empty ⟨0,7⟩) (answered 2) = some state ∧
    state.store.records note = some record ∧ record.crdtDoc = some doc ∧ record.data.lookup title = some 2 ∧
    (fromDocument doc).lookup title = some 1 ∧ (fromDocument (mergeLWW doc ∅)).lookup title = some 1 :=
  ⟨_,_,_,rfl,rfl,rfl,rfl,rfl,rfl⟩

end

end Zveltio.StoreDocuments
