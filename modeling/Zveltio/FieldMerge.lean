import Zveltio.SyncManager
import Mathlib.Data.String.Basic
namespace Zveltio.FieldMerge

open Fields Crdt LocalStore SyncManager Runs

section
variable {ν : Type u} {ι : Type v}

structure Edit (ν : Type u) where
  value : ν
  now : Nat
  opId : String

-- One collection().update of a single field. An id already in the queue makes the
-- call throw, and then it is no edit.
def edit (key : Key) (field : FieldName) (store : Store ν ι) (change : Edit ν) : Option (Store ν ι) :=
  if store.queue.any (fun op => op.id == change.opId) then none
  else some (update store key (AList.singleton field change.value) change.now change.opId)

def StartsFrom (base : LWWDocument ν ι) (key : Key) (store : Store ν ι) : Prop :=
  ∃ record, store.records key = some record ∧ record.deletedAt = none ∧ record.data = fromDocument base ∧
    record.crdtDoc = some base

def document (store : Store ν ι) (key : Key) : Option (LWWDocument ν ι) :=
  (store.records key).bind LocalRecord.crdtDoc

def lastValue (base : LWWDocument ν ι) (field : FieldName) (edits : List (Edit ν)) : Option ν :=
  (edits.getLast?.map Edit.value).or ((base.lookup field).map LWWField.value)

def viewed (base : LWWDocument ν ι) (field : FieldName) (edits : List (Edit ν)) (key : FieldName) : Option ν :=
  if key = field then lastValue base field edits else (base.lookup key).map LWWField.value

-- Every put stamps all fields of the record with its own tick.
def stamped (base : LWWDocument ν ι) (field : FieldName) (clock : LamportClock ι) (edits : List (Edit ν))
    (key : FieldName) : Option (LWWField ν ι) :=
  if edits = [] then base.lookup key
  else (viewed base field edits key).map fun value => ⟨value,clock.value + edits.length,clock.clientId⟩

structure Edited (base : LWWDocument ν ι) (key : Key) (field : FieldName) (clock : LamportClock ι)
    (edits : List (Edit ν)) (store : Store ν ι) : Prop where
  ticked : store.clock = ⟨clock.value + edits.length,clock.clientId⟩
  record : ∃ record doc, store.records key = some record ∧ record.deletedAt = none ∧ record.crdtDoc = some doc ∧
    (∀ name, record.data.lookup name = viewed base field edits name) ∧
    ∀ name, doc.lookup name = stamped base field clock edits name

theorem StartsFrom.edited {store : Store ν ι} (starts : StartsFrom base key store) (field : FieldName) :
    Edited base key field store.clock [] store := by
  obtain ⟨record,found,live,data,doc⟩ := starts
  refine ⟨rfl,record,base,found,live,doc,?_,fun _ => rfl⟩
  intro name
  rw [data,lookup_fromDocument]
  by_cases equal : name = field
  · subst equal
    simp [viewed,lastValue]
  · simp [viewed,equal]

theorem edit_edited (edited : Edited base key field clock edits (store : Store ν ι))
    (moved : edit key field store change = some after) :
    Edited base key field clock (edits ++ [change]) after := by
  unfold edit at moved
  split at moved
  · cases moved
  rename_i free
  cases Option.some.inj moved
  obtain ⟨record,doc,found,live,_,data,_⟩ := edited.record
  have shown : store.get key = some record := by simp [Store.get,found,live]
  have tick : store.clock.tick = ⟨clock.value + (edits ++ [change]).length,clock.clientId⟩ := by
    simp [LamportClock.tick,edited.ticked,Nat.add_assoc]
  have fields : ∀ name, (spread record.data (AList.singleton field change.value)).lookup name =
      viewed base field (edits ++ [change]) name := by
    intro name
    rw [lookup_spread,lookup_singleton,data]
    by_cases equal : name = field <;> simp [viewed,lastValue,equal]
  have fresh : ∀ other ∈ store.queue, other.id ≠ change.opId := by
    intro other member taken
    exact free (List.any_eq_true.mpr ⟨other,member,by simpa using taken⟩)
  simp only [update,Store.put,Store.commitPut,shown,Option.elim_some]
  rw [putAndQueue_fresh fresh]
  refine ⟨tick,_,_,Function.update_self ..,rfl,rfl,fields,?_⟩
  intro name
  rw [lookup_toDocument,fields,tick]
  simp [stamped]

theorem run_edited (edited : Edited base key field clock before (store : Store ν ι))
    (path : run (edit key field) store edits = some after) : Edited base key field clock (before ++ edits) after := by
  induction edits generalizing before store with
  | nil =>
    cases Option.some.inj path
    exact (List.append_nil before).symm ▸ edited
  | cons change rest ih =>
    obtain ⟨next,one,later⟩ := run_cons.mp path
    have whole := ih (edit_edited edited one) later
    rwa [List.append_assoc,List.singleton_append] at whole

theorem StartsFrom.run_edited {store : Store ν ι} (starts : StartsFrom base key store)
    (path : run (edit key field) store edits = some after) : Edited base key field store.clock edits after :=
  FieldMerge.run_edited (starts.edited field) path

-- The other client's entry for a field it did not edit: untouched while that
-- client has made no edit, else restamped by its last one.
def otherField (base : LWWDocument ν ι) (clock : LamportClock ι) (edits : List (Edit ν)) (field : FieldName) :
    Option (LWWField ν ι) :=
  (base.lookup field).map fun old =>
    if edits = [] then old else ⟨old.value,clock.value + edits.length,clock.clientId⟩

theorem stamped_other (base : LWWDocument ν ι) (clock : LamportClock ι) (edits : List (Edit ν))
    (apart : field ≠ edited) : stamped base edited clock edits field = otherField base clock edits field := by
  unfold stamped otherField
  by_cases none : edits = []
  · simp [none]
  · simp only [viewed,none,apart,if_false,Option.map_map]
    rfl

theorem stamped_last (base : LWWDocument ν ι) (field : FieldName) (clock : LamportClock ι)
    (last : edits.getLast? = some change) :
    stamped base field clock edits field = some ⟨change.value,clock.value + edits.length,clock.clientId⟩ := by
  have some : edits ≠ [] := by
    rintro rfl
    cases last
  simp [stamped,some,viewed,lastValue,last]

variable [LinearOrder ι]

-- The entry is newer than the other side's, or says the same; where the other side
-- has none, the field must not be named like an object method.
def Prevails (field : FieldName) (entry : LWWField ν ι) : Option (LWWField ν ι) → Prop
  | none => inherited field = false
  | some other => entry.value = other.value ∨ other.older entry

def Outlives (base : LWWDocument ν ι) (field : FieldName) (mine : LamportClock ι) (edits : List (Edit ν))
    (theirs : LamportClock ι) (theirEdits : List (Edit ν)) : Prop :=
  match edits.getLast? with
  | none => True
  | some change =>
    Prevails field ⟨change.value,mine.value + edits.length,mine.clientId⟩ (otherField base theirs theirEdits field)

def Keeps (base : LWWDocument ν ι) (field : FieldName) (edits : List (Edit ν)) (merged : LWWDocument ν ι) : Prop :=
  (merged.lookup field).map LWWField.value = lastValue base field edits

instance [DecidableEq ν] (base : LWWDocument ν ι) (field : FieldName) (edits : List (Edit ν)) (merged : LWWDocument ν ι) :
    Decidable (Keeps base field edits merged) :=
  inferInstanceAs (Decidable (_ = _))

theorem unedited_kept {mine theirs : LWWDocument ν ι} (here : mine.lookup field = base.lookup field)
    (there : theirs.lookup field = otherField base clock theirEdits field) :
    Keeps base field [] (mergeLWW mine theirs) ∧ Keeps base field [] (mergeLWW theirs mine) := by
  unfold Keeps lastValue
  cases old : base.lookup field with
  | none =>
    rw [old] at here
    simp only [otherField,old,Option.map_none] at there
    rw [mergeLWW_local there,mergeLWW_local here,here,there]
    exact ⟨rfl,rfl⟩
  | some entry =>
    rw [old] at here
    simp only [otherField,old,Option.map_some] at there
    rw [mergeLWW_own here there,mergeLWW_own there here]
    constructor <;> split <;> split <;> rfl

theorem edited_kept_iff {mine theirs : LWWDocument ν ι} (here : mine.lookup field = some entry) :
    ((mergeLWW mine theirs).lookup field).map LWWField.value = some entry.value ∧
      ((mergeLWW theirs mine).lookup field).map LWWField.value = some entry.value ↔
      Prevails field entry (theirs.lookup field) := by
  cases there : theirs.lookup field with
  | none =>
    rw [mergeLWW_local there,mergeLWW_remote there here,here]
    cases named : inherited field <;> simp [Prevails,named]
  | some other =>
    rw [mergeLWW_own here there,mergeLWW_own there here]
    unfold Prevails
    by_cases newer : other.older entry
    · simp [newer,older_asymm newer]
    · simp only [newer,if_false,or_false,Option.map_some,Option.some.injEq]
      constructor
      · exact fun kept => kept.2.symm
      · intro same
        exact ⟨by split <;> simp [same],same.symm⟩

theorem keeps_iff {mine theirs : LWWDocument ν ι} (apart : field ≠ other)
    (here : ∀ name, mine.lookup name = stamped base field clock edits name)
    (there : ∀ name, theirs.lookup name = stamped base other theirClock theirEdits name) :
    Keeps base field edits (mergeLWW mine theirs) ∧ Keeps base field edits (mergeLWW theirs mine) ↔
      Outlives base field clock edits theirClock theirEdits := by
  have theirField := (there field).trans (stamped_other base theirClock theirEdits apart)
  unfold Outlives
  cases last : edits.getLast? with
  | none =>
    cases List.getLast?_eq_none_iff.mp last
    exact iff_of_true (unedited_kept (here field) theirField) trivial
  | some change =>
    have myField := (here field).trans (stamped_last base field clock last)
    have value : lastValue base field edits = some change.value := by simp [lastValue,last]
    unfold Keeps
    rw [value]
    exact theirField ▸ edited_kept_iff myField

-- Both clients' documents exist, and both merges keep both fields.
def KeepsBoth (base : LWWDocument ν ι) (a b : FieldName) (leftEdits rightEdits : List (Edit ν))
    (left right : Option (LWWDocument ν ι)) : Prop :=
  ∃ mine theirs, left = some mine ∧ right = some theirs ∧
    (Keeps base a leftEdits (mergeLWW mine theirs) ∧ Keeps base b rightEdits (mergeLWW mine theirs)) ∧
    Keeps base a leftEdits (mergeLWW theirs mine) ∧ Keeps base b rightEdits (mergeLWW theirs mine)

theorem concurrent_edits_kept_iff {left right left' right' : Store ν ι} (apart : a ≠ b)
    (leftStarts : StartsFrom base key left) (rightStarts : StartsFrom base key right)
    (leftPath : run (edit key a) left leftEdits = some left')
    (rightPath : run (edit key b) right rightEdits = some right') :
    KeepsBoth base a b leftEdits rightEdits (document left' key) (document right' key) ↔
      Outlives base a left.clock leftEdits right.clock rightEdits ∧
      Outlives base b right.clock rightEdits left.clock leftEdits := by
  obtain ⟨_,mine,leftFound,_,leftDoc,_,here⟩ := (leftStarts.run_edited leftPath).record
  obtain ⟨_,theirs,rightFound,_,rightDoc,_,there⟩ := (rightStarts.run_edited rightPath).record
  have leftDocument : document left' key = some mine := by simp [document,leftFound,leftDoc]
  have rightDocument : document right' key = some theirs := by simp [document,rightFound,rightDoc]
  rw [← keeps_iff apart here there,← keeps_iff (Ne.symm apart) there here]
  constructor
  · rintro ⟨_,_,one,two,⟨first,second⟩,third,fourth⟩
    cases Option.some.inj (leftDocument.symm.trans one)
    cases Option.some.inj (rightDocument.symm.trans two)
    exact ⟨⟨first,third⟩,fourth,second⟩
  · rintro ⟨⟨first,third⟩,fourth,second⟩
    exact ⟨mine,theirs,leftDocument,rightDocument,⟨first,second⟩,third,fourth⟩

end

section

def body : FieldName := ⟨"body",by decide⟩

def sharedBase : LWWDocument Nat String :=
  (AList.singleton title ⟨0,0,"c0"⟩ : LWWDocument Nat String).insert body ⟨0,0,"c0"⟩

def holding (clock : LamportClock String) : Store Nat String :=
  ⟨fun key => if key = note then some ⟨fromDocument sharedBase,1,1,.synced,5,none,none,some sharedBase⟩ else none,[],clock⟩

theorem holding_starts (clock : LamportClock String) : StartsFrom sharedBase note (holding clock) :=
  ⟨_,rfl,rfl,rfl,rfl⟩

-- Equal clocks: the second client's restamped title wins by its client id.
theorem concurrent_edit_lost : ∃ left right,
    run (edit note title) (holding ⟨0,"c1"⟩) [⟨1,10,"10-a"⟩] = some left ∧
    run (edit note body) (holding ⟨0,"c2"⟩) [⟨2,10,"10-b"⟩] = some right ∧
    ¬KeepsBoth sharedBase title body [⟨1,10,"10-a"⟩] [⟨2,10,"10-b"⟩] (document left note) (document right note) := by
  refine ⟨_,_,rfl,rfl,?_⟩
  rintro ⟨_,_,⟨⟩,⟨⟩,⟨lost,_⟩,_⟩
  revert lost
  decide

-- Writing the base's own title back loses nothing, whatever the clocks are.
theorem concurrent_edits_kept_rewrite : ∃ left right,
    run (edit note title) (holding ⟨0,"c1"⟩) [⟨0,10,"10-a"⟩] = some left ∧
    run (edit note body) (holding ⟨9,"c2"⟩) [⟨2,10,"10-b"⟩] = some right ∧
    KeepsBoth sharedBase title body [⟨0,10,"10-a"⟩] [⟨2,10,"10-b"⟩] (document left note) (document right note) := by
  refine ⟨_,_,rfl,rfl,(concurrent_edits_kept_iff (by decide) (holding_starts _) (holding_starts _) rfl rfl).mpr ?_⟩
  exact ⟨.inl rfl,.inr (.inl (by decide))⟩

end

end Zveltio.FieldMerge
