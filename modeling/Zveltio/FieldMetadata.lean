import Zveltio.Runs
namespace Zveltio.FieldMetadata
open Runs

-- rest: whether it is required, its default and keys, and what else its definition has.
structure Field (ν τ φ : Type) where
  name : ν
  type : τ
  rest : φ

-- rest: what the required flag, and a retype into a secret, make of it; keys what is changed after the transaction.
structure Change (ν τ φ : Type) where
  newName : Option ν
  newType : Option τ
  rest : φ → φ
  keys : Option (φ → φ)

def Change.updatedFieldShape {ν τ φ : Type} (change : Change ν τ φ) (fieldDef : Field ν τ φ) : Field ν τ φ :=
  ⟨change.newName.getD fieldDef.name,change.newType.getD fieldDef.type,change.rest fieldDef.rest⟩

def Field.keyed {ν τ φ : Type} (shape : Field ν τ φ) (keys : φ → φ) : Field ν τ φ := {shape with rest := keys shape.rest}

-- link is the field a relation adds; joined, that a field is removed in a transaction the DDL queue opened.
-- altering is an alterField that found its field, keys one whose transaction is committed; look any other reader of the definition.
inductive Task (ν τ φ : Type) where
  | add (field : Field ν τ φ)
  | link (field : Field ν τ φ)
  | remove (name : ν) (joined : Bool)
  | alter (name : ν) (change : Change ν τ φ)
  | altering (fieldDef : Field ν τ φ) (change : Change ν τ φ)
  | keys (shape : Field ν τ φ)
  | look

-- selected: its SELECT has answered; holds: the array it was given, which the cache may share.
inductive Stage (ν τ φ : Type) where
  | columns (task : Task ν τ φ)
  | reads (task : Task ν τ φ)
  | selected (task : Task ν τ φ) (fields : List (Field ν τ φ)) (genBefore : Nat)
  | holds (task : Task ν τ φ) (array : Nat)
  | writes (task : Task ν τ φ) (fields : List (Field ν τ φ))

-- columns is the table, virtuals what changes made that has no column, fields zvd_collections.fields of the collection.
-- Arrays are the objects in the replicas' memories; a replica's cache has one of them, under a generation.
structure State (ι χ ν τ φ : Type) where
  columns : ν → Option τ
  virtuals : ν → Option τ
  fields : List (Field ν τ φ)
  arrays : Nat → List (Field ν τ φ)
  made : Nat
  collectionCache : ι → Option Nat
  cacheGen : ι → Nat
  flight : χ → Option (ι × Stage ν τ φ)

inductive Action (ι χ ν τ φ : Type) where
  | begin (c : χ) (i : ι) (task : Task ν τ φ)
  | column (c : χ)
  | hit (c : χ)
  | select (c : χ)
  | receive (c : χ)
  | compute (c : χ)
  | write (c : χ)
  | unlink (name : ν) (key : Bool)
  | invalidateCache (i : ι)

section
variable {ι χ ν τ φ : Type} [DecidableEq ι] [DecidableEq χ] [DecidableEq ν] [DecidableEq τ]

def typeOf (fields : List (Field ν τ φ)) (name : ν) : Option τ := (fields.find? fun field => field.name = name).map Field.type

def named (fields : List (Field ν τ φ)) (name : ν) : Bool := fields.any fun field => field.name = name

def replaced (fields : List (Field ν τ φ)) (name : ν) (shape : Field ν τ φ) : List (Field ν τ φ) :=
  fields.map fun field => if field.name = name then shape else field

def State.start (stored : τ → Bool) (fields : List (Field ν τ φ)) : State ι χ ν τ φ :=
  ⟨fun name => (typeOf fields name).filter stored,fun name => (typeOf fields name).filter fun type => !stored type,fields,
    fun _ => [],0,fun _ => none,fun _ => 0,fun _ => none⟩

def Task.first : Task ν τ φ → Option (Stage ν τ φ)
  | .add field => some (.columns (.add field))
  | .link field => some (.columns (.link field))
  | .remove name true => some (.reads (.remove name true))
  | .remove name false => some (.columns (.remove name false))
  | .alter name change => some (.reads (.alter name change))
  | .look => some (.reads .look)
  | _ => none

-- ADD COLUMN IF NOT EXISTS leaves a column that is there as it is; a field without a column only comes to be.
def State.added (stored : τ → Bool) (state : State ι χ ν τ φ) (field : Field ν τ φ) : State ι χ ν τ φ :=
  if stored field.type then
    {state with columns := Function.update state.columns field.name (some ((state.columns field.name).getD field.type))}
  else {state with virtuals := Function.update state.virtuals field.name (some ((state.virtuals field.name).getD field.type))}

def State.dropped (state : State ι χ ν τ φ) (name : ν) : State ι χ ν τ φ :=
  {state with columns := Function.update state.columns name none,virtuals := Function.update state.virtuals name none}

def moved (called : ν → Option τ) (name after : ν) (type : Option τ) : ν → Option τ :=
  Function.update (Function.update called name none) after type

-- What the transaction of alterField does to the table. A relation keeps its type, and one without a column is renamed where it is recorded;
-- any other change of a type or a name needs the column, and no other column of the new name.
def State.altered (stored relation : τ → Bool) (state : State ι χ ν τ φ) (fieldDef after : Field ν τ φ) : Option (State ι χ ν τ φ) :=
  if after.name = fieldDef.name ∧ after.type = fieldDef.type then some state
  else if after.type ≠ fieldDef.type ∧ (relation fieldDef.type || relation after.type || !stored fieldDef.type || !stored after.type) then none
  else if relation fieldDef.type && !stored fieldDef.type then
    some {state with virtuals := moved state.virtuals fieldDef.name after.name (state.virtuals fieldDef.name)}
  else if (state.columns fieldDef.name).isSome && (after.name = fieldDef.name || (state.columns after.name).isNone) then
    let type := if after.type = fieldDef.type then state.columns fieldDef.name else some after.type
    some {state with columns := moved state.columns fieldDef.name after.name type}
  else none

def State.becomes (state : State ι χ ν τ φ) (c : χ) (flight : Option (ι × Stage ν τ φ)) : State ι χ ν τ φ :=
  {state with flight := Function.update state.flight c flight}

-- What a change does with the array it holds, up to its statement: addField has nothing to do where the field is listed, and otherwise pushes onto
-- the array, so the cache that shares it has the field too.
def computed (state : State ι χ ν τ φ) (c : χ) (i : ι) (array : Nat) : Task ν τ φ → Option (State ι χ ν τ φ)
  | .alter name change => ((state.arrays array).find? fun field => field.name = name).bind fun fieldDef =>
    if change.newName.all fun newName => newName ≠ name && !named (state.arrays array) newName then
      some (state.becomes c (some (i,.holds (.altering fieldDef change) array)))
    else none
  | .keys shape =>
    if named (state.arrays array) shape.name then some (state.becomes c (some (i,.writes (.keys shape) (state.arrays array)))) else none
  | .look => some (state.becomes c none)
  | .add field =>
    if named (state.arrays array) field.name then some (state.becomes c none)
    else
      let pushed := Function.update state.arrays array (state.arrays array ++ [field])
      some ({state with arrays := pushed}.becomes c (some (i,.writes (.add field) (state.arrays array))))
  | task => some (state.becomes c (some (i,.writes task (state.arrays array))))

-- The statement that writes the whole list back, or the transaction it is in. A relation's has the row locked, and reads what is there.
def written (stored relation : τ → Bool) (state : State ι χ ν τ φ) (c : χ) (i : ι) (fields : List (Field ν τ φ)) : Task ν τ φ → Option (State ι χ ν τ φ)
  | .add field => some ({state with fields := fields ++ [field]}.becomes c none)
  | .link field => some ({state with fields := if named state.fields field.name then state.fields else state.fields ++ [field]}.becomes c none)
  | .remove name joined =>
    some ({if joined then state.dropped name else state with fields := fields.filter fun field => field.name ≠ name}.becomes c none)
  | .altering fieldDef change =>
    let updatedFieldShape := change.updatedFieldShape fieldDef
    (state.altered stored relation fieldDef updatedFieldShape).map fun state =>
      {state with fields := replaced fields fieldDef.name updatedFieldShape}.becomes c
        (change.keys.map fun keys => (i,.reads (.keys (updatedFieldShape.keyed keys))))
  | .keys shape => some ({state with fields := replaced fields shape.name shape}.becomes c none)
  | _ => none

def step (stored relation : τ → Bool) (state : State ι χ ν τ φ) : Action ι χ ν τ φ → Option (State ι χ ν τ φ)
  | .begin c i task => if (state.flight c).isNone then task.first.map fun stage => state.becomes c (some (i,stage)) else none
  | .column c => (state.flight c).bind fun (i,stage) => match stage with
    | .columns (.add field) => some ((state.added stored field).becomes c (some (i,.reads (.add field))))
    | .columns (.link field) => some ((state.added stored field).becomes c (some (i,.writes (.link field) [])))
    | .columns (.remove name false) => some ((state.dropped name).becomes c (some (i,.reads (.remove name false))))
    | _ => none
  | .hit c => (state.flight c).bind fun (i,stage) => match stage,state.collectionCache i with
    | .reads task,some array => some (state.becomes c (some (i,.holds task array)))
    | _,_ => none
  | .select c => (state.flight c).bind fun (i,stage) => match stage with
    | .reads task => some (state.becomes c (some (i,.selected task state.fields (state.cacheGen i))))
    | _ => none
  | .receive c => (state.flight c).bind fun (i,stage) => match stage with
    | .selected task fields genBefore =>
      let cached := if state.cacheGen i = genBefore then Function.update state.collectionCache i (some state.made) else state.collectionCache
      some ({state with
        arrays := Function.update state.arrays state.made fields
        made := state.made + 1
        collectionCache := cached}.becomes c (some (i,.holds task state.made)))
    | _ => none
  | .compute c => (state.flight c).bind fun (i,stage) => match stage with
    | .holds task array => computed state c i array task
    | _ => none
  | .write c => (state.flight c).bind fun (i,stage) => match stage with
    | .writes task fields => written stored relation state c i fields task
    | _ => none
  | .unlink name key => some {state with
      columns := if key then Function.update state.columns name none else state.columns
      virtuals := if key then state.virtuals else Function.update state.virtuals name none
      fields := state.fields.filter fun field => field.name ≠ name}
  | .invalidateCache i => some {state with
      collectionCache := Function.update state.collectionCache i none
      cacheGen := Function.update state.cacheGen i (state.cacheGen i + 1)}

-- The columns and the virtual fields call for a field of this name and type.
def Calls (state : State ι χ ν τ φ) (name : ν) (type : τ) : Prop := state.columns name = some type ∨ state.virtuals name = some type

-- They call for this type under the name, and no other.
def Settled (state : State ι χ ν τ φ) (name : ν) (expected : Option τ) : Prop := ∀ type, expected = some type ↔ Calls state name type

structure Described (state : State ι χ ν τ φ) : Prop where
  distinct : (state.fields.map Field.name).Nodup
  exactly : ∀ name type, (∃ field ∈ state.fields, field.name = name ∧ field.type = type) ↔ Calls state name type

-- The guard of the statement that writes the list: the list it goes by is the one that is stored, and the columns and virtual fields
-- have under the field's name what the change takes them to have. An addField that finds its field listed writes nothing, and goes by the same.
def Current (state : State ι χ ν τ φ) (fields : List (Field ν τ φ)) : Task ν τ φ → Prop
  | .add field => state.fields = fields ∧ typeOf fields field.name = none ∧ Settled state field.name (some field.type)
  | .link field => Settled state field.name (some ((typeOf state.fields field.name).getD field.type))
  | .remove name joined => state.fields = fields ∧ (joined = false → Settled state name none)
  | .altering fieldDef change => state.fields = fields ∧ typeOf fields fieldDef.name = some fieldDef.type ∧ Settled state fieldDef.name (some fieldDef.type) ∧
      ∀ newName, change.newName = some newName → newName ≠ fieldDef.name ∧ typeOf fields newName = none ∧ Settled state newName none
  | .keys shape => state.fields = fields ∧ typeOf fields shape.name = some shape.type
  | _ => True

def Permitted (state : State ι χ ν τ φ) : Action ι χ ν τ φ → Prop
  | .compute c => ∀ i field array, state.flight c = some (i,.holds (.add field) array) → named (state.arrays array) field.name = true →
      typeOf state.fields field.name = typeOf (state.arrays array) field.name ∧ Settled state field.name (typeOf (state.arrays array) field.name)
  | .write c => ∀ i task fields, state.flight c = some (i,.writes task fields) → Current state fields task
  | .unlink name key => if key then state.virtuals name = none else state.columns name = none
  | _ => True

def Task.owes (name : ν) : Task ν τ φ → Prop
  | .add field => field.name = name
  | .link field => field.name = name
  | .remove removed joined => joined = false ∧ removed = name
  | _ => False

-- A change whose column is made or dropped, and whose field is still to be written.
def Stage.owes (name : ν) : Stage ν τ φ → Prop
  | .columns _ => False
  | .reads task => task.owes name
  | .selected task _ _ => task.owes name
  | .holds task _ => task.owes name
  | .writes task _ => task.owes name

def Owed (state : State ι χ ν τ φ) (name : ν) : Prop := ∃ c i stage, state.flight c = some (i,stage) ∧ stage.owes name

def Kept (state : State ι χ ν τ φ) (name : ν) : Prop := Settled state name (typeOf state.fields name) ∨ Owed state name

def Each (called : ν → Option τ) (stored : τ → Bool) (is : Bool) : Prop := ∀ name type, called name = some type → stored type = is

structure Sound (stored : τ → Bool) (state : State ι χ ν τ φ) : Prop where
  distinct : (state.fields.map Field.name).Nodup
  columned : Each state.columns stored true
  virtual : Each state.virtuals stored false
  kept : ∀ name, Kept state name

end

section
variable {ν τ φ : Type} [DecidableEq ν]

theorem typeOf_nil : typeOf ([] : List (Field ν τ φ)) name = none := rfl

theorem typeOf_cons : typeOf (field::fields) name = if (field : Field ν τ φ).name = name then some field.type else typeOf fields name := by
  simp only [typeOf,List.find?_cons]
  split <;> simp_all

theorem named_iff : named (fields : List (Field ν τ φ)) name = (typeOf fields name).isSome := by
  induction fields with
  | nil => rfl
  | cons field rest ih =>
    rw [typeOf_cons]
    by_cases same : field.name = name
    · simp [named,same]
    · simp only [if_neg same,← ih]
      simp [named,same]

theorem typeOf_append : typeOf (fields ++ [field]) name = (typeOf (fields : List (Field ν τ φ)) name).or (if field.name = name then some field.type else none) := by
  induction fields with
  | nil => rw [List.nil_append,typeOf_cons,typeOf_nil,Option.none_or]
  | cons head rest ih =>
    rw [List.cons_append,typeOf_cons,typeOf_cons,ih]
    split <;> rfl

theorem typeOf_filter : typeOf ((fields : List (Field ν τ φ)).filter fun field => field.name ≠ gone) name = if name = gone then none else typeOf fields name := by
  induction fields with
  | nil => simp [typeOf_nil]
  | cons head rest ih =>
    rw [List.filter_cons,typeOf_cons]
    by_cases same : head.name = gone
    · subst same
      simp only [ne_eq,not_true_eq_false,decide_false,Bool.false_eq_true,if_false,ih]
      by_cases own : name = head.name
      · simp [own]
      · simp [own,Ne.symm own]
    · simp only [same,ne_eq,not_false_eq_true,decide_true,if_true,typeOf_cons,ih]
      split <;> simp_all

theorem typeOf_eq_none : typeOf (fields : List (Field ν τ φ)) name = none ↔ name ∉ fields.map Field.name := by
  induction fields with
  | nil => simp [typeOf_nil]
  | cons head rest ih =>
    rw [typeOf_cons,List.map_cons,List.mem_cons]
    split <;> simp_all [eq_comm]

theorem typeOf_mem (distinct : ((fields : List (Field ν τ φ)).map Field.name).Nodup) :
    typeOf fields name = some type ↔ ∃ field ∈ fields, field.name = name ∧ field.type = type := by
  induction fields with
  | nil => simp [typeOf_nil]
  | cons head rest ih =>
    obtain ⟨fresh,distinct⟩ := List.nodup_cons.mp distinct
    rw [typeOf_cons]
    by_cases same : head.name = name
    · subst same
      simp only [if_true,Option.some.injEq,List.mem_cons,exists_eq_or_imp,true_and]
      constructor
      · exact .inl
      · rintro (same | ⟨field,member,name,-⟩)
        · exact same
        · exact absurd (name ▸ List.mem_map_of_mem member) fresh
    · simp [same,ih distinct]

theorem typeOf_replaced_other (other : name ≠ (shape : Field ν τ φ).name) :
    typeOf (replaced fields old shape) name = if name = old then none else typeOf fields name := by
  induction fields with
  | nil => simp [replaced,typeOf_nil]
  | cons head rest ih =>
    have step : replaced (head::rest) old shape = (if head.name = old then shape else head)::replaced rest old shape := rfl
    rw [step,typeOf_cons,ih,typeOf_cons]
    by_cases own : head.name = old
    · subst own
      by_cases same : name = head.name
      · subst same
        simp [Ne.symm other]
      · simp [same,Ne.symm same,Ne.symm other]
    · simp only [if_neg own]
      by_cases same : head.name = name
      · subst same
        simp [own]
      · simp [same]

-- A shape takes the place of the field of the old name, where no other field has its own.
def Free (fields : List (Field ν τ φ)) (old name : ν) : Prop := name = old ∨ typeOf fields name = none

theorem typeOf_replaced_own (there : typeOf fields old = some type) (free : Free fields old (shape : Field ν τ φ).name) :
    typeOf (replaced fields old shape) shape.name = some shape.type := by
  induction fields with
  | nil => cases there
  | cons head rest ih =>
    have step : replaced (head::rest) old shape = (if head.name = old then shape else head)::replaced rest old shape := rfl
    rw [step,typeOf_cons]
    rw [typeOf_cons] at there
    by_cases own : head.name = old
    · simp [own]
    · simp only [if_neg own] at there ⊢
      have apart : head.name ≠ shape.name ∧ Free rest old shape.name := by
        obtain same | none := free
        · exact ⟨same ▸ own,.inl same⟩
        · rw [typeOf_cons] at none
          split at none
          · cases none
          · next apart => exact ⟨apart,.inr none⟩
      rw [if_neg apart.1]
      exact ih there apart.2

theorem replaced_distinct (distinct : ((fields : List (Field ν τ φ)).map Field.name).Nodup) (free : Free fields old shape.name) :
    ((replaced fields old shape).map Field.name).Nodup := by
  rw [replaced,List.map_map]
  apply List.pairwise_map.mpr
  apply List.Pairwise.imp_of_mem _ (List.pairwise_map.mp distinct)
  intro one other first second apart
  have unnamed : ∀ field ∈ fields, field.name ≠ old → field.name ≠ shape.name := by
    intro field member different
    obtain same | none := free
    · rwa [same]
    · intro wrong
      exact typeOf_eq_none.mp none (wrong ▸ List.mem_map_of_mem member)
  simp only [Function.comp_apply]
  by_cases here : one.name = old
  · have there : other.name ≠ old := fun same => apart (here.trans same.symm)
    rw [if_pos here,if_neg there]
    exact Ne.symm (unnamed other second there)
  · rw [if_neg here]
    by_cases there : other.name = old
    · rw [if_pos there]
      exact unnamed one first here
    · rw [if_neg there]
      exact apart

theorem append_distinct (distinct : ((fields : List (Field ν τ φ)).map Field.name).Nodup) (unnamed : typeOf fields field.name = none) :
    ((fields ++ [field]).map Field.name).Nodup := by
  rw [List.map_append,List.map_singleton]
  apply List.nodup_append.mpr ⟨distinct,by simp,?_⟩
  intro name member other same wrong
  cases List.mem_singleton.mp same
  exact typeOf_eq_none.mp unnamed (wrong ▸ member)

end

section
variable {ι χ ν τ φ : Type} [DecidableEq χ]

theorem becomes_others {state : State ι χ ν τ φ} {flight : Option (ι × Stage ν τ φ)} (other : χ) (apart : other ≠ c) :
    (state.becomes c flight).flight other = state.flight other := Function.update_of_ne apart ..

theorem becomes_own {state : State ι χ ν τ φ} {flight : Option (ι × Stage ν τ φ)} : (state.becomes c flight).flight c = flight :=
  Function.update_self ..

theorem owed_becomes {state before : State ι χ ν τ φ} (flight : before.flight = state.flight)
    (own : ∀ i stage, state.flight c = some (i,stage) → stage.owes name → ∃ i stage, next = some (i,stage) ∧ stage.owes name)
    (owed : Owed state name) : Owed (before.becomes c next) name := by
  obtain ⟨other,i,stage,there,owes⟩ := owed
  by_cases moved : other = c
  · subst moved
    obtain ⟨i,stage,held,owes⟩ := own i stage there owes
    exact ⟨other,i,stage,becomes_own.trans held,owes⟩
  · exact ⟨other,i,stage,(becomes_others other moved).trans (flight ▸ there),owes⟩

end

section
variable {ι χ ν τ φ : Type}

theorem settled_columns (none : state.virtuals name = none) (held : state.columns name = expected) : Settled (state : State ι χ ν τ φ) name expected := by
  intro type
  simp [Calls,none,held]

theorem settled_virtuals (none : state.columns name = none) (held : state.virtuals name = expected) : Settled (state : State ι χ ν τ φ) name expected := by
  intro type
  simp [Calls,none,held]

theorem Settled.vacant (settled : Settled (state : State ι χ ν τ φ) name none) : state.columns name = none ∧ state.virtuals name = none := by
  constructor
  · apply Option.eq_none_iff_forall_ne_some.mpr
    intro type there
    cases (settled type).mpr (.inl there)
  · apply Option.eq_none_iff_forall_ne_some.mpr
    intro type there
    cases (settled type).mpr (.inr there)

theorem Each.getD (each : Each (called : ν → Option τ) stored is) (otherwise : stored type = is) :
    ∀ found, some ((called name).getD type) = some found → stored found = is := by
  intro found same
  cases held : called name with
  | none =>
    rw [held] at same
    cases same
    exact otherwise
  | some other =>
    rw [held] at same
    cases same
    exact each _ _ held

theorem Settled.congr (settled : Settled (state : State ι χ ν τ φ) name expected) (columns : after.columns name = state.columns name)
    (virtuals : after.virtuals name = state.virtuals name) : Settled (after : State ι χ ν τ φ) name expected := by
  intro type
  rw [settled type]
  unfold Calls
  rw [columns,virtuals]

variable [DecidableEq ν]

theorem Settled.column (settled : Settled (state : State ι χ ν τ φ) name (some type)) (sound : Sound stored state) (is : stored type = true) :
    state.columns name = some type ∧ state.virtuals name = none := by
  have none : state.virtuals name = none := by
    apply Option.eq_none_iff_forall_ne_some.mpr
    intro other there
    cases (settled other).mpr (.inr there)
    have wrong := sound.virtual name type there
    rw [is] at wrong
    cases wrong
  refine ⟨?_,none⟩
  obtain there | there := (settled type).mp rfl
  · exact there
  · rw [none] at there
    cases there

theorem Settled.virtual (settled : Settled (state : State ι χ ν τ φ) name (some type)) (sound : Sound stored state) (is : stored type = false) :
    state.virtuals name = some type ∧ state.columns name = none := by
  have none : state.columns name = none := by
    apply Option.eq_none_iff_forall_ne_some.mpr
    intro other there
    cases (settled other).mpr (.inl there)
    have wrong := sound.columned name type there
    rw [is] at wrong
    cases wrong
  refine ⟨?_,none⟩
  obtain there | there := (settled type).mp rfl
  · rw [none] at there
    cases there
  · exact there

theorem added_other (stored : τ → Bool) (state : State ι χ ν τ φ) {field : Field ν τ φ} (apart : name ≠ field.name) :
    (state.added stored field).columns name = state.columns name ∧ (state.added stored field).virtuals name = state.virtuals name := by
  unfold State.added
  split
  · exact ⟨Function.update_of_ne apart ..,rfl⟩
  · exact ⟨rfl,Function.update_of_ne apart ..⟩

theorem added_same (stored : τ → Bool) (state : State ι χ ν τ φ) (field : Field ν τ φ) :
    (state.added stored field).fields = state.fields ∧ (state.added stored field).flight = state.flight := by
  unfold State.added
  split <;> exact ⟨rfl,rfl⟩

theorem Each.update (each : Each (called : ν → Option τ) stored is) (value : ∀ type, found = some type → stored type = is) :
    Each (Function.update called name found) stored is := by
  intro other type there
  by_cases own : other = name
  · subst own
    rw [Function.update_self] at there
    exact value type there
  · rw [Function.update_of_ne own] at there
    exact each other type there

theorem Each.moved (each : Each (called : ν → Option τ) stored is) (value : ∀ type, found = some type → stored type = is) :
    Each (moved called name after found) stored is :=
  (each.update fun _ wrong => (by cases wrong)).update value

theorem added_kinds {state : State ι χ ν τ φ} (field : Field ν τ φ) (columned : Each state.columns stored true) (virtual : Each state.virtuals stored false) :
    Each (state.added stored field).columns stored true ∧ Each (state.added stored field).virtuals stored false := by
  unfold State.added
  split
  · next is => exact ⟨columned.update (columned.getD is),virtual⟩
  · next is => exact ⟨columned,virtual.update (virtual.getD (by simpa using is))⟩

theorem dropped_kinds {state : State ι χ ν τ φ} (gone : ν) (columned : Each state.columns stored true) (virtual : Each state.virtuals stored false) :
    Each (state.dropped gone).columns stored true ∧ Each (state.dropped gone).virtuals stored false :=
  ⟨columned.update fun _ wrong => (by cases wrong),virtual.update fun _ wrong => (by cases wrong)⟩

theorem dropped_other (state : State ι χ ν τ φ) (apart : name ≠ gone) :
    (state.dropped gone).columns name = state.columns name ∧ (state.dropped gone).virtuals name = state.virtuals name :=
  ⟨Function.update_of_ne apart ..,Function.update_of_ne apart ..⟩

theorem dropped_own {state : State ι χ ν τ φ} : Settled (state.dropped gone) gone none := by
  intro type
  simp [Calls,State.dropped]

theorem Kept.carry (kept : Kept (state : State ι χ ν τ φ) name) (columns : after.columns name = state.columns name)
    (virtuals : after.virtuals name = state.virtuals name) (same : typeOf after.fields name = typeOf state.fields name)
    (owed : Owed state name → Owed after name) : Kept (after : State ι χ ν τ φ) name := by
  obtain settled | owes := kept
  · left
    rw [same]
    exact settled.congr columns virtuals
  · right
    exact owed owes

theorem filtered_sound {state after : State ι χ ν τ φ} (sound : Sound stored state) (fields : after.fields = state.fields.filter fun field => field.name ≠ gone)
    (columned : Each after.columns stored true) (virtual : Each after.virtuals stored false) (settled : Settled after gone none)
    (others : ∀ name, name ≠ gone → after.columns name = state.columns name ∧ after.virtuals name = state.virtuals name)
    (owed : ∀ name, name ≠ gone → Owed state name → Owed after name) : Sound stored after := by
  refine ⟨?_,columned,virtual,?_⟩
  · rw [fields]
    exact sound.distinct.sublist (List.filter_sublist.map _)
  · intro name
    have type : typeOf after.fields name = if name = gone then none else typeOf state.fields name := by
      rw [fields,typeOf_filter]
    by_cases own : name = gone
    · left
      rw [type,if_pos own,own]
      exact settled
    · rw [if_neg own] at type
      obtain ⟨columns,virtuals⟩ := others name own
      exact (sound.kept name).carry columns virtuals type (owed name own)

theorem unlinked_sound {state : State ι χ ν τ φ} {key : Bool} (sound : Sound stored state) (permitted : if key then state.virtuals name = none else state.columns name = none) :
    Sound stored {state with
      columns := if key then Function.update state.columns name none else state.columns
      virtuals := if key then state.virtuals else Function.update state.virtuals name none
      fields := state.fields.filter fun field => field.name ≠ name} := by
  have gone : ∀ called : ν → Option τ, Function.update called name none name = none := fun _ => Function.update_self ..
  have apart : ∀ (called : ν → Option τ) other, other ≠ name → Function.update called name none other = called other := fun _ _ apart => Function.update_of_ne apart ..
  have none : ∀ type, (none : Option τ) = some type → ∀ is, stored type = is := fun _ wrong => (by cases wrong)
  cases key with
  | true =>
    exact filtered_sound sound rfl (sound.columned.update fun type wrong => none type wrong _) sound.virtual (settled_columns permitted (gone _))
      (fun other different => ⟨apart _ other different,rfl⟩) fun _ _ owed => owed
  | false =>
    exact filtered_sound sound rfl sound.columned (sound.virtual.update fun type wrong => none type wrong _) (settled_virtuals permitted (gone _))
      (fun other different => ⟨rfl,apart _ other different⟩) fun _ _ owed => owed

theorem start_sound (stored : τ → Bool) {fields : List (Field ν τ φ)} (distinct : (fields.map Field.name).Nodup) :
    Sound stored (.start stored fields : State ι χ ν τ φ) := by
  refine ⟨distinct,?_,?_,?_⟩
  · intro name type there
    exact (Option.filter_eq_some_iff.mp there).2
  · intro name type there
    simpa using (Option.filter_eq_some_iff.mp there).2
  · intro name
    left
    intro type
    cases held : typeOf fields name with
    | none => simp [Calls,State.start,held]
    | some other =>
      cases is : stored other <;> simp [Calls,State.start,held,is,Option.filter]

theorem Sound.described (sound : Sound stored (state : State ι χ ν τ φ)) (finished : ∀ c, state.flight c = none) : Described state := by
  refine ⟨sound.distinct,?_⟩
  intro name type
  rw [← typeOf_mem sound.distinct]
  obtain settled | ⟨c,i,stage,there,-⟩ := sound.kept name
  · exact settled type
  · rw [finished c] at there
    cases there

theorem moved_own : moved (called : ν → Option τ) old new type new = type := Function.update_self ..

theorem moved_left (apart : old ≠ new) : moved (called : ν → Option τ) old new type old = none := by
  rw [moved,Function.update_of_ne apart,Function.update_self]

theorem moved_other (new : name ≠ after) (apart : name ≠ old) : moved (called : ν → Option τ) old after type name = called name := by
  rw [moved,Function.update_of_ne new,Function.update_of_ne apart]

-- What alterField does to the table: the new name has the new type, the old one nothing, and no other name changes.
structure Altered (stored : τ → Bool) (state after : State ι χ ν τ φ) (fieldDef shape : Field ν τ φ) : Prop where
  columned : Each after.columns stored true
  virtual : Each after.virtuals stored false
  same : after.fields = state.fields ∧ after.flight = state.flight
  own : Settled after shape.name (some shape.type)
  left : fieldDef.name ≠ shape.name → Settled after fieldDef.name none
  others : ∀ name, name ≠ shape.name → name ≠ fieldDef.name → after.columns name = state.columns name ∧ after.virtuals name = state.virtuals name

theorem renamed_alias {state : State ι χ ν τ φ} (sound : Sound stored state) (is : state.virtuals fieldDef.name = some type ∧ state.columns fieldDef.name = none)
    (type : (shape : Field ν τ φ).type = type) (vacant : shape.name ≠ (fieldDef : Field ν τ φ).name → Settled state shape.name none) :
    Altered stored state {state with virtuals := moved state.virtuals fieldDef.name shape.name (state.virtuals fieldDef.name)} fieldDef shape := by
  obtain ⟨held,none⟩ := is
  have free : state.columns shape.name = Option.none := by
    by_cases same : shape.name = fieldDef.name
    · rw [same]
      exact none
    · exact (vacant same).vacant.1
  refine ⟨sound.columned,sound.virtual.moved (sound.virtual _),⟨rfl,rfl⟩,?_,?_,?_⟩
  · refine settled_virtuals free (moved_own.trans ?_)
    rw [held,type]
  · intro apart
    exact settled_virtuals none (moved_left apart)
  · intro name new apart
    exact ⟨rfl,moved_other new apart⟩

theorem altered_column {state : State ι χ ν τ φ} (sound : Sound stored state) (none : state.virtuals fieldDef.name = none)
    (is : stored (shape : Field ν τ φ).type = true) (vacant : shape.name ≠ (fieldDef : Field ν τ φ).name → Settled state shape.name Option.none) :
    Altered stored state {state with columns := moved state.columns fieldDef.name shape.name (some shape.type)} fieldDef shape := by
  have free : state.virtuals shape.name = Option.none := by
    by_cases same : shape.name = fieldDef.name
    · rw [same]
      exact none
    · exact (vacant same).vacant.2
  refine ⟨sound.columned.moved ?_,sound.virtual,⟨rfl,rfl⟩,?_,?_,?_⟩
  · intro type same
    cases same
    exact is
  · exact settled_columns free moved_own
  · intro apart
    exact settled_columns none (moved_left apart)
  · intro name new apart
    exact ⟨moved_other new apart,rfl⟩

theorem altered_exact [DecidableEq τ] {state : State ι χ ν τ φ} (sound : Sound stored state) (settled : Settled state (fieldDef : Field ν τ φ).name (some fieldDef.type))
    (vacant : shape.name ≠ fieldDef.name → Settled state shape.name none) (done : state.altered stored relation fieldDef shape = some after) :
    Altered stored state after fieldDef shape := by
  unfold State.altered at done
  split at done
  · next same =>
    cases done
    obtain ⟨name,type⟩ := same
    refine ⟨sound.columned,sound.virtual,⟨rfl,rfl⟩,?_,fun apart => absurd name.symm apart,fun _ _ _ => ⟨rfl,rfl⟩⟩
    rw [name,type]
    exact settled
  split at done
  · cases done
  next allowed =>
  split at done
  · next aliased =>
    cases done
    obtain ⟨related,unstored⟩ := Bool.and_eq_true_iff.mp aliased
    have type : shape.type = fieldDef.type := by
      apply Classical.byContradiction
      intro apart
      exact allowed ⟨apart,by simp [related]⟩
    exact renamed_alias sound (settled.virtual sound (by simpa using unstored)) type vacant
  split at done
  · next column =>
    cases done
    have is : stored fieldDef.type = true := by
      cases kind : stored fieldDef.type with
      | true => rfl
      | false =>
        rw [(settled.virtual sound kind).2] at column
        cases column
    obtain ⟨held,none⟩ := settled.column sound is
    have type : (if shape.type = fieldDef.type then state.columns fieldDef.name else some shape.type) = some shape.type := by
      split
      · next same => rw [held,same]
      · rfl
    have kind : stored shape.type = true := by
      by_cases same : shape.type = fieldDef.type
      · rw [same]
        exact is
      · apply Classical.byContradiction
        intro wrong
        exact allowed ⟨same,by simp [wrong]⟩
    simp only [type]
    exact altered_column sound none kind vacant
  · cases done

variable [DecidableEq χ]

theorem becomes_sound {state before : State ι χ ν τ φ} (sound : Sound stored state) (there : state.flight c = some (i,stage))
    (columns : before.columns = state.columns) (virtuals : before.virtuals = state.virtuals) (fields : before.fields = state.fields)
    (flight : before.flight = state.flight) (owes : ∀ name, stage.owes name → ∃ i stage, next = some (i,stage) ∧ stage.owes name) :
    Sound stored (before.becomes c next) := by
  refine ⟨?_,?_,?_,?_⟩
  · show (before.fields.map Field.name).Nodup
    rw [fields]
    exact sound.distinct
  · show Each before.columns stored true
    rw [columns]
    exact sound.columned
  · show Each before.virtuals stored false
    rw [virtuals]
    exact sound.virtual
  · intro name
    have same : typeOf (before.becomes c next).fields name = typeOf state.fields name := congrArg (typeOf · name) fields
    refine (sound.kept name).carry (congrFun columns name) (congrFun virtuals name) same (owed_becomes flight ?_)
    intro j held found owed
    cases there.symm.trans found
    exact owes name owed

theorem computed_sound {state : State ι χ ν τ φ} (sound : Sound stored state) (there : state.flight c = some (i,.holds task array))
    (permitted : Permitted state (.compute c)) (done : computed state c i array task = some after) : Sound stored after := by
  cases task with
  | alter name change =>
    obtain ⟨fieldDef,found,done⟩ := Option.bind_eq_some_iff.mp done
    split at done
    · cases done
      exact becomes_sound sound there rfl rfl rfl rfl fun _ wrong => wrong.elim
    · cases done
  | keys shape =>
    simp only [computed] at done
    split at done
    · cases done
      exact becomes_sound sound there rfl rfl rfl rfl fun _ wrong => wrong.elim
    · cases done
  | look =>
    cases done
    exact becomes_sound sound there rfl rfl rfl rfl fun _ wrong => wrong.elim
  | add field =>
    simp only [computed] at done
    split at done
    · next listed =>
      cases done
      obtain ⟨same,settled⟩ := permitted i field array there listed
      refine ⟨sound.distinct,sound.columned,sound.virtual,?_⟩
      intro name
      by_cases own : field.name = name
      · subst own
        left
        simp only [State.becomes,same]
        exact settled.congr rfl rfl
      · refine (sound.kept name).carry rfl rfl rfl (owed_becomes rfl ?_)
        intro j held found owes
        cases there.symm.trans found
        exact absurd owes own
    · cases done
      exact becomes_sound sound there rfl rfl rfl rfl fun _ owes => ⟨_,_,rfl,owes⟩
  | link field =>
    cases done
    exact becomes_sound sound there rfl rfl rfl rfl fun _ owes => ⟨_,_,rfl,owes⟩
  | remove name joined =>
    cases done
    exact becomes_sound sound there rfl rfl rfl rfl fun _ owes => ⟨_,_,rfl,owes⟩
  | altering fieldDef change =>
    cases done
    exact becomes_sound sound there rfl rfl rfl rfl fun _ wrong => wrong.elim

theorem added_sound {state : State ι χ ν τ φ} (sound : Sound stored state) (there : state.flight c = some (i,.columns task))
    (owes : stage.owes field.name) : Sound stored ((state.added stored field).becomes c (some (i,stage))) := by
  obtain ⟨fields,flight⟩ := added_same stored state field
  obtain ⟨columned,virtual⟩ := added_kinds field sound.columned sound.virtual
  refine ⟨?_,columned,virtual,?_⟩
  · show ((state.added stored field).fields.map Field.name).Nodup
    rw [fields]
    exact sound.distinct
  · intro name
    by_cases own : name = field.name
    · right
      exact ⟨c,i,stage,becomes_own,own ▸ owes⟩
    · obtain ⟨columns,virtuals⟩ := added_other stored state own
      have same : typeOf ((state.added stored field).becomes c (some (i,stage))).fields name = typeOf state.fields name := congrArg (typeOf · name) fields
      refine (sound.kept name).carry columns virtuals same (owed_becomes flight ?_)
      intro j held found owed
      cases there.symm.trans found
      cases owed

theorem dropped_sound {state : State ι χ ν τ φ} (sound : Sound stored state) (there : state.flight c = some (i,.columns task))
    (owes : stage.owes gone) : Sound stored ((state.dropped gone).becomes c (some (i,stage))) := by
  obtain ⟨columned,virtual⟩ := dropped_kinds gone sound.columned sound.virtual
  refine ⟨sound.distinct,columned,virtual,?_⟩
  intro name
  by_cases own : name = gone
  · right
    exact ⟨c,i,stage,becomes_own,own ▸ owes⟩
  · obtain ⟨columns,virtuals⟩ := dropped_other state own
    refine (sound.kept name).carry columns virtuals rfl (owed_becomes rfl ?_)
    intro j held found owed
    cases there.symm.trans found
    cases owed

theorem appended_sound {state : State ι χ ν τ φ} (sound : Sound stored state) (there : state.flight c = some (i,stage))
    (only : ∀ name, stage.owes name → (field : Field ν τ φ).name = name) (settled : Settled state field.name (some ((typeOf state.fields field.name).getD field.type))) :
    Sound stored ({state with fields := if named state.fields field.name then state.fields else state.fields ++ [field]}.becomes c none) := by
  refine ⟨?_,sound.columned,sound.virtual,?_⟩
  · simp only [State.becomes]
    split
    · exact sound.distinct
    · next unnamed => exact append_distinct sound.distinct (by simpa [named_iff] using unnamed)
  · intro name
    by_cases own : field.name = name
    · subst own
      left
      have type : typeOf (if named state.fields field.name then state.fields else state.fields ++ [field]) field.name =
          some ((typeOf state.fields field.name).getD field.type) := by
        rw [named_iff]
        cases listed : typeOf state.fields field.name with
        | some type => simpa using listed
        | none => simp [typeOf_append,listed]
      simp only [State.becomes,type]
      exact settled.congr rfl rfl
    · refine (sound.kept name).carry rfl rfl ?_ (owed_becomes rfl ?_)
      · simp only [State.becomes]
        split
        · rfl
        · simp [typeOf_append,own]
      · intro j held found owed
        cases there.symm.trans found
        exact absurd (only name owed) own

theorem replaced_sound {state before : State ι χ ν τ φ} (sound : Sound stored state) (there : state.flight c = some (i,stage)) (none : ∀ name, ¬stage.owes name)
    (is : typeOf state.fields old = some type) (free : Free state.fields old (shape : Field ν τ φ).name)
    (columned : Each before.columns stored true) (virtual : Each before.virtuals stored false) (flight : before.flight = state.flight)
    (own : Settled before shape.name (some shape.type)) (left : old ≠ shape.name → Settled before old Option.none)
    (others : ∀ name, name ≠ shape.name → name ≠ old → before.columns name = state.columns name ∧ before.virtuals name = state.virtuals name) :
    Sound stored ({before with fields := replaced state.fields old shape}.becomes c next) := by
  refine ⟨replaced_distinct sound.distinct free,columned,virtual,?_⟩
  intro name
  by_cases new : name = shape.name
  · subst new
    left
    have type : typeOf (replaced state.fields old shape) shape.name = some shape.type := typeOf_replaced_own is free
    simp only [State.becomes,type]
    exact own
  · have type : typeOf (replaced state.fields old shape) name = if name = old then Option.none else typeOf state.fields name := typeOf_replaced_other new
    by_cases gone : name = old
    · subst gone
      left
      rw [if_pos rfl] at type
      simp only [State.becomes,type]
      exact left new
    · rw [if_neg gone] at type
      obtain ⟨columns,virtuals⟩ := others name new gone
      refine (sound.kept name).carry columns virtuals type (owed_becomes flight ?_)
      intro j held found owed
      cases there.symm.trans found
      exact absurd owed (none name)

theorem written_sound [DecidableEq τ] {state : State ι χ ν τ φ} (sound : Sound stored state) (there : state.flight c = some (i,.writes task fields))
    (current : Current state fields task) (done : written stored relation state c i fields task = some after) : Sound stored after := by
  cases task with
  | add field =>
    cases done
    obtain ⟨rfl,unlisted,settled⟩ := current
    have expected : (typeOf state.fields field.name).getD field.type = field.type := by rw [unlisted,Option.getD_none]
    have sound := appended_sound sound there (fun _ owes => owes) (by rwa [expected])
    rw [named_iff,unlisted,Option.isSome_none,if_neg Bool.false_ne_true] at sound
    exact sound
  | link field =>
    cases done
    exact appended_sound sound there (fun _ owes => owes) current
  | remove name joined =>
    cases done
    obtain ⟨rfl,settled⟩ := current
    have owed : ∀ (before : State ι χ ν τ φ), before.flight = state.flight → ∀ other, other ≠ name → Owed state other → Owed (before.becomes c none) other := by
      intro before same other apart
      apply owed_becomes same
      intro j held found owes
      cases there.symm.trans found
      exact absurd owes.2.symm apart
    cases joined with
    | true =>
      obtain ⟨columned,virtual⟩ := dropped_kinds name sound.columned sound.virtual
      exact filtered_sound sound rfl columned virtual (dropped_own.congr rfl rfl) (fun _ apart => dropped_other state apart) (owed _ rfl)
    | false => exact filtered_sound sound rfl sound.columned sound.virtual ((settled rfl).congr rfl rfl) (fun _ _ => ⟨rfl,rfl⟩) (owed _ rfl)
  | altering fieldDef change =>
    obtain ⟨rfl,is,settled,fresh⟩ := current
    obtain ⟨before,altered,rfl⟩ := Option.map_eq_some_iff.mp done
    have renamed : (change.updatedFieldShape fieldDef).name ≠ fieldDef.name →
        typeOf state.fields (change.updatedFieldShape fieldDef).name = none ∧ Settled state (change.updatedFieldShape fieldDef).name none := by
      intro apart
      cases named : change.newName with
      | none => simp [Change.updatedFieldShape,named] at apart
      | some newName =>
        have name : (change.updatedFieldShape fieldDef).name = newName := by simp [Change.updatedFieldShape,named]
        rw [name]
        exact (fresh newName named).2
    have free : Free state.fields fieldDef.name (change.updatedFieldShape fieldDef).name := by
      by_cases same : (change.updatedFieldShape fieldDef).name = fieldDef.name
      · exact .inl same
      · exact .inr (renamed same).1
    obtain ⟨columned,virtual,⟨-,flight⟩,own,left,others⟩ := altered_exact sound settled (fun apart => (renamed apart).2) altered
    exact replaced_sound sound there (fun _ wrong => wrong.elim) is free columned virtual flight own left others
  | keys shape =>
    cases done
    obtain ⟨rfl,is⟩ := current
    refine ⟨replaced_distinct sound.distinct (.inl rfl),sound.columned,sound.virtual,?_⟩
    intro name
    have type : typeOf (replaced state.fields shape.name shape) name = typeOf state.fields name := by
      by_cases own : name = shape.name
      · rw [own,is]
        exact typeOf_replaced_own is (.inl rfl)
      · rw [typeOf_replaced_other own,if_neg own]
    refine (sound.kept name).carry rfl rfl type (owed_becomes rfl ?_)
    intro j held found wrong
    cases there.symm.trans found
    cases wrong
  | alter name change => cases done
  | look => cases done

theorem begun_sound {state : State ι χ ν τ φ} (sound : Sound stored state) (idle : state.flight c = none) : Sound stored (state.becomes c (some (i,stage))) := by
  refine ⟨sound.distinct,sound.columned,sound.virtual,?_⟩
  intro name
  refine (sound.kept name).carry rfl rfl rfl (owed_becomes rfl ?_)
  intro j held found
  cases idle.symm.trans found

theorem step_sound [DecidableEq ι] [DecidableEq τ] (action : Action ι χ ν τ φ) (sound : Sound stored state) (permitted : Permitted state action)
    (done : step stored relation state action = some after) : Sound stored after := by
  cases action with
  | begin c i task =>
    simp only [step] at done
    split at done
    · next idle =>
      obtain ⟨stage,first,rfl⟩ := Option.map_eq_some_iff.mp done
      exact begun_sound sound (by simpa using idle)
    · cases done
  | column c =>
    obtain ⟨⟨i,stage⟩,there,done⟩ := Option.bind_eq_some_iff.mp done
    simp only at done
    split at done
    · cases done
      exact added_sound sound there rfl
    · cases done
      exact added_sound sound there rfl
    · cases done
      exact dropped_sound sound there ⟨rfl,rfl⟩
    · cases done
  | hit c | select c | receive c =>
    obtain ⟨⟨i,stage⟩,there,done⟩ := Option.bind_eq_some_iff.mp done
    simp only at done
    split at done
    · cases done
      exact becomes_sound sound there rfl rfl rfl rfl fun _ owes => ⟨_,_,rfl,owes⟩
    · cases done
  | compute c =>
    obtain ⟨⟨i,stage⟩,there,done⟩ := Option.bind_eq_some_iff.mp done
    simp only at done
    split at done
    · exact computed_sound sound there permitted done
    · cases done
  | write c =>
    obtain ⟨⟨i,stage⟩,there,done⟩ := Option.bind_eq_some_iff.mp done
    simp only at done
    split at done
    · exact written_sound sound there (permitted i _ _ there) done
    · cases done
  | unlink name key =>
    cases done
    exact unlinked_sound sound permitted
  | invalidateCache i =>
    cases done
    exact ⟨sound.distinct,sound.columned,sound.virtual,sound.kept⟩

end

end Zveltio.FieldMetadata
