import Mathlib.Data.List.Pairwise
import Zveltio.JunctionNames
import Zveltio.Runs
namespace Zveltio.Junctions
open JunctionNames Runs

-- What a table was created for: a collection, or the links of two sides. Nothing in the code reads it.
inductive Made where
  | collection (name : Name)
  | junction (source target : Name)
  deriving DecidableEq

structure Table (ρ : Type u) where
  made : Made
  columns : List Name
  rows : List ρ

-- A row of zvd_relations of type m2m.
structure Relation where
  source : Name
  field : Name
  target : Name
  junction : Name
  deriving DecidableEq

-- tables: of the schema public; collections: the names in zvd_collections.
structure State (ρ : Type u) where
  tables : Name → Option (Table ρ)
  collections : List Name
  relations : List Relation

-- recorded: the metadata is written too; m2m: the type of the field in zvd_collections.
-- The m2m fields of a createCollection are addFields after it.
inductive Action (ρ : Type u) where
  | createCollection (name : Name) (columns : List Name)
  | createRelation (source field target : Name) (recorded : Bool)
  | addField (source field target : Name) (recorded : Bool)
  | deleteRelation (source field : Name)
  | dropField (source field : Name) (m2m : Bool)
  | dropCollection (name : Name)
  | insert (table : Name) (row : ρ)

section
variable {ρ : Type u}

def State.start : State ρ := ⟨fun _ => none,[],[]⟩

def Relation.isAt (relation : Relation) (source field : Name) : Bool := relation.source = source && relation.field = field

def Relation.touches (relation : Relation) (name : Name) : Bool := relation.source = name || relation.target = name

-- ADD COLUMN IF NOT EXISTS tenant_id
def applyTenantRLS (columns : List Name) : List Name := if tenant_id ∈ columns then columns else columns ++ [tenant_id]

def State.tableExists (state : State ρ) (name : Name) : Bool := (state.tables (getTableName name)).isSome

def State.put (state : State ρ) (name : Name) (table : Option (Table ρ)) : State ρ := {state with tables := Function.update state.tables name table}

def linkColumns (source target : Name) : List Name := [rowId,column source,column target,created_at]

-- Of a table that is there nothing is made; its two indexes need both columns.
def createJunctionTable (hash : Name → Name) (state : State ρ) (source target : Name) : Option (State ρ) :=
  if SAFE_NAME_RE source ∧ SAFE_NAME_RE target then
    match state.tables (junctionTable hash source target) with
    | none =>
      if (linkColumns source target).Nodup then
        some (state.put (junctionTable hash source target) (some ⟨.junction source target,applyTenantRLS (linkColumns source target),[]⟩))
      else none
    | some table => if column source ∈ table.columns ∧ column target ∈ table.columns then some state else none
  else none

def State.record (state : State ρ) (hash : Name → Name) (source field target : Name) : State ρ :=
  {state with relations := ⟨source,field,target,junctionTable hash source target⟩::state.relations}

def State.forget (state : State ρ) (source field : Name) : State ρ :=
  {state with relations := state.relations.filter fun relation => !relation.isAt source field}

-- DROP TABLE of the junctions that a collection has a part in
def State.dropJunctions (state : State ρ) (name : Name) : State ρ :=
  {state with tables := fun table =>
    if (state.relations.any fun relation => relation.touches name && safeTable relation.junction && relation.junction = table) then none else state.tables table}

def step (hash : Name → Name) (state : State ρ) : Action ρ → Option (State ρ)
  | .createCollection name columns =>
    if SAFE_NAME_RE name ∧ name.length ≤ 63 ∧ state.tableExists name = false ∧ state.tables (truncated (getTableName name)) = none then
      some {state.put (truncated (getTableName name)) (some ⟨.collection name,applyTenantRLS columns,[]⟩) with collections := name::state.collections}
    else none
  | .createRelation source field target recorded =>
    if state.tableExists source ∧ state.tableExists target ∧ (state.relations.any fun relation => relation.isAt source field) = false then
      (createJunctionTable hash state source target).map fun made =>
        if recorded ∧ source ∈ state.collections then made.record hash source field target else made
    else none
  | .addField source field target recorded =>
    if source ∈ state.collections ∧ SAFE_NAME_RE target ∧ state.tableExists target then
      (createJunctionTable hash state source target).map fun made =>
        if recorded ∧ (state.relations.any fun relation => relation.isAt source field) = false then made.record hash source field target else made
    else none
  | .deleteRelation source field => (state.relations.find? fun relation => relation.isAt source field).bind fun relation =>
    if isEngineJunction relation.junction then some ((state.put relation.junction none).forget source field) else none
  | .dropField source field m2m =>
    if source ∈ state.collections then
      match state.relations.find? fun relation => relation.isAt source field with
      | some relation =>
        if m2m then (if isEngineJunction relation.junction then some ((state.put relation.junction none).forget source field) else none)
        else some (state.forget source field)
      | none => some state
    else none
  | .dropCollection name =>
    if state.tableExists name then
      some {(state.dropJunctions name).put (truncated (getTableName name)) none with
        relations := state.relations.filter fun relation => !relation.touches name
        collections := state.collections.filter fun collection => collection ≠ name}
    else none
  | .insert name row => (state.tables name).map fun table => state.put name (some {table with rows := table.rows ++ [row]})

-- The junction has a column for each side, which is not one that every table has.
def Own (relation : Relation) (table : Table ρ) : Prop :=
  column relation.source ∈ table.columns ∧ column relation.target ∈ table.columns ∧ column relation.source ≠ column relation.target ∧
    column relation.source ∉ [rowId,created_at,tenant_id] ∧ column relation.target ∉ [rowId,created_at,tenant_id]

structure Separate (state : State ρ) : Prop where
  apart : state.relations.Pairwise fun one other => one.junction ≠ other.junction
  own : ∀ relation ∈ state.relations, ∃ table, state.tables relation.junction = some table ∧ Own relation table

-- What a removal leaves: the links of every relation that stays, and the table of every collection but the dropped one.
structure Spares (before after : State ρ) (dropped : Option Name) : Prop where
  links : ∀ relation ∈ after.relations, after.tables relation.junction = before.tables relation.junction
  collections : ∀ table held name, before.tables table = some held → held.made = .collection name → dropped ≠ some table → after.tables table = some held

-- What a removal takes besides the junctions: the table of a dropped collection.
def Action.removes : Action ρ → Option (Option Name)
  | .deleteRelation _ _ => some none
  | .dropField _ _ _ => some none
  | .dropCollection name => some (some (getTableName name))
  | _ => none

-- Where the junction's table is there already, with both columns, it is of no other relation and of no collection, and the sides are two.
def Apart (hash : Name → Name) (state : State ρ) (source target : Name) : Prop :=
  source ≠ tenant ∧ target ≠ tenant ∧ ∀ table, state.tables (junctionTable hash source target) = some table → column source ∈ table.columns →
    column target ∈ table.columns → source ≠ target ∧ (∀ name, table.made ≠ .collection name) ∧
      ∀ relation ∈ state.relations, ¬Alike source target relation.source relation.target

-- And no junction is dropped by its name as if it were a collection.
def Permitted (hash : Name → Name) (state : State ρ) : Action ρ → Prop
  | .createRelation source _ target true => source ∈ state.collections → Apart hash state source target
  | .addField source field target true => (state.relations.any fun relation => relation.isAt source field) = false → Apart hash state source target
  | .dropCollection name => ∀ relation ∈ state.relations, relation.junction = getTableName name → relation.touches name
  | _ => True

-- The long names that a run joins.
def Action.joins : Action ρ → List Name
  | .createRelation source _ target _ => [joined source target]
  | .addField source _ target _ => [joined source target]
  | _ => []

-- Of the names joined, no two that are long have the same eight digits of the hash.
def Injects (hash : Name → Name) (names : List Name) : Prop :=
  ∀ one ∈ names, ∀ other ∈ names, 63 < one.length → 63 < other.length → (hash one).take 8 = (hash other).take 8 → one = other

-- A table made for the links of two sides.
structure Links (hash : Name → Name) (names : List Name) (name source target : Name) (columns : List Name) : Prop where
  named : name = junctionTable hash source target
  short : target.length ≤ 59
  known : joined source target ∈ names
  sides : columns = applyTenantRLS (linkColumns source target)

structure Sound (hash : Name → Name) (names : List Name) (state : State ρ) : Prop where
  tables : ∀ name table, state.tables name = some table → name.length ≤ 63 ∧
    ∀ source target, table.made = .junction source target → Links hash names name source target table.columns
  relations : ∀ relation ∈ state.relations, ∃ table source target, state.tables relation.junction = some table ∧ table.made = .junction source target ∧
    Alike relation.source relation.target source target ∧ relation.source ≠ tenant ∧ relation.target ≠ tenant ∧
    column relation.source ≠ column relation.target
  apart : state.relations.Pairwise fun one other => one.junction ≠ other.junction

section
variable {hash : Name → Name} {names : List Name} {before after : State ρ} {source target field : Name}

theorem isolated_member {columns : List Name} {name : Name} : name ∈ applyTenantRLS columns ↔ name ∈ columns ∨ name = tenant_id := by
  unfold applyTenantRLS
  split
  case isTrue there =>
    refine ⟨.inl,fun either => ?_⟩
    rcases either with old | rfl
    · exact old
    · exact there
  case isFalse => rw [List.mem_append,List.mem_singleton]

theorem junction_made (made : createJunctionTable hash before source target = some after) :
    (after = before ∧ ∃ table, before.tables (junctionTable hash source target) = some table ∧ column source ∈ table.columns ∧
      column target ∈ table.columns) ∨
    (before.tables (junctionTable hash source target) = none ∧ column source ≠ column target ∧
      after = before.put (junctionTable hash source target)
        (some ⟨.junction source target,applyTenantRLS (linkColumns source target),[]⟩)) := by
  unfold createJunctionTable at made
  split at made
  case isFalse => cases made
  case isTrue =>
    split at made
    case h_1 free =>
      split at made
      case isFalse => cases made
      case isTrue distinct =>
        cases made
        refine .inr ⟨free,fun same => ?_,rfl⟩
        rw [linkColumns,same] at distinct
        exact absurd distinct (by simp)
    case h_2 table there =>
      split at made
      case isFalse => cases made
      case isTrue both =>
        cases made
        exact .inl ⟨rfl,table,there,both⟩

theorem put_self {name : Name} {table : Option (Table ρ)} : (before.put name table).tables name = table := Function.update_self ..

theorem put_other {name other : Name} {table : Option (Table ρ)} (differ : other ≠ name) : (before.put name table).tables other = before.tables other :=
  Function.update_of_ne differ ..

theorem put_sound (sound : Sound hash names before) {name : Name} {table : Table ρ} (free : before.tables name = none) (short : name.length ≤ 63)
    (links : ∀ source target, table.made = .junction source target → Links hash names name source target table.columns) :
    Sound hash names (before.put name (some table)) := by
  refine ⟨fun other held there => ?_,fun relation member => ?_,sound.apart⟩
  · by_cases same : other = name
    · subst same
      rw [put_self] at there
      cases there
      exact ⟨short,links⟩
    · rw [put_other same] at there
      exact sound.tables other held there
  · obtain ⟨held,source,target,there,rest⟩ := sound.relations relation member
    refine ⟨held,source,target,?_,rest⟩
    rw [put_other]
    · exact there
    · intro same
      rw [same,free] at there
      cases there

theorem create_sound (sound : Sound hash names before) (short : target.length ≤ 59) (known : joined source target ∈ names)
    (made : createJunctionTable hash before source target = some after) : Sound hash names after := by
  rcases junction_made made with ⟨rfl,_⟩ | ⟨free,_,rfl⟩
  · exact sound
  · refine put_sound sound free (identifier_length _) fun one other same => ?_
    cases same
    exact ⟨rfl,short,known,rfl⟩

theorem side_column {one other name : Name} (member : name ∈ applyTenantRLS (linkColumns one other))
    (side : name ∉ [rowId,created_at,tenant_id]) : name = column one ∨ name = column other := by
  simp only [isolated_member,linkColumns,List.mem_cons,List.not_mem_nil,or_false] at member
  simp only [List.mem_cons,List.not_mem_nil,or_false,not_or] at side
  rcases member with (same | same | same | same) | same
  · exact absurd same side.1
  · exact .inl same
  · exact .inr same
  · exact absurd same side.2.1
  · exact absurd same side.2.2

theorem found_alike (sound : Sound hash names before) (injects : Injects hash names) (short : target.length ≤ 59) (known : joined source target ∈ names)
    (apart : Apart hash before source target) {table : Table ρ} (there : before.tables (junctionTable hash source target) = some table)
    (left : column source ∈ table.columns) (right : column target ∈ table.columns) :
    ∃ one other, table.made = .junction one other ∧ Alike source target one other := by
  obtain ⟨first,second,rest⟩ := apart
  obtain ⟨sides,free,_⟩ := rest table there left right
  cases same : table.made with
  | collection name => exact absurd same (free name)
  | junction one other =>
    have links := (sound.tables _ table there).2 one other same
    rw [links.sides] at left right
    refine ⟨one,other,rfl,table_alike short links.short sides ?_ links.named (side_column left (column_common first))
      (side_column right (column_common second))⟩
    exact injects _ known _ links.known

theorem record_sound (sound : Sound hash names before) (injects : Injects hash names) (short : target.length ≤ 59) (known : joined source target ∈ names)
    (apart : Apart hash before source target) (made : createJunctionTable hash before source target = some after) :
    Sound hash names (after.record hash source field target) := by
  have kept := create_sound sound short known made
  rcases junction_made made with ⟨rfl,table,there,left,right⟩ | ⟨free,differ,rfl⟩
  · obtain ⟨one,other,same,alike⟩ := found_alike sound injects short known apart there left right
    have sides := (apart.2.2 table there left right).1
    refine ⟨kept.tables,fun relation member => ?_,List.pairwise_cons.mpr ⟨fun relation member clash => ?_,kept.apart⟩⟩
    · rcases List.mem_cons.mp member with rfl | old
      · exact ⟨table,one,other,there,same,alike,apart.1,apart.2.1,fun columns => sides (column_injective short columns.symm).symm⟩
      · exact kept.relations relation old
    · obtain ⟨held,first,second,found,origin,near,_⟩ := sound.relations relation member
      rw [← clash,there] at found
      cases found
      cases same.symm.trans origin
      exact (apart.2.2 table there left right).2.2 relation member (alike_trans alike near)
  · refine ⟨kept.tables,fun relation member => ?_,List.pairwise_cons.mpr ⟨fun relation member clash => ?_,kept.apart⟩⟩
    · rcases List.mem_cons.mp member with rfl | old
      · exact ⟨_,source,target,put_self,rfl,.inl ⟨rfl,rfl⟩,apart.1,apart.2.1,differ⟩
      · exact kept.relations relation old
    · obtain ⟨held,_,_,found,_⟩ := sound.relations relation member
      rw [← clash,free] at found
      cases found

theorem fewer_sound (sound : Sound hash names before) (fewer : ∀ name table, after.tables name = some table → before.tables name = some table)
    (kept : after.relations.Sublist before.relations) (links : ∀ relation ∈ after.relations, after.tables relation.junction = before.tables relation.junction) :
    Sound hash names after := by
  refine ⟨fun name table there => sound.tables name table (fewer name table there),fun relation member => ?_,sound.apart.sublist kept⟩
  obtain ⟨table,one,other,there,rest⟩ := sound.relations relation (kept.subset member)
  exact ⟨table,one,other,(links relation member).trans there,rest⟩

theorem junctions_differ (sound : Sound hash names before) {one other : Relation} (first : one ∈ before.relations) (second : other ∈ before.relations)
    (differ : one ≠ other) : one.junction ≠ other.junction := by
  have symmetric : Std.Symm fun one other : Relation => one.junction ≠ other.junction := ⟨fun _ _ => Ne.symm⟩
  exact sound.apart.forall first second differ

theorem junction_collection (sound : Sound hash names before) {relation : Relation} (member : relation ∈ before.relations) {table : Table ρ} {name : Name}
    (made : table.made = .collection name) (there : before.tables relation.junction = some table) : False := by
  obtain ⟨held,_,_,found,origin,_⟩ := sound.relations relation member
  cases there.symm.trans found
  cases made.symm.trans origin

-- What a removal does: it takes tables that Spares lets go, and relations.
def Takes (before after : State ρ) (dropped : Option Name) : Prop :=
  Spares before after dropped ∧ (∀ name table, after.tables name = some table → before.tables name = some table) ∧
    after.relations.Sublist before.relations

theorem takes_sound (sound : Sound hash names before) {dropped : Option Name} (takes : Takes before after dropped) : Sound hash names after :=
  fewer_sound sound takes.2.1 takes.2.2 takes.1.links

theorem forget_member {relation : Relation} (member : relation ∈ (before.forget source field).relations) :
    relation ∈ before.relations ∧ relation.isAt source field = false := by
  simpa [State.forget] using member

theorem drop_takes (sound : Sound hash names before) {relation : Relation} (member : relation ∈ before.relations) (here : relation.isAt source field = true) :
    Takes before ((before.put relation.junction none).forget source field) none := by
  refine ⟨⟨fun other found => ?_,fun table held name there made _ => ?_⟩,fun name table there => ?_,List.filter_sublist⟩
  · obtain ⟨old,away⟩ : other ∈ before.relations ∧ other.isAt source field = false := forget_member found
    refine put_other (junctions_differ sound old member fun same => ?_)
    rw [same,here] at away
    cases away
  · refine (put_other ?_).trans there
    rintro rfl
    exact junction_collection sound member made there
  · by_cases same : name = relation.junction
    · rw [same] at there
      cases put_self.symm.trans there
    · exact (put_other same).symm.trans there

theorem forget_takes : Takes before (before.forget source field) none :=
  ⟨⟨fun _ _ => rfl,fun _ _ _ there _ _ => there⟩,fun _ _ there => there,List.filter_sublist⟩

theorem refl_takes : Takes before before none := ⟨⟨fun _ _ => rfl,fun _ _ _ there _ _ => there⟩,fun _ _ there => there,List.Sublist.refl _⟩

theorem deleteRelation_takes (sound : Sound hash names before) (moved : step hash before (.deleteRelation source field) = some after) : Takes before after none := by
  obtain ⟨relation,found,moved⟩ := Option.bind_eq_some_iff.mp moved
  split at moved
  · cases moved
    have here := List.find?_some found
    exact drop_takes sound (List.mem_of_find?_eq_some found) here
  · cases moved

theorem dropField_takes (sound : Sound hash names before) {m2m : Bool} (moved : step hash before (.dropField source field m2m) = some after) :
    Takes before after none := by
  simp only [step] at moved
  split at moved
  case isFalse => cases moved
  case isTrue =>
    split at moved
    case h_1 relation found =>
      split at moved
      · split at moved
        · cases moved
          have here := List.find?_some found
          exact drop_takes sound (List.mem_of_find?_eq_some found) here
        · cases moved
      · cases moved
        exact forget_takes
    case h_2 =>
      cases moved
      exact refl_takes

theorem dropJunctions_cases (state : State ρ) (name table : Name) : (state.dropJunctions name).tables table = state.tables table ∨
    ((state.dropJunctions name).tables table = none ∧ ∃ relation ∈ state.relations, relation.touches name = true ∧ relation.junction = table) := by
  simp only [State.dropJunctions]
  split
  case isTrue found =>
    obtain ⟨relation,member,both⟩ := List.any_eq_true.mp found
    simp only [Bool.and_eq_true,decide_eq_true_eq] at both
    exact .inr ⟨rfl,relation,member,both.1.1,both.2⟩
  case isFalse => exact .inl rfl

theorem table_short (sound : Sound hash names before) {name : Name} (there : before.tableExists name = true) : name.length ≤ 59 := by
  obtain ⟨table,found⟩ := Option.isSome_iff_exists.mp there
  have short := (sound.tables _ table found).1
  simp only [getTableName,List.length_append,List.length_cons,List.length_nil] at short
  omega

theorem truncated_short {name : Name} (short : name.length ≤ 59) : truncated (getTableName name) = getTableName name := by
  refine List.take_of_length_le ?_
  simp only [getTableName,List.length_append,List.length_cons,List.length_nil]
  omega

theorem dropCollection_takes (sound : Sound hash names before) {name : Name} (permitted : Permitted hash before (.dropCollection name))
    (moved : step hash before (.dropCollection name) = some after) : Takes before after (some (getTableName name)) := by
  simp only [step] at moved
  split at moved
  case isFalse => cases moved
  case isTrue there =>
    cases moved
    rw [truncated_short (table_short sound there)]
    refine ⟨⟨fun relation found => ?_,fun table held collection found made other => ?_⟩,fun table held found => ?_,List.filter_sublist⟩
    · obtain ⟨member,away⟩ := List.mem_filter.mp found
      have away : relation.touches name = false := by simpa using away
      refine (put_other fun same => ?_).trans ?_
      · rw [permitted relation member same] at away
        cases away
      · rcases dropJunctions_cases before name relation.junction with same | ⟨_,gone,old,touched,shared⟩
        · exact same
        · refine absurd shared (junctions_differ sound old member fun same => ?_)
          rw [same,away] at touched
          cases touched
    · refine (put_other fun same => other (congrArg some same.symm)).trans ?_
      rcases dropJunctions_cases before name table with same | ⟨_,relation,member,_,rfl⟩
      · exact same.trans found
      · exact absurd found fun found => junction_collection sound member made found
    · by_cases same : table = getTableName name
      · rw [same] at found
        cases put_self.symm.trans found
      · have found := (put_other same).symm.trans found
        rcases dropJunctions_cases before name table with kept | ⟨gone,_⟩
        · exact kept.symm.trans found
        · cases gone.symm.trans found

theorem removal_takes (sound : Sound hash names before) {action : Action ρ} {dropped : Option Name} (removes : action.removes = some dropped)
    (permitted : Permitted hash before action) (moved : step hash before action = some after) : Takes before after dropped := by
  cases action with
  | deleteRelation source field =>
    cases removes
    exact deleteRelation_takes sound moved
  | dropField source field m2m =>
    cases removes
    exact dropField_takes sound moved
  | dropCollection name =>
    cases removes
    exact dropCollection_takes sound permitted moved
  | _ => cases removes

theorem insert_sound (sound : Sound hash names before) {name : Name} {row : ρ} (moved : step hash before (.insert name row) = some after) : Sound hash names after := by
  obtain ⟨table,there,same⟩ := Option.map_eq_some_iff.mp moved
  subst same
  refine ⟨fun other held found => ?_,fun relation member => ?_,sound.apart⟩
  · by_cases same : other = name
    · subst same
      cases put_self.symm.trans found
      exact sound.tables other table there
    · exact sound.tables other held ((put_other same).symm.trans found)
  · obtain ⟨held,one,other,found,rest⟩ := sound.relations relation member
    by_cases same : relation.junction = name
    · rw [same] at found ⊢
      cases there.symm.trans found
      exact ⟨_,one,other,put_self,rest⟩
    · exact ⟨held,one,other,(put_other same).trans found,rest⟩

theorem createCollection_sound (sound : Sound hash names before) {name : Name} {columns : List Name}
    (moved : step hash before (.createCollection name columns) = some after) : Sound hash names after := by
  simp only [step] at moved
  split at moved
  case isFalse => cases moved
  case isTrue fit =>
    cases moved
    have put : Sound hash names (before.put (truncated (getTableName name)) (some ⟨.collection name,applyTenantRLS columns,[]⟩)) :=
      put_sound sound fit.2.2.2 (List.length_take_le ..) fun _ _ never => (nomatch never)
    exact ⟨put.tables,put.relations,put.apart⟩

theorem createRelation_sound (sound : Sound hash names before) (injects : Injects hash names) {recorded : Bool} (known : joined source target ∈ names)
    (permitted : Permitted hash before (.createRelation source field target recorded))
    (moved : step hash before (.createRelation source field target recorded) = some after) : Sound hash names after := by
  simp only [step] at moved
  split at moved
  case isFalse => cases moved
  case isTrue fit =>
    obtain ⟨state,made,same⟩ := Option.map_eq_some_iff.mp moved
    have short := table_short sound fit.2.1
    split at same
    case isTrue both =>
      obtain ⟨rfl,there⟩ := both
      cases same
      exact record_sound sound injects short known (permitted there) made
    case isFalse =>
      cases same
      exact create_sound sound short known made

theorem addField_sound (sound : Sound hash names before) (injects : Injects hash names) {recorded : Bool} (known : joined source target ∈ names)
    (permitted : Permitted hash before (.addField source field target recorded))
    (moved : step hash before (.addField source field target recorded) = some after) : Sound hash names after := by
  simp only [step] at moved
  split at moved
  case isFalse => cases moved
  case isTrue fit =>
    obtain ⟨state,made,same⟩ := Option.map_eq_some_iff.mp moved
    have short := table_short sound fit.2.2
    split at same
    case isTrue both =>
      obtain ⟨rfl,free⟩ := both
      cases same
      exact record_sound sound injects short known (permitted free) made
    case isFalse =>
      cases same
      exact create_sound sound short known made

theorem step_sound (injects : Injects hash names) :
    Preserved (step hash) (fun state action => Permitted hash state action ∧ ∀ name ∈ action.joins, name ∈ names) (Sound (ρ := ρ) hash names) := by
  intro before action after sound permitted moved
  obtain ⟨permitted,known⟩ := permitted
  cases action with
  | createCollection name columns => exact createCollection_sound sound moved
  | createRelation source field target recorded => exact createRelation_sound sound injects (known _ (List.mem_singleton.mpr rfl)) permitted moved
  | addField source field target recorded => exact addField_sound sound injects (known _ (List.mem_singleton.mpr rfl)) permitted moved
  | deleteRelation source field => exact takes_sound sound (deleteRelation_takes sound moved)
  | dropField source field m2m => exact takes_sound sound (dropField_takes sound moved)
  | dropCollection name => exact takes_sound sound (dropCollection_takes sound permitted moved)
  | insert name row => exact insert_sound sound moved

theorem start_sound : Sound hash names (State.start : State ρ) :=
  ⟨fun _ _ there => (nomatch there),fun _ member => (nomatch member),.nil⟩

theorem sound_separate (sound : Sound hash names before) : Separate before := by
  refine ⟨sound.apart,fun relation member => ?_⟩
  obtain ⟨table,one,other,there,made,alike,first,second,differ⟩ := sound.relations relation member
  have sides := ((sound.tables _ table there).2 one other made).sides
  have left : column one ∈ table.columns := by
    rw [sides,isolated_member]
    exact .inl (by simp [linkColumns])
  have right : column other ∈ table.columns := by
    rw [sides,isolated_member]
    exact .inl (by simp [linkColumns])
  refine ⟨table,there,?_⟩
  rcases alike with ⟨same,back⟩ | ⟨same,back,_⟩
  · exact ⟨same ▸ left,back ▸ right,differ,column_common first,column_common second⟩
  · exact ⟨same ▸ right,back ▸ left,differ,column_common first,column_common second⟩

theorem links_apart {actions : List (Action ρ)} (injects : Injects hash (actions.flatMap Action.joins))
    (permitted : Guarded (step hash) (Permitted hash) State.start actions) (path : run (step hash) State.start actions = some after) :
    Separate after ∧ ∀ action dropped next, action.removes = some dropped → Permitted hash after action → step hash after action = some next →
      Spares after next dropped := by
  have known : Guarded (step hash) (fun _ action => ∀ name ∈ Action.joins action, name ∈ actions.flatMap Action.joins) State.start actions :=
    guarded_of_each fun action member _ name joined => List.mem_flatMap.mpr ⟨action,member,joined⟩
  have sound := run_preserves (step_sound injects) start_sound (guarded_and permitted known) path
  exact ⟨sound_separate sound,fun action dropped next removes allowed moved => (removal_takes sound removes allowed moved).1⟩

end

end

-- Two relations to two collections, with a link each, and one of them removed.
def pair : List (Action Nat) :=
  [.createCollection ['a'] [],.createCollection ['b'] [],.createCollection ['c'] [],.createRelation ['a'] ['f'] ['b'] true,.addField ['a'] ['g'] ['c'] true,
    .insert (joined ['a'] ['b']) 1,.insert (joined ['a'] ['c']) 2]

theorem apart_fresh {ρ : Type u} {hash : Name → Name} {state : State ρ} {source target : Name} (first : source ≠ tenant) (second : target ≠ tenant)
    (free : state.tables (junctionTable hash source target) = none) : Apart hash state source target :=
  ⟨first,second,fun _ there => (nomatch free.symm.trans there)⟩

theorem links_apart_pair : ∃ after next, run (step fun name => name) State.start pair = some after ∧ Separate after ∧
    step (fun name => name) after (.deleteRelation ['a'] ['f']) = some next ∧ Spares after next none ∧
    (next.tables (joined ['a'] ['c'])).map Table.rows = some [2] ∧ next.relations.length = 1 := by
  have guarded : Guarded (step fun name => name) (Permitted fun name => name) State.start pair :=
    guarded_cons trivial rfl <| guarded_cons trivial rfl <| guarded_cons trivial rfl <|
      guarded_cons (fun _ => apart_fresh (by decide) (by decide) rfl) rfl <| guarded_cons (fun _ => apart_fresh (by decide) (by decide) rfl) rfl <|
      guarded_cons trivial rfl <| guarded_cons trivial rfl trivial
  have short : Injects (fun name => name) (pair.flatMap Action.joins) := by
    intro one member _ _ long
    have brief : ∀ name ∈ pair.flatMap Action.joins, name.length ≤ 63 := by decide
    exact absurd long (Nat.not_lt.mpr (brief one member))
  obtain ⟨separate,spares⟩ := @links_apart Nat (fun name => name) _ pair short guarded rfl
  exact ⟨_,_,rfl,separate,rfl,spares (.deleteRelation ['a'] ['f']) none _ rfl trivial rfl,rfl,rfl⟩

-- Two fields between one pair of collections.
def twice : List (Action Nat) :=
  [.createCollection ['a'] [],.createCollection ['b'] [],.createRelation ['a'] ['f'] ['b'] true,.createRelation ['a'] ['g'] ['b'] true]

def tenanted : List (Action Nat) := [.createCollection ['a'] [],.createCollection tenant [],.createRelation ['a'] ['f'] tenant true]

def single : List (Action Nat) := [.createCollection ['a'] [],.createCollection ['b'] [],.createRelation ['a'] ['f'] ['b'] true]

theorem links_shared :
    (∃ after next, run (step fun name => name) State.start twice = some after ∧ ¬Separate after ∧ step (fun name => name) after (.deleteRelation ['a'] ['f']) = some next ∧
      ¬Spares after next none) ∧
    (∃ after, run (step fun name => name) State.start tenanted = some after ∧ ¬Separate after) ∧
    ∃ after next, run (step fun name => name) State.start single = some after ∧ step (fun name => name) after (.dropCollection ['j','n','c','_','a','_','b']) = some next ∧ ¬Separate next := by
  refine ⟨⟨_,_,rfl,fun separate => ?_,rfl,fun spares => ?_⟩,⟨_,rfl,fun separate => ?_⟩,_,_,rfl,rfl,fun separate => ?_⟩
  · exact (List.pairwise_cons.mp separate.apart).1 _ (List.mem_cons_self ..) rfl
  · exact nomatch spares.links _ (List.mem_cons_self ..)
  · obtain ⟨table,_,own⟩ := separate.own _ (List.mem_cons_self ..)
    have common : column tenant ∈ [rowId,created_at,tenant_id] := by decide
    exact own.2.2.2.2 common
  · obtain ⟨table,there,_⟩ := separate.own _ (List.mem_cons_self ..)
    exact nomatch there

end Zveltio.Junctions
