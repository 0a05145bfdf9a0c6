import Zveltio.SchemaApply
namespace Zveltio.SchemaShape
open Tables SchemaJson SchemaFiles SchemaPlan SchemaApply

-- What of a collection holds data: the names and types of its fields.
def shape (collection : Json) : List (String × String) :=
  (entries (some collection) "fields").map fun field => (fieldName field,fieldType field)

def shapeAt (state : Parsed) (name : String) : Option (List (String × String)) := (state.collections.get name).map shape

theorem shape_set (plain : key ≠ "fields") : shape (holder.set key item) = shape holder := by
  simp [shape,Ne.symm plain]

theorem shape_changeFields : shape (changeFields change holder) =
    (change (entries (some holder) "fields")).map fun field => (fieldName field,fieldType field) := by
  simp [shape,changeFields]

theorem shape_mapEntries (plain : key ≠ "fields") : shape (mapEntries key change holder) = shape holder := by
  unfold mapEntries
  split
  · exact shape_set plain
  · rfl

theorem shape_filterEntries (plain : key ≠ "fields") : shape (filterEntries key keep holder) = shape holder := shape_set plain

theorem fieldName_export (field : Json) : fieldName (exportField field) = fieldName field :=
  congrArg text (get_exportField field (by decide))

theorem fieldType_export (field : Json) : fieldType (exportField field) = fieldType field :=
  congrArg text (get_exportField field (by decide))

theorem get_foldl_delete (keys : List String) (out : Json) (other : key ∉ keys) : (keys.foldl Json.delete out).get key = out.get key := by
  induction keys generalizing out with
  | nil => rfl
  | cons first rest ih =>
    obtain ⟨here,later⟩ := List.ne_and_not_mem_of_not_mem_cons other
    rw [List.foldl_cons,ih _ later,json_get_delete,if_neg here]

theorem fieldName_secret (field : Json) : fieldName (afterIntoSecret field) = fieldName field := by
  unfold fieldName afterIntoSecret
  rw [json_get_set,if_neg (by decide),get_foldl_delete _ _ (by decide)]
  rfl

theorem fieldType_secret (field : Json) : fieldType (afterIntoSecret field) = "secret" := by
  simp [fieldType,afterIntoSecret,text,Json.text]

theorem get_setKey (other : key ≠ changed) : (setKey source field changed).get key = field.get key := by
  unfold setKey
  split
  · rw [json_get_delete,if_neg other]
  · rw [json_get_delete,if_neg other]
  · rw [json_get_set,if_neg other]

theorem get_alterKeys (field : Json) (keys : List String) (other : key ∉ keys) (plain : key ∉ FALSE_DEFAULT_FLAGS) :
    (alterKeys source keys field).get key = field.get key := by
  rw [alterKeys,get_exportField _ plain]
  induction keys generalizing field with
  | nil => rfl
  | cons first rest ih =>
    obtain ⟨here,later⟩ := List.ne_and_not_mem_of_not_mem_cons other
    rw [List.foldl_cons,ih _ later,get_setKey here]

-- What is there before stays, changed by f; what is new has a name that was free.
structure Grown (change : String × String → String × String) (made : List String) (before after : List (String × String)) : Prop where
  kept : ∀ entry ∈ before, change entry ∈ after
  origin : ∀ entry ∈ after, (∃ old ∈ before, entry = change old) ∨ entry.1 ∈ made ∧ entry.1 ∉ before.map Prod.fst

theorem grown_map : Grown change made before (before.map change) :=
  ⟨fun _ member => List.mem_map_of_mem member,fun _ member => by
    obtain ⟨old,here,rfl⟩ := List.mem_map.mp member
    exact .inl ⟨old,here,rfl⟩⟩

theorem grown_refl : Grown id made before before := ⟨fun _ member => member,fun entry member => .inl ⟨entry,member,rfl⟩⟩

theorem grown_trans (first : Grown id made one two) (second : Grown id more two three) : Grown id (made ++ more) one three := by
  refine ⟨fun entry member => second.kept entry (first.kept entry member),fun entry member => ?_⟩
  obtain ⟨old,held,same⟩ | ⟨new,free⟩ := second.origin entry member
  · obtain ⟨older,here,origin⟩ | ⟨new,free⟩ := first.origin old held
    · exact .inl ⟨older,here,same.trans origin⟩
    · rw [same]
      exact .inr ⟨List.mem_append_left _ new,free⟩
  · refine .inr ⟨List.mem_append_right _ new,fun old => free ?_⟩
    obtain ⟨older,here,named⟩ := List.mem_map.mp old
    exact List.mem_map.mpr ⟨older,first.kept older here,named⟩

theorem shape_append : Grown id [fieldName field] (shape holder) (shape (changeFields (appendField field) holder)) := by
  rw [shape_changeFields]
  unfold appendField
  split
  · exact grown_refl
  · next free =>
    rw [List.map_append,List.map_singleton]
    refine ⟨fun entry member => List.mem_append_left _ member,fun entry member => ?_⟩
    rcases List.mem_append.mp member with old | new
    · exact .inl ⟨entry,old,rfl⟩
    · rw [List.mem_singleton.mp new,fieldName_export]
      refine .inr ⟨by simp,?_⟩
      simpa [shape] using free

-- The fields an op may bring into being, by collection.
def makes : ApplyOp → List (String × String)
  | .addField collection field => [(collection,fieldName field)]
  | .putRelation collection entry source target =>
    (relationFields collection (storedRelation collection entry) source target).map fun made => (made.1,fieldName made.2)
  | _ => []

def madeIn (op : ApplyOp) (name : String) : List String := ((makes op).filter fun made => made.1 = name).map Prod.snd

def retyped (op : ApplyOp) (name : String) (entry : String × String) : String × String := match op with
  | .intoSecret collection field => if collection = name ∧ entry.1 = field then (entry.1,"secret") else entry
  | _ => entry

def Grows (change : String → String × String → String × String) (made : String → List String) (before after : Parsed) : Prop :=
  ∀ name, Option.Rel (Grown (change name) (made name)) (shapeAt before name) (shapeAt after name)

theorem rel_refl {related : α → α → Prop} (each : ∀ value, related value value) : ∀ value, Option.Rel related value value
  | none => .none
  | some value => .some (each value)

theorem shapeAt_set (state : Parsed) (name other : String) (next : Json) :
    shapeAt {state with collections := state.collections.set name next} other =
      if other = name then some (shape next) else shapeAt state other := by
  unfold shapeAt
  rw [get_set]
  split <;> rfl

theorem grows_at {state : Parsed} (found : state.collections.get name = some held)
    (here : Grown (change name) (made name) (shape held) (shape next))
    (elsewhere : ∀ other, other ≠ name → change other = id) :
    Grows change made state {state with collections := state.collections.set name next} := by
  intro other
  rw [shapeAt_set]
  by_cases same : other = name
  · rw [if_pos same,same,shapeAt,found]
    exact .some here
  · rw [if_neg same,elsewhere other same]
    exact rel_refl (fun _ => grown_refl) _

theorem grows_withCollection {state : Instance} (changed : state.withCollection name change = some after)
    (each : ∀ held next, change held = some next → Grown (retype name) (made name) (shape held) (shape next))
    (elsewhere : ∀ other, other ≠ name → retype other = id) : Grows retype made state.schema after.schema := by
  obtain ⟨held,next,found,moved,rfl⟩ := withCollection_some changed
  exact grows_at found (each held next moved) elsewhere

theorem grown_same (unchanged : shape next = shape held) : Grown id made (shape held) (shape next) := unchanged ▸ grown_refl

theorem grows_refl : Grows (fun _ => id) made state state := fun _ => rel_refl (fun _ => grown_refl) _

theorem grows_trans (first : Grows (fun _ => id) made one two) (second : Grows (fun _ => id) more two three) :
    Grows (fun _ => id) (fun name => made name ++ more name) one three := by
  intro name
  have left := first name
  have right := second name
  generalize shapeAt one name = a at left
  generalize shapeAt two name = b at left right
  generalize shapeAt three name = c at right
  cases left with
  | none => cases right; exact .none
  | some here => cases right with
    | some there => exact .some (grown_trans here there)

theorem grows_fields (fields : List (String × Json)) (state : Instance) (added : fields.foldlM addRelationField state = some after) :
    Grows (fun _ => id) (fun name => ((fields.map fun made => (made.1,fieldName made.2)).filter fun made => made.1 = name).map Prod.snd)
      state.schema after.schema := by
  induction fields generalizing state with
  | nil =>
    cases Option.some.inj added
    exact grows_refl
  | cons first rest ih =>
    rw [List.foldlM_cons] at added
    obtain ⟨next,one,later⟩ := Option.bind_eq_some_iff.mp added
    have here : Grows (fun _ => id) (fun name => if first.1 = name then [fieldName first.2] else []) state.schema next.schema :=
      grows_withCollection one (fun held next moved => by
        cases Option.some.inj moved
        rw [if_pos rfl]
        exact shape_append) fun _ _ => rfl
    have whole := grows_trans here (ih next later)
    intro name
    have at_name := whole name
    simp only [List.map_cons,List.filter_cons]
    by_cases same : first.1 = name
    · simpa [same] using at_name
    · simpa [same] using at_name

def Mild : ApplyOp → Prop
  | .alterField _ _ keys => ∀ key ∈ keys, key ∈ ALTERABLE
  | .setCollection _ key _ => key ≠ "fields"
  | .migration .. | .createCollection _ => False
  | _ => True

theorem shape_changeNamed (keeps : ∀ field, fieldName field = name → fieldName (change field) = fieldName field) :
    shape (changeFields (changeNamed name change) holder) = (entries (some holder) "fields").map fun field =>
      (fieldName field,if fieldName field = name then fieldType (change field) else fieldType field) := by
  rw [shape_changeFields,changeNamed,List.map_map]
  apply List.map_congr_left
  intro field _
  by_cases here : fieldName field = name
  · simp [here,keeps field here]
  · simp [here]

theorem shape_alter (allowed : ∀ key ∈ keys, key ∈ ALTERABLE) :
    shape (changeFields (changeNamed name (alterKeys source keys)) holder) = shape holder := by
  have free : "name" ∉ keys ∧ "type" ∉ keys :=
    ⟨fun wrong => absurd (allowed _ wrong) (by decide),fun wrong => absurd (allowed _ wrong) (by decide)⟩
  have names (field : Json) : fieldName (alterKeys source keys field) = fieldName field :=
    congrArg text (get_alterKeys field keys free.1 (by decide))
  have types (field : Json) : fieldType (alterKeys source keys field) = fieldType field :=
    congrArg text (get_alterKeys field keys free.2 (by decide))
  rw [shape_changeNamed fun field _ => names field]
  apply List.map_congr_left
  intro field _
  rw [types,ite_self]

theorem shape_secret (collection : String) :
    shape (changeFields (changeNamed name afterIntoSecret) holder) = (shape holder).map (retyped (.intoSecret collection name) collection) := by
  rw [shape_changeNamed fun field _ => fieldName_secret field,shape,List.map_map]
  apply List.map_congr_left
  intro field _
  by_cases here : fieldName field = name
  · simp [retyped,here,fieldType_secret]
  · simp [retyped,here]

theorem shape_reorder (order : List String) : Grown id made (shape holder) (shape (changeFields (reorder order) holder)) := by
  rw [shape_changeFields]
  have moved : (reorder order (entries (some holder) "fields")).Perm (entries (some holder) "fields") := List.perm_insertionSort ..
  have pairs := moved.map fun field => (fieldName field,fieldType field)
  exact ⟨fun entry member => pairs.mem_iff.mpr member,fun entry member => .inl ⟨entry,pairs.mem_iff.mp member,rfl⟩⟩

theorem listKey_plain (list : EntryList) : listKey list ≠ "fields" := by cases list <;> decide

theorem shape_putEntry {list : EntryList} (put : putEntry engine list entry holder = some next) : shape next = shape holder := by
  unfold putEntry at put
  split at put
  · cases put
  · cases Option.some.inj put
    split <;> exact shape_set (listKey_plain list)

theorem grows_role (state : Instance) (name : String) (change : Json → Json) :
    Grows (fun _ => id) made state.schema (state.withRole name change).schema := grows_refl

theorem grows_putRelation (put : putRelation state collection entry source target = some after) :
    Grows (fun _ => id) (madeIn (.putRelation collection entry source target)) state.schema after.schema := by
  obtain ⟨held,found,put⟩ := Option.bind_eq_some_iff.mp put
  dsimp only at put
  split at put
  · exact grows_withCollection put (fun _ _ moved => by
      cases Option.some.inj moved
      exact grown_same (shape_mapEntries (by decide))) fun _ _ => rfl
  · obtain ⟨_,_,put⟩ := Option.bind_eq_some_iff.mp put
    obtain ⟨created,added,last⟩ := Option.bind_eq_some_iff.mp put
    have fields := grows_fields _ state added
    have listed : Grows (fun _ => id) (fun _ => []) created.schema after.schema :=
      grows_withCollection last (fun _ _ moved => by
        cases Option.some.inj moved
        exact grown_same (shape_set (by decide))) fun _ _ => rfl
    have whole := grows_trans fields listed
    simp only [List.append_nil] at whole
    exact whole

theorem run_grows (mild : Mild op) (ran : run engine state op = some after) : Grows (retyped op) (madeIn op) state.schema after.schema := by
  cases op with
  | createCollection => exact mild.elim
  | migration => exact mild.elim
  | addField collection field =>
    refine grows_withCollection ran (fun held next moved => ?_) fun _ _ => rfl
    cases Option.some.inj moved
    have made : madeIn (.addField collection field) collection = [fieldName field] := by simp [madeIn,makes]
    rw [made]
    exact shape_append
  | setCollection collection key value =>
    refine grows_withCollection ran (fun held next moved => ?_) fun _ _ => rfl
    cases Option.some.inj moved
    exact grown_same (shape_set mild)
  | reorderFields collection order =>
    refine grows_withCollection ran (fun held next moved => ?_) fun _ _ => rfl
    cases Option.some.inj moved
    exact shape_reorder order
  | alterField collection field keys =>
    refine grows_withCollection ran (fun held next moved => ?_) fun _ _ => rfl
    cases Option.some.inj moved
    exact grown_same (shape_alter mild)
  | intoSecret collection field =>
    refine grows_withCollection ran (fun held next moved => ?_) fun other differs => ?_
    · cases Option.some.inj moved
      rw [shape_secret collection]
      exact grown_map
    · funext entry
      simp [retyped,Ne.symm differs]
  | putRelation => exact grows_putRelation ran
  | putEntry collection list entry =>
    exact grows_withCollection ran (fun held next moved => grown_same (shape_putEntry moved)) fun _ _ => rfl
  | removeEntry collection list entry =>
    refine grows_withCollection ran (fun held next moved => ?_) fun _ _ => rfl
    cases Option.some.inj moved
    exact grown_same (shape_filterEntries (listKey_plain list))
  | createRole | setRole | grant | revoke | revokeDefault =>
    cases Option.some.inj ran
    exact grows_role state _ _
end Zveltio.SchemaShape
