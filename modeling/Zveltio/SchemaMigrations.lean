import Zveltio.SchemaShape
namespace Zveltio.SchemaMigrations
open Tables SchemaJson SchemaFiles SchemaPlan SchemaApply SchemaShape

theorem is_iff : is value word = true ↔ value = some (.str word) := by
  unfold is
  split <;> simp_all

theorem named_iff : named name field = true ↔ field.get "name" = some (.str name) := is_iff

theorem fieldName_of_named (here : named name field = true) : fieldName field = name := by
  rw [fieldName,named_iff.mp here]
  rfl

theorem named_of_fieldName (texts : ∃ held, field.get "name" = some (.str held)) : named (fieldName field) field = true := by
  obtain ⟨held,here⟩ := texts
  rw [named_iff,fieldName,here]
  rfl

theorem named_eq (texts : ∃ held, field.get "name" = some (.str held)) : named name field = decide (fieldName field = name) := by
  by_cases here : fieldName field = name
  · rw [decide_eq_true here,← here]
    exact named_of_fieldName texts
  · rw [decide_eq_false here]
    exact Bool.eq_false_iff.mpr fun wrong => here (fieldName_of_named wrong)

theorem fieldName_set (field : Json) (key value : String) :
    fieldName (field.set key (.str value)) = if key = "name" then value else fieldName field := by
  by_cases here : key = "name"
  · simp [fieldName,here,text,Json.text]
  · simp [fieldName,here,Ne.symm here]

theorem fieldType_set (field : Json) (key value : String) :
    fieldType (field.set key (.str value)) = if key = "type" then value else fieldType field := by
  by_cases here : key = "type"
  · simp [fieldType,here,text,Json.text]
  · simp [fieldType,here,Ne.symm here]

theorem changeField_map (texts : ∀ field ∈ fields, ∃ held, field.get "name" = some (.str held))
    (distinct : (fields.map fieldName).Nodup) :
    changeField name key value fields = fields.map fun field => if fieldName field = name then field.set key (.str value) else field := by
  induction fields with
  | nil => rfl
  | cons field rest ih =>
    obtain ⟨fresh,later⟩ := List.nodup_cons.mp distinct
    have rest_texts := fun other member => texts other (List.mem_cons_of_mem _ member)
    rw [changeField,named_eq (texts field (List.mem_cons_self ..)),List.map_cons]
    by_cases here : fieldName field = name
    · rw [decide_eq_true here,if_pos rfl,if_pos here]
      congr 1
      have others : ∀ other ∈ rest, (if fieldName other = name then other.set key (.str value) else other) = other := by
        intro other member
        refine if_neg fun same => fresh ?_
        exact List.mem_map.mpr ⟨other,member,same.trans here.symm⟩
      rw [List.map_congr_left others,List.map_id']
    · rw [decide_eq_false here,if_neg (by decide),if_neg here,ih rest_texts later]

theorem named_hasField (texts : ∀ field ∈ entries (some col) "fields", ∃ held, field.get "name" = some (.str held)) :
    hasField col name = true ↔ name ∈ (shape col).map Prod.fst := by
  simp only [hasField,List.any_eq_true,shape,List.map_map,List.mem_map]
  constructor
  · rintro ⟨field,member,here⟩
    exact ⟨field,member,fieldName_of_named here⟩
  · rintro ⟨field,member,here⟩
    exact ⟨field,member,by rw [named_eq (texts field member)]; exact decide_eq_true here⟩

def renameEntry («from» «to» : String) (entry : String × String) : String × String :=
  if entry.1 = «from» then («to»,entry.2) else entry

theorem fields_rename (col : Json) («from» «to» : String) :
    entries (some (renameIn «from» «to» col)) "fields" = changeField «from» "name" «to» (entries (some col) "fields") := by
  have plain (key : String) (other : key ≠ "fields") (change : Json → Json) (held : Json) :
      entries (some (mapEntries key change held)) "fields" = entries (some held) "fields" := by
    unfold mapEntries
    split
    · rw [entries_set,if_neg (Ne.symm other)]
    · rfl
  rw [renameIn,plain _ (by decide),plain _ (by decide),entries_set,if_pos rfl]

theorem shape_rename (held : Named (entries (some col) "fields")) :
    shape (renameIn «from» «to» col) = (shape col).map (renameEntry «from» «to») := by
  rw [shape,fields_rename,changeField_map held.texts held.distinct,shape,List.map_map,List.map_map]
  apply List.map_congr_left
  intro field _
  by_cases here : fieldName field = «from»
  · simp [renameEntry,here,fieldName_set,fieldType_set]
  · simp [renameEntry,here]

theorem fields_dropIn (field : String) (col : Json) :
    entries (some (dropIn field col)) "fields" = (entries (some col) "fields").filter fun held => !SchemaFiles.named field held := by
  unfold dropIn filterEntries
  rw [entries_set,if_neg (by decide),entries_set,if_neg (by decide),entries_set,if_pos rfl]

theorem get_mapValues (table : Table String Json) (change : Json → Json) (name : String) :
    (mapValues change table).get name = (table.get name).map change := get_map table change name

theorem named_rename (held : Named (entries (some col) "fields")) (free : hasField col «to» = false) :
    Named (entries (some (renameIn «from» «to» col)) "fields") := by
  rw [fields_rename,changeField_map held.texts held.distinct]
  have absent : «to» ∉ (entries (some col) "fields").map fieldName := by
    intro wrong
    have here : hasField col «to» = true := (named_hasField held.texts).mpr (by simpa [shape] using wrong)
    exact Bool.false_ne_true (free.symm.trans here)
  constructor
  · intro field member
    obtain ⟨old,here,rfl⟩ := List.mem_map.mp member
    split
    · exact ⟨«to»,by rw [json_get_set,if_pos rfl]⟩
    · exact held.texts old here
  · rw [List.map_map]
    refine List.Nodup.map_on ?_ (List.Nodup.of_map _ held.distinct)
    intro one first two second same
    have unique := List.inj_on_of_nodup_map held.distinct first second
    have new (field : Json) : text ((if fieldName field = «from» then field.set "name" (.str «to») else field).get "name") =
        if fieldName field = «from» then «to» else fieldName field := by
      split
      · exact fieldName_set ..
      · rfl
    simp only [Function.comp_apply,new] at same
    by_cases left : fieldName one = «from» <;> by_cases right : fieldName two = «from»
    · exact unique (left.trans right.symm)
    · rw [if_pos left,if_neg right] at same
      exact absurd (same ▸ List.mem_map_of_mem second) absent
    · rw [if_neg left,if_pos right] at same
      exact absurd (same ▸ List.mem_map_of_mem first) absent
    · rw [if_neg left,if_neg right] at same
      exact unique same

theorem named_sub (held : Named fields) (sub : kept.Sublist fields) : Named kept :=
  ⟨fun field member => held.texts field (sub.subset member),held.distinct.sublist (sub.map _)⟩

theorem named_retype (held : Named fields) : Named (changeField name "type" value fields) := by
  rw [changeField_map held.texts held.distinct]
  constructor
  · intro field member
    obtain ⟨old,here,rfl⟩ := List.mem_map.mp member
    split
    · rw [json_get_set,if_neg (by decide)]
      exact held.texts old here
    · exact held.texts old here
  · rw [List.map_map]
    have same : ((fun field : Json => text (field.get "name")) ∘ fun field => if fieldName field = name then field.set "type" (.str value) else field) =
        fun field => text (field.get "name") := by
      funext field
      simp only [Function.comp_apply]
      split
      · exact fieldName_set field "type" value
      · rfl
    rw [same]
    exact held.distinct

theorem wellNamed_set (named : WellNamed state) (held : Named (entries (some next) "fields")) :
    WellNamed {state with collections := state.collections.set name next} := by
  intro other collection found
  rw [get_set] at found
  split at found
  · cases Option.some.inj found
    exact held
  · exact named other collection found

theorem wellNamed_map (table : Table String Json) (change : Json → Json)
    (named : ∀ name collection, table.get name = some collection → Named (entries (some collection) "fields"))
    (plain : ∀ collection, entries (some (change collection)) "fields" = entries (some collection) "fields")
    (found : (mapValues change table).get name = some collection) : Named (entries (some collection) "fields") := by
  rw [get_mapValues] at found
  obtain ⟨held,here,rfl⟩ := Option.map_eq_some_iff.mp found
  rw [plain]
  exact named name held here

theorem fields_mapEntries (other : key ≠ "fields") : entries (some (mapEntries key change held)) "fields" = entries (some held) "fields" := by
  unfold mapEntries
  split
  · rw [entries_set,if_neg (Ne.symm other)]
  · rfl

theorem fields_filterEntries (other : key ≠ "fields") :
    entries (some (filterEntries key keep held)) "fields" = entries (some held) "fields" := by
  rw [filterEntries,entries_set,if_neg (Ne.symm other)]

theorem effect_named (named : WellNamed state) (checked : checkOp word state op = .ok done) : WellNamed (effect state op) := by
  cases op with
  | dropRole => exact named
  | dropCollection collection =>
    intro name held found
    refine wellNamed_map (state.collections.delete collection) _ ?_ (fun _ => fields_filterEntries (by decide)) found
    intro other held found
    rw [get_delete] at found
    split at found
    · cases found
    · exact named other held found
  | renameField collection «from» «to» =>
    simp only [checkOp,changesFieldsOf] at checked
    simp only [effect]
    split
    · exact named
    · next col found =>
      rw [found] at checked
      obtain ⟨_,_,checked⟩ := bind_ok checked
      obtain ⟨_,free,_⟩ := bind_ok checked
      split
      · exact named
      · next absent =>
        have here : hasField col «from» = true := by simpa using absent
        have free : hasField col «to» = false := by simpa [here] using refuseIf_ok free
        intro name held renamed
        exact wellNamed_map _ _ (wellNamed_set named (named_rename (named _ _ found) free)) (fun _ => fields_mapEntries (by decide)) renamed
  | changeFieldType collection field «to» =>
    simp only [effect]
    split
    · exact named
    · next col found =>
      refine wellNamed_set named ?_
      rw [entries_set,if_pos rfl]
      exact named_retype (named _ _ found)
  | dropField collection field =>
    simp only [effect]
    split
    · exact named
    · next col found =>
      refine wellNamed_set named ?_
      rw [fields_dropIn]
      exact named_sub (named _ _ found) List.filter_sublist

theorem shapeAt_mapEntries (state : Parsed) (key : String) (change : Json → Json) (other : key ≠ "fields") (name : String) :
    shapeAt {state with collections := mapValues (mapEntries key change) state.collections} name = shapeAt state name := by
  simp only [shapeAt,get_mapValues,Option.map_map]
  congr 1
  funext held
  exact shape_mapEntries other

theorem rename_shape (named : WellNamed state) (checked : checkOp word state (.renameField collection «from» «to») = .ok done) :
    ∃ col, state.collections.get collection = some col ∧
      («from» ∈ (shape col).map Prod.fst → «to» ∉ (shape col).map Prod.fst) ∧
      ∀ name, shapeAt (effect state (.renameField collection «from» «to»)) name =
        if name = collection then some ((shape col).map (renameEntry «from» «to»)) else shapeAt state name := by
  simp only [checkOp,changesFieldsOf] at checked
  cases found : state.collections.get collection with
  | none =>
    rw [found] at checked
    cases checked
  | some col =>
    rw [found] at checked
    obtain ⟨_,_,checked⟩ := bind_ok checked
    obtain ⟨_,free,_⟩ := bind_ok checked
    have held := named _ _ found
    have both := refuseIf_ok free
    refine ⟨col,rfl,fun here there => ?_,fun name => ?_⟩
    · rw [(named_hasField held.texts).mpr here,(named_hasField held.texts).mpr there] at both
      cases both
    · simp only [effect,found]
      by_cases here : hasField col «from» = true
      · rw [here,if_neg (by decide)]
        refine (shapeAt_mapEntries {state with collections := state.collections.set collection (renameIn «from» «to» col)}
          "relations" (retarget collection «from» «to») (by decide) name).trans ?_
        rw [shapeAt_set,shape_rename held]
      · have absent : «from» ∉ (shape col).map Prod.fst := fun wrong => here ((named_hasField held.texts).mpr wrong)
        have still : (shape col).map (renameEntry «from» «to») = shape col := by
          have each : ∀ entry ∈ shape col, renameEntry «from» «to» entry = entry := fun entry member =>
            if_neg fun wrong : entry.1 = «from» => absent (wrong ▸ List.mem_map_of_mem member)
          rw [List.map_congr_left each,List.map_id']
        rw [if_pos (by simpa using here),still]
        split
        · next same => rw [same,shapeAt,found]; rfl
        · rfl

-- The steps of the pending migrations, each with the state it is planned against.
inductive Follows : Parsed → List PlanStep → Parsed → Prop where
  | nil : Follows state [] state
  | cons {id : String} : migrate state id checksum op last = .ok (next,step) → Follows next rest final →
      Follows state (step::rest) final

theorem Follows.append (first : Follows state one middle) (second : Follows middle two final) : Follows state (one ++ two) final := by
  induction first with
  | nil => exact second
  | cons moved _ ih => exact .cons moved (ih second)

theorem Follows.split (path : Follows state (before ++ step::later) final) :
    ∃ middle next, ∃ id : String, ∃ checksum op last, Follows state before middle ∧ migrate middle id checksum op last = .ok (next,step) := by
  induction before generalizing state with
  | nil =>
    cases path with
    | cons moved _ => exact ⟨_,_,_,_,_,_,.nil,moved⟩
  | cons first rest ih =>
    cases path with
    | cons moved path =>
      obtain ⟨middle,next,id,checksum,op,last,follows,here⟩ := ih path
      exact ⟨middle,next,id,checksum,op,last,.cons moved follows,here⟩

theorem migrateAll_follows {id : String} (ok : migrateAll id checksum state ops = .ok (final,steps)) : Follows state steps final := by
  induction ops generalizing state steps with
  | nil =>
    cases ok
    exact .nil
  | cons op rest ih =>
    obtain ⟨⟨next,step⟩,moved,ok⟩ := bind_ok ok
    obtain ⟨⟨last,later⟩,path,ok⟩ := bind_ok ok
    cases ok
    exact .cons moved (ih path)

theorem pending_follows (ok : pending applied state migrations = .ok (final,steps)) : Follows state steps final := by
  induction migrations generalizing state steps with
  | nil =>
    cases ok
    exact .nil
  | cons first rest ih =>
    obtain ⟨id,migration⟩ := first
    simp only [pending] at ok
    split at ok
    · split at ok
      · cases ok
      · exact ih ok
    · obtain ⟨⟨next,one⟩,moved,ok⟩ := bind_ok ok
      obtain ⟨⟨last,later⟩,path,ok⟩ := bind_ok ok
      cases ok
      exact (migrateAll_follows moved).append (ih path)

theorem migrate_ok {id : String} (ok : migrate state id checksum op last = .ok (next,step)) :
    (∃ word done, checkOp word state op = .ok done) ∧ next = effect state op ∧ step = migrateStep state id checksum last op := by
  obtain ⟨done,checked,ok⟩ := bind_ok ok
  cases ok
  exact ⟨⟨_,done,checked⟩,rfl,rfl⟩

theorem follows_named (named : WellNamed state) (path : Follows state steps final) : WellNamed final := by
  induction path with
  | nil => exact named
  | cons moved _ ih =>
    obtain ⟨⟨_,_,checked⟩,rfl,_⟩ := migrate_ok moved
    exact ih (effect_named named checked)

theorem migrateStep_op (state : Parsed) (id : String) : (migrateStep state id checksum last op).op = some (.migration id checksum last op) := by
  cases op <;> rfl

theorem run_migration {id : String} (ran : run engine state (.migration id checksum last op) = some after) : after.schema = effect state.schema op := by
  obtain ⟨next,moved,ran⟩ := Option.bind_eq_some_iff.mp ran
  have schema : next.schema = effect state.schema op := by
    obtain ⟨_,moved⟩ := Option.ite_none_left_eq_some.mp moved
    cases Option.some.inj moved
    rfl
  cases Option.some.inj ran
  split
  · exact schema
  · exact schema

theorem follows_run (path : Follows state.schema steps final)
    (ran : Runs.run (run engine) state (steps.filterMap PlanStep.op) = some after) : after.schema = final := by
  generalize began : state.schema = schema at path
  induction path generalizing state with
  | nil =>
    cases Option.some.inj ran
    exact began
  | cons moved _ ih =>
    obtain ⟨_,rfl,rfl⟩ := migrate_ok moved
    rw [List.filterMap_cons_some (migrateStep_op _ _),Runs.run_cons] at ran
    obtain ⟨next,one,ran⟩ := ran
    exact ih ran (by rw [run_migration one,began])

end Zveltio.SchemaMigrations
