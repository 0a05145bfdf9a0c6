import Zveltio.SchemaAgreement
import Zveltio.SchemaKept
namespace Zveltio.SchemaEmptyPlan
open Tables SchemaJson SchemaFiles SchemaPlan SchemaPromises SchemaAgreement
open SchemaKept (bareEngine fileSet plainField)

theorem relation_spec : ∃ spec ∈ LISTS, spec.key = "relations" ∧ ∀ name entry, definition spec name entry = relationDefaults name entry :=
  ⟨LISTS[1],List.getElem_mem ..,rfl,fun _ _ => rfl⟩

theorem none_owned (distinct : des.keys.Nodup)
    (covered : ∀ name new, des.get name = some new → ∃ old, cur.get name = some old ∧ ∀ entry ∈ entries (some new) "relations",
      ∃ had ∈ entries (some old) "relations", identical (had.get "name") (entry.get "name") = true) : ownedBy cur des = [] := by
  unfold ownedBy
  refine List.flatMap_eq_nil_iff.mpr fun held member => ?_
  obtain ⟨old,found,each⟩ := covered held.1 held.2 (get_of_mem distinct member)
  rw [List.filter_eq_nil_iff.mpr]
  · rfl
  · intro entry listed
    obtain ⟨had,inside,same⟩ := each entry listed
    rw [found,Bool.not_eq_true,Bool.not_eq_false',List.any_eq_true]
    exact ⟨had,inside,same⟩

theorem mem_allNames {cur des : Table String Json} : name ∈ SchemaPlan.allNames cur des ↔ name ∈ cur.keys ∨ name ∈ des.keys := by
  simp [SchemaPlan.allNames,sortKeys]

theorem sink_empty : (SinkOf engine desired cur name).steps = [] →
    Option.Rel (fun _ _ => True) (cur.collections.get name) (desired.collections.get name) := by
  unfold SinkOf collectionSteps
  cases desired.collections.get name with
  | none => exact fun wrong => nomatch wrong
  | some des => cases cur.collections.get name with
    | none => exact fun wrong => nomatch wrong
    | some old => exact fun _ => .some trivial

theorem sink_both (here : cur.collections.get name = some old) (there : desired.collections.get name = some new) :
    SinkOf engine desired cur name = diffCollection engine desired name old new := by
  unfold SinkOf collectionSteps
  rw [there]
  dsimp only
  rw [here]

theorem state_empty (desired : Desired) (clear : Clear engine cur des) (namedCur : WellNamed cur) (namedDes : WellNamed des)
    (typedCur : ∀ name collection, cur.collections.get name = some collection →
      ∀ field ∈ entries (some collection) "fields", ∃ type, field.get "type" = some (.str type))
    (typedDes : ∀ name collection, des.collections.get name = some collection →
      ∀ field ∈ entries (some collection) "fields", ∃ type, field.get "type" = some (.str type))
    (distinct : des.collections.keys.Nodup) (same : desired.collections = des.collections)
    (owned : ownedBy cur.collections des.collections = [] → ∀ name, desired.owned name = []) :
    stateSteps engine desired cur.collections = [] ↔
      ∀ name, Option.Rel (CollectionAgrees engine name) (cur.collections.get name) (des.collections.get name) := by
  obtain ⟨spec,inside,key,defined⟩ := relation_spec
  have both {name : String} {old new : Json} (here : cur.collections.get name = some old) (there : des.collections.get name = some new)
      (free : desired.owned name = []) :
      ((SinkOf engine desired cur name).steps = [] ∧ (SinkOf engine desired cur name).relations = [] ∧
        (SinkOf engine desired cur name).tail = []) ↔ CollectionAgrees engine name old new := by
    rw [sink_both here (same ▸ there)]
    exact diff_empty (clear.collections name old new here there) (namedCur _ _ here) (namedDes _ _ there) (typedCur _ _ here)
      (typedDes _ _ there) free
  have covers {name : String} {old new : Json} (here : cur.collections.get name = some old) (there : des.collections.get name = some new)
      (listed : Covers spec name (entries (some new) spec.key) (entries (some old) spec.key)) :
      ∀ entry ∈ entries (some new) "relations", ∃ had ∈ entries (some old) "relations",
        identical (had.get "name") (entry.get "name") = true := by
    intro entry member
    rw [← key] at member
    obtain ⟨had,present,equal⟩ := listed entry member
    rw [key] at present member
    rw [defined,defined] at equal
    exact ⟨had,present,(clear.collections name old new here there).relations had present entry member equal.symm⟩
  have parts : stateSteps engine desired cur.collections = [] ↔ ∀ name ∈ allNames cur.collections des.collections,
      (SinkOf engine desired cur name).steps = [] ∧ (SinkOf engine desired cur name).relations = [] ∧
        (SinkOf engine desired cur name).tail = [] := by
    simp only [stateSteps,List.flatMap_map,List.append_eq_nil_iff,List.flatMap_eq_nil_iff,same]
    constructor
    · rintro ⟨⟨steps,relations⟩,tail⟩ name listed
      exact ⟨steps name listed,relations name listed,tail name listed⟩
    · intro all
      exact ⟨⟨fun name listed => (all name listed).1,fun name listed => (all name listed).2.1⟩,fun name listed => (all name listed).2.2⟩
  rw [parts]
  constructor
  · intro empty
    have present {name : String} {new : Json} (there : des.collections.get name = some new) : ∃ old, cur.collections.get name = some old := by
      have listed : name ∈ allNames cur.collections des.collections := mem_allNames.mpr (.inr (get_isSome.mp ⟨new,there⟩))
      have related := sink_empty (empty name listed).1
      rw [same,there] at related
      cases found : cur.collections.get name with
      | none => rw [found] at related; cases related
      | some old => exact ⟨old,rfl⟩
    have free : ∀ name, desired.owned name = [] := by
      refine owned (none_owned distinct fun name new there => ?_)
      obtain ⟨old,here⟩ := present there
      refine ⟨old,here,covers here there ?_⟩
      have listed : name ∈ allNames cur.collections des.collections := mem_allNames.mpr (.inr (get_isSome.mp ⟨new,there⟩))
      have quiet := (empty name listed).2.1
      rw [sink_both here (same ▸ there)] at quiet
      have steps := List.flatMap_eq_nil_iff.mp quiet spec (List.mem_filter.mpr ⟨inside,decide_eq_true key⟩)
      exact ((list_empty _ (fun holder => (clear.collections name old new here there).single spec inside holder)
        ((clear.collections name old new here there).keyed spec inside)).mp steps).2
    intro name
    cases there : des.collections.get name with
    | some new =>
      obtain ⟨old,here⟩ := present there
      rw [here]
      have listed : name ∈ allNames cur.collections des.collections := mem_allNames.mpr (.inr (get_isSome.mp ⟨new,there⟩))
      exact .some ((both here there (free name)).mp (empty name listed))
    | none =>
      cases here : cur.collections.get name with
      | none => exact .none
      | some old =>
        have listed : name ∈ allNames cur.collections des.collections := mem_allNames.mpr (.inl (get_isSome.mp ⟨old,here⟩))
        have related := sink_empty (empty name listed).1
        rw [same,there,here] at related
        cases related
  · intro agrees
    have free : ∀ name, desired.owned name = [] := by
      refine owned (none_owned distinct fun name new there => ?_)
      have related := agrees name
      rw [there] at related
      cases here : cur.collections.get name with
      | none => rw [here] at related; cases related
      | some old =>
        rw [here] at related
        cases related with
        | some agree => exact ⟨old,rfl,covers here there (agree.lists spec inside).2⟩
    intro name listed
    have related := agrees name
    cases here : cur.collections.get name with
    | none =>
      cases there : des.collections.get name with
      | none =>
        rcases mem_allNames.mp listed with known | known
        · exact (get_eq_none.mp here known).elim
        · exact (get_eq_none.mp there known).elim
      | some new => rw [here,there] at related; cases related
    | some old =>
      cases there : des.collections.get name with
      | none => rw [here,there] at related; cases related
      | some new =>
        rw [here,there] at related
        cases related with
        | some agree => exact (both here there (free name)).mpr agree

theorem mapM_nil {step : α → Except Failure (List β)} {items : List α} :
    (∃ results, items.mapM step = .ok results ∧ results.flatten = []) ↔ ∀ item ∈ items, step item = .ok [] := by
  constructor
  · rintro ⟨results,ok,empty⟩ item member
    obtain ⟨result,inside,one⟩ := forall₂_source (List.Forall₂.flip (mapM_ok items ok)) member
    rw [List.flatten_eq_nil_iff.mp empty result inside] at one
    exact one
  · intro each
    refine ⟨items.map fun _ => [],?_,by simp⟩
    induction items with
    | nil => rfl
    | cons item rest ih =>
      rw [List.mapM_cons,each item (List.mem_cons_self ..),ih fun other member => each other (List.mem_cons_of_mem _ member)]
      rfl

theorem agree_refl : Agree engine state state := by
  refine ⟨fun name => ?_,fun name => ⟨fun _ => rfl,fun role here => ?_,fun _ _ _ => Iff.rfl⟩⟩
  · cases state.collections.get name with
    | none => exact .none
    | some col =>
      refine .some ⟨fun key inside needed => ?_,List.forall₂_same.mpr fun _ _ => rfl,fun spec _ => ⟨?_,?_⟩⟩
      · unfold held
        split
        · next grants =>
          subst grants
          have set_there : stated engine "defaultGrants" col ≠ .null := needed.resolve_left (by decide)
          have read : stated engine "defaultGrants" col = orElse (col.get "defaultGrants") .null := rfl
          rw [read] at set_there ⊢
          cases found : col.get "defaultGrants" with
          | none => rw [found] at set_there; exact (set_there rfl).elim
          | some item =>
            rw [found,orElse_some] at set_there
            rw [orElse_some]
            cases item with
            | null => exact (set_there rfl).elim
            | _ => exact rfl
        · exact rfl
      · exact fun entry member => ⟨entry,member,rfl⟩
      · exact fun entry member => ⟨entry,member,rfl⟩
  · rw [here]
    exact rfl

theorem plan_diff (began : read engine current = .ok cur) (wanted : read engine desired = .ok des)
    (none_pending : des.migrations = []) (accepted : checkRequiredSetNull des.collections = .ok ()) :
    planSchema engine current desired applied intoSecret = planDiff engine cur des intoSecret := by
  unfold planSchema planParsed
  rw [began,wanted]
  simp only [bind,Except.bind,accepted,none_pending,List.insertionSort_nil,pending]
  cases planDiff engine cur des intoSecret <;> rfl

theorem plan_empty_iff (began : read engine current = .ok cur) (wanted : read engine desired = .ok des)
    (none_pending : des.migrations = []) (clear : Clear engine cur des) :
    (planSchema engine current desired applied intoSecret = .ok [] ↔ Agree engine cur des) ∧
      (cur = des → planSchema engine current desired applied intoSecret = .ok []) := by
  have iff : planSchema engine current desired applied intoSecret = .ok [] ↔ Agree engine cur des := by
    let desiredState : Desired := ⟨des.collections,fun name => ((ownedBy cur.collections des.collections).filter fun field =>
      field.1 = name).map Prod.snd,intoSecret⟩
    have collections := state_empty desiredState clear (read_named began) (read_named wanted)
      (fun _ _ => read_typed began) (fun _ _ => read_typed wanted) (read_distinct wanted) rfl
      (fun none_made name => by simp only [desiredState,none_made,List.filter_nil,List.map_nil])
    have roles : (∀ name ∈ SchemaPlan.allNames cur.roles des.roles,
        roleSteps engine name (cur.roles.get name) (des.roles.get name) = .ok []) ↔
        ∀ name, RoleAgrees engine name (cur.roles.get name) (des.roles.get name) := by
      have each {name : String} (listed : (cur.roles.get name).isSome = true ∨ (des.roles.get name).isSome = true) :=
        role_empty engine name listed (clear.iterable cur (by simp) name) (clear.iterable des (by simp) name)
          (fun role seeded => clear.descriptions name role seeded) (clear.printed name)
      have present {table : Table String Json} {name : String} : (table.get name).isSome = true ↔ name ∈ table.keys := by
        rw [Option.isSome_iff_exists,get_isSome]
      constructor
      · intro all name
        by_cases listed : (cur.roles.get name).isSome = true ∨ (des.roles.get name).isSome = true
        · refine (each listed).mp (all name (mem_allNames.mpr ?_))
          rwa [present,present] at listed
        · rw [not_or,Option.not_isSome_iff_eq_none,Option.not_isSome_iff_eq_none] at listed
          rw [listed.1,listed.2]
          exact ⟨fun _ => rfl,fun _ wrong => (nomatch wrong),fun _ _ _ => Iff.rfl⟩
      · intro all name listed
        refine (each ?_).mpr (all name)
        rw [present,present]
        exact mem_allNames.mp listed
    have diff : planDiff engine cur des intoSecret = .ok [] ↔ stateSteps engine desiredState cur.collections = [] ∧
        ∃ results, (SchemaPlan.allNames cur.roles des.roles).mapM
          (fun name => roleSteps engine name (cur.roles.get name) (des.roles.get name)) = .ok results ∧ results.flatten = [] := by
      unfold planDiff
      cases listed : (SchemaPlan.allNames cur.roles des.roles).mapM
        (fun name => roleSteps engine name (cur.roles.get name) (des.roles.get name)) with
      | error reason => simp [bind,Except.bind]
      | ok results =>
        simp only [bind,Except.bind,pure,Except.pure,Except.ok.injEq,List.append_eq_nil_iff,exists_eq_left']
        rfl
    rw [plan_diff began wanted none_pending clear.accepted,diff,mapM_nil,roles,collections]
    exact ⟨fun ⟨all,each⟩ => ⟨all,each⟩,fun agrees => ⟨agrees.collections,agrees.roles⟩⟩
  refine ⟨iff,fun same => iff.mpr ?_⟩
  subst same
  exact agree_refl

instance : Decidable (Covers spec collection one two) :=
  inferInstanceAs (Decidable (∀ entry ∈ one, ∃ other ∈ two, Equal (definition spec collection entry) (definition spec collection other)))

def reads (value : Bool) : Json := .obj [("role",.str "editor"),("column",.str "title"),("read",.bool value)]

def permissionFile (fields permissions rules : List Json) : Json := .obj [("name",.str "posts"),("fields",.arr fields),
  ("columnPermissions",.arr permissions),("rowRules",.arr rules)]

def editors : Table String Json := [("editor",.obj [("name",.str "editor")])]

theorem emptyPlan (engine : Engine) (current desired : Files) (applied : List (String × String)) (intoSecret : Bool)
    (planned : ((planSchema engine current desired applied intoSecret).toOption.map List.isEmpty) = some true) :
    planSchema engine current desired applied intoSecret = .ok [] := by
  obtain ⟨steps,found,empty⟩ := Option.map_eq_some_iff.mp planned
  rw [toOption_some found,List.isEmpty_iff.mp empty]

def oneFile : Json := permissionFile [plainField "title"] [reads true] []

def bothFile : Json := permissionFile [plainField "title"] [reads false,reads true] []

-- The map of the desired permissions keeps the last of the two only.
theorem contradiction_hidden : ¬∀ engine current desired cur des, read engine current = .ok cur → read engine desired = .ok des →
    des.migrations = [] → (planSchema engine current desired [] false = .ok [] ↔ Agree engine cur des) := by
  intro claimed
  have began : read bareEngine (fileSet [("collections/posts.json",oneFile)]) = .ok ⟨[("posts",oneFile)],editors,[]⟩ := rfl
  have wanted : read bareEngine (fileSet [("collections/posts.json",bothFile)]) = .ok ⟨[("posts",bothFile)],editors,[]⟩ := rfl
  have agrees := (claimed _ _ _ _ _ began wanted rfl).mp (emptyPlan _ _ _ _ _ (by decide +kernel))
  have related : Option.Rel (CollectionAgrees bareEngine "posts") (some oneFile) (some bothFile) := agrees.collections "posts"
  cases related with
  | some agree =>
    have covered := (agree.lists LISTS[3] (List.getElem_mem ..)).2
    revert covered
    decide +kernel

def draftRule (enabled : List (String × Json)) : Json :=
  .obj ([("role",.str "editor"),("field",.str "status"),("op",.str "eq"),("value",.str "draft")] ++ enabled)

def exportedFile : Json := permissionFile [plainField "title"] [reads true] [draftRule []]

-- The same with two defaults written out.
def writtenFile : Json := permissionFile [.obj [("name",.str "title"),("type",.str "text"),("required",.bool false)]] [reads true]
  [draftRule [("enabled",.bool true)]]

theorem plan_empty_defaults :
    planSchema bareEngine (fileSet [("collections/posts.json",exportedFile)]) (fileSet [("collections/posts.json",writtenFile)]) [] false =
      .ok [] ∧ Agree bareEngine ⟨[("posts",exportedFile)],editors,[]⟩ ⟨[("posts",writtenFile)],editors,[]⟩ := by
  have only {value : Json} {name : String} {item : Json} (found : Table.get [("posts",value)] name = some item) :
      name = "posts" ∧ item = value := by
    rw [get_cons] at found
    split at found
    · next here => exact ⟨here.symm,(Option.some.inj found).symm⟩
    · cases found
  have role (name : String) : editors.get name = none ∨ editors.get name = some (.obj [("name",.str "editor")]) := by
    unfold editors
    rw [get_cons]
    split
    · exact .inr rfl
    · exact .inl rfl
  have idle (name : String) : ∀ key ∈ GRANT_KEYS, entries (editors.get name) key = [] := by
    rcases role name with absent | found
    · rw [absent]
      exact fun _ _ => rfl
    · rw [found]
      intro key inside
      obtain rfl | rfl : key = "permissions" ∨ key = "revokedDefaults" := by simpa [GRANT_KEYS] using inside
      · rfl
      · rfl
  have clear : Clear bareEngine ⟨[("posts",exportedFile)],editors,[]⟩ ⟨[("posts",writtenFile)],editors,[]⟩ := by
    refine ⟨rfl,fun name one two here there => ?_,fun state member name key inside permission listed => ?_,
      fun name item _ absent found => ?_,fun name key inside one left => ?_⟩
    · obtain ⟨rfl,rfl⟩ := only here
      obtain ⟨_,rfl⟩ := only there
      refine ⟨fun field member => ?_,by decide +kernel,by decide +kernel,by decide +kernel,by decide +kernel⟩
      have listed : field ∈ [plainField "title"] := member
      rw [List.mem_singleton.mp listed]
      rfl
    · have same : state.roles = editors := by
        rcases List.mem_cons.mp member with rfl | member
        · rfl
        · rw [List.mem_singleton.mp member]
      rw [same,idle name key inside] at listed
      cases listed
    · rw [absent] at found
      cases found
    · rw [pairs,idle name key inside] at left
      cases left
  have planned := emptyPlan bareEngine (fileSet [("collections/posts.json",exportedFile)]) (fileSet [("collections/posts.json",writtenFile)]) [] false
    (by decide +kernel)
  have began : read bareEngine (fileSet [("collections/posts.json",exportedFile)]) = .ok ⟨[("posts",exportedFile)],editors,[]⟩ := rfl
  have wanted : read bareEngine (fileSet [("collections/posts.json",writtenFile)]) = .ok ⟨[("posts",writtenFile)],editors,[]⟩ := rfl
  exact ⟨planned,(plan_empty_iff began wanted rfl clear).1.mp planned⟩

end Zveltio.SchemaEmptyPlan
