import Zveltio.SchemaMigrations
namespace Zveltio.SchemaPromises
open Tables SchemaJson SchemaFiles SchemaPlan SchemaApply SchemaShape SchemaMigrations

theorem mapM_ok {step : α → Except Failure β} (items : List α) (ok : items.mapM step = .ok results) :
    List.Forall₂ (fun item result => step item = .ok result) items results := by
  induction items generalizing results with
  | nil =>
    cases ok
    exact .nil
  | cons item rest ih =>
    rw [List.mapM_cons] at ok
    obtain ⟨result,one,ok⟩ := bind_ok ok
    obtain ⟨others,later,ok⟩ := bind_ok ok
    cases ok
    exact .cons one (ih later)

def creates : ApplyOp → Option String
  | .createCollection definition => some (text (definition.get "name"))
  | _ => none

def touches : ApplyOp → Option String
  | .createRole role _ | .setRole role _ | .grant role _ _ | .revoke role _ _ | .revokeDefault role _ _ => some role
  | _ => none

def Fresh (earlier : ApplyOp) : ApplyOp → Prop
  | .createCollection definition => creates earlier ≠ some (text (definition.get "name"))
  | .addField collection field => (collection,fieldName field) ∉ makes earlier
  | .createRole role _ => touches earlier ≠ some role
  | _ => True

-- What the state diff promises of each op, against the schema the migrations leave.
def Promised (intoSecret : Bool) (cur : Parsed) : ApplyOp → Prop
  | .createCollection definition => cur.collections.get (text (definition.get "name")) = none
  | .addField collection field => ∃ col, cur.collections.get collection = some col ∧ fieldName field ∉ (shape col).map Prod.fst
  | .setCollection _ key _ => key ≠ "fields"
  | .alterField _ _ keys => ∀ key ∈ keys, key ∈ ALTERABLE
  | .intoSecret collection field => intoSecret = true ∧ ∃ col, cur.collections.get collection = some col ∧
      field ∈ (shape col).map Prod.fst ∧ ∀ entry ∈ shape col, entry.1 = field → entry.2 ∈ INTO_SECRET_FROM
  | .createRole role _ => cur.roles.get role = none
  | .migration .. => False
  | _ => True

-- An op that brings no new name into being at the level of Fresh.
def Quiet : ApplyOp → Prop
  | .createCollection _ | .addField .. | .createRole .. | .migration .. => False
  | _ => True

theorem fresh_of_quiet (quiet : Quiet later) : Fresh earlier later := by
  cases later <;> trivial

def Step.Has (step : PlanStep) (property : ApplyOp → Prop) : Prop := ∀ op, step.op = some op → property op

theorem canSet_plain (ok : canSet key want = true) : key ≠ "fields" := by
  rintro rfl
  revert ok
  simp [canSet]

theorem setting_ops (member : step ∈ settingSteps engine name cur des key) (has : step.op = some op) :
    ∃ item, op = .setCollection name key item ∧ key ≠ "fields" := by
  have made := List.mem_singleton.mp (List.mem_ite_nil_left.mp member).2
  rw [made] at has
  obtain ⟨ok,same⟩ := Option.ite_none_right_eq_some.mp has
  exact ⟨_,(Option.some.inj same).symm,canSet_plain ok⟩

theorem alter_ops (member : step ∈ alterSteps name old field) (has : step.op = some op) :
    ∃ keys, op = .alterField name field keys ∧ ∀ key ∈ keys, key ∈ ALTERABLE := by
  have made := List.mem_singleton.mp (List.mem_ite_nil_left.mp member).2
  rw [made] at has
  obtain ⟨ok,same⟩ := Option.ite_none_right_eq_some.mp has
  simp only [Bool.and_eq_true,List.all_eq_true,decide_eq_true_eq] at ok
  exact ⟨_,(Option.some.inj same).symm,ok.1.1⟩

theorem field_ops (member : step ∈ fieldSteps name owned intoSecret cur field) (has : step.op = some op) :
    (op = .addField name field ∧ cur.get (fieldName field) = none) ∨
    (∃ keys, op = .alterField name field keys ∧ ∀ key ∈ keys, key ∈ ALTERABLE) ∨
    (op = .intoSecret name (fieldName field) ∧ intoSecret = true ∧ fieldType field = "secret" ∧
      ∃ old, cur.get (fieldName field) = some old ∧ fieldType old ≠ fieldType field ∧ fieldType old ∈ INTO_SECRET_FROM) := by
  unfold fieldSteps at member
  split at member
  · next absent =>
    split at member
    · cases member
    · rw [List.mem_singleton.mp member] at has
      cases Option.some.inj has
      exact .inl ⟨rfl,absent⟩
  · next old found =>
    split at member
    · exact .inr (.inl (alter_ops member has))
    · next differs =>
      dsimp only at member
      split at member
      · rw [List.mem_singleton.mp member] at has
        cases has
      · next allowed =>
        rcases List.mem_cons.mp member with rfl | member
        · cases Option.some.inj has
          simp only [Bool.or_eq_true,Bool.not_eq_true',decide_eq_true_eq,not_or,Bool.not_eq_false,not_not] at allowed
          exact .inr (.inr ⟨rfl,allowed.1.1,allowed.1.2,old,found,differs,allowed.2⟩)
        · exact .inr (.inl (alter_ops member has))

theorem list_ops (member : step ∈ listSteps des name cur new spec) (has : step.op = some op) :
    (∃ entry source target, op = .putRelation name entry source target) ∨
      ∃ (list : EntryList) (entry : Json), op = .putEntry name list entry ∨ op = .removeEntry name list entry := by
  have put (entry : Json) (made : putOp des spec name entry = some op) :
      (∃ entry source target, op = .putRelation name entry source target) ∨
        ∃ (list : EntryList) (entry : Json), op = .putEntry name list entry ∨ op = .removeEntry name list entry := by
    unfold putOp at made
    split at made
    · cases Option.some.inj made
      exact .inl ⟨_,_,_,rfl⟩
    · next list _ =>
      cases Option.some.inj made
      exact .inr ⟨list,_,.inl rfl⟩
  rcases List.mem_append.mp member with gone | listed
  · obtain ⟨entry,_,rfl⟩ := List.mem_map.mp gone
    obtain ⟨list,_,rfl⟩ := Option.map_eq_some_iff.mp has
    exact .inr ⟨list,_,.inr rfl⟩
  · obtain ⟨entry,_,listed⟩ := List.mem_flatMap.mp listed
    unfold entrySteps at listed
    split at listed
    · rw [List.mem_singleton.mp listed] at has
      exact put entry.2 has
    · split at listed
      · cases listed
      · rw [List.mem_singleton.mp listed] at has
        split at has
        · exact put entry.2 has
        · cases has

theorem order_ops (member : step ∈ orderSteps name owned cur des) (has : step.op = some op) : op = .reorderFields name des := by
  have made := List.mem_singleton.mp (List.mem_ite_nil_left.mp member).2
  rw [made] at has
  exact (Option.some.inj has).symm

def byName (fields : List Json) : Table String Json := Table.ofEntries (fields.map fun field => (fieldName field,field))

theorem keys_pairs (fields : List Json) : Table.keys (fields.map fun field => (fieldName field,field)) = fields.map fieldName := by
  simp [Table.keys]

theorem byName_pairs (held : Named fields) : byName fields = fields.map fun field => (fieldName field,field) :=
  ofEntries_distinct (keys_pairs fields ▸ held.distinct)

theorem byName_get (held : Named fields) (member : field ∈ fields) : (byName fields).get (fieldName field) = some field := by
  rw [byName_pairs held]
  refine get_of_mem ?_ (List.mem_map.mpr ⟨field,member,rfl⟩)
  rw [keys_pairs]
  exact held.distinct

theorem byName_some (held : Named fields) (found : (byName fields).get name = some field) : field ∈ fields ∧ fieldName field = name := by
  rw [byName_pairs held] at found
  obtain ⟨other,member,same⟩ := List.mem_map.mp (get_mem found)
  cases same
  exact ⟨member,rfl⟩

theorem byName_none (held : Named fields) : (byName fields).get name = none ↔ name ∉ fields.map fieldName := by
  rw [byName_pairs held,get_eq_none,keys_pairs]

theorem shape_names (col : Json) : (shape col).map Prod.fst = (entries (some col) "fields").map fieldName := by
  simp [shape]

theorem field_promised (held : Named (entries (some col) "fields")) (found : cur.collections.get name = some col)
    (member : step ∈ fieldSteps name owned intoSecret (byName (entries (some col) "fields")) field) (has : step.op = some op) :
    Promised intoSecret cur op := by
  obtain ⟨rfl,absent⟩ | ⟨keys,rfl,allowed⟩ | ⟨rfl,allowed,_,old,here,_,source⟩ := field_ops member has
  · exact ⟨col,found,shape_names col ▸ (byName_none held).mp absent⟩
  · exact allowed
  · obtain ⟨inside,named⟩ := byName_some held here
    refine ⟨allowed,col,found,?_,?_⟩
    · rw [shape_names,← named]
      exact List.mem_map_of_mem inside
    · intro entry inShape same
      obtain ⟨other,inFields,rfl⟩ := List.mem_map.mp inShape
      have unique := List.inj_on_of_nodup_map held.distinct inFields inside (same.trans named.symm)
      rw [unique]
      exact source

theorem steps_split (member : step ∈ (diffCollection engine desired name col des).steps) :
    (∃ key, step ∈ settingSteps engine name col des key) ∨ step.op = none ∨
      ∃ field ∈ desiredFields (some des),
        step ∈ fieldSteps name (desired.owned name) desired.intoSecret (byName (entries (some col) "fields")) field := by
  rcases List.mem_append.mp member with member | member
  · rcases List.mem_append.mp member with member | member
    · obtain ⟨key,_,member⟩ := List.mem_flatMap.mp member
      exact .inl ⟨key,member⟩
    · obtain ⟨field,_,rfl⟩ := List.mem_map.mp member
      exact .inr (.inl rfl)
  · obtain ⟨field,inside,member⟩ := List.mem_flatMap.mp member
    exact .inr (.inr ⟨field,inside,member⟩)

theorem diff_promised (held : Named (entries (some col) "fields")) (found : cur.collections.get name = some col)
    (member : step ∈ (diffCollection engine desired name col des).steps) (has : step.op = some op) :
    Promised desired.intoSecret cur op := by
  rcases steps_split member with ⟨key,member⟩ | absent | ⟨field,_,member⟩
  · obtain ⟨item,rfl,plain⟩ := setting_ops member has
    exact plain
  · rw [absent] at has
    cases has
  · exact field_promised held found member has

theorem later_quiet (member : step ∈ (diffCollection engine desired name col des).relations ++ (diffCollection engine desired name col des).tail)
    (has : step.op = some op) : Quiet op ∧ touches op = none ∧ ∀ cur secret, Promised secret cur op := by
  have listed (spec : EntrySpec) (inside : step ∈ listSteps desired.collections name col des spec) :
      Quiet op ∧ touches op = none ∧ ∀ cur secret, Promised secret cur op := by
    obtain ⟨_,_,_,rfl⟩ | ⟨_,_,rfl | rfl⟩ := list_ops inside has <;> exact ⟨trivial,rfl,fun _ _ => trivial⟩
  rcases List.mem_append.mp member with member | member
  · obtain ⟨spec,_,member⟩ := List.mem_flatMap.mp member
    exact listed spec member
  · rcases List.mem_append.mp member with member | member
    · rw [order_ops member has]
      exact ⟨trivial,rfl,fun _ _ => trivial⟩
    · obtain ⟨spec,_,member⟩ := List.mem_flatMap.mp member
      exact listed spec member

theorem named_export (held : Named fields) : Named (fields.map exportField) := by
  constructor
  · intro field member
    obtain ⟨raw,inside,rfl⟩ := List.mem_map.mp member
    rw [get_exportField raw (by decide)]
    exact held.texts raw inside
  · rw [List.map_map]
    have same : (fun field : Json => text (field.get "name")) ∘ exportField = fun field => text (field.get "name") := by
      funext field
      exact fieldName_export field
    rw [same]
    exact held.distinct

theorem created_fields (name : String) (owned : List String) (des : Json) :
    entries (some (createCollection name owned des).2) "fields" =
      ((entries (some des) "fields").filter fun field => fieldName field ∉ owned).map exportField := by
  have keeps : ∀ keys : List String, "fields" ∉ keys → ∀ held : Json,
      entries (some (keys.foldl (fun held key => held.set key (.arr [])) held)) "fields" = entries (some held) "fields" := by
    intro keys
    induction keys with
    | nil => intros; rfl
    | cons key rest ih =>
      intro other held
      obtain ⟨here,later⟩ := List.ne_and_not_mem_of_not_mem_cons other
      rw [List.foldl_cons,ih later,entries_set,if_neg here]
  exact (keeps LIST_KEYS (by decide) _).trans (by rw [entries_set,if_pos rfl])

theorem alter_same (field : Json) : alterSteps name field field = [] := by
  simp [alterSteps,same]

theorem created_quiet (held : Named (entries (some des) "fields")) (member : field ∈ desiredFields (some des)) :
    fieldSteps name owned intoSecret (byName (entries (some (createCollection name owned des).2) "fields")) field = [] := by
  rw [created_fields]
  have plain : Named (((entries (some des) "fields").filter fun field => fieldName field ∉ owned).map exportField) :=
    named_export (named_sub held List.filter_sublist)
  obtain ⟨raw,inside,rfl⟩ := List.mem_map.mp member
  unfold fieldSteps
  by_cases mine : fieldName raw ∈ owned
  · have absent : (byName (((entries (some des) "fields").filter fun field => fieldName field ∉ owned).map exportField)).get
        (fieldName (exportField raw)) = none := by
      rw [byName_none plain,fieldName_export]
      intro wrong
      obtain ⟨other,listed,same⟩ := List.mem_map.mp wrong
      obtain ⟨source,kept,rfl⟩ := List.mem_map.mp listed
      rw [fieldName_export] at same
      exact of_decide_eq_true (List.mem_filter.mp kept).2 (same ▸ mine)
    rw [absent]
    exact if_pos ((fieldName_export raw).symm ▸ mine)
  · have kept : exportField raw ∈ ((entries (some des) "fields").filter fun field => fieldName field ∉ owned).map exportField :=
      List.mem_map_of_mem (List.mem_filter.mpr ⟨inside,decide_eq_true mine⟩)
    simp only [byName_get plain kept,if_true,alter_same]

theorem created_name (held : named name des = true) (made : (createCollection name owned des).1.op = some op) :
    ∃ definition, op = .createCollection definition ∧ text (definition.get "name") = name := by
  unfold createCollection at made
  dsimp only at made
  split at made
  · cases made
  · refine ⟨_,(Option.some.inj made).symm,?_⟩
    have here : des.get "name" = some (.str name) := named_iff.mp held
    have first : CREATE_KEYS = "name"::CREATE_KEYS.tail := rfl
    rw [first,List.filterMap_cons_some (b := ("name",.str name)) (by simp [here])]
    rfl

def SinkOf (engine : Engine) (desired : Desired) (cur : Parsed) (name : String) : Sink := collectionSteps engine desired cur.collections name

-- What the schema files and the migrations leave as they are planned.
structure Ready (desired : Desired) (cur : Parsed) : Prop where
  current : WellNamed cur
  fields : ∀ name des, desired.collections.get name = some des → Named (entries (some des) "fields")
  names : ∀ name des, desired.collections.get name = some des → named name des = true

theorem collection_promised (ready : Ready desired cur) (member : step ∈ (SinkOf engine desired cur name).steps) (has : step.op = some op) :
    Promised desired.intoSecret cur op ∧ touches op = none ∧ (∀ other, creates op = some other → other = name) ∧
      (∀ made ∈ makes op, made.1 = name) := by
  unfold SinkOf collectionSteps at member
  cases there : desired.collections.get name with
  | none =>
    rw [there] at member
    rw [List.mem_singleton.mp member] at has
    cases has
  | some des =>
    rw [there] at member
    cases here : cur.collections.get name with
    | none =>
      simp only [here] at member
      rcases List.mem_cons.mp member with rfl | member
      · obtain ⟨definition,rfl,same⟩ := created_name (ready.names _ _ there) has
        refine ⟨?_,rfl,?_,by simp [makes]⟩
        · show cur.collections.get (text (definition.get "name")) = none
          rw [same,here]
        · intro other made
          exact (Option.some.inj made).symm.trans same
      · rcases steps_split member with ⟨key,member⟩ | absent | ⟨field,inside,member⟩
        · obtain ⟨item,rfl,plain⟩ := setting_ops member has
          exact ⟨plain,rfl,by simp [creates],by simp [makes]⟩
        · rw [absent] at has
          cases has
        · rw [created_quiet (ready.fields _ _ there) inside] at member
          cases member
    | some col =>
      simp only [here] at member
      refine ⟨diff_promised (ready.current _ _ here) here member has,?_⟩
      rcases steps_split member with ⟨key,member⟩ | absent | ⟨field,inside,member⟩
      · obtain ⟨item,rfl,plain⟩ := setting_ops member has
        exact ⟨rfl,by simp [creates],by simp [makes]⟩
      · rw [absent] at has
        cases has
      · obtain ⟨rfl,_⟩ | ⟨_,rfl,_⟩ | ⟨rfl,_⟩ := field_ops member has <;> simp [touches,creates,makes]

theorem collection_quiet (member : step ∈ (SinkOf engine desired cur name).relations ++ (SinkOf engine desired cur name).tail)
    (has : step.op = some op) : Quiet op ∧ touches op = none ∧ ∀ cur secret, Promised secret cur op := by
  unfold SinkOf collectionSteps at member
  cases there : desired.collections.get name with
  | none => simp [there] at member
  | some des =>
    rw [there] at member
    cases here : cur.collections.get name with
    | none =>
      simp only [here] at member
      exact later_quiet member has
    | some col =>
      simp only [here] at member
      exact later_quiet member has

def Apart (earlier later : PlanStep) : Prop :=
  ∀ first, earlier.op = some first → ∀ second, later.op = some second → Fresh first second

theorem apart_of_quiet (quiet : ∀ op, later.op = some op → Quiet op) : Apart earlier later :=
  fun _ _ second has => fresh_of_quiet (quiet second has)

theorem pairwise_quiet {steps : List PlanStep} (quiet : ∀ step ∈ steps, ∀ op, step.op = some op → Quiet op) : steps.Pairwise Apart := by
  induction steps with
  | nil => exact .nil
  | cons step rest ih =>
    refine .cons (fun later member => apart_of_quiet (quiet later (List.mem_cons_of_mem _ member))) ?_
    exact ih fun later member => quiet later (List.mem_cons_of_mem _ member)

theorem alter_quiet (member : step ∈ alterSteps name old field) (has : step.op = some op) : Quiet op := by
  obtain ⟨_,rfl,_⟩ := alter_ops member has
  trivial

theorem field_pairwise (name : String) (owned : List String) (intoSecret : Bool) (cur : Table String Json) (field : Json) :
    (fieldSteps name owned intoSecret cur field).Pairwise Apart := by
  unfold fieldSteps
  split
  · split
    · exact .nil
    · exact List.pairwise_singleton ..
  · split
    · exact pairwise_quiet fun step member op has => alter_quiet member has
    · dsimp only
      split
      · exact List.pairwise_singleton ..
      · refine .cons (fun later member => apart_of_quiet fun op has => alter_quiet member has) ?_
        exact pairwise_quiet fun step member op has => alter_quiet member has

theorem fields_pairwise {fields : List Json} (distinct : (fields.map fieldName).Nodup) :
    (fields.flatMap (fieldSteps name owned intoSecret cur)).Pairwise Apart := by
  rw [List.pairwise_flatMap]
  refine ⟨fun field _ => field_pairwise name owned intoSecret cur field,?_⟩
  rw [List.Nodup,List.pairwise_map] at distinct
  refine distinct.imp fun {one two} differs first inFirst second inSecond a hasA b hasB => ?_
  obtain ⟨rfl,_⟩ | ⟨_,rfl,_⟩ | ⟨rfl,_⟩ := field_ops inSecond hasB
  · obtain ⟨rfl,_⟩ | ⟨_,rfl,_⟩ | ⟨rfl,_⟩ := field_ops inFirst hasA
    · simpa [Fresh,makes] using Ne.symm differs
    · simp [Fresh,makes]
    · simp [Fresh,makes]
  · trivial
  · trivial

theorem diff_pairwise (distinct : ((desiredFields (some des)).map fieldName).Nodup) :
    ((diffCollection engine desired name col des).steps).Pairwise Apart := by
  simp only [diffCollection]
  rw [List.pairwise_append]
  refine ⟨pairwise_quiet ?_,fields_pairwise distinct,?_⟩
  · intro step member op has
    rcases List.mem_append.mp member with member | member
    · obtain ⟨key,_,member⟩ := List.mem_flatMap.mp member
      obtain ⟨_,rfl,_⟩ := setting_ops member has
      trivial
    · obtain ⟨field,_,rfl⟩ := List.mem_map.mp member
      cases has
  · intro earlier before later after first hasFirst second hasSecond
    have none_made : makes first = [] := by
      rcases List.mem_append.mp before with member | member
      · obtain ⟨key,_,member⟩ := List.mem_flatMap.mp member
        obtain ⟨_,rfl,_⟩ := setting_ops member hasFirst
        rfl
      · obtain ⟨field,_,rfl⟩ := List.mem_map.mp member
        cases hasFirst
    obtain ⟨field,_,after⟩ := List.mem_flatMap.mp after
    obtain ⟨rfl,_⟩ | ⟨_,rfl,_⟩ | ⟨rfl,_⟩ := field_ops after hasSecond
    · simp [Fresh,none_made]
    · trivial
    · trivial

theorem collection_pairwise (ready : Ready desired cur) : ((SinkOf engine desired cur name).steps).Pairwise Apart := by
  unfold SinkOf collectionSteps
  cases there : desired.collections.get name with
  | none => exact List.pairwise_singleton ..
  | some des =>
    have distinct : ((desiredFields (some des)).map fieldName).Nodup := (named_export (ready.fields _ _ there)).distinct
    cases here : cur.collections.get name with
    | none =>
      refine .cons (fun later member => apart_of_quiet fun op has => ?_) (diff_pairwise distinct)
      rcases steps_split member with ⟨key,member⟩ | absent | ⟨field,inside,member⟩
      · obtain ⟨item,rfl,plain⟩ := setting_ops member has
        trivial
      · rw [absent] at has
        cases has
      · rw [created_quiet (ready.fields _ _ there) inside] at member
        cases member
    | some col => exact diff_pairwise distinct

theorem grant_ops (member : step ∈ grantSteps found other change role word made) (has : step.op = some op) :
    ∃ resource action, op = made resource action := by
  obtain ⟨entry,_,rfl⟩ := List.mem_map.mp member
  exact ⟨_,_,(Option.some.inj has).symm⟩

theorem role_split (ok : roleSteps engine name cur des = .ok steps) :
    ∃ first rest, steps = first ++ rest ∧
      (first = [] ∨ ∃ step, first = [step] ∧ (step.op = none ∨
        (cur = none ∧ ∃ description, step.op = some (.createRole name description)) ∨ ∃ description, step.op = some (.setRole name description))) ∧
      ∀ step ∈ rest, ∀ op, step.op = some op → Quiet op ∧ touches op = some name ∧ ∀ cur secret, Promised secret cur op := by
  unfold roleSteps at ok
  split at ok
  · cases ok
    exact ⟨[_],[],rfl,.inr ⟨_,rfl,.inl rfl⟩,by simp⟩
  · next role _ =>
    obtain ⟨had,_,ok⟩ := bind_ok ok
    obtain ⟨has,_,ok⟩ := bind_ok ok
    obtain ⟨lost,_,ok⟩ := bind_ok ok
    obtain ⟨loses,_,ok⟩ := bind_ok ok
    cases ok
    have regroup (one two three four five : List PlanStep) :
        one ++ two ++ three ++ four ++ five = one ++ (two ++ three ++ four ++ five) := by simp only [List.append_assoc]
    refine ⟨_,_,regroup ..,?_,?_⟩
    · cases cur with
      | none =>
        dsimp only
        split
        · exact .inr ⟨_,rfl,.inr (.inl ⟨rfl,_,rfl⟩)⟩
        · exact .inl rfl
      | some held =>
        dsimp only
        split
        · exact .inl rfl
        · exact .inr ⟨_,rfl,.inr (.inr ⟨_,rfl⟩)⟩
    · intro step member op made
      simp only [List.mem_append,or_assoc] at member
      rcases member with member | member | member | member <;> obtain ⟨_,_,rfl⟩ := grant_ops member made <;>
        exact ⟨trivial,rfl,fun _ _ => trivial⟩

theorem role_ops (ok : roleSteps engine name cur des = .ok steps) (member : step ∈ steps) (has : step.op = some op) :
    touches op = some name ∧ creates op = none ∧ makes op = [] ∧
      (Quiet op ∧ (∀ cur secret, Promised secret cur op) ∨ cur = none ∧ ∃ description, op = .createRole name description) := by
  have quiet_none (touched : touches op = some name) : creates op = none ∧ makes op = [] := by
    cases op <;> first | exact ⟨rfl,rfl⟩ | cases touched
  obtain ⟨first,rest,rfl,one,others⟩ := role_split ok
  rcases List.mem_append.mp member with member | member
  · obtain rfl | ⟨only,rfl,shape⟩ := one
    · cases member
    · rw [List.mem_singleton.mp member] at has
      obtain absent | ⟨new,description,made⟩ | ⟨description,made⟩ := shape
      · rw [absent] at has
        cases has
      · cases made.symm.trans has
        exact ⟨rfl,rfl,rfl,.inr ⟨new,description,rfl⟩⟩
      · cases made.symm.trans has
        exact ⟨rfl,rfl,rfl,.inl ⟨trivial,fun _ _ => trivial⟩⟩
  · obtain ⟨quiet,touched,promised⟩ := others step member op has
    obtain ⟨created,made⟩ := quiet_none touched
    exact ⟨touched,created,made,.inl ⟨quiet,promised⟩⟩

theorem role_pairwise (ok : roleSteps engine name cur des = .ok steps) : steps.Pairwise Apart := by
  obtain ⟨first,rest,rfl,one,others⟩ := role_split ok
  have quiet : rest.Pairwise Apart := pairwise_quiet fun step member op has => (others step member op has).1
  obtain rfl | ⟨only,rfl,_⟩ := one
  · exact quiet
  · exact .cons (fun later member => apart_of_quiet fun op has => (others later member op has).1) quiet

theorem allNames_distinct (cur des : Table String Json) : (allNames cur des).Nodup :=
  (List.perm_insertionSort ..).nodup_iff.mpr (List.nodup_dedup _)

theorem state_split (member : step ∈ stateSteps engine desired cur.collections) :
    ∃ name, step ∈ (SinkOf engine desired cur name).steps ∨
      step ∈ (SinkOf engine desired cur name).relations ++ (SinkOf engine desired cur name).tail := by
  simp only [stateSteps,List.flatMap_map,List.mem_append,List.mem_flatMap] at member
  obtain (⟨name,_,member⟩ | ⟨name,_,member⟩) | ⟨name,_,member⟩ := member
  · exact ⟨name,.inl member⟩
  · exact ⟨name,.inr (List.mem_append_left _ member)⟩
  · exact ⟨name,.inr (List.mem_append_right _ member)⟩

theorem state_ops (ready : Ready desired cur) (member : step ∈ stateSteps engine desired cur.collections) (has : step.op = some op) :
    Promised desired.intoSecret cur op ∧ touches op = none := by
  obtain ⟨name,member | member⟩ := state_split member
  · obtain ⟨promised,untouched,_⟩ := collection_promised ready member has
    exact ⟨promised,untouched⟩
  · obtain ⟨_,untouched,promised⟩ := collection_quiet member has
    exact ⟨promised _ _,untouched⟩

theorem state_pairwise (ready : Ready desired cur) : (stateSteps engine desired cur.collections).Pairwise Apart := by
  simp only [stateSteps,List.flatMap_map]
  rw [List.append_assoc,List.pairwise_append]
  have quiet (name : String) (part : List PlanStep)
      (inside : ∀ step ∈ part, step ∈ (SinkOf engine desired cur name).relations ++ (SinkOf engine desired cur name).tail) :
      ∀ step ∈ part, ∀ op, step.op = some op → Quiet op := fun step member op has => (collection_quiet (inside step member) has).1
  have later : ∀ step ∈ ((allNames cur.collections desired.collections).flatMap fun name => (SinkOf engine desired cur name).relations) ++
      (allNames cur.collections desired.collections).flatMap fun name => (SinkOf engine desired cur name).tail,
      ∀ op, step.op = some op → Quiet op := by
    intro step member
    rcases List.mem_append.mp member with member | member <;> obtain ⟨name,_,member⟩ := List.mem_flatMap.mp member
    · exact quiet name _ (fun _ inside => List.mem_append_left _ inside) step member
    · exact quiet name _ (fun _ inside => List.mem_append_right _ inside) step member
  refine ⟨?_,pairwise_quiet later,fun _ _ step member => apart_of_quiet (later step member)⟩
  refine List.pairwise_flatMap.mpr ⟨fun name _ => collection_pairwise ready,?_⟩
  refine (allNames_distinct cur.collections desired.collections).imp fun {one two} differs first inFirst second inSecond a hasA b hasB => ?_
  obtain ⟨_,_,ownA,madeA⟩ := collection_promised ready inFirst hasA
  obtain ⟨_,touchB,ownB,madeB⟩ := collection_promised ready inSecond hasB
  cases b with
  | createCollection definition =>
    intro wrong
    exact differs ((ownA _ wrong).symm.trans (ownB _ rfl))
  | addField collection field =>
    intro wrong
    exact differs ((madeA _ wrong).symm.trans (madeB (collection,fieldName field) (by simp [makes])))
  | createRole role description => cases touchB
  | _ => trivial

theorem forall₂_source {related : α → β → Prop} (each : List.Forall₂ related names values) (member : value ∈ values) :
    ∃ name ∈ names, related name value := by
  induction each with
  | nil => cases member
  | cons one _ ih =>
    rcases List.mem_cons.mp member with rfl | member
    · exact ⟨_,List.mem_cons_self ..,one⟩
    · obtain ⟨name,inside,there⟩ := ih member
      exact ⟨name,List.mem_cons_of_mem _ inside,there⟩

theorem forall₂_pairwise {related : α → β → Prop} {apart : α → α → Prop} {other : β → β → Prop}
    (each : List.Forall₂ related names values) (distinct : names.Pairwise apart)
    (carried : ∀ one two first second, apart one two → related one first → related two second → other first second) :
    values.Pairwise other := by
  induction each with
  | nil => exact .nil
  | cons here rest ih =>
    obtain ⟨front,later⟩ := List.pairwise_cons.mp distinct
    refine .cons (fun value member => ?_) (ih later)
    obtain ⟨name,inside,there⟩ := forall₂_source rest member
    exact carried _ _ _ _ (front name inside) here there

-- The whole state diff: what each op promises, and that none brings into being what one before it did.
theorem diff_ops (named : WellNamed cur) (desired : WellNamed des)
    (held : ∀ name collection, des.collections.get name = some collection → SchemaFiles.named name collection = true)
    (ok : planDiff engine cur des intoSecret = .ok steps) :
    (∀ step ∈ steps, ∀ op, step.op = some op → Promised intoSecret cur op) ∧ steps.Pairwise Apart := by
  obtain ⟨roles,listed,ok⟩ := bind_ok ok
  cases ok
  have each := mapM_ok _ listed
  have ready (owned : String → List String) : Ready ⟨des.collections,owned,intoSecret⟩ cur := ⟨named,desired,held⟩
  have source : ∀ steps ∈ roles, ∃ name, roleSteps engine name (cur.roles.get name) (des.roles.get name) = .ok steps := by
    intro steps member
    obtain ⟨name,_,made⟩ := forall₂_source each member
    exact ⟨name,made⟩
  constructor
  · intro step member op has
    rcases List.mem_append.mp member with member | member
    · exact (state_ops (ready _) member has).1
    · obtain ⟨steps,inside,member⟩ := List.mem_flatten.mp member
      obtain ⟨name,made⟩ := source steps inside
      obtain ⟨_,_,_,⟨_,promised⟩ | ⟨absent,description,rfl⟩⟩ := role_ops made member has
      · exact promised _ _
      · exact absent
  · refine List.pairwise_append.mpr ⟨state_pairwise (ready _),List.pairwise_flatten.mpr ⟨?_,?_⟩,?_⟩
    · intro steps inside
      obtain ⟨name,made⟩ := source steps inside
      exact role_pairwise made
    · refine forall₂_pairwise each (allNames_distinct cur.roles des.roles) ?_
      intro one two first second differs madeOne madeTwo earlier before later after a hasA b hasB
      obtain ⟨touchA,_⟩ := role_ops madeOne before hasA
      obtain ⟨_,_,_,⟨quiet,_⟩ | ⟨_,description,rfl⟩⟩ := role_ops madeTwo after hasB
      · exact fresh_of_quiet quiet
      · show touches a ≠ some two
        rw [touchA]
        exact fun same => differs (Option.some.inj same)
    · intro earlier before later after a hasA b hasB
      obtain ⟨steps,inside,after⟩ := List.mem_flatten.mp after
      obtain ⟨name,made⟩ := source steps inside
      obtain ⟨_,_,_,⟨quiet,_⟩ | ⟨_,description,rfl⟩⟩ := role_ops made after hasB
      · exact fresh_of_quiet quiet
      · show touches a ≠ some name
        rw [(state_ops (ready _) before hasA).2]
        exact fun wrong => nomatch wrong

end Zveltio.SchemaPromises
