import Zveltio.SchemaPromises
import Mathlib.Data.List.Induction
namespace Zveltio.SchemaKept
open Tables SchemaJson SchemaFiles SchemaPlan SchemaApply SchemaShape SchemaMigrations SchemaPromises

def renamed (collection : String) (name : String) : ApplyOp → String
  | .migration _ _ _ (.renameField held «from» «to») => if held = collection ∧ name = «from» then «to» else name
  | _ => name

def renamedBy (ops : List ApplyOp) (collection name : String) : String := ops.foldl (renamed collection) name

-- A type stays, or an extension's plan turns a text-like one into secret.
def KeepsType (intoSecret : Bool) (old new : String) : Prop := new = old ∨ intoSecret = true ∧ old ∈ INTO_SECRET_FROM ∧ new = "secret"

-- Every collection, field and role is still there, two fields never under one name.
structure Kept (intoSecret : Bool) (ops : List ApplyOp) (before after : Parsed) : Prop where
  collections : ∀ name old, shapeAt before name = some old → ∃ new, shapeAt after name = some new ∧
    ∀ entry ∈ old, ∃ type, (renamedBy ops name entry.1,type) ∈ new ∧ KeepsType intoSecret entry.2 type
  distinct : ∀ name old, shapeAt before name = some old → ∀ one ∈ old, ∀ two ∈ old,
    renamedBy ops name one.1 = renamedBy ops name two.1 → one.1 = two.1
  roles : ∀ role ∈ before.roles.keys, role ∈ after.roles.keys

def Recreates (state : Parsed) : ApplyOp → Prop
  | .createCollection definition => (shapeAt state (text (definition.get "name"))).isSome
  | .addField collection field => ∃ held, shapeAt state collection = some held ∧ fieldName field ∈ held.map Prod.fst
  | .createRole role _ => role ∈ state.roles.keys
  | _ => False

theorem keepsType_trans (first : KeepsType secret one two) (second : KeepsType secret two three) : KeepsType secret one three := by
  rcases second with rfl | ⟨allowed,source,rfl⟩
  · exact first
  · rcases first with rfl | ⟨_,_,rfl⟩
    · exact .inr ⟨allowed,source,rfl⟩
    · exact absurd source (by decide)

theorem kept_trans (first : Kept secret ops one two) (second : Kept secret [op] two three) : Kept secret (ops ++ [op]) one three := by
  have compose (name entry : String) : renamedBy (ops ++ [op]) name entry = renamedBy [op] name (renamedBy ops name entry) := by
    simp [renamedBy]
  refine ⟨fun name old found => ?_,fun name old found a inA b inB same => ?_,fun role held => second.roles role (first.roles role held)⟩
  · obtain ⟨middle,there,each⟩ := first.collections name old found
    obtain ⟨new,here,later⟩ := second.collections name middle there
    refine ⟨new,here,fun entry member => ?_⟩
    obtain ⟨type,inMiddle,kept⟩ := each entry member
    obtain ⟨last,inNew,again⟩ := later _ inMiddle
    exact ⟨last,compose name entry.1 ▸ inNew,keepsType_trans kept again⟩
  · obtain ⟨middle,there,each⟩ := first.collections name old found
    rw [compose,compose] at same
    obtain ⟨_,placeA,_⟩ := each a inA
    obtain ⟨_,placeB,_⟩ := each b inB
    exact first.distinct name old found a inA b inB (second.distinct name middle there _ placeA _ placeB same)

theorem kept_refl : Kept secret [] state state :=
  ⟨fun _ old found => ⟨old,found,fun entry member => ⟨entry.2,member,.inl rfl⟩⟩,fun _ _ _ _ _ _ _ same => same,fun _ held => held⟩

theorem run_roles (ran : run engine state op = some after) (plain : ∀ id checksum last change, op ≠ .migration id checksum last change) :
    (∀ role ∈ state.schema.roles.keys, role ∈ after.schema.roles.keys) ∧
      ∀ role ∈ after.schema.roles.keys, role ∈ state.schema.roles.keys ∨ touches op = some role := by
  have still {name : String} {change : Json → Option Json} (changed : state.withCollection name change = some after) :
      after.schema.roles = state.schema.roles := by
    obtain ⟨_,_,_,_,rfl⟩ := withCollection_some changed
    rfl
  have same (equal : after.schema.roles = state.schema.roles) : (∀ role ∈ state.schema.roles.keys, role ∈ after.schema.roles.keys) ∧
      ∀ role ∈ after.schema.roles.keys, role ∈ state.schema.roles.keys ∨ touches op = some role := by
    rw [equal]
    exact ⟨fun _ held => held,fun _ held => .inl held⟩
  have touched (name : String) (change : Json → Json) (here : after = state.withRole name change) (named : touches op = some name) :
      (∀ role ∈ state.schema.roles.keys, role ∈ after.schema.roles.keys) ∧
        ∀ role ∈ after.schema.roles.keys, role ∈ state.schema.roles.keys ∨ touches op = some role := by
    subst here
    simp only [Instance.withRole,mem_keys_set]
    refine ⟨fun role held => .inr held,fun role held => ?_⟩
    rcases held with rfl | held
    · exact .inr named
    · exact .inl held
  cases op with
  | createCollection =>
    cases Option.some.inj ran
    exact same rfl
  | migration id checksum last change => exact absurd rfl (plain id checksum last change)
  | addField | setCollection | reorderFields | alterField | intoSecret | putEntry | removeEntry => exact same (still ran)
  | putRelation collection entry source target =>
    refine same ?_
    obtain ⟨held,found,put⟩ := Option.bind_eq_some_iff.mp ran
    dsimp only at put
    split at put
    · exact still put
    · obtain ⟨_,_,put⟩ := Option.bind_eq_some_iff.mp put
      obtain ⟨created,added,last⟩ := Option.bind_eq_some_iff.mp put
      obtain ⟨_,_,_,_,rfl⟩ := withCollection_some last
      have carried : ∀ (fields : List (String × Json)) (start : Instance), fields.foldlM addRelationField start = some created →
          created.schema.roles = start.schema.roles := by
        intro fields
        induction fields with
        | nil =>
          intro start made
          rw [← Option.some.inj made]
        | cons field rest ih =>
          intro start made
          rw [List.foldlM_cons] at made
          obtain ⟨next,one,made⟩ := Option.bind_eq_some_iff.mp made
          obtain ⟨_,_,_,_,rfl⟩ := withCollection_some one
          have rest := ih _ made
          exact rest
      exact carried _ _ added
  | createRole | setRole | grant | revoke | revokeDefault =>
    exact touched _ _ (Option.some.inj ran).symm rfl

-- While the state diff runs: what the migrations left is there, and what is new was brought by an op.
structure Ahead (secret : Bool) (cur : Parsed) (done : List ApplyOp) (state : Parsed) : Prop where
  collections : ∀ name old, shapeAt cur name = some old → ∃ new, shapeAt state name = some new ∧
    (∀ entry ∈ old, entry.1 ∈ new.map Prod.fst) ∧
    ∀ entry ∈ new, (∃ held ∈ old, held.1 = entry.1 ∧ KeepsType secret held.2 entry.2) ∨
      (∃ op ∈ done, (name,entry.1) ∈ makes op) ∧ entry.1 ∉ old.map Prod.fst
  created : ∀ name, (shapeAt state name).isSome → (shapeAt cur name).isSome ∨ ∃ op ∈ done, creates op = some name
  roles : ∀ role ∈ state.roles.keys, role ∈ cur.roles.keys ∨ ∃ op ∈ done, touches op = some role

theorem ahead_start : Ahead secret cur [] cur :=
  ⟨fun _ old found => ⟨old,found,fun _ member => List.mem_map_of_mem member,fun entry member => .inl ⟨entry,member,rfl,.inl rfl⟩⟩,
    fun _ held => .inl held,fun _ held => .inl held⟩

theorem retyped_name (op : ApplyOp) (name : String) (entry : String × String) : (retyped op name entry).1 = entry.1 := by
  cases op <;> simp only [retyped]
  split <;> rfl

theorem mem_madeIn : entry ∈ madeIn op name ↔ (name,entry) ∈ makes op := by
  simp [madeIn]

theorem promised_mild (promised : Promised secret cur op) (other : creates op = none) : Mild op := by
  cases op with
  | createCollection => cases other
  | migration => exact promised
  | setCollection => exact promised
  | alterField => exact promised
  | _ => trivial

theorem shapeAt_create (ran : run engine state (.createCollection definition) = some after) (name : String) :
    shapeAt after.schema name = if name = text (definition.get "name") then
      some (shape (changeFields (fun fields => fields.map exportField) definition)) else shapeAt state.schema name := by
  cases Option.some.inj ran
  exact shapeAt_set ..

theorem secret_type (ahead : Ahead secret cur done state) (promised : Promised secret cur (.intoSecret name field))
    (found : shapeAt state name = some held) (member : entry ∈ held) (here : entry.1 = field) : KeepsType secret entry.2 "secret" := by
  obtain ⟨allowed,col,there,inside,source⟩ := promised
  have shaped : shapeAt cur name = some (shape col) := by rw [shapeAt,there]; rfl
  obtain ⟨new,now,_,origin⟩ := ahead.collections name _ shaped
  cases Option.some.inj (now.symm.trans found)
  obtain ⟨old,inOld,same,kept⟩ | ⟨_,absent⟩ := origin entry member
  · have text := source old inOld (same.trans here)
    rcases kept with equal | ⟨_,_,equal⟩
    · exact .inr ⟨allowed,equal ▸ text,rfl⟩
    · exact .inl equal.symm
  · exact absurd (here ▸ inside) absent

theorem retyped_keeps (ahead : Ahead secret cur done state) (promised : Promised secret cur op) (found : shapeAt state name = some held)
    (member : entry ∈ held) : KeepsType secret entry.2 (retyped op name entry).2 := by
  cases op with
  | intoSecret collection field =>
    simp only [retyped]
    split
    · next here =>
      obtain ⟨rfl,named⟩ := here
      exact secret_type ahead promised found member named
    · exact .inl rfl
  | _ => exact .inl rfl

theorem rel_some {related : α → β → Prop} (rel : Option.Rel related one two) (here : one = some first) :
    ∃ second, two = some second ∧ related first second := by
  subst here
  cases rel with
  | some held => exact ⟨_,rfl,held⟩

theorem rel_isSome {related : α → β → Prop} (rel : Option.Rel related one two) : two.isSome = one.isSome := by
  cases rel <;> rfl

theorem ahead_step (ahead : Ahead secret cur done state.schema) (promised : Promised secret cur op) (ran : run engine state op = some after) :
    Ahead secret cur (done ++ [op]) after.schema := by
  have plain : ∀ id checksum last change, op ≠ .migration id checksum last change := by
    rintro id checksum last change rfl
    exact promised
  have roles : ∀ role ∈ after.schema.roles.keys, role ∈ cur.roles.keys ∨ ∃ other ∈ done ++ [op], touches other = some role := by
    intro role held
    rcases (run_roles ran plain).2 role held with held | named
    · rcases ahead.roles role held with old | ⟨other,before,named⟩
      · exact .inl old
      · exact .inr ⟨other,List.mem_append_left _ before,named⟩
    · exact .inr ⟨op,by simp,named⟩
  have longer (other : ApplyOp) (before : other ∈ done) : other ∈ done ++ [op] := List.mem_append_left _ before
  cases made : creates op with
  | none =>
    have grows := run_grows (promised_mild promised made) ran
    refine ⟨fun name old found => ?_,fun name held => ?_,roles⟩
    · obtain ⟨middle,there,names,origin⟩ := ahead.collections name old found
      obtain ⟨new,here,grown⟩ := rel_some (grows name) there
      refine ⟨new,here,fun entry member => ?_,fun entry member => ?_⟩
      · obtain ⟨held,inside,same⟩ := List.mem_map.mp (names entry member)
        exact List.mem_map.mpr ⟨_,grown.kept held inside,(retyped_name op name held).trans same⟩
      · obtain ⟨held,inside,same⟩ | ⟨new,free⟩ := grown.origin entry member
        · have kept := retyped_keeps ahead promised there inside
          rw [same,retyped_name]
          obtain ⟨first,inOld,named,type⟩ | ⟨⟨other,before,mine⟩,absent⟩ := origin held inside
          · exact .inl ⟨first,inOld,named,keepsType_trans type kept⟩
          · exact .inr ⟨⟨other,longer other before,mine⟩,absent⟩
        · refine .inr ⟨⟨op,by simp,mem_madeIn.mp new⟩,fun wrong => free ?_⟩
          obtain ⟨first,inOld,named⟩ := List.mem_map.mp wrong
          exact named ▸ names first inOld
    · rw [rel_isSome (grows name)] at held
      rcases ahead.created name held with old | ⟨other,before,named⟩
      · exact .inl old
      · exact .inr ⟨other,longer other before,named⟩
  | some created =>
    obtain ⟨definition,rfl⟩ : ∃ definition, op = .createCollection definition := by
      cases op with
      | createCollection definition => exact ⟨definition,rfl⟩
      | _ => cases made
    refine ⟨fun name old found => ?_,fun name held => ?_,roles⟩
    · have other : name ≠ text (definition.get "name") := by
        rintro rfl
        have absent : cur.collections.get (text (definition.get "name")) = none := promised
        rw [shapeAt,absent] at found
        cases found
      obtain ⟨new,there,names,origin⟩ := ahead.collections name old found
      refine ⟨new,by rw [shapeAt_create ran,if_neg other,there],names,fun entry member => ?_⟩
      obtain held | ⟨⟨op,before,mine⟩,absent⟩ := origin entry member
      · exact .inl held
      · exact .inr ⟨⟨op,longer op before,mine⟩,absent⟩
    · rw [shapeAt_create ran] at held
      split at held
      · next same => exact .inr ⟨.createCollection definition,by simp,by rw [same]; rfl⟩
      · rcases ahead.created name held with old | ⟨other,before,named⟩
        · exact .inl old
        · exact .inr ⟨other,longer other before,named⟩

theorem renamedBy_promised (promised : Promised secret cur op) (name entry : String) : renamedBy [op] name entry = entry := by
  cases op with
  | migration => exact promised.elim
  | _ => rfl

theorem shapeAt_promised (promised : cur.collections.get name = none) : shapeAt cur name = none := by
  rw [shapeAt,promised]
  rfl

theorem diff_step (ahead : Ahead secret cur done state.schema) (promised : Promised secret cur op)
    (fresh : ∀ other ∈ done, Fresh other op) :
    ¬Recreates state.schema op ∧ ∀ next, run engine state op = some next → Kept secret [op] state.schema next.schema := by
  have anew : ¬Recreates state.schema op := by
    intro again
    cases op with
    | createCollection definition =>
      rcases ahead.created _ again with old | ⟨other,before,same⟩
      · rw [shapeAt_promised promised] at old
        cases old
      · exact fresh other before same
    | addField collection field =>
      obtain ⟨held,there,inside⟩ := again
      obtain ⟨col,found,absent⟩ := promised
      obtain ⟨new,here,_,origin⟩ := ahead.collections collection (shape col) (by rw [shapeAt,found]; rfl)
      cases Option.some.inj (here.symm.trans there)
      obtain ⟨entry,member,same⟩ := List.mem_map.mp inside
      obtain ⟨first,inOld,named,_⟩ | ⟨⟨other,before,made⟩,_⟩ := origin entry member
      · exact absent (same ▸ named ▸ List.mem_map_of_mem inOld)
      · rw [same] at made
        exact fresh other before made
    | createRole role description =>
      rcases ahead.roles role again with old | ⟨other,before,same⟩
      · exact get_eq_none.mp promised old
      · exact fresh other before same
    | _ => exact again
  refine ⟨anew,fun next ran => ?_⟩
  have plain : ∀ id checksum last change, op ≠ .migration id checksum last change := by
    rintro id checksum last change rfl
    exact promised
  refine ⟨fun name old found => ?_,fun name _ _ one _ two _ same => ?_,(run_roles ran plain).1⟩
  · cases made : creates op with
    | none =>
      obtain ⟨new,here,grown⟩ := rel_some (run_grows (promised_mild promised made) ran name) found
      refine ⟨new,here,fun entry member => ⟨(retyped op name entry).2,?_,retyped_keeps ahead promised found member⟩⟩
      have kept := grown.kept entry member
      rw [renamedBy_promised promised,← retyped_name op name entry]
      exact kept
    | some created =>
      obtain ⟨definition,rfl⟩ : ∃ definition, op = .createCollection definition := by
        cases op with
        | createCollection definition => exact ⟨definition,rfl⟩
        | _ => cases made
      have other : name ≠ text (definition.get "name") := by
        rintro rfl
        exact anew (by simp [Recreates,found])
      refine ⟨old,by rw [shapeAt_create ran,if_neg other,found],fun entry member => ⟨entry.2,?_,.inl rfl⟩⟩
      exact renamedBy_promised promised name entry.1 ▸ member
  · rwa [renamedBy_promised promised,renamedBy_promised promised] at same

theorem migration_step {id : String} (named : WellNamed state) (moved : migrate state id checksum op last = .ok (next,step))
    (mild : step.destructive = false) : Kept secret [.migration id checksum last op] state next := by
  obtain ⟨⟨word,done,checked⟩,rfl,rfl⟩ := migrate_ok moved
  cases op with
  | renameField collection «from» «to» =>
    obtain ⟨col,found,free,shapes⟩ := rename_shape named checked
    have here : shapeAt state collection = some (shape col) := by rw [shapeAt,found]; rfl
    refine ⟨fun name old there => ?_,fun name old there one inOne two inTwo same => ?_,fun role held => ?_⟩
    · by_cases equal : name = collection
      · subst equal
        cases Option.some.inj (here.symm.trans there)
        refine ⟨_,by rw [shapes,if_pos rfl],fun entry member => ⟨entry.2,?_,.inl rfl⟩⟩
        have moved := List.mem_map_of_mem (f := renameEntry «from» «to») member
        by_cases mine : entry.1 = «from» <;> simpa [renamedBy,renamed,renameEntry,mine] using moved
      · refine ⟨old,by rw [shapes,if_neg equal,there],fun entry member => ⟨entry.2,?_,.inl rfl⟩⟩
        simpa [renamedBy,renamed,Ne.symm equal] using member
    · by_cases equal : name = collection
      · subst equal
        cases Option.some.inj (here.symm.trans there)
        simp only [renamedBy,List.foldl_cons,List.foldl_nil,renamed,true_and] at same
        by_cases first : one.1 = «from» <;> by_cases second : two.1 = «from»
        · exact first.trans second.symm
        · rw [if_pos first,if_neg second] at same
          exact absurd (same ▸ List.mem_map_of_mem inTwo) (free (first ▸ List.mem_map_of_mem inOne))
        · rw [if_neg first,if_pos second] at same
          exact absurd (same ▸ List.mem_map_of_mem inOne) (free (second ▸ List.mem_map_of_mem inTwo))
        · rwa [if_neg first,if_neg second] at same
      · simpa [renamedBy,renamed,Ne.symm equal] using same
    · have roles : (effect state (.renameField collection «from» «to»)).roles = state.roles := by
        simp only [effect,found]
        split <;> rfl
      rw [roles]
      exact held
  | _ => cases mild

theorem ahead_run (promised : ∀ op ∈ ops, Promised secret cur op) (ahead : Ahead secret cur done state.schema)
    (ran : Runs.run (run engine) state ops = some after) : Ahead secret cur (done ++ ops) after.schema := by
  induction ops generalizing state done with
  | nil =>
    cases Option.some.inj ran
    rwa [List.append_nil]
  | cons op rest ih =>
    obtain ⟨next,one,later⟩ := Runs.run_cons.mp ran
    have here := ahead_step ahead (promised op (List.mem_cons_self ..)) one
    have whole := ih (fun other member => promised other (List.mem_cons_of_mem _ member)) here later
    rwa [List.append_assoc] at whole

theorem plan_parts (planned : planSchema engine current desired applied intoSecret = .ok steps) :
    ∃ cur middle migrations diff, read engine current = .ok cur ∧ steps = migrations ++ diff ∧ WellNamed cur ∧
      Follows cur migrations middle ∧ (∀ step ∈ diff, ∀ op, step.op = some op → Promised intoSecret middle op) ∧ diff.Pairwise Apart := by
  obtain ⟨cur,began,planned⟩ := bind_ok planned
  obtain ⟨des,wanted,planned⟩ := bind_ok planned
  obtain ⟨⟨middle,migrations,diff⟩,parts,planned⟩ := bind_ok planned
  cases planned
  obtain ⟨_,_,parts⟩ := bind_ok parts
  obtain ⟨⟨state,first⟩,followed,parts⟩ := bind_ok parts
  obtain ⟨second,differs,parts⟩ := bind_ok parts
  cases parts
  have path := pending_follows followed
  obtain ⟨promised,apart⟩ := diff_ops (follows_named (read_named began) path) (read_named wanted) (fun _ _ found => read_names wanted found) differs
  exact ⟨cur,_,_,_,began,rfl,read_named began,path,promised,apart⟩

-- Every step outside the flagged ones keeps what is there, at the place in the run it stands at.
theorem step_kept (planned : planSchema engine current desired applied intoSecret = .ok (before ++ step::later))
    (has : step.op = some op) (mild : step.destructive = false) (began : read engine current = .ok cur)
    (ran : Runs.run (run engine) ⟨cur,applied⟩ (before.filterMap PlanStep.op) = some state) :
    ¬Recreates state.schema op ∧ ∀ next, run engine state op = some next → Kept intoSecret [op] state.schema next.schema := by
  obtain ⟨start,middle,migrations,diff,read,parts,named,path,promised,apart⟩ := plan_parts planned
  cases began.symm.trans read
  rcases List.append_eq_append_iff.mp parts with ⟨extra,rest,tail⟩ | ⟨extra,rest,tail⟩
  · -- The step is a migration's, or the first of the diff.
    cases extra with
    | nil =>
      simp only [List.append_nil,List.nil_append] at rest tail
      subst rest
      have schema : state.schema = middle := follows_run path ran
      have here : Ahead intoSecret middle [] state.schema := schema ▸ ahead_start
      refine diff_step here (promised step ?_ op has) (by simp)
      rw [← tail]
      exact List.mem_cons_self ..
    | cons first others =>
      obtain ⟨rfl,_⟩ := List.cons.inj tail
      rw [rest] at path
      obtain ⟨before_state,next_state,id,checksum,change,last,follows,moved⟩ := path.split
      have schema : state.schema = before_state := follows_run follows ran
      obtain ⟨_,after,shape⟩ := migrate_ok moved
      have same : op = .migration id checksum last change := by
        rw [shape,migrateStep_op] at has
        exact (Option.some.inj has).symm
      subst same
      refine ⟨fun wrong => wrong,fun next moved_on => ?_⟩
      rw [run_migration moved_on,schema,← after]
      exact migration_step (follows_named named follows) moved mild
  · -- The step is one of the diff, after the steps in extra.
    rw [rest,List.filterMap_append,Runs.run_append] at ran
    obtain ⟨between,first,second⟩ := ran
    have schema : between.schema = middle := follows_run path first
    have here : Ahead intoSecret middle [] between.schema := schema ▸ ahead_start
    have inside : ∀ other ∈ extra.filterMap PlanStep.op, Promised intoSecret middle other := by
      intro other member
      obtain ⟨source,before,made⟩ := List.mem_filterMap.mp member
      exact promised source (tail ▸ List.mem_append_left _ before) other made
    have ahead := ahead_run inside here second
    rw [tail] at apart
    have fresh : ∀ other ∈ [] ++ extra.filterMap PlanStep.op, Fresh other op := by
      intro other member
      obtain ⟨source,before,made⟩ := List.mem_filterMap.mp member
      exact (List.pairwise_append.mp apart).2.2 source before step (List.mem_cons_self ..) other made op has
    exact diff_step ahead (promised step (tail ▸ List.mem_append_right _ (List.mem_cons_self ..)) op has) fresh

theorem filterMap_take {steps : List PlanStep} (all : ∀ step ∈ steps, step.op.isSome) (count : Nat) :
    (steps.filterMap PlanStep.op).take count = (steps.take count).filterMap PlanStep.op := by
  induction steps generalizing count with
  | nil => simp
  | cons step rest ih =>
    obtain ⟨op,has⟩ := Option.isSome_iff_exists.mp (all step (List.mem_cons_self ..))
    cases count with
    | zero => rfl
    | succ count =>
      rw [List.filterMap_cons_some has,List.take_succ_cons,List.take_succ_cons,List.filterMap_cons_some has,
        ih (fun other member => all other (List.mem_cons_of_mem _ member))]

theorem run_kept (planned : planSchema engine current desired applied intoSecret = .ok (before ++ later))
    (all : ∀ step ∈ before, step.op.isSome ∧ step.destructive = false) (began : read engine current = .ok cur)
    (ran : Runs.run (run engine) ⟨cur,applied⟩ (before.filterMap PlanStep.op) = some after) :
    Kept intoSecret (before.filterMap PlanStep.op) cur after.schema := by
  induction before using List.reverseRecOn generalizing later after with
  | nil =>
    cases Option.some.inj ran
    exact kept_refl
  | append_singleton front step ih =>
    have inside (other : PlanStep) (member : other ∈ front) := all other (List.mem_append_left _ member)
    obtain ⟨runnable,mild⟩ := all step (by simp)
    obtain ⟨op,has⟩ := Option.isSome_iff_exists.mp runnable
    rw [List.filterMap_append,List.filterMap_cons_some has,List.filterMap_nil] at ran ⊢
    obtain ⟨state,first,last⟩ := Runs.run_append.mp ran
    obtain ⟨next,one,done⟩ := Runs.run_cons.mp last
    cases Option.some.inj done
    rw [List.append_assoc] at planned
    exact kept_trans (ih planned inside first) ((step_kept planned has mild began first).2 _ one)

theorem accepted_steps (accepted : applySchema steps false = .ok ops) :
    ops = steps.filterMap PlanStep.op ∧ ∀ step ∈ steps, step.op.isSome ∧ step.destructive = false := by
  unfold applySchema at accepted
  split at accepted
  · cases accepted
  · next runnable =>
    split at accepted
    · cases accepted
    · next mild =>
      refine ⟨(Except.ok.inj accepted).symm,fun step member => ⟨?_,?_⟩⟩
      · simp only [List.any_eq_true,not_exists,not_and] at runnable
        exact Option.isSome_iff_ne_none.mpr (by simpa using runnable step member)
      · simp only [Bool.not_false,Bool.true_and,List.any_eq_true,not_exists,not_and] at mild
        simpa using mild step member

theorem nothing_lost (planned : planSchema engine current desired applied intoSecret = .ok steps) :
    ∃ cur, read engine current = .ok cur ∧
      (∀ ops, applySchema steps false = .ok ops → ∀ count after,
        Runs.run (run engine) ⟨cur,applied⟩ (ops.take count) = some after → Kept intoSecret (ops.take count) cur after.schema) ∧
      ∀ before step later op state, steps = before ++ step::later → step.op = some op → step.destructive = false →
        Runs.run (run engine) ⟨cur,applied⟩ (before.filterMap PlanStep.op) = some state →
        ¬Recreates state.schema op ∧ ∀ next, run engine state op = some next → Kept intoSecret [op] state.schema next.schema := by
  obtain ⟨cur,_,_,_,began,_⟩ := plan_parts planned
  refine ⟨cur,began,fun ops accepted count after ran => ?_,fun before step later op state parts has mild ran => ?_⟩
  · obtain ⟨rfl,all⟩ := accepted_steps accepted
    rw [filterMap_take fun step member => (all step member).1] at ran ⊢
    rw [← List.take_append_drop count steps] at planned
    exact run_kept planned (fun step member => all step (List.mem_of_mem_take member)) began ran
  · subst parts
    exact step_kept planned has mild began ran

def bareEngine : Engine := ⟨[],fun _ => "",fun _ => none,fun _ => false⟩

def fileSet (collections : Files) : Files :=
  [("zveltio-schema.json",.obj [("format",.num ⟨"3",by decide,by simp⟩)]),
    ("roles.json",.obj [("roles",.arr [.obj [("name",.str "editor")]])])] ++ collections

def plainField (name : String) : Json := .obj [("name",.str name),("type",.str "text")]

def postsFile (fields : List Json) : String × Json :=
  ("collections/posts.json",.obj [("name",.str "posts"),("fields",.arr fields)])

def renameTitle : String × Json := ("migrations/20261004T120000-title.json",.obj [("id",.str "20261004T120000-title"),
  ("ops",.arr [.obj [("op",.str "renameField"),("collection",.str "posts"),("from",.str "title"),("to",.str "headline")]])])

-- A title renamed to headline, and a body added beside it.
theorem nothing_lost_title : ∃ steps cur ops,
    planSchema bareEngine (fileSet [postsFile [plainField "title"]])
      (fileSet [postsFile [plainField "headline",plainField "body"],renameTitle]) [] false = .ok steps ∧
    applySchema steps false = .ok ops ∧
    ∀ count after, Runs.run (run bareEngine) ⟨cur,[]⟩ (ops.take count) = some after → Kept false (ops.take count) cur after.schema := by
  have runnable : ((planSchema bareEngine (fileSet [postsFile [plainField "title"]])
      (fileSet [postsFile [plainField "headline",plainField "body"],renameTitle]) [] false).toOption.bind fun steps =>
        (applySchema steps false).toOption).isSome = true := by decide +kernel
  obtain ⟨ops,found⟩ := Option.isSome_iff_exists.mp runnable
  obtain ⟨steps,planned,accepted⟩ := Option.bind_eq_some_iff.mp found
  have plan := toOption_some planned
  have gate := toOption_some accepted
  obtain ⟨cur,_,kept,_⟩ := nothing_lost plan
  exact ⟨steps,cur,ops,plan,gate,kept ops gate⟩

end Zveltio.SchemaKept
