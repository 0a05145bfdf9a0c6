import Zveltio.SchemaPromises
import Zveltio.SchemaText
namespace Zveltio.SchemaAgreement
open Tables SchemaJson SchemaFiles SchemaPlan SchemaText SchemaMigrations SchemaPromises SchemaShape
open PolicyTable (isDefaultGrant)

-- Two values that say the same: null is not set, and the order of keys does not count.
def Equal (a b : Json) : Prop := normalize a = normalize b

theorem Equal.symm (same : Equal a b) : Equal b a := Eq.symm same

theorem Equal.trans (first : Equal a b) (second : Equal b c) : Equal a c := Eq.trans first second

instance : Decidable (Equal a b) := decidable_of_iff (serialize a = serialize b) serialize_eq

-- What a file states of a setting; the upstream credential is no part of it.
def stated (engine : Engine) (key : String) (file : Json) : Json :=
  orElse (if key = "virtualConfig" then withoutAuthValue engine (file.get key) else file.get key) .null

-- defaultGrants is true where it is left out.
def held (engine : Engine) (key : String) (file : Json) : Json :=
  if key = "defaultGrants" then orElse (file.get key) (.bool true) else stated engine key file

-- An entry with its documented defaults.
def definition (spec : EntrySpec) (collection : String) (entry : Json) : Json :=
  spec.canon (if spec.key = "relations" then relationDefaults collection entry else entry)

-- Every entry of one list has an equal one in the other.
def Covers (spec : EntrySpec) (collection : String) (one two : List Json) : Prop :=
  ∀ entry ∈ one, ∃ other ∈ two, Equal (definition spec collection entry) (definition spec collection other)

structure CollectionAgrees (engine : Engine) (name : String) (cur des : Json) : Prop where
  settings : ∀ key ∈ settingKeys, key = "writtenBy" ∨ stated engine key des ≠ .null →
    Equal (held engine key cur) (stated engine key des)
  fields : List.Forall₂ (fun old field => Equal (exportField old) (exportField field))
    (entries (some cur) "fields") (entries (some des) "fields")
  lists : ∀ spec ∈ LISTS, Covers spec name (entries (some cur) spec.key) (entries (some des) spec.key) ∧
    Covers spec name (entries (some des) spec.key) (entries (some cur) spec.key)

def GRANT_KEYS : List String := ["permissions","revokedDefaults"]

-- The grants of a role with the defaults left out, or the defaults it lost.
def pairs (engine : Engine) (role : Option Json) (key : String) : List (String × String) :=
  (entries role key).flatMap fun permission => ((grantsOf engine role key permission).toOption.getD []).map Prod.snd

-- An implied role may be left out: it then has no grants and no revokes, and keeps its description.
structure RoleAgrees (engine : Engine) (name : String) (cur des : Option Json) : Prop where
  present : implied name = false → cur.isSome = des.isSome
  description : ∀ role, des = some role →
    Equal (orElse (cur.bind fun held => held.get "description") .null) (orElse (role.get "description") .null)
  grants : ∀ key ∈ GRANT_KEYS, ∀ grant, grant ∈ pairs engine cur key ↔ grant ∈ pairs engine des key

-- Two file sets describe the same schema.
structure Agree (engine : Engine) (cur des : Parsed) : Prop where
  collections : ∀ name, Option.Rel (CollectionAgrees engine name) (cur.collections.get name) (des.collections.get name)
  roles : ∀ name, RoleAgrees engine name (cur.roles.get name) (des.roles.get name)

-- What a printed key and the export keep apart, in a collection both sides have.
structure ClearCollection (engine : Engine) (name : String) (cur des : Json) : Prop where
  exported : ∀ field ∈ entries (some cur) "fields", exportField field = field
  credential : Equal (stated engine "virtualConfig" cur) (orElse (cur.get "virtualConfig") .null)
  single : ∀ spec ∈ LISTS, ∀ holder ∈ [cur,des], ∀ one ∈ entries (some holder) spec.key, ∀ two ∈ entries (some holder) spec.key,
    spec.id one = spec.id two → Equal (definition spec name one) (definition spec name two)
  keyed : ∀ spec ∈ LISTS, ∀ old ∈ entries (some cur) spec.key, ∀ entry ∈ entries (some des) spec.key,
    Equal (definition spec name old) (definition spec name entry) → spec.id old = spec.id entry
  relations : ∀ old ∈ entries (some cur) "relations", ∀ entry ∈ entries (some des) "relations",
    Equal (relationDefaults name old) (relationDefaults name entry) → identical (old.get "name") (entry.get "name") = true

-- A role whose actions a plan can list.
def Iterable (role : Option Json) : Prop :=
  ∀ key ∈ GRANT_KEYS, ∀ permission ∈ entries role key, (actions (permission.get "actions")).isOk = true

structure Clear (engine : Engine) (cur des : Parsed) : Prop where
  accepted : checkRequiredSetNull des.collections = .ok ()
  collections : ∀ name old new, cur.collections.get name = some old → des.collections.get name = some new →
    ClearCollection engine name old new
  iterable : ∀ state ∈ [cur,des], ∀ name, Iterable (state.roles.get name)
  descriptions : ∀ name role, implied name = true → cur.roles.get name = none → des.roles.get name = some role →
    asText (role.get "description") = none → orElse (role.get "description") .null = .null
  printed : ∀ name, ∀ key ∈ GRANT_KEYS, ∀ one ∈ pairs engine (cur.roles.get name) key, ∀ two ∈ pairs engine (des.roles.get name) key,
    one.1 ++ " " ++ one.2 = two.1 ++ " " ++ two.2 → one = two

theorem orElse_some (value : Json) : orElse (some value) .null = value := by cases value <;> rfl

theorem same_some : same (some a) (some b) = true ↔ Equal a b := by
  rw [same_iff,orElse_some,orElse_some,Equal]

theorem normalize_null : normalize value = .null ↔ value = .null := by
  cases value <;> simp [SchemaJson.normalize]

theorem orElse_isNull (value : Option Json) : (orElse value .null).isNull = true ↔ orElse value .null = .null := by
  cases orElse value .null <;> simp [Json.isNull]

theorem ite_empty {cond : Bool} {step : α} : (if cond = true then [] else [step]) = [] ↔ cond = true := by
  cases cond <;> simp

theorem setting_empty (credential : Equal (stated engine "virtualConfig" cur) (orElse (cur.get "virtualConfig") .null)) :
    settingSteps engine name cur des key = [] ↔
      (key = "writtenBy" ∨ stated engine key des ≠ .null → Equal (held engine key cur) (stated engine key des)) := by
  have has : same (if key = "defaultGrants" then some (orElse (cur.get key) (.bool true)) else cur.get key)
      (if key = "virtualConfig" then withoutAuthValue engine (des.get key) else des.get key) = true ↔
      Equal (held engine key cur) (stated engine key des) := by
    rw [same_iff,Equal,stated]
    have left : normalize (orElse (if key = "defaultGrants" then some (orElse (cur.get key) (.bool true)) else cur.get key) .null) =
        normalize (held engine key cur) := by
      unfold held
      by_cases grants : key = "defaultGrants"
      · rw [if_pos grants,if_pos grants,orElse_some]
      · rw [if_neg grants,if_neg grants]
        by_cases virtual : key = "virtualConfig"
        · subst virtual
          exact credential.symm
        · rw [stated,if_neg virtual]
    rw [left]
  unfold settingSteps
  dsimp only
  rw [ite_empty]
  by_cases written : key = "writtenBy"
  · rw [if_pos written,has]
    exact ⟨fun equal _ => equal,fun agrees => agrees (.inl written)⟩
  · rw [if_neg written,Bool.or_eq_true,orElse_isNull,has]
    constructor
    · rintro (unset | equal) needed
      · exact absurd unset (needed.resolve_left written)
      · exact equal
    · intro agrees
      by_cases unset : stated engine key des = .null
      · exact .inl unset
      · exact .inr (agrees (.inr unset))

theorem mem_byId (member : found ∈ byId spec name holder) :
    ∃ entry ∈ entries holder spec.key, found.1 = spec.id entry ∧ spec.canon found.2 = definition spec name entry := by
  obtain ⟨entry,inside,rfl⟩ := List.mem_map.mp (ofEntries_mem member)
  exact ⟨entry,inside,rfl,rfl⟩

theorem byId_keys : key ∈ (byId spec name holder).keys ↔ ∃ entry ∈ entries holder spec.key, spec.id entry = key := by
  rw [byId,mem_keys_ofEntries]
  simp [Table.keys]

theorem entry_empty : entrySteps des spec name cur key entry = [] ↔ ∃ old, cur.get key = some old ∧ Equal (spec.canon old) (spec.canon entry) := by
  unfold entrySteps
  cases found : cur.get key with
  | none => simp
  | some old =>
    dsimp only
    rw [ite_empty,same_some]
    simp

theorem list_empty (des : Table String Json)
    (single : ∀ holder ∈ [cur,new], ∀ one ∈ entries (some holder) spec.key, ∀ two ∈ entries (some holder) spec.key,
      spec.id one = spec.id two → Equal (definition spec name one) (definition spec name two))
    (keyed : ∀ old ∈ entries (some cur) spec.key, ∀ entry ∈ entries (some new) spec.key,
      Equal (definition spec name old) (definition spec name entry) → spec.id old = spec.id entry) :
    listSteps des name cur new spec = [] ↔ Covers spec name (entries (some cur) spec.key) (entries (some new) spec.key) ∧
      Covers spec name (entries (some new) spec.key) (entries (some cur) spec.key) := by
  have inCur := single cur (by simp)
  have inNew := single new (by simp)
  unfold listSteps
  dsimp only
  rw [List.append_eq_nil_iff,List.map_eq_nil_iff,List.filter_eq_nil_iff,List.flatMap_eq_nil_iff]
  simp only [decide_eq_true_eq,not_not,entry_empty]
  constructor
  · rintro ⟨kept,equal⟩
    have both {key : String} {entry : Json} (member : (key,entry) ∈ byId spec name (some new)) :
        ∃ old ∈ entries (some cur) spec.key, spec.id old = key ∧ Equal (definition spec name old) (spec.canon entry) := by
      obtain ⟨held,found,same⟩ := equal _ member
      obtain ⟨old,inside,named,canon⟩ := mem_byId (get_mem found)
      rw [canon] at same
      exact ⟨old,inside,named.symm,same⟩
    constructor
    · intro old inside
      obtain ⟨held,found⟩ := mem_keys.mp (byId_keys.mpr ⟨old,inside,rfl⟩)
      obtain ⟨last,there⟩ := mem_keys.mp (kept _ found)
      obtain ⟨entry,listed,named,canon⟩ := mem_byId there
      obtain ⟨other,present,key,same⟩ := both there
      rw [canon] at same
      exact ⟨entry,listed,(inCur old inside other present key.symm).trans same⟩
    · intro entry inside
      obtain ⟨last,there⟩ := mem_keys.mp (byId_keys.mpr ⟨entry,inside,rfl⟩)
      obtain ⟨final,listed,named,canon⟩ := mem_byId there
      obtain ⟨other,present,key,same⟩ := both there
      rw [canon] at same
      exact ⟨other,present,(inNew entry inside final listed named).trans same.symm⟩
  · rintro ⟨forward,backward⟩
    constructor
    · intro found member
      obtain ⟨old,inside,named,_⟩ := mem_byId member
      obtain ⟨entry,listed,same⟩ := forward old inside
      exact byId_keys.mpr ⟨entry,listed,by rw [named,keyed old inside entry listed same]⟩
    · intro found member
      obtain ⟨entry,listed,named,canon⟩ := mem_byId member
      obtain ⟨old,inside,same⟩ := backward entry listed
      have key : spec.id old = spec.id entry := keyed old inside entry listed same.symm
      obtain ⟨last,there⟩ := get_isSome.mpr (byId_keys.mpr ⟨old,inside,key.trans named.symm⟩)
      obtain ⟨other,present,own,shape⟩ := mem_byId (get_mem there)
      refine ⟨last,there,?_⟩
      rw [shape,canon]
      exact (inCur other present old inside (own.symm.trans (named.trans key.symm))).trans same.symm

theorem keyBefore_refl (key : String) : keyBefore key key = true := by
  unfold keyBefore
  split <;> simp

theorem get_insertMember (entry : String × Json) (members : List (String × Json)) (key : String) :
    Table.get (members.orderedInsert (fun a b => keyBefore a.1 b.1 = true) entry) key = Table.get (entry::members) key := by
  induction members with
  | nil => rfl
  | cons first rest ih =>
    rw [List.orderedInsert]
    split
    · rfl
    · next later =>
      have apart : entry.1 ≠ first.1 := fun same => later (same ▸ keyBefore_refl _)
      rw [get_cons,ih,get_cons,get_cons,get_cons]
      by_cases here : first.1 = key
      · rw [if_pos here,if_pos here,if_neg (here ▸ apart)]
      · rw [if_neg here,if_neg here]

theorem get_sortMembers (members : List (String × Json)) (key : String) :
    Table.get (members.insertionSort fun a b => keyBefore a.1 b.1 = true) key = Table.get members key := by
  induction members with
  | nil => rfl
  | cons first rest ih => rw [List.insertionSort_cons,get_insertMember,get_cons,get_cons,ih]

theorem get_normalizeMembers {members : List (String × Json)} (found : Table.get members key = some value) (is_set : value.isNull = false) :
    Table.get (normalizeMembers members) key = some (normalize value) := by
  induction members with
  | nil => cases found
  | cons first rest ih =>
    obtain ⟨name,item⟩ := first
    rw [get_cons] at found
    rw [normalizeMembers]
    by_cases here : name = key
    · cases Option.some.inj ((if_pos here).symm.trans found)
      rw [is_set,if_neg (by decide),get_cons,if_pos here]
    · have later := ih ((if_neg here).symm.trans found)
      split
      · exact later
      · rw [get_cons,if_neg here,later]

theorem text_of_equal {one two : List (String × Json)} (same : Equal (.obj one) (.obj two))
    (left : Table.get one key = some (.str a)) (right : Table.get two key = some (.str b)) : a = b := by
  have read {members : List (String × Json)} {word : String} (found : Table.get members key = some (.str word)) :
      (normalize (.obj members)).get key = some (.str word) := by
    rw [SchemaJson.normalize,get_obj,get_sortMembers,get_normalizeMembers found rfl]
    rfl
  have both := (read left).symm.trans ((congrArg (fun value => value.get key) same).trans (read right))
  cases both
  rfl

theorem exportField_obj (field : Json) : ∃ members, exportField field = .obj members := by
  have keeps {step : Json → String → Json} (kept : ∀ out key, (∃ members, out = .obj members) → ∃ members, step out key = .obj members) :
      ∀ (flags : List String) (out : Json), (∃ members, out = .obj members) → ∃ members, flags.foldl step out = .obj members := by
    intro flags
    induction flags with
    | nil => exact fun _ shape => shape
    | cons flag rest ih => exact fun out shape => ih _ (kept out flag shape)
  refine keeps (fun out key shape => ?_) _ _ ⟨_,rfl⟩
  split
  · exact ⟨_,rfl⟩
  · exact shape

theorem equal_texts (same : Equal (exportField old) (exportField field)) (plain : key ∉ FALSE_DEFAULT_FLAGS)
    (left : ∃ a, old.get key = some (.str a)) (right : ∃ b, field.get key = some (.str b)) : text (old.get key) = text (field.get key) := by
  obtain ⟨a,left⟩ := left
  obtain ⟨b,right⟩ := right
  obtain ⟨one,first⟩ := exportField_obj old
  obtain ⟨two,second⟩ := exportField_obj field
  have inOne : Table.get one key = some (.str a) := by rw [← get_obj,← first,get_exportField old plain,left]
  have inTwo : Table.get two key = some (.str b) := by rw [← get_obj,← second,get_exportField field plain,right]
  rw [first,second] at same
  rw [left,right,text_of_equal same inOne inTwo]

theorem forall₂_member {first second : α → β → Prop} (each : List.Forall₂ first as bs)
    (carried : ∀ a ∈ as, ∀ b ∈ bs, first a b → second a b) : List.Forall₂ second as bs := by
  induction each with
  | nil => exact .nil
  | cons here _ ih =>
    refine .cons (carried _ (List.mem_cons_self ..) _ (List.mem_cons_self ..) here) (ih fun a inA b inB => ?_)
    exact carried a (List.mem_cons_of_mem _ inA) b (List.mem_cons_of_mem _ inB)

theorem paired_names : curFields.map fieldName = rawFields.map fieldName ↔
    List.Forall₂ (fun old field => fieldName old = fieldName field) curFields rawFields := by
  induction curFields generalizing rawFields with
  | nil => cases rawFields <;> simp
  | cons first rest ih => cases rawFields <;> simp [ih]

theorem alter_empty : alterSteps name old field = [] ↔ Equal old field := by
  unfold alterSteps
  dsimp only
  rw [ite_empty,same_some]

theorem field_empty : fieldSteps name [] intoSecret cur field = [] ↔
    ∃ old, cur.get (fieldName field) = some old ∧ fieldType old = fieldType field ∧ Equal old field := by
  unfold fieldSteps
  cases found : cur.get (fieldName field) with
  | none => simp
  | some old =>
    dsimp only
    by_cases typed : fieldType old = fieldType field
    · rw [if_pos typed,alter_empty]
      simp [typed]
    · rw [if_neg typed]
      split <;> simp [typed]

theorem order_empty : orderSteps name [] cur des = [] ↔
    cur.filter (fun field => field ∈ des) ++ des.filter (fun field => field ∉ cur) = des := by
  unfold orderSteps
  dsimp only
  have none_owned : (des.filter fun field => decide (field ∉ cur)).filter (fun field => decide (field ∈ ([] : List String))) = [] := by simp
  have all_plain : (des.filter fun field => decide (field ∉ cur)).filter (fun field => decide (field ∉ ([] : List String))) =
      des.filter fun field => decide (field ∉ cur) := by simp
  rw [none_owned,all_plain,List.append_nil]
  simp

theorem fields_empty (name : String) (intoSecret : Bool) (heldCur : Named curFields) (heldDes : Named rawFields)
    (typedCur : ∀ field ∈ curFields, ∃ type, field.get "type" = some (.str type))
    (typedDes : ∀ field ∈ rawFields, ∃ type, field.get "type" = some (.str type))
    (exported : ∀ field ∈ curFields, exportField field = field) :
    ((∀ field ∈ curFields, fieldName field ∈ (rawFields.map exportField).map fieldName) ∧
      (∀ field ∈ rawFields.map exportField, fieldSteps name [] intoSecret (byName curFields) field = []) ∧
      orderSteps name [] (curFields.map fieldName) ((rawFields.map exportField).map fieldName) = []) ↔
    List.Forall₂ (fun old field => Equal (exportField old) (exportField field)) curFields rawFields := by
  have same_names : (rawFields.map exportField).map fieldName = rawFields.map fieldName := by
    rw [List.map_map]
    exact List.map_congr_left fun field _ => fieldName_export field
  simp only [same_names,field_empty,order_empty]
  constructor
  · rintro ⟨kept,each,order⟩
    have names : curFields.map fieldName = rawFields.map fieldName := by
      have all : (curFields.map fieldName).filter (fun field => decide (field ∈ rawFields.map fieldName)) = curFields.map fieldName := by
        refine List.filter_eq_self.mpr fun field member => ?_
        obtain ⟨source,inside,rfl⟩ := List.mem_map.mp member
        exact decide_eq_true (kept source inside)
      have none_new : (rawFields.map fieldName).filter (fun field => decide (field ∉ curFields.map fieldName)) = [] := by
        refine List.filter_eq_nil_iff.mpr fun field member => ?_
        obtain ⟨source,inside,rfl⟩ := List.mem_map.mp member
        obtain ⟨old,found,_⟩ := each (exportField source) (List.mem_map_of_mem inside)
        obtain ⟨there,called⟩ := byName_some heldCur found
        rw [fieldName_export] at called
        simp only [decide_eq_true_eq,not_not]
        exact called ▸ List.mem_map_of_mem there
      rw [all,none_new,List.append_nil] at order
      exact order
    have paired : List.Forall₂ (fun old field => fieldName old = fieldName field) curFields rawFields := paired_names.mp names
    refine forall₂_member paired fun old inCur field inDes called => ?_
    obtain ⟨other,found,_,equal⟩ := each (exportField field) (List.mem_map_of_mem inDes)
    rw [fieldName_export,← called,byName_get heldCur inCur] at found
    cases Option.some.inj found
    rw [exported old inCur]
    exact equal
  · intro each
    have paired : List.Forall₂ (fun old field => fieldName old = fieldName field) curFields rawFields :=
      forall₂_member each fun old inCur field inDes equal =>
        equal_texts equal (by decide) (heldCur.texts old inCur) (heldDes.texts field inDes)
    have names := paired_names.mpr paired
    refine ⟨fun field member => names ▸ List.mem_map_of_mem member,fun field member => ?_,?_⟩
    · obtain ⟨raw,inside,rfl⟩ := List.mem_map.mp member
      obtain ⟨old,inCur,equal⟩ := forall₂_source each inside
      have called : fieldName old = fieldName raw := equal_texts equal (by decide) (heldCur.texts old inCur) (heldDes.texts raw inside)
      refine ⟨old,?_,?_,?_⟩
      · rw [fieldName_export,← called]
        exact byName_get heldCur inCur
      · rw [fieldType_export]
        exact equal_texts equal (by decide) (typedCur old inCur) (typedDes raw inside)
      · rw [exported old inCur] at equal
        exact equal
    · rw [names,List.filter_eq_self.mpr (by simp),List.filter_eq_nil_iff.mpr (by simp),List.append_nil]

theorem grantSteps_empty {op : String → String → ApplyOp} :
    grantSteps found other change role word op = [] ↔ ∀ entry ∈ found, entry.1 ∈ other.keys := by
  unfold grantSteps sorted
  rw [List.map_eq_nil_iff,List.filter_eq_nil_iff]
  simp

theorem grantsOf_ok (engine : Engine) (role : Option Json) (key : String) (iterable : (actions (permission.get "actions")).isOk = true) :
    ∃ found, grantsOf engine role key permission = .ok found ∧ ∀ grant ∈ found, grant.1 = grant.2.1 ++ " " ++ grant.2.2 := by
  unfold grantsOf
  cases listed : actions (permission.get "actions") with
  | error reason => rw [listed] at iterable; cases iterable
  | ok items =>
    refine ⟨_,rfl,fun grant member => ?_⟩
    obtain ⟨action,_,rfl⟩ := List.mem_map.mp member
    rfl

theorem grants_ok (engine : Engine) (iterable : ∀ permission ∈ entries role key, (actions (permission.get "actions")).isOk = true) :
    ∃ found, grants engine role key = .ok found ∧ (∀ entry ∈ found, entry.2 ∈ pairs engine role key ∧ entry.1 = entry.2.1 ++ " " ++ entry.2.2) ∧
      ∀ grant ∈ pairs engine role key, grant.1 ++ " " ++ grant.2 ∈ Table.keys found := by
  have each : ∀ permissions : List Json, (∀ permission ∈ permissions, (actions (permission.get "actions")).isOk = true) →
      permissions.mapM (grantsOf engine role key) =
        .ok (permissions.map fun permission => (grantsOf engine role key permission).toOption.getD []) := by
    intro permissions
    induction permissions with
    | nil => intro _; rfl
    | cons permission rest ih =>
      intro iterable
      obtain ⟨found,listed,_⟩ := grantsOf_ok engine role key (iterable permission (List.mem_cons_self ..))
      rw [List.mapM_cons,ih fun other member => iterable other (List.mem_cons_of_mem _ member),listed]
      simp only [List.map_cons,listed]
      rfl
  have source {grant : String × String × String}
      (member : grant ∈ ((entries role key).map fun permission => (grantsOf engine role key permission).toOption.getD []).flatten) :
      grant.2 ∈ pairs engine role key ∧ grant.1 = grant.2.1 ++ " " ++ grant.2.2 := by
    obtain ⟨part,inside,member⟩ := List.mem_flatten.mp member
    obtain ⟨permission,listed,rfl⟩ := List.mem_map.mp inside
    refine ⟨List.mem_flatMap.mpr ⟨permission,listed,List.mem_map_of_mem member⟩,?_⟩
    obtain ⟨found,ok,printed⟩ := grantsOf_ok engine role key (iterable permission listed)
    rw [ok] at member
    exact printed grant member
  refine ⟨_,by rw [grants,each _ iterable]; rfl,fun entry member => source (ofEntries_mem member),fun grant member => ?_⟩
  obtain ⟨permission,listed,member⟩ := List.mem_flatMap.mp member
  obtain ⟨whole,inside,rfl⟩ := List.mem_map.mp member
  have there : whole ∈ ((entries role key).map fun permission => (grantsOf engine role key permission).toOption.getD []).flatten :=
    List.mem_flatten.mpr ⟨_,List.mem_map_of_mem listed,inside⟩
  rw [mem_keys_ofEntries,← (source there).2]
  exact List.mem_map_of_mem there

theorem grants_same {had has : Table String (String × String)} {one two : List (String × String)}
    (left : (∀ entry ∈ had, entry.2 ∈ one ∧ entry.1 = entry.2.1 ++ " " ++ entry.2.2) ∧ ∀ grant ∈ one, grant.1 ++ " " ++ grant.2 ∈ had.keys)
    (right : (∀ entry ∈ has, entry.2 ∈ two ∧ entry.1 = entry.2.1 ++ " " ++ entry.2.2) ∧ ∀ grant ∈ two, grant.1 ++ " " ++ grant.2 ∈ has.keys)
    (printed : ∀ a ∈ one, ∀ b ∈ two, a.1 ++ " " ++ a.2 = b.1 ++ " " ++ b.2 → a = b) :
    ((∀ entry ∈ had, entry.1 ∈ has.keys) ∧ ∀ entry ∈ has, entry.1 ∈ had.keys) ↔ ∀ grant, grant ∈ one ↔ grant ∈ two := by
  constructor
  · rintro ⟨forward,backward⟩ grant
    constructor
    · intro member
      obtain ⟨held,found⟩ := mem_keys.mp (left.2 grant member)
      obtain ⟨other,there⟩ := mem_keys.mp (forward _ found)
      obtain ⟨inside,same⟩ := right.1 _ there
      rw [printed grant member other inside same]
      exact inside
    · intro member
      obtain ⟨held,found⟩ := mem_keys.mp (right.2 grant member)
      obtain ⟨other,there⟩ := mem_keys.mp (backward _ found)
      obtain ⟨inside,same⟩ := left.1 _ there
      rw [← printed other inside grant member same.symm]
      exact inside
  · intro same
    constructor
    · intro entry member
      obtain ⟨inside,key⟩ := left.1 entry member
      rw [key]
      exact right.2 _ ((same _).mp inside)
    · intro entry member
      obtain ⟨inside,key⟩ := right.1 entry member
      rw [key]
      exact left.2 _ ((same _).mpr inside)

theorem grants_empty (name : String) (first : List PlanStep) (revoke grant revokeDefault restore : String → String → ApplyOp)
    (iterCur : Iterable cur) (iterDes : Iterable des)
    (printed : ∀ key ∈ GRANT_KEYS, ∀ one ∈ pairs engine cur key, ∀ two ∈ pairs engine des key,
      one.1 ++ " " ++ one.2 = two.1 ++ " " ++ two.2 → one = two) :
    (do
      let had ← grants engine cur "permissions"
      let has ← grants engine des "permissions"
      let lost ← grants engine cur "revokedDefaults"
      let loses ← grants engine des "revokedDefaults"
      return first ++ grantSteps had has .removes name "revoke " revoke ++ grantSteps has had .adds name "grant " grant ++
        grantSteps loses lost .removes name "revoke default " revokeDefault ++
        grantSteps lost loses .adds name "restore default " restore : Except Failure (List PlanStep)) = .ok [] ↔
    first = [] ∧ ∀ key ∈ GRANT_KEYS, ∀ grant, grant ∈ pairs engine cur key ↔ grant ∈ pairs engine des key := by
  have permissions : "permissions" ∈ GRANT_KEYS := by decide
  have revoked : "revokedDefaults" ∈ GRANT_KEYS := by decide
  obtain ⟨had,gotHad,had_ok⟩ := grants_ok engine (iterCur _ permissions)
  obtain ⟨has,gotHas,has_ok⟩ := grants_ok engine (iterDes _ permissions)
  obtain ⟨lost,gotLost,lost_ok⟩ := grants_ok engine (iterCur _ revoked)
  obtain ⟨loses,gotLoses,loses_ok⟩ := grants_ok engine (iterDes _ revoked)
  have granted := grants_same had_ok has_ok (printed _ permissions)
  have defaults := grants_same lost_ok loses_ok (printed _ revoked)
  rw [gotHad,gotHas,gotLost,gotLoses]
  have same : ∀ steps : List PlanStep, (Except.ok steps : Except Failure (List PlanStep)) = .ok [] ↔ steps = [] := by simp
  refine (same _).trans ?_
  simp only [List.append_eq_nil_iff,grantSteps_empty]
  rw [show (∀ key ∈ GRANT_KEYS, ∀ grant, grant ∈ pairs engine cur key ↔ grant ∈ pairs engine des key) ↔
    (∀ grant, grant ∈ pairs engine cur "permissions" ↔ grant ∈ pairs engine des "permissions") ∧
    ∀ grant, grant ∈ pairs engine cur "revokedDefaults" ↔ grant ∈ pairs engine des "revokedDefaults" by simp [GRANT_KEYS],
    ← granted,← defaults]
  tauto

theorem entries_implied (inside : key ∈ GRANT_KEYS) : entries (some (impliedRole name cur)) key = [] := by
  have none_there : (impliedRole name cur).get key = none := by
    have apart : "name" ≠ key ∧ "description" ≠ key := by
      revert inside key
      decide
    unfold impliedRole
    rw [get_obj,get_cons,if_neg apart.1]
    split
    · rw [get_cons,if_neg apart.2]
      rfl
    · rfl
  rw [entries,Option.bind_some,none_there]

theorem pairs_implied (inside : key ∈ GRANT_KEYS) : pairs engine (some (impliedRole name cur)) key = pairs engine none key := by
  rw [pairs,entries_implied inside]
  rfl

theorem described_implied : (impliedRole name cur).get "description" = cur.bind fun role => role.get "description" := by
  have apart : "name" ≠ "description" := by decide
  unfold impliedRole
  rw [get_obj,get_cons,if_neg apart]
  split
  · next found => rw [get_cons,if_pos rfl,found]
  · next absent => exact absent.symm

theorem role_empty (engine : Engine) (name : String) (some_there : cur.isSome = true ∨ des.isSome = true) (iterCur : Iterable cur) (iterDes : Iterable des)
    (descriptions : ∀ role, implied name = true → cur = none → des = some role →
      asText (role.get "description") = none → orElse (role.get "description") .null = .null)
    (printed : ∀ key ∈ GRANT_KEYS, ∀ one ∈ pairs engine cur key, ∀ two ∈ pairs engine des key,
      one.1 ++ " " ++ one.2 = two.1 ++ " " ++ two.2 → one = two) :
    roleSteps engine name cur des = .ok [] ↔ RoleAgrees engine name cur des := by
  cases des with
  | none =>
    cases seeded : implied name with
    | false =>
      have there : cur.isSome = true := some_there.resolve_right (by simp)
      have stays : roleSteps engine name cur none = .ok [⟨.removes,"role " ++ name,"remove role",true,none⟩] := by
        unfold roleSteps
        rw [seeded]
        rfl
      rw [stays]
      constructor
      · intro wrong
        cases wrong
      · intro agrees
        have both := agrees.present seeded
        rw [there] at both
        cases both
    | true =>
      obtain ⟨held,rfl⟩ := Option.isSome_iff_exists.mp (some_there.resolve_right (by simp))
      have iterable : Iterable (some (impliedRole name (some held))) := by
        intro key inside permission member
        rw [entries_implied inside] at member
        cases member
      have apart : ∀ key ∈ GRANT_KEYS, ∀ one ∈ pairs engine (some held) key, ∀ two ∈ pairs engine (some (impliedRole name (some held))) key,
          one.1 ++ " " ++ one.2 = two.1 ++ " " ++ two.2 → one = two := by
        intro key inside one _ two member
        rw [pairs_implied inside] at member
        cases member
      have settled := grants_empty name [] (.revoke name) (.grant name) (.revokeDefault name) (.grant name) iterCur iterable apart
      have steps : roleSteps engine name (some held) none = .ok [] ↔
          ∀ key ∈ GRANT_KEYS, ∀ grant, grant ∈ pairs engine (some held) key ↔ grant ∈ pairs engine (some (impliedRole name (some held))) key := by
        unfold roleSteps
        rw [seeded]
        have kept : same (held.get "description") ((impliedRole name (some held)).get "description") = true := by
          rw [described_implied,same_iff,Option.bind_some]
        simp only [if_true,Option.orElse_none]
        rw [if_pos kept,settled]
        simp
      rw [steps]
      constructor
      · intro same
        refine ⟨fun wrong => ?_,fun role wrong => (nomatch wrong),fun key inside grant => ?_⟩
        · rw [seeded] at wrong
          cases wrong
        · rw [same key inside grant,pairs_implied inside]
      · intro agrees key inside grant
        rw [agrees.grants key inside grant,pairs_implied inside]
  | some role =>
    have chosen : (if implied name = true then (some role).orElse fun _ => some (impliedRole name cur) else some role) = some role := by
      split <;> rfl
    unfold roleSteps
    rw [chosen]
    dsimp only
    rw [grants_empty name _ _ _ _ _ iterCur iterDes printed]
    cases cur with
    | none =>
      have first : (if (!implied name || (asText (role.get "description")).isSome) = true then
          ([⟨.adds,"role " ++ name,"create role",false,some (.createRole name (asText (role.get "description")))⟩] : List PlanStep) else []) = [] ↔
          implied name = true ∧ asText (role.get "description") = none := by
        cases implied name <;> cases asText (role.get "description") <;> simp
      rw [first]
      constructor
      · rintro ⟨⟨seeded,unstated⟩,same⟩
        refine ⟨fun wrong => ?_,fun other here => ?_,same⟩
        · rw [seeded] at wrong
          cases wrong
        · cases here
          rw [descriptions role seeded rfl rfl unstated]
          exact rfl
      · intro agrees
        refine ⟨⟨?_,?_⟩,agrees.grants⟩
        · cases seeded : implied name with
          | false =>
            have both := agrees.present seeded
            cases both
          | true => rfl
        · have unset := normalize_null.mp (agrees.description role rfl).symm
          cases found : role.get "description" with
          | none => rfl
          | some item =>
            rw [found,orElse_some] at unset
            subst unset
            rfl
    | some held =>
      dsimp only
      rw [ite_empty,same_iff]
      constructor
      · rintro ⟨description,same⟩
        refine ⟨fun _ => rfl,fun other here => ?_,same⟩
        cases here
        exact description
      · exact fun agrees => ⟨agrees.description role rfl,agrees.grants⟩

theorem diff_empty (clear : ClearCollection engine name cur des)
    (heldCur : Named (entries (some cur) "fields")) (heldDes : Named (entries (some des) "fields"))
    (typedCur : ∀ field ∈ entries (some cur) "fields", ∃ type, field.get "type" = some (.str type))
    (typedDes : ∀ field ∈ entries (some des) "fields", ∃ type, field.get "type" = some (.str type))
    (free : desired.owned name = []) :
    ((diffCollection engine desired name cur des).steps = [] ∧ (diffCollection engine desired name cur des).relations = [] ∧
      (diffCollection engine desired name cur des).tail = []) ↔ CollectionAgrees engine name cur des := by
  have fields := fields_empty name desired.intoSecret heldCur heldDes typedCur typedDes clear.exported
  have lists (spec : EntrySpec) (inside : spec ∈ LISTS) := list_empty desired.collections (fun holder => clear.single spec inside holder)
    (clear.keyed spec inside)
  have by_list : (∀ spec ∈ LISTS, listSteps desired.collections name cur des spec = []) ↔
      (∀ spec ∈ LISTS, spec.key = "relations" → listSteps desired.collections name cur des spec = []) ∧
      ∀ spec ∈ LISTS, spec.key ≠ "relations" → listSteps desired.collections name cur des spec = [] := by
    constructor
    · exact fun all => ⟨fun spec inside _ => all spec inside,fun spec inside _ => all spec inside⟩
    · rintro ⟨relation,other⟩ spec inside
      by_cases key : spec.key = "relations"
      · exact relation spec inside key
      · exact other spec inside key
  simp only [diffCollection,free,List.append_eq_nil_iff,List.flatMap_eq_nil_iff,List.map_eq_nil_iff,List.filter_eq_nil_iff,
    List.mem_filter,and_imp,decide_eq_true_eq,not_not,setting_empty clear.credential]
  constructor
  · rintro ⟨⟨⟨settings,kept⟩,each⟩,relations,order,others⟩
    refine ⟨settings,fields.mp ⟨kept,each,order⟩,fun spec inside => (lists spec inside).mp ?_⟩
    exact by_list.mpr ⟨relations,others⟩ spec inside
  · intro agrees
    obtain ⟨kept,each,order⟩ := fields.mpr agrees.fields
    obtain ⟨relations,others⟩ := by_list.mp fun spec inside => (lists spec inside).mpr (agrees.lists spec inside)
    exact ⟨⟨⟨agrees.settings,kept⟩,each⟩,relations,order,others⟩

end Zveltio.SchemaAgreement
