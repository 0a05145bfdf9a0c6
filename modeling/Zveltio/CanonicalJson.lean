import Zveltio.JsonReading
import Zveltio.TextCoding
namespace Zveltio.CanonicalJson
open Tables
open Doubles (Number Double)
open JsValues JsonText JsonReading
open IpText (Text)
open Codecs (Bytes)
open TextCoding (utf8 utf8_injective)

-- What serialize takes; none is undefined.
abbrev Value := Data (Option Scalar)

def LEADING_KEYS : List Units := [units "$schema".toList,units "name".toList]

-- The comparator of normalize, and String.prototype's order of the code units.
def keyBefore (a b : Units) : Bool :=
  let rank key := if key ∈ LEADING_KEYS then LEADING_KEYS.idxOf key else 99
  if a ∈ LEADING_KEYS ∨ b ∈ LEADING_KEYS then rank a ≤ rank b else a ≤ b

def before {α : Type u} (one other : Units × α) : Prop := keyBefore one.1 other.1 = true

instance {α : Type u} (one other : Units × α) : Decidable (before one other) := inferInstanceAs (Decidable (_ = true))

-- What normalize keeps of an object.
def present : Value → Bool
  | .leaf none => false
  | .leaf (some .null) => false
  | _ => true

mutual
def normalize : Value → Value
  | .leaf value => .leaf value
  | .array items => .array (normalizeItems items)
  | .object members => .object (create ((normalizeMembers members).insertionSort before))

def normalizeItems : List Value → List Value
  | [] => []
  | item::rest => normalize item::normalizeItems rest

def normalizeMembers : List (Units × Value) → List (Units × Value)
  | [] => []
  | (key,value)::rest => if present value then (key,normalize value)::normalizeMembers rest else normalizeMembers rest
end

-- What JSON.stringify writes: undefined is null in an array, and no member of an object.
mutual
def written : Value → Option Json
  | .leaf none => none
  | .leaf (some value) => some (.leaf value)
  | .array items => some (.array (writtenItems items))
  | .object members => some (.object (writtenMembers members))

def writtenItems : List Value → List Json
  | [] => []
  | item::rest => (written item).getD (.leaf .null)::writtenItems rest

def writtenMembers : List (Units × Value) → List (Units × Json)
  | [] => []
  | (key,value)::rest => match written value with
    | none => writtenMembers rest
    | some shown => (key,shown)::writtenMembers rest
end

def serialize (value : Value) : Text := match written (normalize value) with
  | none => "undefined\n".toList
  | some shown => stringify 2 0 shown ++ ['\n']

def migrationChecksum (sha256 : Bytes → Text) (file : Value) : Text := sha256 (utf8 (serialize file))

-- Finite numbers, and undefined as the value of a member only.
mutual
def Defined : Value → Prop
  | .leaf none => False
  | .leaf (some value) => value.Finite
  | .array items => ItemsDefined items
  | .object members => MembersDefined members

def ItemsDefined : List Value → Prop
  | [] => True
  | item::rest => Defined item ∧ ItemsDefined rest

def MembersDefined : List (Units × Value) → Prop
  | [] => True
  | (_,value)::rest => (value = .leaf none ∨ Defined value) ∧ MembersDefined rest
end

structure JsonLike (value : Value) : Prop where
  owned : value.Owned
  defined : Defined value

-- Leaves are compared as === does, which knows one zero.
def Scalar.equal : Scalar → Scalar → Prop
  | .number (.finite one),.number (.finite other) => one.size = 0 ∧ other.size = 0 ∨ one = other
  | one,other => one = other

def held (members : List (Units × Value)) (key : Units) : Option Value := (Table.get members key).filter present

-- Equal up to the order of keys and to members that are null or undefined.
inductive Same : Value → Value → Prop
  | leaf : Scalar.equal one other → Same (.leaf (some one)) (.leaf (some other))
  | array : List.Forall₂ Same items others → Same (.array items) (.array others)
  | object : (∀ key, (held members key).isSome = (held others key).isSome) →
      (∀ key one other, held members key = some one → held others key = some other → Same one other) →
      Same (.object members) (.object others)

-- The canonical value of what has one: undefined is left out, and a zero has one sign.
mutual
def canon : Value → Json
  | .leaf none => .leaf .null
  | .leaf (some value) => .leaf value.plain
  | .array items => .array (canonItems items)
  | .object members => .object (create ((canonMembers members).insertionSort before))

def canonItems : List Value → List Json
  | [] => []
  | item::rest => canon item::canonItems rest

def canonMembers : List (Units × Value) → List (Units × Json)
  | [] => []
  | (key,value)::rest => if present value then (key,canon value)::canonMembers rest else canonMembers rest
end

theorem canonItems_eq (items : List Value) : canonItems items = items.map canon := by
  induction items with
  | nil => rfl
  | cons item rest ih => rw [canonItems,ih,List.map_cons]

theorem canonMembers_eq (members : List (Units × Value)) :
    canonMembers members = renewed canon (members.filter fun entry => present entry.2) := by
  induction members with
  | nil => rfl
  | cons entry rest ih =>
    rw [canonMembers,ih,List.filter_cons]
    split <;> rfl

theorem normalizeItems_eq (items : List Value) : normalizeItems items = items.map normalize := by
  induction items with
  | nil => rfl
  | cons item rest ih => rw [normalizeItems,ih,List.map_cons]

theorem normalizeMembers_eq (members : List (Units × Value)) :
    normalizeMembers members = renewed normalize (members.filter fun entry => present entry.2) := by
  induction members with
  | nil => rfl
  | cons entry rest ih =>
    rw [normalizeMembers,ih,List.filter_cons]
    split <;> rfl

theorem itemsDefined_iff {items : List Value} : ItemsDefined items ↔ ∀ item ∈ items, Defined item := by
  induction items with
  | nil => simp [ItemsDefined]
  | cons item rest ih => simp [ItemsDefined,ih]

theorem membersDefined_iff {members : List (Units × Value)} :
    MembersDefined members ↔ ∀ entry ∈ members, entry.2 = .leaf none ∨ Defined entry.2 := by
  induction members with
  | nil => simp [MembersDefined]
  | cons entry rest ih => simp [MembersDefined,ih]

theorem present_defined {members : List (Units × Value)} (defined : MembersDefined members) (inside : entry ∈ members)
    (there : present entry.2 = true) : Defined entry.2 := by
  rcases membersDefined_iff.mp defined entry inside with absent | held
  · rw [absent] at there
    cases there
  · exact held

theorem renewed_sort (change : α → β) (members : List (Units × α)) :
    (renewed change members).insertionSort before = renewed change (members.insertionSort before) :=
  (List.map_insertionSort before before (fun entry : Units × α => (entry.1,change entry.2)) _ fun _ _ _ _ => Iff.rfl).symm

def rank (key : Units) : Nat := if key ∈ LEADING_KEYS then LEADING_KEYS.idxOf key else 99

theorem rank_leading (key : Units) : rank key < 99 ↔ key ∈ LEADING_KEYS := by
  unfold rank
  split
  · next leading =>
    have bound := List.idxOf_lt_length_iff.mpr leading
    have short : LEADING_KEYS.length = 2 := rfl
    simp only [leading,iff_true]
    omega
  · next other => simp [other]

theorem keyBefore_iff (a b : Units) : keyBefore a b = true ↔
    rank a < 99 ∧ rank a ≤ rank b ∨ rank b < 99 ∧ rank a ≤ rank b ∨ ¬rank a < 99 ∧ ¬rank b < 99 ∧ a ≤ b := by
  rw [rank_leading,rank_leading]
  unfold keyBefore
  by_cases left : a ∈ LEADING_KEYS <;> by_cases right : b ∈ LEADING_KEYS <;> simp [left,right,rank]

theorem keyBefore_total (a b : Units) : keyBefore a b = true ∨ keyBefore b a = true := by
  rw [keyBefore_iff,keyBefore_iff]
  have total := List.le_total a b
  by_cases left : rank a < 99 <;> by_cases right : rank b < 99 <;> simp only [left,right,true_and,false_and,not_true_eq_false,
    not_false_eq_true,false_or,or_false,or_self]
  · omega
  · omega
  · omega
  · exact total

theorem keyBefore_trans (first : keyBefore a b = true) (second : keyBefore b c = true) : keyBefore a c = true := by
  rw [keyBefore_iff] at first second ⊢
  rcases first with ⟨low,less⟩ | ⟨low,less⟩ | ⟨left,middle,less⟩ <;>
    rcases second with ⟨low',less'⟩ | ⟨low',less'⟩ | ⟨left',middle',less'⟩
  all_goals first
    | exact .inl ⟨by omega,by omega⟩
    | exact .inr (.inr ⟨by omega,by omega,List.le_trans less less'⟩)

theorem keyBefore_antisymm (first : keyBefore a b = true) (second : keyBefore b a = true) : a = b := by
  rw [keyBefore_iff] at first second
  by_cases leading : rank a < 99
  · have equal : rank a = rank b := by omega
    have here := (rank_leading a).mp leading
    have there := (rank_leading b).mp (by omega)
    rw [rank,rank,if_pos here,if_pos there] at equal
    exact (List.idxOf_inj here).mp equal
  · rcases first with ⟨low,_⟩ | ⟨low,less⟩ | ⟨_,_,less⟩
    · exact absurd low leading
    · omega
    · rcases second with ⟨low,_⟩ | ⟨low,_⟩ | ⟨_,_,more⟩
      · omega
      · exact absurd low leading
      · exact List.le_antisymm less more

instance : Std.Total (@before α) := ⟨fun one other => keyBefore_total one.1 other.1⟩

instance : IsTrans (Units × α) before := ⟨fun _ _ _ first second => keyBefore_trans first second⟩

theorem sort_perm {members others : List (Units × α)} (same : members.Perm others) (distinct : (Table.keys others).Nodup) :
    members.insertionSort before = others.insertionSort before := by
  refine List.Perm.eq_of_pairwise ?_ (List.pairwise_insertionSort before members) (List.pairwise_insertionSort before others)
    ((List.perm_insertionSort before members).trans (same.trans (List.perm_insertionSort before others).symm))
  intro one other inside there first second
  have mine : one ∈ others := same.mem_iff.mp ((List.mem_insertionSort _).mp inside)
  have yours : other ∈ others := (List.mem_insertionSort _).mp there
  exact List.inj_on_of_nodup_map distinct mine yours (keyBefore_antisymm first second)

theorem create_mem {members : List (Units × α)} (inside : entry ∈ create members) : entry ∈ members :=
  ofEntries_mem ((ownOrder_perm _).mem_iff.mp inside)

theorem canon_object (members : List (Units × Value)) : canon (.object members) =
    .object (renewed canon (create ((members.filter fun entry => present entry.2).insertionSort before))) := by
  rw [canon,canonMembers_eq,renewed_sort,renewed_create]

theorem normalize_object (members : List (Units × Value)) : normalize (.object members) =
    .object (renewed normalize (create ((members.filter fun entry => present entry.2).insertionSort before))) := by
  rw [normalize,normalizeMembers_eq,renewed_sort,renewed_create]

theorem kept_mem {members : List (Units × Value)}
    (inside : entry ∈ create ((members.filter fun entry => present entry.2).insertionSort before)) :
    entry ∈ members ∧ present entry.2 = true :=
  List.mem_filter.mp ((List.mem_insertionSort _).mp (create_mem inside))

def Written (value : Value) : Prop := ∃ shown, written (normalize value) = some shown ∧ shown.map Scalar.plain = canon value

theorem writtenItems_canon {items : List Value} (each : ∀ item ∈ items, Written item) :
    mapItems Scalar.plain (writtenItems (normalizeItems items)) = canonItems items := by
  induction items with
  | nil => rfl
  | cons item rest ih =>
    obtain ⟨shown,found,same⟩ := each item (List.mem_cons_self ..)
    rw [normalizeItems,writtenItems,found,Option.getD_some,mapItems,same,canonItems,
      ih fun other held => each other (List.mem_cons_of_mem _ held)]

theorem writtenMembers_canon {members : List (Units × Value)} (each : ∀ entry ∈ members, Written entry.2) :
    mapMembers Scalar.plain (writtenMembers (renewed normalize members)) = renewed canon members := by
  induction members with
  | nil => rfl
  | cons entry rest ih =>
    obtain ⟨shown,found,same⟩ := each entry (List.mem_cons_self ..)
    rw [renewed_cons,writtenMembers,found]
    simp only [mapMembers,same,renewed_cons,ih fun other held => each other (List.mem_cons_of_mem _ held)]

theorem written_normalize (value : Value) (defined : Defined value) : Written value := by
  induction value using Data.grown with
  | leaf value =>
    cases value with
    | none => exact absurd defined id
    | some value => exact ⟨.leaf value,rfl,rfl⟩
  | array items ih =>
    refine ⟨.array (writtenItems (normalizeItems items)),rfl,?_⟩
    rw [Data.map,writtenItems_canon fun item held => ih item held (itemsDefined_iff.mp defined item held),canon]
  | object members ih =>
    rw [Written,normalize_object,canon_object]
    refine ⟨_,rfl,?_⟩
    rw [Data.map,writtenMembers_canon]
    intro entry inside
    obtain ⟨held,there⟩ := kept_mem inside
    exact ih entry held (present_defined defined held there)

theorem unsigned_unsigned (double : Double) : double.unsigned.unsigned = double.unsigned := by
  unfold Double.unsigned
  split <;> rfl

theorem unsigned_text (double : Double) : double.unsigned.text = double.text := by
  unfold Double.unsigned Double.text
  split <;> rfl

theorem plain_plain : ∀ value : Scalar, value.plain.plain = value.plain
  | .null => rfl
  | .bool _ => rfl
  | .string _ => rfl
  | .number (.infinite _) => rfl
  | .number (.finite double) => congrArg (fun double => Scalar.number (.finite double)) (unsigned_unsigned double)

theorem plain_text : ∀ value : Scalar, value.plain.text = value.text
  | .null => rfl
  | .bool _ => rfl
  | .string _ => rfl
  | .number (.infinite _) => rfl
  | .number (.finite double) => unsigned_text double

-- The sign of a zero is not written.
mutual
theorem stringify_plain (space : Nat) : ∀ (depth : Nat) (value : Json),
    stringify space depth (value.map Scalar.plain) = stringify space depth value
  | _,.leaf value => plain_text value
  | _,.array [] => rfl
  | depth,.array (first::rest) => by
    rw [Data.map,mapItems,stringify,stringify,stringify_plain space (depth + 1) first,stringifyItems_plain space depth rest]
  | _,.object [] => rfl
  | depth,.object ((key,first)::rest) => by
    rw [Data.map,mapMembers,stringify,stringify,stringify_plain space (depth + 1) first,stringifyMembers_plain space depth rest]

theorem stringifyItems_plain (space : Nat) : ∀ (depth : Nat) (items : List Json),
    stringifyItems space depth (mapItems Scalar.plain items) = stringifyItems space depth items
  | _,[] => rfl
  | depth,item::rest => by
    rw [mapItems,stringifyItems,stringifyItems,stringify_plain space (depth + 1) item,stringifyItems_plain space depth rest]

theorem stringifyMembers_plain (space : Nat) : ∀ (depth : Nat) (members : List (Units × Json)),
    stringifyMembers space depth (mapMembers Scalar.plain members) = stringifyMembers space depth members
  | _,[] => rfl
  | depth,(key,value)::rest => by
    rw [mapMembers,stringifyMembers,stringifyMembers,stringify_plain space (depth + 1) value,stringifyMembers_plain space depth rest]
end

theorem serialize_canon (defined : Defined value) : serialize value = stringify 2 0 (canon value) ++ ['\n'] := by
  obtain ⟨shown,found,same⟩ := written_normalize value defined
  rw [serialize,found,← same,stringify_plain]

theorem canon_owned (value : Value) : (canon value).Owned := by
  induction value using Data.grown with
  | leaf value => cases value <;> trivial
  | array items ih =>
    rw [canon,canonItems_eq]
    refine itemsOwned_iff.mpr fun item held => ?_
    obtain ⟨one,inside,rfl⟩ := List.mem_map.mp held
    exact ih one inside
  | object members ih =>
    rw [canon_object,Data.Owned,renewed_create,create_twice]
    refine ⟨rfl,membersOwned_iff.mpr fun entry held => ?_⟩
    obtain ⟨one,inside,rfl⟩ := List.mem_map.mp held
    exact ih one (kept_mem inside).1

theorem finite_plain {value : Scalar} (finite : value.Finite) : value.plain.Finite := by
  cases value with
  | number value =>
    cases value with
    | finite double => trivial
    | infinite negative => exact finite
  | null => trivial
  | bool value => trivial
  | string value => trivial

theorem canon_finite (value : Value) (defined : Defined value) : (canon value).Each Scalar.Finite := by
  induction value using Data.grown with
  | leaf value =>
    cases value with
    | none => exact absurd defined id
    | some value => exact finite_plain defined
  | array items ih =>
    rw [canon,canonItems_eq]
    refine itemsEach_iff.mpr fun item held => ?_
    obtain ⟨one,inside,rfl⟩ := List.mem_map.mp held
    exact ih one inside (itemsDefined_iff.mp defined one inside)
  | object members ih =>
    rw [canon_object]
    refine membersEach_iff.mpr fun entry held => ?_
    obtain ⟨one,inside,rfl⟩ := List.mem_map.mp held
    obtain ⟨listed,there⟩ := kept_mem inside
    exact ih one listed (present_defined defined listed there)

theorem renewed_renewed (first : α → β) (second : β → γ) (members : List (Units × α)) :
    renewed second (renewed first members) = renewed (fun value => second (first value)) members := by
  rw [renewed,renewed,renewed,List.map_map]
  rfl

theorem renewed_congr {first second : α → β} {members : List (Units × α)} (same : ∀ entry ∈ members, first entry.2 = second entry.2) :
    renewed first members = renewed second members :=
  List.map_congr_left fun entry held => by rw [same entry held]

theorem canon_plain (value : Value) : (canon value).map Scalar.plain = canon value := by
  induction value using Data.grown with
  | leaf value =>
    cases value with
    | none => rfl
    | some value => exact congrArg Data.leaf (plain_plain value)
  | array items ih =>
    rw [canon,canonItems_eq,Data.map,mapItems_eq,List.map_map]
    exact congrArg Data.array (List.map_congr_left ih)
  | object members ih =>
    rw [canon_object,Data.map,mapMembers_eq,renewed_renewed]
    exact congrArg Data.object (renewed_congr fun entry held => ih entry (kept_mem held).1)

theorem parse_serialize (defined : Defined value) : parse (serialize value) = some (canon value) := by
  have blanks : Blank ['\n'] := by
    intro char held
    rw [List.mem_singleton.mp held]
    rfl
  rw [serialize_canon defined,parse_stringify 2 (canon value) (canon_owned value) (canon_finite value defined) blanks,canon_plain]

theorem serialize_eq (left : Defined a) (right : Defined b) : serialize a = serialize b ↔ canon a = canon b := by
  constructor
  · intro same
    have read := parse_serialize left
    rw [same,parse_serialize right] at read
    exact (Option.some.inj read).symm
  · intro same
    rw [serialize_canon left,serialize_canon right,same]

theorem get_perm {members others : List (Units × α)} (same : members.Perm others) (distinct : (Table.keys others).Nodup) (key : Units) :
    Table.get members key = Table.get others key := by
  cases found : Table.get others key with
  | none =>
    rw [get_eq_none] at found ⊢
    exact fun held => found ((same.map Prod.fst).mem_iff.mp held)
  | some value =>
    exact get_of_mem (keys_perm same distinct) (same.mem_iff.mpr (get_mem found))

theorem sorted_iff {members others : List (Units × α)} (left : (Table.keys members).Nodup) (right : (Table.keys others).Nodup) :
    ownOrder (members.insertionSort before) = ownOrder (others.insertionSort before) ↔
      ∀ key, Table.get members key = Table.get others key := by
  have moved : ∀ list : List (Units × α), (ownOrder (list.insertionSort before)).Perm list :=
    fun list => (ownOrder_perm _).trans (List.perm_insertionSort before list)
  constructor
  · intro same key
    exact get_perm ((moved members).symm.trans ((List.Perm.of_eq same).trans (moved others))) right key
  · intro same
    have entries : ∀ entry, entry ∈ members ↔ entry ∈ others := by
      intro entry
      constructor
      · intro held
        exact get_mem ((same entry.1).symm.trans (get_of_mem left held))
      · intro held
        exact get_mem ((same entry.1).trans (get_of_mem right held))
    have perm : members.Perm others :=
      (List.perm_ext_iff_of_nodup (List.Nodup.of_map _ left) (List.Nodup.of_map _ right)).mpr entries
    rw [sort_perm perm right]

section
variable {members others : List (Units × Value)}

theorem owned_distinct (created : create members = members) : (Table.keys members).Nodup := by
  rw [← created]
  exact keys_create members

theorem kept_distinct (distinct : (Table.keys members).Nodup) :
    (Table.keys (members.filter fun entry => present entry.2)).Nodup :=
  distinct.sublist (List.filter_sublist.map Prod.fst)

theorem get_kept (distinct : (Table.keys members).Nodup) (key : Units) :
    Table.get (members.filter fun entry => present entry.2) key = held members key := by
  unfold held
  cases found : Table.get members key with
  | none =>
    rw [get_eq_none] at found
    exact get_eq_none.mpr fun inside => found ((List.filter_sublist.map Prod.fst).subset inside)
  | some value =>
    rw [Option.filter_some]
    split
    · next there => exact get_of_mem (kept_distinct distinct) (List.mem_filter.mpr ⟨get_mem found,there⟩)
    · next absent =>
      rw [get_eq_none]
      intro inside
      obtain ⟨other,listed⟩ := mem_keys.mp inside
      obtain ⟨original,there⟩ := List.mem_filter.mp listed
      have same := get_of_mem distinct original
      rw [found] at same
      rw [← Option.some.inj same] at there
      exact absent there

theorem canon_sorted (distinct : (Table.keys members).Nodup) : canon (.object members) =
    .object (ownOrder ((renewed canon (members.filter fun entry => present entry.2)).insertionSort before)) := by
  have sorted : (Table.keys ((members.filter fun entry => present entry.2).insertionSort before)).Nodup :=
    keys_perm (List.perm_insertionSort _ _) (kept_distinct distinct)
  rw [canon_object,create_distinct sorted,renewed_sort,renewed_ownOrder]

theorem canon_objects (left : (Table.keys members).Nodup) (right : (Table.keys others).Nodup) :
    canon (.object members) = canon (.object others) ↔ ∀ key, (held members key).map canon = (held others key).map canon := by
  have kept : ∀ {list : List (Units × Value)}, (Table.keys list).Nodup →
      (Table.keys (renewed canon (list.filter fun entry => present entry.2))).Nodup := by
    intro list distinct
    rw [renewed_keys]
    exact kept_distinct distinct
  rw [canon_sorted left,canon_sorted right,Data.object.injEq,sorted_iff (kept left) (kept right)]
  simp only [renewed_get,get_kept left,get_kept right]

theorem held_mem (found : held members key = some value) : (key,value) ∈ members ∧ present value = true := by
  obtain ⟨got,there⟩ := Option.filter_eq_some_iff.mp found
  exact ⟨get_mem got,there⟩

end

theorem unsigned_size (double : Double) : double.unsigned.size = double.size := by
  unfold Double.unsigned
  split <;> rfl

theorem unsigned_iff (one other : Double) : one.unsigned = other.unsigned ↔ one.size = 0 ∧ other.size = 0 ∨ one = other := by
  constructor
  · intro same
    have sizes := congrArg Double.size same
    rw [unsigned_size,unsigned_size] at sizes
    by_cases zero : one.size = 0
    · exact .inl ⟨zero,sizes ▸ zero⟩
    · rw [Double.unsigned,Double.unsigned,if_neg zero,if_neg (sizes ▸ zero)] at same
      exact .inr same
  · rintro (⟨first,second⟩ | rfl)
    · simp [Double.unsigned,first,second]
    · rfl

theorem finite_iff (one other : Double) :
    Scalar.plain (.number (.finite one)) = Scalar.plain (.number (.finite other)) ↔
      Scalar.equal (.number (.finite one)) (.number (.finite other)) := by
  rw [Scalar.plain,Scalar.plain,Scalar.number.injEq,Number.finite.injEq]
  exact unsigned_iff one other

theorem equal_iff (one other : Scalar) : one.plain = other.plain ↔ Scalar.equal one other := by
  rcases one with _ | _ | (_ | _) | _ <;> rcases other with _ | _ | (_ | _) | _ <;> first
    | exact Iff.rfl
    | exact finite_iff _ _
    | exact iff_of_false (fun same => by cases same) (fun same => by cases same)

theorem items_iff {items others : List Value}
    (each : ∀ item ∈ items, ∀ other, JsonLike item → JsonLike other → (canon item = canon other ↔ Same item other))
    (left : ∀ item ∈ items, JsonLike item) (right : ∀ item ∈ others, JsonLike item) :
    items.map canon = others.map canon ↔ List.Forall₂ Same items others := by
  induction items generalizing others with
  | nil => cases others <;> simp
  | cons item rest ih =>
    cases others with
    | nil => simp
    | cons other more =>
      have here := each item (List.mem_cons_self ..) other (left item (List.mem_cons_self ..)) (right other (List.mem_cons_self ..))
      have later : rest.map canon = more.map canon ↔ List.Forall₂ Same rest more := ih (fun one held => each one (List.mem_cons_of_mem _ held))
        (fun one held => left one (List.mem_cons_of_mem _ held)) fun one held => right one (List.mem_cons_of_mem _ held)
      rw [List.map_cons,List.map_cons,List.cons.injEq,here,later,List.forall₂_cons]

theorem canon_iff (a b : Value) (left : JsonLike a) (right : JsonLike b) : canon a = canon b ↔ Same a b := by
  induction a using Data.grown generalizing b with
  | leaf value =>
    cases value with
    | none => exact absurd left.defined id
    | some one =>
      cases b with
      | leaf value =>
        cases value with
        | none => exact absurd right.defined id
        | some other =>
          rw [canon,canon,Data.leaf.injEq,equal_iff]
          exact ⟨.leaf,fun same => by cases same with | leaf equal => exact equal⟩
      | array items => exact iff_of_false (fun same => by cases same) (fun same => by cases same)
      | object members => exact iff_of_false (fun same => by cases same) (fun same => by cases same)
  | array items ih =>
    cases b with
    | leaf value =>
      cases value with
      | none => exact absurd right.defined id
      | some value => exact iff_of_false (fun same => by cases same) (fun same => by cases same)
    | array others =>
      rw [canon,canon,Data.array.injEq,canonItems_eq,canonItems_eq]
      have each := items_iff ih (fun item held => ⟨itemsOwned_iff.mp left.owned item held,itemsDefined_iff.mp left.defined item held⟩)
        (fun item held => ⟨itemsOwned_iff.mp right.owned item held,itemsDefined_iff.mp right.defined item held⟩)
      exact each.trans ⟨.array,fun same => by cases same with | array each => exact each⟩
    | object members => exact iff_of_false (fun same => by cases same) (fun same => by cases same)
  | object members ih =>
    cases b with
    | leaf value =>
      cases value with
      | none => exact absurd right.defined id
      | some value => exact iff_of_false (fun same => by cases same) (fun same => by cases same)
    | array items => exact iff_of_false (fun same => by cases same) (fun same => by cases same)
    | object others =>
      rw [canon_objects (owned_distinct left.owned.1) (owned_distinct right.owned.1)]
      have pair : ∀ key one other, held members key = some one → held others key = some other →
          (canon one = canon other ↔ Same one other) := by
        intro key one other here there
        obtain ⟨mine,shown⟩ := held_mem here
        obtain ⟨yours,seen⟩ := held_mem there
        exact ih (key,one) mine other
          ⟨membersOwned_iff.mp left.owned.2 _ mine,present_defined left.defined mine shown⟩
          ⟨membersOwned_iff.mp right.owned.2 _ yours,present_defined right.defined yours seen⟩
      constructor
      · intro same
        refine .object (fun key => ?_) fun key one other here there => (pair key one other here there).mp ?_
        · have equal := congrArg Option.isSome (same key)
          rwa [Option.isSome_map,Option.isSome_map] at equal
        · have equal := same key
          rw [here,there] at equal
          exact Option.some.inj equal
      · intro same key
        cases same with
        | object presence pairs =>
          cases here : held members key with
          | none =>
            have absent := presence key
            rw [here] at absent
            rw [Option.isSome_eq_false_iff.mp absent.symm |> Option.isNone_iff_eq_none.mp]
          | some one =>
            have found := presence key
            rw [here] at found
            obtain ⟨other,there⟩ := Option.isSome_iff_exists.mp found.symm
            rw [there,Option.map_some,Option.map_some,(pair key one other here there).mpr (pairs key one other here there)]

-- What JSON.parse returns, as serialize takes it.
def file (value : Json) : Value := value.map some

theorem file_object (members : List (Units × Json)) : file (.object members) = .object (renewed file members) := by
  rw [file,Data.map,mapMembers_eq]
  rfl

theorem file_array (items : List Json) : file (.array items) = .array (items.map file) := by
  rw [file,Data.map,mapItems_eq]
  rfl

theorem file_defined (value : Json) (finite : value.Each Scalar.Finite) : Defined (file value) := by
  induction value using Data.grown with
  | leaf value => exact finite
  | array items ih =>
    rw [file_array]
    refine itemsDefined_iff.mpr fun item held => ?_
    obtain ⟨one,inside,rfl⟩ := List.mem_map.mp held
    exact ih one inside (itemsEach_iff.mp finite one inside)
  | object members ih =>
    rw [file_object]
    refine membersDefined_iff.mpr fun entry held => .inr ?_
    obtain ⟨one,inside,rfl⟩ := List.mem_map.mp held
    exact ih one inside (membersEach_iff.mp finite one inside)

theorem file_like {value : Json} (owned : value.Owned) (finite : value.Each Scalar.Finite) : JsonLike (file value) :=
  ⟨owned_map some value owned,file_defined value finite⟩

theorem present_canon {value : Value} (there : present value = true) : present (file (canon value)) = true := by
  cases value with
  | leaf value =>
    rcases value with _ | (_ | _ | (_ | _) | _)
    · cases there
    · cases there
    · rfl
    · rfl
    · rfl
    · rfl
  | array items => rfl
  | object members => rfl

theorem canon_file (value : Value) (like : JsonLike value) : canon (file (canon value)) = canon value := by
  induction value using Data.grown with
  | leaf value =>
    cases value with
    | none => exact absurd like.defined id
    | some value => exact congrArg Data.leaf (plain_plain value)
  | array items ih =>
    rw [canon,canonItems_eq,file_array,canon,canonItems_eq,List.map_map,List.map_map]
    refine congrArg Data.array (List.map_congr_left fun item held => ?_)
    exact ih item held ⟨itemsOwned_iff.mp like.owned item held,itemsDefined_iff.mp like.defined item held⟩
  | object members ih =>
    have distinct := owned_distinct like.owned.1
    have kept := kept_distinct distinct
    let list := ownOrder ((members.filter fun entry => present entry.2).insertionSort before)
    have perm : list.Perm (members.filter fun entry => present entry.2) :=
      (ownOrder_perm _).trans (List.perm_insertionSort _ _)
    have shown : canon (.object members) = .object (renewed canon list) := by
      rw [canon_sorted distinct,renewed_sort,renewed_ownOrder]
    have from_members : ∀ entry ∈ list, entry ∈ members ∧ present entry.2 = true :=
      fun entry inside => List.mem_filter.mp (perm.mem_iff.mp inside)
    have all : (renewed file (renewed canon list)).filter (fun entry => present entry.2) = renewed file (renewed canon list) := by
      refine List.filter_eq_self.mpr fun entry inside => ?_
      rw [renewed_renewed] at inside
      obtain ⟨one,held,rfl⟩ := List.mem_map.mp inside
      exact present_canon (from_members one held).2
    have again : renewed canon (renewed file (renewed canon list)) = renewed canon list := by
      rw [renewed_renewed,renewed_renewed]
      refine renewed_congr fun entry inside => ih entry (from_members entry inside).1 ?_
      exact ⟨membersOwned_iff.mp like.owned.2 entry (from_members entry inside).1,
        present_defined like.defined (from_members entry inside).1 (from_members entry inside).2⟩
    have keys : (Table.keys (renewed file (renewed canon list))).Nodup := by
      rw [renewed_keys,renewed_keys]
      exact keys_perm perm kept
    rw [shown,file_object,canon_sorted keys,all,again,renewed_sort,renewed_ownOrder,sort_perm perm kept]

theorem canon_unsigned (value : Json) : canon (file (value.map Scalar.plain)) = canon (file value) ∧
    present (file (value.map Scalar.plain)) = present (file value) := by
  induction value using Data.grown with
  | leaf value =>
    refine ⟨congrArg Data.leaf (plain_plain value),?_⟩
    rcases value with _ | _ | (_ | _) | _ <;> rfl
  | array items ih =>
    refine ⟨?_,rfl⟩
    rw [Data.map,mapItems_eq,file_array,file_array,canon,canon,canonItems_eq,canonItems_eq,List.map_map,List.map_map,List.map_map]
    exact congrArg Data.array (List.map_congr_left fun item held => (ih item held).1)
  | object members ih =>
    refine ⟨?_,rfl⟩
    have same : canonMembers (renewed file (renewed (Data.map Scalar.plain) members)) = canonMembers (renewed file members) := by
      induction members with
      | nil => rfl
      | cons entry rest later =>
        obtain ⟨equal,shown⟩ := ih entry (List.mem_cons_self ..)
        simp only [renewed_cons,canonMembers,equal,shown,later fun one held => ih one (List.mem_cons_of_mem _ held)]
    rw [Data.map,mapMembers_eq,file_object,file_object,canon,canon,same]

theorem checksum_eq {sha256 : Bytes → Text} (injective : Function.Injective sha256) (left : Defined a) (right : Defined b) :
    migrationChecksum sha256 a = migrationChecksum sha256 b ↔ canon a = canon b := by
  rw [← serialize_eq left right]
  exact ⟨fun same => utf8_injective (injective same),fun same => by rw [migrationChecksum,migrationChecksum,same]⟩

-- Files are told apart by what they say, however they are laid out.
theorem serialize_canonical (sha256 : Bytes → Text) (injective : Function.Injective sha256) (a b : Value)
    (left : JsonLike a) (right : JsonLike b) :
    (serialize a = serialize b ↔ Same a b) ∧
      (∃ read, parse (serialize a) = some read ∧ serialize (file read) = serialize a) ∧
      (migrationChecksum sha256 a = migrationChecksum sha256 b ↔ Same a b) ∧
      ∀ (space : Nat) (blanks : Text) (content : Json), content.Owned → content.Each Scalar.Finite → Blank blanks →
        Same (file content) a → ∃ read, parse (stringify space 0 content ++ blanks) = some read ∧
          migrationChecksum sha256 (file read) = migrationChecksum sha256 a := by
  refine ⟨?_,?_,?_,?_⟩
  · rw [serialize_eq left.defined right.defined,canon_iff a b left right]
  · refine ⟨canon a,parse_serialize left.defined,?_⟩
    rw [serialize_eq (file_defined _ (canon_finite a left.defined)) left.defined]
    exact canon_file a left
  · rw [checksum_eq injective left.defined right.defined,canon_iff a b left right]
  · intro space blanks content owned finite blank same
    refine ⟨content.map Scalar.plain,parse_stringify space content owned finite blank,?_⟩
    have kept := each_map (fun _ finite => finite_plain finite) content finite
    rw [checksum_eq injective (file_defined _ kept) left.defined,(canon_unsigned content).1]
    exact (canon_iff _ a (file_like owned finite) left).mpr same

def draft : Value := .object
  [(units ['1','0'],.leaf none),(units ['b'],.leaf (some .null)),(units ['o','p'],.leaf (some (.bool true))),
    (units ['a'],.array [.leaf (some .null)])]

def tidy : Value := .object [(units ['a'],.array [.leaf (some .null)]),(units ['o','p'],.leaf (some (.bool true)))]

theorem draft_tidy : migrationChecksum Codecs.toHex draft = migrationChecksum Codecs.toHex tidy := by
  have left : JsonLike draft := ⟨⟨by rfl,trivial,trivial,trivial,⟨trivial,trivial⟩,trivial⟩,
    .inl rfl,.inr trivial,.inr trivial,.inr ⟨trivial,trivial⟩,trivial⟩
  have right : JsonLike tidy := ⟨⟨by rfl,⟨trivial,trivial⟩,trivial,trivial⟩,.inr ⟨trivial,trivial⟩,.inr trivial,trivial⟩
  have same : Same draft tidy := (canon_iff draft tidy left right).mp (by rfl)
  exact (serialize_canonical Codecs.toHex Codecs.toHex_injective draft tidy left right).2.2.1.mpr same

end Zveltio.CanonicalJson
