import Zveltio.JsonReading
import Zveltio.TextCoding
import Zveltio.IsoDates
import Mathlib.Data.Bool.AllAny
namespace Zveltio.TaggedValues
open Tables
open Doubles (Number Double)
open JsValues JsonText JsonReading
open IpText (Text)
open Codecs (Bytes toBase64 bufferFrom)
open TextCoding (chars chars_units)
open Calendar (Valid)

-- What a frame carries; a date that is none is the invalid one.
inductive Leaf where
  | null
  | bool (value : Bool)
  | number (value : Number)
  | string (value : Units)
  | bigint (value : Int)
  | date (time : Option (Subtype Valid))
  | bytes (value : Bytes)

abbrev Message := Data Leaf

def TAG : Units := units ['$','z','v']

def V : Units := units ['v']

def tagged (kind : String) (payload : Json) : Json := .object [(TAG,.leaf (.string (units kind.toList))),(V,payload)]

def text (value : Text) : Json := .leaf (.string (units value))

def bigintText (value : Int) : Text := Doubles.signed (value < 0) (Nat.toDigits 10 value.natAbs)

-- What the replacer makes of a leaf.
def Leaf.replaced : Leaf → Json
  | .null => .leaf .null
  | .bool value => .leaf (.bool value)
  | .number value => .leaf (.number value)
  | .string value => .leaf (.string value)
  | .bigint value => tagged "bigint" (text (bigintText value))
  | .date none => tagged "date" (.leaf .null)
  | .date (some time) => tagged "date" (text (SqlLiterals.toISOString time.val))
  | .bytes value => tagged "bytes" (text (toBase64 value))

-- What JSON.stringify writes under the replacer: it is asked for each property from the top down, and
-- the members of what it returns in their turn.
mutual
def replaced : Message → Json
  | .leaf value => value.replaced
  | .array items => .array (replacedItems items)
  | .object members =>
    if TAG ∈ Table.keys members then tagged "object" (.array (replacedEntries members))
    else .object (replacedMembers members)

def replacedItems : List Message → List Json
  | [] => []
  | item::rest => replaced item::replacedItems rest

def replacedMembers : List (Units × Message) → List (Units × Json)
  | [] => []
  | (key,value)::rest => (key,replaced value)::replacedMembers rest

-- Object.entries
def replacedEntries : List (Units × Message) → List Json
  | [] => []
  | (key,value)::rest => .array [.leaf (.string key),replaced value]::replacedEntries rest
end

-- BigInt of a decimal text; it reads more, which no frame holds.
def bigint : Text → Option Int
  | '-'::rest => if rest ≠ [] ∧ rest.all Char.isDigit then some (-(Nat.ofDigitChars 10 rest 0 : Int)) else none
  | rest => if rest ≠ [] ∧ rest.all Char.isDigit then some (Nat.ofDigitChars 10 rest 0 : Int) else none

def newDate (value : Text) : Option (Subtype Valid) :=
  (IsoDates.parse value).bind fun time => if valid : Valid time then some ⟨time,valid⟩ else none

def entry : Message → Option (Units × Message)
  | .array [.leaf (.string key),value] => some (key,value)
  | _ => none

-- The reviver on an object whose members it has been given; none where it throws. v is what the
-- source casts it to.
def reviver (members : List (Units × Message)) : Option Message :=
  match Table.get members TAG with
  | some (.leaf (.string kind)) =>
    if kind = units "bigint".toList then match Table.get members V with
      | some (.leaf (.string value)) => (bigint (chars value)).map fun value => .leaf (.bigint value)
      | _ => none
    else if kind = units "date".toList then match Table.get members V with
      | some (.leaf .null) => some (.leaf (.date none))
      | some (.leaf (.string value)) => some (.leaf (.date (newDate (chars value))))
      | _ => none
    else if kind = units "bytes".toList then match Table.get members V with
      | some (.leaf (.string value)) => some (.leaf (.bytes (bufferFrom (chars value))))
      | _ => none
    else if kind = units "object".toList then match Table.get members V with
      | some (.array entries) => (entries.mapM entry).map fun entries => .object (create entries)
      | _ => none
    else some (.object members)
  | _ => some (.object members)

def Scalar.leaf : Scalar → Leaf
  | .null => .null
  | .bool value => .bool value
  | .number value => .number value
  | .string value => .string value

-- JSON.parse asks the reviver from the leaves up.
mutual
def revived : Json → Option Message
  | .leaf value => some (.leaf (Scalar.leaf value))
  | .array items => (revivedItems items).map .array
  | .object members => (revivedMembers members).bind reviver

def revivedItems : List Json → Option (List Message)
  | [] => some []
  | item::rest => do
    let value ← revived item
    let later ← revivedItems rest
    some (value::later)

def revivedMembers : List (Units × Json) → Option (List (Units × Message))
  | [] => some []
  | (key,item)::rest => do
    let value ← revived item
    let later ← revivedMembers rest
    some ((key,value)::later)
end

-- JSON.stringify(msg, replacer), and JSON.parse(text, reviver).
def encode (message : Message) : Text := stringify 0 0 (replaced message)

def decode (value : Text) : Option Message := (parse value).bind revived

def Leaf.Finite : Leaf → Prop
  | .number (.infinite _) => False
  | _ => True

-- Values whose numbers are finite.
structure Plain (message : Message) : Prop where
  owned : message.Owned
  finite : message.Each Leaf.Finite

def Leaf.plain : Leaf → Leaf
  | .number (.finite double) => .number (.finite double.unsigned)
  | other => other

def Leaf.Unsigned : Leaf → Prop
  | .number (.finite double) => double.size = 0 → double.negative = false
  | _ => True

theorem digit_narrow {char : Char} (digit : char.isDigit = true) : char.toNat < 65536 :=
  Nat.lt_of_le_of_lt (Char.isDigit_iff_toNat.mp digit).2 (by decide)

theorem bigint_back (value : Int) : bigint (chars (units (bigintText value))) = some value := by
  have decimal : (Nat.toDigits 10 value.natAbs).all Char.isDigit = true :=
    List.all_eq_true.mpr fun char held => Nat.isDigit_of_mem_toDigits (by decide) (by decide) held
  have narrow : ∀ char ∈ Nat.toDigits 10 value.natAbs, char.toNat < 65536 :=
    fun char held => digit_narrow (List.all_eq_true.mp decimal char held)
  have some' : Nat.toDigits 10 value.natAbs ≠ [] := Nat.toDigits_ne_nil
  unfold bigintText Doubles.signed
  by_cases negative : value < 0
  · rw [decide_eq_true negative,if_pos rfl,chars_units (by
      intro char held
      rcases List.mem_cons.mp held with rfl | digit
      · decide
      · exact narrow char digit),bigint,if_pos ⟨some',decimal⟩,Nat.ofDigitChars_ten_toDigits]
    rw [show -(value.natAbs : Int) = value by omega]
  · rw [decide_eq_false negative,if_neg Bool.false_ne_true,chars_units narrow]
    obtain ⟨first,rest,shown⟩ := List.exists_cons_of_ne_nil some'
    have number : Nat.ofDigitChars 10 (Nat.toDigits 10 value.natAbs) 0 = value.natAbs := Nat.ofDigitChars_ten_toDigits
    rw [shown] at decimal number ⊢
    rw [bigint]
    · rw [if_pos ⟨List.cons_ne_nil _ _,decimal⟩,number,show (value.natAbs : Int) = value by omega]
    · intro rest same
      have digit := List.all_eq_true.mp decimal first (List.mem_cons_self ..)
      rw [(List.cons.inj same).1] at digit
      cases digit

theorem padded_narrow (width value : Nat) : ∀ char ∈ SqlLiterals.padded width value, char.toNat < 65536 := by
  intro char held
  rcases List.mem_append.mp held with zero | digit
  · rw [List.eq_of_mem_replicate zero]
    decide
  · exact digit_narrow (Nat.isDigit_of_mem_toDigits (by decide) (by decide) digit)

theorem iso_narrow (time : Int) : ∀ char ∈ SqlLiterals.toISOString time, char.toNat < 65536 := by
  have year : ∀ value, ∀ char ∈ SqlLiterals.isoYear value, char.toNat < 65536 := by
    intro value
    unfold SqlLiterals.isoYear
    split
    · exact padded_narrow 4 _
    · exact List.forall_mem_cons.mpr ⟨by split <;> decide,padded_narrow 6 _⟩
  have mark : ∀ char ∈ ['-','T',':','.','Z'], char.toNat < 65536 := List.all_iff_forall_prop.mp (by decide)
  simp only [List.forall_mem_cons] at mark
  obtain ⟨minus,t,colon,dot,z,_⟩ := mark
  simp only [SqlLiterals.toISOString,List.forall_mem_append,List.forall_mem_cons,minus,t,colon,dot,z,true_and]
  exact ⟨⟨⟨⟨⟨⟨⟨year _,padded_narrow 2 _⟩,padded_narrow 2 _⟩,padded_narrow 2 _⟩,padded_narrow 2 _⟩,padded_narrow 2 _⟩,padded_narrow 3 _⟩,
    fun _ held => absurd held List.not_mem_nil⟩

theorem newDate_back (time : Subtype Valid) : newDate (chars (units (SqlLiterals.toISOString time.val))) = some time := by
  rw [chars_units (iso_narrow time.val),newDate,IsoDates.parse_toISOString time.property,Option.bind_some,dif_pos time.property]

theorem get_tag (kind value : α) : Table.get [(TAG,kind),(V,value)] TAG = some kind := by
  rw [get_cons,if_pos rfl]

theorem get_v (kind value : α) : Table.get [(TAG,kind),(V,value)] V = some value := by
  have other : TAG ≠ V := by decide
  rw [get_cons,if_neg other,get_cons,if_pos rfl]

theorem tagged_revived (kind : String) (payload : Json) {value : Message} (read : revived payload = some value) :
    revived (tagged kind payload) = reviver [(TAG,.leaf (.string (units kind.toList))),(V,value)] := by
  simp only [tagged,revived,revivedMembers,read,Option.bind_eq_bind,Option.bind_some,Scalar.leaf]

theorem leaf_revived (value : Leaf) : revived value.replaced = some (.leaf value) := by
  cases value with
  | null => rfl
  | bool value => rfl
  | number value => rfl
  | string value => rfl
  | bigint value =>
    rw [Leaf.replaced,tagged_revived "bigint" (text (bigintText value)) rfl]
    simp only [reviver,get_tag,get_v,if_true,Scalar.leaf,bigint_back,Option.map_some]
  | date time =>
    have other : units "date".toList ≠ units "bigint".toList := by decide +kernel
    cases time with
    | none =>
      rw [Leaf.replaced,tagged_revived "date" (.leaf .null) rfl]
      simp only [reviver,get_tag,get_v,if_true,if_neg other,Scalar.leaf]
    | some time =>
      rw [Leaf.replaced,tagged_revived "date" (text (SqlLiterals.toISOString time.val)) rfl]
      simp only [reviver,get_tag,get_v,if_true,if_neg other,Scalar.leaf,newDate_back]
  | bytes value =>
    have first : units "bytes".toList ≠ units "bigint".toList := by decide +kernel
    have second : units "bytes".toList ≠ units "date".toList := by decide +kernel
    rw [Leaf.replaced,tagged_revived "bytes" (text (toBase64 value)) rfl]
    simp only [reviver,get_tag,get_v,if_true,if_neg first,if_neg second,Scalar.leaf,chars_units (Codecs.toBase64_narrow value),
      Codecs.bufferFrom_toBase64]

def entryItem (entry : Units × Message) : Message := .array [.leaf (.string entry.1),entry.2]

theorem items_revived (items : List Message) (back : ∀ item ∈ items, revived (replaced item) = some item) :
    revivedItems (replacedItems items) = some items := by
  induction items with
  | nil => rfl
  | cons item rest ih =>
    simp only [replacedItems,revivedItems,back item (List.mem_cons_self ..),
      ih fun later held => back later (List.mem_cons_of_mem _ held),Option.bind_eq_bind,Option.bind_some]

theorem members_revived (members : List (Units × Message)) (back : ∀ entry ∈ members, revived (replaced entry.2) = some entry.2) :
    revivedMembers (replacedMembers members) = some members := by
  induction members with
  | nil => rfl
  | cons entry rest ih =>
    simp only [replacedMembers,revivedMembers,back entry (List.mem_cons_self ..),
      ih fun later held => back later (List.mem_cons_of_mem _ held),Option.bind_eq_bind,Option.bind_some]

theorem entries_revived (members : List (Units × Message)) (back : ∀ entry ∈ members, revived (replaced entry.2) = some entry.2) :
    revivedItems (replacedEntries members) = some (members.map entryItem) := by
  induction members with
  | nil => rfl
  | cons entry rest ih =>
    simp only [replacedEntries,revivedItems,revived,back entry (List.mem_cons_self ..),
      ih fun later held => back later (List.mem_cons_of_mem _ held),Option.bind_eq_bind,Option.bind_some,Option.map_some,Scalar.leaf]
    rfl

theorem entries_read (members : List (Units × Message)) : (members.map entryItem).mapM entry = some members := by
  induction members with
  | nil => rfl
  | cons entry rest ih =>
    rw [List.map_cons,List.mapM_cons,ih]
    rfl

theorem object_revived (members : List (Units × Message)) (owned : create members = members)
    (back : ∀ entry ∈ members, revived (replaced entry.2) = some entry.2) : revived (replaced (.object members)) = some (.object members) := by
  rw [replaced]
  split
  · next marked =>
    have first : units "object".toList ≠ units "bigint".toList := by decide +kernel
    have second : units "object".toList ≠ units "date".toList := by decide +kernel
    have third : units "object".toList ≠ units "bytes".toList := by decide +kernel
    have read : revived (.array (replacedEntries members)) = some (.array (members.map entryItem)) := by
      rw [revived,entries_revived members back]
      rfl
    rw [tagged_revived "object" _ read]
    simp only [reviver,get_tag,get_v,if_true,if_neg first,if_neg second,if_neg third,entries_read,Option.map_some,owned]
  · next plain =>
    rw [revived,members_revived members back,Option.bind_some,reviver,get_eq_none.mpr plain]

theorem revived_replaced (message : Message) (owned : message.Owned) : revived (replaced message) = some message := by
  induction message using Data.grown with
  | leaf value => exact leaf_revived value
  | array items ih =>
    rw [replaced,revived,items_revived items fun item held => ih item held (itemsOwned_iff.mp owned item held)]
    rfl
  | object members ih =>
    exact object_revived members owned.1 fun entry held => ih entry held (membersOwned_iff.mp owned.2 entry held)

theorem replacedItems_eq (items : List Message) : replacedItems items = items.map replaced := by
  induction items with
  | nil => rfl
  | cons item rest ih => rw [replacedItems,ih,List.map_cons]

theorem replacedMembers_eq (members : List (Units × Message)) : replacedMembers members = renewed replaced members := by
  induction members with
  | nil => rfl
  | cons entry rest ih => rw [replacedMembers,ih,renewed_cons]

def entryJson (entry : Units × Message) : Json := .array [.leaf (.string entry.1),replaced entry.2]

theorem replacedEntries_eq (members : List (Units × Message)) : replacedEntries members = members.map entryJson := by
  induction members with
  | nil => rfl
  | cons entry rest ih =>
    rw [replacedEntries,ih,List.map_cons]
    rfl

theorem tag_name : arrayIndex TAG = none := by decide +kernel

theorem create_tag (value : α) : create [(TAG,value)] = [(TAG,value)] := by
  have distinct : (Table.keys [(TAG,value)]).Nodup := List.nodup_singleton TAG
  rw [create_distinct distinct]
  simp [ownOrder,indexed,tag_name]

theorem create_tagged (kind value : Json) : create [(TAG,kind),(V,value)] = [(TAG,kind),(V,value)] := by
  have v : arrayIndex V = none := by decide +kernel
  have distinct : (Table.keys [(TAG,kind),(V,value)]).Nodup := show [TAG,V].Nodup by decide
  rw [create_distinct distinct]
  simp [ownOrder,indexed,tag_name,v]

theorem tagged_owned (kind : String) {payload : Json} (owned : payload.Owned) : (tagged kind payload).Owned :=
  ⟨create_tagged _ _,trivial,owned,trivial⟩

theorem tagged_finite (kind : String) {payload : Json} (finite : payload.Each Scalar.Finite) :
    (tagged kind payload).Each Scalar.Finite := ⟨trivial,finite,trivial⟩

theorem replaced_owned (message : Message) (owned : message.Owned) : (replaced message).Owned := by
  induction message using Data.grown with
  | leaf value =>
    cases value with
    | bigint value => exact tagged_owned _ trivial
    | date time => cases time <;> exact tagged_owned _ trivial
    | bytes value => exact tagged_owned _ trivial
    | _ => trivial
  | array items ih =>
    rw [replaced,replacedItems_eq]
    refine itemsOwned_iff.mpr (List.forall_mem_map.mpr fun item held => ?_)
    exact ih item held (itemsOwned_iff.mp owned item held)
  | object members ih =>
    have inner : ∀ entry ∈ members, (replaced entry.2).Owned :=
      fun entry held => ih entry held (membersOwned_iff.mp owned.2 entry held)
    rw [replaced]
    split
    · rw [replacedEntries_eq]
      refine tagged_owned _ (itemsOwned_iff.mpr (List.forall_mem_map.mpr fun entry held => ?_))
      exact ⟨trivial,inner entry held,trivial⟩
    · rw [replacedMembers_eq]
      exact ⟨by rw [renewed_create,owned.1],membersOwned_iff.mpr (List.forall_mem_map.mpr inner)⟩

theorem replaced_finite (message : Message) (finite : message.Each Leaf.Finite) : (replaced message).Each Scalar.Finite := by
  induction message using Data.grown with
  | leaf value =>
    cases value with
    | bigint value => exact tagged_finite _ trivial
    | date time => cases time <;> exact tagged_finite _ trivial
    | bytes value => exact tagged_finite _ trivial
    | number value => cases value <;> exact finite
    | _ => trivial
  | array items ih =>
    rw [replaced,replacedItems_eq]
    refine itemsEach_iff.mpr (List.forall_mem_map.mpr fun item held => ?_)
    exact ih item held (itemsEach_iff.mp finite item held)
  | object members ih =>
    have inner : ∀ entry ∈ members, (replaced entry.2).Each Scalar.Finite :=
      fun entry held => ih entry held (membersEach_iff.mp finite entry held)
    rw [replaced]
    split
    · rw [replacedEntries_eq]
      refine tagged_finite _ (itemsEach_iff.mpr (List.forall_mem_map.mpr fun entry held => ?_))
      exact ⟨trivial,inner entry held,trivial⟩
    · rw [replacedMembers_eq]
      exact membersEach_iff.mpr (List.forall_mem_map.mpr inner)

theorem tagged_plain (kind : String) (payload : Json) :
    (tagged kind payload).map Scalar.plain = tagged kind (payload.map Scalar.plain) := rfl

theorem replaced_plain (message : Message) : (replaced message).map Scalar.plain = replaced (message.map Leaf.plain) := by
  induction message using Data.grown with
  | leaf value =>
    cases value with
    | number value => cases value <;> rfl
    | date time => cases time <;> rfl
    | _ => rfl
  | array items ih =>
    rw [replaced,replacedItems_eq,Data.map,mapItems_eq,Data.map,mapItems_eq,replaced,replacedItems_eq,List.map_map,List.map_map]
    exact congrArg Data.array (List.map_congr_left ih)
  | object members ih =>
    have keys : Table.keys (renewed (Data.map Leaf.plain) members) = Table.keys members := renewed_keys members
    rw [Data.map,mapMembers_eq,replaced,replaced,keys]
    split
    · rw [tagged_plain,replacedEntries_eq,replacedEntries_eq,Data.map,mapItems_eq,renewed,List.map_map,List.map_map]
      refine congrArg (fun items => tagged "object" (.array items)) (List.map_congr_left fun entry held => ?_)
      simp only [Function.comp_apply,entryJson,Data.map,mapItems,Scalar.plain,ih entry held]
    · rw [Data.map,mapMembers_eq,replacedMembers_eq,replacedMembers_eq,renewed,renewed,renewed,renewed,List.map_map,List.map_map]
      refine congrArg Data.object (List.map_congr_left fun entry held => ?_)
      rw [Function.comp_apply,Function.comp_apply,ih entry held]

theorem parse_marked (rest : Text) : parse (TextCoding.mark::rest) = none := by
  have solid : skip (TextCoding.mark::rest) = TextCoding.mark::rest := skip_solid (by decide) rest
  have nothing : readNumber (TextCoding.mark::rest) = none := by simp [readNumber,readWhole,digits,TextCoding.mark]
  have read : readValue ((TextCoding.mark::rest).length + 1) (TextCoding.mark::rest) = none := by
    rw [readValue,solid]
    exact congrArg (fun read => read.bind fun number => some (Data.leaf (Scalar.number number.1),number.2)) nothing
  rw [parse,read]
  rfl

-- What is decoded is what was encoded, but for the sign of a zero.
theorem decode_encode (message : Message) (plain : Plain message) : decode (encode message) = some (message.map Leaf.plain) := by
  have read := parse_stringify 0 (replaced message) (replaced_owned message plain.owned) (replaced_finite message plain.finite)
    (show Blank [] from fun _ held => absurd held List.not_mem_nil)
  rw [List.append_nil] at read
  rw [decode,encode,read,Option.bind_some,replaced_plain,revived_replaced _ (owned_map Leaf.plain message plain.owned)]

theorem plain_unsigned (value : Leaf) : value.plain = value ↔ value.Unsigned := by
  cases value with
  | number number =>
    cases number with
    | infinite negative => exact ⟨fun _ => trivial,fun _ => rfl⟩
    | finite double =>
      obtain ⟨negative,size,_,_,_⟩ := double
      simp only [Leaf.plain,Leaf.Unsigned,Leaf.number.injEq,Number.finite.injEq,Double.unsigned]
      split
      · next zero => simp [zero,eq_comm]
      · next large => simp [large]
  | _ => exact ⟨fun _ => trivial,fun _ => rfl⟩

end Zveltio.TaggedValues
