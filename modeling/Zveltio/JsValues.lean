import Zveltio.Tables
import Mathlib.Data.List.Sort
namespace Zveltio.JsValues
open Tables

-- A string of the language: code units, surrogates standing alone included.
abbrev Units := List UInt16

-- Named, so that membership of a key is decided in one way everywhere.
instance lawfulUnits : LawfulBEq Units := inferInstance

def utf16 (char : Char) : Units :=
  if char.toNat < 65536 then [UInt16.ofNat char.toNat]
  else [UInt16.ofNat (55296 + (char.toNat - 65536) / 1024),UInt16.ofNat (56320 + (char.toNat - 65536) % 1024)]

def units (text : List Char) : Units := text.flatMap utf16

def leading (unit : UInt16) : Bool := 55296 ≤ unit.toNat && unit.toNat < 56320

def trailing (unit : UInt16) : Bool := 56320 ≤ unit.toNat && unit.toNat < 57344

def paired (high low : UInt16) : Char := Char.ofNat (65536 + (high.toNat - 55296) * 1024 + (low.toNat - 56320))

-- An array index: the decimal text of a number below 2^32 - 1.
def arrayIndex (key : Units) : Option Nat :=
  let number := key.foldl (fun sum unit => sum * 10 + (unit.toNat - 48)) 0
  if key = units (Nat.toDigits 10 number) ∧ number < 4294967295 then some number else none

section
variable {α : Type u}

def indexed (entry : Units × α) : Bool := (arrayIndex entry.1).isSome

def indexBefore (one other : Units × α) : Prop := (arrayIndex one.1).getD 0 ≤ (arrayIndex other.1).getD 0

instance (one other : Units × α) : Decidable (indexBefore one other) := inferInstanceAs (Decidable (_ ≤ _))

instance : Std.Total (@indexBefore α) := ⟨fun _ _ => Nat.le_total _ _⟩

instance : IsTrans (Units × α) indexBefore := ⟨fun _ _ _ first second => Nat.le_trans first second⟩

-- Own keys: array indices ascending, then the others as they were defined.
def ownOrder (members : List (Units × α)) : List (Units × α) :=
  (members.filter indexed).insertionSort indexBefore ++ members.filter fun entry => !indexed entry

def create (members : List (Units × α)) : List (Units × α) := ownOrder (Table.ofEntries members)

def renewed {β : Type v} (change : α → β) (members : List (Units × α)) : List (Units × β) :=
  members.map fun entry => (entry.1,change entry.2)

variable {β : Type v} {change : α → β}

@[simp] theorem renewed_nil : renewed change [] = [] := rfl

@[simp] theorem renewed_cons (entry : Units × α) (members : List (Units × α)) :
    renewed change (entry::members) = (entry.1,change entry.2)::renewed change members := rfl

theorem renewed_keys (members : List (Units × α)) : Table.keys (renewed change members) = Table.keys members := by
  rw [renewed,Table.keys,List.map_map]
  rfl

theorem renewed_get (members : List (Units × α)) (key : Units) :
    Table.get (renewed change members) key = (Table.get members key).map change := by
  induction members with
  | nil => rfl
  | cons entry rest ih =>
    rw [renewed_cons,get_cons,get_cons,ih]
    split <;> rfl

theorem renewed_set (table : List (Units × α)) (key : Units) (value : α) :
    Table.set (renewed change table) key (change value) = renewed change (Table.set table key value) := by
  unfold Table.set
  rw [renewed_keys]
  split
  · rw [renewed,renewed,List.map_map,List.map_map]
    refine List.map_congr_left fun entry _ => ?_
    by_cases same : entry.1 = key <;> simp [same]
  · rw [renewed,renewed,List.map_append]
    rfl

theorem renewed_entries (members : List (Units × α)) :
    Table.ofEntries (renewed change members) = renewed change (Table.ofEntries members) := by
  have grown : ∀ table : List (Units × α),
      (renewed change members).foldl (fun table entry => Table.set table entry.1 entry.2) (renewed change table) =
        renewed change (members.foldl (fun table entry => Table.set table entry.1 entry.2) table) := by
    induction members with
    | nil => exact fun _ => rfl
    | cons entry rest ih =>
      intro table
      rw [renewed_cons,List.foldl_cons,List.foldl_cons,renewed_set,ih]
  exact grown []

theorem renewed_ownOrder (members : List (Units × α)) : ownOrder (renewed change members) = renewed change (ownOrder members) := by
  have kept : ∀ keep : Units → Bool, (renewed change members).filter (fun entry => keep entry.1) =
      renewed change (members.filter fun entry => keep entry.1) := by
    intro keep
    rw [renewed,renewed,List.filter_map]
    rfl
  have front := kept fun key => (arrayIndex key).isSome
  have back := kept fun key => !(arrayIndex key).isSome
  have sorted : (renewed change (members.filter indexed)).insertionSort indexBefore =
      renewed change ((members.filter indexed).insertionSort indexBefore) :=
    (List.map_insertionSort indexBefore indexBefore (fun entry : Units × α => (entry.1,change entry.2)) _ fun _ _ _ _ => Iff.rfl).symm
  unfold ownOrder
  rw [show (renewed change members).filter indexed = renewed change (members.filter indexed) from front,sorted,
    show ((renewed change members).filter fun entry => !indexed entry) =
      renewed change (members.filter fun entry => !indexed entry) from back]
  exact (List.map_append ..).symm

theorem renewed_create (members : List (Units × α)) : create (renewed change members) = renewed change (create members) := by
  rw [create,renewed_entries,renewed_ownOrder]
  rfl

theorem keys_entries (members : List (Units × α)) : (Table.keys (Table.ofEntries members)).Nodup := nodup_ofEntries members

theorem ownOrder_perm (members : List (Units × α)) : (ownOrder members).Perm members :=
  ((List.perm_insertionSort _ _).append_right _).trans (List.filter_append_perm _ _)

theorem keys_perm {members others : List (Units × α)} (same : members.Perm others) (distinct : (Table.keys others).Nodup) :
    (Table.keys members).Nodup := (same.map Prod.fst).nodup_iff.mpr distinct

theorem keys_create (members : List (Units × α)) : (Table.keys (create members)).Nodup :=
  keys_perm (ownOrder_perm _) (keys_entries members)

theorem create_distinct {members : List (Units × α)} (distinct : (Table.keys members).Nodup) : create members = ownOrder members := by
  rw [create,ofEntries_distinct distinct]

theorem ownOrder_twice (members : List (Units × α)) : ownOrder (ownOrder members) = ownOrder members := by
  have sorted := List.pairwise_insertionSort (r := indexBefore) (members.filter indexed)
  have front : ∀ entry ∈ (members.filter indexed).insertionSort indexBefore, indexed entry = true :=
    fun entry held => (List.mem_filter.mp ((List.mem_insertionSort _).mp held)).2
  have back : ∀ entry ∈ members.filter fun entry => !indexed entry, indexed entry = false := by
    intro entry held
    simpa using (List.mem_filter.mp held).2
  have indices : (ownOrder members).filter indexed = (members.filter indexed).insertionSort indexBefore := by
    have none_behind : (members.filter fun entry => !indexed entry).filter indexed = [] :=
      List.filter_eq_nil_iff.mpr fun entry held => by simp [back entry held]
    rw [ownOrder,List.filter_append,List.filter_eq_self.mpr front,none_behind,List.append_nil]
  have others : ((ownOrder members).filter fun entry => !indexed entry) = members.filter fun entry => !indexed entry := by
    have none_before : (((members.filter indexed).insertionSort indexBefore).filter fun entry => !indexed entry) = [] :=
      List.filter_eq_nil_iff.mpr fun entry held => by simp [front entry held]
    rw [ownOrder,List.filter_append,none_before,List.nil_append]
    exact List.filter_eq_self.mpr fun entry held => by simp [back entry held]
  rw [ownOrder,indices,others,sorted.insertionSort_eq]
  rfl

theorem create_twice (members : List (Units × α)) : create (create members) = create members := by
  rw [create_distinct (keys_create members),create,ownOrder_twice]

end

-- Arrays and plain objects over any kind of leaf; the members of an object in their own order.
inductive Data (α : Type u) where
  | leaf (value : α)
  | array (items : List (Data α))
  | object (members : List (Units × Data α))

section
variable {α : Type u}

-- The keys of each object are distinct and stand in the order of its own keys.
mutual
def Data.Owned : Data α → Prop
  | .leaf _ => True
  | .array items => ItemsOwned items
  | .object members => create members = members ∧ MembersOwned members

def ItemsOwned : List (Data α) → Prop
  | [] => True
  | item::rest => item.Owned ∧ ItemsOwned rest

def MembersOwned : List (Units × Data α) → Prop
  | [] => True
  | (_,value)::rest => value.Owned ∧ MembersOwned rest
end

theorem itemsOwned_iff {items : List (Data α)} : ItemsOwned items ↔ ∀ item ∈ items, item.Owned := by
  induction items with
  | nil => simp [ItemsOwned]
  | cons item rest ih => simp [ItemsOwned,ih]

theorem membersOwned_iff {members : List (Units × Data α)} : MembersOwned members ↔ ∀ entry ∈ members, entry.2.Owned := by
  induction members with
  | nil => simp [MembersOwned]
  | cons entry rest ih => simp [MembersOwned,ih]

-- What holds of every leaf.
mutual
def Data.Each (holds : α → Prop) : Data α → Prop
  | .leaf value => holds value
  | .array items => ItemsEach holds items
  | .object members => MembersEach holds members

def ItemsEach (holds : α → Prop) : List (Data α) → Prop
  | [] => True
  | item::rest => item.Each holds ∧ ItemsEach holds rest

def MembersEach (holds : α → Prop) : List (Units × Data α) → Prop
  | [] => True
  | (_,value)::rest => value.Each holds ∧ MembersEach holds rest
end

theorem itemsEach_iff {items : List (Data α)} {holds : α → Prop} : ItemsEach holds items ↔ ∀ item ∈ items, item.Each holds := by
  induction items with
  | nil => simp [ItemsEach]
  | cons item rest ih => simp [ItemsEach,ih]

theorem membersEach_iff {members : List (Units × Data α)} {holds : α → Prop} :
    MembersEach holds members ↔ ∀ entry ∈ members, entry.2.Each holds := by
  induction members with
  | nil => simp [MembersEach]
  | cons entry rest ih => simp [MembersEach,ih]

variable {β : Type v}

mutual
def Data.map (change : α → β) : Data α → Data β
  | .leaf value => .leaf (change value)
  | .array items => .array (mapItems change items)
  | .object members => .object (mapMembers change members)

def mapItems (change : α → β) : List (Data α) → List (Data β)
  | [] => []
  | item::rest => item.map change::mapItems change rest

def mapMembers (change : α → β) : List (Units × Data α) → List (Units × Data β)
  | [] => []
  | (key,value)::rest => (key,value.map change)::mapMembers change rest
end

theorem mapItems_eq (change : α → β) (items : List (Data α)) : mapItems change items = items.map (Data.map change) := by
  induction items with
  | nil => rfl
  | cons item rest ih => rw [mapItems,ih,List.map_cons]

theorem mapMembers_eq (change : α → β) (members : List (Units × Data α)) :
    mapMembers change members = renewed (Data.map change) members := by
  induction members with
  | nil => rfl
  | cons entry rest ih => rw [mapMembers,ih,renewed_cons]

-- Induction from the leaves on.
theorem Data.grown {motive : Data α → Prop} (leaf : ∀ value, motive (.leaf value))
    (array : ∀ items, (∀ item ∈ items, motive item) → motive (.array items))
    (object : ∀ members, (∀ entry ∈ members, motive entry.2) → motive (.object members)) (data : Data α) : motive data :=
  Data.rec (motive_1 := motive) (motive_2 := fun items => ∀ item ∈ items, motive item)
    (motive_3 := fun members => ∀ entry ∈ members, motive entry.2) (motive_4 := fun entry => motive entry.2)
    leaf array object (fun _ held => absurd held List.not_mem_nil)
    (fun _ _ first rest item held => by
      rcases List.mem_cons.mp held with rfl | later
      · exact first
      · exact rest item later)
    (fun _ held => absurd held List.not_mem_nil)
    (fun _ _ first rest entry held => by
      rcases List.mem_cons.mp held with rfl | later
      · exact first
      · exact rest entry later)
    (fun _ _ value => value) data

theorem owned_map (change : α → β) (data : Data α) (owned : data.Owned) : (data.map change).Owned := by
  induction data using Data.grown with
  | leaf value => trivial
  | array items ih =>
    rw [Data.map,mapItems_eq]
    refine itemsOwned_iff.mpr fun item held => ?_
    obtain ⟨one,inside,rfl⟩ := List.mem_map.mp held
    exact ih one inside (itemsOwned_iff.mp owned one inside)
  | object members ih =>
    rw [Data.map,mapMembers_eq]
    refine ⟨by rw [renewed_create,owned.1],membersOwned_iff.mpr fun entry held => ?_⟩
    obtain ⟨one,inside,rfl⟩ := List.mem_map.mp held
    exact ih one inside (membersOwned_iff.mp owned.2 one inside)

theorem each_map {change : α → β} {holds : α → Prop} {after : β → Prop} (kept : ∀ value, holds value → after (change value))
    (data : Data α) (each : data.Each holds) : (data.map change).Each after := by
  induction data using Data.grown with
  | leaf value => exact kept value each
  | array items ih =>
    rw [Data.map,mapItems_eq]
    refine itemsEach_iff.mpr fun item held => ?_
    obtain ⟨one,inside,rfl⟩ := List.mem_map.mp held
    exact ih one inside (itemsEach_iff.mp each one inside)
  | object members ih =>
    rw [Data.map,mapMembers_eq]
    refine membersEach_iff.mpr fun entry held => ?_
    obtain ⟨one,inside,rfl⟩ := List.mem_map.mp held
    exact ih one inside (membersEach_iff.mp each one inside)

theorem map_same {change : α → α} {holds : α → Prop} (fixed : ∀ value, change value = value ↔ holds value) (data : Data α) :
    data.map change = data ↔ data.Each holds := by
  induction data using Data.grown with
  | leaf value => rw [Data.map,Data.leaf.injEq,fixed,Data.Each]
  | array items ih =>
    have each : items.map (Data.map change) = items ↔ ∀ item ∈ items, item.map change = item := by
      conv_lhs => rw [← List.map_id items,List.map_map,List.map_inj_left]
      rfl
    rw [Data.map,mapItems_eq,Data.array.injEq,each,Data.Each,itemsEach_iff]
    exact forall₂_congr ih
  | object members ih =>
    have each : renewed (Data.map change) members = members ↔ ∀ entry ∈ members, entry.2.map change = entry.2 := by
      unfold renewed
      conv_lhs => rw [← List.map_id members,List.map_map,List.map_inj_left]
      exact forall₂_congr fun entry _ => by simp [Prod.ext_iff]
    rw [Data.map,mapMembers_eq,Data.object.injEq,each,Data.Each,membersEach_iff]
    exact forall₂_congr ih

end

end Zveltio.JsValues
