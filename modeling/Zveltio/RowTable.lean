import Mathlib.Data.List.Sort
import Mathlib.Order.Lattice
namespace Zveltio.RowTable

structure Row (ι : Type u) (α : Type v) where
  id : ι
  columns : α
  deriving DecidableEq

-- A table keyed by id, in no order of its own.
section
variable {ι : Type u} {α : Type v} [DecidableEq ι] {table : List (Row ι α)} {row : Row ι α} {id : ι}

def Keyed (table : List (Row ι α)) : Prop := (table.map Row.id).Nodup

def find (table : List (Row ι α)) (id : ι) : Option α := (table.find? fun row => row.id = id).map Row.columns

def erase (table : List (Row ι α)) (id : ι) : List (Row ι α) := table.filter fun row => row.id ≠ id

def put (table : List (Row ι α)) (row : Row ι α) : List (Row ι α) := row::erase table row.id

@[simp] theorem find_nil : find ([] : List (Row ι α)) id = none := rfl

theorem find_cons : find (row::table) id = if row.id = id then some row.columns else find table id := by
  unfold find
  by_cases same : row.id = id <;> simp [same]

theorem find_none : find table id = none ↔ ∀ row ∈ table, row.id ≠ id := by
  simp [find]

theorem find_erase : find (erase table gone) id = if gone = id then none else find table id := by
  split
  · next same =>
    rw [find_none]
    intro row member
    have kept := (List.mem_filter.mp member).2
    rw [← same]
    exact of_decide_eq_true kept
  · next apart =>
    unfold find erase
    rw [List.find?_filter]
    congr 2
    funext row
    by_cases named : row.id = id
    · simp [named,Ne.symm apart]
    · simp [named]

theorem find_put : find (put table row) id = if row.id = id then some row.columns else find table id := by
  rw [put,find_cons]
  split
  · rfl
  · next apart => rw [find_erase,if_neg apart]

theorem find_append (first second : List (Row ι α)) : find (first ++ second) id = (find first id).or (find second id) := by
  unfold find
  rw [List.find?_append]
  cases first.find? fun row => row.id = id <;> rfl

omit [DecidableEq ι] in
theorem keyed_sublist (keyed : Keyed table) (sub : smaller.Sublist table) : Keyed smaller := keyed.sublist (sub.map _)

theorem keyed_erase (keyed : Keyed table) : Keyed (erase table id) := keyed_sublist keyed List.filter_sublist

theorem keyed_put (keyed : Keyed table) : Keyed (put table row) := by
  refine List.nodup_cons.mpr ⟨fun wrong => ?_,keyed_erase keyed⟩
  obtain ⟨other,member,same⟩ := List.mem_map.mp wrong
  exact of_decide_eq_true (List.mem_filter.mp member).2 same

theorem mem_find (keyed : Keyed table) : row ∈ table ↔ find table row.id = some row.columns := by
  induction table with
  | nil => simp
  | cons head rest ih =>
    obtain ⟨fresh,later⟩ := List.nodup_cons.mp keyed
    rw [find_cons,List.mem_cons]
    split
    · next same =>
      have absent : row ∉ rest := fun wrong => fresh (same ▸ List.mem_map_of_mem wrong)
      constructor
      · rintro (rfl | wrong)
        · rfl
        · exact absurd wrong absent
      · intro equal
        exact .inl (by cases row; cases head; cases Option.some.inj equal; cases same; rfl)
    · next apart =>
      rw [← ih later]
      exact ⟨fun either => either.resolve_left fun same => apart (same ▸ rfl),.inr⟩

theorem find_mem (found : find table id = some columns) : (⟨id,columns⟩ : Row ι α) ∈ table := by
  unfold find at found
  obtain ⟨row,there,equal⟩ := Option.map_eq_some_iff.mp found
  have named : row.id = id := by simpa using List.find?_some there
  rw [← named,← equal]
  exact List.mem_of_find?_eq_some there

omit [DecidableEq ι] in
theorem keyed_nodup (keyed : Keyed table) : table.Nodup := keyed.of_map

theorem perm_covered (first : Keyed small) (second : Keyed table)
    (covered : ∀ id columns, find small id = some columns → find table id = some columns) (counted : small.length = table.length) :
    small.Perm table := by
  have inside : small ⊆ table := fun row member => (mem_find second).mpr (covered _ _ ((mem_find first).mp member))
  exact (List.subperm_of_subset (keyed_nodup first) inside).perm_of_length_le counted.ge

theorem keyed_append {first second : List (Row ι α)} (left : Keyed first) (right : Keyed second)
    (apart : ∀ row ∈ second, find first row.id = none) : Keyed (first ++ second) := by
  unfold Keyed
  rw [List.map_append]
  refine List.nodup_append.mpr ⟨left,right,fun one there two member same => ?_⟩
  obtain ⟨old,inside,rfl⟩ := List.mem_map.mp there
  obtain ⟨new,listed,rfl⟩ := List.mem_map.mp member
  exact find_none.mp (apart new listed) old inside same

end

-- Reading in the order of a key, a page at a time.
section
variable {α : Type u} {ι : Type v} [LinearOrder ι] (key : α → ι) {items : List α} {item : α}

def inOrder (items : List α) : List α := items.insertionSort fun one two => key one ≤ key two

instance keyTotal : Std.Total fun one two : α => key one ≤ key two := ⟨fun _ _ => le_total _ _⟩

instance keyTrans : IsTrans α fun one two => key one ≤ key two := ⟨fun _ _ _ => le_trans⟩

theorem inOrder_perm : (inOrder key items).Perm items := List.perm_insertionSort _ _

theorem mem_inOrder : item ∈ inOrder key items ↔ item ∈ items := (inOrder_perm key).mem_iff

theorem inOrder_pairwise : (inOrder key items).Pairwise fun one two => key one ≤ key two :=
  List.pairwise_insertionSort (fun one two => key one ≤ key two) items

theorem inOrder_strict (distinct : (items.map key).Nodup) : (inOrder key items).Pairwise fun one two => key one < key two := by
  have apart : (inOrder key items).Pairwise fun one two => key one ≠ key two :=
    List.pairwise_map.mp (((inOrder_perm key).map key).nodup_iff.mpr distinct)
  exact (inOrder_pairwise key).imp₂ (fun _ _ least other => lt_of_le_of_ne least other) apart

def lastOf (items : List α) : Option ι := (items.insertionSort fun one two => key two ≤ key one).head?.map key

theorem lastOf_some (last : lastOf key items = some top) :
    (∃ item ∈ items, key item = top) ∧ ∀ item ∈ items, key item ≤ top := by
  unfold lastOf at last
  have perm := List.perm_insertionSort (fun one two : α => key two ≤ key one) items
  have : Std.Total fun one two : α => key two ≤ key one := ⟨fun _ _ => le_total _ _⟩
  have : IsTrans α fun one two => key two ≤ key one := ⟨fun _ _ _ one two => le_trans two one⟩
  have sorted := List.pairwise_insertionSort (fun one two : α => key two ≤ key one) items
  cases order : items.insertionSort fun one two : α => key two ≤ key one with
  | nil => rw [order] at last; cases last
  | cons head rest =>
    rw [order] at last perm sorted
    cases Option.some.inj last
    refine ⟨⟨head,perm.mem_iff.mp (List.mem_cons_self ..),rfl⟩,fun item member => ?_⟩
    rcases List.mem_cons.mp (perm.mem_iff.mpr member) with same | later
    · rw [same]
    · exact (List.pairwise_cons.mp sorted).1 item later

theorem lastOf_none (last : lastOf key items = none) : items = [] := by
  unfold lastOf at last
  have perm := List.perm_insertionSort (fun one two : α => key two ≤ key one) items
  cases order : items.insertionSort fun one two : α => key two ≤ key one with
  | nil => rw [order] at perm; exact perm.symm.eq_nil
  | cons head rest => rw [order] at last; cases last

def page (size : Nat) (items : List α) : List α := (inOrder key items).take size

theorem mem_page (member : item ∈ page key size items) : item ∈ items := (mem_inOrder key).mp (List.mem_of_mem_take member)

theorem page_left (listed : item ∈ items) (absent : item ∉ page key size items) :
    (page key size items).length = size ∧ ∀ taken ∈ page key size items, key taken ≤ key item := by
  have sorted : (inOrder key items).Pairwise fun one two => key one ≤ key two := inOrder_pairwise key
  rw [← List.take_append_drop size (inOrder key items)] at sorted
  have behind : item ∈ (inOrder key items).drop size := by
    have member := (mem_inOrder key).mpr listed
    rw [← List.take_append_drop size (inOrder key items)] at member
    exact (List.mem_append.mp member).resolve_left absent
  constructor
  · have longer : size < (inOrder key items).length := by
      have some_left := List.length_pos_of_mem behind
      rw [List.length_drop] at some_left
      omega
    exact (List.length_take_of_le (le_of_lt longer))
  · exact fun taken there => (List.pairwise_append.mp sorted).2.2 taken there item behind

end

end Zveltio.RowTable
