import Mathlib.Data.List.Nodup
import Mathlib.Tactic.Tauto
namespace Zveltio.Tables

-- A Map of the source: one entry for each key, in the order of their first insertion.
abbrev Table (κ : Type u) (ν : Type v) := List (κ × ν)

section
variable {κ : Type u} {ν : Type v} [DecidableEq κ]

def Table.get (table : Table κ ν) (key : κ) : Option ν := (table.find? fun entry => entry.1 = key).map Prod.snd

def Table.keys (table : Table κ ν) : List κ := table.map Prod.fst

def Table.set (table : Table κ ν) (key : κ) (value : ν) : Table κ ν :=
  if key ∈ table.keys then table.map fun entry => if entry.1 = key then (key,value) else entry
  else table ++ [(key,value)]

def Table.delete (table : Table κ ν) (key : κ) : Table κ ν := table.filter fun entry => entry.1 ≠ key

-- new Map(entries): a key listed again keeps its place and takes the later value.
def Table.ofEntries (entries : List (κ × ν)) : Table κ ν := entries.foldl (fun table entry => table.set entry.1 entry.2) []

@[simp] theorem get_nil : Table.get ([] : Table κ ν) key = none := rfl

theorem get_cons (entry : κ × ν) (rest : Table κ ν) (key : κ) :
    Table.get (entry::rest) key = if entry.1 = key then some entry.2 else Table.get rest key := by
  unfold Table.get
  rw [List.find?_cons]
  by_cases here : entry.1 = key <;> simp [here]

theorem get_append (first second : Table κ ν) (key : κ) :
    Table.get (first ++ second) key = (Table.get first key).or (Table.get second key) := by
  induction first with
  | nil => simp
  | cons entry rest ih =>
    rw [List.cons_append,get_cons,get_cons,ih]
    split <;> simp

theorem get_replaced (table : Table κ ν) (key other : κ) (value : ν) :
    Table.get (table.map fun entry => if entry.1 = key then (key,value) else entry) other =
      if other = key then (table.get other).map fun _ => value else table.get other := by
  induction table with
  | nil => simp
  | cons entry rest ih =>
    rw [List.map_cons,get_cons,get_cons,ih]
    by_cases same : other = key
    · subst same
      by_cases here : entry.1 = other <;> simp [here]
    · by_cases here : entry.1 = key
      · simp [here,same,Ne.symm same]
      · simp [here,same]

omit [DecidableEq κ] in
theorem mem_keys {table : Table κ ν} : key ∈ table.keys ↔ ∃ value, (key,value) ∈ table := by
  simp [Table.keys]

theorem get_eq_none {table : Table κ ν} : table.get key = none ↔ key ∉ table.keys := by
  rw [mem_keys]
  simp only [Table.get,Option.map_eq_none_iff,List.find?_eq_none,decide_eq_true_eq]
  constructor
  · rintro absent ⟨value,held⟩
    exact absent _ held rfl
  · intro absent entry held same
    exact absent ⟨entry.2,same ▸ held⟩

theorem get_isSome {table : Table κ ν} : (∃ value, table.get key = some value) ↔ key ∈ table.keys := by
  rw [← Option.ne_none_iff_exists',ne_eq,get_eq_none,not_not]

theorem get_mem {table : Table κ ν} (found : table.get key = some value) : (key,value) ∈ table := by
  obtain ⟨entry,here,rfl⟩ := Option.map_eq_some_iff.mp found
  have named : entry.1 = key := by simpa using List.find?_some here
  exact named ▸ List.mem_of_find?_eq_some here

theorem get_of_mem {table : Table κ ν} (distinct : table.keys.Nodup) (held : (key,value) ∈ table) : table.get key = some value := by
  obtain ⟨other,found⟩ := get_isSome.mpr (mem_keys.mpr ⟨value,held⟩)
  have same := List.inj_on_of_nodup_map distinct (get_mem found) held rfl
  rw [found,(Prod.mk.injEq ..).mp same |>.2]

@[simp] theorem get_set (table : Table κ ν) (key other : κ) (value : ν) :
    (table.set key value).get other = if other = key then some value else table.get other := by
  unfold Table.set
  split
  · next held =>
    rw [get_replaced]
    by_cases same : other = key
    · subst same
      obtain ⟨old,here⟩ := get_isSome.mpr held
      simp [here]
    · rw [if_neg same,if_neg same]
  · next absent =>
    rw [get_append,get_cons]
    by_cases same : other = key
    · subst same
      simp [get_eq_none.mpr absent]
    · simp [same,Ne.symm same]

@[simp] theorem get_delete (table : Table κ ν) (key other : κ) :
    (table.delete key).get other = if other = key then none else table.get other := by
  unfold Table.delete
  induction table with
  | nil => simp
  | cons entry rest ih =>
    rw [List.filter_cons,get_cons]
    by_cases same : other = key
    · subst same
      by_cases here : entry.1 = other
      · simpa [here] using ih
      · simpa [here,get_cons] using ih
    · by_cases here : entry.1 = key
      · simpa [here,same,Ne.symm same] using ih
      · simp only [ne_eq,here,not_false_eq_true,decide_true,if_true,get_cons,ih,if_neg same]

theorem get_map (table : Table κ ν) (change : ν → ν) (key : κ) :
    Table.get (table.map fun entry => (entry.1,change entry.2)) key = (table.get key).map change := by
  induction table with
  | nil => rfl
  | cons entry rest ih =>
    rw [List.map_cons,get_cons,get_cons,ih]
    split <;> rfl

@[simp] theorem mem_keys_set (table : Table κ ν) (key other : κ) (value : ν) :
    other ∈ (table.set key value).keys ↔ other = key ∨ other ∈ table.keys := by
  rw [← get_isSome,← get_isSome,get_set]
  by_cases same : other = key <;> simp [same]

@[simp] theorem mem_keys_delete (table : Table κ ν) (key other : κ) :
    other ∈ (table.delete key).keys ↔ other ≠ key ∧ other ∈ table.keys := by
  rw [← get_isSome,← get_isSome,get_delete]
  by_cases same : other = key <;> simp [same]

theorem ofEntries_append (entries : List (κ × ν)) (table : Table κ ν) (distinct : (table ++ entries).keys.Nodup) :
    entries.foldl (fun table entry => table.set entry.1 entry.2) table = table ++ entries := by
  induction entries generalizing table with
  | nil => simp
  | cons entry rest ih =>
    have fresh : entry.1 ∉ Table.keys table := by
      intro held
      have apart := List.nodup_append.mp (by simpa [Table.keys] using distinct)
      exact apart.2.2 entry.1 held entry.1 (by simp) rfl
    rw [List.foldl_cons,Table.set,if_neg fresh,ih _ (by simpa using distinct)]
    simp

theorem ofEntries_distinct {entries : List (κ × ν)} (distinct : (Table.keys entries).Nodup) : Table.ofEntries entries = entries :=
  ofEntries_append entries [] distinct

theorem nodup_set {table : Table κ ν} (distinct : table.keys.Nodup) : (table.set key value).keys.Nodup := by
  unfold Table.set
  split
  · next held =>
    have same : Table.keys (table.map fun entry => if entry.1 = key then (key,value) else entry) = table.keys := by
      rw [Table.keys,List.map_map]
      refine List.map_congr_left fun entry _ => ?_
      by_cases here : entry.1 = key <;> simp [here]
    rw [same]
    exact distinct
  · next absent =>
    rw [Table.keys,List.map_append]
    refine List.nodup_append.mpr ⟨distinct,List.nodup_singleton _,fun one inside two last => ?_⟩
    rw [List.map_singleton,List.mem_singleton] at last
    intro same
    rw [same,last] at inside
    exact absent inside

theorem nodup_ofEntries (entries : List (κ × ν)) : (Table.ofEntries entries).keys.Nodup := by
  have grown : ∀ table : Table κ ν, table.keys.Nodup → (Table.keys (entries.foldl (fun table entry => Table.set table entry.1 entry.2) table)).Nodup := by
    induction entries with
    | nil => exact fun _ distinct => distinct
    | cons entry rest ih =>
      intro table distinct
      exact ih _ (nodup_set distinct)
  exact grown [] List.nodup_nil

theorem get_filter {table : Table κ ν} (distinct : table.keys.Nodup) (test : ν → Bool) (key : κ) :
    Table.get (table.filter fun entry => test entry.2) key = (table.get key).filter test := by
  induction table with
  | nil => rfl
  | cons entry rest ih =>
    obtain ⟨fresh,later⟩ := List.nodup_cons.mp distinct
    rw [List.filter_cons,get_cons]
    by_cases here : entry.1 = key
    · have gone : Table.get rest key = none := get_eq_none.mpr (here ▸ fresh)
      rw [if_pos here,Option.filter_some]
      split
      · rw [get_cons,if_pos here]
      · rw [ih later,gone]
        rfl
    · rw [if_neg here,← ih later]
      split
      · rw [get_cons,if_neg here]
      · rfl

theorem mem_set {table : Table κ ν} (member : entry ∈ table.set key value) : entry ∈ table ∨ entry = (key,value) := by
  unfold Table.set at member
  split at member
  · obtain ⟨old,inside,rfl⟩ := List.mem_map.mp member
    split
    · exact .inr rfl
    · exact .inl inside
  · rcases List.mem_append.mp member with inside | last
    · exact .inl inside
    · exact .inr (List.mem_singleton.mp last)

theorem ofEntries_mem {entries : List (κ × ν)} (member : entry ∈ Table.ofEntries entries) : entry ∈ entries := by
  have grows : ∀ (entries : List (κ × ν)) (table : Table κ ν),
      entry ∈ entries.foldl (fun table entry => table.set entry.1 entry.2) table → entry ∈ table ∨ entry ∈ entries := by
    intro entries
    induction entries with
    | nil => exact fun table inside => .inl inside
    | cons first rest ih =>
      intro table inside
      rcases ih _ inside with before | later
      · rcases mem_set before with old | rfl
        · exact .inl old
        · exact .inr (List.mem_cons_self ..)
      · exact .inr (List.mem_cons_of_mem _ later)
  exact (grows entries [] member).resolve_left (List.not_mem_nil)

@[simp] theorem mem_keys_ofEntries (entries : List (κ × ν)) : key ∈ (Table.ofEntries entries).keys ↔ key ∈ Table.keys entries := by
  have grows : ∀ (entries : List (κ × ν)) (table : Table κ ν),
      key ∈ (entries.foldl (fun table entry => table.set entry.1 entry.2) table).keys ↔ key ∈ table.keys ∨ key ∈ Table.keys entries := by
    intro entries
    induction entries with
    | nil => simp [Table.keys]
    | cons first rest ih =>
      intro table
      rw [List.foldl_cons,ih,mem_keys_set]
      simp only [Table.keys,List.map_cons,List.mem_cons]
      tauto
  rw [Table.ofEntries,grows]
  simp [Table.keys]

end

end Zveltio.Tables
