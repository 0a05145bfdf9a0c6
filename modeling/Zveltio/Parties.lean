import Mathlib.Algebra.GroupWithZero.Nat
import Mathlib.Data.List.Count
import Mathlib.Data.List.Nodup
namespace Zveltio.Parties

-- Parties kept in a list, of which a step changes the one at a place.
section
variable {α : Type u} {items : List α} {place : Nat} {change : α → α}

theorem mem_modify (member : item ∈ items.modify place change) : ∃ old ∈ items, item = old ∨ items[place]? = some old ∧ item = change old := by
  obtain ⟨here,found⟩ := List.getElem?_of_mem member
  rw [List.getElem?_modify] at found
  obtain ⟨old,there,same⟩ := Option.map_eq_some_iff.mp found
  by_cases equal : place = here
  · subst equal
    simp only [if_true] at same
    exact ⟨old,List.mem_of_getElem? there,.inr ⟨there,same.symm⟩⟩
  · simp only [if_neg equal] at same
    exact ⟨old,List.mem_of_getElem? there,.inl same.symm⟩

theorem all_modify {held : α → Prop} (kept : ∀ item, held item → held (change item)) (all : ∀ item ∈ items, held item) :
    ∀ item ∈ items.modify place change, held item := by
  intro item member
  obtain ⟨old,before,same | ⟨_,same⟩⟩ := mem_modify member
  · rw [same]
    exact all old before
  · rw [same]
    exact kept old (all old before)

theorem modify_mem (place : Nat) (change : α → α) (member : old ∈ items) :
    old ∈ items.modify place change ∨ items[place]? = some old ∧ change old ∈ items.modify place change := by
  obtain ⟨here,found⟩ := List.getElem?_of_mem member
  have there : (items.modify place change)[here]? = some (if place = here then change old else old) := by
    rw [List.getElem?_modify,found]
    split <;> rfl
  split at there
  · next same => exact .inr ⟨same ▸ found,List.mem_of_getElem? there⟩
  · exact .inl (List.mem_of_getElem? there)

theorem countP_modify (test : α → Bool) (change : α → α) (found : items[place]? = some item) :
    (items.modify place change).countP test + (if test item then 1 else 0) = items.countP test + if test (change item) then 1 else 0 := by
  induction items generalizing place with
  | nil => cases found
  | cons head rest ih =>
    cases place with
    | zero =>
      cases Option.some.inj found
      rw [List.modify_zero_cons,List.countP_cons,List.countP_cons]
      omega
    | succ place =>
      have later := ih (by simpa using found)
      rw [List.modify_succ_cons,List.countP_cons,List.countP_cons]
      omega

theorem countP_marks {β : Type v} {test : α → Bool} {marks : List β} (mark : Nat → β) (own : Function.Injective mark)
    (left : ∀ place item, items[place]? = some item → test item = true → mark place ∈ marks) : items.countP test ≤ marks.length := by
  have places : items.countP test = ((items.zipIdx.filter fun entry => test entry.1).map Prod.snd).length := by
    rw [List.length_map,← List.countP_eq_length_filter]
    conv_lhs => rw [← List.zipIdx_map_fst 0 items,List.countP_map]
    rfl
  have distinct : ((items.zipIdx.filter fun entry => test entry.1).map Prod.snd).Nodup := by
    have whole : (items.zipIdx.map Prod.snd).Nodup := by
      rw [List.zipIdx_map_snd]
      exact List.nodup_range'
    exact whole.sublist ((List.filter_sublist ..).map _)
  rw [places,← List.length_map (f := mark)]
  refine List.Nodup.length_le_of_subset (distinct.map own) fun one member => ?_
  obtain ⟨place,found,rfl⟩ := List.mem_map.mp member
  obtain ⟨⟨item,here⟩,held,rfl⟩ := List.mem_map.mp found
  obtain ⟨inside,passed⟩ := List.mem_filter.mp held
  exact left here item (List.mem_zipIdx_iff_getElem?.mp inside) passed

end

-- A list of the places whose items pass a test, each once, kept while items change.
structure Lists {α : Type u} (test : α → Bool) (items : List α) (places : List Nat) : Prop where
  once : places.Nodup
  each : ∀ place, place ∈ places ↔ (items[place]?).any test = true

section
variable {α : Type u} {test : α → Bool} {items : List α} {places : List Nat} {place : Nat} {item : α}

theorem get_changed (found : items[place]? = some old) (item : α) (other : Nat) :
    (items.modify place fun _ => item)[other]? = if place = other then some item else items[other]? := by
  rw [List.getElem?_modify]
  by_cases same : place = other
  · subst same
    rw [found]
    simp
  · simp [same]

theorem get_added (items : List α) (item : α) (other : Nat) :
    (items ++ [item])[other]? = if other = items.length then some item else items[other]? := by
  rw [List.getElem?_append]
  by_cases inside : other < items.length
  · rw [if_pos inside,if_neg (Nat.ne_of_lt inside)]
  · rw [if_neg inside]
    by_cases last : other = items.length
    · rw [if_pos last,last,Nat.sub_self]
      rfl
    · have beyond : [item].length ≤ other - items.length := by
        rw [List.length_singleton]
        omega
      rw [if_neg last,List.getElem?_eq_none beyond,List.getElem?_eq_none (Nat.not_lt.mp inside)]

theorem get_last (items : List α) : items[items.length]? = none := List.getElem?_eq_none (Nat.le_refl _)

theorem lists_nil (test : α → Bool) : Lists test [] [] :=
  ⟨List.nodup_nil,fun _ => ⟨fun wrong => absurd wrong List.not_mem_nil,fun wrong => absurd wrong Bool.false_ne_true⟩⟩

theorem lists_added (lists : Lists test items places) (fails : test item = false) : Lists test (items ++ [item]) places := by
  refine ⟨lists.once,fun other => ?_⟩
  rw [lists.each,get_added]
  split
  · next last => rw [last,get_last,Option.any_none,Option.any_some,fails]
  · rfl

theorem lists_appended (lists : Lists test items places) (passes : test item = true) : Lists test (items ++ [item]) (places ++ [items.length]) := by
  have absent : items.length ∉ places := by
    rw [lists.each,get_last]
    exact Bool.false_ne_true
  refine ⟨?_,fun other => ?_⟩
  · rw [List.nodup_append_comm]
    exact List.nodup_cons.mpr ⟨absent,lists.once⟩
  · rw [List.mem_append,List.mem_singleton,lists.each,get_added]
    split
    · next last => exact ⟨fun _ => passes,fun _ => .inr last⟩
    · next other => exact or_iff_left other

theorem lists_same (lists : Lists test items places) (found : items[place]? = some old) (same : test item = test old) :
    Lists test (items.modify place fun _ => item) places := by
  refine ⟨lists.once,fun other => ?_⟩
  rw [lists.each,get_changed found]
  split
  · next here => rw [← here,found,Option.any_some,Option.any_some,same]
  · rfl

theorem lists_joins (lists : Lists test items places) (found : items[place]? = some old) (failed : test old = false)
    (passes : test item = true) : Lists test (items.modify place fun _ => item) (places ++ [place]) := by
  have absent : place ∉ places := by
    rw [lists.each,found,Option.any_some,failed]
    exact Bool.false_ne_true
  refine ⟨?_,fun other => ?_⟩
  · rw [List.nodup_append_comm]
    exact List.nodup_cons.mpr ⟨absent,lists.once⟩
  · rw [List.mem_append,List.mem_singleton,lists.each,get_changed found]
    split
    · next here => exact ⟨fun _ => passes,fun _ => .inr here.symm⟩
    · next other => exact or_iff_left fun same => other same.symm

end

end Zveltio.Parties
