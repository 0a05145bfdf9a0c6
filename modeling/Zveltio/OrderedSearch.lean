import Mathlib.Data.List.Sort
import Mathlib.Order.Bounds.Basic
namespace Zveltio.OrderedSearch

-- A search finds the least of a set, or nothing where the set is empty. A loop that returns its first find searches
-- the sets of its rounds, where an earlier round's are never after a later round's.
def Finds [LE β] (found : Option β) (set : Set β) : Prop :=
  (∀ least, found = some least → IsLeast set least) ∧ (found = none → set = ∅)

section
variable [Preorder β]

theorem finds_none : Finds (none : Option β) ∅ := ⟨by simp,fun _ => rfl⟩

theorem finds_some (found : Option β) (p : β → Bool) : Finds (found.filter p) {value | found = some value ∧ p value} := by
  constructor
  · intro least kept
    obtain ⟨same,holds⟩ := Option.filter_eq_some_iff.mp kept
    refine ⟨⟨same,holds⟩,?_⟩
    rintro other ⟨again,_⟩
    obtain rfl : least = other := Option.some.inj (same.symm.trans again)
    exact le_refl _
  · intro nothing
    ext value
    simp only [Set.mem_ofPred_eq,Set.mem_empty_iff_false,iff_false]
    rintro ⟨same,holds⟩
    rw [same] at nothing
    simp [Option.filter,holds] at nothing

theorem finds_skip {found : Option β} {set : Set β} {skipped : Prop} [Decidable skipped] (finds : Finds found set) :
    Finds (if skipped then none else found) {value | ¬ skipped ∧ value ∈ set} := by
  split
  · next skips =>
    have empty : {value | ¬ skipped ∧ value ∈ set} = ∅ := by
      ext value
      simp [skips]
    rw [empty]
    exact finds_none
  · next kept =>
    have whole : {value | ¬ skipped ∧ value ∈ set} = set := by
      ext value
      simp [kept]
    rwa [whole]

theorem finds_bind {source : Option α} {search : α → Option β} {sets : α → Set β} (finds : ∀ entry, source = some entry → Finds (search entry) (sets entry)) :
    Finds (source.bind search) {value | ∃ entry, source = some entry ∧ value ∈ sets entry} := by
  cases source with
  | none =>
    have empty : {value | ∃ entry, (none : Option α) = some entry ∧ value ∈ sets entry} = ∅ := by
      ext value
      simp
    rw [empty]
    exact finds_none
  | some entry =>
    have whole : {value | ∃ held, some entry = some held ∧ value ∈ sets held} = sets entry := by
      ext value
      simp
    rw [whole]
    exact finds entry rfl

theorem finds_first {list : List α} {search : α → Option β} {sets : α → Set β} (finds : ∀ entry ∈ list, Finds (search entry) (sets entry))
    (ordered : list.Pairwise fun former latter => former = latter ∨ ∀ early ∈ sets former, ∀ late ∈ sets latter, early ≤ late) :
    Finds (list.findSome? search) {value | ∃ entry ∈ list, value ∈ sets entry} := by
  induction list with
  | nil => exact ⟨by simp,by simp⟩
  | cons entry rest ih =>
    obtain ⟨apart,ordered⟩ := List.pairwise_cons.mp ordered
    obtain ⟨here_some,here_none⟩ := finds entry List.mem_cons_self
    have later := ih (fun held member => finds held (List.mem_cons_of_mem _ member)) ordered
    cases here : search entry with
    | none =>
      have empty := here_none here
      have same : {value | ∃ held ∈ entry::rest, value ∈ sets held} = {value | ∃ held ∈ rest, value ∈ sets held} := by
        ext value
        simp [empty]
      rw [List.findSome?_cons,here,same]
      exact later
    | some least =>
      have found := here_some least here
      rw [List.findSome?_cons,here]
      refine ⟨?_,by simp⟩
      rintro _ ⟨⟩
      refine ⟨⟨entry,List.mem_cons_self,found.1⟩,?_⟩
      rintro value ⟨held,member,inside⟩
      rcases List.mem_cons.mp member with rfl | member
      · exact found.2 inside
      · rcases apart held member with rfl | before
        · exact found.2 inside
        · exact before least found.1 value inside

theorem Finds.congr {found : Option β} {set other : Set β} (finds : Finds found set) (same : ∀ value, value ∈ set ↔ value ∈ other) : Finds found other := by
  rwa [← Set.ext same]

end

theorem finds_sorted [LinearOrder α] [Preorder β] {list : List α} {search : α → Option β} {sets : α → Set β}
    (finds : ∀ entry ∈ list, Finds (search entry) (sets entry))
    (ordered : ∀ former ∈ list, ∀ latter ∈ list, former < latter → ∀ early ∈ sets former, ∀ late ∈ sets latter, early ≤ late) :
    Finds ((list.insertionSort (· ≤ ·)).findSome? search) {value | ∃ entry ∈ list, value ∈ sets entry} := by
  have pairs : (list.insertionSort (· ≤ ·)).Pairwise fun former latter => former = latter ∨ ∀ early ∈ sets former, ∀ late ∈ sets latter, early ≤ late := by
    refine (List.pairwise_insertionSort (· ≤ ·) list).imp_of_mem ?_
    intro former latter first second before
    rcases before.eq_or_lt with same | less
    · exact .inl same
    · exact .inr (ordered former ((List.mem_insertionSort _).mp first) latter ((List.mem_insertionSort _).mp second) less)
  refine (finds_first (fun entry member => finds entry ((List.mem_insertionSort _).mp member)) pairs).congr fun value => ?_
  simp only [List.mem_insertionSort]

end Zveltio.OrderedSearch
