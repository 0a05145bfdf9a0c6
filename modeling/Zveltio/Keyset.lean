import Mathlib.Data.List.Sort
import Mathlib.Order.Defs.LinearOrder
namespace Zveltio.Keyset

-- Paging over two streams of keyed items: each is sorted and cut, the second one
-- gives way where the first has the key, and the page is the head of the merge.
section
variable {α : Type u} {κ : Type v} [LinearOrder κ] (key : α → κ)

def sortBy (items : List α) : List α := items.insertionSort fun left right => key left ≤ key right

theorem sortBy_perm (items : List α) : (sortBy key items).Perm items := List.perm_insertionSort _ _

theorem sortBy_sorted (items : List α) : (sortBy key items).Pairwise fun left right => key left ≤ key right := by
  have total : Std.Total fun left right : α => key left ≤ key right := ⟨fun left right => le_total _ _⟩
  have trans : IsTrans α fun left right => key left ≤ key right := ⟨fun _ _ _ => le_trans⟩
  exact List.pairwise_insertionSort _ items

def fetch (count : Nat) (items : List α) : List α := (sortBy key items).take count

def unshadowed (first second : List α) : List α := second.filter fun item => key item ∉ first.map key

def merge (first second : List α) : List α := sortBy key (first ++ unshadowed key first second)

def page (limit : Nat) (merged : List α) : List α := merged.take limit

-- The page ends at or after the key, or it was not cut at all.
def Covered (limit : Nat) (merged : List α) (here : κ) : Prop :=
  merged.length ≤ limit ∨ ∃ last, (page limit merged).getLast? = some last ∧ here ≤ key last

variable {key}

theorem mem_fetch (member : item ∈ fetch key count items) : item ∈ items :=
  (sortBy_perm key items).mem_iff.mp (List.mem_of_mem_take member)

theorem take_before {items : List α} (sorted : items.Pairwise fun left right => key left ≤ key right)
    (member : item ∈ items) (out : item ∉ items.take count) :
    (items.take count).length = count ∧ ∀ other ∈ items.take count, key other ≤ key item := by
  have split := List.take_append_drop count items
  have late : item ∈ items.drop count := by
    rw [← split] at member
    exact (List.mem_append.mp member).resolve_left out
  have long : count < items.length := by
    by_contra short
    rw [List.drop_eq_nil_of_le (by omega)] at late
    cases late
  rw [← split] at sorted
  refine ⟨by rw [List.length_take]; omega,fun other early => ?_⟩
  exact (List.pairwise_append.mp sorted).2.2 other early item late

theorem fetch_before (member : item ∈ items) (out : item ∉ fetch key count items) :
    (fetch key count items).length = count ∧ ∀ other ∈ fetch key count items, key other ≤ key item :=
  take_before (sortBy_sorted key items) ((sortBy_perm key items).mem_iff.mpr member) out

theorem page_closed {merged : List α} (sorted : merged.Pairwise fun left right => key left ≤ key right)
    (test : α → Bool) (closed : ∀ left right, key left ≤ key right → test right → test left)
    (many : limit < merged.countP test) : ∀ item ∈ page limit merged, test item := by
  intro item member
  by_contra fails
  have split := List.take_append_drop limit merged
  have late : ∀ other ∈ merged.drop limit, ¬test other := by
    intro other after passes
    rw [← split] at sorted
    exact fails (closed item other ((List.pairwise_append.mp sorted).2.2 item member other after) passes)
  have none : (merged.drop limit).countP test = 0 := List.countP_eq_zero.mpr late
  have all : merged.countP test = (merged.take limit).countP test := by
    rw [← split,List.countP_append,none,split]
    rfl
  have few := List.countP_le_length (p := test) (l := merged.take limit)
  rw [List.length_take] at few
  omega

theorem mem_merge {first second : List α} : item ∈ merge key first second ↔
    item ∈ first ∨ item ∈ second ∧ key item ∉ first.map key := by
  rw [merge,(sortBy_perm key _).mem_iff,List.mem_append,unshadowed,List.mem_filter]
  simp

theorem last_mem {items : List α} (last : items.getLast? = some item) : item ∈ items :=
  List.mem_of_getLast? last

theorem covered_merged {merged : List α} (sorted : merged.Pairwise fun left right => key left ≤ key right)
    (member : item ∈ merged) (covered : Covered key limit merged (key item)) :
    ∃ shown ∈ page limit merged, key shown = key item := by
  by_cases within : item ∈ page limit merged
  · exact ⟨item,within,rfl⟩
  obtain ⟨full,early⟩ := take_before sorted member within
  rcases covered with short | ⟨last,found,reached⟩
  · exact absurd (by rwa [page,List.take_of_length_le short]) within
  · have kept := last_mem found
    exact ⟨last,kept,le_antisymm (early last kept) reached⟩

theorem merge_sorted (first second : List α) :
    (merge key first second).Pairwise fun left right => key left ≤ key right := sortBy_sorted key _

theorem merge_count (first second : List α) (test : α → Bool) :
    (merge key first second).countP test = first.countP test + (unshadowed key first second).countP test := by
  rw [merge,(sortBy_perm key _).countP_eq,List.countP_append]

theorem count_all {items : List α} {test : α → Bool} (all : ∀ item ∈ items, test item) :
    items.countP test = items.length := List.countP_eq_length.mpr all

-- More than a page of passing items leaves no covered key behind the test.
theorem covered_within {merged : List α} (sorted : merged.Pairwise fun left right => key left ≤ key right)
    (test : α → Bool) (closed : ∀ left right, key left ≤ key right → test right → test left)
    (many : limit < merged.countP test) (covered : Covered key limit merged here) :
    ∃ last ∈ page limit merged, here ≤ key last ∧ test last := by
  rcases covered with short | ⟨last,found,reached⟩
  · have few := List.countP_le_length (p := test) (l := merged)
    omega
  · exact ⟨last,last_mem found,reached,page_closed sorted test closed many last (last_mem found)⟩

theorem first_covered {whole other : List α} (distinct : (whole.map key).Nodup) (member : item ∈ whole)
    (covered : Covered key limit (merge key (fetch key (limit + 1) whole) other) (key item)) :
    item ∈ page limit (merge key (fetch key (limit + 1) whole) other) := by
  have alone : ∀ entry ∈ fetch key (limit + 1) whole, key entry = key item → entry = item :=
    fun entry kept equal => List.inj_on_of_nodup_map distinct (mem_fetch kept) member equal
  by_cases kept : item ∈ fetch key (limit + 1) whole
  · obtain ⟨shown,within,equal⟩ := covered_merged (merge_sorted _ _) (mem_merge.mpr (.inl kept)) covered
    rcases mem_merge.mp (List.mem_of_mem_take within) with first | ⟨_,free⟩
    · exact alone shown first equal ▸ within
    · exact absurd (List.mem_map.mpr ⟨item,kept,equal.symm⟩) free
  · obtain ⟨full,early⟩ := fetch_before member kept
    have strict : ∀ entry ∈ fetch key (limit + 1) whole, decide (key entry < key item) := by
      intro entry within
      have apart : key entry ≠ key item := fun equal => kept (alone entry within equal ▸ within)
      exact decide_eq_true (lt_of_le_of_ne (early entry within) apart)
    have many : limit < (merge key (fetch key (limit + 1) whole) other).countP fun entry => key entry < key item := by
      rw [merge_count,count_all strict,full]
      omega
    obtain ⟨last,_,reached,before⟩ := covered_within (merge_sorted _ _) _
      (fun left right order passes => decide_eq_true (lt_of_le_of_lt order (of_decide_eq_true passes))) many covered
    exact absurd reached (not_le_of_gt (of_decide_eq_true before))

-- For the second stream a cut is harmless only if no key of the first stream hides
-- two of its items.
theorem second_covered {first whole : List α}
    (once : (fetch key (limit + 1) whole).length = limit + 1 →
      (((fetch key (limit + 1) whole).filter fun item => key item ∈ first.map key).map key).Nodup)
    (member : item ∈ whole)
    (covered : Covered key limit (merge key first (fetch key (limit + 1) whole)) (key item)) :
    ∃ shown ∈ page limit (merge key first (fetch key (limit + 1) whole)), key shown = key item := by
  by_cases kept : item ∈ fetch key (limit + 1) whole
  · by_cases hidden : key item ∈ first.map key
    · obtain ⟨row,present,equal⟩ := List.mem_map.mp hidden
      rw [← equal] at covered ⊢
      exact covered_merged (merge_sorted _ _) (mem_merge.mpr (.inl present)) covered
    · exact covered_merged (merge_sorted _ _) (mem_merge.mpr (.inr ⟨kept,hidden⟩)) covered
  · obtain ⟨full,early⟩ := fetch_before member kept
    let cut := fetch key (limit + 1) whole
    let shadowed := cut.filter fun item => key item ∈ first.map key
    have fits : shadowed.length ≤ first.countP fun row => key row ≤ key item := by
      have within : shadowed.map key ⊆ (first.filter fun row => key row ≤ key item).map key := by
        intro here inside
        obtain ⟨stone,shared,equal⟩ := List.mem_map.mp inside
        obtain ⟨fetched,own⟩ := List.mem_filter.mp shared
        obtain ⟨row,present,same⟩ := List.mem_map.mp (of_decide_eq_true own)
        refine List.mem_map.mpr ⟨row,List.mem_filter.mpr ⟨present,?_⟩,same.trans equal⟩
        exact decide_eq_true (same ▸ early stone fetched)
      have sizes := (List.subperm_of_subset (once full) within).length_le
      rw [List.length_map,List.length_map] at sizes
      rw [List.countP_eq_length_filter]
      exact sizes
    have parts : cut.length = shadowed.length + (unshadowed key first cut).length := by
      rw [List.length_eq_countP_add_countP fun item => key item ∈ first.map key,List.countP_eq_length_filter,
        List.countP_eq_length_filter]
      simp only [shadowed,unshadowed,decide_eq_true_eq,decide_not]
    have visible : (unshadowed key first cut).countP (fun entry => key entry ≤ key item) =
        (unshadowed key first cut).length :=
      count_all fun entry within => decide_eq_true (early entry (List.mem_of_mem_filter within))
    have many : limit < (merge key first cut).countP fun entry => key entry ≤ key item := by
      rw [merge_count,visible]
      have size : cut.length = limit + 1 := full
      omega
    obtain ⟨last,within,reached,before⟩ := covered_within (merge_sorted _ _) _
      (fun left right order passes => decide_eq_true (le_trans order (of_decide_eq_true passes))) many covered
    exact ⟨last,within,le_antisymm (of_decide_eq_true before) reached⟩

end

end Zveltio.Keyset
