import Mathlib.Data.List.Nodup
namespace Zveltio.ParentChains

section
variable {ι : Type u} {parent other : ι → Option ι} {x y z : ι}

@[grind] def up (parent : ι → Option ι) : Nat → ι → Option ι
  | 0,x => some x
  | levels + 1,x => (parent x).bind (up parent levels)

def Acyclic (parent : ι → Option ι) : Prop := ∀ levels x, up parent (levels + 1) x ≠ some x

-- No more than so many levels above anything.
def Bounded (parent : ι → Option ι) (depth : Nat) : Prop := ∀ x, up parent (depth + 1) x = none

theorem up_add (more levels : Nat) (x : ι) : up parent (levels + more) x = (up parent levels x).bind (up parent more) := by
  induction levels generalizing x with
  | zero => simp [up]
  | succ levels ih =>
    rw [Nat.add_right_comm]
    simp only [up]
    cases parent x with
    | none => rfl
    | some above => exact ih above

theorem up_one (x : ι) : up parent 1 x = parent x := by
  simp only [up]
  cases parent x <;> rfl

theorem up_below {levels less : Nat} (above : up parent levels x = some y) (fewer : less ≤ levels) :
    ∃ between, up parent less x = some between ∧ up parent (levels - less) between = some y := by
  obtain ⟨more,rfl⟩ := Nat.exists_eq_add_of_le fewer
  rw [up_add] at above
  obtain ⟨between,reached,rest⟩ := Option.bind_eq_some_iff.mp above
  exact ⟨between,reached,by simpa using rest⟩

theorem up_congr {levels : Nat} (same : ∀ less < levels, ∀ between, up parent less x = some between → parent between = other between) :
    up parent levels x = up other levels x := by
  induction levels generalizing x with
  | zero => rfl
  | succ levels ih =>
    have first := same 0 (Nat.succ_pos _) x rfl
    simp only [up]
    rw [← first]
    cases above : parent x with
    | none => rfl
    | some next =>
      refine ih fun less fewer between reached => same (less + 1) (Nat.succ_lt_succ fewer) between ?_
      simp only [up,above]
      exact reached

theorem cycle_repeats {levels : Nat} (cycle : up parent levels x = some x) (times : Nat) : up parent (times * levels) x = some x := by
  induction times with
  | zero => simp [up]
  | succ times ih => rw [Nat.succ_mul,up_add,ih]; exact cycle

theorem cycle_returns {levels less : Nat} (cycle : up parent (levels + 1) x = some x) (reached : up parent less x = some y) :
    ∃ more, up parent more y = some x := by
  have around := cycle_repeats cycle less
  obtain ⟨between,same,rest⟩ := up_below around (Nat.le_mul_of_pos_right less (Nat.succ_pos levels))
  cases reached.symm.trans same
  exact ⟨_,rest⟩

theorem bounded_acyclic {depth : Nat} (bounded : Bounded parent depth) : Acyclic parent := by
  intro levels x cycle
  have around := cycle_repeats cycle (depth + 1)
  obtain ⟨between,reached,_⟩ := up_below around (Nat.le_mul_of_pos_right (depth + 1) (Nat.succ_pos levels))
  cases (bounded x).symm.trans reached

theorem up_unique (acyclic : Acyclic parent) {levels more : Nat} (left : up parent levels x = some y) (right : up parent more x = some y) :
    levels = more := by
  by_contra apart
  wlog fewer : levels < more generalizing levels more
  · exact this right left (Ne.symm apart) (Nat.lt_of_le_of_ne (Nat.not_lt.mp fewer) (Ne.symm apart))
  obtain ⟨between,reached,rest⟩ := up_below right (Nat.le_of_lt fewer)
  cases left.symm.trans reached
  obtain ⟨gap,same⟩ := Nat.exists_eq_add_of_lt fewer
  have cycle : up parent (gap + 1) y = some y := by
    rw [← rest]
    congr 1
    omega
  exact acyclic gap y cycle

section
variable [DecidableEq ι]

@[grind] def below (parent : ι → Option ι) (all : List ι) (root : ι) : Nat → List ι
  | 0 => all.filter (· = root)
  | levels + 1 => (below parent all root levels).flatMap fun above => all.filter fun x => parent x = some above

def descendants (parent : ι → Option ι) (all : List ι) (root : ι) (depth : Nat) : List ι :=
  (List.range (depth + 1)).flatMap (below parent all root)

theorem mem_below {all : List ι} {root : ι} (rooted : ∀ x, parent x ≠ none → x ∈ all) (levels : Nat) (x : ι) :
    x ∈ below parent all root levels ↔ x ∈ all ∧ root ∈ all ∧ up parent levels x = some root := by
  induction levels generalizing x with
  | zero =>
    simp only [below,up,List.mem_filter,decide_eq_true_eq,Option.some.injEq]
    constructor
    · rintro ⟨member,rfl⟩
      exact ⟨member,member,rfl⟩
    · rintro ⟨member,_,same⟩
      exact ⟨member,same⟩
  | succ levels ih =>
    simp only [below,up,List.mem_flatMap,List.mem_filter,decide_eq_true_eq,Option.bind_eq_some_iff]
    constructor
    · rintro ⟨above,there,member,same⟩
      obtain ⟨_,found,reached⟩ := (ih above).mp there
      exact ⟨member,found,above,same,reached⟩
    · rintro ⟨member,found,above,same,reached⟩
      refine ⟨above,(ih above).mpr ⟨?_,found,reached⟩,member,same⟩
      cases levels with
      | zero =>
        cases Option.some.inj reached
        exact found
      | succ levels =>
        refine rooted above fun wrong => ?_
        simp [up,wrong] at reached

theorem below_nodup {all : List ι} {root : ι} (distinct : all.Nodup) (levels : Nat) : (below parent all root levels).Nodup := by
  induction levels with
  | zero => exact distinct.filter _
  | succ levels ih =>
    refine List.nodup_flatMap.mpr ⟨fun above _ => distinct.filter _,?_⟩
    refine ih.imp ?_
    intro left right apart x
    simp only [List.mem_filter,decide_eq_true_eq]
    rintro ⟨_,one⟩ ⟨_,two⟩
    exact apart (Option.some.inj (one.symm.trans two))

theorem mem_descendants {all : List ι} {root : ι} {depth : Nat} (rooted : ∀ x, parent x ≠ none → x ∈ all) (bounded : Bounded parent depth)
    (x : ι) : x ∈ descendants parent all root depth ↔ x ∈ all ∧ root ∈ all ∧ ∃ levels, up parent levels x = some root := by
  simp only [descendants,List.mem_flatMap,List.mem_range,mem_below rooted]
  constructor
  · rintro ⟨levels,_,member,found,reached⟩
    exact ⟨member,found,levels,reached⟩
  · rintro ⟨member,found,levels,reached⟩
    refine ⟨levels,?_,member,found,reached⟩
    by_contra deep
    obtain ⟨between,far,_⟩ := up_below reached (Nat.not_lt.mp deep)
    cases (bounded x).symm.trans far

theorem descendants_nodup {all : List ι} {root : ι} {depth : Nat} (rooted : ∀ x, parent x ≠ none → x ∈ all) (acyclic : Acyclic parent)
    (distinct : all.Nodup) : (descendants parent all root depth).Nodup := by
  refine List.nodup_flatMap.mpr ⟨fun levels _ => below_nodup distinct levels,?_⟩
  refine (List.nodup_range (n := depth + 1)).imp ?_
  intro left right apart x one two
  exact apart (up_unique acyclic ((mem_below rooted left x).mp one).2.2 ((mem_below rooted right x).mp two).2.2)

end
end
end Zveltio.ParentChains
