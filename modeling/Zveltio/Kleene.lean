import Mathlib.Logic.Basic
namespace Zveltio.Kleene

-- Truth with an unknown value: none stands for it. Only some true confirms.
def neg : Option Bool → Option Bool := Option.map Bool.not

@[grind] def both : Option Bool → Option Bool → Option Bool
  | some false,_ => some false
  | _,some false => some false
  | some true,some true => some true
  | _,_ => none

def either (left right : Option Bool) : Option Bool := neg (both (neg left) (neg right))

def equal [DecidableEq α] (left right : Option α) : Option Bool :=
  left.bind fun one => right.map fun other => decide (one = other)

def oneOf [DecidableEq α] (left : Option α) (values : List (Option α)) : Option Bool :=
  values.foldr (fun value found => either (equal left value) found) (some false)

@[simp] theorem neg_true : neg value = some true ↔ value = some false := by
  cases value <;> simp [neg]

@[simp] theorem neg_false : neg value = some false ↔ value = some true := by
  cases value <;> simp [neg]

@[simp] theorem both_true : both left right = some true ↔ left = some true ∧ right = some true := by
  rcases left with _ | _ | _ <;> rcases right with _ | _ | _ <;> simp [both]

@[simp] theorem both_false : both left right = some false ↔ left = some false ∨ right = some false := by
  rcases left with _ | _ | _ <;> rcases right with _ | _ | _ <;> simp [both]

@[simp] theorem either_true : either left right = some true ↔ left = some true ∨ right = some true := by
  simp [either]

@[simp] theorem either_false : either left right = some false ↔ left = some false ∧ right = some false := by
  simp [either]

section
variable {α : Type u} [DecidableEq α]

@[simp] theorem equal_some (one other : α) : equal (some one) (some other) = some (decide (one = other)) := rfl

-- Over known values the list test is a plain membership; with nothing to test an
-- unknown item is not looked at.
theorem oneOf_some (one : α) (values : List α) : oneOf (some one) (values.map some) = some (decide (one ∈ values)) := by
  induction values with
  | nil => rfl
  | cons value rest ih =>
    rw [List.map_cons,oneOf,List.foldr_cons,← oneOf,ih,equal_some]
    by_cases same : one = value <;> by_cases later : one ∈ rest <;> simp [same,later,either,both,neg]

theorem oneOf_single (left right : Option α) : oneOf left [right] = equal left right := by
  rw [oneOf,List.foldr_cons,List.foldr_nil]
  rcases equal left right with _ | _ | _ <;> rfl

theorem oneOf_unknown (values : List (Option α)) (listed : values ≠ []) : oneOf (none : Option α) values = none := by
  induction values with
  | nil => exact absurd rfl listed
  | cons value rest ih =>
    rw [oneOf,List.foldr_cons,← oneOf]
    cases rest with
    | nil => rfl
    | cons next more =>
      rw [ih (by simp)]
      rfl

end

end Zveltio.Kleene
