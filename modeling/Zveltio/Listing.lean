import Zveltio.IpText
import Mathlib.Data.List.TakeWhile
namespace Zveltio.Listing
open IpText

-- Parts between separators, one more at either end: what is looked for is a part with its separators.
def listing (separator : Char) (parts : List Text) : Text := if parts = [] then [] else separator::joined separator parts ++ [separator]

def lists (separator : Char) (text part : Text) : Bool := decide (separator::(part ++ [separator]) <:+: text)

def lastCut (separator : Char) (text : Text) : Option (Text × Text) :=
  match text.reverse.dropWhile (· ≠ separator) with
  | [] => none
  | _::before => some (before.reverse,(text.reverse.takeWhile (· ≠ separator)).reverse)

section
variable {separator : Char} {parts : List Text}

theorem joined_ended (some_part : parts ≠ []) : joined separator parts ++ [separator] = parts.flatMap fun part => part ++ [separator] := by
  induction parts with
  | nil => exact absurd rfl some_part
  | cons head rest ih =>
    cases rest with
    | nil => simp [joined]
    | cons next more =>
      have later := ih (List.cons_ne_nil _ _)
      unfold joined at later ⊢
      rw [List.intercalate_cons_cons,List.append_assoc,List.append_assoc,later]
      simp

theorem listing_ended (some_part : parts ≠ []) : listing separator parts = separator::parts.flatMap fun part => part ++ [separator] := by
  unfold listing
  rw [if_neg some_part,List.cons_append,joined_ended some_part]

theorem prefix_ended {first second rest : Text} (one : separator ∉ first) (two : separator ∉ second) :
    first ++ [separator] <+: second ++ separator::rest ↔ first = second := by
  constructor
  · intro starts
    induction first generalizing second with
    | nil =>
      cases second with
      | nil => rfl
      | cons char more =>
        obtain ⟨_,same⟩ := starts
        exact absurd (List.cons.inj same).1 fun wrong => two (wrong ▸ List.mem_cons_self ..)
    | cons head tail ih =>
      cases second with
      | nil =>
        obtain ⟨_,same⟩ := starts
        exact absurd (List.cons.inj same).1 fun wrong => one (wrong ▸ List.mem_cons_self ..)
      | cons char more =>
        obtain ⟨heads,tails⟩ := List.cons_prefix_cons.mp starts
        have inner := ih (fun member => one (List.mem_cons_of_mem _ member)) (fun member => two (List.mem_cons_of_mem _ member)) tails
        rw [heads,inner]
  · intro same
    rw [same]
    exact ⟨rest,by simp⟩

theorem infix_past {part front rest : Text} (apart : separator ∉ front) :
    separator::part <:+: front ++ separator::rest ↔ separator::part <:+: separator::rest := by
  induction front with
  | nil => rfl
  | cons head tail ih =>
    rw [List.cons_append,List.infix_cons_iff,ih fun member => apart (List.mem_cons_of_mem _ member)]
    constructor
    · rintro (starts | inner)
      · exact absurd (List.cons_prefix_cons.mp starts).1 fun wrong => apart (wrong ▸ List.mem_cons_self ..)
      · exact inner
    · exact .inr

theorem infix_ended {part : Text} (apart : separator ∉ part) (clean : ∀ held ∈ parts, separator ∉ held) :
    separator::(part ++ [separator]) <:+: separator::(parts.flatMap fun held => held ++ [separator]) ↔ part ∈ parts := by
  induction parts with
  | nil => simp [List.infix_cons_iff]
  | cons head rest ih =>
    have later := ih fun held member => clean held (List.mem_cons_of_mem _ member)
    have here := clean head (List.mem_cons_self ..)
    rw [List.flatMap_cons,List.append_assoc,List.singleton_append,List.infix_cons_iff,List.cons_prefix_cons,prefix_ended apart here,infix_past here,later,
      List.mem_cons]
    simp

theorem lists_exact {part : Text} (apart : separator ∉ part) (clean : ∀ held ∈ parts, separator ∉ held) :
    lists separator (listing separator parts) part = true ↔ part ∈ parts := by
  unfold lists
  rw [decide_eq_true_eq]
  by_cases empty : parts = []
  · subst empty
    simp [listing]
  · rw [listing_ended empty]
    exact infix_ended apart clean

theorem splitOn_listing (clean : ∀ held ∈ parts, separator ∉ held) :
    ((listing separator parts).splitOn separator).filter (· ≠ []) = parts.filter (· ≠ []) := by
  by_cases empty : parts = []
  · subst empty
    rfl
  · have shape : listing separator parts = joined separator ([]::(parts ++ [[]])) := by
      have ends : joined separator (parts ++ [[]]) = joined separator parts ++ [separator] := by
        rw [joined_append empty (List.cons_ne_nil _ _)]
        rfl
      have opened := @joined_append [[]] _ separator (List.cons_ne_nil [] []) (List.append_ne_nil_of_right_ne_nil parts (List.cons_ne_nil [] []))
      rw [ends] at opened
      unfold listing
      rw [if_neg empty]
      exact opened.symm
    have whole : ∀ held ∈ []::(parts ++ [[]]), separator ∉ held := by
      intro held member
      rcases List.mem_cons.mp member with same | member
      · rw [same]
        exact List.not_mem_nil
      · rcases List.mem_append.mp member with member | member
        · exact clean held member
        · rw [List.mem_singleton.mp member]
          exact List.not_mem_nil
    rw [shape,splitOn_joined whole,if_neg (List.cons_ne_nil _ _)]
    simp

theorem lastCut_exact {text front back : Text} : lastCut separator text = some (front,back) ↔ text = front ++ separator::back ∧ separator ∉ back := by
  have whole := List.takeWhile_append_dropWhile (p := fun char => decide (char ≠ separator)) (l := text.reverse)
  have turned := congrArg List.reverse whole
  rw [List.reverse_append,List.reverse_reverse] at turned
  unfold lastCut
  constructor
  · intro found
    split at found
    · cases found
    · next mark before rest =>
      cases Option.some.inj found
      have stops : mark = separator := by
        have stopped := List.head?_dropWhile_not (fun char => decide (char ≠ separator)) text.reverse
        rw [rest] at stopped
        simpa using stopped
      refine ⟨?_,fun member => ?_⟩
      · rw [rest,stops] at turned
        simpa using turned.symm
      · have kept := List.mem_takeWhile_imp (List.mem_reverse.mp member)
        simp at kept
  · rintro ⟨same,apart⟩
    have reversed : text.reverse = back.reverse ++ separator::front.reverse := by
      rw [same]
      simp
    have kept : ∀ char ∈ back.reverse, decide (char ≠ separator) = true := by
      intro char member
      exact decide_eq_true fun wrong => apart (wrong ▸ List.mem_reverse.mp member)
    rw [reversed,List.takeWhile_append_of_pos kept,List.dropWhile_append_of_pos kept]
    simp

theorem cut_unique {first second front back : Text} (same : front ++ separator::back = first ++ separator::second) (one : separator ∉ first)
    (two : separator ∉ second) : front = first ∧ back = second := by
  have counts := congrArg (List.count separator) same
  rw [List.count_append,List.count_append,List.count_cons_self,List.count_cons_self,List.count_eq_zero_of_not_mem one,List.count_eq_zero_of_not_mem two] at counts
  have apart : separator ∉ back := List.count_eq_zero.mp (by omega)
  have cut : lastCut separator (front ++ separator::back) = some (front,back) := lastCut_exact.mpr ⟨rfl,apart⟩
  have other : lastCut separator (first ++ separator::second) = some (first,second) := lastCut_exact.mpr ⟨rfl,two⟩
  rw [same,other] at cut
  have pair := Option.some.inj cut
  exact ⟨(congrArg Prod.fst pair).symm,(congrArg Prod.snd pair).symm⟩

end

end Zveltio.Listing
