import Zveltio.Kleene
import Zveltio.QueryFilters
import Zveltio.IpText
import Mathlib.Data.List.Infix
namespace Zveltio.LikePatterns
open Kleene
open IpText (Text lower_mark)

-- A pattern with its escapes taken out, over any alphabet.
inductive Sign (α : Type u) where
  | char (value : α)
  | one
  | any

section
variable {α : Type u} [DecidableEq α]

def matchText : List (Sign α) → List α → Bool
  | [],text => text.isEmpty
  | .char _::_,[] => false
  | .char value::pattern,found::text => value = found && matchText pattern text
  | .one::_,[] => false
  | .one::pattern,_::text => matchText pattern text
  | .any::pattern,text => text.tails.any fun tail => matchText pattern tail

theorem matchText_any {pattern : List (Sign α)} {text : List α} :
    matchText (.any::pattern) text = true ↔ ∃ tail, tail <:+ text ∧ matchText pattern tail = true := by
  simp [matchText]

theorem matchText_chars {word : List α} {pattern : List (Sign α)} {text : List α} :
    matchText (word.map .char ++ pattern) text = true ↔ ∃ tail, text = word ++ tail ∧ matchText pattern tail = true := by
  induction word generalizing text with
  | nil => simp
  | cons value word ih =>
    cases text with
    | nil => simp [matchText]
    | cons found text =>
      simp only [List.map_cons,List.cons_append,matchText,Bool.and_eq_true,decide_eq_true_eq,ih,List.cons.injEq]
      constructor
      · rintro ⟨same,tail,rest,matched⟩
        exact ⟨tail,⟨same.symm,rest⟩,matched⟩
      · rintro ⟨tail,⟨same,rest⟩,matched⟩
        exact ⟨same.symm,tail,rest,matched⟩

theorem matchText_all (text : List α) : matchText [.any] text = true :=
  matchText_any.mpr ⟨[],List.nil_suffix,rfl⟩

theorem matchText_starts {word text : List α} : matchText (word.map .char ++ [.any]) text = true ↔ word <+: text := by
  rw [matchText_chars]
  constructor
  · rintro ⟨tail,rfl,_⟩
    exact List.prefix_append word tail
  · rintro ⟨tail,rfl⟩
    exact ⟨tail,rfl,matchText_all tail⟩

theorem matchText_whole {word text : List α} : matchText (word.map .char) text = true ↔ text = word := by
  have chars : matchText (word.map .char ++ []) text = true ↔ ∃ tail, text = word ++ tail ∧ matchText [] tail = true := matchText_chars
  rw [List.append_nil] at chars
  rw [chars]
  constructor
  · rintro ⟨tail,rfl,ended⟩
    cases tail with
    | nil => exact List.append_nil word
    | cons head rest => cases ended
  · rintro rfl
    exact ⟨[],(List.append_nil _).symm,rfl⟩

theorem matchText_ends {word text : List α} : matchText (.any::word.map .char) text = true ↔ word <:+ text := by
  rw [matchText_any]
  constructor
  · rintro ⟨tail,behind,matched⟩
    rwa [matchText_whole.mp matched] at behind
  · intro behind
    exact ⟨word,behind,matchText_whole.mpr rfl⟩

theorem matchText_contains {word text : List α} :
    matchText (.any::(word.map .char ++ [.any])) text = true ↔ word <:+: text := by
  rw [matchText_any,List.infix_iff_prefix_suffix]
  constructor
  · rintro ⟨tail,behind,matched⟩
    exact ⟨tail,matchText_starts.mp matched,behind⟩
  · rintro ⟨tail,front,behind⟩
    exact ⟨tail,behind,matchText_starts.mpr front⟩

end

-- PostgreSQL refuses a pattern that ends in its escape character.
def compile : Text → Option (List (Sign Char))
  | [] => some []
  | ['\\'] => none
  | '\\'::char::pattern => (compile pattern).map (.char char::·)
  | '%'::pattern => (compile pattern).map (.any::·)
  | '_'::pattern => (compile pattern).map (.one::·)
  | char::pattern => (compile pattern).map (.char char::·)

inductive Condition where
  | like (pattern : Text)
  | ilike (pattern : Text)
  | notIlike (pattern : Text)
  | isNull
  | either (left right : Condition)

-- ILIKE lowers both sides, the pattern with its escapes still in it. A comparison with
-- NULL is unknown and does not look at its pattern.
def eval (lower : Text → Text) (column : Option Text) : Condition → Option (Option Bool)
  | .like pattern => match column with
    | none => some none
    | some text => (compile pattern).map fun signs => some (matchText signs text)
  | .ilike pattern => match column with
    | none => some none
    | some text => (compile (lower pattern)).map fun signs => some (matchText signs (lower text))
  | .notIlike pattern => match column with
    | none => some none
    | some text => (compile (lower pattern)).map fun signs => neg (some (matchText signs (lower text)))
  | .isNull => some (some column.isNone)
  | .either left right => do
    let one ← eval lower column left
    let other ← eval lower column right
    some (Kleene.either one other)

def special (char : Char) : Bool := char = '\\' || char = '%' || char = '_'

-- s.replace(/([\\%_])/g, '\\$1')
def escapeLike (text : Text) : Text := text.flatMap fun char => if special char then ['\\',char] else [char]

-- The operators of FilterCondition that match text.
inductive TextOp where
  | like
  | ilike
  | not_contains
  | starts_with
  | ends_with

def buildCondition (value : Text) : TextOp → Condition
  | .like => .like ('%'::escapeLike value ++ ['%'])
  | .ilike => .ilike ('%'::escapeLike value ++ ['%'])
  | .not_contains => .either .isNull (.notIlike ('%'::escapeLike value ++ ['%']))
  | .starts_with => .ilike (escapeLike value ++ ['%'])
  | .ends_with => .ilike ('%'::escapeLike value)

def textOp : QueryFilters.Op → Option TextOp
  | .ilike => some .ilike
  | .not_contains => some .not_contains
  | .starts_with => some .starts_with
  | .ends_with => some .ends_with
  | _ => none

-- The condition of a filter named as a caller names it.
def conditionFor (name : String) (value : Text) : Option Condition :=
  ((QueryFilters.mapOp name).bind textOp).map (buildCondition value)

def Holds (lower : Text → Text) (name : String) (value : Text) (column : Option Text) : Prop :=
  (conditionFor name value).bind (eval lower column) = some (some true)

-- What is relied on of the collation's lower(): a pattern sign is lowered to itself, whatever
-- stands around it, and nothing else is lowered to one.
structure Lowers (lower : Text → Text) : Prop where
  empty : lower [] = []
  sign : ∀ front char rest, special char = true → lower (front ++ char::rest) = lower front ++ char::lower rest
  clear : ∀ text, (∀ char ∈ text, special char = false) → ∀ char ∈ lower text, special char = false

theorem escapeLike_cons (char : Char) (text : Text) :
    escapeLike (char::text) = (if special char then ['\\',char] else [char]) ++ escapeLike text := rfl

theorem escapeLike_append (left right : Text) : escapeLike (left ++ right) = escapeLike left ++ escapeLike right :=
  List.flatMap_append

theorem escapeLike_clear (clear : ∀ char ∈ text, special char = false) : escapeLike text = text := by
  induction text with
  | nil => rfl
  | cons char text ih =>
    rw [escapeLike_cons,clear char (List.mem_cons_self ..),ih fun one held => clear one (List.mem_cons_of_mem _ held)]
    rfl

theorem compile_nil : compile [] = some [] := rfl

theorem compile_escaped (char : Char) (pattern : Text) : compile ('\\'::char::pattern) = (compile pattern).map (.char char::·) := rfl

theorem compile_any (pattern : Text) : compile ('%'::pattern) = (compile pattern).map (.any::·) := rfl

theorem compile_plain (plain : special char = false) (pattern : Text) :
    compile (char::pattern) = (compile pattern).map (.char char::·) := by
  simp only [special,Bool.or_eq_false_iff,decide_eq_false_iff_not] at plain
  obtain ⟨⟨escape,percent⟩,underscore⟩ := plain
  rw [compile]
  · intro ended
    cases ended
    exact absurd rfl escape
  · intro other rest same
    exact absurd same escape
  · exact percent
  · exact underscore

theorem compile_escapeLike (text pattern : Text) :
    compile (escapeLike text ++ pattern) = (compile pattern).map (text.map .char ++ ·) := by
  induction text with
  | nil => simp [escapeLike]
  | cons char text ih =>
    rw [escapeLike_cons]
    cases marked : special char with
    | true =>
      rw [if_pos rfl,List.append_assoc,List.cons_append,List.cons_append,List.nil_append,compile_escaped,ih,Option.map_map]
      rfl
    | false =>
      rw [if_neg Bool.false_ne_true,List.append_assoc,List.cons_append,List.nil_append,compile_plain marked,ih,
        Option.map_map]
      rfl

theorem special_lower (marked : special char = true) : char.toLower = char := by
  simp only [special,Bool.or_eq_true,decide_eq_true_eq] at marked
  rcases marked with (rfl | rfl) | rfl <;> decide

theorem lower_special (char : Char) (plain : special char = false) : special char.toLower = false := by
  cases marked : special char.toLower with
  | false => rfl
  | true =>
    simp only [special,Bool.or_eq_true,decide_eq_true_eq] at marked
    rcases marked with (same | same) | same <;>
      rw [lower_mark (by decide) same] at plain <;> cases plain

theorem ascii_lowers : Lowers (List.map Char.toLower) where
  empty := rfl
  sign front char rest marked := by rw [List.map_append,List.map_cons,special_lower marked]
  clear text clear := by
    intro char held
    obtain ⟨one,inside,rfl⟩ := List.mem_map.mp held
    exact lower_special one (clear one inside)

section
variable {lower : Text → Text}

theorem Lowers.lead (lowers : Lowers lower) (marked : special char = true) (text : Text) :
    lower (char::text) = char::lower text := by
  have split := lowers.sign [] char text marked
  rwa [lowers.empty] at split

-- The signs cut the text into stretches without one; front is the stretch being read.
theorem Lowers.escape_behind (lowers : Lowers lower) (clear : ∀ char ∈ front, special char = false) (text : Text) :
    lower (front ++ escapeLike text) = escapeLike (lower (front ++ text)) := by
  induction text generalizing front with
  | nil =>
    rw [escapeLike,List.flatMap_nil,List.append_nil,escapeLike_clear (lowers.clear front clear)]
  | cons char text ih =>
    cases marked : special char with
    | true =>
      have later : lower ([] ++ escapeLike text) = escapeLike (lower ([] ++ text)) := ih fun _ held => absurd held List.not_mem_nil
      rw [List.nil_append,List.nil_append] at later
      rw [escapeLike_cons,if_pos marked,List.cons_append,List.cons_append,List.nil_append,lowers.sign front '\\' _ rfl,
        lowers.lead marked,later,lowers.sign front char text marked,escapeLike_append,escapeLike_cons,if_pos marked,
        escapeLike_clear (lowers.clear front clear)]
      rfl
    | false =>
      have longer : ∀ one ∈ front ++ [char], special one = false := by
        intro one held
        rcases List.mem_append.mp held with held | held
        · exact clear one held
        · rw [List.mem_singleton.mp held]
          exact marked
      have later := ih longer
      rw [List.append_assoc,List.append_assoc] at later
      rw [escapeLike_cons,if_neg (by rw [marked]; exact Bool.false_ne_true)]
      exact later

theorem Lowers.escape (lowers : Lowers lower) (text : Text) : lower (escapeLike text) = escapeLike (lower text) := by
  have clear : ∀ char ∈ ([] : Text), special char = false := fun _ held => absurd held List.not_mem_nil
  exact lowers.escape_behind clear text

theorem Lowers.behind (lowers : Lowers lower) (text : Text) :
    lower (escapeLike text ++ ['%']) = escapeLike (lower text) ++ ['%'] := by
  rw [lowers.sign _ '%' [] rfl,lowers.empty,lowers.escape]

def Reads (lower : Text → Text) (pattern : Text) (Found : Text → Prop) : Prop :=
  ∀ text, ∃ signs, compile (lower pattern) = some signs ∧ (matchText signs (lower text) = true ↔ Found text)

theorem Lowers.contains_exact (lowers : Lowers lower) (value : Text) :
    Reads lower ('%'::escapeLike value ++ ['%']) fun text => lower value <:+: lower text := by
  refine fun text => ⟨.any::((lower value).map .char ++ [.any]),?_,matchText_contains⟩
  rw [List.cons_append,lowers.lead rfl,lowers.behind,compile_any,compile_escapeLike]
  rfl

theorem Lowers.starts_exact (lowers : Lowers lower) (value : Text) :
    Reads lower (escapeLike value ++ ['%']) fun text => lower value <+: lower text := by
  refine fun text => ⟨(lower value).map .char ++ [.any],?_,matchText_starts⟩
  rw [lowers.behind,compile_escapeLike]
  rfl

theorem Lowers.ends_exact (lowers : Lowers lower) (value : Text) :
    Reads lower ('%'::escapeLike value) fun text => lower value <:+ lower text := by
  refine fun text => ⟨.any::(lower value).map .char,?_,matchText_ends⟩
  have whole := compile_escapeLike (lower value) []
  rw [List.append_nil] at whole
  rw [lowers.lead rfl,lowers.escape,compile_any,whole]
  simp [compile_nil]

theorem like_none (pattern : Text) : eval lower none (.like pattern) = some none := rfl

theorem like_some (pattern text : Text) :
    eval lower (some text) (.like pattern) = (compile pattern).map fun signs => some (matchText signs text) := rfl

theorem ilike_none (pattern : Text) : eval lower none (.ilike pattern) = some none := rfl

theorem ilike_some (pattern text : Text) : eval lower (some text) (.ilike pattern) =
    (compile (lower pattern)).map fun signs => some (matchText signs (lower text)) := rfl

theorem kept_none (pattern : Text) : eval lower none (.either .isNull (.notIlike pattern)) = some (some true) := rfl

theorem kept_some (compiled : compile (lower pattern) = some signs) (text : Text) :
    eval lower (some text) (.either .isNull (.notIlike pattern)) = some (some !matchText signs (lower text)) := by
  have held : eval lower (some text) (.notIlike pattern) = some (neg (some (matchText signs (lower text)))) := by
    show (compile (lower pattern)).map _ = _
    rw [compiled]
    rfl
  show ((some (some false)).bind fun one => (eval lower (some text) (.notIlike pattern)).bind fun other => some (Kleene.either one other)) = _
  rw [held]
  cases matchText signs (lower text) <;> rfl

theorem ilike_holds (read : Reads lower pattern Found) :
    eval lower column (.ilike pattern) = some (some true) ↔ ∃ text, column = some text ∧ Found text := by
  cases column with
  | none => simp [ilike_none]
  | some text =>
    obtain ⟨signs,compiled,found⟩ := read text
    simp [ilike_some,compiled,found]

theorem kept_holds (read : Reads lower pattern Found) :
    eval lower column (.either .isNull (.notIlike pattern)) = some (some true) ↔
      ¬∃ text, column = some text ∧ Found text := by
  cases column with
  | none => simp [kept_none]
  | some text =>
    obtain ⟨signs,compiled,found⟩ := read text
    simp [kept_some compiled,← found]

theorem search_literal (lowers : Lowers lower) (value : Text) (column : Option Text) :
    (Holds lower "contains" value column ↔ ∃ text, column = some text ∧ lower value <:+: lower text) ∧
      (Holds lower "starts_with" value column ↔ ∃ text, column = some text ∧ lower value <+: lower text) ∧
      (Holds lower "ends_with" value column ↔ ∃ text, column = some text ∧ lower value <:+ lower text) ∧
      (Holds lower "not_contains" value column ↔ ¬Holds lower "contains" value column) := by
  have contains : Holds lower "contains" value column ↔ ∃ text, column = some text ∧ lower value <:+: lower text :=
    ilike_holds (lowers.contains_exact value)
  refine ⟨contains,ilike_holds (lowers.starts_exact value),ilike_holds (lowers.ends_exact value),?_⟩
  rw [contains]
  exact kept_holds (lowers.contains_exact value)

end

theorem percent_literal :
    Holds (List.map Char.toLower) "contains" ['0','%','_'] (some ['a','1','0','%','_','\\']) ∧
      ¬Holds (List.map Char.toLower) "contains" ['0','%'] (some ['1','0','0']) ∧
      Holds (List.map Char.toLower) "starts_with" ['A','_'] (some ['a','_','1']) ∧
      Holds (List.map Char.toLower) "not_contains" ['%'] none := by
  refine ⟨?_,?_,?_,?_⟩
  · exact (search_literal ascii_lowers _ _).1.mpr ⟨_,rfl,['a','1'],['\\'],rfl⟩
  · rw [(search_literal ascii_lowers _ _).1]
    rintro ⟨text,same,inside⟩
    cases same
    revert inside
    decide
  · exact (search_literal ascii_lowers _ _).2.1.mpr ⟨_,rfl,['1'],rfl⟩
  · rw [(search_literal ascii_lowers _ _).2.2.2,(search_literal ascii_lowers _ _).1]
    rintro ⟨text,same,_⟩
    cases same

end Zveltio.LikePatterns
