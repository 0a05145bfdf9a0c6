import Zveltio.Binary64
import Zveltio.RowRuleAgreement
namespace Zveltio.RowRuleDoor

open Kleene RowRules RowRulePolicy RowRuleAgreement Binary64

-- What the save route asks of a rule.
def emptyStaticList (op source : String) : Option String :=
  if op ≠ "in" ∧ op ≠ "not_in" then none
  else if !startsWith source "static:" then none
  else if (staticList (slice source 7)).length > 0 then none
  else some "the list is empty: `in` would hide every row and `not_in` would exclude nothing"

def numericTypes : List String := ["integer","bigint","smallint","numeric","double precision","real"]

def digitsOnly (chars : List Char) : Bool := chars ≠ [] && chars.all Char.isDigit

-- /^-?\d+(\.\d+)?$/
def numericLiteral (text : String) : Bool :=
  let body := match text.toList with
    | '-'::rest => rest
    | chars => chars
  let whole := body.takeWhile Char.isDigit
  digitsOnly whole && match body.dropWhile Char.isDigit with
    | [] => true
    | '.'::rest => digitsOnly rest
    | _ => false

def asciiLower (text : String) : String := String.ofList (text.toList.map Char.toLower)

-- /^(true|false|t|f|1|0)$/i
def booleanLiteral (text : String) : Bool := asciiLower text ∈ ["true","false","t","f","1","0"]

def hexValue (char : Char) : Option (Fin 16) :=
  if '0' ≤ char ∧ char ≤ '9' then some (Fin.ofNat 16 (char.toNat - 48))
  else if 'a' ≤ char ∧ char ≤ 'f' then some (Fin.ofNat 16 (char.toNat - 87))
  else if 'A' ≤ char ∧ char ≤ 'F' then some (Fin.ofNat 16 (char.toNat - 55))
  else none

-- /^[0-9a-fA-F-]{36}$/
def uuidLiteral (text : String) : Bool :=
  text.toList.length = 36 && text.toList.all fun char => (hexValue char).isSome || char = '-'

def literalOk (pgType item : String) : Bool :=
  if pgType ∈ numericTypes then numericLiteral item
  else if pgType = "boolean" then booleanLiteral item
  else uuidLiteral item

-- The values a rule compares with: a list, or the whole text.
def literals (rule : RowRule) : List String :=
  let raw := slice rule.filterValueSource 7
  if rule.filterOp = "in" ∨ rule.filterOp = "not_in" then staticList raw else [raw]

def knownSource (source : String) : Bool :=
  source = "user_id" || source = "user_email" || source = "user_role" || startsWith source "static:"

def strictly (pgType : String) : Bool := pgType ∈ numericTypes || pgType = "uuid" || pgType = "boolean"

def describeLiterals (rule : RowRule) (pgType : String) : Option String :=
  if !strictly pgType then none
  else if !startsWith rule.filterValueSource "static:" then
    some ("column " ++ rule.filterField ++ " is " ++ pgType ++ ", and " ++ rule.filterValueSource ++
      " is text that will not cast into it")
  else if (literals rule).length = 0 then some "the static list is empty"
  else ((literals rule).find? fun item => !literalOk pgType item).map fun item =>
    "column " ++ rule.filterField ++ " is " ++ pgType ++ ", and " ++ jsonString item ++ " will not cast into it"

def describeRuleProblem (rule : RowRule) (columnTypes : String → Option String) : Option String :=
  if !isIdent rule.filterField then some ("field " ++ jsonString rule.filterField ++ " is not an identifier") else
  match (columnTypes rule.filterField).filter fun pgType => pgType ≠ "" with
  | none => some ("column " ++ rule.filterField ++ " does not exist on the table")
  | some pgType =>
    if pgType ∉ castable then
      some ("column " ++ rule.filterField ++ " is " ++ pgType ++ ", which a setting cannot be cast into safely")
    else if (isRuleOperator rule.filterOp).isNone then
      some ("operator " ++ jsonString rule.filterOp ++ " is not one of eq/neq/in/not_in")
    else if !knownSource rule.filterValueSource then
      some ("value source " ++ jsonString rule.filterValueSource ++ " is not known")
    else (emptyStaticList rule.filterOp rule.filterValueSource).or (describeLiterals rule pgType)

-- A typed column: its values, the database's reading of a literal, and the text of
-- a value in JavaScript. The readings cover what the door lets through.
structure Column where
  Value : Type
  decEq : DecidableEq Value
  cast : String → Option Value
  text : Value → String

def readNatural (chars : List Char) : Option Nat :=
  if digitsOnly chars then some (Nat.ofDigitChars 10 chars 0) else none

def readInteger (text : String) : Option ℤ :=
  match text.toList with
  | '-'::rest => (readNatural rest).map fun value => -(value : ℤ)
  | chars => (readNatural chars).map fun value => (value : ℤ)

def Bounded (bits : Nat) : Type := {value : ℤ // -(2 ^ (bits - 1)) ≤ value ∧ value < 2 ^ (bits - 1)}

-- smallint, integer and bigint: a literal out of range, or with a point, fails.
def integerColumn (bits : Nat) : Column where
  Value := Bounded bits
  decEq := inferInstanceAs (DecidableEq {value : ℤ // -(2 ^ (bits - 1)) ≤ value ∧ value < 2 ^ (bits - 1)})
  cast text := (readInteger text).bind fun value =>
    if fits : -(2 ^ (bits - 1)) ≤ value ∧ value < 2 ^ (bits - 1) then some ⟨value,fits⟩ else none
  text value := numberToString (toNumber value.1)

-- At most 131072 digits before the point and 16383 after it.
def FitsNumeric (value : ℚ) : Prop :=
  |value| < 10 ^ 131072 ∧ ∃ scale ≤ 16383, ∃ digits : ℤ, value = digits / 10 ^ scale

inductive Numeric where
  | nan
  | infinite (negative : Bool)
  | finite (value : ℚ) (fits : FitsNumeric value)
  deriving DecidableEq

def decimal (negative : Bool) (digits scale : Nat) : Option Numeric :=
  let value : ℚ := ((if negative then -(digits : ℤ) else digits : ℤ) : ℚ) / 10 ^ scale
  if bounded : |value| < 10 ^ 131072 ∧ scale ≤ 16383 then
    some (.finite value ⟨bounded.1,scale,bounded.2,_,rfl⟩)
  else none

def readDecimal (text : String) : Option Numeric :=
  let unsigned (negative : Bool) (body : List Char) : Option Numeric :=
    let whole := body.takeWhile Char.isDigit
    match body.dropWhile Char.isDigit with
    | [] => (readNatural whole).bind fun digits => decimal negative digits 0
    | '.'::rest => (readNatural (whole ++ rest)).bind fun digits => decimal negative digits rest.length
    | _ => none
  match text.toList with
  | '-'::rest => unsigned true rest
  | chars => unsigned false chars

def numericColumn : Column where
  Value := Numeric
  decEq := inferInstance
  cast := readDecimal
  text
    | .nan => numberToString .nan
    | .infinite negative => numberToString (.infinite negative)
    | .finite value _ => numberToString (toNumber value)

def booleanColumn : Column where
  Value := Bool
  decEq := inferInstance
  cast text :=
    if asciiLower text ∈ ["true","t","1"] then some true
    else if asciiLower text ∈ ["false","f","0"] then some false
    else none
  text value := if value then "true" else "false"

def Uuid : Type := {digits : List (Fin 16) // digits.length = 32}

-- uuid_in: two digits a byte, and a hyphen may follow every second byte.
def readBytes : Nat → List Char → Option (List (Fin 16))
  | 0,[] => some []
  | left + 1,high::low::rest => do
    let first ← hexValue high
    let second ← hexValue low
    let after := match rest with
      | '-'::more => if left % 2 = 0 ∧ left ≠ 0 then more else rest
      | _ => rest
    return first::second::(← readBytes left after)
  | _,_ => none

def hexChar (digit : Fin 16) : Char := hexDigit digit

def uuidText (digits : List (Fin 16)) : String :=
  let chars := digits.map hexChar
  String.ofList (chars.take 8 ++ ['-'] ++ (chars.drop 8).take 4 ++ ['-'] ++ (chars.drop 12).take 4 ++ ['-'] ++
    (chars.drop 16).take 4 ++ ['-'] ++ chars.drop 20)

def uuidColumn : Column where
  Value := Uuid
  decEq := inferInstanceAs (DecidableEq {digits : List (Fin 16) // digits.length = 32})
  cast text := (readBytes 16 text.toList).bind fun digits =>
    if long : digits.length = 32 then some ⟨digits,long⟩ else none
  text value := uuidText value.1

inductive StrictType where
  | smallint
  | integer
  | bigint
  | numeric
  | boolean
  | uuid
  deriving DecidableEq

def StrictType.name : StrictType → String
  | .smallint => "smallint"
  | .integer => "integer"
  | .bigint => "bigint"
  | .numeric => "numeric"
  | .boolean => "boolean"
  | .uuid => "uuid"

def StrictType.column : StrictType → Column
  | .smallint => integerColumn 16
  | .integer => integerColumn 32
  | .bigint => integerColumn 64
  | .numeric => numericColumn
  | .boolean => booleanColumn
  | .uuid => uuidColumn

-- col op CAST(literal AS type): a literal that does not cast fails the statement.
def sqlKeeps (column : Column) (rule : RowRule) (cell : Option column.Value) : Prop :=
  letI := column.decEq
  ∃ op values, isRuleOperator rule.filterOp = some op ∧ (literals rule).mapM column.cast = some values ∧
    signed op (oneOf cell (values.map some)) = some true

-- Each literal's value prints as a listed literal and nothing else does; or a
-- literal does not cast and the operator keeps no value by its text either.
def Spelled (column : Column) (rule : RowRule) : Prop :=
  (∃ values, (literals rule).mapM column.cast = some values ∧
    (∀ value ∈ values, column.text value ∈ literals rule) ∧
    ∀ value, column.text value ∈ literals rule → value ∈ values) ∨
  (literals rule).mapM column.cast = none ∧
    ∀ value, (column.text value ∈ literals rule ↔ rule.filterOp = "neq" ∨ rule.filterOp = "not_in")

theorem accepted_rule {columnTypes : String → Option String} (type : StrictType)
    (accepted : describeRuleProblem rule columnTypes = none) (typed : columnTypes rule.filterField = some type.name) :
    (∃ op, isRuleOperator rule.filterOp = some op) ∧ startsWith rule.filterValueSource "static:" = true ∧
      literals rule ≠ [] ∧ ∀ item ∈ literals rule, literalOk type.name item = true := by
  have named : (some type.name).filter (fun pgType => pgType ≠ "") = some type.name := by cases type <;> decide
  have known : type.name ∈ castable := by cases type <;> decide
  have strict : strictly type.name = true := by cases type <;> decide
  simp only [describeRuleProblem,typed,named,known,not_true,if_false] at accepted
  split at accepted
  · cases accepted
  · split at accepted
    · cases accepted
    · next operator =>
      split at accepted
      · cases accepted
      · have problems := (Option.or_eq_none_iff.mp accepted).2
        simp only [describeLiterals,strict,Bool.not_true,Bool.false_eq_true,if_false] at problems
        split at problems
        · cases problems
        · next static =>
          split at problems
          · cases problems
          · next some' =>
            refine ⟨?_,by simpa using static,fun empty => some' (by rw [empty]; rfl),?_⟩
            · exact Option.ne_none_iff_exists'.mp (by simpa using operator)
            · simpa using problems

theorem negative_exact (known : isRuleOperator op = some operator) :
    operator.negative = true ↔ op = "neq" ∨ op = "not_in" := by
  unfold isRuleOperator at known
  split at known <;> simp_all [RuleOperator.negative] <;> subst known <;> simp

theorem literals_exact {rule : RowRule} (known : isRuleOperator rule.filterOp = some op) :
    literals rule = if op.list then staticList (slice rule.filterValueSource 7) else [slice rule.filterValueSource 7] := by
  have list : (rule.filterOp = "in" ∨ rule.filterOp = "not_in") ↔ op.list = true := by
    rw [← isList_exact known]
    simp
  simp only [literals,list]

theorem mapM_exact {cast : String → Option α} {texts : List String} (found : texts.mapM cast = some values) :
    values.length = texts.length ∧ ∀ value, value ∈ values ↔ ∃ text ∈ texts, cast text = some value := by
  induction texts generalizing values with
  | nil =>
    cases Option.some.inj found
    simp
  | cons text rest ih =>
    simp only [List.mapM_cons,bind,Option.bind_eq_some_iff,pure,Option.some.injEq] at found
    obtain ⟨first,here,later,there,rfl⟩ := found
    obtain ⟨size,members⟩ := ih there
    refine ⟨by simp [size],fun value => ?_⟩
    simp [members,here,eq_comm]

theorem means_exact (static : startsWith source "static:" = true) (op : RuleOperator) :
    Means lower op source text value ↔
      (text ∈ (if op.list then staticList value else [value]) ↔ op.negative = false) := by
  have sharp := (static_sharp static).1
  cases op <;> simp [Means,fold,items,static,sharp,RuleOperator.list,RuleOperator.negative]
  exact List.forall_mem_ne

theorem memory_exact {lower : String → String} {record : String → Option String} (bound : Bound actor rule)
    (known : isRuleOperator rule.filterOp = some op) (static : startsWith rule.filterValueSource "static:" = true) :
    keepsInMemory lower record (rulesFor lower [rule] actor) ↔
      ∃ text, record rule.filterField = some text ∧ (text ∈ literals rule ↔ op.negative = false) := by
  have shown : keepsInMemory lower record (rulesFor lower [rule] actor) ↔
      Satisfied lower actor (orEq rule.filterOp) rule.filterValueSource (record rule.filterField) := by
    rw [matches_exact]
    have hidden := not_congr (@ruleFilter_exact lower rule actor record)
    simp only [HidesEngine,bound,true_and,not_not,not_exists,not_and] at hidden
    rw [← hidden]
    simp [rulesFor]
  have op_eq : orEq rule.filterOp = rule.filterOp := by
    have present : rule.filterOp ≠ "" := by
      intro empty
      rw [empty] at known
      cases known
    simp [orEq,present]
  rw [shown,op_eq,literals_exact known]
  unfold Satisfied
  rw [static_own static]
  constructor
  · rintro ⟨other,text,value,same,cell,own,means⟩
    cases Option.some.inj (known.symm.trans same)
    cases Option.some.inj own
    refine ⟨text,cell,?_⟩
    exact (means_exact static op).mp means
  · rintro ⟨text,cell,listed⟩
    exact ⟨op,text,_,known,cell,rfl,(means_exact static op).mpr listed⟩

theorem sql_exact {column : Column} {rule : RowRule} {cell : Option column.Value}
    (known : isRuleOperator rule.filterOp = some op) (some' : literals rule ≠ []) : sqlKeeps column rule cell ↔
      ∃ value values, cell = some value ∧ (literals rule).mapM column.cast = some values ∧
        (value ∈ values ↔ op.negative = false) := by
  let decEq := column.decEq
  unfold sqlKeeps
  constructor
  · rintro ⟨other,values,same,cast,kept⟩
    cases Option.some.inj (known.symm.trans same)
    rw [signed_true] at kept
    cases cell with
    | none =>
      have long : values.map some ≠ [] := by
        have size := (mapM_exact cast).1
        intro empty
        simp only [List.map_eq_nil_iff] at empty
        rw [empty] at size
        exact some' (List.length_eq_zero_iff.mp size.symm)
      rw [oneOf_unknown _ long] at kept
      cases kept
    | some value =>
      rw [oneOf_some] at kept
      refine ⟨value,values,rfl,cast,?_⟩
      by_cases member : value ∈ values <;> simp_all
  · rintro ⟨value,values,rfl,cast,listed⟩
    refine ⟨op,values,known,cast,?_⟩
    rw [signed_true,oneOf_some]
    by_cases member : value ∈ values <;> simp_all

theorem iff_of_signs {one other sign : Prop} (same : (one ↔ sign) ↔ (other ↔ sign)) : one ↔ other := by
  by_cases one <;> by_cases other <;> by_cases sign <;> simp_all

theorem readNatural_exact (value : Nat) : readNatural (Nat.toDigits 10 value) = some value := by
  have digits : digitsOnly (Nat.toDigits 10 value) = true := by
    simp only [digitsOnly,ne_eq,Nat.toDigits_ne_nil,not_false_eq_true,decide_true,Bool.true_and,List.all_eq_true]
    intro char member
    exact Nat.isDigit_of_mem_toDigits (by decide) (by decide) member
  rw [readNatural,digits,if_pos rfl,Nat.ofDigitChars_ten_toDigits]

theorem readInteger_exact (value : ℤ) : readInteger (toString value) = some value := by
  rw [Int.toString_eq_repr,Int.repr_eq_if]
  split
  · next above =>
    rw [Nat.repr_eq_ofList_toDigits]
    have unsigned : ∀ rest, Nat.toDigits 10 value.toNat ≠ '-'::rest := by
      intro rest same
      have sign : '-' ∈ Nat.toDigits 10 value.toNat := by simp [same]
      exact absurd (Nat.isDigit_of_mem_toDigits (by decide) (by decide) sign) (by decide)
    unfold readInteger
    rw [String.toList_ofList]
    split
    · next rest same => exact absurd same (unsigned rest)
    · rw [readNatural_exact]
      simp [above]
  · next below =>
    have list : ("-" ++ (-value).toNat.repr).toList = '-'::Nat.toDigits 10 (-value).toNat := by
      rw [String.toList_append,Nat.repr_eq_ofList_toDigits,String.toList_ofList]
      simp
    have back : -((-value).toNat : ℤ) = value := by omega
    simp only [readInteger,list,readNatural_exact,bind,pure,Option.bind_some,Option.map_some,back]

theorem integer_reads {bits : Nat} (narrow : bits ≤ 53) (value : (integerColumn bits).Value) :
    (integerColumn bits).cast ((integerColumn bits).text value) = some value := by
  obtain ⟨value,fits⟩ := value
  have power : (2 : ℤ) ^ (bits - 1) ≤ 2 ^ 52 := pow_le_pow_right₀ (by norm_num) (by omega)
  have small : value.natAbs < 2 ^ 53 := by omega
  simp only [integerColumn,text_exact small,readInteger_exact,Option.bind_some,dif_pos fits]

theorem boolean_reads (value : Bool) : booleanColumn.cast (booleanColumn.text value) = some value := by
  cases value <;> rfl

theorem hexValue_exact (digit : Fin 16) : hexValue (hexChar digit) = some digit := by
  revert digit
  decide

theorem hexChar_digit (digit : Fin 16) : hexChar digit ≠ '-' := by
  revert digit
  decide

theorem byte_exact {high low : Fin 16} {rest : List Char} (after : ∀ more, rest = '-'::more → ¬(left % 2 = 0 ∧ left ≠ 0)) :
    readBytes (left + 1) (hexChar high::hexChar low::rest) = (readBytes left rest).map fun later => high::low::later := by
  simp only [readBytes,hexValue_exact,bind,Option.bind_some,pure]
  split
  · next more =>
    rw [if_neg (after more rfl)]
    cases readBytes left ('-'::more) <;> rfl
  · cases readBytes left rest <;> rfl

theorem hyphen_exact {high low : Fin 16} {rest : List Char} (even : left % 2 = 0) (before : left ≠ 0) :
    readBytes (left + 1) (hexChar high::hexChar low:: '-'::rest) =
      (readBytes left rest).map fun later => high::low::later := by
  simp only [readBytes,hexValue_exact,bind,Option.bind_some,pure,even,before,ne_eq,not_false_eq_true,and_self,if_true]
  cases readBytes left rest <;> rfl

theorem no_hyphen (digits : List (Fin 16)) : ∀ more, digits.map hexChar ≠ '-'::more := by
  intro more same
  cases digits with
  | nil => cases same
  | cons digit _ => exact hexChar_digit digit (List.cons.inj same).1

theorem last_group {digits : List (Fin 16)} (count : Nat) (long : digits.length = 2 * count) :
    readBytes count (digits.map hexChar) = some digits := by
  induction count generalizing digits with
  | zero =>
    rw [List.length_eq_zero_iff.mp long]
    rfl
  | succ count ih =>
    match digits,long with
    | high::low::rest,long =>
      rw [List.map_cons,List.map_cons,byte_exact fun more same => absurd same (no_hyphen rest more),
        ih (by simpa [Nat.mul_succ] using long)]
      rfl

theorem group_exact {digits : List (Fin 16)} (left count : Nat) (long : digits.length = 2 * (count + 1)) (even : left % 2 = 0)
    (before : left ≠ 0) (rest : List Char) :
    readBytes (count + 1 + left) (digits.map hexChar ++ '-'::rest) = (readBytes left rest).map (digits ++ ·) := by
  induction count generalizing digits with
  | zero =>
    match digits,long with
    | [high,low],_ =>
      rw [Nat.add_comm (0 + 1)]
      exact hyphen_exact even before
  | succ count ih =>
    match digits,long with
    | high::low::next::later,long =>
      have unsigned : ∀ more, hexChar next::(later.map hexChar ++ '-'::rest) = '-'::more →
          ¬((count + 1 + left) % 2 = 0 ∧ count + 1 + left ≠ 0) :=
        fun more same => absurd (List.cons.inj same).1 (hexChar_digit next)
      rw [Nat.add_right_comm,List.map_cons,List.map_cons,List.map_cons,List.cons_append,List.cons_append,List.cons_append,
        byte_exact unsigned]
      have tail := @ih (next::later) (by simpa [Nat.mul_succ] using long)
      rw [List.map_cons,List.cons_append] at tail
      rw [tail,Option.map_map]
      rfl

theorem uuid_reads (value : uuidColumn.Value) : uuidColumn.cast (uuidColumn.text value) = some value := by
  obtain ⟨digits,long⟩ := value
  have parts : digits = digits.take 8 ++ ((digits.drop 8).take 4 ++ ((digits.drop 12).take 4 ++
      ((digits.drop 16).take 4 ++ digits.drop 20))) := by
    have step : ∀ from' count, (digits.drop from').take count ++ digits.drop (from' + count) = digits.drop from' := by
      intro from' count
      rw [← List.drop_drop,List.take_append_drop]
    rw [step 16 4,step 12 4,step 8 4,List.take_append_drop]
  have read : readBytes 16 (uuidText digits).toList = some digits := by
    simp only [uuidText,String.toList_ofList,← List.map_take,← List.map_drop,List.append_assoc,List.cons_append,
      List.nil_append]
    rw [group_exact 12 3 (by simp [long]) rfl (by decide),
      group_exact 10 1 (by simp [long]) rfl (by decide),
      group_exact 8 1 (by simp [long]) rfl (by decide),
      group_exact 6 1 (by simp [long]) rfl (by decide),last_group 6 (by simp [long])]
    simp only [Option.map_some,← parts]
  simp only [uuidColumn,read,Option.bind_some,dif_pos long]

-- Where the type reads its own texts back, only the values of a list print as its
-- literals; bigint rounds and numeric drops zeros, so these two do not.
theorem text_reads (type : StrictType) (own : type ≠ .bigint) (exact' : type ≠ .numeric) (value : type.column.Value) :
    type.column.cast (type.column.text value) = some value := by
  cases type with
  | smallint => exact integer_reads (by decide) value
  | integer => exact integer_reads (by decide) value
  | bigint => exact absurd rfl own
  | numeric => exact absurd rfl exact'
  | boolean => exact boolean_reads value
  | uuid => exact uuid_reads value

theorem listed_values {column : Column} {texts : List String} {values : List column.Value} {value : column.Value}
    (reads : ∀ value, column.cast (column.text value) = some value) (cast : texts.mapM column.cast = some values)
    (listed : column.text value ∈ texts) : value ∈ values :=
  ((mapM_exact cast).2 value).mpr ⟨_,listed,reads value⟩

-- The door lets a rule through on which memory and database agree, exactly when its
-- literals are spelled as their values print.
theorem door_agrees {lower : String → String} {columnTypes : String → Option String} (type : StrictType)
    (accepted : describeRuleProblem rule columnTypes = none) (typed : columnTypes rule.filterField = some type.name)
    (bound : Bound actor rule) :
    (∀ (record : String → Option String) (cell : Option type.column.Value),
      record rule.filterField = cell.map type.column.text →
      (keepsInMemory lower record (rulesFor lower [rule] actor) ↔ sqlKeeps type.column rule cell)) ↔
    Spelled type.column rule := by
  obtain ⟨⟨op,known⟩,static,some',_⟩ := accepted_rule type accepted typed
  have negative := negative_exact known
  have reads : ∀ (record : String → Option String) (cell : Option type.column.Value),
      record rule.filterField = cell.map type.column.text →
      ((keepsInMemory lower record (rulesFor lower [rule] actor) ↔ sqlKeeps type.column rule cell) ↔
        ∀ value, cell = some value →
          ((type.column.text value ∈ literals rule ↔ op.negative = false) ↔
            ∃ values, (literals rule).mapM type.column.cast = some values ∧ (value ∈ values ↔ op.negative = false))) := by
    intro record cell here
    rw [memory_exact bound known static,sql_exact known some',here]
    cases cell <;> simp
  constructor
  · intro agree
    have each : ∀ value, _ := fun value => (reads (fun _ => some (type.column.text value)) (some value) rfl).mp
      (agree (fun _ => some (type.column.text value)) (some value) rfl) value rfl
    cases cast : (literals rule).mapM type.column.cast with
    | some values =>
      simp only [cast,Option.some.injEq,exists_eq_left'] at each
      have same : ∀ value, type.column.text value ∈ literals rule ↔ value ∈ values := by
        intro value
        exact iff_of_signs (each value)
      refine .inl ⟨values,cast,fun value member => (same value).mpr member,fun value listed => (same value).mp listed⟩
    | none =>
      refine .inr ⟨cast,fun value => ?_⟩
      have one := each value
      simp only [cast,reduceCtorEq,false_and,exists_false,iff_false] at one
      rw [← negative]
      cases sign : op.negative <;> simp_all
  · rintro (⟨values,cast,own,only⟩ | ⟨cast,texts⟩) record cell here
    · refine (reads record cell here).mpr fun value _ => ?_
      simp only [cast,Option.some.injEq,exists_eq_left']
      have same : type.column.text value ∈ literals rule ↔ value ∈ values := ⟨only value,own value⟩
      rw [same]
    · refine (reads record cell here).mpr fun value _ => ?_
      have one := texts value
      rw [← negative] at one
      simp only [cast,reduceCtorEq,false_and,exists_false,iff_false]
      rw [one]
      cases op.negative <;> simp

def anyone : Identity := ⟨"u1",some "u1@example.org","member",["member"]⟩

def whole (value : ℤ) (fits : -(2 ^ 31) ≤ value ∧ value < 2 ^ 31) : StrictType.integer.column.Value := ⟨value,fits⟩

theorem whole_text (value : ℤ) (fits : -(2 ^ 31) ≤ value ∧ value < 2 ^ 31) :
    StrictType.integer.column.text (whole value fits) = toString value := @text_exact value (by omega)

-- The literal 007 is 7 to the database and another text than 7 in memory.
theorem leading_zeros_differ :
    describeRuleProblem ⟨"*","code","neq","static:007"⟩ (fun _ => some "integer") = none ∧
    ¬∀ (record : String → Option String) (cell : Option StrictType.integer.column.Value),
      record "code" = cell.map StrictType.integer.column.text →
      (keepsInMemory id record (rulesFor id [⟨"*","code","neq","static:007"⟩] anyone) ↔
        sqlKeeps StrictType.integer.column ⟨"*","code","neq","static:007"⟩ cell) := by
  refine ⟨by decide,fun agree => ?_⟩
  have kept : keepsInMemory id (fun _ => some "7") (rulesFor id [⟨"*","code","neq","static:007"⟩] anyone) := by rfl
  obtain ⟨op,values,known,cast,signs⟩ :=
    (agree (fun _ => some "7") (some (whole 7 (by decide))) (congrArg some (whole_text 7 (by decide)).symm)).mp kept
  cases Option.some.inj (known.symm.trans (show _ = some RuleOperator.neq from rfl))
  cases Option.some.inj (cast.symm.trans (show _ = some [whole 7 (by decide)] from rfl))
  exact absurd signs (by decide)

theorem door_agrees_seven :
    describeRuleProblem ⟨"*","code","not_in","static:7, -12"⟩ (fun _ => some "integer") = none ∧
      ∀ cell : Option StrictType.integer.column.Value,
        (keepsInMemory id (fun _ => cell.map StrictType.integer.column.text)
            (rulesFor id [⟨"*","code","not_in","static:7, -12"⟩] anyone) ↔
          sqlKeeps StrictType.integer.column ⟨"*","code","not_in","static:7, -12"⟩ cell) := by
  have cast : (literals ⟨"*","code","not_in","static:7, -12"⟩).mapM StrictType.integer.column.cast =
      some [whole 7 (by decide),whole (-12) (by decide)] := by rfl
  have spelled : Spelled StrictType.integer.column ⟨"*","code","not_in","static:7, -12"⟩ := by
    refine .inl ⟨_,cast,?_,fun value listed => listed_values (text_reads .integer (by decide) (by decide)) cast listed⟩
    simp only [List.forall_mem_cons,whole_text]
    decide
  have accepted : describeRuleProblem ⟨"*","code","not_in","static:7, -12"⟩ (fun _ => some "integer") = none := by decide
  exact ⟨accepted,fun cell => (door_agrees .integer accepted rfl (.inl rfl)).mpr spelled _ _ rfl⟩

end Zveltio.RowRuleDoor
