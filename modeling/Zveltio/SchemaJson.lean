import Zveltio.Tables
import Mathlib.Data.List.Sort
namespace Zveltio.SchemaJson
open Tables

-- A number as JSON.stringify writes it.
structure Number where
  text : String
  printed : text ≠ "" ∧ ∀ char ∈ text.toList, char ∈ "+-.0123456789e".toList
  deriving DecidableEq

-- What JSON.parse returns; the members of an object in their own order.
inductive Json where
  | null
  | bool (value : Bool)
  | num (value : Number)
  | str (value : String)
  | arr (items : List Json)
  | obj (members : List (String × Json))

-- Own enumerable keys: those of an array are its indices.
def Json.members : Json → Table String Json
  | .obj members => members
  | .arr items => items.zipIdx.map fun item => (toString item.2,item.1)
  | _ => []

-- A property read; none is undefined.
def Json.get (value : Json) (key : String) : Option Json := value.members.get key

def Json.set (value : Json) (key : String) (item : Json) : Json := .obj (value.members.set key item)

def Json.delete (value : Json) (key : String) : Json := .obj (value.members.delete key)

@[simp] theorem get_obj (members : List (String × Json)) (key : String) : (Json.obj members).get key = Table.get members key := rfl

@[simp] theorem json_get_set (value item : Json) (key other : String) :
    (value.set key item).get other = if other = key then some item else value.get other := get_set value.members key other item

@[simp] theorem json_get_delete (value : Json) (key other : String) :
    (value.delete key).get other = if other = key then none else value.get other := get_delete value.members key other

def Json.isNull : Json → Bool
  | .null => true
  | _ => false

-- value ?? other
def orElse (value : Option Json) (other : Json) : Json := match value with
  | none | some .null => other
  | some held => held

def LEADING_KEYS : List String := ["$schema","name"]

-- The comparator of normalize: leading keys first, every other key sorted.
def keyBefore (a b : String) : Bool :=
  let rank key := if key ∈ LEADING_KEYS then LEADING_KEYS.idxOf key else 99
  if a ∈ LEADING_KEYS ∨ b ∈ LEADING_KEYS then rank a ≤ rank b else a ≤ b

mutual
def normalize : Json → Json
  | .arr items => .arr (normalizeItems items)
  | .obj members => .obj ((normalizeMembers members).insertionSort fun a b => keyBefore a.1 b.1)
  | value => value

def normalizeItems : List Json → List Json
  | [] => []
  | item::rest => normalize item::normalizeItems rest

def normalizeMembers : List (String × Json) → List (String × Json)
  | [] => []
  | (key,value)::rest => if value.isNull then normalizeMembers rest else (key,normalize value)::normalizeMembers rest
end

def hexDigit (digit : Nat) : Char := "0123456789abcdef".toList.getD digit '0'

-- JSON.stringify of one character of a string.
def escape (char : Char) : List Char :=
  if char = '\x22' then ['\x5c','\x22']
  else if char = '\x5c' then ['\x5c','\x5c']
  else if char = '\x08' then ['\x5c','b']
  else if char = '\x0c' then ['\x5c','f']
  else if char = '\n' then ['\x5c','n']
  else if char = '\x0d' then ['\x5c','r']
  else if char = '\t' then ['\x5c','t']
  else if char.toNat < 32 then ['\x5c','u','0','0',hexDigit (char.toNat / 16),hexDigit (char.toNat % 16)]
  else [char]

def quote (text : String) : List Char := '\x22'::text.toList.flatMap escape ++ ['\x22']

def colon (space : Nat) : List Char := if space = 0 then [':'] else [':',' ']

-- The line break before an item: none where JSON.stringify takes no space argument.
def lineBreak (space depth : Nat) : List Char := if space = 0 then [] else '\n'::List.replicate (space * depth) ' '

mutual
def stringify (space depth : Nat) : Json → List Char
  | .null => "null".toList
  | .bool value => (if value then "true" else "false").toList
  | .num value => value.text.toList
  | .str value => quote value
  | .arr [] => "[]".toList
  | .arr (first::rest) =>
    '['::lineBreak space (depth + 1) ++ stringify space (depth + 1) first ++ stringifyItems space depth rest ++ lineBreak space depth ++ [']']
  | .obj [] => ['\x7b','\x7d']
  | .obj ((key,first)::rest) =>
    '\x7b'::lineBreak space (depth + 1) ++ quote key ++ colon space ++ stringify space (depth + 1) first ++
      stringifyMembers space depth rest ++ lineBreak space depth ++ ['\x7d']

def stringifyItems (space depth : Nat) : List Json → List Char
  | [] => []
  | item::rest => ','::lineBreak space (depth + 1) ++ stringify space (depth + 1) item ++ stringifyItems space depth rest

def stringifyMembers (space depth : Nat) : List (String × Json) → List Char
  | [] => []
  | (key,value)::rest =>
    ','::lineBreak space (depth + 1) ++ quote key ++ colon space ++ stringify space (depth + 1) value ++ stringifyMembers space depth rest
end

def serialize (value : Json) : String := String.ofList (stringify 2 0 (normalize value) ++ ['\n'])

def same (a b : Option Json) : Bool := serialize (orElse a .null) = serialize (orElse b .null)

-- String(value), and an element in Array.prototype.join.
mutual
def Json.text : Json → String
  | .null => "null"
  | .bool value => if value then "true" else "false"
  | .num value => value.text
  | .str value => value
  | .arr items => ",".intercalate (itemTexts items)
  | .obj _ => "[object Object]"

def itemTexts : List Json → List String
  | [] => []
  | item::rest => (if item.isNull then "" else item.text)::itemTexts rest
end

def text : Option Json → String
  | none => "undefined"
  | some value => value.text

def shown : Option Json → String
  | none | some .null => "(unset)"
  | some value => String.ofList (stringify 0 0 value)

-- The white space and line ends String.prototype.trim removes.
def blank (char : Char) : Bool :=
  char ∈ ['\t','\n','\x0b','\x0c','\x0d',' ','\u00a0','\u1680','\u2028','\u2029','\u202f','\u205f','\u3000','\ufeff'] ∨
    8192 ≤ char.toNat ∧ char.toNat ≤ 8202

def trim (text : String) : String :=
  String.ofList ((text.toList.dropWhile blank).reverse.dropWhile blank).reverse

def FALSE_DEFAULT_FLAGS : List String := ["required","unique","indexed","encrypted"]

def exportField (field : Json) : Json :=
  FALSE_DEFAULT_FLAGS.foldl (fun out key => match out.get key with
    | some (.bool false) => out.delete key
    | _ => out) (.obj field.members)

theorem get_exportField (field : Json) (plain : key ∉ FALSE_DEFAULT_FLAGS) : (exportField field).get key = field.get key := by
  have keeps : ∀ flags : List String, key ∉ flags → ∀ out : Json, (flags.foldl (fun out key => match out.get key with
      | some (.bool false) => out.delete key
      | _ => out) out).get key = out.get key := by
    intro flags
    induction flags with
    | nil => intros; rfl
    | cons flag rest ih =>
      intro other out
      obtain ⟨here,later⟩ := List.ne_and_not_mem_of_not_mem_cons other
      rw [List.foldl_cons,ih later]
      split
      · rw [json_get_delete,if_neg here]
      · rfl
  exact keeps FALSE_DEFAULT_FLAGS plain _

def memberKey (member : Json) : String := text (member.get "rule") ++ " " ++ trim (serialize (orElse (member.get "config") .null))

end Zveltio.SchemaJson
