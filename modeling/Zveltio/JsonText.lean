import Zveltio.Doubles
import Zveltio.JsValues
import Zveltio.SchemaJson
import Zveltio.IpText
namespace Zveltio.JsonText
open Doubles (Number Double Spelling ofDecimal)
open JsValues
open SchemaJson (escape hexDigit colon lineBreak)
open IpText (Text digit)

inductive Scalar where
  | null
  | bool (value : Bool)
  | number (value : Number)
  | string (value : Units)
  deriving DecidableEq

abbrev Json := Data Scalar

-- What a value is once it has been written and read: a zero loses its sign.
def Scalar.plain : Scalar → Scalar
  | .number (.finite double) => .number (.finite double.unsigned)
  | other => other

def Scalar.Finite : Scalar → Prop
  | .number (.infinite _) => False
  | _ => True

def unicodeEscape (unit : UInt16) : Text :=
  ['\\','u',hexDigit (unit.toNat / 4096),hexDigit (unit.toNat / 256 % 16),hexDigit (unit.toNat / 16 % 16),hexDigit (unit.toNat % 16)]

def single (unit : UInt16) : Text :=
  if leading unit || trailing unit then unicodeEscape unit else escape (Char.ofNat unit.toNat)

def escaped : Units → Text
  | [] => []
  | [unit] => single unit
  | high::low::rest =>
    if leading high && trailing low then paired high low::escaped rest else single high ++ escaped (low::rest)

def quote (value : Units) : Text := '\x22'::escaped value ++ ['\x22']

def Number.text : Number → Text
  | .finite double => double.text
  | .infinite _ => "null".toList

def Scalar.text : Scalar → Text
  | .null => "null".toList
  | .bool value => (if value then "true" else "false").toList
  | .number value => Number.text value
  | .string value => quote value

-- JSON.stringify with space spaces for each level.
mutual
def stringify (space depth : Nat) : Json → Text
  | .leaf value => value.text
  | .array [] => "[]".toList
  | .array (first::rest) =>
    '['::lineBreak space (depth + 1) ++ stringify space (depth + 1) first ++ stringifyItems space depth rest ++
      lineBreak space depth ++ [']']
  | .object [] => ['\x7b','\x7d']
  | .object ((key,first)::rest) =>
    '\x7b'::lineBreak space (depth + 1) ++ quote key ++ colon space ++ stringify space (depth + 1) first ++
      stringifyMembers space depth rest ++ lineBreak space depth ++ ['\x7d']

def stringifyItems (space depth : Nat) : List Json → Text
  | [] => []
  | item::rest => ','::lineBreak space (depth + 1) ++ stringify space (depth + 1) item ++ stringifyItems space depth rest

def stringifyMembers (space depth : Nat) : List (Units × Json) → Text
  | [] => []
  | (key,value)::rest =>
    ','::lineBreak space (depth + 1) ++ quote key ++ colon space ++ stringify space (depth + 1) value ++
      stringifyMembers space depth rest
end

-- JSON.parse, part by part; each reader returns what it read and the rest.
def blank (char : Char) : Bool := char = ' ' || char = '\t' || char = '\n' || char = '\x0d'

def skip (text : Text) : Text := text.dropWhile blank

def unitOf (a b c d : Char) : Option UInt16 :=
  if digit a < 16 ∧ digit b < 16 ∧ digit c < 16 ∧ digit d < 16 then
    some (UInt16.ofNat (digit a * 4096 + digit b * 256 + digit c * 16 + digit d))
  else none

def unescaped (char : Char) : Option UInt16 :=
  if char = '\x22' ∨ char = '\\' ∨ char = '/' then some (UInt16.ofNat char.toNat)
  else if char = 'b' then some 8
  else if char = 'f' then some 12
  else if char = 'n' then some 10
  else if char = 'r' then some 13
  else if char = 't' then some 9
  else none

def readString : Text → Option (Units × Text)
  | [] => none
  | '\x22'::rest => some ([],rest)
  | '\\':: 'u'::a::b::c::d::rest => do
    let unit ← unitOf a b c d
    let (later,tail) ← readString rest
    some (unit::later,tail)
  | '\\'::mark::rest => do
    let unit ← unescaped mark
    let (later,tail) ← readString rest
    some (unit::later,tail)
  | char::rest =>
    if char.toNat < 32 ∨ char = '\\' then none
    else do
      let (later,tail) ← readString rest
      some (utf16 char ++ later,tail)

def digits (text : Text) : Text := text.takeWhile Char.isDigit

def readWhole (text : Text) : Option (Text × Text) :=
  let whole := if text.head? = some '0' then ['0'] else digits text
  if whole = [] then none else some (whole,text.drop whole.length)

def readFraction : Text → Option (Text × Text)
  | '.'::rest => if digits rest = [] then none else some (digits rest,rest.drop (digits rest).length)
  | text => some ([],text)

def readSign : Text → Bool × Text
  | '-'::rest => (true,rest)
  | '+'::rest => (false,rest)
  | text => (false,text)

def readPower : Text → Option (Option Int × Text)
  | [] => some (none,[])
  | mark::rest =>
    if mark = 'e' ∨ mark = 'E' then
      let (negative,tail) := readSign rest
      if digits tail = [] then none
      else
        let size : Int := Nat.ofDigitChars 10 (digits tail) 0
        some (some (if negative then -size else size),tail.drop (digits tail).length)
    else some (none,mark::rest)

def readNumber (text : Text) : Option (Number × Text) := do
  let (negative,unsigned) := match text with
    | '-'::rest => (true,rest)
    | _ => (false,text)
  let (whole,rest) ← readWhole unsigned
  let (fraction,rest) ← readFraction rest
  let (power,rest) ← readPower rest
  some (ofDecimal negative (Spelling.value ⟨whole,fraction,power⟩),rest)

-- The fuel bounds the nesting and the length of the text.
mutual
def readValue : Nat → Text → Option (Json × Text)
  | 0,_ => none
  | fuel + 1,text => match skip text with
    | '\x22'::rest => do
      let (value,tail) ← readString rest
      some (.leaf (.string value),tail)
    | '['::rest => match skip rest with
      | ']'::tail => some (.array [],tail)
      | _ => do
        let (items,tail) ← readItems fuel rest
        some (.array items,tail)
    | '\x7b'::rest => match skip rest with
      | '\x7d'::tail => some (.object [],tail)
      | _ => do
        let (members,tail) ← readMembers fuel rest
        some (.object (create members),tail)
    | 'n':: 'u':: 'l':: 'l'::tail => some (.leaf .null,tail)
    | 't':: 'r':: 'u':: 'e'::tail => some (.leaf (.bool true),tail)
    | 'f':: 'a':: 'l':: 's':: 'e'::tail => some (.leaf (.bool false),tail)
    | other => do
      let (number,tail) ← readNumber other
      some (.leaf (.number number),tail)

def readItems : Nat → Text → Option (List Json × Text)
  | 0,_ => none
  | fuel + 1,text => do
    let (item,rest) ← readValue fuel text
    match skip rest with
    | ','::more => do
      let (items,tail) ← readItems fuel more
      some (item::items,tail)
    | ']'::tail => some ([item],tail)
    | _ => none

def readMembers : Nat → Text → Option (List (Units × Json) × Text)
  | 0,_ => none
  | fuel + 1,text => match skip text with
    | '\x22'::named => do
      let (key,rest) ← readString named
      match skip rest with
      | ':'::rest => do
        let (value,rest) ← readValue fuel rest
        match skip rest with
        | ','::more => do
          let (members,tail) ← readMembers fuel more
          some ((key,value)::members,tail)
        | '\x7d'::tail => some ([(key,value)],tail)
        | _ => none
      | _ => none
    | _ => none
end

def parse (text : Text) : Option Json := do
  let (value,rest) ← readValue (text.length + 1) text
  if skip rest = [] then some value else none

end Zveltio.JsonText
