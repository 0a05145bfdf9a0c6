import Zveltio.SqlPieces
import Zveltio.Binary64
import Zveltio.Calendar
namespace Zveltio.SqlLiterals

open SqlLexer (ahead tagChar identStart identChar digits number junk fraction exponent decimal based radix)
open SqlTokens SqlNumbers SqlPieces
open Binary64 (layout)
open Calendar (Valid yearOf monthOf dateOf msPerDay)

-- A finite number other than zero as Number::toString reads it: its sign, its
-- significant digits and the place of the point counted from their start.
structure Nonzero where
  negative : Bool
  digits : List Char
  point : Int
  solid : digits ≠ []
  decimal : ∀ char ∈ digits, char.isDigit = true
  lead : digits.head? ≠ some '0'

-- String(-0) is 0.
inductive Number where
  | zero
  | nonzero (value : Nonzero)
  | nonFinite

-- undefined is treated as null, and json is the text JSON.stringify gives for any other value.
inductive Value where
  | null
  | boolean (value : Bool)
  | number (value : Number)
  | bigint (value : Int)
  | date (time : Subtype Valid)
  | buffer (bytes : List UInt8)
  | string (text : List Char)
  | json (text : List Char)

def padded (width value : Nat) : List Char :=
  List.replicate (width - (Nat.toDigits 10 value).length) '0' ++ Nat.toDigits 10 value

def isoYear (year : Int) : List Char :=
  if 0 ≤ year ∧ year ≤ 9999 then padded 4 year.toNat
  else (if year < 0 then '-' else '+')::padded 6 year.natAbs

def toISOString (time : Int) : List Char :=
  let day := time / msPerDay
  let within := (time % msPerDay).toNat
  isoYear (yearOf day) ++ '-'::padded 2 (monthOf day + 1) ++ '-'::padded 2 (dateOf day) ++
    'T'::padded 2 (within / 3600000) ++ ':'::padded 2 (within / 60000 % 60) ++ ':'::padded 2 (within / 1000 % 60) ++
    '.'::padded 3 (within % 1000) ++ ['Z']

def hex (bytes : List UInt8) : List Char :=
  bytes.flatMap fun byte => [Nat.digitChar (byte.toNat / 16),Nat.digitChar (byte.toNat % 16)]

def doubled (text : List Char) : List Char := text.flatMap fun char => if char = '\'' then ['\'','\''] else [char]

def enclosed (text : List Char) : List Char := '\''::text ++ ['\'']

def signed (negative : Bool) (text : List Char) : List Char := if negative then '-'::text else text

def quoteLiteral : Value → List Char
  | .null => ['N','U','L','L']
  | .boolean true => ['T','R','U','E']
  | .boolean false => ['F','A','L','S','E']
  | .number .zero => ['0']
  | .number (.nonzero value) => signed value.negative (layout value.digits value.point).toList
  | .number .nonFinite => enclosed (doubled ['n','u','l','l'])
  | .bigint value => signed (value < 0) (Nat.toDigits 10 value.natAbs)
  | .date time => enclosed (toISOString time.val)
  | .buffer bytes => enclosed ('\\':: 'x'::hex bytes)
  | .string text => enclosed (doubled text)
  | .json text => enclosed (doubled text)

-- The literal as PostgreSQL reads it.
inductive Shape where
  | word (chars : List Char)
  | number (negative : Bool) (chars : List Char)
  | quoted (chars : List Char)

theorem Shape.forms {motive : Shape → Prop} (word : ∀ chars, motive (.word chars)) (plain : ∀ chars, motive (.number false chars))
    (negative : ∀ chars, motive (.number true chars)) (quoted : ∀ chars, motive (.quoted chars)) (shape : Shape) : motive shape := by
  cases shape with
  | word chars => exact word chars
  | number sign chars =>
    cases sign with
    | false => exact plain chars
    | true => exact negative chars
  | quoted chars => exact quoted chars

def Value.shape : Value → Shape
  | .null => .word ['N','U','L','L']
  | .boolean true => .word ['T','R','U','E']
  | .boolean false => .word ['F','A','L','S','E']
  | .number .zero => .number false ['0']
  | .number (.nonzero value) => .number value.negative (layout value.digits value.point).toList
  | .number .nonFinite => .quoted (doubled ['n','u','l','l'])
  | .bigint value => .number (value < 0) (Nat.toDigits 10 value.natAbs)
  | .date time => .quoted (toISOString time.val)
  | .buffer bytes => .quoted ('\\':: 'x'::hex bytes)
  | .string text => .quoted (doubled text)
  | .json text => .quoted (doubled text)

def minus : Piece := ⟨.operator,['-']⟩

def Shape.pieces : Shape → List Piece
  | .word chars => [⟨.word,chars⟩]
  | .number true chars => [minus,⟨.number,chars⟩]
  | .number false chars => [⟨.number,chars⟩]
  | .quoted chars => [⟨.constant .standard,enclosed chars⟩]

theorem shape_text (value : Value) : texts value.shape.pieces = quoteLiteral value := by
  have numbers (negative : Bool) (chars : List Char) : texts (Shape.number negative chars).pieces = signed negative chars := by
    cases negative <;> simp [Shape.pieces,minus,signed]
  unfold Value.shape quoteLiteral
  split <;> first
    | exact numbers ..
    | simp [Shape.pieces]

-- What the quotes enclose holds its quotes in pairs.
inductive Paired : List Char → Prop where
  | nil : Paired []
  | plain : char ≠ '\'' → Paired rest → Paired (char::rest)
  | double : Paired rest → Paired ('\'':: '\''::rest)

theorem Paired.single (all : ∀ char ∈ chars, char ≠ '\'') : Paired chars := by
  induction chars with
  | nil => exact .nil
  | cons char rest ih => exact .plain (all char (List.mem_cons_self ..)) (ih fun other member => all other (List.mem_cons_of_mem _ member))

theorem doubled_paired (text : List Char) : Paired (doubled text) := by
  induction text with
  | nil => exact .nil
  | cons char rest ih =>
    by_cases quote : char = '\''
    · subst quote
      exact .double ih
    · have step : doubled (char::rest) = char::doubled rest := by simp [doubled,quote]
      rw [step]
      exact .plain quote ih

theorem digits_plain {chars : List Char} (all : ∀ char ∈ chars, char.isDigit = true) : ∀ char ∈ chars, char ≠ '\'' := by
  rintro _ member rfl
  exact absurd (all _ member) (by decide)

theorem padded_digits (width value : Nat) : ∀ char ∈ padded width value, char.isDigit = true := by
  intro char member
  rcases List.mem_append.mp member with zero | digit
  · rw [List.eq_of_mem_replicate zero]
    decide
  · exact Nat.isDigit_of_mem_toDigits (by decide) (by decide) digit

theorem toISOString_plain (time : Int) : ∀ char ∈ toISOString time, char ≠ '\'' := by
  have part (width value : Nat) : ∀ char ∈ padded width value, char ≠ '\'' := digits_plain (padded_digits width value)
  have year : ∀ char ∈ isoYear (yearOf (time / msPerDay)), char ≠ '\'' := by
    unfold isoYear
    split
    · exact part _ _
    · split <;> simpa using part _ _
  unfold toISOString
  simp only [List.cons_append,List.append_assoc,List.forall_mem_append,List.forall_mem_cons,ne_eq]
  refine ⟨year,by decide,part _ _,by decide,part _ _,by decide,part _ _,by decide,part _ _,by decide,part _ _,by decide,part _ _,by decide,by simp⟩

theorem hex_plain (bytes : List UInt8) : ∀ char ∈ hex bytes, char ≠ '\'' := by
  have each : ∀ digit < 16, Nat.digitChar digit ≠ '\'' := by decide
  intro char member
  obtain ⟨byte,_,inside⟩ := List.mem_flatMap.mp member
  have small := byte.toNat_lt
  rcases List.mem_pair.mp inside with rfl | rfl
  · exact each _ (by omega)
  · exact each _ (by omega)

def Fraction (text : List Char) : Prop :=
  text = [] ∨ ∃ digits, text = '.'::digits ∧ digits ≠ [] ∧ ∀ char ∈ digits, char.isDigit = true

def Power (text : List Char) : Prop :=
  text = [] ∨ ∃ mark digits, text = 'e'::mark::digits ∧ (mark = '+' ∨ mark = '-') ∧ digits ≠ [] ∧ ∀ char ∈ digits, char.isDigit = true

theorem digits_whole {chars rest : List Char} (all : ∀ char ∈ chars, char.isDigit = true) (follow : digitFollow Char.isDigit rest) :
    digits Char.isDigit (chars ++ rest) = (chars,rest) := by
  induction chars with
  | nil => exact digits_none follow
  | cons char chars ih =>
    obtain ⟨first,later⟩ := List.forall_mem_cons.mp all
    rw [List.cons_append,digits_cons (plain_digit first).1,if_pos first,ih later]
    rfl

theorem exponent_power (power : Power text) : exponent text = (text,[]) := by
  rcases power with rfl | ⟨mark,digits',rfl,marked,some',all⟩
  · rfl
  · obtain ⟨digit,more,rfl⟩ := List.exists_cons_of_ne_nil some'
    have first : digit.isDigit = true := all digit (List.mem_cons_self ..)
    have signs : [mark] = [] ∨ [mark] = ['+'] ∨ [mark] = ['-'] := by rcases marked with rfl | rfl <;> simp
    have read := exponent_digits (Or.inl (rfl : 'e' = 'e')) signs first more
    have ends : digitFollow Char.isDigit [] := by simp [digitFollow]
    have whole := digits_whole all ends
    rw [List.append_nil] at whole
    rw [whole] at read
    simpa [ahead] using read

theorem power_follow (power : Power text) : digitFollow Char.isDigit text ∧ text.head? ≠ some '.' := by
  rcases power with rfl | ⟨mark,digits',rfl,_⟩
  · simp [digitFollow]
  · simp [digitFollow]

theorem fraction_read (part : Fraction text) (power : Power rest) : fraction (text ++ rest) = (text,rest) := by
  obtain ⟨follow,point⟩ := power_follow power
  rcases part with rfl | ⟨digits',rfl,some',all⟩
  · exact fraction_none fun first => absurd first point
  · obtain ⟨digit,more,rfl⟩ := List.exists_cons_of_ne_nil some'
    have first : digit.isDigit = true := all digit (List.mem_cons_self ..)
    have whole := digits_whole all follow
    rw [List.cons_append] at whole
    rw [List.cons_append,List.cons_append,fraction_digits first,whole]
    rfl

theorem fraction_follow (part : Fraction text) (power : Power rest) : digitFollow Char.isDigit (text ++ rest) := by
  rcases part with rfl | ⟨digits',rfl,_⟩
  · exact (power_follow power).1
  · simp [digitFollow]

theorem decimal_read (all : ∀ char ∈ whole, char.isDigit = true) (part : Fraction text) (power : Power rest) :
    decimal (whole ++ (text ++ rest)) = (whole ++ (text ++ rest),[]) := by
  simp only [decimal,digits_whole all (fraction_follow part power),fraction_read part power,exponent_power power,ahead,
    List.append_assoc]

-- A numeral is one number, ends in a digit and has no letter in its last run of digits.
structure Numeral (chars : List Char) : Prop where
  first : ∃ digit rest, chars = digit::rest ∧ digit.isDigit = true
  read : number chars = (chars,[])
  last : chars.getLast? ≠ some '.'
  tail : (chars.reverse.takeWhile tagChar).any identStart = false

theorem radix_digit {char : Char} (plain : char.isDigit = true ∨ char = '.' ∨ char = 'e') : radix char = none := by
  by_contra found
  obtain ⟨digit,kind⟩ := Option.ne_none_iff_exists'.mp found
  obtain ⟨_,_,other,_,point,small,_⟩ := radix_plain kind
  rcases plain with held | held | held
  · exact absurd (held.symm.trans other) (by decide)
  · exact point held
  · exact small held

theorem trailing_digits {before digits' : List Char} (all : ∀ char ∈ digits', char.isDigit = true)
    (ends : ∀ char ∈ before.getLast?, tagChar char = false) :
    ((before ++ digits').reverse.takeWhile tagChar).any identStart = false := by
  have stops : ∀ char ∈ before.reverse.head?, tagChar char = false := by
    rw [List.head?_reverse]
    exact ends
  have tags : ∀ char ∈ digits'.reverse, tagChar char = true :=
    fun char member => SqlLexer.digit_tag (all char (List.mem_reverse.mp member))
  rw [List.reverse_append,(span_stable tags stops).1]
  refine List.any_eq_false.mpr fun char member => ?_
  simp [digit_start (all char (List.mem_reverse.mp member))]

theorem numeral_parts (some' : whole ≠ []) (all : ∀ char ∈ whole, char.isDigit = true) (part : Fraction text) (power : Power rest) :
    Numeral (whole ++ (text ++ rest)) := by
  obtain ⟨digit,more,rfl⟩ := List.exists_cons_of_ne_nil some'
  have none' : based (digit::more ++ (text ++ rest)) = none := by
    refine based_none fun mark later same => radix_digit ?_
    rw [List.cons_append] at same
    obtain ⟨_,behind⟩ := List.cons.inj same
    cases more with
    | cons second more =>
      obtain ⟨rfl,_⟩ := List.cons.inj behind
      exact .inl (all second (by simp))
    | nil =>
      rcases part with rfl | ⟨digits',rfl,_⟩
      · rcases power with rfl | ⟨_,_,rfl,_⟩
        · cases behind
        · exact .inr (.inr (List.cons.inj behind).1.symm)
      · exact .inr (.inl (List.cons.inj behind).1.symm)
  have last (before digits' : List Char) (some' : digits' ≠ []) (all : ∀ char ∈ digits', char.isDigit = true) :
      (before ++ digits').getLast? ≠ some '.' := by
    intro ends
    have member := List.mem_of_getLast? (SqlLexer.last_tail before some' ends)
    exact absurd (all '.' member) (by decide)
  have tails : ∃ before digits', digit::more ++ (text ++ rest) = before ++ digits' ∧ digits' ≠ [] ∧
      (∀ char ∈ digits', char.isDigit = true) ∧ ∀ char ∈ before.getLast?, tagChar char = false := by
    rcases power with rfl | ⟨mark,digits',rfl,marked,solid,digit'⟩
    · rcases part with rfl | ⟨digits',rfl,solid,digit'⟩
      · exact ⟨[],digit::more,by simp,some',all,by simp⟩
      · refine ⟨digit::more ++ ['.'],digits',by simp,solid,digit',?_⟩
        rw [List.getLast?_append]
        rintro _ ⟨⟩
        decide
    · refine ⟨digit::more ++ text ++ ['e',mark],digits',by simp,solid,digit',?_⟩
      rw [List.getLast?_append]
      rintro _ ⟨⟩
      rcases marked with rfl | rfl <;> decide
  obtain ⟨before,digits',same,solid,digit',ends⟩ := tails
  refine ⟨⟨digit,_,rfl,all digit (by simp)⟩,?_,?_,?_⟩
  · rw [number,none',Option.getD_none,decimal_read all part power]
  · rw [same]
    exact last before digits' solid digit'
  · rw [same]
    exact trailing_digits digit' ends

theorem numeral_digits (some' : chars ≠ []) (all : ∀ char ∈ chars, char.isDigit = true) : Numeral chars := by
  have read := numeral_parts some' all (.inl rfl) (.inl rfl)
  rwa [List.append_nil,List.append_nil] at read

theorem repr_digits (value : Nat) : ∀ char ∈ value.repr.toList, char.isDigit = true := by
  rw [Nat.repr_eq_ofList_toDigits,String.toList_ofList]
  exact fun char member => Nat.isDigit_of_mem_toDigits (by decide) (by decide) member

theorem repr_solid (value : Nat) : value.repr.toList ≠ [] := by
  rw [Nat.repr_eq_ofList_toDigits,String.toList_ofList]
  exact Nat.toDigits_ne_nil

theorem layout_numeral {digits' : List Char} (some' : digits' ≠ []) (all : ∀ char ∈ digits', char.isDigit = true) (point : Int) :
    Numeral (layout digits' point).toList := by
  have zeros (count : Nat) : ∀ char ∈ List.replicate count '0', char.isDigit = true := by
    intro char member
    rw [List.eq_of_mem_replicate member]
    decide
  unfold layout
  dsimp only
  split
  · rw [String.toList_ofList]
    refine numeral_digits (by simp [some']) ?_
    exact List.forall_mem_append.mpr ⟨all,zeros _⟩
  · next long =>
    split
    · next within =>
      have count : point.toNat < digits'.length := by omega
      rw [String.toList_ofList,List.append_assoc]
      have before : digits'.take point.toNat ≠ [] := by
        intro none'
        have size := congrArg List.length none'
        simp only [List.length_take,List.length_nil] at size
        omega
      have behind : digits'.drop point.toNat ≠ [] := by
        intro none'
        have size := congrArg List.length none'
        simp only [List.length_drop,List.length_nil] at size
        omega
      have read := numeral_parts before (fun char member => all char (List.mem_of_mem_take member))
        (.inr ⟨_,rfl,behind,fun char member => all char (List.mem_of_mem_drop member)⟩) (.inl rfl)
      rwa [List.append_nil] at read
    · split
      · rw [String.toList_ofList]
        have behind : List.replicate (-point).toNat '0' ++ digits' ≠ [] := by simp [some']
        have read := numeral_parts (List.cons_ne_nil '0' []) (each_char (by decide))
          (.inr ⟨_,rfl,behind,List.forall_mem_append.mpr ⟨zeros _,all⟩⟩) (.inl rfl)
        simpa using read
      · have power (mark : Char) (marked : mark = '+' ∨ mark = '-') : Power ('e'::mark::(point - 1).natAbs.repr.toList) :=
          .inr ⟨mark,_,rfl,marked,repr_solid _,repr_digits _⟩
        obtain ⟨first,more,rfl⟩ := List.exists_cons_of_ne_nil some'
        obtain ⟨lead,later⟩ := List.forall_mem_cons.mp all
        have one : ∀ char ∈ [first], char.isDigit = true := by simpa using lead
        obtain ⟨mark,marked,sign⟩ : ∃ mark : Char, (mark = '+' ∨ mark = '-') ∧
            (if 0 < point - 1 then "+" else "-").toList = [mark] := by
          split
          · exact ⟨'+',.inl rfl,rfl⟩
          · exact ⟨'-',.inr rfl,rfl⟩
        simp only [String.toList_append,sign]
        cases more with
        | nil =>
          have read := numeral_parts (List.cons_ne_nil first []) one (.inl rfl) (power mark marked)
          simpa using read
        | cons second more =>
          have read := numeral_parts (List.cons_ne_nil first []) one (.inr ⟨second::more,rfl,by simp,later⟩) (power mark marked)
          simpa using read

def Shape.last : Shape → Piece
  | .word chars => ⟨.word,chars⟩
  | .number _ chars => ⟨.number,chars⟩
  | .quoted chars => ⟨.constant .standard,enclosed chars⟩

def Shape.Valid : Shape → Prop
  | .word chars => chars ∈ [['N','U','L','L'],['T','R','U','E'],['F','A','L','S','E']]
  | .number _ chars => Numeral chars
  | .quoted chars => Paired chars

theorem shape_valid (value : Value) : value.shape.Valid := by
  unfold Value.shape
  split
  · simp [Shape.Valid]
  · simp [Shape.Valid]
  · simp [Shape.Valid]
  · exact numeral_digits (by simp) (each_char (by decide))
  · next value => exact layout_numeral value.solid value.decimal value.point
  · exact doubled_paired _
  · exact numeral_digits Nat.toDigits_ne_nil fun char member => Nat.isDigit_of_mem_toDigits (by decide) (by decide) member
  · exact .single (toISOString_plain _)
  · next bytes =>
    refine .single ?_
    simpa using hex_plain bytes
  · exact doubled_paired _
  · exact doubled_paired _

theorem closing_paired (paired : Paired chars) : closing .standard (chars ++ ['\'']) = some (chars ++ ['\''],[]) := by
  induction paired with
  | nil => rfl
  | @plain char rest quote paired ih =>
    by_cases back : char = '\\'
    · subst back
      cases rest with
      | nil => rfl
      | cons next rest =>
        rw [List.cons_append,List.cons_append,closing,if_neg (by decide),← List.cons_append,ih]
        rfl
    · rw [List.cons_append,closing_plain quote back,ih]
      rfl
  | double paired ih =>
    rw [List.cons_append,List.cons_append,closing,if_neg (by decide),ih]
    rfl

theorem digit_opening {char : Char} (digit : char.isDigit = true) (rest : List Char) : opening (char::rest) = none := by
  refine opening_none ?_ rest
  intro member
  have each : ∀ char ∈ openers, char.isDigit = false := each_char (by decide)
  exact absurd ((each char member).symm.trans digit) (by decide)

theorem digit_kind {char : Char} (digit : char.isDigit = true) (rest : List Char) : plainKind char rest = .number := by
  have blank : SqlLexer.space char = false := by
    by_contra held
    have apart := (SqlLexer.space_plain (by simpa using held)).1
    exact absurd ((SqlLexer.digit_tag digit).symm.trans apart) (by decide)
  have dollar : char ≠ '$' := by
    rintro rfl
    exact absurd digit (by decide)
  rw [plainKind,if_neg (by simp [blank]),if_neg dollar,if_pos (.inl digit)]

theorem last_next {shape : Shape} (valid : shape.Valid) : next shape.last.chars = some (shape.last,[]) := by
  cases shape with
  | word chars =>
    have each : ∀ chars ∈ [['N','U','L','L'],['T','R','U','E'],['F','A','L','S','E']], next chars = some (⟨.word,chars⟩,[]) := by
      decide
    exact each chars valid
  | number negative chars =>
    obtain ⟨digit,rest,rfl,first⟩ := valid.first
    have split : plainSplit digit rest .number = some (digit::rest,[]) := by
      rw [plainSplit,valid.read,unjunked,if_neg (by simp [junk])]
    exact next_plain (digit_opening first rest) (digit_kind first rest) split
  | quoted chars =>
    have opened : opening (enclosed chars) = some (['\''],.constant .standard) := by
      simp [enclosed,opening,openings,List.isPrefixOf]
    have closed : constant .standard (chars ++ ['\'']).length (chars ++ ['\'']) = some (chars ++ ['\''],[]) := by
      rw [List.length_append,List.length_singleton,constant,closing_paired valid]
      rfl
    have read : body ((enclosed chars).drop 1) (.constant .standard) = some (chars ++ ['\''],[]) := closed
    simp only [next,opened,Shape.last,List.length_singleton,read,Option.map_some]
    rfl

theorem minus_next {char : Char} (digit : char.isDigit = true) (rest : List Char) : next ('-'::char::rest) = some (minus,char::rest) := by
  have dash : char ≠ '-' := by
    rintro rfl
    exact absurd digit (by decide)
  have operator : opChar char = false := by
    have each : ∀ code < 128, (Char.ofNat code).isDigit = true → opChar (Char.ofNat code) = false := by decide +kernel
    have range : char.toNat ≤ 57 := of_decide_eq_true ((Bool.and_eq_true ..).mp digit).2
    have held := each char.toNat (by omega)
    rw [Char.ofNat_toNat] at held
    exact held digit
  have alone : operatorAt ('-'::char::rest) = ['-'] := by
    have run : ('-'::char::rest).takeWhile opChar = ['-'] := by
      rw [List.takeWhile_cons_of_pos (by decide),List.takeWhile_cons_of_neg (by simp [operator])]
    rw [operatorAt,run]
    rfl
  have none' : opening ('-'::char::rest) = none := by
    refine (opening_operator (by decide)).mpr ?_
    rintro (⟨_,wrong⟩ | ⟨wrong,_⟩)
    · exact dash (Option.some.inj wrong)
    · exact absurd wrong (by decide)
  have kind : plainKind '-' (char::rest) = .operator := by
    rw [plainKind,if_neg (by decide),if_neg (by decide),if_neg (by simp),if_neg (by decide),if_pos (by decide)]
  have split : plainSplit '-' (char::rest) .operator = some (['-'],char::rest) := by
    simp only [plainSplit,alone]
    rfl
  exact next_plain none' kind split

theorem shape_read {shape : Shape} (valid : shape.Valid) :
    Lexed (texts shape.pieces ++ rest) (shape.pieces ++ later) ↔ follow shape.last rest ∧ Lexed rest later := by
  have last : Lexed (shape.last.chars ++ rest) (shape.last::later) ↔ follow shape.last rest ∧ Lexed rest later :=
    piece_exact (last_next valid)
  cases shape with
  | word chars => simpa [Shape.pieces,Shape.last] using last
  | quoted chars => simpa [Shape.pieces,Shape.last] using last
  | number negative chars =>
    cases negative with
    | false => simpa [Shape.pieces,Shape.last] using last
    | true =>
      obtain ⟨digit,more,rfl,first⟩ := valid.first
      have whole : texts (Shape.number true (digit::more)).pieces ++ rest = '-'::digit::(more ++ rest) := by
        simp [Shape.pieces,minus]
      rw [whole]
      exact (Lexed.step (minus_next first (more ++ rest))).trans last

theorem literal_exact (value : Value) :
    Lexed (quoteLiteral value ++ rest) (value.shape.pieces ++ later) ↔ follow value.shape.last rest ∧ Lexed rest later := by
  rw [← shape_text]
  exact shape_read (shape_valid value)

end Zveltio.SqlLiterals
