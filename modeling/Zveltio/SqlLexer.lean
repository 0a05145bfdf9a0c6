import Mathlib.Data.List.Infix
import Mathlib.Data.List.TakeWhile
namespace Zveltio.SqlLexer

-- PostgreSQL's lexer (scan.l), as far as it tells code from comments and constants.
-- A scan splits its text into what it reads and the rest.
def ahead (chars : List Char) (split : List Char × List Char) : List Char × List Char := (chars ++ split.1,split.2)

def newline (char : Char) : Bool := char = '\n' || char = '\r'

def space (char : Char) : Bool := newline char || char ∈ [' ','\t',Char.ofNat 12,Char.ofNat 11]

-- A byte from 0x80 on belongs to an identifier.
def identStart (char : Char) : Bool := char.isAlpha || char = '_' || 128 ≤ char.toNat

def tagChar (char : Char) : Bool := identStart char || char.isDigit

def identChar (char : Char) : Bool := tagChar char || char = '$'

-- xc: comments nest.
def comment : Nat → List Char → List Char × List Char
  | 0,'*':: '/'::rest => (['*','/'],rest)
  | depth + 1,'*':: '/'::rest => ahead ['*','/'] (comment depth rest)
  | depth,'/':: '*'::rest => ahead ['/','*'] (comment (depth + 1) rest)
  | depth,char::rest => ahead [char] (comment depth rest)
  | _,[] => ([],[])

-- xd: a doubled quote stays inside.
def identifier : List Char → List Char × List Char
  | '"':: '"'::rest => ahead ['"','"'] (identifier rest)
  | '"'::rest => (['"'],rest)
  | char::rest => ahead [char] (identifier rest)
  | [] => ([],[])

def segment (escapes : Bool) : List Char → List Char × List Char
  | '\'':: '\''::rest => ahead ['\'','\''] (segment escapes rest)
  | '\''::rest => (['\''],rest)
  | '\\'::char::rest =>
    if escapes then ahead ['\\',char] (segment escapes rest) else ahead ['\\'] (segment escapes (char::rest))
  | char::rest => ahead [char] (segment escapes rest)
  | [] => ([],[])

-- quotecontinue: white space and line comments with a newline among them, then a quote.
def gap (inComment seen : Bool) : List Char → Option (List Char × List Char)
  | [] => none
  | char::rest =>
    if newline char then (gap false true rest).map (ahead [char])
    else if inComment then (gap true seen rest).map (ahead [char])
    else if space char then (gap false seen rest).map (ahead [char])
    else if char = '-' ∧ rest.head? = some '-' then (gap true seen rest).map (ahead [char])
    else if char = '\'' ∧ seen = true then some ([],char::rest)
    else none

-- A constant from behind its opening quote, with the segments that continue it.
def constant (escapes : Bool) : Nat → List Char → List Char × List Char
  | 0,text => segment escapes text
  | fuel + 1,text =>
    match gap false false (segment escapes text).2 with
    | some (between,quote::rest) => ahead ((segment escapes text).1 ++ between ++ [quote]) (constant escapes fuel rest)
    | _ => segment escapes text

-- Where the later segments of an escape constant begin.
def continued : Nat → List Char → List (List Char)
  | 0,_ => []
  | fuel + 1,text =>
    match gap false false (segment true text).2 with
    | some (_,_::rest) => rest::continued fuel rest
    | _ => []

-- dolqdelim, with what follows it.
def delimiter : List Char → Option (List Char × List Char)
  | '$'::rest =>
    let name := rest.takeWhile tagChar
    match rest.dropWhile tagChar with
    | '$'::after => if name.head?.all identStart then some ('$'::name ++ ['$'],after) else none
    | _ => none
  | _ => none

-- xdolq ends at the first delimiter that is the opening one.
def through (tag : List Char) : List Char → List Char × List Char
  | [] => ([],[])
  | char::rest =>
    if tag.isPrefixOf (char::rest) then (tag,(char::rest).drop tag.length) else ahead [char] (through tag rest)

def digits (digit : Char → Bool) : List Char → List Char × List Char
  | [] => ([],[])
  | '_'::char::rest => if digit char then ahead ['_',char] (digits digit rest) else ([],'_'::char::rest)
  | char::rest => if digit char then ahead [char] (digits digit rest) else ([],char::rest)

def hexDigit (char : Char) : Bool := char.isDigit || char ∈ ['a','b','c','d','e','f','A','B','C','D','E','F']

def octDigit (char : Char) : Bool := '0' ≤ char && char ≤ '7'

def radix (char : Char) : Option (Char → Bool) :=
  if char ∈ ['x','X'] then some hexDigit
  else if char ∈ ['o','O'] then some octDigit
  else if char ∈ ['b','B'] then some fun digit => digit = '0' || digit = '1'
  else none

-- 1..2 is a range, not a number with a point.
def fraction (text : List Char) : List Char × List Char :=
  if text.head? = some '.' ∧ text.tail.head? ≠ some '.' then
    if text.tail.head?.any Char.isDigit then ahead ['.'] (digits Char.isDigit text.tail) else (['.'],text.tail)
  else ([],text)

def exponent : List Char → List Char × List Char
  | mark::sign::rest =>
    if mark = 'e' ∨ mark = 'E' then
      if sign.isDigit then ahead [mark] (digits Char.isDigit (sign::rest))
      else if (sign = '+' ∨ sign = '-') ∧ rest.head?.any Char.isDigit then ahead [mark,sign] (digits Char.isDigit rest)
      else ([],mark::sign::rest)
    else ([],mark::sign::rest)
  | text => ([],text)

def decimal (text : List Char) : List Char × List Char :=
  let whole := digits Char.isDigit text
  let point := fraction whole.2
  ahead (whole.1 ++ point.1) (exponent point.2)

-- An integer in another base, where at least one digit follows.
def based : List Char → Option (List Char × List Char)
  | '0'::mark::rest => (radix mark).bind fun digit =>
    let value := digits digit rest
    if value.1 = [] then none else some (ahead ['0',mark] value)
  | _ => none

def number (text : List Char) : List Char × List Char := (based text).getD (decimal text)

structure Lexeme where
  code : Bool
  chars : List Char
  rest : List Char

-- A name directly behind a number or a parameter is an error; a letter or an underscore
-- of the number itself (1_0, 0x1, 1e5) may begin the name.
def junk (split : List Char × List Char) : Bool :=
  split.2.head?.any identStart || split.2.head?.any identChar && (split.1.reverse.takeWhile tagChar).any identStart

def outside (split : List Char × List Char) : Option Lexeme := some ⟨false,split.1,split.2⟩

def inside (split : List Char × List Char) : Option Lexeme := some ⟨true,split.1,split.2⟩

def unjunked (split : List Char × List Char) : Option Lexeme := if junk split then none else inside split

-- The next lexeme. An operator ends before the first -- or /* in it, so its characters
-- may be read singly. N'', B'', X'' and U&'' take no backslashes: letter and constant
-- are read apart.
def lexeme : List Char → Option Lexeme
  | [] => none
  | char::rest =>
    if char = '-' ∧ rest.head? = some '-' then
      outside (char::rest.takeWhile fun char => !newline char,rest.dropWhile fun char => !newline char)
    else if char = '/' ∧ rest.head? = some '*' then outside (ahead ['/','*'] (comment 0 rest.tail))
    else if char = '\'' then outside (ahead [char] (constant false rest.length rest))
    else if (char = 'e' ∨ char = 'E') ∧ rest.head? = some '\'' then
      outside (ahead [char,'\''] (constant true rest.length rest.tail))
    else if char = '"' then inside (ahead [char] (identifier rest))
    else if char = '$' then
      match delimiter (char::rest) with
      | some (tag,after) => outside (ahead tag (through tag after))
      | none =>
        if rest.head?.any Char.isDigit then unjunked (char::rest.takeWhile Char.isDigit,rest.dropWhile Char.isDigit)
        else inside ([char],rest)
    else if char = '.' ∧ rest.head? = some '.' then inside ([char,'.'],rest.tail)
    else if char.isDigit ∨ char = '.' ∧ rest.head?.any Char.isDigit then unjunked (number (char::rest))
    else if identStart char then inside (char::rest.takeWhile identChar,rest.dropWhile identChar)
    else inside ([char],rest)

-- Which positions are code, up to the end or the first error.
def marks : Nat → List Char → List Bool
  | 0,_ => []
  | fuel + 1,text => match lexeme text with
    | none => []
    | some next => List.replicate next.chars.length next.code ++ marks fuel next.rest

def code (text : List Char) : List Bool := marks text.length text

-- A scan drops nothing.
def Splits (text : List Char) (split : List Char × List Char) : Prop := split.1 ++ split.2 = text

theorem ahead_splits (chars : List Char) (rest : Splits text split) : Splits (chars ++ text) (ahead chars split) := by
  unfold Splits ahead at *
  rw [List.append_assoc,rest]

theorem comment_splits (depth : Nat) (text : List Char) : Splits text (comment depth text) := by
  fun_induction comment depth text with
  | case1 => rfl
  | case2 depth rest ih => exact ahead_splits ['*','/'] ih
  | case3 depth rest ih => exact ahead_splits ['/','*'] ih
  | case4 depth char rest _ _ _ ih => exact ahead_splits [char] ih
  | case5 => rfl

theorem identifier_splits (text : List Char) : Splits text (identifier text) := by
  fun_induction identifier text with
  | case1 rest ih => exact ahead_splits ['"','"'] ih
  | case2 => rfl
  | case3 char rest _ _ ih => exact ahead_splits [char] ih
  | case4 => rfl

theorem segment_splits (escapes : Bool) (text : List Char) : Splits text (segment escapes text) := by
  fun_induction segment escapes text with
  | case1 rest ih => exact ahead_splits ['\'','\''] ih
  | case2 => rfl
  | case3 char rest _ ih => exact ahead_splits ['\\',char] ih
  | case4 char rest _ ih => exact ahead_splits ['\\'] ih
  | case5 char rest _ _ _ ih => exact ahead_splits [char] ih
  | case6 => rfl

theorem mapped_splits {found : Option (List Char × List Char)} (chars : List Char)
    (rest : ∀ inner, found = some inner → Splits text inner) (mapped : found.map (ahead chars) = some split) :
    Splits (chars ++ text) split := by
  obtain ⟨inner,here,rfl⟩ := Option.map_eq_some_iff.mp mapped
  exact ahead_splits chars (rest inner here)

theorem gap_splits (inComment seen : Bool) (text : List Char) {split : List Char × List Char}
    (found : gap inComment seen text = some split) : Splits text split := by
  fun_induction gap inComment seen text generalizing split with
  | case1 => cases found
  | case2 _ _ char rest _ ih => exact mapped_splits [char] (fun _ => ih) found
  | case3 _ char rest _ ih => exact mapped_splits [char] (fun _ => ih) found
  | case4 _ _ char rest _ _ _ ih => exact mapped_splits [char] (fun _ => ih) found
  | case5 _ _ char rest _ _ _ _ ih => exact mapped_splits [char] (fun _ => ih) found
  | case6 =>
    cases Option.some.inj found
    rfl
  | case7 => cases found

theorem constant_splits (escapes : Bool) (fuel : Nat) (text : List Char) : Splits text (constant escapes fuel text) := by
  induction fuel generalizing text with
  | zero => exact segment_splits escapes text
  | succ fuel ih =>
    unfold constant
    split
    · next between quote rest found =>
      have whole := ahead_splits ((segment escapes text).1 ++ between ++ [quote]) (ih rest)
      have later : between ++ quote::rest = (segment escapes text).2 := gap_splits _ _ _ found
      have same : (segment escapes text).1 ++ between ++ [quote] ++ rest = text := by
        rw [List.append_assoc,List.append_assoc,List.singleton_append,later]
        exact segment_splits escapes text
      rwa [same] at whole
    · exact segment_splits escapes text

theorem through_splits (tag text : List Char) : Splits text (through tag text) := by
  fun_induction through tag text with
  | case1 => rfl
  | case2 char rest found => exact List.prefix_iff_eq_append.mp (List.isPrefixOf_iff_prefix.mp found)
  | case3 char rest _ ih => exact ahead_splits [char] ih

theorem digits_splits (digit : Char → Bool) (text : List Char) : Splits text (digits digit text) := by
  fun_induction digits digit text with
  | case1 => rfl
  | case2 char rest _ ih => exact ahead_splits ['_',char] ih
  | case3 => rfl
  | case4 char rest _ _ ih => exact ahead_splits [char] ih
  | case5 => rfl

theorem fraction_splits (text : List Char) : Splits text (fraction text) := by
  unfold fraction
  split
  · next point =>
    have cons : text = ['.'] ++ text.tail := by
      cases text with
      | nil => cases point.1
      | cons char rest =>
        cases Option.some.inj point.1
        rfl
    split
    · have whole := ahead_splits ['.'] (digits_splits Char.isDigit text.tail)
      rwa [← cons] at whole
    · exact cons.symm
  · rfl

theorem exponent_splits (text : List Char) : Splits text (exponent text) := by
  unfold exponent
  split
  · next mark sign rest =>
    split
    · split
      · exact ahead_splits [mark] (digits_splits Char.isDigit (sign::rest))
      · split
        · exact ahead_splits [mark,sign] (digits_splits Char.isDigit rest)
        · rfl
    · rfl
  · rfl

theorem decimal_splits (text : List Char) : Splits text (decimal text) := by
  unfold decimal
  have point := ahead_splits (digits Char.isDigit text).1 (fraction_splits (digits Char.isDigit text).2)
  have tail := ahead_splits ((digits Char.isDigit text).1 ++ (fraction (digits Char.isDigit text).2).1)
    (exponent_splits (fraction (digits Char.isDigit text).2).2)
  have same : (digits Char.isDigit text).1 ++ (fraction (digits Char.isDigit text).2).1 ++
      (fraction (digits Char.isDigit text).2).2 = text := point.trans (digits_splits Char.isDigit text)
  rwa [same] at tail

theorem based_splits {text : List Char} (found : based text = some split) : Splits text split := by
  unfold based at found
  split at found
  · next mark rest =>
    obtain ⟨digit,_,value⟩ := Option.bind_eq_some_iff.mp found
    dsimp only at value
    split at value
    · cases value
    · cases Option.some.inj value
      exact ahead_splits ['0',mark] (digits_splits digit rest)
  · cases found

theorem number_splits (text : List Char) : Splits text (number text) := by
  unfold number
  cases found : based text with
  | some split => exact based_splits found
  | none => exact decimal_splits text

theorem delimiter_splits {text : List Char} (found : delimiter text = some split) :
    Splits text split ∧ ∃ name, split.1 = '$'::name ++ ['$'] := by
  unfold delimiter at found
  split at found
  · next rest =>
    split at found
    · next after same =>
      dsimp only at found
      split at found
      · cases Option.some.inj found
        refine ⟨?_,_,rfl⟩
        have whole := List.takeWhile_append_dropWhile (p := tagChar) (l := rest)
        rw [same] at whole
        simp [Splits,whole]
      · cases found
    · cases found
  · cases found

-- A constant, a comment or a quoted name ends with its closing character or with the text.
def Ends (char : Char) (split : List Char × List Char) : Prop := split.2 = [] ∨ split.1.getLast? = some char

theorem ahead_ends (chars : List Char) (rest : Ends char split) : Ends char (ahead chars split) := by
  rcases rest with empty | last
  · exact .inl empty
  · exact .inr (by simp [ahead,List.getLast?_append,last])

theorem comment_ends (depth : Nat) (text : List Char) : Ends '/' (comment depth text) := by
  fun_induction comment depth text with
  | case1 => exact .inr rfl
  | case2 depth rest ih => exact ahead_ends _ ih
  | case3 depth rest ih => exact ahead_ends _ ih
  | case4 depth char rest _ _ _ ih => exact ahead_ends _ ih
  | case5 => exact .inl rfl

theorem identifier_ends (text : List Char) : Ends '"' (identifier text) := by
  fun_induction identifier text with
  | case1 rest ih => exact ahead_ends _ ih
  | case2 => exact .inr rfl
  | case3 char rest _ _ ih => exact ahead_ends _ ih
  | case4 => exact .inl rfl

theorem segment_ends (escapes : Bool) (text : List Char) : Ends '\'' (segment escapes text) := by
  fun_induction segment escapes text with
  | case1 rest ih => exact ahead_ends _ ih
  | case2 => exact .inr rfl
  | case3 char rest _ ih => exact ahead_ends _ ih
  | case4 char rest _ ih => exact ahead_ends _ ih
  | case5 char rest _ _ _ ih => exact ahead_ends _ ih
  | case6 => exact .inl rfl

theorem constant_ends (escapes : Bool) (fuel : Nat) (text : List Char) : Ends '\'' (constant escapes fuel text) := by
  induction fuel generalizing text with
  | zero => exact segment_ends escapes text
  | succ fuel ih =>
    unfold constant
    split
    · exact ahead_ends _ (ih _)
    · exact segment_ends escapes text

theorem through_ends (body : List Char) (text : List Char) : Ends '$' (through (body ++ ['$']) text) := by
  fun_induction through (body ++ ['$']) text with
  | case1 => exact .inl rfl
  | case2 => exact .inr (by simp)
  | case3 char rest _ ih => exact ahead_ends _ ih

theorem digits_all (digit : Char → Bool) (plain : ∀ char, digit char = true → tagChar char = true) (text : List Char) :
    ∀ char ∈ (digits digit text).1, tagChar char = true := by
  fun_induction digits digit text with
  | case1 => simp
  | case2 char rest found ih => simpa [ahead,plain char found,show tagChar '_' = true from rfl] using ih
  | case3 => simp
  | case4 char rest _ found ih => simpa [ahead,plain char found] using ih
  | case5 => simp

theorem digits_last (digit : Char → Bool) (text : List Char) : ∀ char ∈ (digits digit text).1.getLast?, digit char = true := by
  fun_induction digits digit text with
  | case1 => simp
  | case2 char rest found ih =>
    rw [ahead,List.getLast?_append]
    cases last : (digits digit rest).1.getLast? <;> simp_all
  | case3 => simp
  | case4 char rest _ found ih =>
    rw [ahead,List.getLast?_append]
    cases last : (digits digit rest).1.getLast? <;> simp_all
  | case5 => simp

theorem digit_tag {char : Char} (digit : char.isDigit = true) : tagChar char = true := by simp [tagChar,digit]

theorem hex_tag {char : Char} (digit : hexDigit char = true) : tagChar char = true := by
  simp only [hexDigit,Bool.or_eq_true,decide_eq_true_eq] at digit
  rcases digit with digit | letter
  · exact digit_tag digit
  · have tags : (['a','b','c','d','e','f','A','B','C','D','E','F'].all tagChar) = true := by decide
    exact List.all_eq_true.mp tags char letter

theorem takeWhile_splits (keep : Char → Bool) (text : List Char) :
    Splits text (text.takeWhile keep,text.dropWhile keep) := List.takeWhile_append_dropWhile

theorem gap_line (seen : Bool) (text : List Char) : gap true seen text =
    (gap false seen (text.dropWhile fun char => !newline char)).map (ahead (text.takeWhile fun char => !newline char)) := by
  induction text with
  | nil => rfl
  | cons char rest ih =>
    cases ends : newline char with
    | true =>
      have none' : ahead [] = id := rfl
      simp [gap,ends,none']
    | false =>
      rw [gap,ih]
      simp only [ends,Bool.false_eq_true,if_false,if_true,Bool.not_false,List.takeWhile_cons_of_pos,
        List.dropWhile_cons_of_pos,Option.map_map]
      rfl

theorem oct_tag {char : Char} (digit : octDigit char = true) : tagChar char = true := by
  refine digit_tag ?_
  simp only [octDigit,Bool.and_eq_true,decide_eq_true_eq] at digit
  simp only [Char.isDigit,Bool.and_eq_true,decide_eq_true_eq]
  exact ⟨digit.1,UInt32.le_trans digit.2 (show '7'.val ≤ '9'.val by decide)⟩

theorem space_plain {char : Char} (blank : space char = true) : tagChar char = false ∧ char ∉ ['-','/','"','\'','$'] := by
  simp only [space,newline,Bool.or_eq_true,decide_eq_true_eq,List.mem_cons,List.not_mem_nil,or_false] at blank
  rcases blank with (rfl | rfl) | rfl | rfl | rfl | rfl <;> decide

theorem based_all {text : List Char} (found : based text = some split) :
    (∀ char ∈ split.1, tagChar char = true) ∧ 2 ≤ split.1.length := by
  unfold based at found
  split at found
  · next mark rest =>
    obtain ⟨digit,kind,value⟩ := Option.bind_eq_some_iff.mp found
    dsimp only at value
    split at value
    · cases value
    · cases Option.some.inj value
      have plain : tagChar mark = true ∧ ∀ char, digit char = true → tagChar char = true := by
        unfold radix at kind
        split at kind
        · next letter =>
          cases Option.some.inj kind
          exact ⟨by rcases List.mem_pair.mp letter with rfl | rfl <;> rfl,fun _ => hex_tag⟩
        · split at kind
          · next letter =>
            cases Option.some.inj kind
            exact ⟨by rcases List.mem_pair.mp letter with rfl | rfl <;> rfl,fun _ => oct_tag⟩
          · split at kind
            · next letter =>
              cases Option.some.inj kind
              refine ⟨by rcases List.mem_pair.mp letter with rfl | rfl <;> rfl,fun char bit => ?_⟩
              rcases (by simpa using bit : char = '0' ∨ char = '1') with rfl | rfl <;> rfl
            · cases kind
      refine ⟨?_,by simp [ahead]⟩
      have later := digits_all digit plain.2 rest
      simp only [ahead,List.cons_append,List.nil_append,List.forall_mem_cons]
      exact ⟨rfl,plain.1,later⟩
  · cases found

theorem digits_some {digit : Char → Bool} {char : Char} (found : digit char = true) (letter : char ≠ '_') (rest : List Char) :
    (digits digit (char::rest)).1 ≠ [] := by
  rw [digits]
  · simp [found,ahead]
  · simp [letter]

theorem fraction_last (text : List Char) : ∀ char ∈ (fraction text).1.getLast?, char.isDigit = true ∨ char = '.' := by
  unfold fraction
  split
  · split
    · intro char last
      rw [ahead,List.getLast?_append] at last
      cases tail : (digits Char.isDigit text.tail).1.getLast? with
      | none => exact .inr (by simpa [tail,eq_comm] using last)
      | some digit =>
        have same : digit = char := by simpa [tail] using last
        exact .inl (digits_last Char.isDigit text.tail char (by simp [tail,same]))
    · simp
  · simp

theorem last_tail {tail : List Char} (chars : List Char) (some' : tail ≠ []) (last : char ∈ (chars ++ tail).getLast?) : char ∈ tail.getLast? := by
  rw [List.getLast?_append] at last
  cases found : tail.getLast? with
  | none => exact absurd (List.getLast?_eq_none_iff.mp found) some'
  | some _ => simpa [found] using last

theorem exponent_last (text : List Char) : ∀ char ∈ (exponent text).1.getLast?, char.isDigit = true := by
  have apart : ∀ {char : Char}, char.isDigit = true → char ≠ '_' := by
    rintro _ digit rfl
    exact absurd digit (by decide)
  unfold exponent
  split
  · next mark sign rest =>
    split
    · split
      · next digit =>
        intro char last
        exact digits_last _ _ char (last_tail [mark] (digits_some digit (apart digit) rest) last)
      · split
        · next signed =>
          intro char last
          obtain ⟨digit,more,rfl⟩ : ∃ digit more, rest = digit::more := by
            cases rest with
            | nil => cases signed.2
            | cons digit more => exact ⟨digit,more,rfl⟩
          have found : digit.isDigit = true := signed.2
          exact digits_last _ _ char (last_tail [mark,sign] (digits_some found (apart found) more) last)
        · simp
    · simp
  · simp

theorem decimal_last (text : List Char) : ∀ char ∈ (decimal text).1.getLast?, char.isDigit = true ∨ char = '.' := by
  intro char last
  have ends := exponent_last (fraction (digits Char.isDigit text).2).2
  have point := fraction_last (digits Char.isDigit text).2
  have whole := digits_last Char.isDigit text
  simp only [decimal,ahead,List.getLast?_append] at last
  rcases Option.or_eq_some_iff.mp last with last | ⟨_,last⟩
  · exact .inl (ends char last)
  · rcases Option.or_eq_some_iff.mp last with last | ⟨_,last⟩
    · exact point char last
    · exact .inl (whole char last)

end Zveltio.SqlLexer
