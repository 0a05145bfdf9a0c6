import Zveltio.SqlSeams
namespace Zveltio.ParamInlining

open SqlLexer (ahead tagChar)
open SqlTokens SqlPieces SqlLiterals SqlSeams

-- parseInt rounds digits past the 53rd bit, far beyond the length of any list.
def parseInt (digits : List Char) : Nat := Nat.ofDigitChars 10 digits 0

def paramAt (params : List Value) (digits : List Char) : Option Value :=
  match parseInt digits with
  | 0 => none
  | idx + 1 => params[idx]?

-- What the walk reads behind a dollar sign.
def placeholder (params : List Value) (rest : List Char) : Option Value :=
  if rest.head?.any Char.isDigit then paramAt params (rest.takeWhile Char.isDigit) else none

def passString : List Char → Split
  | '\'':: '\''::rest => ahead ['\'','\''] (passString rest)
  | '\''::rest => (['\''],rest)
  | char::rest => ahead [char] (passString rest)
  | [] => ([],[])

def passLine : List Char → Split
  | '\n'::rest => (['\n'],rest)
  | char::rest => ahead [char] (passLine rest)
  | [] => ([],[])

def inlineFrom (params : List Value) : Nat → List Char → List Char
  | 0,_ => []
  | _,[] => []
  | fuel + 1,'\''::rest => '\''::(passString rest).1 ++ inlineFrom params fuel (passString rest).2
  | fuel + 1,'-':: '-'::rest => (passLine ('-':: '-'::rest)).1 ++ inlineFrom params fuel (passLine ('-':: '-'::rest)).2
  | fuel + 1,'$'::rest =>
    match placeholder params rest with
    | some value => quoteLiteral value ++ inlineFrom params fuel (rest.dropWhile Char.isDigit)
    | none => '$'::inlineFrom params fuel rest
  | fuel + 1,char::rest => char::inlineFrom params fuel rest

def inlineParams (sql : List Char) (params : List Value) : List Char :=
  if params.isEmpty then sql else inlineFrom params sql.length sql

-- What a piece of the text is to become.
def replaced (params : List Value) (piece : Piece) : List Piece :=
  if piece.kind = .parameter then ((paramAt params piece.chars.tail).bind fun value => lex (quoteLiteral value)).getD []
  else [piece]

def part (params : List Value) (piece : Piece) : Part :=
  if piece.kind = .parameter then ((paramAt params piece.chars.tail).map fun value => Part.literal value.shape).getD (.kept piece)
  else .kept piece

-- Where a walk that knows single quotes and line comments alone takes itself to be.
inductive Place where
  | code
  | dash
  | string
  | comment
  deriving DecidableEq

def step : Place → Char → Place
  | .string,char => if char = '\'' then .code else .string
  | .comment,char => if char = '\n' then .code else .comment
  | place,char =>
    if char = '\'' then .string
    else if char = '-' then if place = .dash then .comment else .dash
    else .code

def Place.outside (place : Place) : Bool := place = .code || place = .dash

-- Every placeholder stands outside the quotes and comments, and what looks like one
-- inside another piece stands within them.
structure Aligned (params : List Value) (place : Place) (list : List Piece) : Prop where
  found : ∀ before piece behind, list = before ++ piece::behind → piece.kind = .parameter →
    ((texts before).foldl step place).outside = true
  kept : ∀ before piece behind, list = before ++ piece::behind → piece.kind ≠ .parameter →
    ∀ first last, piece.chars = first ++ '$'::last → ((texts before ++ first).foldl step place).outside = true →
      placeholder params (last ++ texts behind) = none

-- The walk one character at a time. The digits of a replaced placeholder are skipped.
def walk (params : List Value) : Place → Nat → List Char → List Char
  | _,_,[] => []
  | place,skip + 1,char::rest => walk params (step place char) skip rest
  | place,0,char::rest =>
    match if place.outside && char = '$' then placeholder params rest else none with
    | some value => quoteLiteral value ++ walk params (step place char) (rest.takeWhile Char.isDigit).length rest
    | none => char::walk params (step place char) 0 rest

section
variable {params : List Value}

theorem walk_skip (params : List Value) (place : Place) (chars rest : List Char) :
    walk params place chars.length (chars ++ rest) = walk params (chars.foldl step place) 0 rest := by
  induction chars generalizing place with
  | nil => rfl
  | cons char chars ih => exact ih (step place char)

theorem walk_plain {place : Place} {char : Char} (plain : place.outside = false ∨ char ≠ '$') (rest : List Char) :
    walk params place 0 (char::rest) = char::walk params (step place char) 0 rest := by
  have none' : (place.outside && decide (char = '$')) = false := by
    rcases plain with inside | other
    · rw [inside,Bool.false_and]
    · simp [other]
  rw [walk,none']
  rfl

theorem walk_string (rest : List Char) :
    walk params .string 0 rest = (passString rest).1 ++ walk params .code 0 (passString rest).2 := by
  fun_induction passString rest with
  | case1 rest ih =>
    rw [walk_plain (.inl rfl),walk_plain (.inr (by decide))]
    show '\'':: '\''::walk params .string 0 rest = _
    rw [ih]
    rfl
  | case2 rest _ => exact walk_plain (.inl rfl) rest
  | case3 char rest _ quote ih =>
    have stays : step .string char = .string := if_neg quote
    rw [walk_plain (.inl rfl),stays,ih]
    rfl
  | case4 => rfl

theorem walk_comment (rest : List Char) :
    walk params .comment 0 rest = (passLine rest).1 ++ walk params .code 0 (passLine rest).2 := by
  fun_induction passLine rest with
  | case1 rest => exact walk_plain (.inl rfl) rest
  | case2 char rest newline ih =>
    have stays : step .comment char = .comment := if_neg newline
    rw [walk_plain (.inl rfl),stays,ih]
    rfl
  | case3 => rfl

theorem passString_whole (rest : List Char) : (passString rest).1 ++ (passString rest).2 = rest := by
  fun_induction passString rest with
  | case1 rest ih => simp [ahead,ih]
  | case2 => rfl
  | case3 char rest _ _ ih => simp [ahead,ih]
  | case4 => rfl

theorem passLine_whole (rest : List Char) : (passLine rest).1 ++ (passLine rest).2 = rest := by
  fun_induction passLine rest with
  | case1 => rfl
  | case2 char rest _ ih => simp [ahead,ih]
  | case3 => rfl

theorem fold_digits {chars : List Char} (all : ∀ char ∈ chars, char.isDigit = true) : chars.foldl step .code = .code := by
  induction chars with
  | nil => rfl
  | cons char chars ih =>
    obtain ⟨digit,later⟩ := List.forall_mem_cons.mp all
    have plain : char ≠ '\'' ∧ char ≠ '-' := by
      constructor <;> rintro rfl <;> exact absurd digit (by decide)
    rw [List.foldl_cons,show step .code char = .code from by simp [step,plain],ih later]

theorem outside_cases {place : Place} (out : place.outside = true) : place = .code ∨ place = .dash := by
  simpa [Place.outside] using out

theorem step_dollar {place : Place} (out : place.outside = true) : step place '$' = .code := by
  rcases outside_cases out with rfl | rfl <;> rfl

theorem walk_found {place : Place} {rest : List Char} {value : Value} (out : place.outside = true)
    (found : placeholder params rest = some value) : walk params place 0 ('$'::rest) =
      quoteLiteral value ++ walk params .code 0 (rest.dropWhile Char.isDigit) := by
  have read : (place.outside && decide ('$' = '$')) = true := by rw [out]; rfl
  have digits := fold_digits (span_all Char.isDigit rest)
  have skipped := walk_skip params .code (rest.takeWhile Char.isDigit) (rest.dropWhile Char.isDigit)
  rw [List.takeWhile_append_dropWhile,digits] at skipped
  rw [walk,read,if_pos rfl,found,step_dollar out]
  exact congrArg _ skipped

theorem walk_missed {place : Place} {rest : List Char} (out : place.outside = true) (found : placeholder params rest = none) :
    walk params place 0 ('$'::rest) = '$'::walk params .code 0 rest := by
  rw [walk,found,ite_self,step_dollar out]

theorem walk_none (missed : ∀ rest, placeholder params rest = none) {place : Place} : walk params place 0 text = text := by
  induction text generalizing place with
  | nil => rfl
  | cons char rest ih => rw [walk,missed,ite_self,ih]

theorem inline_walk (enough : text.length ≤ fuel) (place : Place) (out : place.outside = true)
    (dash : place = .dash → text.head? ≠ some '-') : inlineFrom params fuel text = walk params place 0 text := by
  fun_induction inlineFrom params fuel text generalizing place with
  | case1 text =>
    cases List.length_eq_zero_iff.mp (Nat.le_zero.mp enough)
    rfl
  | case2 fuel => rfl
  | case3 fuel rest ih =>
    have size := congrArg List.length (passString_whole rest)
    simp only [List.length_append,List.length_cons] at size enough
    have opens : step place '\'' = .string := by rcases outside_cases out with rfl | rfl <;> rfl
    rw [walk_plain (.inr (by decide)),opens,walk_string,ih (by omega) .code rfl (by simp)]
    rfl
  | case4 fuel rest ih =>
    have size := congrArg List.length (passLine_whole ('-':: '-'::rest))
    have some' : (passLine ('-':: '-'::rest)).1.length ≠ 0 := by simp [passLine,ahead]
    simp only [List.length_append,List.length_cons] at size enough
    obtain rfl : place = .code := (outside_cases out).resolve_right fun same => dash same rfl
    have first : step .code '-' = .dash := rfl
    have second : step .dash '-' = .comment := rfl
    rw [walk_plain (.inr (by decide)),first,walk_plain (.inr (by decide)),second,walk_comment,ih (by omega) .code rfl (by simp)]
    rfl
  | case5 fuel rest value found ih =>
    have size := congrArg List.length (List.takeWhile_append_dropWhile (p := Char.isDigit) (l := rest))
    simp only [List.length_append,List.length_cons] at size enough
    rw [walk_found out found,ih (by omega) .code rfl (by simp)]
  | case6 fuel rest missed ih =>
    simp only [List.length_cons] at enough
    rw [walk_missed out missed,ih (by omega) .code rfl (by simp)]
  | case7 fuel char rest quote dashes dollar ih =>
    simp only [List.length_cons] at enough
    rw [walk_plain (.inr dollar)]
    refine congrArg _ ?_
    by_cases minus : char = '-'
    · subst minus
      obtain rfl : place = .code := (outside_cases out).resolve_right fun same => dash same rfl
      refine ih (by omega) .dash rfl fun _ first => ?_
      cases rest with
      | nil => cases first
      | cons next rest =>
        cases Option.some.inj first
        exact dashes rest rfl rfl
    · have other : char ≠ '\'' := quote
      have stays : step place char = .code := by
        rcases outside_cases out with rfl | rfl <;> simp [step,other,minus]
      rw [stays]
      exact ih (by omega) .code rfl (by simp)

theorem inlineParams_walk (sql : List Char) : inlineParams sql params = walk params .code 0 sql := by
  have walked : inlineFrom params sql.length sql = walk params .code 0 sql := inline_walk le_rfl .code rfl (by simp)
  unfold inlineParams
  split
  · next empty =>
    obtain rfl := List.isEmpty_iff.mp empty
    refine (walk_none fun rest => ?_).symm
    unfold placeholder paramAt
    split_ifs
    · split <;> rfl
    · rfl
  · exact walked

theorem literal_start (value : Value) : ∃ first rest, quoteLiteral value = first::rest ∧ first ≠ '$' := by
  obtain ⟨first,head,plain,_⟩ := literal_first (shape_valid value) []
  rw [written_literal,shape_text,written_nil,List.append_nil] at head
  cases text : quoteLiteral value with
  | nil =>
    rw [text] at head
    cases head
  | cons char rest =>
    rw [text] at head
    cases Option.some.inj head
    refine ⟨_,rest,rfl,?_⟩
    rintro rfl
    exact absurd plain (by decide)

-- Nothing among the characters is replaced.
def Passed (params : List Value) (place : Place) (chars behind : List Char) : Prop :=
  ∀ first last, chars = first ++ '$'::last → (first.foldl step place).outside = true → placeholder params (last ++ behind) = none

theorem passed_cons {place : Place} {char : Char} {chars behind : List Char} : Passed params place (char::chars) behind ↔
    (char = '$' → place.outside = true → placeholder params (chars ++ behind) = none) ∧
      Passed params (step place char) chars behind := by
  constructor
  · intro passed
    refine ⟨?_,?_⟩
    · rintro rfl out
      exact passed [] chars rfl out
    · rintro first last rfl out
      exact passed (char::first) last rfl out
  · rintro ⟨head,later⟩ first last whole out
    cases first with
    | nil =>
      obtain ⟨rfl,rfl⟩ := List.cons.inj whole
      exact head rfl out
    | cons next first =>
      obtain ⟨rfl,rfl⟩ := List.cons.inj whole
      exact later first last rfl out

theorem kept_walk (place : Place) (chars : List Char) {behind other : List Char} : walk params place 0 (chars ++ behind) = chars ++ other ↔
    Passed params place chars behind ∧ walk params (chars.foldl step place) 0 behind = other := by
  induction chars generalizing place with
  | nil => simp [Passed]
  | cons char chars ih =>
    rw [passed_cons,and_assoc,List.foldl_cons,← ih (step place char)]
    by_cases dollar : char = '$' ∧ place.outside = true
    · obtain ⟨rfl,out⟩ := dollar
      cases found : placeholder params (chars ++ behind) with
      | none => simp [walk_missed out found,step_dollar out,out]
      | some value =>
        obtain ⟨first,rest,start,other⟩ := literal_start value
        simp [walk_found out found,start,other,out]
    · have plain : place.outside = false ∨ char ≠ '$' := by
        by_cases same : char = '$'
        · exact .inl (by simpa using fun out => dollar ⟨same,out⟩)
        · exact .inr same
      have free : char = '$' → place.outside = true → placeholder params (chars ++ behind) = none :=
        fun same out => absurd ⟨same,out⟩ dollar
      rw [List.cons_append,List.cons_append,walk_plain plain]
      simpa using fun _ => free

theorem found_walk {place : Place} {digits behind other : List Char} {value : Value} (some' : digits ≠ [])
    (all : ∀ char ∈ digits, char.isDigit = true) (ends : ∀ char ∈ behind.head?, char.isDigit = false)
    (found : paramAt params digits = some value) : walk params place 0 ('$'::(digits ++ behind)) = quoteLiteral value ++ other ↔
      place.outside = true ∧ walk params (('$'::digits).foldl step place) 0 behind = other := by
  obtain ⟨taken,dropped⟩ := span_stable all ends
  cases out : place.outside with
  | true =>
    have read : placeholder params (digits ++ behind) = some value := by
      obtain ⟨digit,more,rfl⟩ := List.exists_cons_of_ne_nil some'
      have digit' : digit.isDigit = true := all digit (List.mem_cons_self ..)
      rw [placeholder,taken,if_pos (by simp [digit']),found]
    rw [walk_found out read,dropped,List.foldl_cons,step_dollar out,fold_digits all]
    simp
  | false =>
    obtain ⟨first,rest,start,other⟩ := literal_start value
    rw [walk_plain (.inl out),start]
    simp [other.symm]

theorem aligned_cons {place : Place} : Aligned params place (piece::list) ↔
    ((piece.kind = .parameter → place.outside = true) ∧
      (piece.kind ≠ .parameter → Passed params place piece.chars (texts list))) ∧
      Aligned params (piece.chars.foldl step place) list := by
  constructor
  · intro aligned
    refine ⟨⟨aligned.found [] piece list rfl,aligned.kept [] piece list rfl⟩,⟨?_,?_⟩⟩
    · rintro before other behind rfl kind
      have out := aligned.found (piece::before) other behind rfl kind
      rwa [texts_cons,List.foldl_append] at out
    · rintro before other behind rfl kind first last whole out
      refine aligned.kept (piece::before) other behind rfl kind first last whole ?_
      rwa [texts_cons,List.append_assoc,List.foldl_append]
  · rintro ⟨⟨found,kept⟩,aligned⟩
    refine ⟨?_,?_⟩
    · intro before other behind whole kind
      cases before with
      | nil =>
        obtain ⟨rfl,rfl⟩ := List.cons.inj whole
        exact found kind
      | cons _ before =>
        obtain ⟨rfl,rfl⟩ := List.cons.inj whole
        rw [texts_cons,List.foldl_append]
        exact aligned.found before other behind rfl kind
    · intro before other behind whole kind first last chars out
      cases before with
      | nil =>
        obtain ⟨rfl,rfl⟩ := List.cons.inj whole
        exact kept kind first last chars out
      | cons _ before =>
        obtain ⟨rfl,rfl⟩ := List.cons.inj whole
        rw [texts_cons,List.append_assoc,List.foldl_append] at out
        exact aligned.kept before other behind rfl kind first last chars out

theorem aligned_nil (place : Place) : Aligned params place [] :=
  ⟨fun before piece behind whole => by simp at whole,fun before piece behind whole => by simp at whole⟩

def Ranged (params : List Value) (list : List Piece) : Prop :=
  ∀ piece ∈ list, piece.kind = .parameter → 1 ≤ parseInt piece.chars.tail ∧ parseInt piece.chars.tail ≤ params.length

theorem ranged_value (low : 1 ≤ parseInt digits) (high : parseInt digits ≤ params.length) : ∃ value, paramAt params digits = some value := by
  unfold paramAt
  split
  · next zero => omega
  · next idx same => exact ⟨params[idx],List.getElem?_eq_getElem (by omega)⟩

theorem ranged_part (ranged : Ranged params (piece::list)) (kind : piece.kind = .parameter) : ∃ value,
    paramAt params piece.chars.tail = some value ∧ part params piece = .literal value.shape := by
  obtain ⟨low,high⟩ := ranged piece (List.mem_cons_self ..) kind
  obtain ⟨value,found⟩ := ranged_value low high
  exact ⟨value,found,by rw [part,if_pos kind,found]; rfl⟩

theorem Ranged.later (ranged : Ranged params (piece::list)) : Ranged params list :=
  fun other member => ranged other (List.mem_cons_of_mem _ member)

theorem walk_exact (lexed : Lexed text list) (ranged : Ranged params list) (place : Place) :
    walk params place 0 text = written (list.map (part params)) ↔ Aligned params place list := by
  induction lexed generalizing place with
  | nil => exact iff_of_true rfl (aligned_nil place)
  | @cons text piece rest later found lexed ih =>
    rw [aligned_cons,(next_read found).whole,List.map_cons,← lexed.whole,← ih ranged.later]
    by_cases kind : piece.kind = .parameter
    · obtain ⟨digits,chars,some',all,apart⟩ := parameter_chars found kind
      obtain ⟨value,read,same⟩ := ranged_part ranged kind
      rw [chars] at read
      have ends : ∀ char ∈ rest.head?, char.isDigit = false := by
        intro char first
        have tag : tagChar char = false := apart char first
        simp only [tagChar,Bool.or_eq_false_iff] at tag
        exact tag.2
      rw [same,written_literal,shape_text,chars,List.cons_append,found_walk some' all ends read]
      simp [kind]
    · rw [part,if_neg kind,written_kept,kept_walk]
      simp [kind]

theorem filled_parts (ranged : Ranged params list) : Filled list (list.map (part params)) := by
  induction list with
  | nil => exact .nil
  | cons piece list ih =>
    rw [List.map_cons]
    by_cases kind : piece.kind = .parameter
    · obtain ⟨value,_,same⟩ := ranged_part ranged kind
      rw [same]
      exact .literal kind (shape_valid value) (ih ranged.later)
    · rw [part,if_neg kind]
      exact .kept kind (ih ranged.later)

theorem literal_lex (value : Value) : lex (quoteLiteral value) = some value.shape.pieces := by
  have lexed : Lexed (quoteLiteral value ++ []) (value.shape.pieces ++ []) :=
    (literal_exact value).mpr ⟨(next_read (last_next (shape_valid value))).followed,.nil⟩
  rw [List.append_nil,List.append_nil] at lexed
  exact lex_exact.mpr lexed

theorem pieces_parts (ranged : Ranged params list) : (list.map (part params)).flatMap Part.pieces = list.flatMap (replaced params) := by
  induction list with
  | nil => rfl
  | cons piece list ih =>
    rw [List.map_cons,List.flatMap_cons,List.flatMap_cons,ih ranged.later]
    congr 1
    by_cases kind : piece.kind = .parameter
    · obtain ⟨value,read,same⟩ := ranged_part ranged kind
      rw [same,replaced,if_pos kind,read,Option.bind_some,literal_lex]
      rfl
    · rw [part,replaced,if_neg kind,if_neg kind]
      rfl

theorem replaced_solid (piece : Piece) : (replaced params piece).filter (fun piece => !piece.blank) =
    if piece.blank then [] else replaced params piece := by
  unfold replaced
  split
  · next kind =>
    have solid : piece.blank = false := by simp [Piece.blank,kind]
    rw [solid,if_neg (by decide)]
    cases paramAt params piece.chars.tail with
    | none => rfl
    | some value =>
      rw [Option.bind_some,literal_lex,Option.getD_some]
      cases value.shape with
      | word => rfl
      | number negative => cases negative <;> rfl
      | quoted => rfl
  · cases blank : piece.blank <;> simp [blank]

theorem tokens_replaced (list : List Piece) : (list.flatMap (replaced params)).filter (fun piece => !piece.blank) =
    (list.filter fun piece => !piece.blank).flatMap (replaced params) := by
  induction list with
  | nil => rfl
  | cons piece list ih =>
    rw [List.flatMap_cons,List.filter_append,replaced_solid,ih]
    cases blank : piece.blank <;> simp [blank]

-- Inlining replaces the placeholders' tokens by their literals' and leaves every other
-- piece, white space and comments among them, exactly if the walk sees the text as it is
-- read and no literal runs into a neighbour.
theorem inline_exact {sql : List Char} (lexed : lex sql = some list) (ranged : Ranged params list) :
    (lex (inlineParams sql params) = some (list.flatMap (replaced params)) ↔
      Aligned params .code list ∧ Separate (list.map (part params))) ∧
    (Aligned params .code list ∧ Separate (list.map (part params)) →
      tokens (inlineParams sql params) = (tokens sql).map fun found => found.flatMap (replaced params)) := by
  have source := lex_exact.mp lexed
  have separate := separate_exact source (filled_parts ranged)
  rw [pieces_parts ranged] at separate
  have exact' : lex (inlineParams sql params) = some (list.flatMap (replaced params)) ↔
      Aligned params .code list ∧ Separate (list.map (part params)) := by
    rw [lex_exact,inlineParams_walk,← walk_exact source ranged .code,← separate]
    constructor
    · intro read
      have whole : walk params .code 0 sql = written (list.map (part params)) := by
        rw [read.whole,written,pieces_parts ranged]
      exact ⟨whole,whole ▸ read⟩
    · rintro ⟨whole,read⟩
      rwa [whole]
  refine ⟨exact',fun held => ?_⟩
  rw [tokens,exact'.mpr held,tokens,lexed]
  exact congrArg some (tokens_replaced list)

theorem inline_exact_minus : Aligned [.bigint 5] .code [⟨.word,['a']⟩,⟨.operator,['-']⟩,⟨.parameter,['$','1']⟩] ∧
    Separate ([⟨.word,['a']⟩,⟨.operator,['-']⟩,⟨.parameter,['$','1']⟩].map (part [.bigint 5])) :=
  (inline_exact (show lex ['a','-','$','1'] = some [⟨.word,['a']⟩,⟨.operator,['-']⟩,⟨.parameter,['$','1']⟩] by decide)
    (by unfold Ranged; decide)).1.mp (by decide +kernel)

-- A negative number behind a minus sign begins a comment.
theorem minus_comment : ¬∀ sql params list, lex sql = some list → Ranged params list →
    tokens (inlineParams sql params) = (tokens sql).map fun found => found.flatMap (replaced params) := by
  intro all
  have same := all ['a','-','$','1'] [.bigint (-5)] [⟨.word,['a']⟩,⟨.operator,['-']⟩,⟨.parameter,['$','1']⟩] (by decide)
    (by unfold Ranged; decide)
  revert same
  decide

end

end Zveltio.ParamInlining
