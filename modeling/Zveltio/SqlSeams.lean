import Zveltio.SqlRuns
namespace Zveltio.SqlSeams

open SqlLexer (newline space tagChar identStart identChar gap delimiter)
open SqlTokens SqlNumbers SqlPieces SqlLiterals SqlRuns

-- A piece that stays, or the literal in a placeholder's place.
inductive Part where
  | kept (piece : Piece)
  | literal (shape : Shape)

def Part.pieces : Part → List Piece
  | .kept piece => [piece]
  | .literal shape => shape.pieces

def written (parts : List Part) : List Char := texts (parts.flatMap Part.pieces)

-- Two neighbours that run into one another.
def touches : Part → Part → Prop
  | .literal (.word _),.kept piece => piece.chars.head? = some '$'
  | .literal (.word _),.literal (.word _) => True
  | .literal (.word _),.literal (.number false _) => True
  | .literal (.number _ chars),.kept piece =>
    (∀ char ∈ chars, char.isDigit = true ∨ char = '_') ∧ piece.chars.head? = some '.' ∧ piece.chars ≠ ['.','.']
  | .literal (.number _ _),.literal (.word _) => True
  | .literal (.number _ _),.literal (.number false _) => True
  | .literal (.quoted _),.kept piece => piece.chars.head? = some '\''
  | .literal (.quoted _),.literal (.quoted _) => True
  | .kept piece,.literal (.word _) => piece.kind = .number
  | .kept piece,.literal (.number false _) => piece.kind = .number ∨ piece = ⟨.mark,['.']⟩
  | .kept piece,.literal (.number true _) =>
    piece.kind = .operator ∧ (piece.chars.getLast? = some '-' ∨ piece.chars.any special = true)
  | .kept piece,.literal (.quoted _) => ∃ quote, piece.kind = .constant quote ∧ quote ≠ .bits
  | _,_ => False

-- A quote behind white space and line comments with a newline among them.
def continues (seen : Bool) : List Part → Prop
  | .kept piece::rest => seen = true ∧ piece.chars.head? = some '\'' ∨
      piece.kind = .space ∧ continues (seen || piece.chars.any newline) rest ∨ piece.kind = .line ∧ continues seen rest
  | .literal (.quoted _)::_ => seen = true
  | _ => False

def closes : Part → Prop
  | .kept piece => ∃ quote, piece.kind = .constant quote
  | .literal (.quoted _) => True
  | _ => False

-- U and & make a quoted literal behind them a constant of another kind.
def prefixes : List Part → Prop
  | .kept letter::.kept mark::.literal (.quoted _)::_ =>
    (letter = ⟨.word,['u']⟩ ∨ letter = ⟨.word,['U']⟩) ∧ mark = ⟨.operator,['&']⟩
  | _ => False

structure Clear (part : Part) (rest : List Part) : Prop where
  apart : ∀ other ∈ rest.head?, ¬touches part other
  ended : closes part → ¬continues false rest
  plain : ¬prefixes (part::rest)

def Separate : List Part → Prop
  | [] => True
  | part::rest => Clear part rest ∧ Separate rest

-- The parts of a text's pieces: a literal for every placeholder and nothing else.
inductive Filled : List Piece → List Part → Prop where
  | nil : Filled [] []
  | kept {piece : Piece} {list : List Piece} {parts : List Part} : piece.kind ≠ .parameter → Filled list parts → Filled (piece::list) (.kept piece::parts)
  | literal {piece : Piece} {list : List Piece} {shape : Shape} {parts : List Part} : piece.kind = .parameter →
      shape.Valid → Filled list parts → Filled (piece::list) (.literal shape::parts)

@[simp] theorem written_nil : written [] = [] := rfl

@[simp] theorem written_kept (piece : Piece) (rest : List Part) : written (.kept piece::rest) = piece.chars ++ written rest := rfl

@[simp] theorem written_literal (shape : Shape) (rest : List Part) :
    written (.literal shape::rest) = texts shape.pieces ++ written rest := by
  simp [written,Part.pieces,texts_append]

theorem first_shape {shape : Shape} (valid : shape.Valid) : ∃ first rest, texts shape.pieces = first::rest ∧
    match shape with
    | .word _ => identStart first = true ∧ first ∉ openers
    | .number false _ => first.isDigit = true
    | .number true _ => first = '-' ∧ ∃ digit, rest.head? = some digit ∧ digit.isDigit = true
    | .quoted _ => first = '\'' := by
  cases shape with
  | word chars =>
    have each : ∀ chars ∈ [['N','U','L','L'],['T','R','U','E'],['F','A','L','S','E']],
        ∃ first rest, chars = first::rest ∧ identStart first = true ∧ first ∉ openers := by
      simp only [List.forall_mem_cons]
      exact ⟨⟨_,_,rfl,by decide,by decide⟩,⟨_,_,rfl,by decide,by decide⟩,⟨_,_,rfl,by decide,by decide⟩,by simp⟩
    obtain ⟨first,rest,rfl,start,plain⟩ := each chars valid
    exact ⟨first,rest,by simp [Shape.pieces],start,plain⟩
  | number negative chars =>
    obtain ⟨digit,rest,rfl,first⟩ := valid.first
    cases negative with
    | false => exact ⟨digit,rest,by simp [Shape.pieces],first⟩
    | true => exact ⟨'-',digit::rest,by simp [Shape.pieces,minus],rfl,digit,rfl,first⟩
  | quoted chars => exact ⟨'\'',chars ++ ['\''],by simp [Shape.pieces,enclosed],rfl⟩

theorem literal_first {shape : Shape} (valid : shape.Valid) (parts : List Part) : ∃ first, (written (.literal shape::parts)).head? = some first ∧
    first ∉ ['$','.',':','=','"','e','E'] ∧
    (tagChar first = true ↔ ∃ chars, shape = .word chars ∨ shape = .number false chars) ∧
    (first.isDigit = true ↔ ∃ chars, shape = .number false chars) ∧
    (first = '\'' ↔ ∃ chars, shape = .quoted chars) := by
  obtain ⟨first,rest,text,facts⟩ := first_shape valid
  refine ⟨first,by rw [written_literal,text]; rfl,?_⟩
  cases shape with
  | word chars =>
    have digit := (start_plain facts.1).2.2.1
    have quote : first ≠ '\'' := by
      rintro rfl
      exact absurd facts.1 (by decide)
    refine ⟨?_,by simp [tagChar,facts.1],by simp [digit],by simp [quote]⟩
    intro member
    have each : ∀ char ∈ ['$','.',':','=','"','e','E'], identStart char = false ∨ char ∈ openers :=
      each_char (by decide)
    rcases each first member with plain | opens
    · exact absurd (facts.1.symm.trans plain) (by decide)
    · exact facts.2 opens
  | number negative chars =>
    cases negative with
    | true =>
      obtain ⟨rfl,_⟩ := facts
      exact ⟨by decide,by simp [show tagChar '-' = false from by decide],by simp [show Char.isDigit '-' = false from by decide],by simp⟩
    | false =>
      have digit : first.isDigit = true := facts
      have quote : first ≠ '\'' := by
        rintro rfl
        exact absurd digit (by decide)
      refine ⟨?_,by simp [SqlLexer.digit_tag digit],by simp [digit],by simp [quote]⟩
      intro member
      have each : ∀ char ∈ ['$','.',':','=','"','e','E'], char.isDigit = false := each_char (by decide)
      exact absurd (digit.symm.trans (each first member)) (by decide)
  | quoted chars =>
    obtain rfl : first = '\'' := facts
    exact ⟨by decide,by simp [show tagChar '\'' = false from by decide],by simp [show Char.isDigit '\'' = false from by decide],by simp⟩

theorem leads_exact (filled : Filled list parts) (seen : Bool) : leads seen (parts.flatMap Part.pieces) ↔ continues seen parts := by
  induction filled generalizing seen with
  | nil => rfl
  | @kept piece list parts plain filled ih =>
    show leads seen (piece::parts.flatMap Part.pieces) ↔ _
    rw [leads,ih,ih]
    rfl
  | @literal piece list shape parts kind valid filled ih =>
    rw [List.flatMap_cons]
    obtain ⟨first,rest,text,facts⟩ := first_shape valid
    cases shape with
    | word chars =>
      have quote : chars.head? ≠ some '\'' := by
        intro same
        have head : chars = first::rest := by simpa [Shape.pieces] using text
        rw [head] at same
        cases Option.some.inj same
        exact absurd facts.1 (by decide)
      simp [Part.pieces,Shape.pieces,leads,continues,quote]
    | number negative chars =>
      cases negative with
      | true => simp [Part.pieces,Shape.pieces,leads,continues,minus]
      | false =>
        have quote : chars.head? ≠ some '\'' := by
          intro same
          have head : chars = first::rest := by simpa [Shape.pieces] using text
          rw [head] at same
          have digit : first.isDigit = true := facts
          cases Option.some.inj same
          exact absurd digit (by decide)
        simp [Part.pieces,Shape.pieces,leads,continues,quote]
    | quoted chars => simp [Part.pieces,Shape.pieces,leads,continues,enclosed]

theorem parameter_chars (found : next text = some (piece,rest)) (kind : piece.kind = .parameter) : ∃ digits,
    piece.chars = '$'::digits ∧ digits ≠ [] ∧ (∀ char ∈ digits, char.isDigit = true) ∧ ∀ char ∈ rest.head?, tagChar char = false := by
  have apart : ∀ char ∈ rest.head?, tagChar char = false := by
    have followed := (next_read found).followed
    unfold follow at followed
    rwa [kind] at followed
  rcases next_kinds found with ⟨_,_,member,_⟩ | ⟨char,tail,_,_,plain,split⟩
  · obtain ⟨_,_,_,_,_,_,kinds⟩ := openings_mark member
    rw [kind] at kinds
    simp at kinds
  · rw [kind] at plain split
    have read : unjunked (char::tail.takeWhile Char.isDigit,tail.dropWhile Char.isDigit) = some (piece.chars,rest) := split
    unfold unjunked at read
    split at read
    · cases read
    · obtain ⟨chars,_⟩ := Prod.mk.inj (Option.some.inj read)
      unfold plainKind at plain
      split_ifs at plain
      next dollar _ digit =>
        refine ⟨tail.takeWhile Char.isDigit,by rw [← chars,dollar],?_,span_all _ tail,apart⟩
        cases tail with
        | nil => cases digit
        | cons next tail =>
          rw [List.takeWhile_cons_of_pos (show next.isDigit = true from digit)]
          simp

theorem Filled.first (filled : Filled list parts) (lexed : Lexed text list) :
    ((∀ shape, parts.head? ≠ some (.literal shape)) ∧ (written parts).head? = text.head?) ∨
    ∃ shape later, parts = .literal shape::later ∧ shape.Valid ∧ text.head? = some '$' := by
  cases filled with
  | nil =>
    rw [lexed.whole]
    exact .inl ⟨by simp,rfl⟩
  | kept plain filled =>
    obtain ⟨rest,found,_⟩ := lexed.first
    have read := next_read found
    obtain ⟨char,tail,same⟩ := List.exists_cons_of_ne_nil read.solid
    exact .inl ⟨by simp,by rw [read.whole,written_kept,same]; rfl⟩
  | literal kind valid filled =>
    obtain ⟨rest,found,_⟩ := lexed.first
    obtain ⟨digits,chars,_⟩ := parameter_chars found kind
    refine .inr ⟨_,_,rfl,valid,?_⟩
    rw [(next_read found).whole,chars]
    rfl

section
variable {list : List Piece} {parts : List Part} {rest : List Char}

theorem line_clear (ends : ∀ char ∈ rest.head?, newline char = true) (filled : Filled list parts) (lexed : Lexed rest list) :
    ∀ char ∈ (written parts).head?, newline char = true := by
  rcases filled.first lexed with ⟨_,same⟩ | ⟨_,_,_,_,dollar⟩
  · rwa [same]
  · exact absurd (ends '$' dollar) (by decide)

theorem name_clear (ends : nameFollow rest) (filled : Filled list parts) (lexed : Lexed rest list) : nameFollow (written parts) := by
  rcases filled.first lexed with ⟨_,same⟩ | ⟨shape,later,rfl,valid,_⟩
  · unfold nameFollow
    rwa [same]
  · obtain ⟨first,head,plain,_⟩ := literal_first valid later
    rw [nameFollow,head]
    intro same
    cases Option.some.inj same
    exact absurd plain (by decide)

theorem dots_kept (lexed : Lexed ('.':: '.'::rest) list) (filled : Filled list parts) :
    ∃ later, parts = .kept ⟨.mark,['.','.']⟩::later := by
  cases filled with
  | nil => cases lexed.whole
  | kept plain filled =>
    obtain ⟨_,found,_⟩ := lexed.first
    obtain ⟨rfl,_⟩ := Prod.mk.inj (Option.some.inj ((dots_next rest).symm.trans found))
    exact ⟨_,rfl⟩
  | literal kind valid filled =>
    obtain ⟨_,found,_⟩ := lexed.first
    obtain ⟨rfl,_⟩ := Prod.mk.inj (Option.some.inj ((dots_next rest).symm.trans found))
    cases kind

theorem number_clear (follow : numberFollow chars rest) (filled : Filled list parts) (lexed : Lexed rest list) :
    numberFollow chars (written parts) ↔ ∀ shape, parts.head? = some (.literal shape) →
      ∀ inner, shape ≠ .word inner ∧ shape ≠ .number false inner := by
  rcases filled.first lexed with ⟨kept,same⟩ | ⟨shape,later,rfl,valid,_⟩
  · refine iff_of_true ⟨?_,?_,?_⟩ fun shape first => absurd first (kept shape)
    · rw [same]
      exact follow.apart
    · rw [same]
      exact follow.dollar
    · rw [same]
      intro first
      refine ⟨(follow.point first).1,fun all => ?_⟩
      have second := (follow.point first).2 all
      obtain ⟨later,rfl⟩ : ∃ later, rest = '.':: '.'::later := by
        cases rest with
        | nil => cases first
        | cons char rest =>
          cases rest with
          | nil => cases second
          | cons next rest => exact ⟨rest,by rw [Option.some.inj first,Option.some.inj second]⟩
      obtain ⟨later,rfl⟩ := dots_kept lexed filled
      rfl
  · obtain ⟨first,head,plain,tag,_⟩ := literal_first valid later
    simp only [List.head?_cons,Option.some.injEq,Part.literal.injEq,forall_eq']
    constructor
    · intro fits inner
      have other : tagChar first = false := fits.apart first head
      refine ⟨?_,?_⟩ <;> rintro rfl
      · exact absurd (other.symm.trans (tag.mpr ⟨inner,.inl rfl⟩)) (by decide)
      · exact absurd (other.symm.trans (tag.mpr ⟨inner,.inr rfl⟩)) (by decide)
    · intro apart
      refine ⟨?_,?_,?_⟩
      · rw [head]
        rintro _ ⟨⟩
        by_contra held
        obtain ⟨inner,word | number⟩ := tag.mp (by simpa using held)
        · exact (apart inner).1 word
        · exact (apart inner).2 number
      · rw [head]
        intro same
        cases Option.some.inj same
        exact absurd plain (by decide)
      · rw [head]
        intro same
        cases Option.some.inj same
        exact absurd plain (by decide)

theorem mark_clear (some' : chars ≠ []) (follow : markFollow chars rest) (filled : Filled list parts) (lexed : Lexed rest list)
    (relexed : Lexed (written parts) (parts.flatMap Part.pieces)) :
    markFollow chars (written parts) ↔ (chars = ['.'] → ∀ shape, parts.head? = some (.literal shape) →
      ∀ inner, shape ≠ .number false inner) := by
  rcases filled.first lexed with ⟨kept,same⟩ | ⟨shape,later,rfl,valid,dollar⟩
  · refine iff_of_true ⟨markAt_same some' follow.whole (.inl same),fun alone => ?_,fun alone => ?_⟩
      fun _ shape first => absurd first (kept shape)
    · obtain ⟨untagged,digit⟩ := follow.dollar alone
      refine ⟨?_,by rwa [same]⟩
      have plain : ∀ char ∈ rest.head?, char.isDigit = false ∧ char ≠ '$' := by
        intro char first
        refine ⟨digit char first,?_⟩
        rintro rfl
        have tagged := delimiter_double first
        rw [untagged] at tagged
        cases tagged
      have run : rest.takeWhile identChar = (written parts).takeWhile identChar := by
        cases filled with
        | nil => rw [lexed.whole]; rfl
        | kept _ filled =>
          obtain ⟨_,found,_⟩ := lexed.first
          obtain ⟨_,again,_⟩ := relexed.first
          exact run_same plain found again
        | literal => exact absurd rfl (kept _)
      have untold := delimiter_run run
      rw [untagged] at untold
      simpa using untold.symm
    · rw [same]
      exact follow.point alone
  · obtain ⟨first,head,plain,_,digit,_⟩ := literal_first valid later
    have stray : chars ≠ ['$'] := by
      rintro rfl
      have tagged := delimiter_double dollar
      rw [(follow.dollar rfl).1] at tagged
      cases tagged
    simp only [List.head?_cons,Option.some.injEq,Part.literal.injEq,forall_eq']
    constructor
    · rintro fits alone inner rfl
      have other := fits.point alone first head
      exact absurd (other.symm.trans (digit.mpr ⟨inner,rfl⟩)) (by decide)
    · intro apart
      refine ⟨markAt_same some' follow.whole (.inr ?_),fun alone => absurd alone stray,fun alone => ?_⟩
      · rw [head]
        rintro _ ⟨⟩ member
        exact plain (each_char (by decide : (['.',':','='].all fun char => char ∈ ['$','.',':','=','"','e','E']) = true) first member)
      · rw [head]
        rintro _ ⟨⟩
        by_contra held
        obtain ⟨inner,same⟩ := digit.mp (by simpa using held)
        exact apart alone inner same

theorem tag_operator {char : Char} (tag : tagChar char = true) : opChar char = false := by
  by_contra held
  exact absurd ((operator_start (by simpa using held)).2.2.2.symm.trans tag) (by decide)

theorem operator_clear (some' : chars ≠ []) (follow : operatorAt (chars ++ rest) = chars) (filled : Filled list parts)
    (lexed : Lexed rest list) (relexed : Lexed (written parts) (parts.flatMap Part.pieces)) :
    operatorAt (chars ++ written parts) = chars ↔ ∀ inner, parts.head? = some (.literal (.number true inner)) →
      ¬(chars.getLast? = some '-' ∨ chars.any special = true) := by
  have all : ∀ char ∈ chars, opChar char = true := fun char member => operatorAt_all _ char (follow.symm ▸ member)
  obtain ⟨before,starts,whole⟩ := (operator_exact all rest).mp follow
  rw [operator_exact all]
  rcases filled.first lexed with ⟨kept,same⟩ | ⟨shape,later,rfl,valid,dollar⟩
  · have same' (char : Char) : Starts char (written parts) ↔ Starts char rest := by simp only [Starts,same]
    have run : operatorAt rest = operatorAt (written parts) := by
      cases filled with
      | nil => rw [lexed.whole]; rfl
      | kept _ filled =>
        obtain ⟨_,found,_⟩ := lexed.first
        obtain ⟨_,again,_⟩ := relexed.first
        rw [operator_next found,operator_next again]
      | literal => exact absurd rfl (kept _)
    refine iff_of_true ⟨before,?_,?_⟩ fun inner first => absurd first (kept _)
    · simpa only [same'] using starts
    · exact trim_same some' whole run
  · have bare : rest.takeWhile opChar = [] := by
      cases rest with
      | nil => rfl
      | cons char rest =>
        cases Option.some.inj dollar
        rfl
    rw [bare] at whole
    replace whole : trim chars = chars := by simpa [beforeComment] using whole
    obtain ⟨first,more,text,facts⟩ := first_shape valid
    rw [written_literal,text]
    by_cases negative : ∃ inner, shape = .number true inner
    · obtain ⟨inner,rfl⟩ := negative
      obtain ⟨rfl,digit,second,held⟩ := facts
      have run : ('-'::more ++ written later).takeWhile opChar = ['-'] := by
        cases more with
        | nil => cases second
        | cons next more =>
          cases Option.some.inj second
          rw [List.cons_append,List.cons_append,List.takeWhile_cons_of_pos (by decide),
            List.takeWhile_cons_of_neg (by simp [tag_operator (SqlLexer.digit_tag held)])]
      have opens (char : Char) : Starts char ('-'::more ++ written later) ↔ char = '-' := by simp [Starts]
      have signed : trim (chars ++ ['-']) = chars ↔ chars.any special = false := by
        cases some : chars.any special with
        | true => simp [trim,some]
        | false =>
          refine iff_of_true (trim_signs some' (each_char (by decide)) some ?_) rfl
          rwa [trim,if_neg (by simp [some])] at whole
      have sum : beforeComment ['-'] = ['-'] := rfl
      simp only [run,opens,sum,signed,before,true_and,List.head?_cons,Option.some.injEq,Part.literal.injEq,Shape.number.injEq,
        forall_eq',not_or,Bool.not_eq_true]
      cases chars.getLast? <;> simp
    · have plain : opChar first = false := by
        cases shape with
        | word chars => exact tag_operator (by simp [tagChar,facts.1])
        | number sign chars =>
          cases sign with
          | true => exact absurd ⟨chars,rfl⟩ negative
          | false => exact tag_operator (SqlLexer.digit_tag facts)
        | quoted chars =>
          obtain rfl : first = '\'' := facts
          decide
      have run : (first::more ++ written later).takeWhile opChar = [] := List.takeWhile_cons_of_neg (by simp [plain])
      refine iff_of_true ⟨before,?_,?_⟩ ?_
      · rintro char _ (⟨_,same⟩ | ⟨_,same⟩)
        · cases Option.some.inj same
          exact absurd plain (by decide)
        · cases Option.some.inj same
          exact absurd plain (by decide)
      · rw [run]
        simpa [beforeComment] using whole
      · rintro inner ⟨⟩
        exact absurd ⟨inner,rfl⟩ negative

theorem opening_letter {start : Char} {mark : List Char} (member : (start::mark,kind) ∈ openings) (letter : identStart start = true) :
    mark = ['\''] ∨ (start = 'u' ∨ start = 'U') ∧ ∃ quote, mark = ['&',quote] ∧ (quote = '\'' ∨ quote = '"') := by
  have each : ∀ entry ∈ openings, identStart (entry.1.headD ' ') = true → entry.1.tail = ['\''] ∨
      (entry.1.head? = some 'u' ∨ entry.1.head? = some 'U') ∧ (entry.1.tail = ['&','\''] ∨ entry.1.tail = ['&','"']) := by decide
  rcases each _ member letter with quote | ⟨first,same | same⟩
  · exact .inl quote
  · exact .inr ⟨first.imp Option.some.inj Option.some.inj,'\'',same,.inl rfl⟩
  · exact .inr ⟨first.imp Option.some.inj Option.some.inj,'"',same,.inr rfl⟩

-- A text that begins with U& and a quote has no ampersand and quote of its own behind
-- the letter: the quote is a literal's.
theorem ampersand_literal {quote : Char} (filled : Filled list parts) (lexed : Lexed rest list)
    (relexed : Lexed (written parts) (parts.flatMap Part.pieces)) (quoted : quote = '\'' ∨ quote = '"')
    (apart : ¬['&',quote] <+: rest) (kept : ∀ shape, parts.head? ≠ some (.literal shape)) (starts : ['&',quote] <+: written parts) :
    ∃ inner later, parts = .kept ⟨.operator,['&']⟩::.literal (.quoted inner)::later := by
  obtain ⟨behind,whole⟩ := starts
  cases filled with
  | nil => cases whole
  | literal => exact absurd rfl (kept _)
  | @kept piece list parts plain filled =>
    obtain ⟨text,found,inside⟩ := lexed.first
    obtain ⟨_,again,_⟩ := relexed.first
    have operator : operatorAt (written (.kept piece::parts)) = ['&'] := by
      rw [← whole]
      rcases quoted with rfl | rfl <;> rfl
    rw [operator_next again] at operator
    split at operator
    · next kind =>
      obtain rfl : piece = ⟨.operator,['&']⟩ := by
        cases piece
        cases kind
        cases operator
        rfl
      have inner : quote::behind = written parts := by simpa using whole
      have source : rest = '&'::text := (next_read found).whole
      rcases filled.first inside with ⟨_,same⟩ | ⟨shape,later,rfl,valid,_⟩
      · refine absurd ?_ apart
        rw [← inner] at same
        cases text with
        | nil => cases same
        | cons char text =>
          cases Option.some.inj same
          exact ⟨text,source.symm⟩
      · obtain ⟨first,head,other,_,_,literal⟩ := literal_first valid later
        rw [← inner] at head
        cases Option.some.inj head
        rcases quoted with rfl | rfl
        · obtain ⟨chars,rfl⟩ := literal.mp rfl
          exact ⟨chars,later,rfl⟩
        · exact absurd (by decide) other
    · cases operator

theorem word_clear {first : Char} {tail : List Char} (start : identStart first = true) (all : ∀ char ∈ tail, identChar char = true)
    (follow : wordFollow (first::tail) rest) (filled : Filled list parts) (lexed : Lexed rest list)
    (relexed : Lexed (written parts) (parts.flatMap Part.pieces)) :
    wordFollow (first::tail) (written parts) ↔ ¬prefixes (.kept ⟨.word,first::tail⟩::parts) := by
  have closed (entry : List Char × Kind) (member : entry ∈ openings) : ¬entry.1 <+: first::tail ++ rest := by
    have none' := List.find?_eq_none.mp follow.plain entry member
    rwa [List.isPrefixOf_iff_prefix] at none'
  constructor
  · intro fits
    cases parts with
    | nil => exact id
    | cons part parts =>
      cases part with
      | literal => exact id
      | kept mark =>
        cases parts with
        | nil => exact id
        | cons part parts =>
          cases part with
          | kept => exact id
          | literal shape =>
            cases shape with
            | word => exact id
            | number => exact id
            | quoted chars =>
              rintro ⟨letter,rfl⟩
              have opened : opening (first::tail ++ '&':: '\''::(chars ++ ['\''] ++ written parts)) = none := by
                simpa [Shape.pieces,enclosed] using fits.plain
              rcases letter with ⟨⟨⟩⟩ | ⟨⟨⟩⟩
              · exact absurd opened (by simp [opening,openings,List.isPrefixOf])
              · exact absurd opened (by simp [opening,openings,List.isPrefixOf])
  · intro apart
    rcases filled.first lexed with ⟨kept,same⟩ | ⟨_,_,_,_,dollar⟩
    · refine ⟨?_,?_⟩
      · rw [same]
        exact follow.ends
      · refine List.find?_eq_none.mpr fun entry member starts => ?_
        rw [List.isPrefixOf_iff_prefix] at starts
        obtain ⟨mark,kind⟩ := entry
        obtain ⟨char,mark,rfl,_⟩ := openings_mark member
        obtain ⟨rfl,begun⟩ := List.cons_prefix_cons.mp starts
        have shut := closed _ member
        simp only [List.cons_append,List.cons_prefix_cons,true_and] at shut
        have marks := opening_letter member start
        cases tail with
        | cons second tail =>
          have held := all second (List.mem_cons_self ..)
          rcases marks with rfl | ⟨_,quote,rfl,_⟩
          · obtain ⟨rfl,_⟩ := List.cons_prefix_cons.mp begun
            exact absurd held (by decide)
          · obtain ⟨rfl,_⟩ := List.cons_prefix_cons.mp begun
            exact absurd held (by decide)
        | nil =>
          rcases marks with rfl | ⟨letter,quote,rfl,quoted⟩
          · obtain ⟨behind,whole⟩ : ['\''] <+: written parts := begun
            rw [← whole] at same
            refine shut ?_
            cases rest with
            | nil => cases same
            | cons char rest =>
              cases Option.some.inj same
              exact ⟨rest,rfl⟩
          · obtain ⟨inner,later,rfl⟩ := ampersand_literal filled lexed relexed quoted shut kept begun
            refine apart ⟨?_,rfl⟩
            rcases letter with rfl | rfl <;> simp
    · exact absurd (follow.ends '$' dollar) (by decide)

theorem gap_clear (filled : Filled list parts) (relexed : Lexed (written parts) (parts.flatMap Part.pieces)) :
    gap false false (written parts) = none ↔ ¬continues false parts := by
  rw [← leads_exact filled,← gap_exact relexed,Bool.not_eq_true,Option.isSome_eq_false_iff,Option.isNone_iff_eq_none]

theorem constant_clear {quote : Quote} (follow : constantFollow quote rest) (filled : Filled list parts) (lexed : Lexed rest list)
    (relexed : Lexed (written parts) (parts.flatMap Part.pieces)) :
    constantFollow quote (written parts) ↔ (∀ inner, parts.head? = some (.literal (.quoted inner)) → quote = .bits) ∧
      ¬continues false parts := by
  have single : quoteFollow quote (written parts) ↔ ∀ inner, parts.head? = some (.literal (.quoted inner)) → quote = .bits := by
    rcases filled.first lexed with ⟨kept,same⟩ | ⟨shape,later,rfl,valid,_⟩
    · refine iff_of_true ?_ fun inner first => absurd first (kept _)
      rw [quoteFollow,same]
      exact follow.single
    · obtain ⟨first,head,_,_,_,quoted⟩ := literal_first valid later
      rw [quoteFollow,head]
      simp only [ne_eq,Option.some.injEq,quoted,List.head?_cons,Part.literal.injEq]
      constructor
      · rintro (bits | apart) inner same
        · exact bits
        · exact absurd ⟨inner,same⟩ apart
      · intro bits
        by_cases held : ∃ inner, shape = .quoted inner
        · obtain ⟨inner,same⟩ := held
          exact .inl (bits inner same)
        · exact .inr held
  rw [← single,← gap_clear filled relexed]
  exact ⟨fun fits => ⟨fits.single,fits.last⟩,fun ⟨single,last⟩ => ⟨single,last⟩⟩

theorem word_literal {chars : List Char} (valid : (Shape.word chars).Valid) (apart : ∀ char ∈ rest.head?, tagChar char = false)
    (filled : Filled list parts) (lexed : Lexed rest list) :
    wordFollow chars (written parts) ↔ ∀ other ∈ parts.head?, ¬touches (.literal (.word chars)) other := by
  obtain ⟨first,tail,text,start,plain⟩ := first_shape valid
  obtain rfl : chars = first::tail := by simpa [Shape.pieces] using text
  have opened : opening (first::tail ++ written parts) = none := opening_none plain _
  have ends : wordFollow (first::tail) (written parts) ↔ ∀ char ∈ (written parts).head?, identChar char = false :=
    ⟨fun follow => follow.ends,fun ends => ⟨ends,opened⟩⟩
  rw [ends]
  rcases filled.first lexed with ⟨kept,same⟩ | ⟨shape,later,rfl,valid,_⟩
  · cases filled with
    | nil => simp
    | literal => exact absurd rfl (kept _)
    | @kept piece list parts other filled =>
      obtain ⟨_,found,_⟩ := lexed.first
      have read := next_read found
      obtain ⟨char,more,chars⟩ := List.exists_cons_of_ne_nil read.solid
      have tag : tagChar char = false := apart char (by rw [read.whole,chars]; rfl)
      simp [touches,chars,identChar,tag]
  · obtain ⟨char,head,other,tag,_⟩ := literal_first valid later
    have dollar : char ≠ '$' := by
      rintro rfl
      exact absurd other (by decide)
    have ident : identChar char = tagChar char := by simp [identChar,dollar]
    rw [head,List.head?_cons]
    simp only [Option.mem_def,Option.some.injEq,forall_eq',ident]
    rw [← Bool.not_eq_true,tag]
    cases shape using Shape.forms <;> simp [touches]

theorem number_literal {chars : List Char} (numeral : Numeral chars) (negative : Bool) (apart : ∀ char ∈ rest.head?, tagChar char = false)
    (filled : Filled list parts) (lexed : Lexed rest list) (relexed : Lexed (written parts) (parts.flatMap Part.pieces)) :
    numberFollow chars (written parts) ↔ ∀ other ∈ parts.head?, ¬touches (.literal (.number negative chars)) other := by
  rcases filled.first lexed with ⟨kept,same⟩ | ⟨shape,later,rfl,valid,_⟩
  · cases filled with
    | nil => exact iff_of_true ⟨by simp,by simp,by simp⟩ (by simp)
    | literal => exact absurd rfl (kept _)
    | @kept piece list parts other filled =>
      obtain ⟨_,again,_⟩ := relexed.first
      have read := next_read again
      obtain ⟨char,more,text⟩ := List.exists_cons_of_ne_nil read.solid
      have two := points_next again
      have head : (written (.kept piece::parts)).head? = piece.chars.head? := by rw [written_kept,text]; rfl
      constructor
      · rintro fits _ ⟨⟩ ⟨all,point,single⟩
        rw [head] at two
        have second := (fits.point (head.trans point)).2 all
        exact single ((two point).mp second)
      · intro clear
        refine ⟨?_,fun _ => numeral.tail,fun point => ⟨numeral.last,fun all => ?_⟩⟩
        · rw [same]
          exact apart
        · by_contra second
          exact clear _ rfl ⟨all,head.symm.trans point,mt (two point).mpr second⟩
  · obtain ⟨char,head,other,tag,_⟩ := literal_first valid later
    have plain : char ≠ '$' ∧ char ≠ '.' := by
      constructor <;> rintro rfl <;> exact absurd other (by decide)
    have fits : numberFollow chars (written (.literal shape::later)) ↔ tagChar char = false := by
      constructor
      · intro fits
        exact fits.apart char head
      · intro tag
        refine ⟨?_,fun _ => numeral.tail,fun point => ?_⟩
        · rw [head]
          simpa using tag
        · rw [head] at point
          exact absurd (Option.some.inj point) plain.2
    rw [fits,← Bool.not_eq_true,tag]
    cases shape using Shape.forms <;> simp [touches]

theorem quoted_literal {chars : List Char} (filled : Filled list parts) (lexed : Lexed rest list)
    (relexed : Lexed (written parts) (parts.flatMap Part.pieces)) :
    constantFollow .standard (written parts) ↔
      (∀ other ∈ parts.head?, ¬touches (.literal (.quoted chars)) other) ∧ ¬continues false parts := by
  have single : quoteFollow .standard (written parts) ↔ ∀ other ∈ parts.head?, ¬touches (.literal (.quoted chars)) other := by
    simp only [quoteFollow,reduceCtorEq,false_or]
    cases filled with
    | nil => simp
    | kept _ filled =>
      obtain ⟨_,again,_⟩ := relexed.first
      obtain ⟨char,more,text⟩ := List.exists_cons_of_ne_nil (next_read again).solid
      simp [touches,text]
    | @literal _ _ shape later _ valid filled =>
      obtain ⟨char,head,_,_,_,quoted⟩ := literal_first valid later
      rw [head]
      simp only [ne_eq,Option.some.injEq,quoted,List.head?_cons,Option.mem_def,forall_eq']
      cases shape using Shape.forms <;> simp [touches]
  rw [← single,← gap_clear filled relexed]
  exact ⟨fun fits => ⟨fits.single,fits.last⟩,fun ⟨single,last⟩ => ⟨single,last⟩⟩

theorem touches_kept (touched : touches (.kept piece) (.literal shape)) : piece.kind = .number ∨ piece.kind = .mark ∨
    piece.kind = .operator ∨ ∃ quote, piece.kind = .constant quote := by
  cases shape with
  | word => exact .inl touched
  | number negative =>
    cases negative with
    | false => exact touched.imp_right fun same => .inl (by rw [same])
    | true => exact .inr (.inr (.inl touched.1))
  | quoted =>
    obtain ⟨quote,kind,_⟩ := touched
    exact .inr (.inr (.inr ⟨quote,kind⟩))

theorem prefixes_kept (held : prefixes (.kept piece::parts)) : piece.kind = .word := by
  unfold prefixes at held
  split at held
  · next same =>
    cases same
    rcases held.1 with rfl | rfl <;> rfl
  · exact held.elim

theorem word_chars (found : next text = some (piece,rest)) (kind : piece.kind = .word) :
    ∃ first tail, piece.chars = first::tail ∧ identStart first = true ∧ ∀ char ∈ tail, identChar char = true := by
  rcases next_kinds found with ⟨_,_,member,_⟩ | ⟨char,tail,_,_,plain,split⟩
  · obtain ⟨_,_,_,_,_,_,kinds⟩ := openings_mark member
    rw [kind] at kinds
    simp at kinds
  · rw [kind] at plain split
    refine ⟨char,tail.takeWhile identChar,(Prod.mk.inj (Option.some.inj split)).1.symm,?_,span_all _ tail⟩
    unfold plainKind at plain
    split_ifs at plain
    assumption

theorem kept_apart (piece : Piece) (parts : List Part) : (∀ other ∈ parts.head?, ¬touches (.kept piece) other) ↔
    ∀ shape, parts.head? = some (.literal shape) → ¬touches (.kept piece) (.literal shape) := by
  cases parts with
  | nil => simp
  | cons part parts => cases part <;> simp [touches]

theorem kept_clear (found : next text = some (piece,rest)) (plain : piece.kind ≠ .parameter) (filled : Filled list parts)
    (lexed : Lexed rest list) (relexed : Lexed (written parts) (parts.flatMap Part.pieces)) :
    follow piece (written parts) ↔ Clear (.kept piece) parts := by
  have read := next_read found
  have followed := read.followed
  have clear : Clear (.kept piece) parts ↔ (∀ shape, parts.head? = some (.literal shape) → ¬touches (.kept piece) (.literal shape)) ∧
      (closes (.kept piece) → ¬continues false parts) ∧ ¬prefixes (.kept piece::parts) := by
    rw [← kept_apart]
    exact ⟨fun clear => ⟨clear.apart,clear.ended,clear.plain⟩,fun ⟨apart,ended,plain⟩ => ⟨apart,ended,plain⟩⟩
  rw [clear]
  have silent (fits : follow piece (written parts)) (quiet : piece.kind ∈ [Kind.space,.line,.block,.dollar,.name]) :
      follow piece (written parts) ↔ (∀ shape, parts.head? = some (.literal shape) → ¬touches (.kept piece) (.literal shape)) ∧
        (closes (.kept piece) → ¬continues false parts) ∧ ¬prefixes (.kept piece::parts) := by
    refine iff_of_true fits ⟨fun shape _ touched => ?_,fun ⟨quote,same⟩ => ?_,fun held => ?_⟩
    · rcases touches_kept touched with same | same | same | ⟨_,same⟩ <;> rw [same] at quiet <;> simp at quiet
    · rw [same] at quiet
      simp at quiet
    · rw [prefixes_kept held] at quiet
      simp at quiet
  have unprefixed (other : piece.kind ≠ .word) : ¬prefixes (.kept piece::parts) := fun held => other (prefixes_kept held)
  have unclosed (other : ∀ quote, piece.kind ≠ .constant quote) : closes (.kept piece) → ¬continues false parts :=
    fun ⟨quote,same⟩ => absurd same (other quote)
  obtain ⟨kind,chars⟩ := piece
  cases kind with
  | space => exact silent trivial (by simp)
  | line => exact silent (line_clear followed filled lexed) (by simp)
  | block => exact silent trivial (by simp)
  | dollar => exact silent trivial (by simp)
  | name => exact silent (name_clear followed filled lexed) (by simp)
  | parameter => exact absurd rfl plain
  | constant quote =>
    have ended : (closes (.kept ⟨.constant quote,chars⟩) → ¬continues false parts) ↔ ¬continues false parts := by simp [closes]
    have apart (shape : Shape) : ¬touches (.kept ⟨.constant quote,chars⟩) (.literal shape) ↔
        ∀ inner, shape = .quoted inner → quote = .bits := by
      cases shape using Shape.forms <;> simp [touches]
    have exact' := constant_clear followed filled lexed relexed
    simp only [ended,apart,unprefixed (by simp),not_false_eq_true,and_true]
    refine exact'.trans (and_congr_left fun _ => ⟨fun bits shape head inner same => ?_,fun bits inner head => ?_⟩)
    · exact bits inner (same ▸ head)
    · exact bits _ head inner rfl
  | number =>
    have apart (shape : Shape) : ¬touches (.kept ⟨.number,chars⟩) (.literal shape) ↔
        ∀ inner, shape ≠ .word inner ∧ shape ≠ .number false inner := by
      cases shape using Shape.forms <;> simp [touches]
    simp only [apart,unprefixed (by simp),not_false_eq_true,and_true]
    exact (number_clear followed filled lexed).trans (iff_self_and.mpr fun _ => unclosed (by simp))
  | word =>
    obtain ⟨first,tail,rfl,start,all⟩ := word_chars found rfl
    have apart (shape : Shape) : ¬touches (.kept ⟨.word,first::tail⟩) (.literal shape) := by
      intro touched
      rcases touches_kept touched with same | same | same | ⟨_,same⟩ <;> cases same
    simp only [apart,not_false_eq_true,implies_true,true_and]
    exact (word_clear start all followed filled lexed relexed).trans (iff_and_self.mpr fun _ => unclosed (by simp))
  | operator =>
    have apart (shape : Shape) : ¬touches (.kept ⟨.operator,chars⟩) (.literal shape) ↔
        ∀ inner, shape = .number true inner → ¬(chars.getLast? = some '-' ∨ chars.any special = true) := by
      cases shape using Shape.forms <;> simp [touches]
    have exact' := operator_clear read.solid followed filled lexed relexed
    simp only [apart,unprefixed (by simp),not_false_eq_true,and_true]
    refine exact'.trans ((iff_self_and.mpr fun _ => unclosed (by simp)).trans (and_congr_left fun _ =>
      ⟨fun plain shape head inner same => ?_,fun plain inner head => ?_⟩))
    · exact plain inner (same ▸ head)
    · exact plain _ head inner rfl
  | mark =>
    have apart (shape : Shape) : ¬touches (.kept ⟨.mark,chars⟩) (.literal shape) ↔
        (chars = ['.'] → ∀ inner, shape ≠ .number false inner) := by
      cases shape using Shape.forms <;> simp [touches]
    have exact' := mark_clear read.solid followed filled lexed relexed
    simp only [apart,unprefixed (by simp),not_false_eq_true,and_true]
    refine exact'.trans ((iff_self_and.mpr fun _ => unclosed (by simp)).trans (and_congr_left fun _ =>
      ⟨fun plain shape head alone => ?_,fun plain alone shape head => ?_⟩))
    · exact plain alone shape head
    · exact plain shape head alone

theorem literal_clear {shape : Shape} (valid : shape.Valid) (apart : ∀ char ∈ rest.head?, tagChar char = false)
    (filled : Filled list parts) (lexed : Lexed rest list) (relexed : Lexed (written parts) (parts.flatMap Part.pieces)) :
    follow shape.last (written parts) ↔ Clear (.literal shape) parts := by
  have clear : Clear (.literal shape) parts ↔ (∀ other ∈ parts.head?, ¬touches (.literal shape) other) ∧
      (closes (.literal shape) → ¬continues false parts) :=
    ⟨fun clear => ⟨clear.apart,clear.ended⟩,fun ⟨apart,ended⟩ => ⟨apart,ended,id⟩⟩
  rw [clear]
  cases shape with
  | word chars =>
    have ended : (closes (.literal (.word chars)) → ¬continues false parts) ↔ True := iff_true_intro fun held => held.elim
    rw [ended,and_true]
    exact word_literal valid apart filled lexed
  | number negative chars =>
    have ended : (closes (.literal (.number negative chars)) → ¬continues false parts) ↔ True := iff_true_intro fun held => held.elim
    rw [ended,and_true]
    exact number_literal valid negative apart filled lexed relexed
  | quoted chars =>
    have ended : (closes (.literal (.quoted chars)) → ¬continues false parts) ↔ ¬continues false parts := by simp [closes]
    rw [ended]
    exact quoted_literal filled lexed relexed

-- The text with its literals is read as the pieces and the literals' pieces exactly if
-- no two neighbours run into one another.
theorem separate_exact (lexed : Lexed text list) (filled : Filled list parts) :
    Lexed (written parts) (parts.flatMap Part.pieces) ↔ Separate parts := by
  induction filled generalizing text with
  | nil => exact iff_of_true .nil trivial
  | @kept piece list parts plain filled ih =>
    obtain ⟨rest,found,later⟩ := lexed.first
    have read : Lexed (written (.kept piece::parts)) ((Part.kept piece::parts).flatMap Part.pieces) ↔
        follow piece (written parts) ∧ Lexed (written parts) (parts.flatMap Part.pieces) := piece_exact found
    rw [read,Separate,← ih later]
    exact and_congr_left fun relexed => kept_clear found plain filled later relexed
  | @literal piece list shape parts kind valid filled ih =>
    obtain ⟨rest,found,later⟩ := lexed.first
    obtain ⟨_,_,_,_,apart⟩ := parameter_chars found kind
    have read : Lexed (written (.literal shape::parts)) ((Part.literal shape::parts).flatMap Part.pieces) ↔
        follow shape.last (written parts) ∧ Lexed (written parts) (parts.flatMap Part.pieces) := by
      rw [written_literal]
      exact shape_read valid
    rw [read,Separate,← ih later]
    exact and_congr_left fun relexed => literal_clear valid apart filled later relexed

end

end Zveltio.SqlSeams
