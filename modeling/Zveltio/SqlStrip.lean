import Zveltio.SqlLexer
namespace Zveltio.SqlStrip

open SqlLexer

-- stripNonCode: the scan over one statement, with what it has passed.
def blockEnd : List Char → List Char × List Char
  | '*':: '/'::rest => (['*','/'],rest)
  | char::rest => ahead [char] (blockEnd rest)
  | [] => ([],[])

def quotedEnd : List Char → List Char × List Char
  | [] => ([],[])
  | [char] => ([char],[])
  | char::next::rest =>
    if char = '"' ∧ next = '"' then ahead [char,next] (quotedEnd rest)
    else if char = '"' then ([char],next::rest)
    else ahead [char] (quotedEnd (next::rest))

def stringEnd (escapes : Bool) : List Char → List Char × List Char
  | [] => ([],[])
  | [char] => ([char],[])
  | char::next::rest =>
    if escapes = true ∧ char = '\\' then ahead [char,next] (stringEnd escapes rest)
    else if char = '\'' ∧ next = '\'' then ahead [char,next] (stringEnd escapes rest)
    else if char = '\'' then ([char],next::rest)
    else ahead [char] (stringEnd escapes (next::rest))

-- /(?:^|[^\w$\u0080-\uffff])[eE]$/ on the two characters before the quote.
def escapeMark (before : List Char) : Bool :=
  before.head?.any (fun char => char = 'e' || char = 'E') && before.tail.head?.all fun char => !identChar char

structure Piece where
  blank : Bool
  chars : List Char
  rest : List Char

def blanked (split : List Char × List Char) : Piece := ⟨true,split.1,split.2⟩

def copied (split : List Char × List Char) : Piece := ⟨false,split.1,split.2⟩

-- DOLLAR_TAG is the delimiter of the lexer; indexOf finds the first one behind it.
def piece (before : List Char) (char : Char) (rest : List Char) : Piece :=
  if char = '-' ∧ rest.head? = some '-' then
    blanked (char::rest.takeWhile fun char => !newline char,rest.dropWhile fun char => !newline char)
  else if char = '/' ∧ rest.head? = some '*' then blanked (ahead ['/','*'] (blockEnd rest.tail))
  else if char = '"' then copied (ahead [char] (quotedEnd rest))
  else if char = '\'' then blanked (ahead [char] (stringEnd (escapeMark before) rest))
  else
    match if char = '$' ∧ !before.head?.any identChar then delimiter (char::rest) else none with
    | some (tag,after) => blanked (ahead tag (through tag after))
    | none => copied ([char],rest)

def emit (next : Piece) : List Char := if next.blank then List.replicate next.chars.length ' ' else next.chars

def strip : Nat → List Char → List Char → List Char
  | fuel + 1,before,char::rest =>
    let next := piece before char rest
    emit next ++ strip fuel (next.chars.reverse ++ before) next.rest
  | _,_,_ => []

def stripNonCode (sql : List Char) : List Char := strip sql.length [] sql

-- Where the scan leaves the lexer: a comment inside a comment; a later segment of an
-- escape constant, or one behind a dollar sign, that ends elsewhere when its backslashes
-- are taken as they are; a dollar quote behind a number, a parameter or a dollar quote.
def inStep (before : List Char) (text : List Char) : Bool :=
  match text with
  | '/':: '*'::rest => !decide (['/','*'] <:+: (comment 0 rest).1)
  | '$'::_ => (delimiter text).isNone || !before.head?.any identChar
  | char:: '\''::rest =>
    if char = 'e' ∨ char = 'E' then
      (before.head? != some '$' || segment false rest == segment true rest) &&
        (continued (rest.length + 1) rest).all fun later => segment false later == segment true later
    else true
  | _ => true

def inStepAll : Nat → List Char → List Char → Bool
  | 0,_,_ => true
  | fuel + 1,before,text => match lexeme text with
    | none => true
    | some next => inStep before text && inStepAll fuel (next.chars.reverse ++ before) next.rest

def InStep (sql : List Char) : Prop := inStepAll sql.length [] sql = true

theorem quotedEnd_same (text : List Char) : quotedEnd text = identifier text := by
  fun_induction quotedEnd text with
  | case1 => rfl
  | case2 char => by_cases quote : char = '"' <;> simp [identifier,quote,ahead]
  | case3 char next rest both ih => rw [both.1,both.2,identifier,ih]
  | case4 next rest single =>
    have other : next ≠ '"' := fun same => single ⟨rfl,same⟩
    simp [identifier,other]
  | case5 char next rest _ other ih => rw [identifier,ih] <;> simp_all

theorem stringEnd_same (escapes : Bool) (text : List Char) : stringEnd escapes text = segment escapes text := by
  fun_induction stringEnd escapes text with
  | case1 => rfl
  | case2 char => by_cases quote : char = '\'' <;> by_cases escape : char = '\\' <;> simp_all [SqlLexer.segment,ahead]
  | case3 char next rest escape ih =>
    rw [ih,escape.1,escape.2]
    simp [SqlLexer.segment]
  | case4 char next rest _ both ih => rw [both.1,both.2,SqlLexer.segment,ih]
  | case5 next rest _ single =>
    have other : next ≠ '\'' := fun same => single ⟨rfl,same⟩
    simp [SqlLexer.segment,other]
  | case6 char next rest plain _ other ih =>
    by_cases escape : char = '\\'
    · have taken : escapes = false := by simpa [escape] using plain
      rw [ih,escape,taken]
      simp [SqlLexer.segment]
    · rw [SqlLexer.segment,ih] <;> simp_all

theorem blockEnd_same {text : List Char} (flat : ¬['/','*'] <:+: (comment 0 text).1) : blockEnd text = comment 0 text := by
  fun_induction blockEnd text with
  | case1 => rfl
  | case2 char rest open' ih =>
    by_cases nested : ∃ more, char = '/' ∧ rest = '*'::more
    · obtain ⟨more,rfl,rfl⟩ := nested
      rw [comment] at flat
      exact absurd (List.prefix_append _ _).isInfix flat
    · have step : comment 0 (char::rest) = ahead [char] (comment 0 rest) := by
        rw [comment] <;> simp_all
      rw [step] at flat ⊢
      rw [ih fun deep => flat (deep.trans (List.suffix_append _ _).isInfix)]
  | case3 => rfl

theorem blockEnd_splits (text : List Char) : Splits text (blockEnd text) := by
  fun_induction blockEnd text with
  | case1 => rfl
  | case2 char rest _ ih => exact ahead_splits [char] ih
  | case3 => rfl

theorem second {rest : List Char} (next : rest.head? = some char) : rest = char::rest.tail := by
  obtain ⟨more,rfl⟩ := List.head?_eq_some_iff.mp next
  rfl

theorem piece_splits (before : List Char) (char : Char) (rest : List Char) :
    (piece before char rest).chars ++ (piece before char rest).rest = char::rest ∧ (piece before char rest).chars ≠ [] := by
  unfold piece
  split
  · exact ⟨congrArg (List.cons char) (takeWhile_splits _ rest),by simp [blanked]⟩
  · split
    · next open' =>
      rw [open'.1,second open'.2]
      exact ⟨ahead_splits ['/','*'] (blockEnd_splits rest.tail),by simp [blanked,ahead]⟩
    · split
      · rw [quotedEnd_same]
        exact ⟨ahead_splits [char] (identifier_splits rest),by simp [copied,ahead]⟩
      · split
        · rw [stringEnd_same]
          exact ⟨ahead_splits [char] (segment_splits _ rest),by simp [blanked,ahead]⟩
        · split
          · next tag after found =>
            split at found
            · obtain ⟨whole,name,start⟩ := delimiter_splits found
              have splits := ahead_splits tag (through_splits tag after)
              have same : tag ++ after = char::rest := whole
              rw [same] at splits
              exact ⟨splits,by simp_all [blanked,ahead]⟩
            · cases found
          · exact ⟨rfl,by simp [copied]⟩

def scan (before text : List Char) : List Char := strip text.length before text

theorem strip_fuel (fuel other : Nat) (before text : List Char) (enough : text.length ≤ fuel) (plenty : text.length ≤ other) :
    strip fuel before text = strip other before text := by
  induction fuel generalizing other before text with
  | zero =>
    rw [List.length_eq_zero_iff.mp (Nat.le_zero.mp enough)]
    cases other <;> rfl
  | succ fuel ih =>
    cases text with
    | nil => cases other <;> rfl
    | cons char rest =>
      cases other with
      | zero => simp at plenty
      | succ other =>
        obtain ⟨whole,some'⟩ := piece_splits before char rest
        have size := congrArg List.length whole
        have long := List.length_pos_iff.mpr some'
        simp only [List.length_append,List.length_cons] at size enough plenty
        rw [strip,strip,ih other _ _ (by omega) (by omega)]

theorem scan_piece (before : List Char) (char : Char) (rest : List Char) : scan before (char::rest) =
    emit (piece before char rest) ++
      scan ((piece before char rest).chars.reverse ++ before) (piece before char rest).rest := by
  obtain ⟨whole,some'⟩ := piece_splits before char rest
  have size := congrArg List.length whole
  have long := List.length_pos_iff.mpr some'
  simp only [List.length_append,List.length_cons] at size
  rw [scan,List.length_cons,strip,scan]
  congr 1
  exact strip_fuel _ _ _ _ (by omega) (Nat.le_refl _)

-- The scan gets from behind one text to behind a longer one.
structure Passes (before chars rest out : List Char) : Prop where
  long : out.length = chars.length
  scanned : scan before (chars ++ rest) = out ++ scan (chars.reverse ++ before) rest

theorem Passes.trans {before chars more rest out next : List Char} (first : Passes before chars (more ++ rest) out)
    (second : Passes (chars.reverse ++ before) more rest next) : Passes before (chars ++ more) rest (out ++ next) := by
  refine ⟨by simp [first.long,second.long],?_⟩
  rw [List.append_assoc,first.scanned,second.scanned,List.reverse_append]
  simp

theorem Passes.next {before chars text out next : List Char} {split : List Char × List Char} (first : Passes before chars text out)
    (whole : Splits text split) (second : Passes (chars.reverse ++ before) split.1 split.2 next) :
    Passes before (chars ++ split.1) split.2 (out ++ next) := by
  rw [← whole] at first
  exact first.trans second

theorem Passes.refl (before rest : List Char) : Passes before [] rest [] := ⟨rfl,rfl⟩

theorem emit_long (next : Piece) : (emit next).length = next.chars.length := by
  unfold emit
  split <;> simp

theorem passes_piece {before : List Char} {next : Piece} (found : piece before char rest = next) :
    Passes before next.chars next.rest (emit next) := by
  subst found
  refine ⟨emit_long _,?_⟩
  rw [(piece_splits before char rest).1,scan_piece]

theorem passes_plain {before rest : List Char} {char : Char} (line : char = '-' → rest.head? ≠ some '-')
    (block : char = '/' → rest.head? ≠ some '*') (name : char ≠ '"') (quote : char ≠ '\'')
    (dollar : char = '$' → before.head?.any identChar = true ∨ delimiter (char::rest) = none) :
    Passes before [char] rest [char] := by
  have found : piece before char rest = copied ([char],rest) := by
    have closed : (if char = '$' ∧ !before.head?.any identChar then delimiter (char::rest) else none) = none := by
      split
      · next opens =>
        rcases dollar opens.1 with named | none'
        · simp [named] at opens
        · exact none'
      · rfl
    unfold piece
    rw [if_neg fun both => line both.1 both.2,if_neg fun both => block both.1 both.2,if_neg name,if_neg quote,closed]
  exact passes_piece found

def Quiet (char : Char) : Prop := char ≠ '-' ∧ char ≠ '/' ∧ char ≠ '"' ∧ char ≠ '\'' ∧ char ≠ '$'

theorem tag_quiet {char : Char} (tag : tagChar char = true) : Quiet char := by
  refine ⟨?_,?_,?_,?_,?_⟩ <;>
  · rintro rfl
    exact absurd tag (by decide)

theorem passes_quiet {chars : List Char} (quiet : ∀ char ∈ chars, Quiet char) (before rest : List Char) :
    Passes before chars rest chars := by
  induction chars generalizing before with
  | nil => exact Passes.refl before rest
  | cons char chars ih =>
    obtain ⟨line,block,name,quote,dollar⟩ := quiet char List.mem_cons_self
    have one : Passes before [char] (chars ++ rest) [char] := passes_plain (fun same => absurd same line)
      (fun same => absurd same block) name quote fun same => absurd same dollar
    exact one.trans (ih (fun later member => quiet later (List.mem_cons_of_mem _ member)) (char::before))

theorem passes_name {chars : List Char} (name : ∀ char ∈ chars, identChar char = true) (before rest : List Char)
    (behind : before.head?.any identChar = true ∨ chars.head?.all tagChar = true) : Passes before chars rest chars := by
  induction chars generalizing before with
  | nil => exact Passes.refl before rest
  | cons char chars ih =>
    have letter := name char List.mem_cons_self
    have one : Passes before [char] (chars ++ rest) [char] := by
      by_cases dollar : char = '$'
      · subst dollar
        have inner := behind.resolve_right fun tag => absurd (show tagChar '$' = true from tag) (by decide)
        exact passes_plain (fun same => absurd same (by decide)) (fun same => absurd same (by decide)) (by decide) (by decide) fun _ => .inl inner
      · have tag : tagChar char = true := by simpa [identChar,dollar] using letter
        obtain ⟨line,block,name,quote,dollar⟩ := tag_quiet tag
        exact passes_plain (fun same => absurd same line) (fun same => absurd same block) name quote
          fun same => absurd same dollar
    exact one.trans (ih (fun later member => name later (List.mem_cons_of_mem _ member)) (char::before)
      (.inl (by simpa using letter)))

-- Where the scan stands before a lexeme: no escape mark that the lexer does not see, and
-- no name cut in two.
structure Fresh (before text : List Char) : Prop where
  quote : text.head? = some '\'' → escapeMark before = false
  name : before.head?.any tagChar = true → text.head?.any identStart = false

theorem unmarked {before : List Char} (last : before.head? = some char) (plain : char ≠ 'e' ∧ char ≠ 'E') :
    escapeMark before = false := by
  simp [escapeMark,last,plain]

theorem fresh_behind {before : List Char} (last : before.head? = some char) (plain : tagChar char = false) (text : List Char) :
    Fresh before text := by
  refine ⟨fun _ => unmarked last ⟨?_,?_⟩,fun tag => ?_⟩
  · rintro rfl
    exact absurd plain (by decide)
  · rintro rfl
    exact absurd plain (by decide)
  · simp [last,plain] at tag

theorem fresh_end (before : List Char) : Fresh before [] := ⟨fun quote => absurd quote (by simp),fun _ => rfl⟩

theorem fresh_ends {split : List Char × List Char} (ends : Ends char split) (plain : tagChar char = false) (before : List Char) :
    Fresh (split.1.reverse ++ before) split.2 := by
  rcases ends with done | last
  · rw [done]
    exact fresh_end _
  · exact fresh_behind (by simp [List.head?_append,last]) plain _

theorem gap_passes (size : Nat) {seen : Bool} {before text between after : List Char} (short : text.length ≤ size)
    (found : gap false seen text = some (between,after)) (fresh : text.head? = some '\'' → escapeMark before = false) :
    (∃ out, Passes before between after out) ∧ after.head? = some '\'' ∧ escapeMark (between.reverse ++ before) = false := by
  induction size generalizing seen before text between with
  | zero =>
    rw [List.length_eq_zero_iff.mp (Nat.le_zero.mp short)] at found
    cases found
  | succ size ih =>
    cases text with
    | nil => cases found
    | cons char rest =>
      have less : rest.length ≤ size := by simpa using short
      -- One character of white space is copied.
      have white : ∀ seen', space char = true → (gap false seen' rest).map (ahead [char]) = some (between,after) →
          (∃ out, Passes before between after out) ∧ after.head? = some '\'' ∧
            escapeMark (between.reverse ++ before) = false := by
        intro seen' blank mapped
        obtain ⟨⟨later,tail⟩,here,same⟩ := Option.map_eq_some_iff.mp mapped
        cases same
        have plain := space_plain blank
        obtain ⟨⟨out,passes⟩,quote,mark⟩ := ih less here (fresh_behind (show (char::before).head? = some char from rfl) plain.1 rest).quote
        have one : Passes before [char] (later ++ tail) [char] :=
          passes_quiet (by simpa [Quiet] using plain.2) before (later ++ tail)
        exact ⟨⟨_,one.trans passes⟩,quote,by simpa [ahead] using mark⟩
      rw [gap] at found
      split at found
      · next line => exact white true (by simp [space,line]) found
      · split at found
        · next comment => cases comment
        · split at found
          · next blank => exact white seen blank found
          · split at found
            · next line =>
              rw [gap_line,Option.map_map] at found
              obtain ⟨⟨later,_⟩,here,same⟩ := Option.map_eq_some_iff.mp found
              cases same
              have behind : (rest.dropWhile fun char => !newline char).head? = some '\'' →
                  escapeMark ((char::rest.takeWhile fun char => !newline char).reverse ++ before) = false := by
                intro quote
                have stop := List.head?_dropWhile_not (fun char => !newline char) rest
                rw [quote] at stop
                exact absurd stop (by decide)
              have small : (rest.dropWhile fun char => !newline char).length ≤ size :=
                le_trans (List.dropWhile_suffix _).length_le less
              obtain ⟨⟨out,passes⟩,quote,mark⟩ := ih small here behind
              have comment : piece before char rest = blanked
                  (char::rest.takeWhile fun char => !newline char,rest.dropWhile fun char => !newline char) := by
                rw [piece,if_pos line]
              have one := passes_piece comment
              rw [← gap_splits _ _ _ here] at one
              exact ⟨⟨_,one.trans passes⟩,quote,by simpa [ahead] using mark⟩
            · split at found
              · next quote =>
                cases found
                exact ⟨⟨[],Passes.refl _ _⟩,congrArg some quote.1,fresh (congrArg some quote.1)⟩
              · cases found

theorem segment_passes {before text : List Char} (same : segment (escapeMark before) text = segment escapes text) :
    Passes before ('\''::(segment escapes text).1) (segment escapes text).2
      (emit (blanked (ahead ['\''] (segment escapes text)))) := by
  have found : piece before '\'' text = blanked (ahead ['\''] (segment escapes text)) := by
    rw [← same,← stringEnd_same]
    rfl
  exact passes_piece found

theorem constant_passes (escapes : Bool) (fuel : Nat) (before text : List Char)
    (same : segment (escapeMark before) text = segment escapes text)
    (steady : escapes = true → ∀ later ∈ continued fuel text, segment false later = segment true later) :
    ∃ out, Passes before ('\''::(constant escapes fuel text).1) (constant escapes fuel text).2 out := by
  induction fuel generalizing before text with
  | zero => exact ⟨_,segment_passes same⟩
  | succ fuel ih =>
    cases found : gap false false (segment escapes text).2 with
    | none =>
      simp only [constant,found]
      exact ⟨_,segment_passes same⟩
    | some split =>
      obtain ⟨between,after⟩ := split
      have first := segment_passes same
      have fresh := (fresh_ends (ahead_ends ['\''] (segment_ends escapes text)) (by decide) before).quote
      obtain ⟨⟨out,second'⟩,quote,mark⟩ := gap_passes _ (Nat.le_refl _) found fresh
      obtain ⟨rest,rfl⟩ := List.head?_eq_some_iff.mp quote
      have later : ∃ out, Passes (between.reverse ++ (('\''::(segment escapes text).1).reverse ++ before))
          ('\''::(constant escapes fuel rest).1) (constant escapes fuel rest).2 out := by
        refine ih _ rest ?_ fun escaping member inside => ?_
        · cases escapes with
          | false => exact congrArg (segment · rest) mark
          | true =>
            have own := steady rfl rest (by simp [continued,found])
            exact (congrArg (segment · rest) mark).trans own
        · subst escaping
          exact steady rfl member (by simp [continued,found,inside])
      obtain ⟨next,third⟩ := later
      have whole : Splits ('\''::rest) ('\''::(constant escapes fuel rest).1,(constant escapes fuel rest).2) :=
        congrArg (List.cons '\'') (constant_splits escapes fuel rest)
      have middle := second'.next whole third
      have behind : Splits (segment escapes text).2
          (between ++ '\''::(constant escapes fuel rest).1,(constant escapes fuel rest).2) := by
        refine Eq.trans ?_ (gap_splits _ _ _ found)
        rw [← show _ = '\''::rest from whole,List.append_assoc]
      have all := first.next behind middle
      simp only [constant,found,ahead,List.cons_append,List.append_assoc,List.nil_append] at all ⊢
      exact ⟨_,all⟩

theorem passes_digits (digit : Char → Bool) (plain : ∀ char, digit char = true → tagChar char = true) (before text : List Char) :
    Passes before (digits digit text).1 (digits digit text).2 (digits digit text).1 :=
  passes_quiet (fun char member => tag_quiet (digits_all digit plain text char member)) before _

theorem passes_exponent (before text : List Char) :
    Passes before (exponent text).1 (exponent text).2 (exponent text).1 := by
  unfold exponent
  split
  · next mark sign rest =>
    split
    · next letter =>
      have plain : Quiet mark := by rcases letter with rfl | rfl <;> unfold Quiet <;> decide
      have one : ∀ later, Passes before [mark] later [mark] := passes_quiet (by simpa using plain) before
      split
      · exact (one _).trans (passes_digits Char.isDigit (fun _ => digit_tag) _ _)
      · split
        · next signed =>
          have line : sign = '-' → rest.head? ≠ some '-' := by
            rintro rfl dash
            rw [dash] at signed
            exact absurd signed.2 (by decide)
          have plain : sign ≠ '/' ∧ sign ≠ '"' ∧ sign ≠ '\'' ∧ sign ≠ '$' := by
            rcases signed.1 with rfl | rfl <;> decide
          have two : Passes (mark::before) [sign] rest [sign] := passes_plain line (fun same => absurd same plain.1)
            plain.2.1 plain.2.2.1 fun same => absurd same plain.2.2.2
          have later := two.next (digits_splits Char.isDigit rest) (passes_digits Char.isDigit (fun _ => digit_tag) _ rest)
          exact (one _).next (ahead_splits [sign] (digits_splits Char.isDigit rest)) later
        · exact Passes.refl _ _
    · exact Passes.refl _ _
  · exact Passes.refl _ _

theorem passes_fraction (before text : List Char) :
    Passes before (fraction text).1 (fraction text).2 (fraction text).1 := by
  have point : ∀ later, Passes before ['.'] later ['.'] := passes_quiet (by simp [Quiet]) before
  unfold fraction
  split
  · split
    · exact (point _).trans (passes_digits Char.isDigit (fun _ => digit_tag) _ _)
    · exact point _
  · exact Passes.refl _ _

theorem passes_number (before text : List Char) : Passes before (number text).1 (number text).2 (number text).1 := by
  unfold number
  cases found : based text with
  | some split => exact passes_quiet (fun char member => tag_quiet ((based_all found).1 char member)) before _
  | none =>
    have whole := passes_digits Char.isDigit (fun _ => digit_tag) before text
    have point := whole.next (fraction_splits _) (passes_fraction _ _)
    exact point.next (exponent_splits _) (passes_exponent _ _)

theorem word_unmarked {chars : List Char} (word : ∀ char ∈ chars, identChar char = true) (long : 2 ≤ chars.length)
    (before : List Char) : escapeMark (chars.reverse ++ before) = false := by
  have back : ∀ char ∈ chars.reverse, identChar char = true := fun char member => word char (List.mem_reverse.mp member)
  have size : 2 ≤ chars.reverse.length := by simpa using long
  match chars.reverse,back,size with
  | last::other::more,back,_ =>
    have behind := back other (by simp)
    simp [escapeMark,behind]

theorem number_fresh {text : List Char} (quote : text.head? ≠ some '\'') (clean : junk (number text) = false) (before : List Char) :
    Fresh ((number text).1.reverse ++ before) (number text).2 := by
  simp only [junk,Bool.or_eq_false_iff] at clean
  refine ⟨fun next => ?_,fun _ => clean.1⟩
  cases found : based text with
  | some split =>
    have all := based_all found
    have same : number text = split := by simp [number,found]
    rw [same]
    exact word_unmarked (fun char member => by simp [identChar,all.1 char member]) all.2 before
  | none =>
    have same : number text = decimal text := by simp [number,found]
    rw [same] at next ⊢
    cases last : (decimal text).1.getLast? with
    | none =>
      have whole := decimal_splits text
      rw [Splits,List.getLast?_eq_none_iff.mp last,List.nil_append] at whole
      rw [whole] at next
      exact absurd next quote
    | some char =>
      have head : ((decimal text).1.reverse ++ before).head? = some char := by simp [List.head?_append,last]
      refine unmarked head ?_
      rcases decimal_last text char last with digit | rfl
      · constructor <;>
        · rintro rfl
          exact absurd digit (by decide)
      · decide

-- What one lexeme takes the scan to.
structure Stepped (before text : List Char) (next : Lexeme) : Prop where
  whole : next.chars ++ next.rest = text
  kept : ∃ out, Passes before next.chars next.rest out ∧ (next.code = true → out = next.chars)
  fresh : Fresh (next.chars.reverse ++ before) next.rest

theorem stepped_outside {split : List Char × List Char} (whole : Splits text split)
    (passes : ∃ out, Passes before split.1 split.2 out) (fresh : Fresh (split.1.reverse ++ before) split.2)
    (found : outside split = some next) : Stepped before text next := by
  cases Option.some.inj found
  obtain ⟨out,passes⟩ := passes
  exact ⟨whole,⟨out,passes,fun code => by cases code⟩,fresh⟩

theorem stepped_inside {split : List Char × List Char} (whole : Splits text split)
    (passes : Passes before split.1 split.2 split.1) (fresh : Fresh (split.1.reverse ++ before) split.2)
    (found : inside split = some next) : Stepped before text next := by
  cases Option.some.inj found
  exact ⟨whole,⟨_,passes,fun _ => rfl⟩,fresh⟩

theorem line_stepped {before rest : List Char} {char : Char} (line : char = '-' ∧ rest.head? = some '-')
    (found : outside (char::rest.takeWhile (fun char => !newline char),rest.dropWhile fun char => !newline char) = some next) :
    Stepped before (char::rest) next := by
  have comment : piece before char rest = blanked
      (char::rest.takeWhile fun char => !newline char,rest.dropWhile fun char => !newline char) := by
    rw [piece,if_pos line]
  have whole := ahead_splits [char] (takeWhile_splits (fun char => !newline char) rest)
  refine stepped_outside whole ⟨_,passes_piece comment⟩ ?_ found
  dsimp only [ahead]
  have stop := List.head?_dropWhile_not (fun char => !newline char) rest
  cases after : rest.dropWhile fun char => !newline char with
  | nil => exact fresh_end _
  | cons first more =>
    have ends : newline first = true := by simpa [after] using stop
    have plain := (space_plain (show space first = true by simp [space,ends])).1
    refine ⟨fun quote => ?_,fun _ => ?_⟩
    · cases Option.some.inj quote
      exact absurd ends (by decide)
    · simp only [tagChar,Bool.or_eq_false_iff] at plain
      exact plain.1

theorem block_stepped {before rest : List Char} (flat : ¬['/','*'] <:+: (comment 0 rest).1)
    (found : outside (ahead ['/','*'] (comment 0 rest)) = some next) : Stepped before ('/':: '*'::rest) next := by
  have closed : piece before '/' ('*'::rest) = blanked (ahead ['/','*'] (comment 0 rest)) := by
    rw [← blockEnd_same flat]
    rfl
  exact stepped_outside (ahead_splits ['/','*'] (comment_splits 0 rest)) ⟨_,passes_piece closed⟩
    (fresh_ends (ahead_ends _ (comment_ends 0 rest)) (by decide) before) found

theorem constant_stepped {before rest : List Char} (mark : escapeMark before = false)
    (found : outside (ahead ['\''] (constant false fuel rest)) = some next) : Stepped before ('\''::rest) next :=
  stepped_outside (ahead_splits ['\''] (constant_splits false fuel rest))
    (constant_passes false fuel before rest (congrArg (segment · rest) mark) fun escapes => by cases escapes)
    (fresh_ends (ahead_ends _ (constant_ends false fuel rest)) (by decide) before) found

theorem escape_stepped {before rest : List Char} {char : Char} (letter : char = 'e' ∨ char = 'E')
    (fresh : Fresh before (char:: '\''::rest))
    (first : before.head? = some '$' → segment false rest = segment true rest)
    (later : ∀ more ∈ continued fuel rest, segment false more = segment true more)
    (found : outside (ahead [char,'\''] (constant true fuel rest)) = some next) :
    Stepped before (char:: '\''::rest) next := by
  have plain : identStart char = true ∧ Quiet char := by
    rcases letter with rfl | rfl <;> exact ⟨rfl,by unfold Quiet; decide⟩
  have same : segment (escapeMark (char::before)) rest = segment true rest := by
    cases mark : escapeMark (char::before) with
    | true => rfl
    | false =>
      apply first
      cases behind : before.head? with
      | none => rcases letter with rfl | rfl <;> simp [escapeMark,behind] at mark
      | some other =>
        have name : identChar other = true := by rcases letter with rfl | rfl <;> simpa [escapeMark,behind] using mark
        by_cases tag : tagChar other = true
        · have cut := fresh.name (by simpa [behind] using tag)
          simp [plain.1] at cut
        · simpa [identChar,tag] using name
  obtain ⟨out,passes⟩ := constant_passes true fuel (char::before) rest same fun _ => later
  have one := (passes_quiet (by simpa using plain.2) before ('\''::rest) : Passes before [char] ('\''::rest) [char])
  have both : Passes before (ahead [char,'\''] (constant true fuel rest)).1 (constant true fuel rest).2 ([char] ++ out) :=
    @Passes.next _ _ _ _ _ (ahead ['\''] (constant true fuel rest)) one (ahead_splits ['\''] (constant_splits true fuel rest)) passes
  exact stepped_outside (ahead_splits [char,'\''] (constant_splits true fuel rest)) ⟨_,both⟩
    (fresh_ends (ahead_ends _ (constant_ends true fuel rest)) (by decide) before) found

theorem identifier_stepped {before rest : List Char} (found : inside (ahead ['"'] (identifier rest)) = some next) :
    Stepped before ('"'::rest) next := by
  have closed : piece before '"' rest = copied (ahead ['"'] (identifier rest)) := by
    rw [← quotedEnd_same]
    rfl
  exact stepped_inside (ahead_splits ['"'] (identifier_splits rest)) (passes_piece closed)
    (fresh_ends (ahead_ends _ (identifier_ends rest)) (by decide) before) found

theorem dollar_stepped {before rest tag after : List Char} (opens : delimiter ('$'::rest) = some (tag,after))
    (apart : before.head?.any identChar = false) (found : outside (ahead tag (through tag after)) = some next) :
    Stepped before ('$'::rest) next := by
  have closed : piece before '$' rest = blanked (ahead tag (through tag after)) := by
    simp [piece,apart,opens]
  obtain ⟨whole,name,shape⟩ := delimiter_splits opens
  have splits := ahead_splits tag (through_splits tag after)
  rw [show tag ++ after = '$'::rest from whole] at splits
  have ends := through_ends ('$'::name) after
  rw [show '$'::name ++ ['$'] = tag from shape.symm] at ends
  exact stepped_outside splits ⟨_,passes_piece closed⟩ (fresh_ends (ahead_ends _ ends) (by decide) before) found

theorem unmarked_all {chars : List Char} (plain : ∀ char ∈ chars, char ≠ 'e' ∧ char ≠ 'E') (some' : chars ≠ [])
    (before : List Char) : escapeMark (chars.reverse ++ before) = false := by
  cases last : chars.getLast? with
  | none => exact absurd (List.getLast?_eq_none_iff.mp last) some'
  | some char =>
    have head : (chars.reverse ++ before).head? = some char := by simp [List.head?_append,last]
    exact unmarked head (plain char (List.mem_of_getLast? last))

theorem digit_unmarked {char : Char} (digit : char.isDigit = true) : char ≠ 'e' ∧ char ≠ 'E' := by
  constructor <;>
  · rintro rfl
    exact absurd digit (by decide)

theorem parameter_stepped {before rest : List Char} (none' : delimiter ('$'::rest) = none)
    (found : unjunked ('$'::rest.takeWhile Char.isDigit,rest.dropWhile Char.isDigit) = some next) :
    Stepped before ('$'::rest) next := by
  unfold unjunked at found
  split at found
  · cases found
  · next clean =>
    simp only [junk,Bool.not_eq_true,Bool.or_eq_false_iff] at clean
    have digits : ∀ char ∈ rest.takeWhile Char.isDigit, char.isDigit = true := fun char => List.mem_takeWhile_imp
    have one : Passes before ['$'] rest ['$'] := passes_plain (fun same => absurd same (by decide))
      (fun same => absurd same (by decide)) (by decide) (by decide) fun _ => .inr none'
    have more := one.next (takeWhile_splits Char.isDigit rest)
      (passes_quiet (fun char member => tag_quiet (digit_tag (digits char member))) _ _)
    refine stepped_inside (ahead_splits ['$'] (takeWhile_splits Char.isDigit rest)) more
      ⟨fun _ => unmarked_all ?_ (by simp [ahead]) before,fun _ => clean.1⟩ found
    simp only [ahead,List.cons_append,List.nil_append,List.forall_mem_cons]
    exact ⟨by decide,fun char member => digit_unmarked (digits char member)⟩

theorem dots_quiet : ∀ char ∈ ['.','.'], Quiet char ∧ tagChar char = false := by
  intro char member
  have dot : char = '.' := by simpa using member
  subst dot
  exact ⟨by unfold Quiet; decide,by decide⟩

theorem quiet_stepped {before chars rest : List Char} (quiet : ∀ char ∈ chars, Quiet char ∧ tagChar char = false)
    (some' : chars ≠ []) (found : inside (chars,rest) = some next) : Stepped before (chars ++ rest) next := by
  have tail : ∃ char, chars.getLast? = some char ∧ tagChar char = false := by
    cases last : chars.getLast? with
    | none => exact absurd (List.getLast?_eq_none_iff.mp last) some'
    | some char => exact ⟨char,rfl,(quiet char (List.mem_of_getLast? last)).2⟩
  obtain ⟨char,last,plain⟩ := tail
  exact stepped_inside (show Splits _ (chars,rest) from rfl) (passes_quiet (fun char member => (quiet char member).1) before rest)
    (fresh_ends (.inr last) plain before) found

theorem number_stepped {before text : List Char} (quote : text.head? ≠ some '\'')
    (found : unjunked (number text) = some next) : Stepped before text next := by
  unfold unjunked at found
  split at found
  · cases found
  · next clean =>
    exact stepped_inside (number_splits text) (passes_number before text) (number_fresh quote (by simpa using clean) before) found

theorem name_stepped {before rest : List Char} {char : Char} (letter : identStart char = true)
    (escape : ¬((char = 'e' ∨ char = 'E') ∧ rest.head? = some '\''))
    (found : inside (char::rest.takeWhile identChar,rest.dropWhile identChar) = some next) :
    Stepped before (char::rest) next := by
  have tag : tagChar char = true := by simp [tagChar,letter]
  have word : ∀ other ∈ char::rest.takeWhile identChar, identChar other = true := by
    simp only [List.forall_mem_cons]
    exact ⟨by simp [identChar,tag],fun other => List.mem_takeWhile_imp⟩
  refine stepped_inside (ahead_splits [char] (takeWhile_splits identChar rest))
    (passes_name word before _ (.inr tag)) ⟨fun quote => ?_,fun _ => ?_⟩ found
  · cases run : rest.takeWhile identChar with
    | nil =>
      have all := takeWhile_splits identChar rest
      rw [Splits,run,List.nil_append] at all
      dsimp only at all quote
      rw [all] at quote
      exact unmarked rfl (not_or.mp fun mark => escape ⟨mark,quote⟩)
    | cons other more =>
      rw [run] at word
      exact word_unmarked word (by simp) before
  · have stop := List.head?_dropWhile_not identChar rest
    dsimp only [ahead]
    cases after : (rest.dropWhile identChar).head? with
    | none => rfl
    | some other =>
      simp only [after,identChar,tagChar] at stop
      simp_all

theorem other_stepped {before rest : List Char} {char : Char} (line : ¬(char = '-' ∧ rest.head? = some '-'))
    (block : ¬(char = '/' ∧ rest.head? = some '*')) (quote : char ≠ '\'') (name : char ≠ '"')
    (dollar : char = '$' → delimiter (char::rest) = none) (plain : tagChar char = false)
    (found : inside ([char],rest) = some next) : Stepped before (char::rest) next :=
  stepped_inside (show Splits _ ([char],rest) from rfl) (passes_plain (fun same dash => line ⟨same,dash⟩) (fun same star => block ⟨same,star⟩) name quote
    fun same => .inr (dollar same)) (fresh_behind rfl plain rest) found

theorem lexeme_stepped {before text : List Char} (found : lexeme text = some next) (fresh : Fresh before text)
    (steady : inStep before text = true) : Stepped before text next := by
  cases text with
  | nil => cases found
  | cons char rest =>
    rw [lexeme] at found
    split at found
    · next line => exact line_stepped line found
    · next line =>
      split at found
      · next block =>
        obtain ⟨rfl,star⟩ := block
        rw [second star] at steady ⊢
        exact block_stepped (by simpa [inStep] using steady) found
      · next block =>
        split at found
        · next quote =>
          subst quote
          exact constant_stepped (fresh.quote rfl) found
        · next quote =>
          split at found
          · next escape =>
            obtain ⟨letter,after⟩ := escape
            rw [second after] at steady fresh found ⊢
            have parts : (before.head? = some '$' → segment false rest.tail = segment true rest.tail) ∧
                ∀ more ∈ continued (rest.tail.length + 1) rest.tail, segment false more = segment true more := by
              rcases letter with rfl | rfl <;> simpa [inStep,imp_iff_not_or] using steady
            exact escape_stepped letter fresh parts.1 parts.2 found
          · next escape =>
            split at found
            · next name =>
              subst name
              exact identifier_stepped found
            · next name =>
              split at found
              · next dollar =>
                subst dollar
                split at found
                · next tag after opens =>
                  exact dollar_stepped opens (by simpa [inStep,opens] using steady) found
                · next none' =>
                  split at found
                  · exact parameter_stepped none' found
                  · exact other_stepped line block quote name (fun _ => none') (by decide) found
              · next dollar =>
                split at found
                · next dots =>
                  rw [dots.1,second dots.2] at found ⊢
                  exact quiet_stepped dots_quiet (by simp) found
                · split at found
                  · next start => exact number_stepped (by simpa using quote) found
                  · next start =>
                    split at found
                    · next letter => exact name_stepped letter escape found
                    · next letter =>
                      refine other_stepped line block quote name (fun same => absurd same dollar) ?_ found
                      simp only [tagChar]
                      simp_all

theorem scan_survives (fuel : Nat) {before text : List Char} (fresh : Fresh before text)
    (steady : inStepAll fuel before text = true) (position : Nat) (code : (marks fuel text)[position]? = some true) :
    (scan before text)[position]? = text[position]? := by
  induction fuel generalizing before text position with
  | zero => simp [marks] at code
  | succ fuel ih =>
    cases found : lexeme text with
    | none => simp [marks,found] at code
    | some next =>
      simp only [marks,found] at code
      simp only [inStepAll,found,Bool.and_eq_true] at steady
      obtain ⟨whole,⟨out,passes,kept⟩,later⟩ := lexeme_stepped found fresh steady.1
      rw [← whole,passes.scanned]
      by_cases here : position < next.chars.length
      · rw [List.getElem?_append_left (by simpa using here),List.getElem?_replicate_of_lt here] at code
        rw [kept (Option.some.inj code),List.getElem?_append_left here,List.getElem?_append_left here]
      · have beyond : next.chars.length ≤ position := Nat.le_of_not_lt here
        rw [List.getElem?_append_right (by simpa using beyond),List.length_replicate] at code
        rw [List.getElem?_append_right (by rw [passes.long]; exact beyond),List.getElem?_append_right beyond,passes.long]
        exact ih later steady.2 _ code

-- In step, nothing that PostgreSQL reads as code is blanked.
theorem code_survives {sql : List Char} (steady : InStep sql) (position : Nat) (code : (code sql)[position]? = some true) :
    (stripNonCode sql)[position]? = sql[position]? :=
  scan_survives sql.length ⟨fun _ => rfl,fun tag => by cases tag⟩ steady position code

-- The scan ends a comment at the first */, the quote behind it hides the rest.
theorem nested_comment_hides : ¬∀ (sql : List Char) (position : Nat), (code sql)[position]? = some true →
    (stripNonCode sql)[position]? = sql[position]? := by
  intro survives
  have kept := survives "SELECT 1/*/**/'*/,(TABLE session)--'".toList 25 (by decide +kernel)
  exact absurd kept (by decide +kernel)

def quoted : List Char := "SELECT E'a\\'b'/*'*/,\"it's\",$t$'$t$ FROM zvd_a--'".toList

theorem code_survives_quotes :
    InStep quoted ∧ ∀ position : Nat, (code quoted)[position]? = some true → (stripNonCode quoted)[position]? = quoted[position]? := by
  have steady : InStep quoted := by
    unfold InStep
    decide +kernel
  exact ⟨steady,fun position code => code_survives steady position code⟩

end Zveltio.SqlStrip
