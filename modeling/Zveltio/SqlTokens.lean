import Zveltio.SqlLexer
namespace Zveltio.SqlTokens

open SqlLexer (ahead newline space identStart tagChar identChar gap delimiter digits number junk)

-- PostgreSQL's lexer as a sequence of pieces, with standard_conforming_strings on.
-- What scan.l reports as an error, an unterminated constant or a name directly
-- behind a number, has no pieces.
inductive Quote where
  | standard
  | escape
  | unicode
  | bits
  deriving DecidableEq

inductive Kind where
  | space
  | line
  | block
  | constant (quote : Quote)
  | dollar
  | name
  | number
  | word
  | operator
  | parameter
  | mark
  deriving DecidableEq

structure Piece where
  kind : Kind
  chars : List Char
  deriving DecidableEq

-- White space and comments separate tokens and are none.
def Piece.blank (piece : Piece) : Bool := piece.kind = .space || piece.kind = .line || piece.kind = .block

abbrev Split := List Char × List Char

-- xc: comments nest.
@[grind] def blockEnd : Nat → List Char → Option Split
  | 0,'*':: '/'::rest => some (['*','/'],rest)
  | depth + 1,'*':: '/'::rest => (blockEnd depth rest).map (ahead ['*','/'])
  | depth,'/':: '*'::rest => (blockEnd (depth + 1) rest).map (ahead ['/','*'])
  | depth,char::rest => (blockEnd depth rest).map (ahead [char])
  | _,[] => none

-- xd and xui.
@[grind] def nameEnd : List Char → Option Split
  | '"':: '"'::rest => (nameEnd rest).map (ahead ['"','"'])
  | '"'::rest => some (['"'],rest)
  | char::rest => (nameEnd rest).map (ahead [char])
  | [] => none

-- To the closing quote. A doubled quote stays inside, except in xb and xh; in xe a
-- backslash takes the next character along.
@[grind] def closing (quote : Quote) : List Char → Option Split
  | '\'':: '\''::rest =>
    if quote = .bits then some (['\''],'\''::rest) else (closing quote rest).map (ahead ['\'','\''])
  | '\''::rest => some (['\''],rest)
  | '\\'::char::rest =>
    if quote = .escape then (closing quote rest).map (ahead ['\\',char])
    else (closing quote (char::rest)).map (ahead ['\\'])
  | char::rest => (closing quote rest).map (ahead [char])
  | [] => none

-- With the segments that continue it behind a newline.
@[grind] def constant (quote : Quote) : Nat → List Char → Option Split
  | 0,_ => none
  | fuel + 1,text => (closing quote text).bind fun split =>
    match gap false false split.2 with
    | some (between,mark::rest) => (constant quote fuel rest).map (ahead (split.1 ++ between ++ [mark]))
    | _ => some split

@[grind] def tagEnd (tag : List Char) : List Char → Option Split
  | [] => none
  | char::rest =>
    if tag.isPrefixOf (char::rest) then some (tag,(char::rest).drop tag.length) else (tagEnd tag rest).map (ahead [char])

def opChar (char : Char) : Bool :=
  char ∈ ['~','!','@','#','^','&','|',Char.ofNat 96,'?','%','+','-','*','/','<','>','=']

-- The operator characters that SQL itself does not use.
def special (char : Char) : Bool := char ∈ ['~','!','@','#','^','&','|',Char.ofNat 96,'?','%']

def sign (char : Char) : Bool := char = '+' || char = '-'

@[grind] def beforeComment : List Char → List Char
  | '-':: '-'::_ => []
  | '/':: '*'::_ => []
  | char::rest => char::beforeComment rest
  | [] => []

@[grind] def dropSigns : List Char → List Char
  | [] => []
  | char::rest => char::(rest.reverse.dropWhile sign).reverse

-- An operator of several characters ends in a sign only if one of them is special.
def operatorAt (text : List Char) : List Char :=
  let run := beforeComment (text.takeWhile opChar)
  if run.any special then run else dropSigns run

@[grind] def markAt : List Char → List Char
  | '.':: '.'::_ => ['.','.']
  | ':':: ':'::_ => [':',':']
  | ':':: '='::_ => [':','=']
  | char::_ => [char]
  | [] => []

def openings : List (List Char × Kind) :=
  [(['-','-'],.line),(['/','*'],.block),(['\''],.constant .standard),(['"'],.name),
    (['e','\''],.constant .escape),(['E','\''],.constant .escape),
    (['b','\''],.constant .bits),(['B','\''],.constant .bits),
    (['x','\''],.constant .bits),(['X','\''],.constant .bits),
    (['u','&','\''],.constant .unicode),(['U','&','\''],.constant .unicode),
    (['u','&','"'],.name),(['U','&','"'],.name)]

def opening (text : List Char) : Option (List Char × Kind) := openings.find? fun entry => entry.1.isPrefixOf text

@[grind] def body (text : List Char) : Kind → Option Split
  | .line => some (text.takeWhile fun char => !newline char,text.dropWhile fun char => !newline char)
  | .block => blockEnd 0 text
  | .constant quote => constant quote text.length text
  | .name => nameEnd text
  | _ => none

def dollarQuoted (text : List Char) : Option Split :=
  (delimiter text).bind fun tag => (tagEnd tag.1 tag.2).map (ahead tag.1)

def unjunked (split : Split) : Option Split := if junk split then none else some split

-- N'' is read as the word N and a constant.
def plainKind (char : Char) (rest : List Char) : Kind :=
  if space char then .space
  else if char = '$' then
    if (delimiter (char::rest)).isSome then .dollar
    else if rest.head?.any Char.isDigit then .parameter
    else .mark
  else if char.isDigit ∨ char = '.' ∧ rest.head?.any Char.isDigit then .number
  else if identStart char then .word
  else if opChar char then .operator
  else .mark

@[grind] def plainSplit (char : Char) (rest : List Char) : Kind → Option Split
  | .dollar => dollarQuoted (char::rest)
  | .parameter => unjunked (char::rest.takeWhile Char.isDigit,rest.dropWhile Char.isDigit)
  | .number => unjunked (number (char::rest))
  | .word => some (char::rest.takeWhile identChar,rest.dropWhile identChar)
  | .operator => some (operatorAt (char::rest),(char::rest).drop (operatorAt (char::rest)).length)
  | .mark => some (markAt (char::rest),(char::rest).drop (markAt (char::rest)).length)
  | _ => some ([char],rest)

def next (text : List Char) : Option (Piece × List Char) :=
  match opening text,text with
  | some (mark,kind),_ => (body (text.drop mark.length) kind).map fun split => (⟨kind,mark ++ split.1⟩,split.2)
  | none,char::rest => (plainSplit char rest (plainKind char rest)).map fun split =>
      (⟨plainKind char rest,split.1⟩,split.2)
  | none,[] => none

@[grind] def pieces : Nat → List Char → Option (List Piece)
  | _,[] => some []
  | 0,_ => none
  | fuel + 1,text => (next text).bind fun found => (pieces fuel found.2).map (found.1::·)

def lex (text : List Char) : Option (List Piece) := pieces text.length text

def tokens (text : List Char) : Option (List Piece) := (lex text).map (List.filter fun piece => !piece.blank)

-- A scan that reads the same split whatever allowed text follows it.
structure Bound (follow : List Char → Prop) (scan : List Char → Option Split) (text : List Char) (split : Split) : Prop where
  whole : text = split.1 ++ split.2
  solid : split.1 ≠ []
  followed : follow split.2
  stable : ∀ rest, follow rest → scan (split.1 ++ rest) = some (split.1,rest)

theorem each_char {chars : List Char} {held : Char → Prop} [DecidablePred held] (all : (chars.all fun char => held char) = true) :
    ∀ char ∈ chars, held char := fun char member => of_decide_eq_true (List.all_eq_true.mp all char member)

theorem mapped_ahead {found : Option Split} (mapped : found.map (ahead chars) = some split) :
    ∃ inner, found = some inner ∧ split = ahead chars inner := by
  obtain ⟨inner,here,rfl⟩ := Option.map_eq_some_iff.mp mapped
  exact ⟨inner,here,rfl⟩

theorem Bound.ahead {inner : Split} (bound : Bound follow scan text inner) (chars : List Char)
    (step : ∀ rest, outer (chars ++ (inner.1 ++ rest)) = (scan (inner.1 ++ rest)).map (SqlLexer.ahead chars)) :
    Bound follow outer (chars ++ text) (SqlLexer.ahead chars inner) := by
  refine ⟨?_,?_,bound.followed,?_⟩
  · simp [SqlLexer.ahead,← bound.whole]
  · simp [SqlLexer.ahead,bound.solid]
  · intro rest follow
    simp only [SqlLexer.ahead,List.append_assoc,step,bound.stable rest follow,Option.map_some]

theorem Bound.first (bound : Bound follow scan (char::text) split) : ∃ tail, split.1 = char::tail := by
  obtain ⟨first,tail,same⟩ := List.exists_cons_of_ne_nil bound.solid
  have whole := bound.whole
  rw [same,List.cons_append] at whole
  exact ⟨tail,(List.cons.inj whole).1 ▸ same⟩

def quoteFollow (quote : Quote) (rest : List Char) : Prop := quote = .bits ∨ rest.head? ≠ some '\''

theorem closing_double (rest : List Char) : closing quote ('\'':: '\''::rest) =
    if quote = .bits then some (['\''],'\''::rest) else (closing quote rest).map (ahead ['\'','\'']) := rfl

theorem closing_escape (char : Char) (rest : List Char) : closing quote ('\\'::char::rest) =
    if quote = .escape then (closing quote rest).map (ahead ['\\',char]) else (closing quote (char::rest)).map (ahead ['\\']) := rfl

theorem closing_quote (follow : quoteFollow quote rest) : closing quote ('\''::rest) = some (['\''],rest) := by
  cases rest with
  | nil => simp [closing]
  | cons char tail =>
    by_cases double : char = '\''
    · subst double
      rw [closing,if_pos (follow.resolve_right (by simp))]
    · rw [closing]
      intro more same
      exact double (List.cons.inj same).1

theorem closing_plain (plain : char ≠ '\'') (other : char ≠ '\\') :
    closing quote (char::rest) = (closing quote rest).map (ahead [char]) := by
  rw [closing] <;> simp [plain,other]

theorem closing_bound {quote : Quote} (found : closing quote text = some split) :
    Bound (quoteFollow quote) (closing quote) text split := by
  fun_induction closing quote text generalizing split with
  | case1 rest bits =>
    cases Option.some.inj found
    exact ⟨rfl,by simp,.inl bits,fun rest => closing_quote⟩
  | case2 rest doubles ih =>
    obtain ⟨inner,here,rfl⟩ := mapped_ahead found
    exact (ih here).ahead ['\'','\''] fun rest => by simp [closing_double,doubles]
  | case3 rest single =>
    cases Option.some.inj found
    refine ⟨rfl,by simp,.inr ?_,fun rest => closing_quote⟩
    intro first
    cases rest with
    | nil => cases first
    | cons char rest =>
      cases Option.some.inj first
      exact single rest rfl
  | case4 char rest escape ih =>
    obtain ⟨inner,here,rfl⟩ := mapped_ahead found
    exact (ih here).ahead ['\\',char] fun rest => by simp [closing_escape,escape]
  | case5 char rest plain ih =>
    obtain ⟨inner,here,rfl⟩ := mapped_ahead found
    refine (ih here).ahead ['\\'] fun rest => ?_
    obtain ⟨tail,same⟩ := (ih here).first
    simp [same,closing_escape,plain]
  | case6 char rest double open_ escape ih =>
    obtain ⟨inner,here,rfl⟩ := mapped_ahead found
    have other : char ≠ '\\' := by
      rintro rfl
      obtain ⟨first,tail,same⟩ := List.exists_cons_of_ne_nil (ih here).solid
      exact escape first (tail ++ inner.2) rfl (by rw [(ih here).whole,same,List.cons_append])
    exact (ih here).ahead [char] fun rest => closing_plain open_ other
  | case7 => cases found

def nameFollow (rest : List Char) : Prop := rest.head? ≠ some '"'

theorem nameEnd_double (rest : List Char) : nameEnd ('"':: '"'::rest) = (nameEnd rest).map (ahead ['"','"']) := rfl

theorem nameEnd_quote (follow : nameFollow rest) : nameEnd ('"'::rest) = some (['"'],rest) := by
  cases rest with
  | nil => simp [nameEnd]
  | cons char tail =>
    rw [nameEnd]
    intro more same
    exact follow (congrArg some (List.cons.inj same).1)

theorem nameEnd_plain (plain : char ≠ '"') : nameEnd (char::rest) = (nameEnd rest).map (ahead [char]) := by
  rw [nameEnd] <;> simp [plain]

theorem nameEnd_bound (found : nameEnd text = some split) : Bound nameFollow nameEnd text split := by
  fun_induction nameEnd text generalizing split with
  | case1 rest ih =>
    obtain ⟨inner,here,rfl⟩ := mapped_ahead found
    exact (ih here).ahead ['"','"'] fun rest => by simp [nameEnd_double]
  | case2 rest single =>
    cases Option.some.inj found
    refine ⟨rfl,by simp,?_,fun rest => nameEnd_quote⟩
    intro first
    cases rest with
    | nil => cases first
    | cons char rest =>
      cases Option.some.inj first
      exact single rest rfl
  | case3 char rest double open_ ih =>
    obtain ⟨inner,here,rfl⟩ := mapped_ahead found
    exact (ih here).ahead [char] fun rest => nameEnd_plain open_
  | case4 => cases found

theorem blockEnd_bound {depth : Nat} (found : blockEnd depth text = some split) :
    Bound (fun _ => True) (blockEnd depth) text split := by
  fun_induction blockEnd depth text generalizing split with
  | case1 rest =>
    cases Option.some.inj found
    exact ⟨rfl,by simp,trivial,fun rest _ => by simp [blockEnd]⟩
  | case2 depth rest ih =>
    obtain ⟨inner,here,rfl⟩ := mapped_ahead found
    exact (ih here).ahead ['*','/'] fun rest => by simp [blockEnd]
  | case3 depth rest ih =>
    obtain ⟨inner,here,rfl⟩ := mapped_ahead found
    exact (ih here).ahead ['/','*'] fun rest => by simp [blockEnd]
  | case4 depth char rest zero more open_ ih =>
    obtain ⟨inner,here,rfl⟩ := mapped_ahead found
    refine (ih here).ahead [char] fun rest' => ?_
    obtain ⟨first,tail,same⟩ := List.exists_cons_of_ne_nil (ih here).solid
    have cons : rest = first::(tail ++ inner.2) := by rw [(ih here).whole,same,List.cons_append]
    have closes : ¬(char = '*' ∧ first = '/') := by
      rintro ⟨rfl,rfl⟩
      cases depth with
      | zero => exact zero _ rfl rfl cons
      | succ depth => exact more depth _ rfl rfl cons
    have opens : ¬(char = '/' ∧ first = '*') := by
      rintro ⟨rfl,rfl⟩
      exact open_ _ rfl cons
    simp only [same,List.cons_append]
    rw [blockEnd]
    all_goals simp_all
  | case5 => cases found

theorem tagEnd_bound {tag : List Char} (some' : tag ≠ []) (found : tagEnd tag text = some split) :
    Bound (fun _ => True) (tagEnd tag) text split ∧ tag <:+ split.1 := by
  fun_induction tagEnd tag text generalizing split with
  | case1 => cases found
  | case2 char rest here =>
    cases Option.some.inj found
    obtain ⟨tail,same⟩ := List.isPrefixOf_iff_prefix.mp here
    have dropped : (char::rest).drop tag.length = tail := by rw [← same,List.drop_left]
    refine ⟨⟨?_,some',trivial,?_⟩,List.suffix_rfl⟩
    · rw [dropped,same]
    · intro rest' _
      obtain ⟨first,more,cons⟩ := List.exists_cons_of_ne_nil some'
      have starts : tag.isPrefixOf (first::(more ++ rest')) = true :=
        List.isPrefixOf_iff_prefix.mpr ⟨rest',by rw [cons,List.cons_append]⟩
      have whole : first::(more ++ rest') = tag ++ rest' := by rw [cons,List.cons_append]
      rw [← whole,tagEnd,if_pos starts,whole,List.drop_left]
  | case3 char rest apart ih =>
    obtain ⟨inner,here,rfl⟩ := mapped_ahead found
    obtain ⟨bound,suffix⟩ := ih here
    refine ⟨bound.ahead [char] fun rest' => ?_,suffix.trans (List.suffix_append _ _)⟩
    rw [List.singleton_append,tagEnd,if_neg]
    intro starts
    refine apart (List.isPrefixOf_iff_prefix.mpr ?_)
    -- The tag is no longer than what was read, so the rest has no part in this.
    have long : tag.length ≤ (char::inner.1).length := by
      have short := suffix.length_le
      simp only [List.length_cons]
      omega
    have part : tag <+: char::inner.1 :=
      List.prefix_of_prefix_length_le (List.isPrefixOf_iff_prefix.mp starts) ⟨rest',by simp⟩ long
    exact part.trans ⟨inner.2,by rw [bound.whole]; rfl⟩

theorem gap_step {found : Option Split} (mapped : found.map (ahead [char]) = some split) :
    ∃ inner, found = some inner ∧ split = (char::inner.1,inner.2) := mapped_ahead mapped

theorem gap_bound {inComment seen : Bool} (found : gap inComment seen text = some split) :
    ∃ tail, split.2 = '\''::tail ∧ text = split.1 ++ '\''::tail ∧
      ∀ rest, gap inComment seen (split.1 ++ '\''::rest) = some (split.1,'\''::rest) := by
  fun_induction gap inComment seen text generalizing split with
  | case1 => cases found
  | case2 inComment seen char rest ends ih =>
    obtain ⟨inner,here,rfl⟩ := gap_step found
    obtain ⟨tail,last,whole,stable⟩ := ih here
    exact ⟨tail,last,by rw [whole]; rfl,fun rest => by simp [gap,ends,stable,ahead]⟩
  | case3 seen char rest ends ih =>
    obtain ⟨inner,here,rfl⟩ := gap_step found
    obtain ⟨tail,last,whole,stable⟩ := ih here
    exact ⟨tail,last,by rw [whole]; rfl,fun rest => by simp [gap,ends,stable,ahead]⟩
  | case4 inComment seen char rest ends code blank ih =>
    obtain ⟨inner,here,rfl⟩ := gap_step found
    obtain ⟨tail,last,whole,stable⟩ := ih here
    exact ⟨tail,last,by rw [whole]; rfl,fun rest => by simp [gap,ends,code,blank,stable,ahead]⟩
  | case5 inComment seen char rest ends code blank dashes ih =>
    obtain ⟨inner,here,rfl⟩ := gap_step found
    obtain ⟨tail,last,whole,stable⟩ := ih here
    refine ⟨tail,last,by rw [whole]; rfl,fun rest' => ?_⟩
    obtain ⟨rfl,first⟩ := dashes
    have again : (inner.1 ++ '\''::rest').head? = some '-' := by
      rw [whole] at first
      cases same : inner.1 <;> simp_all
    simp [gap,newline,space,code,again,stable,ahead]
  | case6 inComment seen char rest ends code blank dashes closes =>
    cases Option.some.inj found
    obtain ⟨rfl,rfl⟩ := closes
    exact ⟨rest,rfl,rfl,fun rest => by simp [gap,newline,space,code]⟩
  | case7 => cases found

structure constantFollow (quote : Quote) (rest : List Char) : Prop where
  single : quoteFollow quote rest
  last : gap false false rest = none

theorem constant_bound {quote : Quote} (found : constant quote fuel text = some split) (enough : split.1.length ≤ more) :
    Bound (constantFollow quote) (constant quote more) text split := by
  induction fuel generalizing text split more with
  | zero => cases found
  | succ fuel ih =>
    obtain ⟨first,closed,rest⟩ := Option.bind_eq_some_iff.mp found
    have bound := closing_bound closed
    obtain ⟨most,rfl⟩ : ∃ most, more = most + 1 := by
      refine ⟨more - 1,?_⟩
      have some' : split.1.length ≠ 0 := by
        split at rest
        · obtain ⟨inner,_,rfl⟩ := mapped_ahead rest
          simp [ahead]
        · cases Option.some.inj rest
          exact fun none' => bound.solid (List.length_eq_zero_iff.mp none')
      omega
    split at rest
    · next between mark later gapped =>
      obtain ⟨inner,here,rfl⟩ := mapped_ahead rest
      obtain ⟨tail,last,whole,stable⟩ := gap_bound gapped
      cases last
      have less : inner.1.length ≤ most := by
        simp only [ahead,List.length_append,List.length_singleton] at enough
        omega
      have inside := ih here less
      have text_eq : text = first.1 ++ between ++ ['\''] ++ later := by
        rw [bound.whole,whole]
        simp
      rw [text_eq]
      refine inside.ahead (first.1 ++ between ++ ['\'']) fun rest' => ?_
      have followed : quoteFollow quote (between ++ '\''::(inner.1 ++ rest')) := by
        refine bound.followed.imp_right fun single => ?_
        rw [whole] at single
        cases same : between <;> simp_all
      have again := bound.stable _ followed
      simp only [List.append_assoc,List.singleton_append,constant,again,Option.bind_some,stable]
    · next ends =>
      have same := Option.some.inj rest
      subst same
      have last : gap false false first.2 = none := by
        refine Option.eq_none_iff_forall_not_mem.mpr ?_
        rintro ⟨between,later⟩ gapped
        obtain ⟨tail,quoted,_,_⟩ := gap_bound gapped
        cases quoted
        exact ends between '\'' tail gapped
      refine ⟨bound.whole,bound.solid,⟨bound.followed,last⟩,fun rest' follow => ?_⟩
      simp only [constant,bound.stable rest' follow.single,Option.bind_some,follow.last]

section
variable {keep : Char → Bool} {chars rest : List Char}

theorem span_stable (all : ∀ char ∈ chars, keep char = true) (ends : ∀ char ∈ rest.head?, keep char = false) :
    (chars ++ rest).takeWhile keep = chars ∧ (chars ++ rest).dropWhile keep = rest := by
  rw [List.takeWhile_append_of_pos all,List.dropWhile_append_of_pos all]
  cases rest with
  | nil => simp
  | cons char rest => simp [ends char rfl]

theorem span_ends (keep : Char → Bool) (text : List Char) : ∀ char ∈ (text.dropWhile keep).head?, keep char = false := by
  intro char first
  have stops := List.head?_dropWhile_not keep text
  rw [Option.mem_def.mp first] at stops
  simpa using stops

theorem span_all (keep : Char → Bool) (text : List Char) : ∀ char ∈ text.takeWhile keep, keep char = true := by
  intro char member
  exact List.all_eq_true.mp List.all_takeWhile char member

end

theorem dollar_apart : tagChar '$' = false := by decide

theorem delimiter_bound {text : List Char} (found : delimiter text = some split) :
    text = split.1 ++ split.2 ∧ split.1 ≠ [] ∧ ∀ rest, delimiter (split.1 ++ rest) = some (split.1,rest) := by
  obtain ⟨whole,_⟩ := SqlLexer.delimiter_splits found
  unfold delimiter at found
  split at found
  · next rest =>
    split at found
    · next after ends =>
      dsimp only at found
      split at found
      · next start =>
        cases Option.some.inj found
        refine ⟨whole.symm,by simp,fun rest' => ?_⟩
        have ends : ∀ char ∈ ('$'::rest').head?, tagChar char = false := by simp [dollar_apart]
        obtain ⟨taken,dropped⟩ := span_stable (span_all tagChar rest) ends
        simp only [List.cons_append,List.append_assoc,List.nil_append,delimiter,taken,dropped]
        rw [if_pos start]
      · cases found
    · cases found
  · cases found

theorem dollarQuoted_bound (found : dollarQuoted text = some split) :
    Bound (fun _ => True) dollarQuoted text split ∧ ∀ rest, (delimiter (split.1 ++ rest)).isSome = true := by
  obtain ⟨tag,opened,closed⟩ := Option.bind_eq_some_iff.mp found
  obtain ⟨inner,here,rfl⟩ := mapped_ahead closed
  obtain ⟨whole,some',stable⟩ := delimiter_bound opened
  have bound := (tagEnd_bound some' here).1
  rw [whole]
  refine ⟨bound.ahead tag.1 fun rest => ?_,fun rest => ?_⟩
  · simp only [dollarQuoted,stable,Option.bind_some]
  · simp only [ahead,List.append_assoc,stable,Option.isSome_some]

def digitFollow (digit : Char → Bool) (rest : List Char) : Prop :=
  ∀ char ∈ rest.head?, digit char = false ∧ char ≠ '_'

section
variable {digit : Char → Bool}

theorem digits_cons (plain : char ≠ '_') (rest : List Char) :
    digits digit (char::rest) = if digit char then ahead [char] (digits digit rest) else ([],char::rest) := by
  rw [digits]
  simp [plain]

theorem digits_none (follow : digitFollow digit rest) : digits digit rest = ([],rest) := by
  cases rest with
  | nil => rfl
  | cons char rest =>
    obtain ⟨other,plain⟩ := follow char rfl
    rw [digits_cons plain,if_neg (by simp [other])]

theorem digits_ends (under : digit '_' = false) (text : List Char) :
    ∀ char ∈ (digits digit text).2.head?, digit char = false := by
  fun_induction digits digit text with
  | case1 => simp
  | case2 char rest found ih => exact ih
  | case3 char rest other => simpa using under
  | case4 char rest _ found ih => exact ih
  | case5 char rest _ other => simpa using other

theorem digits_stable (under : digit '_' = false) (text : List Char) (follow : digitFollow digit rest) :
    digits digit ((digits digit text).1 ++ rest) = ((digits digit text).1,rest) := by
  fun_induction digits digit text with
  | case1 => exact digits_none follow
  | case2 char rest' found ih => simp [ahead,digits,found,ih]
  | case3 => exact digits_none follow
  | case4 char rest' _ found ih =>
    have plain : char ≠ '_' := by
      rintro rfl
      exact absurd (under.symm.trans found) (by decide)
    simp only [ahead,List.cons_append,List.nil_append,digits_cons plain,found,if_true,ih]
  | case5 => exact digits_none follow

end

end Zveltio.SqlTokens
