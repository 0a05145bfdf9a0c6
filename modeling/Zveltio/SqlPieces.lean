import Zveltio.SqlNumbers
namespace Zveltio.SqlPieces

open SqlLexer (ahead newline space tagChar identStart identChar gap delimiter digits number junk decimal based)
open SqlTokens SqlNumbers

theorem beforeComment_front (run : List Char) : beforeComment run <+: run := by
  fun_induction beforeComment run with
  | case1 => exact List.nil_prefix
  | case2 => exact List.nil_prefix
  | case3 char rest _ _ ih => exact List.cons_prefix_cons.mpr ⟨rfl,ih⟩
  | case4 => exact List.nil_prefix

theorem dropSigns_front (run : List Char) : dropSigns run <+: run := by
  cases run with
  | nil => exact List.nil_prefix
  | cons char rest =>
    refine List.cons_prefix_cons.mpr ⟨rfl,?_⟩
    have suffix := List.reverse_prefix.mpr (List.dropWhile_suffix sign : rest.reverse.dropWhile sign <:+ rest.reverse)
    rwa [List.reverse_reverse] at suffix

theorem operatorAt_front (text : List Char) : operatorAt text <+: text := by
  have run : beforeComment (text.takeWhile opChar) <+: text :=
    (beforeComment_front _).trans (List.takeWhile_prefix _)
  unfold operatorAt
  dsimp only
  split
  · exact run
  · exact (dropSigns_front _).trans run

theorem markAt_front (text : List Char) : markAt text <+: text := by
  unfold markAt
  split
  · exact ⟨_,rfl⟩
  · exact ⟨_,rfl⟩
  · exact ⟨_,rfl⟩
  · exact ⟨_,rfl⟩
  · exact List.nil_prefix

theorem prefix_split {part text : List Char} (starts : part <+: text) : text = part ++ text.drop part.length := by
  obtain ⟨rest,rfl⟩ := starts
  rw [List.drop_left]

structure wordFollow (chars rest : List Char) : Prop where
  ends : ∀ char ∈ rest.head?, identChar char = false
  plain : opening (chars ++ rest) = none

structure markFollow (chars rest : List Char) : Prop where
  whole : markAt (chars ++ rest) = chars
  dollar : chars = ['$'] → delimiter ('$'::rest) = none ∧ ∀ char ∈ rest.head?, char.isDigit = false
  point : chars = ['.'] → ∀ char ∈ rest.head?, char.isDigit = false

-- What may stand behind a piece for it to end where it does.
def follow (piece : Piece) (rest : List Char) : Prop :=
  match piece.kind with
  | .line => ∀ char ∈ rest.head?, newline char = true
  | .constant quote => constantFollow quote rest
  | .name => nameFollow rest
  | .number => numberFollow piece.chars rest
  | .word => wordFollow piece.chars rest
  | .operator => operatorAt (piece.chars ++ rest) = piece.chars
  | .parameter => ∀ char ∈ rest.head?, tagChar char = false
  | .mark => markFollow piece.chars rest
  | _ => True

theorem opening_exact (found : opening text = some entry) : entry ∈ openings ∧ entry.1 <+: text ∧ entry.1 ≠ [] ∧
    ∀ rest, opening (entry.1 ++ rest) = some entry := by
  have member := List.mem_of_find?_eq_some found
  have held : entry.1.isPrefixOf text = true := by
    simpa using List.find?_some found
  have starts := List.isPrefixOf_iff_prefix.mp held
  refine ⟨member,starts,?_⟩
  have each : ∀ entry ∈ openings, entry.1 ≠ [] ∧ ∀ rest, opening (entry.1 ++ rest) = some entry := by
    simp [openings,opening,List.isPrefixOf]
  exact each entry member

def openers : List Char := ['-','/','\'','"','e','E','b','B','x','X','u','U']

theorem opening_none {char : Char} (plain : char ∉ openers) (rest : List Char) : opening (char::rest) = none := by
  refine List.find?_eq_none.mpr ?_
  intro entry member starts
  have each : ∀ entry ∈ openings, ∃ first tail, entry.1 = first::tail ∧ first ∈ openers := by
    simp [openings,openers]
  obtain ⟨first,tail,same,opens⟩ := each entry member
  rw [same] at starts
  have equal : first = char := by
    have parts := List.isPrefixOf_iff_prefix.mp starts
    exact (List.cons_prefix_cons.mp parts).1
  exact plain (equal ▸ opens)

theorem next_plain (none' : opening (char::rest) = none) (kind : plainKind char rest = found)
    (split : plainSplit char rest found = some ends) : next (char::rest) = some (⟨found,ends.1⟩,ends.2) := by
  unfold next
  simp only [none',kind,split,Option.map_some]

-- A piece read without an opening, and read again with other text behind it.
structure Plain (char : Char) (rest : List Char) (kind : Kind) (split : Split) : Prop where
  first : ∃ tail, split.1 = char::tail
  whole : char::rest = split.1 ++ split.2
  followed : follow ⟨kind,split.1⟩ split.2
  stable : ∀ other, follow ⟨kind,split.1⟩ other → next (split.1 ++ other) = some (⟨kind,split.1⟩,other)

theorem space_plain (blank : space char = true) : Plain char rest .space ([char],rest) := by
  refine ⟨⟨[],rfl⟩,rfl,trivial,fun other _ => ?_⟩
  have plain : char ∉ openers := by
    intro member
    have each : ∀ char ∈ openers, space char = false := each_char (by decide)
    exact absurd ((each char member).symm.trans blank) (by decide)
  exact next_plain (opening_none plain other) (if_pos blank) rfl

theorem dollar_plain (found : dollarQuoted ('$'::rest) = some split) : Plain '$' rest .dollar split := by
  obtain ⟨bound,opens⟩ := dollarQuoted_bound found
  obtain ⟨tail,first⟩ := bound.first
  refine ⟨⟨tail,first⟩,bound.whole,trivial,fun other _ => ?_⟩
  have again := bound.stable other trivial
  have tagged := opens other
  rw [first,List.cons_append] at again tagged ⊢
  have kind : plainKind '$' (tail ++ other) = .dollar := by
    rw [plainKind,if_neg (by decide),if_pos rfl,if_pos tagged]
  exact next_plain (opening_none (by decide) _) kind again

theorem digit_start {char : Char} (digit : char.isDigit = true) : identStart char = false := by
  have each : ∀ code < 128, (Char.ofNat code).isDigit = true → identStart (Char.ofNat code) = false := by decide +kernel
  have range : char.toNat ≤ 57 := of_decide_eq_true ((Bool.and_eq_true ..).mp digit).2
  have held := each char.toNat (by omega)
  rw [Char.ofNat_toNat] at held
  exact held digit

theorem delimiter_digit {char : Char} (digit : char.isDigit = true) (rest : List Char) : delimiter ('$'::char::rest) = none := by
  have start := digit_start digit
  unfold delimiter
  simp only
  split
  · rw [if_neg]
    rw [List.takeWhile_cons_of_pos (SqlLexer.digit_tag digit)]
    simp [start]
  · rfl

theorem parameter_plain (digit : rest.head?.any Char.isDigit = true)
    (found : unjunked ('$'::rest.takeWhile Char.isDigit,rest.dropWhile Char.isDigit) = some split) :
    Plain '$' rest .parameter split := by
  unfold unjunked at found
  split at found
  · cases found
  · next clean =>
    cases Option.some.inj found
    rw [Bool.not_eq_true] at clean
    obtain ⟨char,later,rfl⟩ : ∃ char later, rest = char::later := by
      cases rest with
      | nil => cases digit
      | cons char later => exact ⟨char,later,rfl⟩
    have some' : char.isDigit = true := digit
    have taken : (char::later).takeWhile Char.isDigit = char::later.takeWhile Char.isDigit :=
      List.takeWhile_cons_of_pos some'
    refine ⟨⟨_,rfl⟩,?_,?_,fun other follow => ?_⟩
    · simp only [List.cons_append,List.takeWhile_append_dropWhile]
    · intro first here
      have start := (junk_apart clean).1 first here
      have plain := span_ends _ (char::later) first here
      simp only [tagChar,start,plain,Bool.or_false]
    · have digits : ∀ char ∈ other.head?, char.isDigit = false := by
        intro first here
        have tag : tagChar first = false := follow first here
        simp only [tagChar,Bool.or_eq_false_iff] at tag
        exact tag.2
      obtain ⟨all,ends⟩ := span_stable (span_all _ (char::later)) digits
      have kind : plainKind '$' ((char::later).takeWhile Char.isDigit ++ other) = .parameter := by
        rw [taken,List.cons_append,plainKind,if_neg (by decide),if_pos rfl,delimiter_digit some',if_neg (by simp),
          if_pos (by simpa using some')]
      have again : junk ('$'::(char::later).takeWhile Char.isDigit,other) = false := by
        refine clean_junk follow fun _ => List.any_eq_false.mpr ?_
        intro digit member
        have tag := span_all _ _ digit member
        have inside := List.mem_reverse.mp ((List.takeWhile_subset _) member)
        rcases List.mem_cons.mp inside with rfl | inside
        · exact absurd (dollar_apart.symm.trans tag) (by decide)
        · simp [digit_start (span_all _ _ digit inside)]
      have split : plainSplit '$' ((char::later).takeWhile Char.isDigit ++ other) .parameter =
          some ('$'::(char::later).takeWhile Char.isDigit,other) := by
        simp only [plainSplit,all,ends,unjunked,again]
        rfl
      exact next_plain (opening_none (by decide) _) kind split

theorem number_plain (starts : char.isDigit = true ∨ char = '.' ∧ rest.head?.any Char.isDigit = true)
    (found : unjunked (number (char::rest)) = some split) : Plain char rest .number split := by
  have read : number (char::rest) = split := by
    unfold unjunked at found
    split at found
    · cases found
    · exact Option.some.inj found
  obtain ⟨some',point⟩ := number_first starts rfl
  rw [read] at some' point
  have bound := number_bound found some'
  obtain ⟨tail,first⟩ := bound.first
  refine ⟨⟨tail,first⟩,bound.whole,bound.followed,fun other follow => ?_⟩
  have again := bound.stable other follow
  have plain : char ∉ openers ∧ space char = false ∧ char ≠ '$' := by
    rcases starts with digit | ⟨rfl,_⟩
    · refine ⟨?_,?_,?_⟩
      · intro member
        have each : ∀ char ∈ openers, char.isDigit = false := each_char (by decide)
        exact absurd ((each char member).symm.trans digit) (by decide)
      · by_contra blank
        have apart := (SqlLexer.space_plain (by simpa using blank)).1
        exact absurd ((SqlLexer.digit_tag digit).symm.trans apart) (by decide)
      · rintro rfl
        exact absurd digit (by decide)
    · decide
  rw [first,List.cons_append] at again ⊢
  have kind : plainKind char (tail ++ other) = .number := by
    have begun : char.isDigit = true ∨ char = '.' ∧ (tail ++ other).head?.any Char.isDigit = true := by
      refine starts.imp_right fun dot => ⟨dot.1,?_⟩
      obtain ⟨digit,more,some',same⟩ := point dot.1
      rw [first] at same
      rw [(List.cons.inj same).2]
      exact some'
    rw [plainKind,if_neg (by simp [plain.2.1]),if_neg plain.2.2,if_pos begun]
  exact next_plain (opening_none plain.1 _) kind again

theorem start_plain {char : Char} (start : identStart char = true) :
    space char = false ∧ char ≠ '$' ∧ char.isDigit = false ∧ char ≠ '.' := by
  have tag : tagChar char = true := by simp [tagChar,start]
  refine ⟨?_,?_,?_,?_⟩
  · by_contra blank
    have apart := (SqlLexer.space_plain (by simpa using blank)).1
    exact absurd (tag.symm.trans apart) (by decide)
  · rintro rfl
    exact absurd start (by decide)
  · by_contra digit
    have other := digit_start (by simpa using digit)
    exact absurd (start.symm.trans other) (by decide)
  · rintro rfl
    exact absurd start (by decide)

theorem word_plain (start : identStart char = true) (none' : opening (char::rest) = none) :
    Plain char rest .word (char::rest.takeWhile identChar,rest.dropWhile identChar) := by
  have whole : char::rest = (char::rest.takeWhile identChar) ++ rest.dropWhile identChar := by
    rw [List.cons_append,List.takeWhile_append_dropWhile]
  refine ⟨⟨_,rfl⟩,whole,⟨span_ends _ rest,whole ▸ none'⟩,fun other follow => ?_⟩
  obtain ⟨blank,dollar,digit,point⟩ := start_plain start
  have kind : plainKind char (rest.takeWhile identChar ++ other) = .word := by
    rw [plainKind,if_neg (by simp [blank]),if_neg dollar,if_neg (by simp [digit,point]),if_pos start]
  obtain ⟨all,ends⟩ := span_stable (span_all _ rest) follow.ends
  have split : plainSplit char (rest.takeWhile identChar ++ other) .word = some (char::rest.takeWhile identChar,other) := by
    simp only [plainSplit,all,ends]
  exact next_plain follow.plain kind split

def Starts (char : Char) (rest : List Char) : Prop :=
  char = '-' ∧ rest.head? = some '-' ∨ char = '/' ∧ rest.head? = some '*'

theorem beforeComment_cons (char : Char) (rest : List Char) (apart : ¬Starts char rest) :
    beforeComment (char::rest) = char::beforeComment rest := by
  rw [beforeComment]
  · rintro tail rfl rfl
    exact apart (.inl ⟨rfl,rfl⟩)
  · rintro tail rfl rfl
    exact apart (.inr ⟨rfl,rfl⟩)

theorem beforeComment_starts (starts : Starts char rest) : beforeComment (char::rest) = [] := by
  rcases starts with ⟨rfl,first⟩ | ⟨rfl,first⟩
  · cases rest with
    | nil => cases first
    | cons other tail =>
      cases Option.some.inj first
      rfl
  · cases rest with
    | nil => cases first
    | cons other tail =>
      cases Option.some.inj first
      rfl

theorem opening_operator (operator : opChar char = true) : opening (char::rest) = none ↔ ¬Starts char rest := by
  by_cases opens : char = '-' ∨ char = '/'
  · rcases opens with rfl | rfl
    · cases rest with
      | nil => simp [opening,openings,List.isPrefixOf,Starts]
      | cons head tail =>
        simp only [opening,openings,Starts]
        simp [not_congr (eq_comm (a := '-') (b := head))]
    · cases rest with
      | nil => simp [opening,openings,List.isPrefixOf,Starts]
      | cons head tail =>
        simp only [opening,openings,Starts]
        simp [not_congr (eq_comm (a := '*') (b := head))]
  · have plain : char ∉ openers := by
      intro member
      have each : ∀ char ∈ openers, opChar char = true → char = '-' ∨ char = '/' := each_char (by decide)
      exact opens (each char member operator)
    refine iff_of_true (opening_none plain rest) ?_
    rintro (⟨rfl,_⟩ | ⟨rfl,_⟩)
    · exact opens (.inl rfl)
    · exact opens (.inr rfl)

theorem starts_run (char : Char) (rest : List Char) : Starts char (rest.takeWhile opChar) ↔ Starts char rest := by
  have first : ∀ other, opChar other = true → ((rest.takeWhile opChar).head? = some other ↔ rest.head? = some other) := by
    intro other held
    cases rest with
    | nil => rfl
    | cons head tail =>
      cases here : opChar head with
      | true => simp [here]
      | false =>
        simp only [List.takeWhile_cons,here,Bool.false_eq_true,if_false,List.head?_nil,List.head?_cons,Option.some.injEq,
          reduceCtorEq,false_iff]
        rintro rfl
        exact absurd (held.symm.trans here) (by decide)
  simp only [Starts,first '-' (by decide),first '*' (by decide)]

theorem operatorAt_solid (operator : opChar char = true) : operatorAt (char::rest) ≠ [] ↔ ¬Starts char rest := by
  rw [← starts_run,operatorAt,List.takeWhile_cons_of_pos operator]
  by_cases starts : Starts char (rest.takeWhile opChar)
  · simp [beforeComment_starts starts,dropSigns,starts]
  · simp only [beforeComment_cons _ _ starts,starts,not_false_eq_true,iff_true]
    split
    · exact List.cons_ne_nil _ _
    · exact List.cons_ne_nil _ _

theorem operator_plain (blank : space char = false) (dollar : char ≠ '$')
    (digit : ¬(char.isDigit = true ∨ char = '.' ∧ rest.head?.any Char.isDigit = true)) (start : identStart char = false)
    (operator : opChar char = true) (none' : opening (char::rest) = none) :
    Plain char rest .operator (operatorAt (char::rest),(char::rest).drop (operatorAt (char::rest)).length) := by
  have whole := prefix_split (operatorAt_front (char::rest))
  have some' := (operatorAt_solid operator).mpr ((opening_operator operator).mp none')
  obtain ⟨tail,first⟩ : ∃ tail, operatorAt (char::rest) = char::tail := by
    obtain ⟨head,tail,same⟩ := List.exists_cons_of_ne_nil some'
    have parts := operatorAt_front (char::rest)
    rw [same] at parts ⊢
    exact ⟨tail,by rw [(List.cons_prefix_cons.mp parts).1]⟩
  refine ⟨⟨tail,first⟩,whole,?_,fun other followed => ?_⟩
  · show operatorAt (operatorAt (char::rest) ++ (char::rest).drop (operatorAt (char::rest)).length) = operatorAt (char::rest)
    rw [← whole]
  · have again : operatorAt (operatorAt (char::rest) ++ other) = operatorAt (char::rest) := followed
    dsimp only
    rw [first,List.cons_append] at again ⊢
    have opens : opening (char::(tail ++ other)) = none :=
      (opening_operator operator).mpr ((operatorAt_solid operator).mp (by rw [again]; simp))
    have kind : plainKind char (tail ++ other) = .operator := by
      have point : char ≠ '.' := by
        rintro rfl
        exact absurd operator (by decide)
      have number : char.isDigit = false := by
        by_contra held
        exact digit (.inl (by simpa using held))
      rw [plainKind,if_neg (by simp [blank]),if_neg dollar,if_neg (by simp [number,point]),if_neg (by simp [start]),if_pos operator]
    have split : plainSplit char (tail ++ other) .operator = some (char::tail,other) := by
      simp only [plainSplit,again]
      rw [← List.cons_append,List.drop_left]
    exact next_plain opens kind split

theorem markAt_first (char : Char) (rest : List Char) : ∃ tail, markAt (char::rest) = char::tail ∧
    (tail = [] ∨ char = '.' ∧ tail = ['.'] ∨ char = ':') := by
  unfold markAt
  split
  · next same =>
    cases same
    exact ⟨_,rfl,.inr (.inl ⟨rfl,rfl⟩)⟩
  · next same =>
    cases same
    exact ⟨_,rfl,.inr (.inr rfl)⟩
  · next same =>
    cases same
    exact ⟨_,rfl,.inr (.inr rfl)⟩
  · next same =>
    cases same
    exact ⟨[],rfl,.inl rfl⟩
  · next same => cases same

theorem mark_dollar (untagged : delimiter ('$'::rest) = none) (digit : ∀ char ∈ rest.head?, char.isDigit = false) :
    Plain '$' rest .mark (['$'],rest) := by
  refine ⟨⟨[],rfl⟩,rfl,⟨rfl,fun _ => ⟨untagged,digit⟩,?_⟩,fun other follow => ?_⟩
  · intro wrong
    cases wrong
  · obtain ⟨untagged,plain⟩ := follow.dollar rfl
    have number : other.head?.any Char.isDigit = false := by
      cases other with
      | nil => rfl
      | cons char other => exact plain char rfl
    have again : plainKind '$' other = .mark := by
      rw [plainKind,if_neg (by decide),if_pos rfl,untagged,if_neg (by decide),if_neg (by simp [number])]
    have split : plainSplit '$' other .mark = some (['$'],other) := by simp [plainSplit,markAt]
    exact next_plain (opening_none (by decide) _) again split

theorem mark_other (blank : space char = false) (dollar : char ≠ '$') (number : char.isDigit = false)
    (point : char = '.' → ∀ digit ∈ rest.head?, digit.isDigit = false) (start : identStart char = false)
    (operator : opChar char = false) (none' : opening (char::rest) = none) :
    Plain char rest .mark (markAt (char::rest),(char::rest).drop (markAt (char::rest)).length) := by
  have whole := prefix_split (markAt_front (char::rest))
  obtain ⟨tail,first,short⟩ := markAt_first char rest
  rw [first] at whole ⊢
  have plain : char ∉ openers := by
    intro member
    have each : ∀ char ∈ openers, char = '\'' ∨ char = '"' ∨ opChar char = true ∨ identStart char = true :=
      each_char (by decide)
    rcases each char member with rfl | rfl | held | held
    · simp [opening,openings,List.isPrefixOf] at none'
    · simp [opening,openings,List.isPrefixOf] at none'
    · exact absurd (operator.symm.trans held) (by decide)
    · exact absurd (start.symm.trans held) (by decide)
  refine ⟨⟨tail,rfl⟩,whole,⟨?_,fun same => absurd (List.cons.inj same).1 dollar,?_⟩,fun other follow => ?_⟩
  · rw [← whole,first]
  · intro same
    obtain ⟨rfl,alone⟩ := List.cons.inj same
    rw [alone]
    exact point rfl
  · have begun : ¬(char.isDigit = true ∨ char = '.' ∧ (tail ++ other).head?.any Char.isDigit = true) := by
      rintro (held | ⟨rfl,held⟩)
      · exact absurd (held.symm.trans number) (by decide)
      · rcases short with rfl | ⟨_,rfl⟩ | wrong
        · cases other with
          | nil => cases held
          | cons char other => exact absurd ((follow.point rfl char rfl).symm.trans held) (by decide)
        · cases held
        · cases wrong
    have again : plainKind char (tail ++ other) = .mark := by
      rw [plainKind,if_neg (by simp [blank]),if_neg dollar,if_neg begun,if_neg (by simp [start]),if_neg (by simp [operator])]
    have split : plainSplit char (tail ++ other) .mark = some (char::tail,other) := by
      have marked : markAt (char::(tail ++ other)) = char::tail := follow.whole
      simp only [plainSplit,marked]
      rw [← List.cons_append,List.drop_left]
    exact next_plain (opening_none plain _) again split

theorem plain_exact (none' : opening (char::rest) = none) (found : plainSplit char rest (plainKind char rest) = some split) :
    Plain char rest (plainKind char rest) split := by
  by_cases blank : space char = true
  · have kind : plainKind char rest = .space := if_pos blank
    rw [kind] at found ⊢
    cases Option.some.inj found
    exact space_plain blank
  by_cases dollar : char = '$'
  · subst dollar
    by_cases tagged : (delimiter ('$'::rest)).isSome = true
    · have kind : plainKind '$' rest = .dollar := by rw [plainKind,if_neg blank,if_pos rfl,if_pos tagged]
      rw [kind] at found ⊢
      exact dollar_plain found
    by_cases digit : rest.head?.any Char.isDigit = true
    · have kind : plainKind '$' rest = .parameter := by
        rw [plainKind,if_neg blank,if_pos rfl,if_neg tagged,if_pos digit]
      rw [kind] at found ⊢
      exact parameter_plain digit found
    · have kind : plainKind '$' rest = .mark := by rw [plainKind,if_neg blank,if_pos rfl,if_neg tagged,if_neg digit]
      rw [kind] at found ⊢
      have alone : (['$'],rest) = split := by simpa [plainSplit,markAt] using found
      rw [← alone]
      refine mark_dollar (by simpa using tagged) ?_
      cases rest with
      | nil => simp
      | cons char rest => simpa using digit
  by_cases digit : char.isDigit = true ∨ char = '.' ∧ rest.head?.any Char.isDigit = true
  · have kind : plainKind char rest = .number := by rw [plainKind,if_neg blank,if_neg dollar,if_pos digit]
    rw [kind] at found ⊢
    exact number_plain digit found
  by_cases start : identStart char = true
  · have kind : plainKind char rest = .word := by rw [plainKind,if_neg blank,if_neg dollar,if_neg digit,if_pos start]
    rw [kind] at found ⊢
    cases Option.some.inj found
    exact word_plain start none'
  rw [Bool.not_eq_true] at blank start
  by_cases operator : opChar char = true
  · have kind : plainKind char rest = .operator := by
      rw [plainKind,if_neg (by simp [blank]),if_neg dollar,if_neg digit,if_neg (by simp [start]),if_pos operator]
    rw [kind] at found ⊢
    cases Option.some.inj found
    exact operator_plain blank dollar digit start operator none'
  · have kind : plainKind char rest = .mark := by
      rw [plainKind,if_neg (by simp [blank]),if_neg dollar,if_neg digit,if_neg (by simp [start]),if_neg operator]
    rw [kind] at found ⊢
    cases Option.some.inj found
    rw [not_or,Bool.not_eq_true] at digit
    refine mark_other blank dollar digit.1 ?_ start (by simpa using operator) none'
    rintro rfl first here
    by_contra held
    refine digit.2 ⟨rfl,?_⟩
    rw [Option.mem_def.mp here]
    simpa using held

-- A piece ends where it does because of follow, and nothing else behind it matters.
structure Read (text : List Char) (piece : Piece) (rest : List Char) : Prop where
  whole : text = piece.chars ++ rest
  solid : piece.chars ≠ []
  followed : follow piece rest
  stable : ∀ other, follow piece other → next (piece.chars ++ other) = some (piece,other)

theorem body_exact {kind : Kind} {text : List Char} (found : body text kind = some split) (mark : List Char) :
    text = split.1 ++ split.2 ∧ follow ⟨kind,mark ++ split.1⟩ split.2 ∧
      ∀ other, follow ⟨kind,mark ++ split.1⟩ other → body (split.1 ++ other) kind = some (split.1,other) := by
  cases kind with
  | line =>
    cases Option.some.inj found
    refine ⟨List.takeWhile_append_dropWhile.symm,?_,fun other follow => ?_⟩
    · intro char first
      simpa using span_ends _ text char first
    · have ends : ∀ char ∈ other.head?, (!newline char) = false := by
        intro char first
        have held : newline char = true := follow char first
        simp [held]
      obtain ⟨all,rest⟩ := span_stable (span_all _ text) ends
      simp only [body,all,rest]
  | block =>
    have bound := blockEnd_bound found
    exact ⟨bound.whole,trivial,fun other _ => bound.stable other trivial⟩
  | constant quote =>
    have read : constant quote text.length text = some split := found
    have whole := (constant_bound read le_rfl).whole
    have bound := constant_bound read (le_refl split.1.length)
    refine ⟨whole,bound.followed,fun other follow => ?_⟩
    have longer : split.1.length ≤ (split.1 ++ other).length := by simp
    exact (constant_bound read longer).stable other follow
  | name =>
    have bound := nameEnd_bound found
    exact ⟨bound.whole,bound.followed,bound.stable⟩
  | _ => cases found

theorem next_read (found : next text = some (piece,rest)) : Read text piece rest := by
  unfold next at found
  cases opened : opening text with
  | some entry =>
    obtain ⟨mark,kind⟩ := entry
    obtain ⟨_,starts,some',again⟩ := opening_exact opened
    rw [opened] at found
    obtain ⟨split,here,same⟩ := Option.map_eq_some_iff.mp found
    obtain ⟨rfl,rfl⟩ := Prod.mk.inj same
    obtain ⟨whole,followed,stable⟩ := body_exact here mark
    refine ⟨?_,?_,followed,fun other follow => ?_⟩
    · rw [List.append_assoc,← whole]
      exact prefix_split starts
    · simp [some']
    · unfold next
      simp only [List.append_assoc,again,List.drop_left,stable other follow,Option.map_some]
  | none =>
    rw [opened] at found
    cases text with
    | nil => cases found
    | cons char rest =>
      obtain ⟨split,here,same⟩ := Option.map_eq_some_iff.mp found
      obtain ⟨rfl,rfl⟩ := Prod.mk.inj same
      have plain := plain_exact opened here
      obtain ⟨tail,first⟩ := plain.first
      exact ⟨plain.whole,by simp [first],plain.followed,plain.stable⟩

def texts (list : List Piece) : List Char := list.flatMap Piece.chars

@[simp] theorem texts_nil : texts [] = [] := rfl

@[simp] theorem texts_cons (piece : Piece) (rest : List Piece) : texts (piece::rest) = piece.chars ++ texts rest := rfl

theorem texts_append (first second : List Piece) : texts (first ++ second) = texts first ++ texts second :=
  List.flatMap_append

inductive Lexed : List Char → List Piece → Prop where
  | nil : Lexed [] []
  | cons : next text = some (piece,rest) → Lexed rest later → Lexed text (piece::later)

theorem Lexed.whole (lexed : Lexed text list) : text = texts list := by
  induction lexed with
  | nil => rfl
  | cons found _ ih => rw [(next_read found).whole,ih,texts_cons]

theorem Lexed.first (lexed : Lexed text (piece::later)) : ∃ rest, next text = some (piece,rest) ∧ Lexed rest later := by
  cases lexed with
  | cons found lexed => exact ⟨_,found,lexed⟩

theorem Lexed.step (found : next text = some (piece,rest)) : Lexed text (piece::later) ↔ Lexed rest later := by
  constructor
  · intro lexed
    obtain ⟨_,other,lexed⟩ := lexed.first
    obtain ⟨_,rfl⟩ := Prod.mk.inj (Option.some.inj (found.symm.trans other))
    exact lexed
  · exact .cons found

theorem piece_exact (found : next text = some (piece,rest)) :
    Lexed (piece.chars ++ other) (piece::later) ↔ follow piece other ∧ Lexed other later := by
  constructor
  · intro lexed
    obtain ⟨behind,again,lexed⟩ := lexed.first
    have read := next_read again
    have same : other = behind := List.append_cancel_left read.whole
    subst same
    exact ⟨read.followed,lexed⟩
  · rintro ⟨fits,lexed⟩
    exact .cons ((next_read found).stable other fits) lexed

theorem Lexed.empty (lexed : Lexed [] list) : list = [] := by
  cases lexed with
  | nil => rfl
  | cons found _ => cases found

theorem pieces_exact {text : List Char} (enough : text.length ≤ fuel) : pieces fuel text = some list ↔ Lexed text list := by
  induction fuel generalizing text list with
  | zero =>
    cases List.length_eq_zero_iff.mp (Nat.le_zero.mp enough)
    exact ⟨fun found => Option.some.inj found ▸ .nil,fun lexed => by rw [lexed.empty]; rfl⟩
  | succ fuel ih =>
    cases text with
    | nil => exact ⟨fun found => Option.some.inj found ▸ .nil,fun lexed => by rw [lexed.empty]; rfl⟩
    | cons char tail =>
      have shorter {piece : Piece} {rest : List Char} (found : next (char::tail) = some (piece,rest)) : rest.length ≤ fuel := by
        have read := next_read found
        have size := congrArg List.length read.whole
        have some' := List.length_pos_iff.mpr read.solid
        simp only [List.length_append,List.length_cons] at size enough
        omega
      constructor
      · intro found
        obtain ⟨⟨piece,rest⟩,here,later⟩ := Option.bind_eq_some_iff.mp found
        obtain ⟨list,there,rfl⟩ := Option.map_eq_some_iff.mp later
        exact .cons here ((ih (shorter here)).mp there)
      · intro lexed
        cases lexed with
        | cons found later =>
          simp only [pieces,found,Option.bind_some,(ih (shorter found)).mpr later,Option.map_some]

theorem lex_exact : lex text = some list ↔ Lexed text list := pieces_exact (le_refl text.length)

theorem next_kinds (found : next text = some (piece,rest)) :
    (∃ mark split, (mark,piece.kind) ∈ openings ∧ body (text.drop mark.length) piece.kind = some split ∧
      piece.chars = mark ++ split.1 ∧ rest = split.2) ∨
    ∃ char tail, text = char::tail ∧ opening text = none ∧ piece.kind = plainKind char tail ∧
      plainSplit char tail piece.kind = some (piece.chars,rest) := by
  unfold next at found
  cases opened : opening text with
  | some entry =>
    obtain ⟨mark,kind⟩ := entry
    rw [opened] at found
    obtain ⟨split,here,same⟩ := Option.map_eq_some_iff.mp found
    obtain ⟨rfl,rfl⟩ := Prod.mk.inj same
    exact .inl ⟨mark,split,(opening_exact opened).1,here,rfl,rfl⟩
  | none =>
    rw [opened] at found
    cases text with
    | nil => cases found
    | cons char tail =>
      obtain ⟨split,here,same⟩ := Option.map_eq_some_iff.mp found
      obtain ⟨rfl,rfl⟩ := Prod.mk.inj same
      exact .inr ⟨char,tail,rfl,rfl,rfl,here⟩

theorem openings_mark (member : (mark,kind) ∈ openings) : ∃ char tail, mark = char::tail ∧ char ∈ openers ∧
    (char = '-' → kind = .line) ∧ (kind = .line → mark = ['-','-']) ∧
    (kind = .line ∨ kind = .block ∨ (∃ quote, kind = .constant quote) ∨ kind = .name) := by
  have each : ∀ entry ∈ openings, ∃ char tail, entry.1 = char::tail ∧ char ∈ openers ∧
      (char = '-' → entry.2 = .line) ∧ (entry.2 = .line → entry.1 = ['-','-']) ∧
      (entry.2 = .line ∨ entry.2 = .block ∨ (∃ quote, entry.2 = .constant quote) ∨ entry.2 = .name) := by
    simp [openings,openers]
  exact each _ member

theorem plainKind_cases (char : Char) (tail : List Char) :
    (plainKind char tail = .space ↔ space char = true) ∧ plainKind char tail ≠ .line ∧ plainKind char tail ≠ .block ∧
      (∀ quote, plainKind char tail ≠ .constant quote) ∧ plainKind char tail ≠ .name := by
  unfold plainKind
  split
  · next blank => simp [blank]
  · next blank => split_ifs <;> simp [blank]

-- Behind a newline a constant goes on with the next quote.
def leads (seen : Bool) : List Piece → Prop
  | [] => False
  | piece::rest => seen = true ∧ piece.chars.head? = some '\'' ∨
      piece.kind = .space ∧ leads (seen || piece.chars.any newline) rest ∨ piece.kind = .line ∧ leads seen rest

theorem gap_other {char : Char} (blank : space char = false) (dash : ¬(char = '-' ∧ rest.head? = some '-')) (quote : char ≠ '\'')
    (seen : Bool) : gap false seen (char::rest) = none := by
  have line : newline char = false := by
    simp only [space,Bool.or_eq_false_iff] at blank
    exact blank.1
  simp [gap,line,blank,dash,quote]

theorem gap_line_piece {chars : List Char} (inside : ∀ char ∈ chars, newline char = false) (ends : ∀ char ∈ rest.head?, newline char = true)
    (seen : Bool) : (gap false seen ('-':: '-'::chars ++ rest)).isSome = (gap false seen rest).isSome := by
  have keep : ∀ char ∈ '-'::chars, (!newline char) = true := by
    intro char member
    rcases List.mem_cons.mp member with rfl | member
    · decide
    · simp [inside char member]
  have stops : ∀ char ∈ rest.head?, (!newline char) = false := by
    intro char first
    simp [ends char first]
  have dropped := (span_stable keep stops).2
  have first : gap false seen ('-':: '-'::chars ++ rest) = (gap true seen ('-'::chars ++ rest)).map (ahead ['-']) := by
    simp [gap,newline,space]
  rw [first,Option.isSome_map,SqlLexer.gap_line,Option.isSome_map,dropped]

theorem gap_exact (lexed : Lexed text list) (seen : Bool) : (gap false seen text).isSome = true ↔ leads seen list := by
  induction lexed generalizing seen with
  | nil => simp [gap,leads]
  | @cons text piece rest later found lexed ih =>
    have read := next_read found
    rcases next_kinds found with ⟨mark,split,member,inside,chars,rfl⟩ | ⟨char,tail,rfl,none',kind,split⟩
    · obtain ⟨char,more,rfl,opener,dash,line,kinds⟩ := openings_mark member
      have first : piece.chars.head? = some char := by rw [chars]; rfl
      have notSpace : piece.kind ≠ .space := by
        rcases kinds with same | same | ⟨_,same⟩ | same <;> rw [same] <;> simp
      rw [leads,first]
      by_cases comment : piece.kind = .line
      · obtain ⟨rfl,rfl⟩ := List.cons.inj (line comment)
        rw [comment] at inside
        cases Option.some.inj inside
        have stops := span_ends (fun char => !newline char) (text.drop 2)
        have keep := span_all (fun char => !newline char) (text.drop 2)
        simp only [Bool.not_eq_eq_eq_not,Bool.not_true,Bool.not_false] at stops keep
        have same := gap_line_piece keep stops seen
        rw [read.whole,chars]
        simp only [List.length_cons,List.length_nil,List.cons_append,List.nil_append] at same ⊢
        have inner : (gap false seen ((text.drop 2).dropWhile fun char => !newline char)).isSome = true ↔ leads seen later :=
          ih seen
        rw [same,inner]
        simp [comment]
      · have head : text = char::(more ++ split.1 ++ split.2) := by rw [read.whole,chars]; simp
        have blank : space char = false := by
          have each : ∀ char ∈ openers, space char = false := each_char (by decide)
          exact each char opener
        by_cases quote : char = '\''
        · subst quote
          rw [head]
          cases seen <;> simp [gap,newline,space,notSpace,comment]
        · rw [head,gap_other blank (fun wrong => comment (dash wrong.1)) quote]
          simp [quote,notSpace,comment]
    · obtain ⟨spaces,notLine,_⟩ := plainKind_cases char tail
      by_cases blank : space char = true
      · have spaced : next (char::tail) = some (⟨.space,[char]⟩,tail) := next_plain none' (if_pos blank) rfl
        obtain ⟨same,rfl⟩ := Prod.mk.inj (Option.some.inj (found.symm.trans spaced))
        subst same
        have quote : char ≠ '\'' := by
          rintro rfl
          exact absurd blank (by decide)
        rw [leads]
        cases ends : newline char with
        | true => simp [gap,ends,ih,quote]
        | false => simp [gap,ends,blank,ih,quote]
      · have first : piece.chars.head? = some char := by
          have whole := read.whole
          obtain ⟨head,more,same⟩ := List.exists_cons_of_ne_nil read.solid
          rw [same,List.cons_append] at whole
          rw [same,(List.cons.inj whole).1]
          rfl
        have quote : char ≠ '\'' := by
          rintro rfl
          simp [opening,openings,List.isPrefixOf] at none'
        have dash : ¬(char = '-' ∧ tail.head? = some '-') := by
          rintro ⟨rfl,dash⟩
          exact (opening_operator (by decide)).mp none' (.inl ⟨rfl,dash⟩)
        have other : piece.kind ≠ .space ∧ piece.kind ≠ .line := by
          rw [kind]
          exact ⟨fun same => blank (spaces.mp same),notLine⟩
        rw [gap_other (by simpa using blank) dash quote,leads,first]
        simp [quote,other.1,other.2]

end Zveltio.SqlPieces
