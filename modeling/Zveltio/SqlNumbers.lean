import Zveltio.SqlTokens
import Mathlib.Tactic.Tauto
namespace Zveltio.SqlNumbers

open SqlLexer (ahead tagChar identStart identChar digits number junk fraction exponent decimal based radix)
open SqlTokens

theorem under_digit : Char.isDigit '_' = false := by decide

theorem plain_digit {char : Char} (digit : char.isDigit = true) : char ≠ '_' ∧ char ≠ '.' ∧ char ≠ 'e' ∧ char ≠ 'E' := by
  refine ⟨?_,?_,?_,?_⟩ <;> rintro rfl <;> exact absurd digit (by decide)

theorem digits_first {char : Char} (digit : char.isDigit = true) (rest : List Char) :
    ∃ tail, (digits Char.isDigit (char::rest)).1 = char::tail := by
  rw [digits_cons (plain_digit digit).1,if_pos digit]
  exact ⟨_,rfl⟩

theorem fraction_cases (text : List Char) :
    (fraction text = ([],text) ∧ (text.head? = some '.' → text.tail.head? = some '.')) ∨
    (∃ rest, text = '.'::rest ∧ fraction text = (['.'],rest) ∧ ∀ char ∈ rest.head?, char.isDigit = false ∧ char ≠ '.') ∨
    ∃ char rest, char.isDigit = true ∧ text = '.'::char::rest ∧
      fraction text = ahead ['.'] (digits Char.isDigit (char::rest)) := by
  unfold fraction
  split
  · next point =>
    obtain ⟨rest,rfl⟩ : ∃ rest, text = '.'::rest := by
      cases text with
      | nil => cases point.1
      | cons char rest => exact ⟨rest,by rw [Option.some.inj point.1]⟩
    right
    cases rest with
    | nil => exact .inl ⟨[],rfl,by simp,by simp⟩
    | cons char rest =>
      cases digit : char.isDigit with
      | true => exact .inr ⟨char,rest,digit,rfl,by simp [digit]⟩
      | false => exact .inl ⟨char::rest,rfl,by simp [digit],by simpa [digit] using point.2⟩
  · next other => exact .inl ⟨rfl,fun first => by_contra fun second => other ⟨first,second⟩⟩

theorem exponent_cases (text : List Char) :
    (exponent text = ([],text)) ∨
    ∃ mark signs digit rest, (mark = 'e' ∨ mark = 'E') ∧ (signs = [] ∨ signs = ['+'] ∨ signs = ['-']) ∧ digit.isDigit = true ∧
      text = mark::signs ++ digit::rest ∧ exponent text = ahead (mark::signs) (digits Char.isDigit (digit::rest)) := by
  unfold exponent
  split
  · next mark sign rest =>
    split
    · next letter =>
      split
      · next digit => exact .inr ⟨mark,[],sign,rest,letter,.inl rfl,digit,rfl,rfl⟩
      · split
        · next signed =>
          obtain ⟨digit,more,rfl⟩ : ∃ digit more, rest = digit::more := by
            cases rest with
            | nil => cases signed.2
            | cons digit more => exact ⟨digit,more,rfl⟩
          refine .inr ⟨mark,[sign],digit,more,letter,.inr ?_,signed.2,rfl,rfl⟩
          rcases signed.1 with rfl | rfl <;> simp
        · exact .inl rfl
    · exact .inl rfl
  · exact .inl rfl

theorem exponent_digits {mark digit : Char} {signs : List Char} (letter : mark = 'e' ∨ mark = 'E')
    (signed : signs = [] ∨ signs = ['+'] ∨ signs = ['-']) (some' : digit.isDigit = true) (rest : List Char) :
    exponent (mark::signs ++ digit::rest) = ahead (mark::signs) (digits Char.isDigit (digit::rest)) := by
  rcases letter with rfl | rfl <;> rcases signed with rfl | rfl | rfl <;> simp [exponent,some']

theorem exponent_none (other : ∀ char ∈ rest.head?, char ≠ 'e' ∧ char ≠ 'E') : exponent rest = ([],rest) := by
  unfold exponent
  split
  · next mark _ _ =>
    obtain ⟨small,large⟩ := other mark rfl
    rw [if_neg (by simp [small,large])]
  · rfl

theorem fraction_none (point : rest.head? = some '.' → rest.tail.head? = some '.') : fraction rest = ([],rest) := by
  rw [fraction,if_neg]
  rintro ⟨first,second⟩
  exact second (point first)

theorem fraction_point (digit : digitFollow Char.isDigit rest) (single : rest.head? ≠ some '.') :
    fraction ('.'::rest) = (['.'],rest) := by
  have other : rest.head?.any Char.isDigit = false := by
    cases rest with
    | nil => rfl
    | cons char rest => exact (digit char rfl).1
  rw [fraction,if_pos ⟨rfl,single⟩,List.tail_cons,if_neg (by simp [other])]

theorem fraction_digits {char : Char} (digit : char.isDigit = true) (rest : List Char) :
    fraction ('.'::char::rest) = ahead ['.'] (digits Char.isDigit (char::rest)) := by
  have single : char ≠ '.' := (plain_digit digit).2.1
  rw [fraction,if_pos ⟨rfl,by simpa using single⟩,List.tail_cons,if_pos (by simpa using digit)]

theorem fraction_stable (text : List Char) (digit : digitFollow Char.isDigit rest)
    (bare : (fraction text).1 = ['.'] → rest.head? ≠ some '.')
    (none' : (fraction text).1 = [] → rest.head? = some '.' → rest.tail.head? = some '.') :
    fraction ((fraction text).1 ++ rest) = ((fraction text).1,rest) := by
  rcases fraction_cases text with ⟨same,_⟩ | ⟨_,_,same,_⟩ | ⟨char,later,some',_,same⟩
  · rw [same] at none' ⊢
    exact fraction_none (none' rfl)
  · rw [same] at bare ⊢
    exact fraction_point digit (bare rfl)
  · obtain ⟨tail,first⟩ := digits_first some' later
    have stable := digits_stable under_digit (char::later) digit
    rw [first,List.cons_append] at stable
    simp only [same,ahead,first,List.cons_append,List.nil_append]
    rw [fraction_digits some',stable]
    rfl

theorem exponent_stable (text : List Char) (digit : digitFollow Char.isDigit rest)
    (none' : (exponent text).1 = [] → ∀ char ∈ rest.head?, char ≠ 'e' ∧ char ≠ 'E') :
    exponent ((exponent text).1 ++ rest) = ((exponent text).1,rest) := by
  rcases exponent_cases text with same | ⟨mark,signs,char,later,letter,signed,some',_,same⟩
  · rw [same,List.nil_append]
    exact exponent_none (none' (by rw [same]))
  · obtain ⟨tail,first⟩ := digits_first some' later
    have stable := digits_stable under_digit (char::later) digit
    rw [first,List.cons_append] at stable
    have again := exponent_digits letter signed some' (tail ++ rest)
    rw [stable] at again
    simp only [same,ahead,first,List.append_assoc,List.cons_append] at again ⊢
    exact again

structure numberFollow (chars rest : List Char) : Prop where
  apart : ∀ char ∈ rest.head?, tagChar char = false
  dollar : rest.head? = some '$' → (chars.reverse.takeWhile tagChar).any identStart = false
  point : rest.head? = some '.' → chars.getLast? ≠ some '.' ∧
    ((∀ char ∈ chars, char.isDigit = true ∨ char = '_') → rest.tail.head? = some '.')

theorem apart_digits {digit : Char → Bool} (plain : ∀ char, digit char = true → tagChar char = true)
    (apart : ∀ char ∈ rest.head?, tagChar char = false) : digitFollow digit rest := by
  intro char first
  have other := apart char first
  refine ⟨?_,?_⟩
  · by_contra found
    exact absurd ((plain char (by simpa using found)).symm.trans other) (by decide)
  · rintro rfl
    exact absurd other (by decide)

theorem apart_letters {rest : List Char} (apart : ∀ char ∈ rest.head?, tagChar char = false) : ∀ char ∈ rest.head?, char ≠ 'e' ∧ char ≠ 'E' := by
  intro char first
  have other := apart char first
  refine ⟨?_,?_⟩ <;> rintro rfl <;> exact absurd other (by decide)

theorem digits_chars (digit : Char → Bool) (text : List Char) :
    ∀ char ∈ (digits digit text).1, digit char = true ∨ char = '_' := by
  fun_induction digits digit text with
  | case1 => simp
  | case2 char rest found ih => simpa [ahead,found] using ih
  | case3 => simp
  | case4 char rest _ found ih => simpa [ahead,found] using ih
  | case5 => simp

theorem exponent_first (text : List Char) : (exponent text).1 = [] ∨ ∃ mark tail, (mark = 'e' ∨ mark = 'E') ∧ (exponent text).1 = mark::tail := by
  rcases exponent_cases text with same | ⟨mark,signs,char,later,letter,_,_,_,same⟩
  · exact .inl (by rw [same])
  · exact .inr ⟨mark,_,letter,by rw [same]; rfl⟩

theorem fraction_first (text : List Char) : (fraction text).1 = [] ∨ ∃ tail, (fraction text).1 = '.'::tail := by
  rcases fraction_cases text with ⟨same,_⟩ | ⟨_,_,same,_⟩ | ⟨_,_,_,_,same⟩
  · exact .inl (by rw [same])
  · exact .inr ⟨[],by rw [same]⟩
  · exact .inr ⟨_,by rw [same]; rfl⟩

theorem decimal_stable (text : List Char) (follow : numberFollow (decimal text).1 rest) :
    decimal ((decimal text).1 ++ rest) = ((decimal text).1,rest) := by
  let whole := digits Char.isDigit text
  let point := fraction whole.2
  let power := exponent point.2
  have parts : (decimal text).1 = whole.1 ++ point.1 ++ power.1 := rfl
  have plain := apart_digits (fun char => SqlLexer.digit_tag) follow.apart
  have three : exponent (power.1 ++ rest) = (power.1,rest) :=
    exponent_stable point.2 plain fun _ => apart_letters follow.apart
  have plainPower : digitFollow Char.isDigit (power.1 ++ rest) ∧ (power.1 ≠ [] → (power.1 ++ rest).head? ≠ some '.') := by
    rcases exponent_first point.2 with none' | ⟨mark,tail,letter,same⟩
    · rw [show power.1 = [] from none']
      exact ⟨plain,fun some' => absurd rfl some'⟩
    · rw [show power.1 = mark::tail from same]
      rcases letter with rfl | rfl <;> simp [digitFollow]
  have two : fraction (point.1 ++ (power.1 ++ rest)) = (point.1,power.1 ++ rest) := by
    refine fraction_stable whole.2 plainPower.1 ?_ ?_
    · intro bare
      by_cases none' : power.1 = []
      · intro first
        rw [none',List.nil_append] at first
        refine (follow.point first).1 ?_
        rw [parts,none',show point.1 = ['.'] from bare]
        simp
      · exact plainPower.2 none'
    · intro nothing first
      by_cases none' : power.1 = []
      · rw [none',List.nil_append] at first ⊢
        refine (follow.point first).2 ?_
        rw [parts,none',show point.1 = [] from nothing,List.append_nil,List.append_nil]
        exact digits_chars Char.isDigit text
      · exact absurd first (plainPower.2 none')
  have plainPoint : digitFollow Char.isDigit (point.1 ++ (power.1 ++ rest)) := by
    rcases fraction_first whole.2 with none' | ⟨tail,same⟩
    · rw [show point.1 = [] from none']
      exact plainPower.1
    · rw [show point.1 = '.'::tail from same]
      simp [digitFollow]
  have one : digits Char.isDigit (whole.1 ++ (point.1 ++ (power.1 ++ rest))) = (whole.1,point.1 ++ (power.1 ++ rest)) :=
    digits_stable under_digit text plainPoint
  rw [parts,List.append_assoc,List.append_assoc,decimal]
  simp only [one,two,three,ahead,List.append_assoc]

theorem decimal_ends (text : List Char) : ∀ char ∈ (decimal text).2.head?, char.isDigit = false := by
  change ∀ char ∈ (exponent (fraction (digits Char.isDigit text).2).2).2.head?, char.isDigit = false
  rcases exponent_cases (fraction (digits Char.isDigit text).2).2 with same | ⟨_,_,_,_,_,_,_,_,same⟩
  · rw [same]
    rcases fraction_cases (digits Char.isDigit text).2 with ⟨same,_⟩ | ⟨_,_,same,plain⟩ | ⟨_,_,_,_,same⟩
    · rw [same]
      exact digits_ends under_digit text
    · rw [same]
      exact fun char first => (plain char first).1
    · rw [same]
      exact digits_ends under_digit _
  · rw [same]
    exact digits_ends under_digit _

theorem last_digit {char : Char} (digit : char.isDigit = true) (rest chars : List Char) :
    (chars ++ (digits Char.isDigit (char::rest)).1).getLast? ≠ some '.' := by
  obtain ⟨tail,same⟩ := digits_first digit rest
  intro last
  have inner := SqlLexer.digits_last Char.isDigit (char::rest) '.' (SqlLexer.last_tail chars (by simp [same]) last)
  exact absurd inner (by decide)

theorem decimal_point (text : List Char) (first : (decimal text).2.head? = some '.') :
    (decimal text).1.getLast? ≠ some '.' ∧
      ((∀ char ∈ (decimal text).1, char.isDigit = true ∨ char = '_') → (decimal text).2.tail.head? = some '.') := by
  let whole := digits Char.isDigit text
  let point := fraction whole.2
  have parts : decimal text = ahead (whole.1 ++ point.1) (exponent point.2) := rfl
  rcases exponent_cases point.2 with none' | ⟨mark,signs,char,later,letter,_,some',_,power⟩
  · rw [parts,none'] at first ⊢
    simp only [ahead,List.append_nil] at first ⊢
    rcases fraction_cases whole.2 with ⟨same,twice⟩ | ⟨_,_,same,plain⟩ | ⟨char,later,some',_,same⟩
    · rw [show point = ([],whole.2) from same] at first ⊢
      refine ⟨?_,fun _ => twice first⟩
      rw [List.append_nil]
      intro last
      exact absurd (SqlLexer.digits_last Char.isDigit text '.' last) (by decide)
    · rw [show point = (['.'],_) from same] at first
      exact absurd rfl (plain '.' first).2
    · rw [show point = ahead ['.'] _ from same] at first ⊢
      refine ⟨?_,?_⟩
      · have last := last_digit some' later (whole.1 ++ ['.'])
        simpa only [ahead,List.append_assoc] using last
      · intro all
        have wrong := all '.' (by simp [ahead])
        exact absurd wrong (by decide)
  · rw [parts,power]
    refine ⟨?_,?_⟩
    · have last := last_digit some' later (whole.1 ++ point.1 ++ (mark::signs))
      simpa only [ahead,List.append_assoc] using last
    · intro all
      have wrong := all mark (by simp [ahead])
      rcases letter with rfl | rfl <;> exact absurd wrong (by decide)

theorem radix_letter {char : Char} (found : radix char = some digit) :
    char ∈ ['x','X','o','O','b','B'] ∧ digit '_' = false ∧ ∀ other, digit other = true → tagChar other = true := by
  unfold radix at found
  split at found
  · next letter =>
    cases Option.some.inj found
    exact ⟨by simp at letter ⊢; tauto,rfl,fun _ => SqlLexer.hex_tag⟩
  · split at found
    · next letter =>
      cases Option.some.inj found
      exact ⟨by simp at letter ⊢; tauto,rfl,fun _ => SqlLexer.oct_tag⟩
    · split at found
      · next letter =>
        cases Option.some.inj found
        refine ⟨by simp at letter ⊢; tauto,rfl,fun other bit => ?_⟩
        rcases (by simpa using bit : other = '0' ∨ other = '1') with rfl | rfl <;> rfl
      · cases found

theorem radix_plain {char : Char} (found : radix char = some digit) :
    tagChar char = true ∧ identStart char = true ∧ char.isDigit = false ∧ char ≠ '_' ∧ char ≠ '.' ∧ char ≠ 'e' ∧ char ≠ 'E' := by
  have all : ∀ char ∈ ['x','X','o','O','b','B'], tagChar char = true ∧ identStart char = true ∧ char.isDigit = false ∧
      char ≠ '_' ∧ char ≠ '.' ∧ char ≠ 'e' ∧ char ≠ 'E' := each_char (by decide)
  exact all char (radix_letter found).1

theorem based_cases {text : List Char} (found : based text = some split) :
    ∃ mark rest digit, text = '0'::mark::rest ∧ radix mark = some digit ∧ (digits digit rest).1 ≠ [] ∧
      split = ahead ['0',mark] (digits digit rest) := by
  unfold based at found
  split at found
  · next mark rest =>
    obtain ⟨digit,kind,value⟩ := Option.bind_eq_some_iff.mp found
    dsimp only at value
    split at value
    · cases value
    · next some' => exact ⟨mark,rest,digit,rfl,kind,some',(Option.some.inj value).symm⟩
  · cases found

theorem based_stable {text rest : List Char} (found : based text = some split) (apart : ∀ char ∈ rest.head?, tagChar char = false) :
    based (split.1 ++ rest) = some (split.1,rest) := by
  obtain ⟨mark,later,digit,rfl,kind,some',rfl⟩ := based_cases found
  obtain ⟨_,under,plain⟩ := radix_letter kind
  have stable := digits_stable under later (apart_digits plain apart)
  simp only [ahead,List.cons_append,List.nil_append,based,kind,Option.bind_some,stable,some',if_false]

theorem decimal_zero {mark : Char} (kind : radix mark = some digit) (rest : List Char) :
    decimal ('0'::mark::rest) = (['0'],mark::rest) := by
  obtain ⟨_,_,other,under,point,small,large⟩ := radix_plain kind
  have whole : digits Char.isDigit ('0'::mark::rest) = (['0'],mark::rest) := by
    rw [digits_cons (by decide),if_pos (by decide),digits_none]
    · rfl
    · rintro char ⟨⟩
      exact ⟨other,under⟩
  have bare : fraction (mark::rest) = ([],mark::rest) := fraction_none fun first => absurd (Option.some.inj first) point
  have power : exponent (mark::rest) = ([],mark::rest) := exponent_none (by rintro char ⟨⟩; exact ⟨small,large⟩)
  simp only [decimal,whole,bare,power,ahead,List.append_nil]

theorem based_none {rest : List Char} (other : ∀ mark later, rest = '0'::mark::later → radix mark = none) : based rest = none := by
  unfold based
  split
  · next mark later => rw [other mark later rfl,Option.bind_none]
  · rfl

theorem decimal_based {text rest : List Char} (split : text = (decimal text).1 ++ (decimal text).2)
    (some' : (decimal text).1 ≠ []) (apart : ∀ char ∈ rest.head?, tagChar char = false) :
    based ((decimal text).1 ++ rest) = none := by
  refine based_none fun mark later same => ?_
  by_contra found
  obtain ⟨digit,kind⟩ := Option.ne_none_iff_exists'.mp found
  cases parts : (decimal text).1 with
  | nil => exact some' parts
  | cons first tail =>
    rw [parts,List.cons_append] at same
    obtain ⟨rfl,behind⟩ := List.cons.inj same
    cases tail with
    | nil =>
      have other := apart mark (by rw [show rest = mark::later from behind]; rfl)
      exact absurd ((radix_plain kind).1.symm.trans other) (by decide)
    | cons second tail =>
      obtain ⟨rfl,_⟩ := List.cons.inj behind
      rw [parts,List.cons_append,List.cons_append] at split
      have short := decimal_zero kind (tail ++ (decimal text).2)
      rw [← split] at short
      rw [short] at parts
      cases parts

theorem junk_apart {split : Split} (clean : junk split = false) :
    (∀ char ∈ split.2.head?, identStart char = false) ∧
      (∀ char ∈ split.2.head?, identChar char = true → (split.1.reverse.takeWhile tagChar).any identStart = false) := by
  simp only [junk,Bool.or_eq_false_iff,Bool.and_eq_false_iff] at clean
  refine ⟨?_,?_⟩
  · intro char first
    simpa [Option.mem_def.mp first] using clean.1
  · intro char first held
    refine clean.2.resolve_left ?_
    simp [Option.mem_def.mp first,held]

theorem clean_junk {split : Split} (apart : ∀ char ∈ split.2.head?, tagChar char = false)
    (dollar : split.2.head? = some '$' → (split.1.reverse.takeWhile tagChar).any identStart = false) : junk split = false := by
  unfold junk
  cases first : split.2.head? with
  | none => rfl
  | some char =>
    have other := apart char first
    have start : identStart char = false := by
      simp only [tagChar,Bool.or_eq_false_iff] at other
      exact other.1
    by_cases same : char = '$'
    · simp [start,dollar (by rw [first,same])]
    · simp [start,identChar,other,same]

theorem number_follow {split : Split} (read : number text = split) (clean : junk split = false) : numberFollow split.1 split.2 := by
  obtain ⟨start,letters⟩ := junk_apart clean
  have dollar : split.2.head? = some '$' → (split.1.reverse.takeWhile tagChar).any identStart = false :=
    fun first => letters '$' first (by decide)
  unfold number at read
  cases other : based text with
  | some found =>
    rw [other] at read
    subst read
    obtain ⟨tags,_⟩ := SqlLexer.based_all other
    obtain ⟨mark,rest,digit,rfl,kind,_,same⟩ := based_cases other
    have member : mark ∈ found.1 := by rw [same]; simp [ahead]
    -- The letter of the base makes every digit behind the number junk.
    have whole : (found.1.reverse.takeWhile tagChar).any identStart = true := by
      rw [List.takeWhile_eq_self_iff.mpr fun char inside => tags char (List.mem_reverse.mp inside)]
      exact List.any_eq_true.mpr ⟨mark,List.mem_reverse.mpr member,(radix_plain kind).2.1⟩
    have apart : ∀ char ∈ found.2.head?, identChar char = false := by
      intro char first
      by_contra held
      have none' := letters char first (by simpa using held)
      exact absurd (whole.symm.trans none') (by decide)
    refine ⟨fun char first => ?_,fun first => dollar first,fun first => ⟨?_,?_⟩⟩
    · have held := apart char first
      simp only [identChar,Bool.or_eq_false_iff] at held
      exact held.1
    · intro last
      exact absurd (tags '.' (List.mem_of_getLast? last)) (by decide)
    · intro all
      obtain ⟨_,_,plain,under,_⟩ := radix_plain kind
      rcases all mark member with digit | same
      · exact absurd (plain.symm.trans digit) (by decide)
      · exact absurd same under
  | none =>
    rw [other] at read
    subst read
    refine ⟨fun char first => ?_,dollar,decimal_point text⟩
    simp only [tagChar,start char first,decimal_ends text char first,Bool.or_false]

theorem number_bound (found : unjunked (number text) = some split) (some' : split.1 ≠ []) :
    Bound (numberFollow split.1) (fun text => unjunked (number text)) text split := by
  unfold unjunked at found
  split at found
  · cases found
  · next clean =>
    have read := Option.some.inj found
    have whole : text = split.1 ++ split.2 := by
      rw [← read]
      exact (SqlLexer.number_splits text).symm
    rw [read,Bool.not_eq_true] at clean
    refine ⟨whole,some',number_follow read clean,fun rest follow => ?_⟩
    have again : number (split.1 ++ rest) = (split.1,rest) := by
      unfold number at read ⊢
      cases other : based text with
      | some found =>
        rw [other,Option.getD_some] at read
        subst read
        rw [based_stable other follow.apart]
        rfl
      | none =>
        rw [other,Option.getD_none] at read
        subst read
        rw [decimal_based whole some' follow.apart]
        exact decimal_stable text follow
    rw [again,unjunked,if_neg]
    rw [clean_junk follow.apart follow.dollar]
    decide

theorem number_first {text : List Char} (digit : char.isDigit = true ∨ char = '.' ∧ rest.head?.any Char.isDigit = true) (same : text = char::rest) :
    (number text).1 ≠ [] ∧ (char = '.' → ∃ digit tail, digit.isDigit = true ∧ (number text).1 = '.'::digit::tail) := by
  subst same
  unfold number
  cases other : based (char::rest) with
  | some found =>
    obtain ⟨mark,later,_,same,_,_,rfl⟩ := based_cases other
    refine ⟨by simp [ahead],?_⟩
    rintro rfl
    cases same
  | none =>
    rcases digit with digit | ⟨rfl,digit⟩
    · obtain ⟨tail,first⟩ := digits_first digit rest
      refine ⟨?_,?_⟩
      · simp only [Option.getD_none,decimal,ahead,first]
        simp
      · rintro rfl
        exact absurd digit (by decide)
    · obtain ⟨first,later,rfl⟩ : ∃ first later, rest = first::later := by
        cases rest with
        | nil => cases digit
        | cons first later => exact ⟨first,later,rfl⟩
      have some' : first.isDigit = true := digit
      obtain ⟨tail,same⟩ := digits_first some' later
      have none' : digits Char.isDigit ('.'::first::later) = ([],'.'::first::later) :=
        digits_none (by rintro char ⟨⟩; decide)
      have whole : (decimal ('.'::first::later)).1 = '.'::first::(tail ++
          (exponent (digits Char.isDigit (first::later)).2).1) := by
        simp only [decimal,none',fraction_digits some',ahead,same]
        simp
      rw [Option.getD_none,whole]
      exact ⟨by simp,fun _ => ⟨first,_,some',rfl⟩⟩

end Zveltio.SqlNumbers
