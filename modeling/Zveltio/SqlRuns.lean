import Zveltio.SqlLiterals
namespace Zveltio.SqlRuns

open SqlLexer (newline space tagChar identStart identChar delimiter)
open SqlTokens SqlNumbers SqlPieces SqlLiterals

theorem dots_next (rest : List Char) : next ('.':: '.'::rest) = some (⟨.mark,['.','.']⟩,rest) := by
  have kind : plainKind '.' ('.'::rest) = .mark := by
    rw [plainKind,if_neg (by decide),if_neg (by decide),if_neg _,if_neg (by decide),if_neg (by decide)]
    rintro (wrong | ⟨_,wrong⟩) <;> cases wrong
  have split : plainSplit '.' ('.'::rest) .mark = some (['.','.'],rest) := rfl
  exact next_plain (opening_none (by decide) _) kind split

theorem points_next (found : next text = some (piece,rest)) (first : text.head? = some '.') :
    text.tail.head? = some '.' ↔ piece.chars = ['.','.'] := by
  constructor
  · intro second
    obtain ⟨behind,rfl⟩ : ∃ behind, text = '.':: '.'::behind := by
      cases text with
      | nil => cases first
      | cons one text =>
        cases Option.some.inj first
        cases text with
        | nil => cases second
        | cons two text =>
          cases Option.some.inj second
          exact ⟨text,rfl⟩
    rw [dots_next] at found
    obtain ⟨rfl,_⟩ := Prod.mk.inj (Option.some.inj found)
    rfl
  · intro dots
    rw [(next_read found).whole,dots]
    rfl

theorem markAt_head (char : Char) (rest : List Char) : markAt (char::rest) =
    if char = '.' ∧ rest.head? = some '.' then ['.','.']
    else if char = ':' ∧ (rest.head? = some ':' ∨ rest.head? = some '=') then char::rest.take 1
    else [char] := by
  cases rest with
  | nil => simp [markAt]
  | cons next rest =>
    unfold markAt
    split
    · next same => simp_all
    · next same => simp_all
    · next same => simp_all
    · next dots colons equals same =>
      obtain ⟨rfl,rfl⟩ := List.cons.inj same
      have one : ¬(char = '.' ∧ next = '.') := fun wrong => dots rest wrong.1 (by rw [wrong.2])
      have two : ¬(char = ':' ∧ (next = ':' ∨ next = '=')) := by
        rintro ⟨rfl,rfl | rfl⟩
        · exact colons rest rfl rfl
        · exact equals rest rfl rfl
      simp [one,two]
    · next same => cases same

theorem markAt_same {rest other : List Char} (some' : chars ≠ []) (whole : markAt (chars ++ rest) = chars)
    (first : other.head? = rest.head? ∨ ∀ char ∈ other.head?, char ∉ ['.',':','=']) : markAt (chars ++ other) = chars := by
  obtain ⟨char,tail,rfl⟩ := List.exists_cons_of_ne_nil some'
  rw [List.cons_append,markAt_head] at whole ⊢
  cases tail with
  | cons next tail => simpa using whole
  | nil =>
    rw [List.nil_append] at whole ⊢
    rcases first with same | other'
    · rw [same]
      split_ifs at whole ⊢
      · cases whole
      · next equal =>
        cases rest with
        | nil => simp at equal
        | cons next rest => cases whole
      · rfl
    · have apart (wrong : Char) (member : wrong ∈ ['.',':','=']) : other.head? ≠ some wrong :=
        fun same => other' wrong same member
      simp [apart '.' (by decide),apart ':' (by decide),apart '=' (by decide)]

theorem ident_tag (text : List Char) : (text.takeWhile identChar).takeWhile tagChar = text.takeWhile tagChar ∧
    (((text.takeWhile identChar).dropWhile tagChar).head? = some '$' ↔ (text.dropWhile tagChar).head? = some '$') := by
  induction text with
  | nil => simp
  | cons char rest ih =>
    cases tag : tagChar char with
    | true => simpa [identChar,tag] using ih
    | false =>
      by_cases dollar : char = '$'
      · simp [identChar,dollar,dollar_apart]
      · simp [identChar,tag,dollar]

theorem delimiter_exact (text : List Char) : (delimiter ('$'::text)).isSome = true ↔
    (text.dropWhile tagChar).head? = some '$' ∧ (text.takeWhile tagChar).head?.all identStart = true := by
  simp only [delimiter]
  cases ends : text.dropWhile tagChar with
  | nil => simp
  | cons char rest =>
    by_cases dollar : char = '$'
    · subst dollar
      by_cases start : (text.takeWhile tagChar).head?.all identStart = true
      · simp [start]
      · simp [start]
    · simp [dollar]

theorem delimiter_double {rest : List Char} (first : rest.head? = some '$') : (delimiter ('$'::rest)).isSome = true := by
  rw [delimiter_exact]
  cases rest with
  | nil => cases first
  | cons char rest =>
    cases Option.some.inj first
    simp [dollar_apart]

theorem delimiter_run {rest other : List Char} (same : rest.takeWhile identChar = other.takeWhile identChar) :
    (delimiter ('$'::rest)).isSome = (delimiter ('$'::other)).isSome := by
  rw [Bool.eq_iff_iff,delimiter_exact,delimiter_exact,← (ident_tag rest).1,← (ident_tag rest).2,← (ident_tag other).1,
    ← (ident_tag other).2,same]

theorem run_same {text other : List Char} (plain : ∀ char ∈ text.head?, char.isDigit = false ∧ char ≠ '$')
    (found : next text = some (piece,rest)) (again : next other = some (piece,later)) :
    text.takeWhile identChar = other.takeWhile identChar := by
  have read := next_read found
  have reread := next_read again
  by_cases all : ∀ char ∈ piece.chars, identChar char = true
  · have word : piece.kind = .word := by
      rcases next_kinds found with ⟨mark,split,member,_,chars,_⟩ | ⟨char,tail,rfl,_,kind,_⟩
      · have each : ∀ entry ∈ openings, (entry.1.any fun char => !identChar char) = true := by decide
        obtain ⟨char,inside,other⟩ := List.any_eq_true.mp (each _ member)
        have held := all char (by rw [chars]; exact List.mem_append_left _ inside)
        rw [held] at other
        cases other
      · obtain ⟨first,more,same⟩ := List.exists_cons_of_ne_nil read.solid
        have whole := read.whole
        rw [same,List.cons_append] at whole
        obtain ⟨rfl,_⟩ := List.cons.inj whole
        obtain ⟨digit,dollar⟩ := plain char rfl
        have held := all char (by rw [same]; simp)
        have start : identStart char = true := by simpa [identChar,tagChar,digit,dollar] using held
        obtain ⟨blank,_,_,point⟩ := start_plain start
        rw [kind,plainKind,if_neg (by simp [blank]),if_neg dollar,if_neg (by simp [digit,point]),if_pos start]
    have ends (tail : List Char) (held : follow piece tail) : ∀ char ∈ tail.head?, identChar char = false := by
      unfold follow at held
      rw [word] at held
      exact held.ends
    rw [read.whole,reread.whole,(span_stable all (ends _ read.followed)).1,(span_stable all (ends _ reread.followed)).1]
  · have short : ¬(piece.chars.takeWhile identChar).length = piece.chars.length := by
      intro same
      have whole := (List.takeWhile_prefix identChar).eq_of_length same
      exact all fun char member => span_all identChar piece.chars char (whole.symm ▸ member)
    rw [read.whole,reread.whole,List.takeWhile_append,List.takeWhile_append,if_neg short,if_neg short]

theorem before_exact (chars rest : List Char) : chars <+: beforeComment (chars ++ rest) ↔
    beforeComment chars = chars ∧ ∀ char ∈ chars.getLast?, ¬Starts char rest := by
  induction chars with
  | nil => simp [beforeComment]
  | cons char tail ih =>
    cases tail with
    | nil =>
      by_cases starts : Starts char rest
      · simp [beforeComment_starts starts,starts]
      · have alone : beforeComment [char] = [char] := beforeComment_cons char [] (by simp [Starts])
        simp [beforeComment_cons _ _ starts,starts,alone]
    | cons next tail =>
      have same : Starts char ((next::tail) ++ rest) ↔ Starts char (next::tail) := Iff.rfl
      by_cases starts : Starts char (next::tail)
      · rw [List.cons_append,beforeComment_starts (same.mpr starts),beforeComment_starts starts]
        simp
      · rw [List.cons_append,beforeComment_cons _ _ (mt same.mp starts),beforeComment_cons _ _ starts,List.cons_prefix_cons,ih]
        simp

theorem before_append {chars rest : List Char} (kept : chars <+: beforeComment (chars ++ rest)) :
    beforeComment (chars ++ rest) = chars ++ beforeComment rest := by
  induction chars with
  | nil => rfl
  | cons char tail ih =>
    rw [List.cons_append] at kept ⊢
    by_cases starts : Starts char (tail ++ rest)
    · rw [beforeComment_starts starts] at kept
      simp at kept
    · rw [beforeComment_cons _ _ starts,List.cons_prefix_cons] at kept
      rw [beforeComment_cons _ _ starts,ih kept.2,List.cons_append]

def trim (run : List Char) : List Char := if run.any special then run else dropSigns run

theorem operatorAt_trim (text : List Char) : operatorAt text = trim (beforeComment (text.takeWhile opChar)) := rfl

theorem special_plain {char : Char} (held : special char = true) : sign char = false := by
  by_contra other
  rw [Bool.not_eq_false] at other
  simp only [sign,Bool.or_eq_true,decide_eq_true_eq] at other
  rcases other with rfl | rfl
  · exact absurd held (by decide)
  · exact absurd held (by decide)

theorem dropSigns_append {signs : List Char} (all : ∀ char ∈ signs, sign char = true) (char : Char) (tail : List Char) :
    dropSigns (char::(tail ++ signs)) = dropSigns (char::tail) := by
  have back : ∀ char ∈ signs.reverse, sign char = true := fun char member => all char (List.mem_reverse.mp member)
  simp only [dropSigns]
  rw [List.reverse_append,List.dropWhile_append_of_pos back]

theorem dropSigns_exact {char : Char} {tail signs : List Char} (dropped : dropSigns (char::(tail ++ signs)) = char::tail) :
    (∀ char ∈ signs, sign char = true) ∧ dropSigns (char::tail) = char::tail := by
  have all : ∀ char ∈ signs, sign char = true := by
    have inner := congrArg List.reverse (List.cons.inj dropped).2
    rw [List.reverse_reverse,List.reverse_append] at inner
    have parts := List.takeWhile_append_dropWhile (p := sign) (l := signs.reverse ++ tail.reverse)
    rw [inner] at parts
    have taken := List.append_cancel_right parts
    intro char member
    exact span_all sign _ char (taken.symm ▸ List.mem_reverse.mpr member)
  exact ⟨all,(dropSigns_append all char tail).symm.trans dropped⟩

theorem trim_front (run : List Char) : trim run <+: run := by
  unfold trim
  split
  · exact List.prefix_rfl
  · exact dropSigns_front run

theorem trim_nil (run : List Char) : trim run = [] ↔ run = [] := by
  cases run with
  | nil => simp [trim,dropSigns]
  | cons char rest =>
    unfold trim
    split <;> simp [dropSigns]

theorem trim_cases (char : Char) (tail : List Char) {rest : List Char} (whole : trim (char::tail ++ rest) = char::tail) :
    rest = [] ∨ (∀ char ∈ rest, sign char = true) ∧ (char::tail).any special = false ∧ dropSigns (char::tail) = char::tail := by
  unfold trim at whole
  split at whole
  · exact .inl (by simpa using whole)
  · next plain =>
    obtain ⟨signs,dropped⟩ := dropSigns_exact whole
    rw [List.any_append,Bool.or_eq_true,not_or,Bool.not_eq_true] at plain
    exact .inr ⟨signs,plain.1,dropped⟩

theorem trim_signs {chars signs : List Char} (some' : chars ≠ []) (all : ∀ char ∈ signs, sign char = true)
    (plain : chars.any special = false) (dropped : dropSigns chars = chars) : trim (chars ++ signs) = chars := by
  obtain ⟨char,tail,rfl⟩ := List.exists_cons_of_ne_nil some'
  have none' : signs.any special = false := by
    refine List.any_eq_false.mpr fun char member held => ?_
    exact absurd ((all char member).symm.trans (special_plain held)) (by decide)
  rw [trim,if_neg (by rw [List.any_append,plain,none']; decide),List.cons_append,dropSigns_append all,dropped]

theorem trim_same {chars run other : List Char} (some' : chars ≠ []) (whole : trim (chars ++ run) = chars)
    (same : trim run = trim other) : trim (chars ++ other) = chars := by
  obtain ⟨char,tail,rfl⟩ := List.exists_cons_of_ne_nil some'
  cases run with
  | nil =>
    rw [(trim_nil other).mp same.symm]
    exact whole
  | cons first signs =>
    obtain ⟨⟨⟩⟩ | ⟨all,plain,dropped⟩ := trim_cases char tail whole
    have alone : trim (first::signs) = [first] := by
      have one : trim ([first] ++ signs) = [first] := by
        refine trim_signs (by simp) (fun char member => all char (List.mem_cons_of_mem _ member)) ?_ rfl
        refine List.any_eq_false.mpr fun char member held => ?_
        cases List.mem_singleton.mp member
        exact absurd ((all _ (List.mem_cons_self ..)).symm.trans (special_plain held)) (by decide)
      exact one
    rw [alone] at same
    cases other with
    | nil => cases same
    | cons second later =>
      obtain ⟨rfl,_⟩ := List.cons_prefix_cons.mp (same ▸ trim_front (second::later))
      refine trim_signs (by simp) ?_ plain dropped
      rcases trim_cases first [] same.symm with rfl | ⟨signs,_⟩
      · exact List.forall_mem_singleton.mpr (all _ (List.mem_cons_self ..))
      · exact List.forall_mem_cons.mpr ⟨all _ (List.mem_cons_self ..),signs⟩

theorem operator_start {char : Char} (operator : opChar char = true) :
    space char = false ∧ char ≠ '$' ∧ char ≠ '.' ∧ tagChar char = false := by
  have each : ∀ char ∈ ['~','!','@','#','^','&','|',Char.ofNat 96,'?','%','+','-','*','/','<','>','='],
      space char = false ∧ char ≠ '$' ∧ char ≠ '.' ∧ tagChar char = false := each_char (by decide)
  exact each char (of_decide_eq_true operator)

theorem operatorAt_all (text : List Char) : ∀ char ∈ operatorAt text, opChar char = true := by
  intro char member
  have inside := ((trim_front _).trans (beforeComment_front (text.takeWhile opChar))).subset member
  exact span_all opChar text char inside

theorem operatorAt_none (other : ∀ char ∈ text.head?, opChar char = false) : operatorAt text = [] := by
  have none' : text.takeWhile opChar = [] := by
    cases text with
    | nil => rfl
    | cons char rest => exact List.takeWhile_cons_of_neg (by simp [other char rfl])
  rw [operatorAt,none']
  rfl

-- An operator ends where no comment starts at its last character and the run behind it adds nothing.
theorem operator_exact (all : ∀ char ∈ chars, opChar char = true) (rest : List Char) :
    operatorAt (chars ++ rest) = chars ↔ beforeComment chars = chars ∧ (∀ char ∈ chars.getLast?, ¬Starts char rest) ∧
      trim (chars ++ beforeComment (rest.takeWhile opChar)) = chars := by
  have kept : chars <+: beforeComment (chars ++ rest.takeWhile opChar) ↔
      beforeComment chars = chars ∧ ∀ char ∈ chars.getLast?, ¬Starts char rest := by
    simp only [before_exact,starts_run]
  rw [operatorAt_trim,List.takeWhile_append_of_pos all,← and_assoc,← kept]
  constructor
  · intro whole
    have starts := trim_front (beforeComment (chars ++ rest.takeWhile opChar))
    rw [whole] at starts
    exact ⟨starts,by rwa [before_append starts] at whole⟩
  · rintro ⟨starts,whole⟩
    rwa [before_append starts]

theorem operator_next (found : next text = some (piece,rest)) :
    operatorAt text = if piece.kind = .operator then piece.chars else [] := by
  rcases next_kinds found with ⟨mark,split,member,_,chars,_⟩ | ⟨char,tail,rfl,none',kind,split⟩
  · obtain ⟨char,tail,rfl,_,_,_,kinds⟩ := openings_mark member
    have other : piece.kind ≠ .operator := by
      rcases kinds with same | same | ⟨_,same⟩ | same <;> rw [same] <;> simp
    rw [if_neg other,(next_read found).whole,chars]
    simp only [List.cons_append]
    cases operator : opChar char with
    | false => exact operatorAt_none (by simpa using operator)
    | true =>
      by_contra solid
      have opened := (opening_operator operator).mpr ((operatorAt_solid operator).mp solid)
      have starts := List.find?_eq_none.mp opened _ member
      simp [List.isPrefixOf_iff_prefix] at starts
  · cases operator : opChar char with
    | false =>
      rw [operatorAt_none (by simpa using operator),if_neg]
      intro same
      rw [same,plainKind] at kind
      split_ifs at kind
      · next held => exact absurd (operator.symm.trans held) (by decide)
    | true =>
      obtain ⟨blank,dollar,point,tag⟩ := operator_start operator
      simp only [tagChar,Bool.or_eq_false_iff] at tag
      have same : plainKind char tail = .operator := by
        rw [plainKind,if_neg (by simp [blank]),if_neg dollar,if_neg (by simp [tag.2,point]),if_neg (by simp [tag.1]),if_pos operator]
      rw [kind,same] at split ⊢
      rw [if_pos rfl]
      exact (Prod.mk.inj (Option.some.inj split)).1

end Zveltio.SqlRuns
