import Zveltio.UrlValidator
namespace Zveltio.UrlBlocklist
open IpText UrlValidator

-- How an IPv6 address comes in: plain or in brackets, dots after it, inside or outside the brackets.
inductive Form where
  | plain (count : Nat)
  | bracketed (inner outer : Nat)

def Form.spell : Form → Text → Text
  | .plain count,text => text ++ dots count
  | .bracketed inner outer,text => '['::(text ++ dots inner ++ ']' :: dots outer)

-- Dots after the closing bracket keep it from being taken off.
def Form.late : Form → Bool
  | .bracketed _ (_ + 1) => true
  | _ => false

-- What stands behind the address once the brackets are off, and once the dots are.
def Form.tail : Form → Text
  | .plain count | .bracketed count 0 => dots count
  | .bracketed inner outer => dots inner ++ ']' :: dots outer

def Form.rest : Form → Text
  | .bracketed inner (_ + 1) => dots inner ++ [']']
  | _ => []

-- The characters of an IPv6 address.
def Worded (text : Text) : Prop := text ≠ [] ∧ text.getLast? ≠ some '.' ∧ ∀ char ∈ text, char = ':' ∨ char = '.' ∨ ∃ small < 16, char = Nat.digitChar small

section
variable {text : Text} (worded : Worded text) (form : Form)
include worded

theorem worded_apart (strange : char ≠ ':' ∧ char ≠ '.' ∧ ∀ small < 16, char ≠ Nat.digitChar small) : char ∉ text := by
  intro member
  rcases worded.2.2 char member with colon | dot | digit
  · exact strange.1 colon
  · exact strange.2.1 dot
  · obtain ⟨small,less,same⟩ := digit
    exact strange.2.2 small less same

theorem bare_spell : withoutBrackets (form.spell text) = text ++ form.tail := by
  have left : '[' ∉ text := worded_apart worded (by decide)
  have right : ']' ∉ text := worded_apart worded (by decide)
  have clear (count : Nat) : '[' ∉ dots count ∧ ']' ∉ dots count :=
    ⟨fun member => absurd (List.eq_of_mem_replicate member) (by decide),fun member => absurd (List.eq_of_mem_replicate member) (by decide)⟩
  cases form with
  | plain count =>
    refine withoutBrackets_plain ?_ ?_
    · exact fun member => (List.mem_append.mp member).elim left (clear count).1
    · exact fun member => (List.mem_append.mp member).elim right (clear count).2
  | bracketed inner outer =>
    unfold withoutBrackets Form.spell
    have first : ['['].isPrefixOf ('['::(text ++ dots inner ++ ']' :: dots outer)) = true := rfl
    simp only [first,if_true,List.drop_succ_cons,List.drop_zero]
    cases outer with
    | zero =>
      rw [show dots 0 = [] from rfl,if_pos (by simp),List.dropLast_concat]
      rfl
    | succ outer =>
      have last : (text ++ dots inner ++ ']' :: dots (outer + 1)).getLast? = some '.' := by
        have ending : ']' :: dots (outer + 1) = (']' :: dots outer) ++ ['.'] := congrArg (List.cons ']') List.replicate_succ'
        rw [ending]
        exact (congrArg List.getLast? (List.append_assoc ..).symm).trans List.getLast?_concat
      rw [if_neg (by rw [last]; decide),List.append_assoc]
      rfl

theorem lower_spell : lower (text ++ form.tail) = text ++ form.tail := by
  refine (List.map_congr_left fun char member => ?_).trans (List.map_id _)
  have small_lower : ∀ small < 16, (Nat.digitChar small).toLower = Nat.digitChar small := by decide
  have tail_lower (inside : char ∈ form.tail) : char.toLower = char := by
    cases form with
    | plain count => rw [List.eq_of_mem_replicate inside]; rfl
    | bracketed inner outer =>
      cases outer with
      | zero => rw [List.eq_of_mem_replicate inside]; rfl
      | succ outer =>
        rcases List.mem_append.mp inside with dot | back
        · rw [List.eq_of_mem_replicate dot]; rfl
        · rcases List.mem_cons.mp back with close | dot
          · rw [close]; rfl
          · rw [List.eq_of_mem_replicate dot]; rfl
  rcases List.mem_append.mp member with inside | inside
  · rcases worded.2.2 char inside with colon | dot | digit
    · rw [colon]; rfl
    · rw [dot]; rfl
    · obtain ⟨small,less,same⟩ := digit
      rw [same]
      exact small_lower small less
  · exact tail_lower inside

theorem rest_spell : withoutDots (lower (text ++ form.tail)) = text ++ form.rest := by
  rw [lower_spell worded]
  have plain (count : Nat) : withoutDots (text ++ dots count) = text ++ [] := by
    rw [List.append_nil]
    exact withoutDots_dots count worded.2.1
  cases form with
  | plain count => exact plain count
  | bracketed inner outer =>
    cases outer with
    | zero => exact plain inner
    | succ outer =>
      have cut : text ++ (dots inner ++ ']' :: dots (outer + 1)) = (text ++ (dots inner ++ [']'])) ++ dots (outer + 1) := by simp
      exact (congrArg withoutDots cut).trans (withoutDots_dots (outer + 1) (by simp))

end

def Part.clean : Part → Bool
  | .anyDigits => true
  | .oneOf choices => choices.all fun classes => classes.all fun accepts => !accepts ':'

theorem fits_clean {classes : Classes} {text : Text} (clean : (classes.all fun accepts => !accepts ':') = true) (run : fits classes text = true) : ':' ∉ text := by
  induction classes generalizing text with
  | nil =>
    cases text with
    | nil => exact List.not_mem_nil
    | cons head rest => cases run
  | cons accepts classes ih =>
    cases text with
    | nil => exact List.not_mem_nil
    | cons head rest =>
      rw [List.all_cons,Bool.and_eq_true] at clean
      rw [fits,Bool.and_eq_true] at run
      intro member
      rcases List.mem_cons.mp member with same | later
      · rw [← same] at run
        rw [run.1] at clean
        exact absurd clean.1 (by decide)
      · exact ih clean.2 run.2 later

theorem part_clean {part : Part} {text : Text} (clean : Part.clean part = true) (run : part.test text = true) : ':' ∉ text := by
  cases part with
  | anyDigits =>
    intro member
    have all := (Bool.and_eq_true_iff.mp (show (text ≠ [] && text.all decimalDigit) = true from run)).2
    exact absurd (List.all_eq_true.mp all ':' member) (by decide)
  | oneOf choices =>
    obtain ⟨classes,listed,fit⟩ := List.any_eq_true.mp (show (choices.any fun classes => fits classes text) = true from run)
    exact fits_clean (List.all_eq_true.mp clean classes listed) fit

theorem dotted_colon {one two three four : Part} {text : Text} (colon : ':' ∈ text)
    (clean : (Part.clean one && Part.clean two && Part.clean three && Part.clean four) = true) : (Pattern.dotted one two three four).test text = false := by
  by_contra run
  rw [Bool.not_eq_false] at run
  simp only [Pattern.test] at run
  simp only [Bool.and_eq_true] at clean
  split at run
  · next a b c d cut =>
    have whole : joined '.' [a,b,c,d] = text := by
      rw [joined,← cut]
      exact List.intercalate_splitOn '.'
    rw [← whole] at colon
    simp only [Bool.and_eq_true] at run
    rcases joined_mem colon with wrong | found
    · exact absurd wrong (by decide)
    · obtain ⟨part,listed,inside⟩ := found
      simp only [List.mem_cons,List.not_mem_nil,or_false] at listed
      rcases listed with rfl | rfl | rfl | rfl
      · exact part_clean clean.1.1.1 run.1.1.1 inside
      · exact part_clean clean.1.1.2 run.1.1.2 inside
      · exact part_clean clean.1.2 run.1.2 inside
      · exact part_clean clean.2 run.2 inside
  · cases run

def opening (text : Text) : Bool :=
  (Pattern.opens [[only 'f',only 'e',fun char => char = '8' || char = '9' || char = 'a' || char = 'b',hexDigit,only ':']]).test text ||
  (Pattern.opens [[only 'f',fun char => char = 'c' || char = 'd',hexDigit,hexDigit,only ':']]).test text ||
  (Pattern.opens [[only 'f',only 'f',only ':'],[only 'f',only 'f',hexDigit,only ':'],[only 'f',only 'f',hexDigit,hexDigit,only ':']]).test text

theorem blocked_colon {text : Text} (colon : ':' ∈ text) (clean : 'l' ∉ text) :
    blocked text = (decide (text = [':',':','1']) || decide (text = [':',':']) || opening text) := by
  obtain ⟨localhost,docker,kubernetes⟩ := names_apart clean
  unfold blocked BLOCKED_PATTERNS opening
  simp only [List.any_cons,List.any_nil,Bool.or_false]
  rw [localhost,docker,kubernetes]
  repeat rw [dotted_colon colon rfl]
  simp only [Bool.false_or,Bool.or_false,Bool.or_assoc]
  rfl

theorem opening_apart {text : Text} (apart : ∀ rest, text ≠ 'f' :: rest) : opening text = false := by
  unfold opening
  rw [opens_apart (by simp) apart,opens_apart (by simp) apart,opens_apart (by simp) apart]
  rfl

theorem normalizeHost_v6 {host h : Text} (spelled : withoutDots (lower host) = h) (colon : ':' ∈ h) :
    normalizeHost host = (((mappedDotted h).or (embeddedDotted h)).or (embeddedWords h)).getD h := by
  have no_hex : hexInteger h = none := by
    refine if_neg fun wrong => ?_
    simp only [Bool.and_eq_true] at wrong
    obtain ⟨rest,same⟩ := List.isPrefixOf_iff_prefix.mp wrong.1.1
    have later : ':' ∈ rest := by
      rw [← same] at colon
      simpa using colon
    have all := wrong.2
    rw [← same] at all
    exact absurd (List.all_eq_true.mp all ':' later) (by decide)
  have no_decimal : decimalInteger h = none := by
    refine if_neg fun wrong => ?_
    simp only [Bool.and_eq_true,digits] at wrong
    exact absurd (List.all_eq_true.mp wrong.1.1.2 ':' colon) (by decide)
  have no_mixed : mixedDotted h = none := by
    refine if_neg fun wrong => ?_
    exact absurd (List.all_eq_true.mp wrong ':' colon) (by decide)
  unfold normalizeHost
  simp only [spelled]
  rw [no_hex,no_decimal,no_mixed,Option.or_none,Option.or_none,Option.or_none]

theorem fourDotted_apart {text : Text} (member : char ∈ text) (strange : (decimalDigit char || decide (char = '.')) = false) : fourDotted text = false := by
  by_contra run
  rw [Bool.not_eq_false] at run
  unfold fourDotted at run
  split at run
  · next a b c d cut =>
    have whole : joined '.' [a,b,c,d] = text := by
      rw [joined,← cut]
      exact List.intercalate_splitOn '.'
    rw [← whole] at member
    rw [Bool.or_eq_false_iff] at strange
    simp only [Bool.and_eq_true,digits,List.all_eq_true] at run
    rcases joined_mem member with wrong | found
    · exact of_decide_eq_false strange.2 wrong
    · obtain ⟨part,listed,inside⟩ := found
      have digit : decimalDigit char = true := by
        simp only [List.mem_cons,List.not_mem_nil,or_false] at listed
        rcases listed with rfl | rfl | rfl | rfl
        · exact run.1.1.1.2 char inside
        · exact run.1.1.2.2 char inside
        · exact run.1.2.2 char inside
        · exact run.2.2 char inside
      rw [strange.1] at digit
      cases digit
  · cases run

theorem fourDotted_single {text : Text} (clean : '.' ∉ text) : fourDotted text = false := by
  unfold fourDotted
  rw [List.splitOn_eq_singleton clean]

theorem word_apart {text : Text} (member : char ∈ text) (strange : hexDigit char = false) : word text = false := by
  by_contra run
  rw [Bool.not_eq_false] at run
  simp only [word,Bool.and_eq_true,List.all_eq_true] at run
  rw [run.2 char member] at strange
  cases strange

theorem word_hex {number : Nat} (small : number < 65536) : word (hex number) = true := by
  have digit_hex : ∀ small < 16, hexDigit (Nat.digitChar small) = true := by decide
  simp only [word,Bool.and_eq_true,decide_eq_true_eq,List.all_eq_true]
  refine ⟨⟨Nat.toDigits_ne_nil,hex_length small⟩,fun char member => ?_⟩
  obtain ⟨digit,less,same⟩ := hex_char member
  rw [same]
  exact digit_hex digit less

theorem words_dotted {hi lo : Nat} (first : hi < 65536) (second : lo < 65536) :
    blocked (joined '.' [decimal (hi >>> 8 % 256),decimal (hi % 256),decimal (lo >>> 8 % 256),decimal (lo % 256)]) = documented (hi * 65536 + lo) := by
  have octets : hi >>> 8 % 256 < 256 ∧ hi % 256 < 256 ∧ lo >>> 8 % 256 < 256 ∧ lo % 256 < 256 := by omega
  have whole : address (hi >>> 8 % 256) (hi % 256) (lo >>> 8 % 256) (lo % 256) = hi * 65536 + lo := by
    simp only [address,Nat.shiftRight_eq_div_pow]
    omega
  exact (blocked_dotted octets.1 octets.2.1 octets.2.2.1 octets.2.2.2).trans (congrArg documented whole)

def onLast (rest : Text) : List Text → List Text
  | [] => [rest]
  | [last] => [last ++ rest]
  | part::next::more => part::onLast rest (next::more)

theorem onLast_concat (rest last : Text) (front : List Text) : onLast rest (front ++ [last]) = front ++ [last ++ rest] := by
  induction front with
  | nil => rfl
  | cons part front ih =>
    cases front with
    | nil => rfl
    | cons next more => exact congrArg (List.cons part) ih

theorem splitOn_rest {list : List Text} {rest : Text} (some_part : list ≠ []) (clean : ∀ part ∈ list, ':' ∉ part) (apart : ':' ∉ rest) :
    (joined ':' list ++ rest).splitOn ':' = onLast rest list := by
  rw [← List.dropLast_concat_getLast some_part,joined_tail,onLast_concat,splitOn_joined,if_neg (by simp)]
  intro part member
  rcases List.mem_append.mp member with front | last
  · exact clean part (List.mem_of_mem_dropLast front)
  · rw [List.mem_singleton.mp last]
    intro wrong
    exact (List.mem_append.mp wrong).elim (clean _ (List.getLast_mem some_part)) apart

theorem parts_mapped (hi lo : Nat) : parts [0,0,0,0,0,0xffff,hi,lo] = [[],[],['f','f','f','f'],hex hi,hex lo] := by
  have run : longest [0,0,0,0,0,0xffff,hi,lo] = (0,5) := by
    cases hi <;> cases lo <;> simp [longest_nil,longest_cons,zeros_nil,zeros_cons]
  have word : hex 0xffff = ['f','f','f','f'] := by decide
  unfold parts
  rw [run]
  simp [shown,word]

theorem parts_compatible (some_high : hi ≠ 0) (lo : Nat) : parts [0,0,0,0,0,0,hi,lo] = [[],[],hex hi,hex lo] := by
  have run : longest [0,0,0,0,0,0,hi,lo] = (0,6) := by
    cases hi with
    | zero => exact absurd rfl some_high
    | succ hi => cases lo <;> simp [longest_nil,longest_cons,zeros_nil,zeros_cons]
  unfold parts
  rw [run]
  simp [shown]

theorem parts_low (some_low : lo ≠ 0) : parts [0,0,0,0,0,0,0,lo] = [[],[],hex lo] := by
  have run : longest [0,0,0,0,0,0,0,lo] = (0,7) := by
    cases lo with
    | zero => exact absurd rfl some_low
    | succ lo => simp [longest_nil,longest_cons,zeros_cons]
  unfold parts
  rw [run]
  simp [shown]

theorem parts_nat64 (some_high : hi ≠ 0) (lo : Nat) : parts [0x64,0xff9b,0,0,0,0,hi,lo] = [['6','4'],['f','f','9','b'],[],hex hi,hex lo] := by
  have run : longest [0x64,0xff9b,0,0,0,0,hi,lo] = (2,4) := by
    cases hi with
    | zero => exact absurd rfl some_high
    | succ hi => cases lo <;> simp [longest_nil,longest_cons,zeros_nil,zeros_cons]
  have first : hex 0x64 = ['6','4'] := by decide
  have second : hex 0xff9b = ['f','f','9','b'] := by decide
  unfold parts
  rw [run]
  simp [shown,first,second]

theorem parts_nat64_low (lo : Nat) : parts [0x64,0xff9b,0,0,0,0,0,lo] = [['6','4'],['f','f','9','b'],[],if lo = 0 then [] else hex lo] := by
  have run : longest [0x64,0xff9b,0,0,0,0,0,lo] = (2,if lo = 0 then 6 else 5) := by
    cases lo <;> simp [longest_nil,longest_cons,zeros_nil,zeros_cons]
  have first : hex 0x64 = ['6','4'] := by decide
  have second : hex 0xff9b = ['f','f','9','b'] := by decide
  unfold parts
  rw [run]
  cases lo <;> simp [shown,first,second]

theorem parts_unspecified : parts [0,0,0,0,0,0,0,0] = [[],[],[]] := by decide

-- The low word of a 6to4 address is left out, or it and the high word open the text.
def Hidden (words : List Nat) : Prop := 2 ≤ (longest words).2 ∧ (longest words).1 ≤ 2

instance hiddenDecidable (words : List Nat) : Decidable (Hidden words) := inferInstanceAs (Decidable (_ ∧ _))

theorem parts_sixToFour {hi lo : Nat} {rest : List Nat} (some_rest : rest ≠ []) :
    (Hidden (0x2002::hi::lo::rest) ∧ ∃ more, parts (0x2002::hi::lo::rest) = ['2','0','0','2']::[]::more ∨ parts (0x2002::hi::lo::rest) = ['2','0','0','2']::hex hi::[]::more) ∨
    (¬ Hidden (0x2002::hi::lo::rest) ∧ ∃ more, more ≠ [] ∧ parts (0x2002::hi::lo::rest) = ['2','0','0','2']::hex hi::hex lo::more) := by
  have first : hex 0x2002 = ['2','0','0','2'] := by decide
  have inside : (longest (0x2002::hi::lo::rest)).2 < 2 ∨ 1 ≤ (longest (0x2002::hi::lo::rest)).1 := by
    unfold longest
    simp only
    split
    · exact .inl (by simp [zeros])
    · exact .inr (by simp)
  have short (count : Nat) (below : count < 3) : count = 0 ∨ count = 1 ∨ count = 2 := by omega
  unfold Hidden parts
  generalize longest (0x2002::hi::lo::rest) = run at inside ⊢
  by_cases small : run.2 < 2
  · refine .inr ⟨by omega,rest.map hex,by simpa using some_rest,?_⟩
    simp [small,shown,first]
  · have begins : 1 ≤ run.1 := inside.resolve_left small
    by_cases early : run.1 ≤ 2
    · refine .inl ⟨by omega,?_⟩
      rcases short run.1 (by omega) with wrong | one | two
      · omega
      · exact ⟨_,.inl (by simp [small,one,shown,first]; rfl)⟩
      · exact ⟨_,.inr (by simp [small,two,shown,first]; rfl)⟩
    · obtain ⟨more,same⟩ : ∃ more, run.1 = more + 3 := ⟨run.1 - 3,by omega⟩
      refine .inr ⟨by omega,_,?_,by simp [small,same,shown,first]; rfl⟩
      simp

section
variable {text : Text} (worded : Worded text) (form : Form)

theorem tail_char (form : Form) (member : char ∈ form.tail) : char = '.' ∨ char = ']' := by
  cases form with
  | plain count => exact .inl (List.eq_of_mem_replicate member)
  | bracketed inner outer =>
    cases outer with
    | zero => exact .inl (List.eq_of_mem_replicate member)
    | succ outer =>
      rcases List.mem_append.mp member with dot | back
      · exact .inl (List.eq_of_mem_replicate dot)
      · rcases List.mem_cons.mp back with close | dot
        · exact .inr close
        · exact .inl (List.eq_of_mem_replicate dot)

theorem rest_char (form : Form) (member : char ∈ form.rest) : char = '.' ∨ char = ']' := by
  cases form with
  | plain count => cases member
  | bracketed inner outer =>
    cases outer with
    | zero => cases member
    | succ outer =>
      rcases List.mem_append.mp member with dot | close
      · exact .inl (List.eq_of_mem_replicate dot)
      · exact .inr (List.mem_singleton.mp close)

theorem rest_late (form : Form) : form.rest = [] ↔ form.late = false := by
  cases form with
  | plain count => exact ⟨fun _ => rfl,fun _ => rfl⟩
  | bracketed inner outer =>
    cases outer with
    | zero => exact ⟨fun _ => rfl,fun _ => rfl⟩
    | succ outer => simp [Form.rest,Form.late]

theorem late_close (late : form.late = true) : ']' ∈ form.rest := by
  cases form with
  | plain count => cases late
  | bracketed inner outer =>
    cases outer with
    | zero => cases late
    | succ outer => exact List.mem_append_right _ (List.mem_singleton_self _)

theorem tail_late (form : Form) (none_left : form.tail = []) : form.late = false := by
  cases form with
  | plain count => rfl
  | bracketed inner outer =>
    cases outer with
    | zero => rfl
    | succ outer => simp [Form.tail] at none_left

theorem named_behind {behind pattern : Text} (strange : ∀ char ∈ behind, char = '.' ∨ char = ']') (clean : '.' ∉ pattern ∧ ']' ∉ pattern) :
    text ++ behind = pattern ↔ behind = [] ∧ text = pattern := by
  constructor
  · intro same
    have none_left : behind = [] := by
      cases behind with
      | nil => rfl
      | cons head rest =>
        have inside : head ∈ pattern := by rw [← same]; simp
        rcases strange head (List.mem_cons_self ..) with dot | close
        · exact absurd (dot ▸ inside) clean.1
        · exact absurd (close ▸ inside) clean.2
    rw [none_left,List.append_nil] at same
    exact ⟨none_left,same⟩
  · rintro ⟨none_left,same⟩
    rw [none_left,List.append_nil,same]

def Named (text : Text) : Prop := text = [':',':','1'] ∨ text = [':',':']

instance namedDecidable (text : Text) : Decidable (Named text) := inferInstanceAs (Decidable (_ ∨ _))

include worded in
theorem blocked_behind {behind : Text} (strange : ∀ char ∈ behind, char = '.' ∨ char = ']') (colon : ':' ∈ text) (apart : ∀ rest, text ≠ 'f' :: rest) :
    blocked (text ++ behind) = decide (behind = [] ∧ Named text) := by
  have clean : 'l' ∉ text ++ behind := by
    intro member
    rcases List.mem_append.mp member with inside | inside
    · exact worded_apart worded (by decide) inside
    · rcases strange 'l' inside with wrong | wrong <;> exact absurd wrong (by decide)
  have headless (rest : Text) : text ++ behind ≠ 'f' :: rest := by
    intro same
    cases text with
    | nil => cases colon
    | cons head more =>
      rw [List.cons_append] at same
      exact apart more (by rw [(List.cons.inj same).1])
  rw [blocked_colon (List.mem_append_left _ colon) clean,opening_apart headless,Bool.or_false]
  unfold Named
  rw [decide_eq_decide.mpr (named_behind strange (by decide)),decide_eq_decide.mpr (named_behind strange (by decide)),← Bool.decide_or]
  exact decide_eq_decide.mpr (by rw [and_or_left])

include worded in
theorem host_blocked (colon : ':' ∈ text) (apart : ∀ rest, text ≠ 'f' :: rest) :
    isBlockedHost (form.spell text) = (decide (form.tail = [] ∧ Named text) || blocked (normalizeHost (text ++ form.tail))) := by
  rw [isBlockedHost_eq,bare_spell worded,blocked_behind worded (fun char => tail_char form) colon apart]

-- An address no reading takes an IPv4 address out of is blocked by its own name alone.
include worded in
theorem unread_exact (colon : ':' ∈ text) (apart : ∀ rest, text ≠ 'f' :: rest) (no_mapped : mappedDotted (text ++ form.rest) = none)
    (no_embedded : embeddedDotted (text ++ form.rest) = none) (no_pair : wordPair (text ++ form.rest) = none) :
    isBlockedHost (form.spell text) = true ↔ form.late = false ∧ Named text := by
  have normal : normalizeHost (text ++ form.tail) = text ++ form.rest := by
    rw [normalizeHost_v6 (rest_spell worded form) (List.mem_append_left _ colon),no_mapped,no_embedded,embeddedWords,no_pair]
    rfl
  rw [host_blocked worded form colon apart,normal,blocked_behind worded (fun char => rest_char form) colon apart,Bool.or_eq_true,decide_eq_true_eq,decide_eq_true_eq,
    rest_late]
  exact ⟨fun either => either.elim (fun one => ⟨tail_late form one.1,one.2⟩) id,.inr⟩

include worded in
theorem read_blocked {hi lo : Nat} (first : hi < 65536) (second : lo < 65536) (colon : ':' ∈ text) (apart : ∀ rest, text ≠ 'f' :: rest)
    (no_mapped : mappedDotted (text ++ form.rest) = none) (no_embedded : embeddedDotted (text ++ form.rest) = none)
    (pair : wordPair (text ++ form.rest) = some (hex hi,hex lo)) (inside : documented (hi * 65536 + lo) = true) : isBlockedHost (form.spell text) = true := by
  rw [host_blocked worded form colon apart,normalizeHost_v6 (rest_spell worded form) (List.mem_append_left _ colon),no_mapped,no_embedded,embeddedWords,pair,
    Option.map_some,Option.none_or,Option.none_or,Option.getD_some,Bool.or_eq_true]
  right
  simp only [show value 16 (hex hi) = hi from value_toDigits (by decide) (by decide) hi,show value 16 (hex lo) = lo from value_toDigits (by decide) (by decide) lo]
  rw [words_dotted first second]
  exact inside

end

theorem hex_apart (strange : ∀ small < 16, char ≠ Nat.digitChar small) (number : Nat) : char ∉ hex number := by
  intro member
  obtain ⟨small,less,same⟩ := hex_char member
  exact strange small less same

theorem colon_rest (form : Form) : ':' ∉ form.rest := fun member => (rest_char form member).elim (fun wrong => absurd wrong (by decide)) fun wrong => absurd wrong (by decide)

theorem worded_parts {one two : Text} {more : List Text} (parts_hex : ∀ part ∈ one::two::more, part = [] ∨ ∃ word, part = hex word) :
    Worded (joined ':' (one::two::more)) ∧ ':' ∈ joined ':' (one::two::more) := by
  have colon : ':' ∈ joined ':' (one::two::more) := by
    unfold joined
    rw [List.intercalate_cons_cons]
    simp
  have chars : ∀ char ∈ joined ':' (one::two::more), char = ':' ∨ ∃ small < 16, char = Nat.digitChar small := by
    intro char member
    rcases joined_mem member with same | found
    · exact .inl same
    · obtain ⟨part,listed,inside⟩ := found
      rcases parts_hex part listed with empty | shown
      · rw [empty] at inside
        cases inside
      · obtain ⟨word,same⟩ := shown
        exact .inr (hex_char (same ▸ inside))
  refine ⟨⟨List.ne_nil_of_mem colon,fun last => ?_,fun char member => (chars char member).imp_right .inr⟩,colon⟩
  rcases chars '.' (List.mem_of_getLast? last) with wrong | digit
  · exact absurd wrong (by decide)
  · obtain ⟨small,less,same⟩ := digit
    exact (by decide : ∀ small < 16, '.' ≠ Nat.digitChar small) small less same

theorem colon_head {one two : Text} {more : List Text} (head : one.head? ≠ some 'f') (rest : Text) : joined ':' (one::two::more) ≠ 'f' :: rest := by
  unfold joined
  rw [List.intercalate_cons_cons]
  intro same
  cases one with
  | nil => exact absurd (List.cons.inj same).1 (by decide)
  | cons first later => exact head (by rw [← (List.cons.inj same).1]; rfl)

theorem fourDotted_rest (form : Form) (number : Nat) : fourDotted (hex number ++ form.rest) = false := by
  cases late : form.late with
  | true => exact fourDotted_apart (List.mem_append_right _ (late_close form late)) rfl
  | false =>
    rw [(rest_late form).mpr late,List.append_nil]
    exact fourDotted_single (hex_apart (by decide) number)

theorem fourDotted_gap (form : Form) : fourDotted form.rest = false := by
  cases late : form.late with
  | true => exact fourDotted_apart (late_close form late) rfl
  | false =>
    rw [(rest_late form).mpr late]
    rfl

theorem word_late {form : Form} (late : form.late = true) (text : Text) : word (text ++ form.rest) = false :=
  word_apart (List.mem_append_right _ (late_close form late)) rfl

theorem hex_clean (number : Nat) : ':' ∉ hex number := hex_apart (by decide) number

-- The parts of an address without dots.
def Hexed (list : List Text) : Prop := ∀ part ∈ list, part = [] ∨ ∃ word, part = hex word

theorem hexed_clean {list : List Text} (hexed : Hexed list) : ∀ part ∈ list, ':' ∉ part := by
  intro part member
  rcases hexed part member with empty | shown
  · rw [empty]
    exact List.not_mem_nil
  · obtain ⟨word,same⟩ := shown
    rw [same]
    exact hex_clean word

theorem hexed_parts (words : List Nat) : Hexed (parts words) := fun _ member => (parts_part member).imp_right fun found => found.imp fun _ both => both.2

theorem hexed_cut {list : List Text} (hexed : Hexed list) (some_part : list ≠ []) (form : Form) : (joined ':' list ++ form.rest).splitOn ':' = onLast form.rest list :=
  splitOn_rest some_part (hexed_clean hexed) (colon_rest form)

section
variable {one two : Text} {more : List Text} (hexed : Hexed (one::two::more)) (head : one.head? ≠ some 'f') (form : Form)
include hexed head

theorem unread_parts (no_mapped : mappedDotted (joined ':' (one::two::more) ++ form.rest) = none)
    (no_embedded : embeddedDotted (joined ':' (one::two::more) ++ form.rest) = none) (no_pair : wordPair (joined ':' (one::two::more) ++ form.rest) = none) :
    isBlockedHost (form.spell (joined ':' (one::two::more))) = true ↔ form.late = false ∧ Named (joined ':' (one::two::more)) :=
  unread_exact (worded_parts hexed).1 form (worded_parts hexed).2 (colon_head head) no_mapped no_embedded no_pair

theorem pair_exact {hi lo : Nat} (first : hi < 65536) (second : lo < 65536) (inside : documented (hi * 65536 + lo) = true)
    (no_mapped : mappedDotted (joined ':' (one::two::more) ++ form.rest) = none) (no_embedded : embeddedDotted (joined ':' (one::two::more) ++ form.rest) = none)
    (pair : wordPair (joined ':' (one::two::more) ++ form.rest) = if word (hex lo ++ form.rest) then some (hex hi,hex lo ++ form.rest) else none) :
    isBlockedHost (form.spell (joined ':' (one::two::more))) = true ↔ form.late = false := by
  cases late : form.late with
  | true =>
    rw [word_late late,if_neg Bool.false_ne_true] at pair
    rw [unread_parts hexed head form no_mapped no_embedded pair,late]
    exact iff_of_false (fun both => absurd both.1 (by decide)) (by decide)
  | false =>
    rw [(rest_late form).mpr late,List.append_nil,List.append_nil,word_hex second,if_pos rfl] at pair
    have read : wordPair (joined ':' (one::two::more) ++ form.rest) = some (hex hi,hex lo) := by
      rw [(rest_late form).mpr late,List.append_nil]
      exact pair
    exact iff_of_true (read_blocked (worded_parts hexed).1 form first second (worded_parts hexed).2 (colon_head head) no_mapped no_embedded read inside) rfl

end

section
variable {hi lo : Nat} (first : hi < 65536) (second : lo < 65536) (inside : documented (hi * 65536 + lo) = true) (form : Form)
include first second inside

theorem mapped_exact : isBlockedHost (form.spell (compressed [0,0,0,0,0,0xffff,hi,lo])) = true ↔ form.late = false := by
  have hexed := hexed_parts [0,0,0,0,0,0xffff,hi,lo]
  rw [compressed_joined]
  rw [parts_mapped] at hexed ⊢
  have cut := hexed_cut hexed (List.cons_ne_nil _ _) form
  refine pair_exact hexed (by decide) form first second inside ?_ ?_ ?_
  · simp [mappedDotted,cut,onLast]
  · simp [embeddedDotted,cut,onLast]
  · simp [wordPair,cut,onLast,word_hex first]

theorem compatible_exact (some_high : hi ≠ 0) : isBlockedHost (form.spell (compressed [0,0,0,0,0,0,hi,lo])) = true ↔ form.late = false := by
  have hexed := hexed_parts [0,0,0,0,0,0,hi,lo]
  rw [compressed_joined]
  rw [parts_compatible some_high] at hexed ⊢
  have cut := hexed_cut hexed (List.cons_ne_nil _ _) form
  refine pair_exact hexed (by decide) form first second inside ?_ ?_ ?_
  · simp [mappedDotted,cut,onLast,fourDotted_rest]
  · simp [embeddedDotted,cut,onLast]
  · simp [wordPair,cut,onLast,word_hex first]

theorem nat64_exact (some_high : hi ≠ 0) : isBlockedHost (form.spell (compressed [0x64,0xff9b,0,0,0,0,hi,lo])) = true ↔ form.late = false := by
  have hexed := hexed_parts [0x64,0xff9b,0,0,0,0,hi,lo]
  rw [compressed_joined]
  rw [parts_nat64 some_high] at hexed ⊢
  have cut := hexed_cut hexed (List.cons_ne_nil _ _) form
  refine pair_exact hexed (by decide) form first second inside ?_ ?_ ?_
  · simp [mappedDotted,cut,onLast]
  · simp [embeddedDotted,cut,onLast]
  · simp [wordPair,cut,onLast,word_hex first]

end

theorem compatible_low (lo : Nat) (form : Form) :
    isBlockedHost (form.spell (compressed [0,0,0,0,0,0,0,lo])) = true ↔ form.late = false ∧ Named (compressed [0,0,0,0,0,0,0,lo]) := by
  have single : ∃ last, (last = [] ∨ last = hex lo) ∧ parts [0,0,0,0,0,0,0,lo] = [[],[],last] := by
    by_cases none_left : lo = 0
    · rw [none_left]
      exact ⟨[],.inl rfl,parts_unspecified⟩
    · exact ⟨hex lo,.inr rfl,parts_low none_left⟩
  obtain ⟨last,empty_or_word,shape⟩ := single
  have hexed := hexed_parts [0,0,0,0,0,0,0,lo]
  rw [compressed_joined]
  rw [shape] at hexed ⊢
  have cut := hexed_cut hexed (List.cons_ne_nil _ _) form
  have undotted : fourDotted (last ++ form.rest) = false := by
    rcases empty_or_word with rfl | rfl
    · exact fourDotted_gap form
    · exact fourDotted_rest form lo
  apply unread_parts hexed (by decide) form
  · simp [mappedDotted,cut,onLast]
  · simp [embeddedDotted,cut,onLast,undotted]
  · simp [wordPair,cut,onLast]

theorem nat64_low (lo : Nat) (form : Form) :
    isBlockedHost (form.spell (compressed [0x64,0xff9b,0,0,0,0,0,lo])) = true ↔
      form.late = false ∧ Named (compressed [0x64,0xff9b,0,0,0,0,0,lo]) := by
  have hexed := hexed_parts [0x64,0xff9b,0,0,0,0,0,lo]
  rw [compressed_joined]
  rw [parts_nat64_low] at hexed ⊢
  have cut := hexed_cut hexed (List.cons_ne_nil _ _) form
  have undotted : fourDotted ((if lo = 0 then [] else hex lo) ++ form.rest) = false := by
    split
    · exact fourDotted_gap form
    · exact fourDotted_rest form lo
  apply unread_parts hexed (by decide) form
  · simp [mappedDotted,cut,onLast]
  · simp [embeddedDotted,cut,onLast,undotted]
  · simp [wordPair,cut,onLast]

theorem onLast_cons {rest part : Text} {more : List Text} (some_more : more ≠ []) : onLast rest (part::more) = part::onLast rest more := by
  cases more with
  | nil => exact absurd rfl some_more
  | cons next later => rfl

theorem word_gap (form : Form) : word form.rest = false := by
  cases late : form.late with
  | true => exact word_late late []
  | false =>
    rw [(rest_late form).mpr late]
    rfl

theorem sixToFour_read {h two : Text} {more : List Text} (cut : h.splitOn ':' = ['2','0','0','2']::two::more) :
    mappedDotted h = none ∧ embeddedDotted h = none ∧ wordPair h = more.head?.bind fun lo => if word two && word lo then some (two,lo) else none := by
  unfold mappedDotted embeddedDotted wordPair
  rw [cut]
  cases more with
  | nil => exact ⟨rfl,rfl,rfl⟩
  | cons three more =>
    cases more with
    | nil => exact ⟨rfl,by simp,by simp⟩
    | cons four more =>
      cases more with
      | nil => exact ⟨by simp,by simp,by simp⟩
      | cons five more => cases more <;> exact ⟨by simp,by simp,by simp⟩

theorem sixToFour_exact {hi lo : Nat} {rest : List Nat} (first : hi < 65536) (second : lo < 65536) (some_rest : rest ≠ [])
    (inside : documented (hi * 65536 + lo) = true) (form : Form) :
    isBlockedHost (form.spell (compressed (0x2002::hi::lo::rest))) = true ↔ ¬ Hidden (0x2002::hi::lo::rest) := by
  have hexed := hexed_parts (0x2002::hi::lo::rest)
  rw [compressed_joined]
  have unnamed {two : Text} {more : List Text} : ¬ Named (joined ':' (['2','0','0','2']::two::more)) := by
    unfold Named joined
    rw [List.intercalate_cons_cons]
    intro wrong
    rcases wrong with wrong | wrong <;> exact absurd (List.cons.inj wrong).1 (by decide)
  rcases parts_sixToFour some_rest with ⟨hidden,more,gap⟩ | ⟨shown,more,some_more,shape⟩
  · refine iff_of_false ?_ (not_not_intro hidden)
    rcases gap with one_gap | two_gap
    · rw [one_gap] at hexed ⊢
      have cut := hexed_cut hexed (List.cons_ne_nil _ _) form
      have gone : ∃ two later, onLast form.rest ([]::more) = two::later ∧ word two = false := by
        cases more with
        | nil => exact ⟨_,_,rfl,word_gap form⟩
        | cons next more => exact ⟨_,_,rfl,rfl⟩
      obtain ⟨two,later,same,unread⟩ := gone
      rw [onLast_cons (List.cons_ne_nil _ _),same] at cut
      obtain ⟨no_mapped,no_embedded,pair⟩ := sixToFour_read cut
      rw [unread_parts hexed (by decide) form no_mapped no_embedded (by rw [pair,unread]; cases later <;> rfl)]
      exact fun both => unnamed both.2
    · rw [two_gap] at hexed ⊢
      have cut := hexed_cut hexed (List.cons_ne_nil _ _) form
      have gone : ∃ lo later, onLast form.rest ([]::more) = lo::later ∧ word lo = false := by
        cases more with
        | nil => exact ⟨_,_,rfl,word_gap form⟩
        | cons next more => exact ⟨_,_,rfl,rfl⟩
      obtain ⟨lo,later,same,unread⟩ := gone
      rw [onLast_cons (List.cons_ne_nil _ _),onLast_cons (List.cons_ne_nil _ _),same] at cut
      obtain ⟨no_mapped,no_embedded,pair⟩ := sixToFour_read cut
      rw [unread_parts hexed (by decide) form no_mapped no_embedded (by rw [pair,List.head?_cons,Option.bind_some,unread,Bool.and_false]; rfl)]
      exact fun both => unnamed both.2
  · rw [shape] at hexed ⊢
    have cut := hexed_cut hexed (List.cons_ne_nil _ _) form
    rw [onLast_cons (List.cons_ne_nil _ _),onLast_cons (List.cons_ne_nil _ _),onLast_cons some_more] at cut
    obtain ⟨no_mapped,no_embedded,pair⟩ := sixToFour_read cut
    rw [List.head?_cons,Option.bind_some,word_hex first,word_hex second,Bool.and_self,if_pos rfl] at pair
    exact iff_of_true (read_blocked (worded_parts hexed).1 form first second (worded_parts hexed).2 (colon_head (by decide)) no_mapped no_embedded pair inside) shown

theorem parts_head {first : Nat} {rest : List Nat} (some_first : first ≠ 0) (some_rest : rest ≠ []) : ∃ two more, parts (first::rest) = hex first::two::more := by
  have headed {list : List Text} (some_part : list ≠ []) : ∃ two more, hex first::list = hex first::two::more := by
    obtain ⟨two,more,same⟩ := List.exists_cons_of_ne_nil some_part
    exact ⟨two,more,by rw [same]⟩
  have begins : (longest (first::rest)).2 < 2 ∨ ∃ front, (longest (first::rest)).1 = front + 1 := by
    have none_front : zeros (first::rest) = 0 := by
      cases first with
      | zero => exact absurd rfl some_first
      | succ first => rfl
    unfold longest
    simp only [none_front]
    split
    · exact .inl (by decide)
    · exact .inr ⟨_,rfl⟩
  unfold parts
  rcases begins with small | ⟨front,same⟩
  · simp only [if_pos small]
    unfold shown
    rw [if_neg (List.cons_ne_nil _ _),List.map_cons]
    exact headed (by simpa using some_rest)
  · by_cases small : (longest (first::rest)).2 < 2
    · simp only [if_pos small]
      unfold shown
      rw [if_neg (List.cons_ne_nil _ _),List.map_cons]
      exact headed (by simpa using some_rest)
    · simp only [if_neg small,same,List.take_succ_cons]
      unfold shown
      rw [if_neg (List.cons_ne_nil _ _),List.map_cons,List.cons_append]
      exact headed (by simp)

-- The ranges the patterns tell by the first word alone.
def Anchored (first : Nat) : Prop := 0xfe80 ≤ first ∧ first < 0xfec0 ∨ 0xfc00 ≤ first ∧ first < 0xfe00 ∨ 0xff00 ≤ first

theorem fits_take {classes : Classes} {front : Text} (fit : fits classes front = true) (rest : Text) : fits classes ((front ++ rest).take classes.length) = true := by
  induction classes generalizing front with
  | nil =>
    cases front with
    | nil => rfl
    | cons head front => cases fit
  | cons accepts classes ih =>
    cases front with
    | nil => cases fit
    | cons head front =>
      rw [fits,Bool.and_eq_true] at fit
      rw [List.cons_append,List.length_cons,List.take_succ_cons,fits,fit.1,Bool.true_and]
      exact ih fit.2

theorem opens_fit {choices : List Classes} {classes : Classes} {front : Text} (listed : classes ∈ choices) (fit : fits classes front = true) (rest : Text) :
    (Pattern.opens choices).test (front ++ rest) = true := List.any_eq_true.mpr ⟨classes,listed,fits_take fit rest⟩

theorem opening_hex {first : Nat} (small : first < 65536) (range : Anchored first) (rest : Text) : opening (hex first ++ ':' :: rest) = true := by
  have digit : ∀ small < 16, hexDigit (Nat.digitChar small) = true := by decide
  have last := digit (first % 16) (Nat.mod_lt _ (by decide))
  have third := digit (first / 16 % 16) (Nat.mod_lt _ (by decide))
  have low : 4096 ≤ first := by unfold Anchored at range; omega
  have head : first / 4096 = 15 := by unfold Anchored at range; omega
  have named : Nat.digitChar 15 = 'f' ∧ Nat.digitChar 14 = 'e' ∧ Nat.digitChar 13 = 'd' ∧ Nat.digitChar 12 = 'c' := by decide
  rw [hex_four low small,head,List.append_cons]
  unfold opening
  rcases range with link | unique | many
  · have second : first / 256 % 16 = 14 := by omega
    have near : first / 16 % 16 = 8 ∨ first / 16 % 16 = 9 ∨ first / 16 % 16 = 10 ∨ first / 16 % 16 = 11 := by omega
    rw [second,opens_fit (List.mem_singleton_self _)]
    · rfl
    · simp [fits,only,named,last,near,or_assoc]
  · have second : first / 256 % 16 = 12 ∨ first / 256 % 16 = 13 := by omega
    have opened : (Pattern.opens [[only 'f',fun char => char = 'c' || char = 'd',hexDigit,hexDigit,only ':']]).test
        ([Nat.digitChar 15,Nat.digitChar (first / 256 % 16),Nat.digitChar (first / 16 % 16),Nat.digitChar (first % 16)] ++ [':'] ++ rest) = true := by
      apply opens_fit (List.mem_singleton_self _)
      rcases second with twelve | thirteen
      · simp [fits,only,named,twelve,third,last]
      · simp [fits,only,named,thirteen,third,last]
    rw [opened,Bool.or_true,Bool.true_or]
  · have second : first / 256 % 16 = 15 := by omega
    have opened : (Pattern.opens [[only 'f',only 'f',only ':'],[only 'f',only 'f',hexDigit,only ':'],[only 'f',only 'f',hexDigit,hexDigit,only ':']]).test
        ([Nat.digitChar 15,Nat.digitChar (first / 256 % 16),Nat.digitChar (first / 16 % 16),Nat.digitChar (first % 16)] ++ [':'] ++ rest) = true := by
      apply opens_fit (List.mem_cons_of_mem _ (List.mem_cons_of_mem _ (List.mem_singleton_self _)))
      simp [fits,only,named,second,third,last]
    rw [opened,Bool.or_true]

theorem anchored_exact {first : Nat} {rest : List Nat} (small : first < 65536) (range : Anchored first) (some_rest : rest ≠ []) (form : Form) :
    isBlockedHost (form.spell (compressed (first::rest))) = true := by
  have some_first : first ≠ 0 := by unfold Anchored at range; omega
  have hexed := hexed_parts (first::rest)
  obtain ⟨two,more,shape⟩ := parts_head some_first some_rest
  rw [compressed_joined]
  rw [shape] at hexed ⊢
  obtain ⟨worded,colon⟩ := worded_parts hexed
  have opened : opening (joined ':' (hex first::two::more) ++ form.tail) = true := by
    unfold joined
    rw [List.intercalate_cons_cons,List.append_assoc,List.append_assoc]
    exact opening_hex small range _
  have clean : 'l' ∉ joined ':' (hex first::two::more) ++ form.tail := by
    intro member
    rcases List.mem_append.mp member with inside | behind
    · exact worded_apart worded (by decide) inside
    · rcases tail_char form behind with wrong | wrong <;> exact absurd wrong (by decide)
  rw [isBlockedHost_eq,bare_spell worded,blocked_colon (List.mem_append_left _ colon) clean,opened,Bool.or_true,Bool.true_or]

theorem dotted_colon_apart (v4 : Nat) : ':' ∉ dotted v4 := fun member => (dotted_chars _ _ _ _ member).elim (fun wrong => absurd wrong (by decide)) fun wrong => absurd wrong (by decide)

theorem fourDotted_dotted (v4 : Nat) : fourDotted (dotted v4) = true := by
  unfold fourDotted dotted
  simp only [splitOn_dotted,digits_decimal,Bool.and_self]

theorem blocked_documented (small : v4 < 2 ^ 32) : blocked (dotted v4) = documented v4 := by
  have octet (number : Nat) : number % 256 < 256 := Nat.mod_lt _ (by decide)
  have whole : address (v4 / 256 ^ 3 % 256) (v4 / 256 ^ 2 % 256) (v4 / 256 % 256) (v4 % 256) = v4 := by
    simp only [address]
    omega
  exact (blocked_dotted (octet _) (octet _) (octet _) (octet _)).trans (congrArg documented whole)

theorem worded_dotted {front : Text} (v4 : Nat) (hexed : ∀ char ∈ front, char = ':' ∨ ∃ small < 16, char = Nat.digitChar small) : Worded (front ++ dotted v4) := by
  have octet (number : Nat) : number % 256 < 256 := Nat.mod_lt _ (by decide)
  have some_char : dotted v4 ≠ [] := by
    intro empty
    have wrong := fourDotted_dotted v4
    rw [empty] at wrong
    cases wrong
  have last : (dotted v4).getLast? ≠ some '.' := octets_last (.decimal _ (octet _))
  refine ⟨by simp [some_char],?_,fun char member => ?_⟩
  · rw [List.getLast?_append_of_ne_nil _ some_char]
    exact last
  · rcases List.mem_append.mp member with inside | behind
    · exact (hexed char inside).imp_right .inr
    · right
      simp only [dotted,joined,List.intercalate_cons_cons,List.intercalate_singleton,List.mem_append,List.mem_singleton] at behind
      have digit {number : Nat} (listed : char ∈ decimal number) : ∃ small < 16, char = Nat.digitChar small := by
        obtain ⟨small,less,same⟩ := digits_small (show 1 < 10 by decide) (by decide) number listed
        exact ⟨small,by omega,same⟩
      rcases behind with (first | dot) | (second | dot) | (third | dot) | fourth
      · exact .inr (digit first)
      · exact .inl dot
      · exact .inr (digit second)
      · exact .inl dot
      · exact .inr (digit third)
      · exact .inl dot
      · exact .inr (digit fourth)

theorem dotted_behind {text : Text} {v4 : Nat} (small : v4 < 2 ^ 32) (inside : documented v4 = true) (worded : Worded text) (colon : ':' ∈ text)
    (apart : ∀ rest, text ≠ 'f' :: rest) (form : Form)
    (read : (mappedDotted (text ++ form.rest)).or (embeddedDotted (text ++ form.rest)) = if fourDotted (dotted v4 ++ form.rest) then some (dotted v4 ++ form.rest) else none)
    (no_pair : wordPair (text ++ form.rest) = none) : isBlockedHost (form.spell text) = true ↔ form.late = false := by
  cases late : form.late with
  | true =>
    rw [fourDotted_apart (List.mem_append_right _ (late_close form late)) rfl,if_neg Bool.false_ne_true,Option.or_eq_none_iff] at read
    rw [unread_exact worded form colon apart read.1 read.2 no_pair,late]
    exact iff_of_false (fun both => absurd both.1 (by decide)) (by decide)
  | false =>
    refine iff_of_true ?_ rfl
    have none_left := (rest_late form).mpr late
    rw [none_left,List.append_nil,List.append_nil,fourDotted_dotted,if_pos rfl] at read
    rw [host_blocked worded form colon apart,normalizeHost_v6 (rest_spell worded form) (List.mem_append_left _ colon),none_left,List.append_nil,read,
      Option.some_or,Option.getD_some,blocked_documented small,inside,Bool.or_true]

theorem mapped_dotted {v4 : Nat} (small : v4 < 2 ^ 32) (inside : documented v4 = true) (form : Form) :
    isBlockedHost (form.spell ([':',':','f','f','f','f',':'] ++ dotted v4)) = true ↔ form.late = false := by
  have cut : ([':',':','f','f','f','f',':'] ++ dotted v4 ++ form.rest).splitOn ':' = [[],[],['f','f','f','f'],dotted v4 ++ form.rest] := by
    have whole : [':',':','f','f','f','f',':'] ++ dotted v4 = joined ':' [[],[],['f','f','f','f'],dotted v4] := by simp [joined,List.intercalate_cons_cons]
    rw [whole]
    exact splitOn_rest (List.cons_ne_nil _ _) (by simp [dotted_colon_apart]) (colon_rest form)
  have dot : '.' ∈ dotted v4 ++ form.rest := by simp [dotted,joined,List.intercalate_cons_cons]
  have front : ∀ char ∈ [':',':','f','f','f','f',':'], char = ':' ∨ ∃ small < 16, char = Nat.digitChar small := by
    intro char listed
    by_cases colon : char = ':'
    · exact .inl colon
    · have fifteen : Nat.digitChar 15 = 'f' := rfl
      exact .inr ⟨15,by decide,by rw [fifteen]; simpa [colon] using listed⟩
  apply dotted_behind small inside (worded_dotted v4 front) (by simp) (by simp) form
  · simp only [mappedDotted,embeddedDotted,cut]
    simp
  · simp only [wordPair,cut,word_apart dot rfl]
    simp

theorem compatible_dotted {v4 : Nat} (small : v4 < 2 ^ 32) (inside : documented v4 = true) (form : Form) :
    isBlockedHost (form.spell ([':',':'] ++ dotted v4)) = true ↔ form.late = false := by
  have cut : ([':',':'] ++ dotted v4 ++ form.rest).splitOn ':' = [[],[],dotted v4 ++ form.rest] := by
    have whole : [':',':'] ++ dotted v4 = joined ':' [[],[],dotted v4] := by simp [joined,List.intercalate_cons_cons]
    rw [whole]
    exact splitOn_rest (List.cons_ne_nil _ _) (by simp [dotted_colon_apart]) (colon_rest form)
  apply dotted_behind small inside (worded_dotted v4 (by simp)) (by simp) (by simp) form
  · simp only [mappedDotted,embeddedDotted,cut]
    simp
  · simp only [wordPair,cut]
    simp

-- How the serializer of URLs and the answers of the name service write an address.
inductive Shown : List Nat → Text → Prop
  | compressed (words : List Nat) : Shown words (compressed words)
  | mapped (hi lo : Nat) : Shown [0,0,0,0,0,0xffff,hi,lo] ([':',':','f','f','f','f',':'] ++ dotted (hi * 65536 + lo))
  | compatible (hi lo : Nat) : Shown [0,0,0,0,0,0,hi,lo] ([':',':'] ++ dotted (hi * 65536 + lo))

-- The addresses the patterns' comments name, and those an IPv4 address of the documented blocks is embedded in.
inductive Inside : List Nat → Prop
  | unspecified : Inside [0,0,0,0,0,0,0,0]
  | loopback : Inside [0,0,0,0,0,0,0,1]
  | linkLocal (low : 0xfe80 ≤ first) (high : first < 0xfec0) : Inside (first::rest)
  | uniqueLocal (low : 0xfc00 ≤ first) (high : first < 0xfe00) : Inside (first::rest)
  | multicast (low : 0xff00 ≤ first) : Inside (first::rest)
  | mapped (inside : documented (hi * 65536 + lo) = true) : Inside [0,0,0,0,0,0xffff,hi,lo]
  | compatible (inside : documented (hi * 65536 + lo) = true) : Inside [0,0,0,0,0,0,hi,lo]
  | nat64 (inside : documented (hi * 65536 + lo) = true) : Inside [0x64,0xff9b,0,0,0,0,hi,lo]
  | sixToFour (inside : documented (hi * 65536 + lo) = true) : Inside (0x2002::hi::lo::rest)

-- A 6to4 address is seen when its words are shown; the ranges of the first word always are;
-- the others when no dots follow the bracket, in two words, in dots, or by name.
def Seen (form : Form) (text : Text) (words : List Nat) : Prop :=
  if words.headD 0 = 0x2002 then ¬ Hidden words
  else words.headD 0 < 0xfc00 → form.late = false ∧ (words.getD 6 0 ≠ 0 ∨ words.getD 5 0 = 0xffff ∨ '.' ∈ text ∨ Named text)

instance seenDecidable (form : Form) (text : Text) (words : List Nat) : Decidable (Seen form text words) := by
  unfold Seen
  infer_instance

theorem hexed_joined {list : List Text} (hexed : Hexed list) : '.' ∉ joined ':' list := by
  intro member
  rcases joined_mem member with wrong | found
  · exact absurd wrong (by decide)
  · obtain ⟨part,listed,inside⟩ := found
    rcases hexed part listed with empty | shown
    · rw [empty] at inside
      cases inside
    · obtain ⟨word,same⟩ := shown
      exact hex_apart (by decide) word (same ▸ inside)

theorem compressed_undotted (words : List Nat) : '.' ∉ compressed words := by
  rw [compressed_joined]
  exact hexed_joined (hexed_parts words)

section
variable {hi lo : Nat} (first : hi < 65536) (second : lo < 65536) (inside : documented (hi * 65536 + lo) = true) (form : Form)

theorem seen_plain {words : List Nat} (apart : words.headD 0 ≠ 0x2002) (low : words.headD 0 < 0xfc00) (text : Text) :
    Seen form text words ↔ form.late = false ∧ (words.getD 6 0 ≠ 0 ∨ words.getD 5 0 = 0xffff ∨ '.' ∈ text ∨ Named text) := by
  unfold Seen
  rw [if_neg apart]
  exact ⟨fun seen => seen low,fun both _ => both⟩

theorem seen_anchored {first : Nat} (range : Anchored first) (rest : List Nat) (text : Text) : Seen form text (first::rest) := by
  unfold Seen
  rw [if_neg (by rw [List.headD_cons]; unfold Anchored at range; omega),List.headD_cons]
  intro low
  unfold Anchored at range
  omega

include first second inside

theorem mapped_seen : isBlockedHost (form.spell (compressed [0,0,0,0,0,0xffff,hi,lo])) = true ↔
    Seen form (compressed [0,0,0,0,0,0xffff,hi,lo]) [0,0,0,0,0,0xffff,hi,lo] := by
  rw [mapped_exact first second inside,seen_plain form (by simp) (by simp)]
  exact ⟨fun early => ⟨early,.inr (.inl rfl)⟩,And.left⟩

theorem compatible_seen : isBlockedHost (form.spell (compressed [0,0,0,0,0,0,hi,lo])) = true ↔
    Seen form (compressed [0,0,0,0,0,0,hi,lo]) [0,0,0,0,0,0,hi,lo] := by
  rw [seen_plain form (by simp) (by simp)]
  by_cases none_high : hi = 0
  · rw [none_high,compatible_low]
    simp [compressed_undotted]
  · rw [compatible_exact first second inside form none_high]
    exact ⟨fun early => ⟨early,.inl none_high⟩,And.left⟩

theorem nat64_seen : isBlockedHost (form.spell (compressed [0x64,0xff9b,0,0,0,0,hi,lo])) = true ↔
    Seen form (compressed [0x64,0xff9b,0,0,0,0,hi,lo]) [0x64,0xff9b,0,0,0,0,hi,lo] := by
  rw [seen_plain form (by simp) (by simp)]
  by_cases none_high : hi = 0
  · rw [none_high,nat64_low]
    simp [compressed_undotted]
  · rw [nat64_exact first second inside form none_high]
    exact ⟨fun early => ⟨early,.inl none_high⟩,And.left⟩

end

theorem documented_low : documented 0 = true ∧ documented 1 = true := by decide

theorem v6_exact {words : List Nat} {text : Text} (eight : words.length = 8) (small : ∀ word ∈ words, word < 65536) (shown : Shown words text) (inside : Inside words)
    (form : Form) : isBlockedHost (form.spell text) = true ↔ Seen form text words := by
  cases shown with
  | compressed =>
    cases inside with
    | unspecified => exact compatible_seen (by decide) (by decide) documented_low.1 form
    | loopback => exact compatible_seen (by decide) (by decide) documented_low.2 form
    | linkLocal low high =>
      have range : Anchored _ := .inl ⟨low,high⟩
      exact iff_of_true (anchored_exact (small _ (List.mem_cons_self ..)) range (by rintro rfl; cases eight) form) (seen_anchored form range _ _)
    | uniqueLocal low high =>
      have range : Anchored _ := .inr (.inl ⟨low,high⟩)
      exact iff_of_true (anchored_exact (small _ (List.mem_cons_self ..)) range (by rintro rfl; cases eight) form) (seen_anchored form range _ _)
    | multicast low =>
      have range : Anchored _ := .inr (.inr low)
      exact iff_of_true (anchored_exact (small _ (List.mem_cons_self ..)) range (by rintro rfl; cases eight) form) (seen_anchored form range _ _)
    | mapped v4 => exact mapped_seen (small _ (by simp)) (small _ (by simp)) v4 form
    | compatible v4 => exact compatible_seen (small _ (by simp)) (small _ (by simp)) v4 form
    | nat64 v4 => exact nat64_seen (small _ (by simp)) (small _ (by simp)) v4 form
    | sixToFour v4 =>
      rw [sixToFour_exact (small _ (by simp)) (small _ (by simp)) (by rintro rfl; cases eight) v4 form]
      exact Iff.rfl
  | mapped hi lo =>
    have v4 : documented (hi * 65536 + lo) = true := by
      cases inside with
      | mapped v4 => exact v4
      | linkLocal low high => cases low
      | uniqueLocal low high => cases low
      | multicast low => cases low
    have first : hi < 65536 := small _ (by simp)
    have second : lo < 65536 := small _ (by simp)
    rw [mapped_dotted (by omega) v4 form,seen_plain form (by simp) (by simp)]
    exact ⟨fun early => ⟨early,.inr (.inl rfl)⟩,And.left⟩
  | compatible hi lo =>
    have v4 : documented (hi * 65536 + lo) = true := by
      cases inside with
      | unspecified => exact documented_low.1
      | loopback => exact documented_low.2
      | compatible v4 => exact v4
      | linkLocal low high => cases low
      | uniqueLocal low high => cases low
      | multicast low => cases low
    have first : hi < 65536 := small _ (by simp)
    have second : lo < 65536 := small _ (by simp)
    have dot : '.' ∈ [':',':'] ++ dotted (hi * 65536 + lo) := by simp [dotted,joined,List.intercalate_cons_cons]
    rw [compatible_dotted (by omega) v4 form,seen_plain form (by simp) (by simp)]
    exact ⟨fun early => ⟨early,.inr (.inr (.inl dot))⟩,And.left⟩

-- The texts of an address, whether the list is to hold it, and when the code does as told: one decimal integer
-- below 65536, two zero bytes in front of an embedded address, a 6to4 address whose words are left out and dots
-- behind a bracket go wrong.
inductive Spelled : Text → Bool → Prop → Prop where
  | octets {host one two three four : Text} {a b c d : Nat} (count : Nat) (first : Octet one a) (second : Octet two b) (third : Octet three c) (fourth : Octet four d)
      (spelled : lower host = joined '.' [one,two,three,four] ++ dots count) (inside : documented (address a b c d) = true) : Spelled host true True
  | integer {number : Nat} (count : Nat) (small : number < 2 ^ 32) (inside : documented number = true) : Spelled (decimal number ++ dots count) true (0xffff < number)
  | hexInteger {host digits : Text} (count : Nat) (some_digit : digits ≠ []) (all : ∀ char ∈ digits, hexDigit char = true) (small : value 16 digits < 2 ^ 32)
      (spelled : lower host = '0' :: 'x' :: digits ++ dots count) (inside : documented (value 16 digits) = true) : Spelled host true True
  | words {words : List Nat} {text : Text} (form : Form) (eight : words.length = 8) (small : ∀ word ∈ words, word < 65536) (shown : Shown words text) (inside : Inside words) :
      Spelled (form.spell text) true (Seen form text words)
  | outside {one two three four : Nat} (first : one < 256) (second : two < 256) (third : three < 256) (fourth : four < 256)
      (apart : documented (address one two three four) = false) : Spelled (joined '.' [decimal one,decimal two,decimal three,decimal four]) false True

theorem spellings_blocked {host : Text} {blocked : Bool} {seen : Prop} (spelled : Spelled host blocked seen) : isBlockedHost host = blocked ↔ seen := by
  cases spelled with
  | octets count first second third fourth spelled inside => exact iff_true_intro (mixed_blocked first second third fourth spelled inside)
  | integer count small inside => rw [decimal_blocked small,inside,Bool.and_true,decide_eq_true_eq]
  | hexInteger count some_digit all small spelled inside => exact iff_true_intro (hex_blocked some_digit all small spelled inside)
  | words form eight small shown inside => exact v6_exact eight small shown inside form
  | outside first second third fourth apart =>
    apply iff_true_intro
    rw [dotted_exact first second third fourth,apart]

theorem spellings_blocked_loopback : isBlockedHost (Form.spell (.bracketed 0 0) (compressed [0,0,0,0,0,0xffff,0x7f00,1])) = true :=
  (spellings_blocked (@Spelled.words [0,0,0,0,0,0xffff,0x7f00,1] _ (.bracketed 0 0) rfl (by decide) (.compressed _) (.mapped (by decide)))).mpr (by decide)

theorem low_words_pass :
    ¬ ∀ words text form, words.length = 8 → (∀ word ∈ words, word < 65536) → Shown words text → Inside words → isBlockedHost (Form.spell form text) = true := by
  intro claim
  have blocked := claim [0x2002,0x7f00,0,0,0,0,0,0] _ (.plain 0) rfl (by decide) (.compressed _) (.sixToFour (by decide))
  rw [v6_exact rfl (by decide) (.compressed _) (.sixToFour (by decide))] at blocked
  exact absurd (by decide) blocked

end Zveltio.UrlBlocklist
