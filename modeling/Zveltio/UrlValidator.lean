import Zveltio.IpText
import Mathlib.Data.List.TakeWhile
namespace Zveltio.UrlValidator
open IpText

def lower (text : Text) : Text := text.map Char.toLower

def decimalDigit (char : Char) : Bool := '0' ≤ char && char ≤ '9'

def hexDigit (char : Char) : Bool := decimalDigit char || ('a' ≤ char && char ≤ 'f')

def digits (text : Text) : Bool := text ≠ [] && text.all decimalDigit

-- \d+\.\d+\.\d+\.\d+
@[grind] def fourDotted (text : Text) : Bool :=
  match text.splitOn '.' with
  | [one,two,three,four] => digits one && digits two && digits three && digits four
  | _ => false

-- [0-9a-f]{1,4}
def word (text : Text) : Bool := text ≠ [] && text.length ≤ 4 && text.all hexDigit

def intToIPv4 (number : Nat) : Text :=
  joined '.' [decimal (number >>> 24 % 256),decimal (number >>> 16 % 256),decimal (number >>> 8 % 256),decimal (number % 256)]

-- The longest run of digits of the radix in front, NaN without one; 0x in front is allowed at sixteen.
def parseInt (text : Text) (radix : Nat) : Option Nat :=
  let text := if radix = 16 && ['0','x'].isPrefixOf text then text.drop 2 else text
  let read := text.takeWhile fun char => digit char < radix
  if read = [] then none else some (value radix read)

-- ^::ffff:(\d+\.\d+\.\d+\.\d+)$
@[grind] def mappedDotted (h : Text) : Option Text :=
  match h.splitOn ':' with
  | [one,two,three,v4] => if one = [] && two = [] && three = ['f','f','f','f'] && fourDotted v4 then some v4 else none
  | _ => none

-- ^(?:64:ff9b)?::(\d+\.\d+\.\d+\.\d+)$
@[grind] def embeddedDotted (h : Text) : Option Text :=
  match h.splitOn ':' with
  | [one,two,v4] => if one = [] && two = [] && fourDotted v4 then some v4 else none
  | [one,two,three,v4] => if one = ['6','4'] && two = ['f','f','9','b'] && three = [] && fourDotted v4 then some v4 else none
  | _ => none

-- ^(?:::ffff|64:ff9b:|:):([0-9a-f]{1,4}):([0-9a-f]{1,4})$, else ^2002:([0-9a-f]{1,4}):([0-9a-f]{1,4})(?::|$)
def wordPair (h : Text) : Option (Text × Text) :=
  let tail := match h.splitOn ':' with
    | [one,two,hi,lo] => if one = [] && two = [] && word hi && word lo then some (hi,lo) else none
    | [one,two,three,hi,lo] =>
      if (one = [] && two = [] && three = ['f','f','f','f'] || one = ['6','4'] && two = ['f','f','9','b'] && three = []) && word hi && word lo then some (hi,lo)
      else none
    | _ => none
  tail.or (match h.splitOn ':' with
    | first::hi::lo::_ => if first = ['2','0','0','2'] && word hi && word lo then some (hi,lo) else none
    | _ => none)

def embeddedWords (h : Text) : Option Text := (wordPair h).map fun pair =>
  let hi := value 16 pair.1
  let lo := value 16 pair.2
  joined '.' [decimal (hi >>> 8 % 256),decimal (hi % 256),decimal (lo >>> 8 % 256),decimal (lo % 256)]

def hexInteger (h : Text) : Option Text :=
  if ['0','x'].isPrefixOf h && h.drop 2 ≠ [] && (h.drop 2).all hexDigit then some (intToIPv4 (value 16 (h.drop 2))) else none

def decimalInteger (h : Text) : Option Text :=
  if digits h && 0xffff < value 10 h && value 10 h ≤ 0xffffffff then some (intToIPv4 (value 10 h)) else none

def readOctet (octet : Text) : Option Nat :=
  if ['0','x'].isPrefixOf octet then parseInt octet 16
  else if ['0'].isPrefixOf octet && 1 < octet.length then parseInt octet 8
  else parseInt octet 10

def mixedDotted (h : Text) : Option Text :=
  if h.all fun char => hexDigit char || char = 'x' || char = '.' then
    match (h.splitOn '.').map readOctet with
    | [some one,some two,some three,some four] =>
      if one ≤ 255 && two ≤ 255 && three ≤ 255 && four ≤ 255 then some (joined '.' [decimal one,decimal two,decimal three,decimal four]) else none
    | _ => none
  else none

def withoutDots (text : Text) : Text := (text.reverse.dropWhile fun char => char = '.').reverse

def normalizeHost (host : Text) : Text :=
  let h := withoutDots (lower host)
  ((((((mappedDotted h).or (embeddedDotted h)).or (embeddedWords h)).or (hexInteger h)).or (decimalInteger h)).or (mixedDotted h)).getD h

-- A run of characters of fixed length, each from a set.
abbrev Classes := List (Char → Bool)

def only (char : Char) : Char → Bool := fun other => other = char

def between (low high : Char) : Char → Bool := fun char => low ≤ char && char ≤ high

@[grind] def fits : Classes → Text → Bool
  | [],[] => true
  | accepts::classes,char::rest => accepts char && fits classes rest
  | _,_ => false

inductive Part where
  | anyDigits
  | oneOf (choices : List Classes)

@[grind] def Part.test : Part → Text → Bool
  | .anyDigits,text => digits text
  | .oneOf choices,text => choices.any fun classes => fits classes text

-- ^text$, ^part\.part\.part\.part$, ^prefix and suffix$
inductive Pattern where
  | exact (text : Text)
  | dotted (one two three four : Part)
  | opens (choices : List Classes)
  | closes (text : Text)

@[grind] def Pattern.test : Pattern → Text → Bool
  | .exact pattern,text => text = pattern
  | .dotted one two three four,text =>
    match text.splitOn '.' with
    | [a,b,c,d] => one.test a && two.test b && three.test c && four.test d
    | _ => false
  | .opens choices,text => choices.any fun classes => fits classes (text.take classes.length)
  | .closes pattern,text => pattern.isSuffixOf text

def literal (text : Text) : Part := .oneOf [text.map only]

def BLOCKED_PATTERNS : List Pattern :=
  [.exact ['l','o','c','a','l','h','o','s','t'],
    .dotted (literal ['1','2','7']) .anyDigits .anyDigits .anyDigits,
    .dotted (literal ['1','0']) .anyDigits .anyDigits .anyDigits,
    .dotted (literal ['1','7','2'])
      (.oneOf [[only '1',between '6' '9'],[only '2',decimalDigit],[only '3',fun char => char = '0' || char = '1']]) .anyDigits .anyDigits,
    .dotted (literal ['1','9','2']) (literal ['1','6','8']) .anyDigits .anyDigits,
    .dotted (literal ['1','6','9']) (literal ['2','5','4']) .anyDigits .anyDigits,
    .dotted (literal ['1','9','2']) (literal ['0']) (literal ['0']) (literal ['1','9','2']),
    .dotted (literal ['1','0','0'])
      (.oneOf [[only '6',between '4' '9'],[between '7' '9',decimalDigit],[only '1',fun char => char = '0' || char = '1',decimalDigit],
        [only '1',only '2',between '0' '7']]) .anyDigits .anyDigits,
    .exact [':',':','1'],
    .exact [':',':'],
    .opens [[only 'f',only 'e',fun char => char = '8' || char = '9' || char = 'a' || char = 'b',hexDigit,only ':']],
    .opens [[only 'f',fun char => char = 'c' || char = 'd',hexDigit,hexDigit,only ':']],
    .dotted (literal ['0']) .anyDigits .anyDigits .anyDigits,
    .dotted (literal ['1','9','8']) (.oneOf [[only '1',fun char => char = '8' || char = '9']]) .anyDigits .anyDigits,
    .dotted (.oneOf [[only '2',only '2',between '4' '9'],[only '2',between '3' '5',decimalDigit]]) .anyDigits .anyDigits .anyDigits,
    .opens [[only 'f',only 'f',only ':'],[only 'f',only 'f',hexDigit,only ':'],[only 'f',only 'f',hexDigit,hexDigit,only ':']],
    .closes ['h','o','s','t','.','d','o','c','k','e','r','.','i','n','t','e','r','n','a','l'],
    .closes ['k','u','b','e','r','n','e','t','e','s','.','d','e','f','a','u','l','t']]

-- host.replace(/^\[|\]$/g,'')
def withoutBrackets (host : Text) : Text :=
  let host := if ['['].isPrefixOf host then host.drop 1 else host
  if host.getLast? = some ']' then host.dropLast else host

def isBlockedHost (host : Text) : Bool :=
  let bare := withoutBrackets host
  let normalized := normalizeHost bare
  BLOCKED_PATTERNS.any fun pattern => pattern.test bare || pattern.test normalized

-- The IPv4 blocks the patterns' comments name.
def documentedBlocks : List Block :=
  [⟨address 127 0 0 0,8⟩,⟨address 10 0 0 0,8⟩,⟨address 172 16 0 0,12⟩,⟨address 192 168 0 0,16⟩,⟨address 169 254 0 0,16⟩,⟨address 192 0 0 192,32⟩,
    ⟨address 100 64 0 0,10⟩,⟨0,8⟩,⟨address 198 18 0 0,15⟩,⟨address 224 0 0 0,3⟩]

def documented (v4 : Nat) : Bool := documentedBlocks.any fun block => block.has v4

def blocked (text : Text) : Bool := BLOCKED_PATTERNS.any fun pattern => pattern.test text

theorem isBlockedHost_eq (host : Text) : isBlockedHost host = (blocked (withoutBrackets host) || blocked (normalizeHost (withoutBrackets host))) := by
  unfold isBlockedHost blocked
  induction BLOCKED_PATTERNS with
  | nil => rfl
  | cons pattern rest ih =>
    simp only [List.any_cons] at ih ⊢
    rw [ih]
    ac_rfl

theorem digits_decimal (number : Nat) : digits (decimal number) = true := by
  unfold digits decimal
  rw [Bool.and_eq_true_iff]
  refine ⟨decide_eq_true Nat.toDigits_ne_nil,List.all_eq_true.mpr fun char member => ?_⟩
  obtain ⟨small,less,rfl⟩ := digits_small (by decide) (by decide) number member
  exact (by decide : ∀ small < 10, decimalDigit (Nat.digitChar small) = true) small less

theorem fits_only (pattern text : Text) : fits (pattern.map only) text = decide (text = pattern) := by
  induction pattern generalizing text with
  | nil => cases text <;> rfl
  | cons head rest ih =>
    cases text with
    | nil => rfl
    | cons first later =>
      rw [List.map_cons,fits,ih]
      simp [only]

theorem decimal_injective (same : decimal one = decimal two) : one = two := by
  rw [← value_toDigits (show 1 < 10 by decide) (by decide) one,← value_toDigits (show 1 < 10 by decide) (by decide) two]
  exact congrArg (value 10) same

theorem literal_decimal (pattern number : Nat) : (literal (decimal pattern)).test (decimal number) = decide (number = pattern) := by
  show ([(decimal pattern).map only].any fun classes => fits classes (decimal number)) = _
  rw [List.any_cons,fits_only,List.any_nil,Bool.or_false]
  by_cases same : number = pattern
  · simp [same]
  · have apart : decimal number ≠ decimal pattern := fun equal => same (decimal_injective equal)
    simp [same,apart]

theorem tail_172 : ∀ number < 256, (Part.oneOf [[only '1',between '6' '9'],[only '2',decimalDigit],[only '3',fun char => char = '0' || char = '1']]).test
    (decimal number) = decide (16 ≤ number ∧ number < 32) := by decide +kernel

theorem tail_100 : ∀ number < 256, (Part.oneOf [[only '6',between '4' '9'],[between '7' '9',decimalDigit],
    [only '1',fun char => char = '0' || char = '1',decimalDigit],[only '1',only '2',between '0' '7']]).test (decimal number) =
      decide (64 ≤ number ∧ number < 128) := by decide +kernel

theorem tail_198 : ∀ number < 256, (Part.oneOf [[only '1',fun char => char = '8' || char = '9']]).test (decimal number) =
    decide (18 ≤ number ∧ number < 20) := by decide +kernel

theorem head_224 : ∀ number < 256, (Part.oneOf [[only '2',only '2',between '4' '9'],[only '2',between '3' '5',decimalDigit]]).test (decimal number) =
    decide (224 ≤ number) := by decide +kernel

theorem dot_apart (number : Nat) : '.' ∉ decimal number := by
  intro member
  obtain ⟨small,less,same⟩ := digits_small (show 1 < 10 by decide) (by decide) number member
  exact (by decide : ∀ small < 10, '.' ≠ Nat.digitChar small) small less same

theorem splitOn_dotted (one two three four : Nat) :
    (joined '.' [decimal one,decimal two,decimal three,decimal four]).splitOn '.' = [decimal one,decimal two,decimal three,decimal four] := by
  rw [splitOn_joined]
  · rfl
  · intro part member
    simp only [List.mem_cons,List.not_mem_nil,or_false] at member
    rcases member with rfl | rfl | rfl | rfl <;> exact dot_apart _

theorem dotted_chars (one two three four : Nat) (member : char ∈ joined '.' [decimal one,decimal two,decimal three,decimal four]) :
    decimalDigit char = true ∨ char = '.' := by
  have clean (number : Nat) (listed : char ∈ decimal number) : decimalDigit char = true := by
    have all := digits_decimal number
    unfold digits at all
    exact List.all_eq_true.mp (Bool.and_eq_true_iff.mp all).2 char listed
  simp only [joined,List.intercalate_cons_cons,List.intercalate_singleton,List.mem_append,List.mem_singleton] at member
  rcases member with (first | dot) | (second | dot) | (third | dot) | fourth
  · exact .inl (clean one first)
  · exact .inr dot
  · exact .inl (clean two second)
  · exact .inr dot
  · exact .inl (clean three third)
  · exact .inr dot
  · exact .inl (clean four fourth)

theorem opens_head {choices : List Classes} {text : Text} (opened : (Pattern.opens choices).test text = true)
    (headed : ∀ classes ∈ choices, ∃ rest, classes = only char::rest) : ∃ rest, text = char::rest := by
  obtain ⟨classes,member,run⟩ := List.any_eq_true.mp opened
  obtain ⟨rest,rfl⟩ := headed classes member
  cases text with
  | nil => cases run
  | cons first later =>
    rw [List.length_cons,List.take_succ_cons,fits,Bool.and_eq_true_iff] at run
    exact ⟨later,by rw [show first = char from of_decide_eq_true run.1]⟩

-- Every name among the patterns has an l in it.
theorem names_apart {text : Text} (clean : 'l' ∉ text) :
    (Pattern.exact ['l','o','c','a','l','h','o','s','t']).test text = false ∧
    (Pattern.closes ['h','o','s','t','.','d','o','c','k','e','r','.','i','n','t','e','r','n','a','l']).test text = false ∧
    (Pattern.closes ['k','u','b','e','r','n','e','t','e','s','.','d','e','f','a','u','l','t']).test text = false := by
  have suffix {pattern : Text} (listed : 'l' ∈ pattern) : (Pattern.closes pattern).test text = false := by
    by_contra closed
    exact clean ((List.isSuffixOf_iff_suffix.mp (Bool.not_eq_false _ ▸ closed)).subset listed)
  exact ⟨decide_eq_false fun same => clean (by rw [same]; simp),suffix (by simp),suffix (by simp)⟩

theorem opens_apart {choices : List Classes} {text : Text} (headed : ∀ classes ∈ choices, ∃ rest, classes = only 'f' :: rest) (apart : ∀ rest, text ≠ 'f' :: rest) :
    (Pattern.opens choices).test text = false := by
  by_contra opened
  obtain ⟨rest,same⟩ := opens_head (Bool.not_eq_false _ ▸ opened) headed
  exact apart rest same

theorem colons_apart {pattern text : Text} (listed : ':' ∈ pattern) (clean : ':' ∉ text) : (Pattern.exact pattern).test text = false :=
  decide_eq_false fun same => clean (same ▸ listed)

theorem block_has (first : one < 256) (second : two < 256) (third : three < 256) (fourth : four < 256) :
    documented (address one two three four) = (decide (one = 127) || decide (one = 10) || decide (one = 172 ∧ 16 ≤ two ∧ two < 32) ||
      decide (one = 192 ∧ two = 168) || decide (one = 169 ∧ two = 254) || decide (one = 192 ∧ two = 0 ∧ three = 0 ∧ four = 192) ||
      decide (one = 100 ∧ 64 ≤ two ∧ two < 128) || decide (one = 0) || decide (one = 198 ∧ 18 ≤ two ∧ two < 20) || decide (224 ≤ one)) := by
  have has {base length : Nat} {condition : Prop} [Decidable condition] (same : address one two three four / 2 ^ (32 - length) = base / 2 ^ (32 - length) ↔ condition) :
      Block.has ⟨base,length⟩ (address one two three four) = decide condition := decide_eq_decide.mpr same
  have loopback : Block.has ⟨address 127 0 0 0,8⟩ (address one two three four) = decide (one = 127) := has (by simp only [address]; omega)
  have ten : Block.has ⟨address 10 0 0 0,8⟩ (address one two three four) = decide (one = 10) := has (by simp only [address]; omega)
  have hundred_seventy_two : Block.has ⟨address 172 16 0 0,12⟩ (address one two three four) = decide (one = 172 ∧ 16 ≤ two ∧ two < 32) := has (by simp only [address]; omega)
  have home : Block.has ⟨address 192 168 0 0,16⟩ (address one two three four) = decide (one = 192 ∧ two = 168) := has (by simp only [address]; omega)
  have link_local : Block.has ⟨address 169 254 0 0,16⟩ (address one two three four) = decide (one = 169 ∧ two = 254) := has (by simp only [address]; omega)
  have oracle : Block.has ⟨address 192 0 0 192,32⟩ (address one two three four) = decide (one = 192 ∧ two = 0 ∧ three = 0 ∧ four = 192) := has (by simp only [address]; omega)
  have shared : Block.has ⟨address 100 64 0 0,10⟩ (address one two three four) = decide (one = 100 ∧ 64 ≤ two ∧ two < 128) := has (by simp only [address]; omega)
  have this : Block.has ⟨0,8⟩ (address one two three four) = decide (one = 0) := has (by simp only [address]; omega)
  have benchmark : Block.has ⟨address 198 18 0 0,15⟩ (address one two three four) = decide (one = 198 ∧ 18 ≤ two ∧ two < 20) := has (by simp only [address]; omega)
  have multicast : Block.has ⟨address 224 0 0 0,3⟩ (address one two three four) = decide (224 ≤ one) := has (by simp only [address]; omega)
  unfold documented documentedBlocks
  simp only [List.any_cons,List.any_nil,Bool.or_false,Bool.or_assoc,loopback,ten,hundred_seventy_two,home,link_local,oracle,shared,this,benchmark,multicast]

theorem blocked_dotted (first : one < 256) (second : two < 256) (third : three < 256) (fourth : four < 256) :
    blocked (joined '.' [decimal one,decimal two,decimal three,decimal four]) = documented (address one two three four) := by
  have chars (char : Char) (member : char ∈ joined '.' [decimal one,decimal two,decimal three,decimal four]) := dotted_chars one two three four member
  have cut := splitOn_dotted one two three four
  generalize joined '.' [decimal one,decimal two,decimal three,decimal four] = text at chars cut
  have strange {char : Char} (member : char ∈ text) (odd : (decimalDigit char || decide (char = '.')) = false) : False := by
    rw [Bool.or_eq_false_iff] at odd
    rcases chars char member with digit | dot
    · rw [odd.1] at digit
      cases digit
    · rw [dot] at odd
      cases odd.2
  have dotted (p q r t : Part) : (Pattern.dotted p q r t).test text = (p.test (decimal one) && q.test (decimal two) && r.test (decimal three) && t.test (decimal four)) := by
    simp only [Pattern.test,cut]
  have headless (rest : Text) : text ≠ 'f' :: rest := fun same => strange (same ▸ List.mem_cons_self ..) rfl
  have colonless : ':' ∉ text := fun member => strange member rfl
  obtain ⟨localhost,docker,kubernetes⟩ := names_apart (show 'l' ∉ text from fun member => strange member rfl)
  have lit {number : Nat} (pattern : Text) (known : Nat) (same : decimal known = pattern) :
      (literal pattern).test (decimal number) = decide (number = known) := same ▸ literal_decimal known number
  have any (number : Nat) : Part.anyDigits.test (decimal number) = true := digits_decimal number
  rw [block_has first second third fourth]
  unfold blocked BLOCKED_PATTERNS
  simp only [List.any_cons,List.any_nil,dotted,any,lit ['1','2','7'] 127 rfl,lit ['1','0'] 10 rfl,lit ['1','7','2'] 172 rfl,lit ['1','9','2'] 192 rfl,
    lit ['1','6','8'] 168 rfl,lit ['1','6','9'] 169 rfl,lit ['2','5','4'] 254 rfl,lit ['0'] 0 rfl,lit ['1','0','0'] 100 rfl,lit ['1','9','8'] 198 rfl,
    tail_172 two second,tail_100 two second,tail_198 two second,head_224 one first]
  rw [localhost,docker,kubernetes,colons_apart (by simp) colonless,colons_apart (by simp) colonless,
    opens_apart (by simp) headless,opens_apart (by simp) headless,opens_apart (by simp) headless]
  simp only [Bool.and_true,Bool.false_or,Bool.or_false,Bool.or_assoc,Bool.and_assoc,Bool.decide_and]

def dots (count : Nat) : Text := List.replicate count '.'

theorem withoutDots_dots (count : Nat) (last : text.getLast? ≠ some '.') : withoutDots (text ++ dots count) = text := by
  unfold withoutDots dots
  rw [List.reverse_append,List.reverse_replicate,List.dropWhile_append_of_pos (by simp)]
  cases turned : text.reverse with
  | nil => exact (List.reverse_eq_nil_iff.mp turned).symm
  | cons first rest =>
    have apart : first ≠ '.' := by
      rintro rfl
      rw [List.getLast?_eq_head?_reverse,turned] at last
      exact last rfl
    rw [List.dropWhile_cons_of_neg (by simpa using apart),← turned,List.reverse_reverse]

theorem withoutBrackets_plain (left : '[' ∉ host) (right : ']' ∉ host) : withoutBrackets host = host := by
  unfold withoutBrackets
  have first : ['['].isPrefixOf host = false := by
    cases host with
    | nil => rfl
    | cons head rest =>
      have apart : '[' ≠ head := fun same => left (same ▸ List.mem_cons_self ..)
      simp [List.isPrefixOf,apart]
  simp only [first,Bool.false_eq_true,if_false]
  rw [if_neg]
  exact fun last => right (List.mem_of_getLast? last)

theorem lower_mem (member : char ∈ host) (same : char.toLower = char) : char ∈ lower host := by
  rw [← same]
  exact List.mem_map_of_mem member

theorem normalizeHost_v4 (clean : ':' ∉ withoutDots (lower host)) : normalizeHost host =
    (((hexInteger (withoutDots (lower host))).or (decimalInteger (withoutDots (lower host)))).or (mixedDotted (withoutDots (lower host)))).getD (withoutDots (lower host)) := by
  have cut := List.splitOn_eq_singleton clean
  unfold normalizeHost mappedDotted embeddedDotted embeddedWords wordPair
  simp only [cut]
  rfl

-- An octet's spellings: decimal, octal behind a zero, hexadecimal behind 0x.
inductive Octet : Text → Nat → Prop where
  | decimal (number : Nat) (small : number < 256) : Octet (decimal number) number
  | octal (digits : Text) (some_digit : digits ≠ []) (all : ∀ char ∈ digits, digit char < 8) (small : value 8 digits < 256) : Octet ('0' :: digits) (value 8 digits)
  | hex (digits : Text) (some_digit : digits ≠ []) (all : ∀ char ∈ digits, hexDigit char = true) (small : value 16 digits < 256) :
      Octet ('0' :: 'x' :: digits) (value 16 digits)

theorem digit_of_hex (hexadecimal : hexDigit char = true) : digit char < 16 := by
  unfold hexDigit decimalDigit at hexadecimal
  simp only [Bool.or_eq_true,Bool.and_eq_true,decide_eq_true_eq] at hexadecimal
  unfold digit
  rcases hexadecimal with ⟨low,high⟩ | ⟨low,high⟩
  · rw [if_pos ⟨low,high⟩]
    have := UInt32.le_iff_toNat_le.mp high
    have : char.toNat ≤ 57 := this
    omega
  · have above : ¬ char ≤ '9' := by
      intro wrong
      have first : ('a' : Char).toNat ≤ char.toNat := UInt32.le_iff_toNat_le.mp low
      have second : char.toNat ≤ ('9' : Char).toNat := UInt32.le_iff_toNat_le.mp wrong
      have third : ('a' : Char).toNat = 97 := rfl
      have fourth : ('9' : Char).toNat = 57 := rfl
      omega
    rw [if_neg (fun both => above both.2),if_pos ⟨low,high⟩]
    have : char.toNat ≤ 102 := UInt32.le_iff_toNat_le.mp high
    omega

theorem value_zero (radix : Nat) (digits : Text) : value radix ('0' :: digits) = value radix digits := by
  simp [value,digit]

theorem readOctet_exact (octet : Octet text number) : readOctet text = some number ∧ number < 256 := by
  cases octet with
  | decimal _ small => exact ⟨(by decide +kernel : ∀ number < 256, readOctet (decimal number) = some number) number small,small⟩
  | octal digits some_digit all small =>
    refine ⟨?_,small⟩
    have plain : ['0','x'].isPrefixOf ('0' :: digits) = false := by
      cases digits with
      | nil => exact absurd rfl some_digit
      | cons head rest =>
        have apart : 'x' ≠ head := by
          rintro rfl
          exact absurd (all 'x' (List.mem_cons_self ..)) (by decide)
        simp [List.isPrefixOf,apart]
    have long : 1 < ('0' :: digits).length := by
      have := List.length_pos_of_ne_nil some_digit
      rw [List.length_cons]
      omega
    have run : ('0' :: digits).takeWhile (fun char => digit char < 8) = '0' :: digits := by
      refine List.takeWhile_eq_self_iff.mpr fun char member => ?_
      rcases List.mem_cons.mp member with rfl | later
      · rfl
      · exact decide_eq_true (all char later)
    unfold readOctet
    have zero : ['0'].isPrefixOf ('0' :: digits) = true := rfl
    rw [plain,if_neg Bool.false_ne_true,zero,decide_eq_true long,if_pos (show (true && true) = true from rfl)]
    simp only [parseInt,Nat.reduceEqDiff,decide_false,Bool.false_and,Bool.false_eq_true,if_false]
    rw [run,if_neg (List.cons_ne_nil _ _),value_zero]
  | hex digits some_digit all small =>
    refine ⟨?_,small⟩
    have run : digits.takeWhile (fun char => digit char < 16) = digits :=
      List.takeWhile_eq_self_iff.mpr fun char member => decide_eq_true (digit_of_hex (all char member))
    have marked : ['0','x'].isPrefixOf ('0' :: 'x' :: digits) = true := rfl
    unfold readOctet
    rw [marked,if_pos rfl]
    simp only [parseInt,marked,decide_true,Bool.and_self,if_true,List.drop_succ_cons,List.drop_zero]
    rw [run,if_neg some_digit]

theorem octal_digit (small : digit char < 8) : decimalDigit char = true := by
  have low {one two : Char} (order : one ≤ two) : one.toNat ≤ two.toNat := UInt32.le_iff_toNat_le.mp order
  unfold digit at small
  split at small
  · next both => simp [decimalDigit,both]
  · split at small
    · next both =>
      have : 97 ≤ char.toNat := low both.1
      omega
    · split at small
      · next both =>
        have : 65 ≤ char.toNat := low both.1
        omega
      · omega

theorem octet_chars (octet : Octet text number) (member : char ∈ text) : hexDigit char = true ∨ char = 'x' := by
  have digits_decimal_hex : ∀ small < 10, hexDigit (Nat.digitChar small) = true := by decide
  cases octet with
  | decimal _ _ =>
    obtain ⟨small,less,rfl⟩ := digits_small (show 1 < 10 by decide) (by decide) number member
    exact .inl (digits_decimal_hex small less)
  | octal digits _ all _ =>
    rcases List.mem_cons.mp member with rfl | later
    · exact .inl rfl
    · exact .inl (by rw [hexDigit,octal_digit (all char later)]; rfl)
  | hex digits _ all _ =>
    simp only [List.mem_cons] at member
    rcases member with rfl | rfl | later
    · exact .inl rfl
    · exact .inr rfl
    · exact .inl (all char later)

theorem octet_some (octet : Octet text number) : text ≠ [] := by
  cases octet with
  | decimal _ _ => exact Nat.toDigits_ne_nil
  | octal _ _ _ _ => exact List.cons_ne_nil _ _
  | hex _ _ _ _ => exact List.cons_ne_nil _ _

theorem octet_apart (octet : Octet text number) (strange : (hexDigit char || decide (char = 'x')) = false) : char ∉ text := by
  intro member
  rw [Bool.or_eq_false_iff] at strange
  rcases octet_chars octet member with one | two
  · rw [strange.1] at one
    cases one
  · exact of_decide_eq_false strange.2 two

theorem octets_apart (first : Octet one a) (second : Octet two b) (third : Octet three c) (fourth : Octet four d)
    (strange : (hexDigit char || decide (char = 'x')) = false) (apart : char ≠ '.') : char ∉ joined '.' [one,two,three,four] := by
  intro member
  simp only [joined,List.intercalate_cons_cons,List.intercalate_singleton,List.mem_append,List.mem_singleton] at member
  rcases member with (wrong | dot) | (wrong | dot) | (wrong | dot) | wrong
  · exact octet_apart first strange wrong
  · exact apart dot
  · exact octet_apart second strange wrong
  · exact apart dot
  · exact octet_apart third strange wrong
  · exact apart dot
  · exact octet_apart fourth strange wrong

theorem octets_last (fourth : Octet four d) : (joined '.' [one,two,three,four]).getLast? ≠ some '.' := by
  intro last
  obtain ⟨char,final⟩ := Option.isSome_iff_exists.mp (List.getLast?_isSome.mpr (octet_some fourth))
  simp only [joined,List.intercalate_cons_cons,List.intercalate_singleton,List.getLast?_append,final,Option.some_or] at last
  rw [last] at final
  exact octet_apart fourth rfl (List.mem_of_getLast? final)

theorem octets_normalized (first : Octet one a) (second : Octet two b) (third : Octet three c) (fourth : Octet four d)
    (spelled : withoutDots (lower host) = joined '.' [one,two,three,four]) : normalizeHost host = joined '.' [decimal a,decimal b,decimal c,decimal d] := by
  have cut : (joined '.' [one,two,three,four]).splitOn '.' = [one,two,three,four] := by
    rw [splitOn_joined]
    · rfl
    · intro part member
      simp only [List.mem_cons,List.not_mem_nil,or_false] at member
      rcases member with rfl | rfl | rfl | rfl
      · exact octet_apart first rfl
      · exact octet_apart second rfl
      · exact octet_apart third rfl
      · exact octet_apart fourth rfl
  have inner : '.' ∈ joined '.' [one,two,three,four] := by
    simp [joined,List.intercalate_cons_cons]
  have legal : ∀ char ∈ joined '.' [one,two,three,four], (hexDigit char || decide (char = 'x') || decide (char = '.')) = true := by
    intro char member
    by_contra wrong
    rw [Bool.not_eq_true,Bool.or_eq_false_iff] at wrong
    exact octets_apart first second third fourth wrong.1 (of_decide_eq_false wrong.2) member
  have clean : ':' ∉ joined '.' [one,two,three,four] := octets_apart first second third fourth rfl (by decide)
  rw [normalizeHost_v4 (by rw [spelled]; exact clean),spelled]
  generalize joined '.' [one,two,three,four] = text at cut inner legal
  have no_hex : hexInteger text = none := by
    refine if_neg fun wrong => ?_
    simp only [Bool.and_eq_true] at wrong
    obtain ⟨rest,same⟩ := List.isPrefixOf_iff_prefix.mp wrong.1.1
    have later : '.' ∈ rest := by
      rw [← same] at inner
      simpa using inner
    have all := wrong.2
    rw [← same] at all
    exact absurd (List.all_eq_true.mp all '.' later) (by decide)
  have no_decimal : decimalInteger text = none := by
    refine if_neg fun wrong => ?_
    simp only [Bool.and_eq_true,digits] at wrong
    exact absurd (List.all_eq_true.mp wrong.1.1.2 '.' inner) (by decide)
  obtain ⟨read_one,small_one⟩ := readOctet_exact first
  obtain ⟨read_two,small_two⟩ := readOctet_exact second
  obtain ⟨read_three,small_three⟩ := readOctet_exact third
  obtain ⟨read_four,small_four⟩ := readOctet_exact fourth
  have mixed : mixedDotted text = some (joined '.' [decimal a,decimal b,decimal c,decimal d]) := by
    unfold mixedDotted
    rw [if_pos (List.all_eq_true.mpr legal),cut]
    simp only [List.map_cons,List.map_nil,read_one,read_two,read_three,read_four]
    rw [if_pos]
    simp only [Bool.and_eq_true,decide_eq_true_eq]
    omega
  rw [no_hex,no_decimal,mixed,Option.none_or,Option.none_or,Option.getD_some]

theorem mixed_blocked (first : Octet one a) (second : Octet two b) (third : Octet three c) (fourth : Octet four d)
    (spelled : lower host = joined '.' [one,two,three,four] ++ dots count) (inside : documented (address a b c d) = true) : isBlockedHost host = true := by
  have outside {char : Char} (strange : (hexDigit char || decide (char = 'x')) = false) (apart : char ≠ '.') (same : char.toLower = char) : char ∉ host := by
    intro member
    have there := lower_mem member same
    rw [spelled] at there
    rcases List.mem_append.mp there with wrong | dot
    · exact octets_apart first second third fourth strange apart wrong
    · exact apart (List.eq_of_mem_replicate dot)
  have bare : withoutDots (lower host) = joined '.' [one,two,three,four] := by
    rw [spelled]
    exact withoutDots_dots count (octets_last fourth)
  rw [isBlockedHost_eq,withoutBrackets_plain (outside rfl (by decide) rfl) (outside rfl (by decide) rfl),Bool.or_eq_true_iff,
    octets_normalized first second third fourth bare,
    blocked_dotted (readOctet_exact first).2 (readOctet_exact second).2 (readOctet_exact third).2 (readOctet_exact fourth).2]
  exact .inr inside

theorem intToIPv4_blocked (small : number < 2 ^ 32) : blocked (intToIPv4 number) = documented number := by
  have octets : number >>> 24 % 256 < 256 ∧ number >>> 16 % 256 < 256 ∧ number >>> 8 % 256 < 256 ∧ number % 256 < 256 := by omega
  rw [intToIPv4,blocked_dotted octets.1 octets.2.1 octets.2.2.1 octets.2.2.2]
  congr 1
  simp only [address,Nat.shiftRight_eq_div_pow]
  omega

theorem dotted_open {one two three four : Part} (some_char : four.test [] = false) (text : Text) : (Pattern.dotted one two three four).test (text ++ ['.']) = false := by
  have cut : (text ++ ['.']).splitOn '.' = text.splitOn '.' ++ [[]] := List.splitOn_append_cons_self text []
  simp only [Pattern.test]
  split
  · next a b c d parts =>
    have last : d = [] := by
      have final := congrArg List.getLast? (cut.symm.trans parts)
      simpa using final.symm
    rw [last,some_char,Bool.and_false]
  · rfl

theorem blocked_single (number count : Nat) : blocked (decimal number ++ dots count) = false := by
  have chars {char : Char} (member : char ∈ decimal number ++ dots count) (odd : (decimalDigit char || decide (char = '.')) = false) : False := by
    rw [Bool.or_eq_false_iff] at odd
    rcases List.mem_append.mp member with digit | dot
    · obtain ⟨small,less,rfl⟩ := digits_small (show 1 < 10 by decide) (by decide) number digit
      rw [(by decide : ∀ small < 10, decimalDigit (Nat.digitChar small) = true) small less] at odd
      cases odd.1
    · exact of_decide_eq_false odd.2 (List.eq_of_mem_replicate dot)
  have dotted_apart {p q r t : Part} (some_char : t.test [] = false) : (Pattern.dotted p q r t).test (decimal number ++ dots count) = false := by
    cases count with
    | zero =>
      have cut : (decimal number).splitOn '.' = [decimal number] := List.splitOn_eq_singleton (dot_apart number)
      simp only [Pattern.test,dots,List.replicate_zero,List.append_nil,cut]
    | succ count =>
      rw [show dots (count + 1) = dots count ++ ['.'] from List.replicate_succ',← List.append_assoc]
      exact dotted_open some_char _
  have headless (rest : Text) : decimal number ++ dots count ≠ 'f' :: rest := fun same => chars (same ▸ List.mem_cons_self ..) rfl
  have colonless : ':' ∉ decimal number ++ dots count := fun member => chars member rfl
  obtain ⟨localhost,docker,kubernetes⟩ := names_apart (show 'l' ∉ decimal number ++ dots count from fun member => chars member rfl)
  unfold blocked BLOCKED_PATTERNS
  simp only [List.any_cons,List.any_nil,Bool.or_false]
  rw [localhost,docker,kubernetes,colons_apart (by simp) colonless,colons_apart (by simp) colonless,
    opens_apart (by simp) headless,opens_apart (by simp) headless,opens_apart (by simp) headless]
  repeat rw [dotted_apart rfl]
  rfl

theorem decimal_last (number : Nat) : (decimal number).getLast? ≠ some '.' := fun last => dot_apart number (List.mem_of_getLast? last)

theorem lower_decimal (number count : Nat) : lower (decimal number ++ dots count) = decimal number ++ dots count := by
  have each : ∀ char ∈ decimal number ++ dots count, char.toLower = char := by
    intro char member
    rcases List.mem_append.mp member with digit | dot
    · obtain ⟨small,less,rfl⟩ := digits_small (show 1 < 10 by decide) (by decide) number digit
      exact (by decide : ∀ small < 10, (Nat.digitChar small).toLower = Nat.digitChar small) small less
    · rw [List.eq_of_mem_replicate dot]
      rfl
  exact (List.map_congr_left each).trans (List.map_id _)

theorem decimal_apart (number count : Nat) (strange : (decimalDigit char || decide (char = '.')) = false) : char ∉ decimal number ++ dots count := by
  intro member
  rw [Bool.or_eq_false_iff] at strange
  rcases List.mem_append.mp member with digit | dot
  · obtain ⟨small,less,rfl⟩ := digits_small (show 1 < 10 by decide) (by decide) number digit
    rw [(by decide : ∀ small < 10, decimalDigit (Nat.digitChar small) = true) small less] at strange
    cases strange.1
  · exact of_decide_eq_false strange.2 (List.eq_of_mem_replicate dot)

theorem decimal_blocked (small : number < 2 ^ 32) (count : Nat) :
    isBlockedHost (decimal number ++ dots count) = (decide (0xffff < number) && documented number) := by
  have bare : withoutDots (lower (decimal number ++ dots count)) = decimal number := by
    rw [lower_decimal]
    exact withoutDots_dots count (decimal_last number)
  have absent {char : Char} (strange : (decimalDigit char || decide (char = '.')) = false) : char ∉ decimal number := fun member =>
    decimal_apart number count strange (List.mem_append_left _ member)
  rw [isBlockedHost_eq,withoutBrackets_plain (decimal_apart number count rfl) (decimal_apart number count rfl),blocked_single,Bool.false_or,
    normalizeHost_v4 (by rw [bare]; exact absent rfl),bare]
  have read : value 10 (decimal number) = number := value_toDigits (by decide) (by decide) number
  have no_hex : hexInteger (decimal number) = none := by
    refine if_neg fun wrong => ?_
    simp only [Bool.and_eq_true] at wrong
    obtain ⟨rest,same⟩ := List.isPrefixOf_iff_prefix.mp wrong.1.1
    exact absurd (show 'x' ∈ decimal number by rw [← same]; simp) (absent rfl)
  have no_mixed : mixedDotted (decimal number) = none := by
    have cut : (decimal number).splitOn '.' = [decimal number] := List.splitOn_eq_singleton (dot_apart number)
    unfold mixedDotted
    rw [cut,List.map_cons,List.map_nil]
    cases readOctet (decimal number) <;> simp
  rw [no_hex,no_mixed,Option.none_or,Option.or_none]
  unfold decimalInteger
  rw [digits_decimal,read,Bool.true_and]
  by_cases large : 0xffff < number
  · rw [if_pos (by simp only [Bool.and_eq_true,decide_eq_true_eq]; omega),Option.getD_some,intToIPv4_blocked small]
    simp [large]
  · rw [if_neg (by simp only [Bool.and_eq_true,decide_eq_true_eq]; omega),Option.getD_none]
    have single := blocked_single number 0
    rw [show dots 0 = [] from rfl,List.append_nil] at single
    simp [large,single]

theorem hex_blocked {digits : Text} (some_digit : digits ≠ []) (all : ∀ char ∈ digits, hexDigit char = true) (small : value 16 digits < 2 ^ 32)
    (spelled : lower host = '0' :: 'x' :: digits ++ dots count) (inside : documented (value 16 digits) = true) : isBlockedHost host = true := by
  have chars {char : Char} (strange : (hexDigit char || decide (char = 'x')) = false) : char ∉ '0' :: 'x' :: digits := by
    intro member
    rw [Bool.or_eq_false_iff] at strange
    simp only [List.mem_cons] at member
    rcases member with rfl | rfl | later
    · cases strange.1
    · cases strange.2
    · rw [all char later] at strange
      cases strange.1
  have outside {char : Char} (strange : (hexDigit char || decide (char = 'x')) = false) (apart : char ≠ '.') (same : char.toLower = char) : char ∉ host := by
    intro member
    have there := lower_mem member same
    rw [spelled] at there
    rcases List.mem_append.mp there with wrong | dot
    · exact chars strange wrong
    · exact apart (List.eq_of_mem_replicate dot)
  have bare : withoutDots (lower host) = '0' :: 'x' :: digits := by
    rw [spelled]
    exact withoutDots_dots count fun last => chars rfl (List.mem_of_getLast? last)
  rw [isBlockedHost_eq,withoutBrackets_plain (outside rfl (by decide) rfl) (outside rfl (by decide) rfl),Bool.or_eq_true_iff,
    normalizeHost_v4 (by rw [bare]; exact chars rfl),bare]
  have read : hexInteger ('0' :: 'x' :: digits) = some (intToIPv4 (value 16 digits)) := by
    refine if_pos ?_
    simp only [Bool.and_eq_true]
    exact ⟨⟨rfl,decide_eq_true some_digit⟩,List.all_eq_true.mpr all⟩
  right
  rw [read,Option.some_or,Option.some_or,Option.getD_some,intToIPv4_blocked small]
  exact inside

theorem lower_digit (digit : decimalDigit char = true) : char.toLower = char := by
  unfold decimalDigit at digit
  simp only [Bool.and_eq_true,decide_eq_true_eq] at digit
  have high : char.toNat ≤ 57 := UInt32.le_iff_toNat_le.mp digit.2
  unfold Char.toLower
  split
  · next upper =>
    have : 65 ≤ char.toNat := UInt32.le_iff_toNat_le.mp upper.1
    omega
  · rfl

theorem dotted_exact (first : one < 256) (second : two < 256) (third : three < 256) (fourth : four < 256) :
    isBlockedHost (joined '.' [decimal one,decimal two,decimal three,decimal four]) = documented (address one two three four) := by
  have chars {char : Char} (strange : (decimalDigit char || decide (char = '.')) = false) : char ∉ joined '.' [decimal one,decimal two,decimal three,decimal four] := by
    intro member
    rw [Bool.or_eq_false_iff] at strange
    rcases dotted_chars one two three four member with digit | dot
    · rw [strange.1] at digit
      cases digit
    · exact of_decide_eq_false strange.2 dot
  have same : lower (joined '.' [decimal one,decimal two,decimal three,decimal four]) = joined '.' [decimal one,decimal two,decimal three,decimal four] := by
    refine (List.map_congr_left fun char member => ?_).trans (List.map_id _)
    rcases dotted_chars one two three four member with digit | dot
    · exact lower_digit digit
    · rw [dot]
      rfl
  have bare : withoutDots (lower (joined '.' [decimal one,decimal two,decimal three,decimal four])) = joined '.' [decimal one,decimal two,decimal three,decimal four] := by
    have trimmed := withoutDots_dots 0 (octets_last (.decimal four fourth) : (joined '.' [decimal one,decimal two,decimal three,decimal four]).getLast? ≠ some '.')
    rw [show dots 0 = [] from rfl,List.append_nil] at trimmed
    rw [same]
    exact trimmed
  rw [isBlockedHost_eq,withoutBrackets_plain (chars rfl) (chars rfl),
    octets_normalized (.decimal one first) (.decimal two second) (.decimal three third) (.decimal four fourth) bare,Bool.or_self,
    blocked_dotted first second third fourth]

end Zveltio.UrlValidator
