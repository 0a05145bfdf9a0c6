import Zveltio.IpText
import Mathlib.Data.List.TakeWhile
import Mathlib.Data.Bool.AllAny
namespace Zveltio.IpBuckets
open IpText

-- No character outside A to Z becomes a colon or one of 0 to 9 and a to f; the rest makes no difference to what is read here.
def toLowerCase (text : Text) : Text := text.map Char.toLower

def prepend (front : Text) : List Text → List Text
  | [] => [front]
  | piece::rest => (front ++ piece)::rest

-- split(':: '): the leftmost pairs of colons, none of them shared.
def splitDouble : Text → List Text
  | ':':: ':'::rest => []::splitDouble rest
  | char::rest => prepend [char] (splitDouble rest)
  | [] => [[]]

def colons (half : Text) : List Text := if half = [] then [] else half.splitOn ':'

def hexGroup (group : Text) : Bool :=
  1 ≤ group.length && group.length ≤ 4 && group.all fun char => ('0' ≤ char && char ≤ '9') || ('a' ≤ char && char ≤ 'f')

def stripZeros : Text → Text
  | '0'::next::rest => stripZeros (next::rest)
  | group => group

def rateLimitIpBucket (ip : Text) : Text :=
  if ':' ∉ ip then ip
  else
    let halves := splitDouble (toLowerCase ip)
    if 2 < halves.length then ip
    else
      let head := colons (halves[0]?.getD [])
      let tail := colons (halves[1]?.getD [])
      let missing : Int := 8 - head.length - tail.length
      if (if halves.length = 1 then missing ≠ 0 else missing < 1) then ip
      else
        let groups := head ++ List.replicate missing.toNat ['0'] ++ tail
        if groups.all hexGroup then joined ':' ((groups.take 4).map stripZeros) ++ "::/64".toList else ip

-- The spellings of an IPv6 address: groups of one to four digits, one gap at most, at the end perhaps a dotted quad.
def Group (piece : Text) : Prop := 1 ≤ piece.length ∧ piece.length ≤ 4 ∧ ∀ char ∈ piece, digit char < 16

def Quad (piece : Text) : Prop :=
  ∃ octets : List Text, octets.length = 4 ∧ piece = joined '.' octets ∧
    ∀ octet ∈ octets, octet ≠ [] ∧ value 10 octet ≤ 255 ∧ ∀ char ∈ octet, digit char < 10

structure Form where
  before : List Text
  gap : Bool
  after : List Text
  quad : Option Text
  groups : ∀ piece ∈ before ++ after, Group piece
  dotted : ∀ piece ∈ quad, Quad piece
  counted : if gap then before.length + after.length + 2 * quad.toList.length ≤ 7
    else before.length + after.length + 2 * quad.toList.length = 8 ∧ after = []

def Form.text (form : Form) : Text :=
  if form.gap then joined ':' form.before ++ [':',':'] ++ joined ':' (form.after ++ form.quad.toList)
  else joined ':' (form.before ++ form.quad.toList)

def words (piece : Text) : List Nat :=
  if '.' ∈ piece then
    match (piece.splitOn '.').map (value 10) with
    | [one,two,three,four] => [one * 256 + two,three * 256 + four]
    | _ => []
  else [value 16 piece]

def Form.words (form : Form) : List Nat :=
  form.before.flatMap IpBuckets.words ++
    List.replicate (8 - (form.before.length + form.after.length + 2 * form.quad.toList.length)) 0 ++
    (form.after ++ form.quad.toList).flatMap IpBuckets.words

-- The first 64 bits.
def Form.front (form : Form) : List Nat := form.words.take 4

theorem lower_digit (hexadecimal : digit char < 16) : char.toLower = Nat.digitChar (digit char) := by
  have table : ∀ number < 128, digit (Char.ofNat number) < 16 → (Char.ofNat number).toLower = Nat.digitChar (digit (Char.ofNat number)) := by decide
  have same := table char.toNat (digit_ascii hexadecimal)
  rw [Char.ofNat_toNat] at same
  exact same hexadecimal

theorem group_lower (group : Group piece) : toLowerCase piece = piece.map fun char => Nat.digitChar (digit char) :=
  List.map_congr_left fun char member => lower_digit (group.2.2 char member)

theorem digit_hex : ∀ number < 16, ((decide ('0' ≤ Nat.digitChar number) && decide (Nat.digitChar number ≤ '9')) ||
    (decide ('a' ≤ Nat.digitChar number) && decide (Nat.digitChar number ≤ 'f'))) = true := by decide

theorem hexGroup_lower (group : Group piece) : hexGroup (toLowerCase piece) = true := by
  rw [group_lower group]
  simp only [hexGroup,List.length_map,Bool.and_eq_true,decide_eq_true_eq,List.all_eq_true,List.mem_map]
  refine ⟨⟨group.1,group.2.1⟩,?_⟩
  rintro _ ⟨char,member,rfl⟩
  exact digit_hex _ (group.2.2 char member)

theorem strip_snoc (group : Text) (some_digit : group ≠ []) (char : Char) :
    stripZeros (group ++ [char]) = if stripZeros group = ['0'] then [char] else stripZeros group ++ [char] := by
  induction group with
  | nil => exact absurd rfl some_digit
  | cons head rest ih =>
    cases rest with
    | nil =>
      by_cases zero : head = '0'
      · subst zero
        simp [stripZeros]
      · simp [stripZeros,zero]
    | cons next more =>
      by_cases zero : head = '0'
      · subst zero
        exact ih (List.cons_ne_nil _ _)
      · simp [stripZeros,zero]

theorem value_hex (number : Nat) : value 16 (hex number) = number := value_toDigits (by decide) (by decide) number

theorem toDigits_zero (number : Nat) : Nat.toDigits 16 number = ['0'] ↔ number = 0 := by
  constructor
  · intro same
    rw [← value_hex number,hex,same]
    rfl
  · rintro rfl
    rfl

theorem strip_value (digits : Text) (some_digit : digits ≠ []) (hexadecimal : ∀ char ∈ digits, digit char < 16) :
    stripZeros (digits.map fun char => Nat.digitChar (digit char)) = hex (value 16 digits) := by
  induction digits using List.reverseRecOn with
  | nil => exact absurd rfl some_digit
  | append_singleton front last ih =>
    have small := hexadecimal last (by simp)
    rw [List.map_append,value_snoc,hex]
    by_cases none : front = []
    · subst none
      rw [show value 16 [] = 0 from rfl,Nat.zero_mul,Nat.zero_add,Nat.toDigits_of_lt_base small]
      simp [stripZeros]
    · have earlier := ih none fun char member => hexadecimal char (List.mem_append_left _ member)
      rw [List.map_singleton,strip_snoc _ (by simpa using none),earlier,hex]
      split
      · rename_i zero
        rw [(toDigits_zero _).mp zero,Nat.zero_mul,Nat.zero_add,Nat.toDigits_of_lt_base small]
      · rename_i positive
        have above : 16 ≤ value 16 front * 16 + digit last := by
          have := mt (toDigits_zero _).mpr positive
          omega
        rw [Nat.toDigits_of_base_le (by decide) above]
        have high : (value 16 front * 16 + digit last) / 16 = value 16 front := by omega
        have low : (value 16 front * 16 + digit last) % 16 = digit last := by omega
        rw [high,low]

theorem prepend_prepend (first second : Text) (pieces : List Text) : prepend first (prepend second pieces) = prepend (first ++ second) pieces := by
  cases pieces <;> simp [prepend]

theorem split_char {char : Char} (other : char ≠ ':') (rest : Text) : splitDouble (char::rest) = prepend [char] (splitDouble rest) := by
  rw [splitDouble]
  rintro _ rfl
  exact absurd rfl other

theorem split_clean (clean : ':' ∉ piece) (rest : Text) : splitDouble (piece ++ rest) = prepend piece (splitDouble rest) := by
  induction piece with
  | nil =>
    cases pieces : splitDouble rest with
    | nil => exact absurd pieces (by unfold splitDouble; split <;> simp [prepend]; split <;> simp)
    | cons => simp [prepend,pieces]
  | cons char piece ih =>
    rw [List.cons_append,split_char (by rintro rfl; exact clean (List.mem_cons_self ..)),
      ih fun member => clean (List.mem_cons_of_mem _ member),prepend_prepend]
    rfl

theorem split_joined {pieces : List Text} (some_piece : pieces ≠ []) (clean : ∀ piece ∈ pieces, ':' ∉ piece ∧ piece ≠ []) (rest : Text) :
    splitDouble (joined ':' pieces ++ rest) = prepend (joined ':' pieces) (splitDouble rest) := by
  induction pieces with
  | nil => exact absurd rfl some_piece
  | cons piece more ih =>
    cases more with
    | nil => simpa [joined] using split_clean (clean piece (by simp)).1 rest
    | cons next more =>
      have later := ih (List.cons_ne_nil _ _) fun one member => clean one (List.mem_cons_of_mem _ member)
      have whole : joined ':' (piece::next::more) = piece ++ ':'::joined ':' (next::more) := by
        simp [joined,List.intercalate_cons_cons]
      obtain ⟨first,tail,starts,notColon⟩ : ∃ first tail, joined ':' (next::more) = first::tail ∧ first ≠ ':' := by
        obtain ⟨noColon,some_char⟩ := clean next (by simp)
        obtain ⟨first,tail,rfl⟩ := List.exists_cons_of_ne_nil some_char
        cases more with
        | nil => exact ⟨first,tail,by simp [joined],by rintro rfl; exact noColon (List.mem_cons_self ..)⟩
        | cons other more =>
          refine ⟨first,tail ++ ':'::joined ':' (other::more),?_,by rintro rfl; exact noColon (List.mem_cons_self ..)⟩
          simp [joined,List.intercalate_cons_cons]
      have single : splitDouble (':'::(joined ':' (next::more) ++ rest)) = prepend [':'] (splitDouble (joined ':' (next::more) ++ rest)) := by
        rw [starts,List.cons_append,splitDouble]
        intro _ _ same
        exact notColon (List.cons.inj same).1
      rw [whole,List.append_assoc,List.cons_append,split_clean (clean piece (by simp)).1,single,later,prepend_prepend,prepend_prepend]
      simp

theorem split_half {pieces : List Text} (clean : ∀ piece ∈ pieces, ':' ∉ piece ∧ piece ≠ []) : splitDouble (joined ':' pieces) = [joined ':' pieces] := by
  by_cases none : pieces = []
  · subst none
    rfl
  · have whole := split_joined none clean []
    simpa [splitDouble,prepend] using whole

theorem split_halves {front back : List Text} (left : ∀ piece ∈ front, ':' ∉ piece ∧ piece ≠ []) (right : ∀ piece ∈ back, ':' ∉ piece ∧ piece ≠ []) :
    splitDouble (joined ':' front ++ [':',':'] ++ joined ':' back) = [joined ':' front,joined ':' back] := by
  have cut : splitDouble ([':',':'] ++ joined ':' back) = [[],joined ':' back] := by
    rw [List.cons_append,List.cons_append,List.nil_append,splitDouble,split_half right]
  by_cases none : front = []
  · subst none
    simpa [joined] using cut
  · rw [List.append_assoc,split_joined none left,cut]
    simp [prepend]

theorem colons_joined {pieces : List Text} (clean : ∀ piece ∈ pieces, ':' ∉ piece ∧ piece ≠ []) : colons (joined ':' pieces) = pieces := by
  unfold colons
  by_cases none : pieces = []
  · subst none
    rfl
  · rw [if_neg,splitOn_joined fun piece member => (clean piece member).1,if_neg none]
    obtain ⟨first,more,rfl⟩ := List.exists_cons_of_ne_nil none
    intro empty
    have some_char := (clean first (by simp)).2
    cases more with
    | nil => exact some_char (by simpa [joined] using empty)
    | cons => exact some_char (by simp [joined,List.intercalate_cons_cons] at empty)

theorem lower_joined (pieces : List Text) (separator : Char) (small : separator.toLower = separator) :
    toLowerCase (joined separator pieces) = joined separator (pieces.map toLowerCase) := by
  induction pieces with
  | nil => rfl
  | cons piece more ih =>
    cases more with
    | nil => simp [joined]
    | cons next more =>
      unfold joined toLowerCase at ih ⊢
      simp only [List.map_cons,List.intercalate_cons_cons,List.map_append,List.map_nil,small] at ih ⊢
      rw [ih]

theorem digit_colon : digit ':' = 16 := by decide

theorem digit_dot : digit '.' = 16 := by decide

theorem group_char (group : Group piece) : ':' ∉ piece ∧ '.' ∉ piece ∧ piece ≠ [] := by
  refine ⟨fun member => ?_,fun member => ?_,?_⟩
  · have := group.2.2 ':' member
    rw [digit_colon] at this
    omega
  · have := group.2.2 '.' member
    rw [digit_dot] at this
    omega
  · rintro rfl
    exact absurd group.1 (by decide)

theorem quad_char (quad : Quad piece) : ':' ∉ piece ∧ '.' ∈ piece ∧ piece ≠ [] := by
  obtain ⟨octets,four,rfl,each⟩ := quad
  have dot : '.' ∈ joined '.' octets := by
    match octets,four with
    | [one,two,three,four],_ => simp [joined,List.intercalate_cons_cons]
  refine ⟨fun member => ?_,dot,List.ne_nil_of_mem dot⟩
  rcases joined_mem member with same | ⟨octet,listed,inside⟩
  · exact absurd same (by decide)
  · have := (each octet listed).2.2 ':' inside
    rw [digit_colon] at this
    omega

theorem words_group (group : Group piece) : words piece = [value 16 piece] := by
  simp [words,(group_char group).2.1]

theorem words_quad (quad : Quad piece) : (words piece).length = 2 := by
  have dot := (quad_char quad).2.1
  obtain ⟨octets,four,rfl,each⟩ := quad
  have cut : (joined '.' octets).splitOn '.' = octets := by
    have clean : ∀ octet ∈ octets, '.' ∉ octet := by
      intro octet listed member
      have := (each octet listed).2.2 '.' member
      rw [digit_dot] at this
      omega
    rw [splitOn_joined clean,if_neg (by rintro rfl; exact absurd four (by decide))]
  rw [words,if_pos dot,cut]
  match octets,four with
  | [_,_,_,_],_ => rfl

namespace Form
variable (form : Form)

def size : Nat := form.before.length + form.after.length + 2 * form.quad.toList.length

def shown (pieces : List Text) : List Text := if pieces = [] then [[]] else pieces

def parts : List Text :=
  if form.gap then shown form.before ++ []::shown (form.after ++ form.quad.toList) else form.before ++ form.quad.toList

theorem piece_clean (member : piece ∈ form.before ++ (form.after ++ form.quad.toList)) : ':' ∉ piece ∧ piece ≠ [] := by
  rw [← List.append_assoc] at member
  rcases List.mem_append.mp member with group | quad
  · exact ⟨(group_char (form.groups piece group)).1,(group_char (form.groups piece group)).2.2⟩
  · have dotted := form.dotted piece (Option.mem_toList.mp quad)
    exact ⟨(quad_char dotted).1,(quad_char dotted).2.2⟩

theorem before_clean : ∀ piece ∈ form.before, ':' ∉ piece ∧ piece ≠ [] := fun _ member => form.piece_clean (List.mem_append_left _ member)

theorem after_clean : ∀ piece ∈ form.after ++ form.quad.toList, ':' ∉ piece ∧ piece ≠ [] := fun _ member => form.piece_clean (List.mem_append_right _ member)

theorem size_bound : form.size ≤ 8 := by
  have counted := form.counted
  unfold size
  split at counted <;> omega

theorem words_length : form.words.length = 8 := by
  have groups : ∀ pieces : List Text, (∀ piece ∈ pieces, Group piece) → (pieces.flatMap IpBuckets.words).length = pieces.length := by
    intro pieces each
    induction pieces with
    | nil => rfl
    | cons piece pieces ih =>
      rw [List.flatMap_cons,List.length_append,words_group (each piece (List.mem_cons_self ..)),ih fun one member => each one (List.mem_cons_of_mem _ member)]
      simp only [List.length_cons,List.length_nil]
      omega
  have quad : (form.quad.toList.flatMap IpBuckets.words).length = 2 * form.quad.toList.length := by
    cases dotted : form.quad with
    | none => rfl
    | some piece => simpa using words_quad (form.dotted piece dotted)
  have bound := form.size_bound
  unfold size at bound
  rw [Form.words,List.flatMap_append]
  simp only [List.length_append,List.length_replicate,groups form.before fun piece member => form.groups piece (List.mem_append_left _ member),
    groups form.after fun piece member => form.groups piece (List.mem_append_right _ member),quad]
  omega

theorem joined_shown (pieces : List Text) : joined ':' (shown pieces) = joined ':' pieces := by
  unfold shown
  split
  · rename_i none
    rw [none]
    rfl
  · rfl

theorem shown_some (pieces : List Text) : shown pieces ≠ [] := by
  unfold shown
  split
  · exact List.cons_ne_nil _ _
  · assumption

theorem text_parts : form.text = joined ':' form.parts := by
  unfold Form.text parts
  split
  · have second : joined ':' ([]::shown (form.after ++ form.quad.toList)) = [] ++ ':'::joined ':' (shown (form.after ++ form.quad.toList)) := by
      exact joined_append (List.cons_ne_nil [] []) (shown_some _)
    rw [joined_append (shown_some _) (List.cons_ne_nil _ _),second,joined_shown,joined_shown]
    simp
  · rfl

theorem parts_clean : ∀ part ∈ form.parts, ':' ∉ part := by
  have shown_clean : ∀ pieces : List Text, (∀ piece ∈ pieces, ':' ∉ piece ∧ piece ≠ []) → ∀ part ∈ shown pieces, ':' ∉ part := by
    intro pieces clean part member
    unfold shown at member
    split at member
    · rw [List.mem_singleton.mp member]
      exact List.not_mem_nil
    · exact (clean part member).1
  intro part member
  unfold parts at member
  split at member
  · rcases List.mem_append.mp member with front | rest
    · exact shown_clean _ form.before_clean part front
    · rcases List.mem_cons.mp rest with rfl | back
      · exact List.not_mem_nil
      · exact shown_clean _ form.after_clean part back
  · rcases List.mem_append.mp member with group | quad
    · exact (form.before_clean part group).1
    · exact (form.after_clean part (List.mem_append_right _ quad)).1

theorem parts_some : form.parts ≠ [] := by
  unfold parts
  split
  · simp
  · rename_i full
    have counted := form.counted
    rw [if_neg full] at counted
    intro none
    have lengths := congrArg List.length none
    simp only [List.length_append,List.length_nil] at lengths
    have after : form.after.length = 0 := by rw [counted.2]; rfl
    omega

theorem split_parts : form.text.splitOn ':' = form.parts := by
  rw [form.text_parts,splitOn_joined form.parts_clean,if_neg form.parts_some]

def valued (parts : List Text) : List Nat :=
  let front := parts.takeWhile (· ≠ [])
  let pieces := parts.filter (· ≠ [])
  front.flatMap IpBuckets.words ++ List.replicate (8 - (pieces.flatMap IpBuckets.words).length) 0 ++ (pieces.drop front.length).flatMap IpBuckets.words

theorem filter_shown (pieces : List Text) (clean : ∀ piece ∈ pieces, ':' ∉ piece ∧ piece ≠ []) : (shown pieces).filter (· ≠ []) = pieces := by
  unfold shown
  split
  · rename_i none
    rw [none]
    rfl
  · exact List.filter_eq_self.mpr fun piece member => by simpa using (clean piece member).2

theorem takeWhile_shown (pieces rest : List Text) (clean : ∀ piece ∈ pieces, ':' ∉ piece ∧ piece ≠ []) :
    (shown pieces ++ []::rest).takeWhile (· ≠ []) = pieces := by
  unfold shown
  split
  · rename_i none
    rw [none]
    rfl
  · rw [List.takeWhile_append_of_pos fun piece member => by simpa using (clean piece member).2]
    simp

theorem valued_parts : valued form.parts = form.words := by
  have bound := form.words_length
  have zeros : 8 - ((form.before ++ (form.after ++ form.quad.toList)).flatMap IpBuckets.words).length = 8 - form.size := by
    have small := form.size_bound
    rw [Form.words] at bound
    rw [List.flatMap_append]
    simp only [List.length_append,List.length_replicate] at bound ⊢
    unfold size at small ⊢
    omega
  unfold valued parts
  split
  · have pieces : (shown form.before ++ []::shown (form.after ++ form.quad.toList)).filter (· ≠ []) = form.before ++ (form.after ++ form.quad.toList) := by
      rw [List.filter_append,filter_shown _ form.before_clean,List.filter_cons_of_neg (by simp),filter_shown _ form.after_clean]
    simp only [takeWhile_shown _ _ form.before_clean,pieces,zeros,List.drop_left]
    rfl
  · rename_i full
    have counted := form.counted
    rw [if_neg full] at counted
    have whole : form.before ++ form.quad.toList = form.before ++ (form.after ++ form.quad.toList) := by rw [counted.2]; rfl
    have pieces : (form.before ++ (form.after ++ form.quad.toList)).filter (· ≠ []) = form.before ++ (form.after ++ form.quad.toList) :=
      List.filter_eq_self.mpr fun piece member => by simpa using (form.piece_clean member).2
    have front : (form.before ++ (form.after ++ form.quad.toList)).takeWhile (· ≠ []) = form.before ++ (form.after ++ form.quad.toList) :=
      List.takeWhile_eq_self_iff.mpr fun piece member => by simpa using (form.piece_clean member).2
    have none_left : 8 - form.size = 0 := by unfold size; omega
    simp only [whole,pieces,front,zeros,List.drop_length]
    rw [Form.words,show 8 - (form.before.length + form.after.length + 2 * form.quad.toList.length) = 8 - form.size from rfl,none_left,
      List.flatMap_append]
    simp

theorem text_words {one other : Form} (same : one.text = other.text) : one.words = other.words := by
  rw [← one.valued_parts,← other.valued_parts,← split_parts,← split_parts,same]

theorem text_colon : ':' ∈ form.text := by
  unfold Form.text
  split
  · simp
  · rename_i full
    have counted := form.counted
    rw [if_neg full,counted.2] at counted
    have quad : form.quad.toList.length ≤ 1 := by cases form.quad <;> simp
    have long : 2 ≤ form.before.length := by
      have := counted.1
      simp only [List.length_nil] at this
      omega
    match before : form.before,long with
    | one::two::more,_ => simp [joined,List.intercalate_cons_cons]

theorem lower_clean {pieces : List Text} (clean : ∀ piece ∈ pieces, ':' ∉ piece ∧ piece ≠ []) :
    ∀ piece ∈ pieces.map toLowerCase, ':' ∉ piece ∧ piece ≠ [] := by
  intro _ member
  obtain ⟨piece,listed,rfl⟩ := List.mem_map.mp member
  refine ⟨fun colon => ?_,by simpa [toLowerCase] using (clean piece listed).2⟩
  obtain ⟨char,inside,same⟩ := List.mem_map.mp colon
  rw [lower_mark (by decide) same] at inside
  exact (clean piece listed).1 inside

theorem halves : splitDouble (toLowerCase form.text) =
    if form.gap then [joined ':' (form.before.map toLowerCase),joined ':' ((form.after ++ form.quad.toList).map toLowerCase)]
    else [joined ':' ((form.before ++ form.quad.toList).map toLowerCase)] := by
  have colon : ':'.toLower = ':' := by decide
  unfold Form.text
  split
  · have marks : toLowerCase [':',':'] = [':',':'] := by decide
    rw [show ∀ one two three : Text, toLowerCase (one ++ two ++ three) = toLowerCase one ++ toLowerCase two ++ toLowerCase three from
      fun _ _ _ => by simp [toLowerCase],marks,lower_joined _ _ colon,lower_joined _ _ colon]
    exact split_halves (lower_clean form.before_clean) (lower_clean form.after_clean)
  · rw [lower_joined _ _ colon]
    refine split_half (lower_clean fun piece member => ?_)
    rcases List.mem_append.mp member with group | quad
    · exact form.before_clean piece group
    · exact form.after_clean piece (List.mem_append_right _ quad)

theorem strip_group (group : Group piece) : stripZeros (toLowerCase piece) = hex (value 16 piece) := by
  rw [group_lower group]
  exact strip_value piece (group_char group).2.2 group.2.2

theorem strip_groups {pieces : List Text} (groups : ∀ piece ∈ pieces, Group piece) :
    (pieces.map toLowerCase).map stripZeros = (pieces.flatMap IpBuckets.words).map hex := by
  induction pieces with
  | nil => rfl
  | cons piece pieces ih =>
    have group := groups piece (List.mem_cons_self ..)
    rw [List.map_cons,List.map_cons,List.flatMap_cons,words_group group,strip_group group,ih fun one member => groups one (List.mem_cons_of_mem _ member)]
    rfl

-- Without a dotted quad the bucket shows the first four words and nothing else of the spelling.
theorem bucket_groups (plain : form.quad = none) : rateLimitIpBucket form.text = joined ':' (form.front.map hex) ++ "::/64".toList := by
  have counted := form.counted
  have size : form.before.length + form.after.length + 2 * form.quad.toList.length = form.before.length + form.after.length := by rw [plain]; rfl
  have read := form.halves
  simp only [plain,Option.toList_none,List.append_nil] at read
  have groups : (form.before.map toLowerCase ++ List.replicate (8 - (form.before.length + form.after.length)) ['0'] ++
      form.after.map toLowerCase).map stripZeros = form.words.map hex := by
    rw [Form.words,size,plain,Option.toList_none,List.append_nil]
    simp only [List.map_append,strip_groups fun piece member => form.groups piece (List.mem_append_left _ member),
      strip_groups fun piece member => form.groups piece (List.mem_append_right _ member),List.map_replicate]
    rfl
  have hexadecimal : (form.before.map toLowerCase ++ List.replicate (8 - (form.before.length + form.after.length)) ['0'] ++
      form.after.map toLowerCase).all hexGroup = true := by
    simp only [List.all_append,Bool.and_eq_true,List.all_eq_true,List.mem_map]
    refine ⟨⟨?_,?_⟩,?_⟩
    · rintro _ ⟨piece,member,rfl⟩
      exact hexGroup_lower (form.groups piece (List.mem_append_left _ member))
    · intro piece member
      rw [List.eq_of_mem_replicate member]
      decide
    · rintro _ ⟨piece,member,rfl⟩
      exact hexGroup_lower (form.groups piece (List.mem_append_right _ member))
  have front : ((form.before.map toLowerCase ++ List.replicate (8 - (form.before.length + form.after.length)) ['0'] ++
      form.after.map toLowerCase).take 4).map stripZeros = form.front.map hex := by
    rw [List.map_take,groups,Form.front,List.map_take]
  have before := colons_joined (lower_clean form.before_clean)
  have after : colons (joined ':' (form.after.map toLowerCase)) = form.after.map toLowerCase := by
    have whole := colons_joined (lower_clean form.after_clean)
    simpa [plain] using whole
  rw [size] at counted
  unfold rateLimitIpBucket
  rw [if_neg (not_not.mpr form.text_colon),read]
  split at counted
  · rename_i gap
    simp only [gap,if_true,List.length_cons,List.length_nil,List.getElem?_cons_zero,List.getElem?_cons_succ,Option.getD_some,before,after,List.length_map]
    have count : ((8 : Int) - form.before.length - form.after.length).toNat = 8 - (form.before.length + form.after.length) := by omega
    rw [if_neg (by omega),if_neg (by simp only [Nat.reduceAdd,OfNat.ofNat_ne_one,if_false]; omega),count,if_pos hexadecimal,front]
  · rename_i full
    have empty : form.after = [] := counted.2
    simp only [full,if_false,Bool.false_eq_true,List.length_cons,List.length_nil,List.getElem?_cons_zero,List.getElem?_cons_succ,List.getElem?_nil,
      Option.getD_some,Option.getD_none,before,List.length_map]
    simp only [empty,List.length_nil,List.map_nil] at hexadecimal front counted ⊢
    have count : ((8 : Int) - form.before.length - (colons []).length).toNat = 8 - (form.before.length + 0) := by
      rw [show (colons []).length = 0 from rfl]
      omega
    rw [if_neg (by omega),if_neg (by simp only [if_true,show (colons []).length = 0 from rfl]; omega),count,
      show colons [] = [] from rfl,if_pos hexadecimal,front]

theorem quad_group (quad : Quad piece) : hexGroup (toLowerCase piece) = false := by
  have dot : '.' ∈ toLowerCase piece := List.mem_map.mpr ⟨'.',(quad_char quad).2.1,by decide⟩
  simp only [hexGroup,Bool.and_eq_false_iff]
  right
  exact List.all_eq_false.mpr ⟨'.',dot,by decide⟩

theorem bucket_quad (dotted : form.quad = some piece) : rateLimitIpBucket form.text = form.text := by
  have counted := form.counted
  have quad := form.dotted piece dotted
  have read := form.halves
  simp only [dotted,Option.toList_some] at read counted
  have before := colons_joined (lower_clean form.before_clean)
  have after : colons (joined ':' ((form.after ++ [piece]).map toLowerCase)) = (form.after ++ [piece]).map toLowerCase := by
    have whole := colons_joined (lower_clean form.after_clean)
    simpa [dotted] using whole
  unfold rateLimitIpBucket
  rw [if_neg (not_not.mpr form.text_colon),read]
  split at counted
  · rename_i gap
    simp only [gap,if_true,List.length_cons,List.length_nil,List.getElem?_cons_zero,List.getElem?_cons_succ,Option.getD_some,before,after]
    simp only [Nat.reduceAdd,OfNat.ofNat_ne_one,lt_self_iff_false,if_false]
    split
    · rfl
    · rw [if_neg]
      simp [quad_group quad]
  · rename_i full
    have all_before : colons (joined ':' ((form.before ++ [piece]).map toLowerCase)) = (form.before ++ [piece]).map toLowerCase := by
      refine colons_joined (lower_clean fun one member => ?_)
      rcases List.mem_append.mp member with group | own
      · exact form.before_clean one group
      · rw [List.mem_singleton.mp own]
        exact ⟨(quad_char quad).1,(quad_char quad).2.2⟩
    simp only [full,if_false,Bool.false_eq_true,List.length_cons,List.length_nil,List.getElem?_cons_zero,List.getElem?_cons_succ,List.getElem?_nil,
      Option.getD_some,Option.getD_none,all_before,List.length_map,List.length_append,List.length_nil]
    rw [if_neg (by omega),if_pos]
    simp only [if_true,show (colons []).length = 0 from rfl]
    have empty := congrArg List.length counted.2
    simp only [List.length_cons,List.length_nil] at counted empty
    omega

theorem hex_inj {one other : List Nat} (same : one.map hex = other.map hex) : one = other :=
  List.map_injective_iff.mpr (fun first second equal => by
    rw [← value_hex first,← value_hex second]
    exact congrArg (value 16) equal) same

theorem hex_clean (number : Nat) : ':' ∉ hex number := by
  intro member
  obtain ⟨small,bound,same⟩ := hex_char member
  have apart : ∀ number < 16, ':' ≠ Nat.digitChar number := by decide
  exact apart small bound same

theorem front_same (one other : Form) (same : joined ':' (one.front.map hex) = joined ':' (other.front.map hex)) : one.front = other.front := by
  have some_word : ∀ form : Form, form.front.map hex ≠ [] := by
    intro form none
    have length := congrArg List.length none
    simp only [Form.front,List.length_map,List.length_take,form.words_length,List.length_nil] at length
    omega
  have clean : ∀ form : Form, ∀ part ∈ form.front.map hex, ':' ∉ part := by
    intro form part member
    obtain ⟨number,_,rfl⟩ := List.mem_map.mp member
    exact hex_clean number
  have split := congrArg (List.splitOn ':') same
  rw [splitOn_joined (clean one),splitOn_joined (clean other),if_neg (some_word one),if_neg (some_word other)] at split
  exact hex_inj split

theorem piece_slash (member : piece ∈ form.before ++ (form.after ++ form.quad.toList)) : '/' ∉ piece := by
  have slash : digit '/' = 16 := by decide
  rw [← List.append_assoc] at member
  intro inside
  rcases List.mem_append.mp member with group | quad
  · have := (form.groups piece group).2.2 '/' inside
    omega
  · obtain ⟨octets,_,rfl,each⟩ := form.dotted piece (Option.mem_toList.mp quad)
    rcases joined_mem inside with same | ⟨octet,listed,char⟩
    · exact absurd same (by decide)
    · have := (each octet listed).2.2 '/' char
      omega

theorem text_slash : '/' ∉ form.text := by
  intro member
  have joined_slash : ∀ pieces : List Text, (∀ piece ∈ pieces, '/' ∉ piece) → '/' ∉ joined ':' pieces := by
    intro pieces clean inside
    rcases joined_mem inside with same | ⟨piece,listed,char⟩
    · exact absurd same (by decide)
    · exact clean piece listed char
  unfold Form.text at member
  split at member
  · rcases List.mem_append.mp member with front | back
    · rcases List.mem_append.mp front with before | colon
      · exact joined_slash _ (fun piece listed => form.piece_slash (List.mem_append_left _ listed)) before
      · exact absurd colon (by decide)
    · exact joined_slash _ (fun piece listed => form.piece_slash (List.mem_append_right _ listed)) back
  · refine joined_slash _ (fun piece listed => form.piece_slash ?_) member
    rcases List.mem_append.mp listed with before | quad
    · exact List.mem_append_left _ before
    · exact List.mem_append_right _ (List.mem_append_right _ quad)

end Form

theorem bucket_exact (one other : Form) : (rateLimitIpBucket one.text = rateLimitIpBucket other.text ↔ one.front = other.front) ↔
    one.quad = none ∧ other.quad = none ∨ one.text = other.text ∨ one.front ≠ other.front := by
  have apart : ∀ plain dotted : Form, plain.quad = none → ∀ piece, dotted.quad = some piece →
      rateLimitIpBucket plain.text ≠ rateLimitIpBucket dotted.text := by
    intro plain dotted none piece quad same
    rw [plain.bucket_groups none,dotted.bucket_quad quad] at same
    exact dotted.text_slash (same ▸ List.mem_append_right _ (by decide))
  have fronts : one.text = other.text → one.front = other.front := fun same => by rw [Form.front,Form.front,Form.text_words same]
  cases left : one.quad with
  | none =>
    cases right : other.quad with
    | none =>
      have same : rateLimitIpBucket one.text = rateLimitIpBucket other.text ↔ one.front = other.front := by
        rw [one.bucket_groups left,other.bucket_groups right]
        constructor
        · exact fun equal => Form.front_same one other (List.append_cancel_right equal)
        · exact fun equal => by rw [equal]
      simp [same]
    | some piece =>
      have buckets := apart one other left piece right
      have texts : one.text ≠ other.text := fun same => buckets (congrArg rateLimitIpBucket same)
      simp [buckets,texts]
  | some piece =>
    cases right : other.quad with
    | none =>
      have buckets := (apart other one right piece left).symm
      have texts : one.text ≠ other.text := fun same => buckets (congrArg rateLimitIpBucket same)
      simp [buckets,texts]
    | some another =>
      rw [one.bucket_quad left,other.bucket_quad right]
      by_cases same : one.text = other.text
      · simp [same,fronts same]
      · simp [same]

-- Two addresses of one /64 behind a NAT64 front, the second written out.
def embedded : Form where
  before := ["64".toList,"ff9b".toList]
  gap := true
  after := []
  quad := some "192.0.2.1".toList
  groups := by
    intro piece member
    simp only [List.append_nil,List.mem_cons,List.not_mem_nil,or_false] at member
    rcases member with rfl | rfl <;> exact ⟨by decide,by decide,List.all_iff_forall_prop.mp (by decide)⟩
  dotted := by
    intro piece member
    cases member
    refine ⟨["192".toList,"0".toList,"2".toList,"1".toList],rfl,by decide,fun octet listed => ?_⟩
    simp only [List.mem_cons,List.not_mem_nil,or_false] at listed
    rcases listed with rfl | rfl | rfl | rfl <;> exact ⟨by decide,by decide,List.all_iff_forall_prop.mp (by decide)⟩
  counted := by decide

def written : Form where
  before := ["64".toList,"FF9B".toList]
  gap := true
  after := ["c000".toList,"201".toList]
  quad := none
  groups := by
    intro piece member
    simp only [List.cons_append,List.nil_append,List.mem_cons,List.not_mem_nil,or_false] at member
    rcases member with rfl | rfl | rfl | rfl <;> exact ⟨by decide,by decide,List.all_iff_forall_prop.mp (by decide)⟩
  dotted := by simp
  counted := by decide

theorem dotted_apart : ¬ ∀ one other : Form, rateLimitIpBucket one.text = rateLimitIpBucket other.text ↔ one.front = other.front := by
  intro always
  have same := (always embedded written).mpr (by decide)
  revert same
  decide

end Zveltio.IpBuckets
