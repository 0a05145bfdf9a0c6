import Mathlib.Algebra.Ring.Nat
import Mathlib.Data.List.Infix
import Mathlib.Data.List.Induction
namespace Zveltio.IpText

abbrev Text := List Char

def digit (char : Char) : Nat :=
  if '0' ≤ char ∧ char ≤ '9' then char.toNat - 48
  else if 'a' ≤ char ∧ char ≤ 'f' then char.toNat - 87
  else if 'A' ≤ char ∧ char ≤ 'F' then char.toNat - 55
  else 16

def value (radix : Nat) (digits : Text) : Nat := digits.foldl (fun sum char => sum * radix + digit char) 0

def decimal (number : Nat) : Text := Nat.toDigits 10 number

def hex (number : Nat) : Text := Nat.toDigits 16 number

def joined (separator : Char) (parts : List Text) : Text := List.intercalate [separator] parts

-- An IPv4 address is a number below 2^32; its dotted text shows the four octets.
def address (one two three four : Nat) : Nat := ((one * 256 + two) * 256 + three) * 256 + four

def dotted (address : Nat) : Text :=
  joined '.' [decimal (address / 256 ^ 3 % 256),decimal (address / 256 ^ 2 % 256),decimal (address / 256 % 256),decimal (address % 256)]

structure Block where
  base : Nat
  length : Nat

def Block.has (block : Block) (address : Nat) : Bool := address / 2 ^ (32 - block.length) = block.base / 2 ^ (32 - block.length)

-- An IPv6 address is eight words. Its canonical text leaves out the first longest run of two zero words or more.
def zeros : List Nat → Nat
  | 0::rest => zeros rest + 1
  | _ => 0

def longest : List Nat → Nat × Nat
  | [] => (0,0)
  | word::rest =>
    let later := longest rest
    if later.2 ≤ zeros (word::rest) then (0,zeros (word::rest)) else (later.1 + 1,later.2)

def compressed (words : List Nat) : Text :=
  let run := longest words
  if run.2 < 2 then joined ':' (words.map hex)
  else joined ':' ((words.take run.1).map hex) ++ ':' :: ':' :: joined ':' ((words.drop (run.1 + run.2)).map hex)

theorem zeros_nil : zeros [] = 0 := rfl

theorem zeros_cons (word : Nat) (rest : List Nat) : zeros (word::rest) = if word = 0 then zeros rest + 1 else 0 := by
  cases word with
  | zero => rfl
  | succ word => rfl

theorem longest_nil : longest [] = (0,0) := rfl

theorem longest_cons (word : Nat) (rest : List Nat) : longest (word::rest) =
    if (longest rest).2 ≤ zeros (word::rest) then (0,zeros (word::rest)) else ((longest rest).1 + 1,(longest rest).2) := rfl

theorem digit_exact : ∀ number < 16, digit (Nat.digitChar number) = number := by decide

theorem digit_ascii (hexadecimal : digit char < 16) : char.toNat < 128 := by
  apply Classical.byContradiction
  intro large
  have strange : digit char = 16 := by
    unfold digit
    have above : ∀ bound : Char, bound.toNat < 128 → ¬ char ≤ bound := by
      intro bound low less
      have := Char.le_def.mp less
      have := UInt32.le_iff_toNat_le.mp this
      simp only [Char.toNat] at *
      omega
    simp [above '9' (by decide),above 'f' (by decide),above 'F' (by decide)]
  omega

theorem value_snoc (radix : Nat) (digits : Text) (char : Char) : value radix (digits ++ [char]) = value radix digits * radix + digit char := by
  simp [value]

theorem value_toDigits (above : 1 < radix) (below : radix ≤ 16) (number : Nat) : value radix (Nat.toDigits radix number) = number := by
  induction number using Nat.strongRecOn with
  | ind number ih =>
    rcases Nat.lt_or_ge number radix with less | more
    · rw [Nat.toDigits_of_lt_base less]
      simpa [value] using digit_exact number (by omega)
    · have smaller : number / radix < number := Nat.div_lt_self (by omega) above
      rw [Nat.toDigits_of_base_le above more,value_snoc,ih _ smaller,digit_exact _ (by have := Nat.mod_lt number (show 0 < radix by omega); omega)]
      exact Nat.div_add_mod' number radix

theorem toDigits_lead {value : Nat} (positive : 0 < value) : (Nat.toDigits 10 value).head? ≠ some '0' := by
  induction value using Nat.strongRecOn with
  | ind value ih =>
    rcases Nat.lt_or_ge value 10 with small | large
    · rw [Nat.toDigits_of_lt_base small]
      have each : ∀ digit < 10, 0 < digit → [Nat.digitChar digit].head? ≠ some '0' := by decide
      exact each value small positive
    · rw [Nat.toDigits_of_base_le (by decide) large,List.head?_append_of_ne_nil _ Nat.toDigits_ne_nil]
      exact ih (value / 10) (by omega) (by omega)

theorem digitChar_digit (plain : '0' ≤ char ∧ char ≤ '9') : digit char < 10 ∧ Nat.digitChar (digit char) = char := by
  have low : 48 ≤ char.toNat := UInt32.le_iff_toNat_le.mp (Char.le_def.mp plain.1)
  have high : char.toNat ≤ 57 := UInt32.le_iff_toNat_le.mp (Char.le_def.mp plain.2)
  have number : digit char = char.toNat - 48 := if_pos plain
  refine ⟨by omega,?_⟩
  have each : ∀ small < 10, Nat.digitChar small = Char.ofNat (small + 48) := by decide
  rw [number,each _ (by omega),show char.toNat - 48 + 48 = char.toNat by omega,Char.ofNat_toNat]

theorem decimal_value {digits : Text} (plain : ∀ char ∈ digits, '0' ≤ char ∧ char ≤ '9') (some_digit : digits ≠ [])
    (lead : ∀ rest, digits = '0'::rest → rest = []) : decimal (value 10 digits) = digits := by
  induction digits using List.reverseRecOn with
  | nil => exact absurd rfl some_digit
  | append_singleton front last ih =>
    obtain ⟨small,shown⟩ := digitChar_digit (plain last (List.mem_append_right _ (List.mem_singleton_self last)))
    cases front with
    | nil =>
      have number : value 10 ([] ++ [last]) = digit last := by simp [value]
      rw [number,decimal,Nat.toDigits_of_lt_base small,shown]
      rfl
    | cons first front =>
      have inner := ih (fun char listed => plain char (List.mem_append_left _ listed)) (List.cons_ne_nil _ _) fun rest same => by
        have none_left := lead (rest ++ [last]) (by rw [same,List.cons_append])
        exact absurd none_left (List.append_ne_nil_of_right_ne_nil _ (List.cons_ne_nil _ _))
      have positive : 0 < value 10 (first::front) := by
        refine Nat.pos_of_ne_zero fun zero => ?_
        rw [zero] at inner
        have alone : ['0'] = first::front := inner
        cases alone
        exact absurd (lead [last] rfl) (List.cons_ne_nil _ _)
      rw [value_snoc,decimal,Nat.toDigits_of_base_le (by decide) (by omega),show (value 10 (first::front) * 10 + digit last) / 10 = value 10 (first::front) by omega,
        show (value 10 (first::front) * 10 + digit last) % 10 = digit last by omega,shown]
      exact congrArg (· ++ [last]) inner

theorem digits_small (above : 1 < radix) (below : radix ≤ 16) (number : Nat) (listed : char ∈ Nat.toDigits radix number) :
    ∃ small < radix, char = Nat.digitChar small := by
  induction number using Nat.strongRecOn with
  | ind number ih =>
    rcases Nat.lt_or_ge number radix with less | more
    · rw [Nat.toDigits_of_lt_base less] at listed
      exact ⟨number,less,List.mem_singleton.mp listed⟩
    · rw [Nat.toDigits_of_base_le above more] at listed
      rcases List.mem_append.mp listed with front | last
      · exact ih _ (Nat.div_lt_self (by omega) above) front
      · exact ⟨_,Nat.mod_lt _ (by omega),List.mem_singleton.mp last⟩

theorem splitOn_joined {parts : List Text} {separator : Char} (clean : ∀ part ∈ parts, separator ∉ part) :
    (joined separator parts).splitOn separator = if parts = [] then [[]] else parts := by
  split
  · next empty => rw [empty]; rfl
  · next some_part => exact List.splitOn_intercalate separator clean some_part

theorem splitOn_clear {text part : Text} (member : part ∈ text.splitOn separator) : separator ∉ part := by
  induction text generalizing part with
  | nil =>
    rw [List.mem_singleton.mp member]
    exact List.not_mem_nil
  | cons char rest ih =>
    rw [List.splitOn_cons_eq_if_modifyHead] at member
    split at member
    · rcases List.mem_cons.mp member with rfl | member
      · exact List.not_mem_nil
      · exact ih member
    · next apart =>
      obtain ⟨first,more,whole⟩ := List.exists_cons_of_ne_nil (List.splitOn_ne_nil separator rest)
      rw [whole] at member ih
      rcases List.mem_cons.mp member with rfl | member
      · intro inside
        rcases List.mem_cons.mp inside with rfl | inside
        · simp at apart
        · exact ih List.mem_cons_self inside
      · exact ih (List.mem_cons_of_mem _ member)

theorem joined_append {first second : List Text} {separator : Char} (left : first ≠ []) (right : second ≠ []) :
    joined separator (first ++ second) = joined separator first ++ separator::joined separator second := by
  induction first with
  | nil => exact absurd rfl left
  | cons head rest ih =>
    cases rest with
    | nil =>
      obtain ⟨next,more,rfl⟩ := List.exists_cons_of_ne_nil right
      simp [joined,List.intercalate_cons_cons]
    | cons next more =>
      have later := ih (List.cons_ne_nil _ _)
      unfold joined at later ⊢
      rw [List.cons_append,List.cons_append,List.intercalate_cons_cons,List.intercalate_cons_cons,← List.cons_append,later]
      simp

-- The colon-separated parts of the canonical text, empty ones where words are left out.
def shown (words : List Nat) : List Text := if words = [] then [[]] else words.map hex

def parts (words : List Nat) : List Text :=
  let run := longest words
  if run.2 < 2 then shown words else shown (words.take run.1) ++ []::shown (words.drop (run.1 + run.2))

theorem shown_some (words : List Nat) : shown words ≠ [] := by
  unfold shown
  split
  · exact List.cons_ne_nil _ _
  · next some_word => simpa using some_word

theorem joined_shown (words : List Nat) (separator : Char) : joined separator (shown words) = joined separator (words.map hex) := by
  unfold shown
  split
  · next none_left => rw [none_left]; rfl
  · rfl

theorem compressed_joined (words : List Nat) : compressed words = joined ':' (parts words) := by
  unfold compressed parts
  simp only
  split
  · exact (joined_shown _ _).symm
  · rw [joined_append (shown_some _) (List.cons_ne_nil _ _),joined_shown,
      show []::shown (words.drop ((longest words).1 + (longest words).2)) = [[]] ++ shown (words.drop ((longest words).1 + (longest words).2)) from rfl,
      joined_append (List.cons_ne_nil _ _) (shown_some _),joined_shown]
    rfl

theorem shown_part (member : part ∈ shown words) : part = [] ∨ ∃ word ∈ words, part = hex word := by
  unfold shown at member
  split at member
  · exact .inl (List.mem_singleton.mp member)
  · obtain ⟨word,listed,same⟩ := List.mem_map.mp member
    exact .inr ⟨word,listed,same.symm⟩

theorem parts_part (member : part ∈ parts words) : part = [] ∨ ∃ word ∈ words, part = hex word := by
  unfold parts at member
  simp only at member
  split at member
  · exact shown_part member
  · rcases List.mem_append.mp member with front | back
    · exact (shown_part front).imp_right fun found => found.imp fun word both => ⟨List.mem_of_mem_take both.1,both.2⟩
    · rcases List.mem_cons.mp back with gap | rest
      · exact .inl gap
      · exact (shown_part rest).imp_right fun found => found.imp fun word both => ⟨List.mem_of_mem_drop both.1,both.2⟩

theorem hex_char (member : char ∈ hex number) : ∃ small < 16, char = Nat.digitChar small := digits_small (by decide) (by decide) number member

theorem joined_mem {list : List Text} {separator : Char} (member : char ∈ joined separator list) : char = separator ∨ ∃ part ∈ list, char ∈ part := by
  induction list with
  | nil => cases member
  | cons head rest ih =>
    cases rest with
    | nil => exact .inr ⟨head,List.mem_cons_self ..,by simpa [joined] using member⟩
    | cons next more =>
      unfold joined at member ih
      rw [List.intercalate_cons_cons,List.mem_append,List.mem_append] at member
      rcases member with (here | dot) | later
      · exact .inr ⟨head,List.mem_cons_self ..,here⟩
      · exact .inl (List.mem_singleton.mp dot)
      · exact (ih later).imp_right fun found => found.imp fun part both => ⟨List.mem_cons_of_mem _ both.1,both.2⟩

theorem joined_tail (front : List Text) (last tail : Text) (separator : Char) : joined separator (front ++ [last]) ++ tail = joined separator (front ++ [last ++ tail]) := by
  cases front with
  | nil => simp [joined]
  | cons head rest =>
    rw [joined_append (List.cons_ne_nil _ _) (List.cons_ne_nil _ _),joined_append (List.cons_ne_nil _ _) (List.cons_ne_nil _ _)]
    simp [joined]

theorem hex_four (low : 4096 ≤ word) (high : word < 65536) :
    hex word = [Nat.digitChar (word / 4096),Nat.digitChar (word / 256 % 16),Nat.digitChar (word / 16 % 16),Nat.digitChar (word % 16)] := by
  unfold hex
  rw [Nat.toDigits_of_base_le (by decide) (by omega),Nat.toDigits_of_base_le (by decide) (by omega),Nat.toDigits_of_base_le (by decide) (by omega),
    Nat.toDigits_of_lt_base (by omega)]
  have first : word / 16 / 16 / 16 = word / 4096 := by omega
  have second : word / 16 / 16 % 16 = word / 256 % 16 := by omega
  rw [first,second]
  rfl

theorem hex_length (high : word < 65536) : (hex word).length ≤ 4 := (Nat.length_toDigits_le_iff (by decide) (by decide)).mpr high

theorem lower_mark {char mark : Char} (outside : mark.toNat < 97 ∨ 122 < mark.toNat) (same : char.toLower = mark) : char = mark := by
  unfold Char.toLower at same
  split at same
  · rename_i letter
    have value := congrArg Char.toNat same
    have bounds := UInt32.le_iff_toNat_le.mp letter.1
    have ends := UInt32.le_iff_toNat_le.mp letter.2
    simp only [Char.toNat,UInt32.toNat_add] at value outside bounds ends
    have constants : 'A'.val.toNat = 65 ∧ 'Z'.val.toNat = 90 ∧ ('a'.val - 'A'.val).toNat = 32 := by decide
    omega
  · exact same

end Zveltio.IpText
