import Zveltio.JsonText
namespace Zveltio.JsonReading
open Doubles (Number Double Spelling ofDecimal fractionText powerText)
open JsValues JsonText
open SchemaJson (escape hexDigit colon lineBreak)
open IpText (Text digit)

theorem hex_digit : ∀ value < 16, digit (hexDigit value) = value := by decide +kernel

theorem unitOf_hex (unit : UInt16) (a b c d : Nat) (high : a < 16) (second : b < 16) (third : c < 16) (low : d < 16)
    (whole : a * 4096 + b * 256 + c * 16 + d = unit.toNat) :
    unitOf (hexDigit a) (hexDigit b) (hexDigit c) (hexDigit d) = some unit := by
  rw [unitOf,hex_digit a high,hex_digit b second,hex_digit c third,hex_digit d low,if_pos ⟨high,second,third,low⟩,whole,
    UInt16.ofNat_toNat]

theorem readString_unicode (unit : UInt16) (tail : Text) :
    readString (unicodeEscape unit ++ tail) = (readString tail).map fun read => (unit::read.1,read.2) := by
  have bound := unit.toNat_lt
  have found := unitOf_hex unit (unit.toNat / 4096) (unit.toNat / 256 % 16) (unit.toNat / 16 % 16) (unit.toNat % 16)
    (by omega) (by omega) (by omega) (by omega) (by omega)
  simp only [unicodeEscape,List.cons_append,List.nil_append,readString,found]
  cases readString tail <;> rfl

theorem readString_plain {char : Char} (quote : char ≠ '\x22') (slash : char ≠ '\\') (visible : 32 ≤ char.toNat) (tail : Text) :
    readString (char::tail) = (readString tail).map fun read => (utf16 char ++ read.1,read.2) := by
  rw [readString]
  · rw [if_neg (not_or.mpr ⟨not_lt.mpr visible,slash⟩)]
    cases readString tail <;> rfl
  · exact quote
  · intro a b c d rest same
    exact absurd same slash
  · intro mark rest same
    exact absurd same slash

theorem readString_mark {mark : Char} {unit : UInt16} (found : unescaped mark = some unit) (tail : Text) :
    readString ('\\'::mark::tail) = (readString tail).map fun read => (unit::read.1,read.2) := by
  rw [readString]
  · rw [found]
    cases readString tail <;> rfl
  · intro a b c d rest hexadecimal _
    rw [hexadecimal] at found
    cases found

theorem utf16_single (unit : UInt16) (alone : (leading unit || trailing unit) = false) :
    (Char.ofNat unit.toNat).toNat = unit.toNat ∧ utf16 (Char.ofNat unit.toNat) = [unit] := by
  have bound := unit.toNat_lt
  have valid : unit.toNat.isValidChar := by
    simp only [leading,trailing,Bool.or_eq_false_iff,Bool.and_eq_false_iff,decide_eq_false_iff_not] at alone
    unfold Nat.isValidChar
    omega
  have same : (Char.ofNat unit.toNat).toNat = unit.toNat := by
    rw [Char.ofNat,dif_pos valid]
    rfl
  refine ⟨same,?_⟩
  rw [utf16,same,if_pos bound,UInt16.ofNat_toNat]

theorem utf16_paired (high low : UInt16) (first : leading high = true) (second : trailing low = true) :
    65536 ≤ (paired high low).toNat ∧ utf16 (paired high low) = [high,low] := by
  simp only [leading,trailing,Bool.and_eq_true,decide_eq_true_eq] at first second
  have valid : (65536 + (high.toNat - 55296) * 1024 + (low.toNat - 56320)).isValidChar := by
    unfold Nat.isValidChar
    omega
  have same : (paired high low).toNat = 65536 + (high.toNat - 55296) * 1024 + (low.toNat - 56320) := by
    rw [paired,Char.ofNat,dif_pos valid]
    rfl
  refine ⟨by omega,?_⟩
  rw [utf16,same,if_neg (by omega),show 55296 + (65536 + (high.toNat - 55296) * 1024 + (low.toNat - 56320) - 65536) / 1024 = high.toNat by omega,
    show 56320 + (65536 + (high.toNat - 55296) * 1024 + (low.toNat - 56320) - 65536) % 1024 = low.toNat by omega,
    UInt16.ofNat_toNat,UInt16.ofNat_toNat]

theorem readString_escape (unit : UInt16) (alone : (leading unit || trailing unit) = false) (tail : Text) :
    readString (escape (Char.ofNat unit.toNat) ++ tail) = (readString tail).map fun read => (unit::read.1,read.2) := by
  obtain ⟨same,written⟩ := utf16_single unit alone
  have named : ∀ char : Char, Char.ofNat unit.toNat = char → unit = UInt16.ofNat char.toNat := by
    intro char equal
    rw [← equal,same,UInt16.ofNat_toNat]
  have plain : ∀ {char mark : Char}, Char.ofNat unit.toNat = char → unescaped mark = some (UInt16.ofNat char.toNat) →
      readString (['\\',mark] ++ tail) = (readString tail).map fun read => (unit::read.1,read.2) := by
    intro char mark equal found
    rw [← named char equal] at found
    exact readString_mark found tail
  unfold escape
  split
  · next equal => exact plain equal rfl
  split
  · next equal => exact plain equal rfl
  split
  · next equal => exact plain equal rfl
  split
  · next equal => exact plain equal rfl
  split
  · next equal => exact plain equal rfl
  split
  · next equal => exact plain equal rfl
  split
  · next equal => exact plain equal rfl
  next quote slash _ _ _ _ _ =>
  split
  · next control =>
    rw [same] at control
    have found := unitOf_hex unit 0 0 (unit.toNat / 16) (unit.toNat % 16) (by decide) (by decide) (by omega) (by omega) (by omega)
    rw [same]
    simp only [List.cons_append,List.nil_append,readString]
    rw [show '0' = hexDigit 0 by decide,found]
    cases readString tail <;> rfl
  · next visible =>
    rw [List.cons_append,List.nil_append,readString_plain quote slash (by omega),written]
    rfl

theorem readString_single (unit : UInt16) (tail : Text) :
    readString (single unit ++ tail) = (readString tail).map fun read => (unit::read.1,read.2) := by
  unfold single
  split
  · exact readString_unicode unit tail
  · next alone => exact readString_escape unit (by simpa using alone) tail

theorem readString_paired {high low : UInt16} (first : leading high = true) (second : trailing low = true) (tail : Text) :
    readString (paired high low::tail) = (readString tail).map fun read => (high::low::read.1,read.2) := by
  obtain ⟨large,written⟩ := utf16_paired high low first second
  have other : ∀ char : Char, char.toNat < 65536 → paired high low ≠ char := by
    intro char small same
    rw [same] at large
    omega
  rw [readString_plain (other _ (by decide)) (other _ (by decide)) (by omega),written]
  rfl

theorem readString_escaped (value : Units) (tail : Text) : readString (escaped value ++ '\x22'::tail) = some (value,tail) := by
  fun_induction escaped value with
  | case1 => rfl
  | case2 unit =>
    rw [readString_single]
    rfl
  | case3 high low rest pair ih =>
    simp only [Bool.and_eq_true] at pair
    rw [List.cons_append,readString_paired pair.1 pair.2,ih]
    rfl
  | case4 high low rest pair ih =>
    rw [List.append_assoc,readString_single,ih]
    rfl

theorem readString_quote (value : Units) (tail : Text) :
    ∃ text, quote value ++ tail = '\x22'::text ∧ readString text = some (value,tail) := by
  refine ⟨escaped value ++ '\x22'::tail,?_,readString_escaped value tail⟩
  simp [quote]

-- What follows a numeral does not go on with it.
def Stops (rest : Text) : Prop := ∀ char ∈ rest.head?, char.isDigit = false ∧ char ≠ '.' ∧ char ≠ 'e' ∧ char ≠ 'E'

def Ends (rest : Text) : Prop := ∀ char ∈ rest.head?, char.isDigit = false

theorem digits_ends {front rest : Text} (decimal : ∀ char ∈ front, char.isDigit = true) (ended : Ends rest) :
    digits (front ++ rest) = front := by
  rw [digits,List.takeWhile_append_of_pos decimal]
  cases rest with
  | nil => simp
  | cons char rest => simp [ended char rfl]

theorem readWhole_sound {spelling : Spelling} (sound : spelling.Sound) (ended : Ends rest) :
    readWhole (spelling.whole ++ rest) = some (spelling.whole,rest) := by
  have front : (spelling.whole ++ rest).head? = spelling.whole.head? := List.head?_append_of_ne_nil _ sound.some'
  unfold readWhole
  rw [front,digits_ends sound.whole ended]
  dsimp only
  split
  · next zero => rw [← sound.lead zero,if_neg sound.some',List.drop_left]
  · rw [if_neg sound.some',List.drop_left]

theorem readFraction_sound {spelling : Spelling} (sound : spelling.Sound) (ended : Ends rest)
    (other : rest.head? ≠ some '.') :
    readFraction (fractionText spelling.fraction ++ rest) = some (spelling.fraction,rest) := by
  unfold fractionText
  split
  · next nothing =>
    rw [nothing,List.nil_append,readFraction]
    rintro rest rfl
    exact other rfl
  · next held =>
    rw [List.cons_append,readFraction,digits_ends sound.fraction ended,if_neg held,List.drop_left]

theorem readPower_sound (power : Option Int) (ended : Stops rest) : readPower (powerText power ++ rest) = some (power,rest) := by
  cases power with
  | none =>
    cases rest with
    | nil => rfl
    | cons char rest =>
      obtain ⟨_,_,small,large⟩ := ended char rfl
      rw [powerText,List.nil_append,readPower,if_neg (not_or.mpr ⟨small,large⟩)]
  | some power =>
    have shown : digits (Nat.toDigits 10 power.natAbs ++ rest) = Nat.toDigits 10 power.natAbs :=
      digits_ends (fun char held => Nat.isDigit_of_mem_toDigits (by decide) (by decide) held) fun char first => (ended char first).1
    have held : Nat.toDigits 10 power.natAbs ≠ [] := Nat.toDigits_ne_nil
    by_cases positive : 0 < power
    · simp only [powerText,positive,if_true,List.cons_append,readPower,readSign,shown,held,if_false,
        Nat.ofDigitChars_ten_toDigits,List.drop_left,Bool.false_eq_true,true_or]
      rw [show (power.natAbs : Int) = power by omega]
    · simp only [powerText,positive,List.cons_append,readPower,readSign,shown,held,if_false,
        Nat.ofDigitChars_ten_toDigits,List.drop_left,if_true,true_or]
      rw [show -(power.natAbs : Int) = power by omega]

theorem readNumber_spelled {spelling : Spelling} (sound : spelling.Sound) (negative : Bool) (ended : Stops rest) :
    readNumber (Doubles.signed negative spelling.text ++ rest) = some (ofDecimal negative spelling.value,rest) := by
  have closed : Ends rest := fun char first => (ended char first).1
  obtain ⟨whole,fraction,power⟩ := spelling
  generalize behind : powerText power ++ rest = tail
  have after := readPower_sound power ended
  rw [behind] at after
  have marks : Ends tail ∧ tail.head? ≠ some '.' := by
    rw [← behind]
    cases power with
    | none =>
      refine ⟨closed,fun point => ?_⟩
      exact (ended '.' (by simpa [powerText] using point)).2.1 rfl
    | some power => exact ⟨fun char first => by cases Option.some.inj first; rfl,by simp [powerText]⟩
  have middle := readFraction_sound sound marks.1 marks.2
  have lead : Ends (fractionText fraction ++ tail) := by
    unfold fractionText
    split
    · exact marks.1
    · intro char first
      cases Option.some.inj first
      rfl
  have front := readWhole_sound sound lead
  have text : Spelling.text ⟨whole,fraction,power⟩ ++ rest = whole ++ (fractionText fraction ++ tail) := by
    rw [Spelling.text,List.append_assoc,List.append_assoc,behind]
  have unsigned : (whole ++ (fractionText fraction ++ tail)).head? ≠ some '-' := by
    rw [List.head?_append_of_ne_nil _ sound.some']
    intro minus
    have digit := sound.whole '-' (List.mem_of_mem_head? minus)
    cases digit
  unfold readNumber
  cases negative with
  | true =>
    simp only [Doubles.signed,if_true,List.cons_append,text,front,middle,after,Option.bind_eq_bind,Option.bind_some]
  | false =>
    simp only [Doubles.signed,Bool.false_eq_true,if_false,text]
    split
    · next same => exact absurd (by rw [same]; rfl) unsigned
    · simp only [front,middle,after,Option.bind_eq_bind,Option.bind_some]

theorem readNumber_text (double : Double) (ended : Stops rest) :
    readNumber (double.text ++ rest) = some (.finite double.unsigned,rest) := by
  unfold Double.text Double.unsigned
  split
  · next zero =>
    have sound : Spelling.Sound ⟨['0'],[],none⟩ := ⟨by simp,by simp,fun _ => rfl,by simp⟩
    have read := readNumber_spelled sound false ended
    have nought : Spelling.value ⟨['0'],[],none⟩ = 0 := by
      simp [Spelling.value,Nat.ofDigitChars_cons]
    rw [nought,Doubles.ofDecimal_reads double (by rw [Doubles.nearest_zero,zero])] at read
    exact read
  · next some' =>
    have positive : 0 < double.size := lt_of_le_of_ne double.above (Ne.symm some')
    obtain ⟨spelling,sound,shown,back⟩ := Doubles.positiveText_spelled positive double.exact
    rw [shown,readNumber_spelled sound double.negative ended,Doubles.ofDecimal_reads double back]

def Blank (gap : Text) : Prop := ∀ char ∈ gap, blank char = true

theorem lineBreak_blank (space depth : Nat) : Blank (lineBreak space depth) := by
  intro char held
  unfold lineBreak at held
  split at held
  · exact absurd held List.not_mem_nil
  · rcases List.mem_cons.mp held with rfl | spaces
    · rfl
    · rw [List.eq_of_mem_replicate spaces]
      rfl

theorem skip_gap (gap : Blank front) (text : Text) : skip (front ++ text) = skip text :=
  List.dropWhile_append_of_pos gap

theorem skip_solid {char : Char} (solid : blank char = false) (text : Text) : skip (char::text) = char::text := by
  rw [skip,List.dropWhile_cons_of_neg (by simp [solid])]

theorem skip_break (space depth : Nat) {char : Char} (solid : blank char = false) (text : Text) :
    skip (lineBreak space depth ++ char::text) = char::text := by
  rw [skip_gap (lineBreak_blank space depth),skip_solid solid]

theorem stops_char (char : Char) (tail : Text) (stop : char.isDigit = false ∧ char ≠ '.' ∧ char ≠ 'e' ∧ char ≠ 'E') :
    Stops (char::tail) := by
  intro first held
  cases Option.some.inj held
  exact stop

theorem stops_break (space depth : Nat) {char : Char} (stop : Stops (char::tail)) : Stops (lineBreak space depth ++ char::tail) := by
  unfold lineBreak
  split
  · exact stop
  · exact stops_char '\n' _ (by decide)

theorem stops_items (space depth : Nat) (items : List Json) {char : Char} (stop : Stops (char::tail)) :
    Stops (stringifyItems space depth items ++ (lineBreak space depth ++ char::tail)) := by
  cases items with
  | nil => exact stops_break space depth stop
  | cons item rest => exact stops_char ',' _ (by decide)

theorem stops_members (space depth : Nat) (members : List (Units × Json)) {char : Char} (stop : Stops (char::tail)) :
    Stops (stringifyMembers space depth members ++ (lineBreak space depth ++ char::tail)) := by
  cases members with
  | nil => exact stops_break space depth stop
  | cons member rest => exact stops_char ',' _ (by decide)

theorem text_first (double : Double) : ∃ char rest, double.text = char::rest ∧ (char = '-' ∨ char.isDigit = true) := by
  unfold Double.text
  split
  · exact ⟨_,_,rfl,.inr rfl⟩
  · next some' =>
    have positive : 0 < double.size := lt_of_le_of_ne double.above (Ne.symm some')
    obtain ⟨spelling,sound,shown,_⟩ := Doubles.positiveText_spelled positive double.exact
    rw [shown]
    unfold Doubles.signed
    split
    · exact ⟨_,_,rfl,.inl rfl⟩
    · obtain ⟨char,rest,whole⟩ := List.exists_cons_of_ne_nil sound.some'
      refine ⟨char,rest ++ (fractionText spelling.fraction ++ powerText spelling.power),?_,.inr ?_⟩
      · rw [Spelling.text,whole,List.append_assoc]
        rfl
      · exact sound.whole char (by rw [whole]; exact List.mem_cons_self ..)

theorem stringify_first (space depth : Nat) (value : Json) :
    ∃ char rest, stringify space depth value = char::rest ∧ blank char = false ∧ char ≠ ']' ∧ char ≠ '\x7d' := by
  cases value with
  | leaf value =>
    cases value with
    | null => exact ⟨'n',_,rfl,by decide⟩
    | bool value => cases value <;> exact ⟨_,_,rfl,by decide⟩
    | string value => exact ⟨'\x22',_,rfl,by decide⟩
    | number value =>
      cases value with
      | infinite negative => exact ⟨'n',_,rfl,by decide⟩
      | finite double =>
        obtain ⟨char,rest,shown,kind⟩ := text_first double
        refine ⟨char,rest,shown,?_⟩
        have other : ∀ mark : Char, mark.isDigit = false → mark ≠ '-' → char ≠ mark := by
          rintro mark plain sign rfl
          rcases kind with same | digit
          · exact sign same
          · rw [plain] at digit
            cases digit
        have space := other ' ' (by decide) (by decide)
        have tab := other '\t' (by decide) (by decide)
        have line := other '\n' (by decide) (by decide)
        have carriage := other '\x0d' (by decide) (by decide)
        exact ⟨by simp [blank,space,tab,line,carriage],other ']' (by decide) (by decide),other '\x7d' (by decide) (by decide)⟩
  | array items => cases items <;> exact ⟨'[',_,rfl,by decide⟩
  | object members => cases members <;> exact ⟨'\x7b',_,rfl,by decide⟩

def Reads (space : Nat) (value : Json) : Prop :=
  ∀ depth gap rest fuel, Blank gap → Stops rest → (stringify space depth value).length ≤ fuel →
    readValue fuel (gap ++ (stringify space depth value ++ rest)) = some (value.map Scalar.plain,rest)

theorem fuel_some {space depth : Nat} {value : Json} (enough : (stringify space depth value).length ≤ fuel) :
    ∃ more, fuel = more + 1 := by
  obtain ⟨char,rest,shown,_⟩ := stringify_first space depth value
  rw [shown,List.length_cons] at enough
  exact ⟨fuel - 1,by omega⟩

theorem number_reads (space : Nat) (double : Double) : Reads space (.leaf (.number (.finite double))) := by
  intro depth gap rest fuel gapped stop enough
  obtain ⟨fuel,rfl⟩ := fuel_some enough
  obtain ⟨char,more,shown,kind⟩ := text_first double
  have read := readNumber_text double stop
  have other : ∀ mark : Char, mark.isDigit = false → mark ≠ '-' → char ≠ mark := by
    rintro mark plain sign rfl
    rcases kind with same | digit
    · exact sign same
    · rw [plain] at digit
      cases digit
  obtain ⟨first,tail,same,solid,_⟩ := stringify_first space depth (.leaf (.number (.finite double)))
  have text : stringify space depth (.leaf (.number (.finite double))) = double.text := rfl
  rw [text] at same ⊢
  rw [same] at shown
  obtain ⟨rfl,rfl⟩ := (List.cons.injEq ..).mp shown
  rw [readValue,skip_gap gapped,same,List.cons_append,skip_solid solid,← List.cons_append,← same]
  split
  case h_7 =>
    rw [read]
    rfl
  all_goals
    next found =>
    rw [same] at found
    exact absurd (List.cons.inj found).1 (other _ (by decide) (by decide))

theorem leaf_reads (space : Nat) (value : Scalar) (finite : value.Finite) : Reads space (.leaf value) := by
  cases value with
  | number value =>
    cases value with
    | finite double => exact number_reads space double
    | infinite negative => exact absurd finite id
  | null =>
    intro depth gap rest fuel gapped _ enough
    obtain ⟨fuel,rfl⟩ := fuel_some enough
    rw [readValue,skip_gap gapped]
    rfl
  | bool value =>
    intro depth gap rest fuel gapped _ enough
    obtain ⟨fuel,rfl⟩ := fuel_some enough
    rw [readValue,skip_gap gapped]
    cases value <;> rfl
  | string value =>
    intro depth gap rest fuel gapped _ enough
    obtain ⟨fuel,rfl⟩ := fuel_some enough
    obtain ⟨text,shown,read⟩ := readString_quote value rest
    rw [readValue,skip_gap gapped,stringify,Scalar.text,shown,skip_solid (by decide)]
    simp only [read]
    rfl

theorem items_read (space depth : Nat) (rest : List Json) : ∀ (first : Json) (gap tail : Text) (fuel : Nat),
    (∀ item ∈ first::rest, Reads space item) → Blank gap →
    (stringify space (depth + 1) first ++ stringifyItems space depth rest).length < fuel →
    readItems fuel (gap ++ (stringify space (depth + 1) first ++ (stringifyItems space depth rest ++ (lineBreak space depth ++ ']'::tail)))) =
      some ((first::rest).map (Data.map Scalar.plain),tail) := by
  induction rest with
  | nil =>
    intro first gap tail fuel reads gapped enough
    obtain ⟨fuel,rfl⟩ : ∃ more, fuel = more + 1 := ⟨fuel - 1,by omega⟩
    rw [List.length_append] at enough
    have stop := stops_items space depth [] (stops_char ']' tail (by decide))
    have read := reads first (List.mem_cons_self ..) (depth + 1) gap _ fuel gapped stop (by omega)
    rw [readItems,read]
    simp only [Option.bind_eq_bind,Option.bind_some,stringifyItems,List.nil_append,skip_break space depth (show blank ']' = false by decide)]
    rfl
  | cons second rest ih =>
    intro first gap tail fuel reads gapped enough
    obtain ⟨fuel,rfl⟩ : ∃ more, fuel = more + 1 := ⟨fuel - 1,by omega⟩
    have stop := stops_items space depth (second::rest) (stops_char ']' tail (by decide))
    simp only [List.length_append,stringifyItems,List.cons_append,List.length_cons,List.append_assoc] at enough
    have read := reads first (List.mem_cons_self ..) (depth + 1) gap _ fuel gapped stop (by omega)
    have later := ih second (lineBreak space (depth + 1)) tail fuel (fun item held => reads item (List.mem_cons_of_mem _ held))
      (lineBreak_blank space (depth + 1)) (by rw [List.length_append]; omega)
    rw [readItems,read]
    simp only [Option.bind_eq_bind,Option.bind_some,stringifyItems,List.cons_append,List.append_assoc,
      skip_solid (show blank ',' = false by decide),later]
    rfl

theorem colon_gap (space : Nat) : ∃ gap, colon space = ':'::gap ∧ Blank gap := by
  unfold colon
  split
  · exact ⟨[],rfl,fun _ held => absurd held List.not_mem_nil⟩
  · exact ⟨[' '],rfl,by intro char held; rw [List.mem_singleton.mp held]; rfl⟩

def laterMembers (fuel : Nat) (entry : Units × Json) (rest : Text) : Option (List (Units × Json) × Text) :=
  match skip rest with
  | ','::more => do
    let (members,tail) ← readMembers fuel more
    some (entry::members,tail)
  | '\x7d'::tail => some ([entry],tail)
  | _ => none

theorem member_read (space depth : Nat) (key : Units) (value : Json) (reads : Reads space value) (gapped : Blank gap)
    (stop : Stops rest) (enough : (stringify space (depth + 1) value).length ≤ fuel) :
    readMembers (fuel + 1) (gap ++ (quote key ++ (colon space ++ (stringify space (depth + 1) value ++ rest)))) =
      laterMembers fuel (key,value.map Scalar.plain) rest := by
  obtain ⟨pad,colons,padded⟩ := colon_gap space
  obtain ⟨text,shown,named⟩ := readString_quote key (colon space ++ (stringify space (depth + 1) value ++ rest))
  have read := reads (depth + 1) pad rest fuel padded stop enough
  rw [readMembers,skip_gap gapped,shown,skip_solid (by decide)]
  simp only [named,Option.bind_eq_bind,Option.bind_some,colons,List.cons_append,skip_solid (show blank ':' = false by decide),read]
  rfl

theorem members_read (space depth : Nat) (rest : List (Units × Json)) : ∀ (key : Units) (first : Json) (gap tail : Text) (fuel : Nat),
    (∀ entry ∈ (key,first)::rest, Reads space entry.2) → Blank gap →
    (quote key ++ (colon space ++ (stringify space (depth + 1) first ++ stringifyMembers space depth rest))).length < fuel →
    readMembers fuel (gap ++ (quote key ++ (colon space ++ (stringify space (depth + 1) first ++
      (stringifyMembers space depth rest ++ (lineBreak space depth ++ '\x7d'::tail)))))) =
      some (renewed (Data.map Scalar.plain) ((key,first)::rest),tail) := by
  induction rest with
  | nil =>
    intro key first gap tail fuel reads gapped enough
    obtain ⟨fuel,rfl⟩ : ∃ more, fuel = more + 1 := ⟨fuel - 1,by omega⟩
    simp only [List.length_append] at enough
    have stop := stops_members space depth [] (stops_char '\x7d' tail (by decide))
    rw [member_read space depth key first (reads (key,first) (List.mem_cons_self ..)) gapped stop (by omega)]
    simp only [laterMembers,stringifyMembers,List.nil_append,skip_break space depth (show blank '\x7d' = false by decide)]
    rfl
  | cons second rest ih =>
    intro key first gap tail fuel reads gapped enough
    obtain ⟨fuel,rfl⟩ : ∃ more, fuel = more + 1 := ⟨fuel - 1,by omega⟩
    obtain ⟨other,value⟩ := second
    have stop := stops_members space depth ((other,value)::rest) (stops_char '\x7d' tail (by decide))
    simp only [List.length_append,stringifyMembers,List.cons_append,List.length_cons,List.append_assoc] at enough
    have later := ih other value (lineBreak space (depth + 1)) tail fuel (fun entry held => reads entry (List.mem_cons_of_mem _ held))
      (lineBreak_blank space (depth + 1)) (by simp only [List.length_append]; omega)
    rw [member_read space depth key first (reads (key,first) (List.mem_cons_self ..)) gapped stop (by omega)]
    simp only [laterMembers,stringifyMembers,List.cons_append,List.append_assoc,skip_solid (show blank ',' = false by decide),later,
      Option.bind_eq_bind,Option.bind_some]
    rfl

theorem open_array (space depth : Nat) (first : Json) (text : Text) :
    ∀ tail, skip (lineBreak space (depth + 1) ++ (stringify space (depth + 1) first ++ text)) ≠ ']'::tail := by
  obtain ⟨char,rest,shown,solid,other,_⟩ := stringify_first space (depth + 1) first
  intro tail same
  rw [shown,List.cons_append,skip_break space (depth + 1) solid] at same
  exact other (List.cons.inj same).1

theorem array_reads (space : Nat) (items : List Json) (reads : ∀ item ∈ items, Reads space item) : Reads space (.array items) := by
  intro depth gap rest fuel gapped _ enough
  obtain ⟨fuel,rfl⟩ := fuel_some enough
  cases items with
  | nil =>
    rw [readValue,skip_gap gapped]
    rfl
  | cons first more =>
    simp only [stringify,List.cons_append,List.length_cons,List.length_append,List.append_assoc] at enough ⊢
    have inner := items_read space depth more first (lineBreak space (depth + 1)) rest fuel reads
      (lineBreak_blank space (depth + 1)) (by rw [List.length_append]; omega)
    rw [readValue,skip_gap gapped,skip_solid (by decide)]
    simp only []
    split
    · next found => exact absurd found (open_array space depth first _ _)
    · simp only [List.nil_append,inner,Option.bind_eq_bind,Option.bind_some]
      rw [Data.map,mapItems_eq]

theorem object_reads (space : Nat) (members : List (Units × Json)) (created : create members = members)
    (reads : ∀ entry ∈ members, Reads space entry.2) : Reads space (.object members) := by
  intro depth gap rest fuel gapped _ enough
  obtain ⟨fuel,rfl⟩ := fuel_some enough
  cases members with
  | nil =>
    rw [readValue,skip_gap gapped]
    rfl
  | cons entry more =>
    obtain ⟨key,first⟩ := entry
    simp only [stringify,List.cons_append,List.length_cons,List.length_append,List.append_assoc] at enough ⊢
    have inner := members_read space depth more key first (lineBreak space (depth + 1)) rest fuel reads
      (lineBreak_blank space (depth + 1)) (by simp only [List.length_append]; omega)
    rw [readValue,skip_gap gapped,skip_solid (by decide)]
    simp only []
    split
    · next found =>
      rw [quote,List.cons_append,List.cons_append,skip_break space (depth + 1) (by decide)] at found
      exact absurd (List.cons.inj found).1 (by decide)
    · simp only [List.nil_append,inner,Option.bind_eq_bind,Option.bind_some]
      rw [renewed_create,created,Data.map,mapMembers_eq]

theorem value_reads (space : Nat) (value : Json) (owned : value.Owned) (finite : value.Each Scalar.Finite) : Reads space value := by
  induction value using Data.grown with
  | leaf value => exact leaf_reads space value finite
  | array items ih =>
    refine array_reads space items fun item held => ih item held ?_ ?_
    · exact itemsOwned_iff.mp owned item held
    · exact itemsEach_iff.mp finite item held
  | object members ih =>
    refine object_reads space members owned.1 fun entry held => ih entry held ?_ ?_
    · exact membersOwned_iff.mp owned.2 entry held
    · exact membersEach_iff.mp finite entry held

-- JSON.parse reads back what JSON.stringify wrote, with blanks around it.
theorem parse_stringify (space : Nat) (value : Json) (owned : value.Owned) (finite : value.Each Scalar.Finite) (blanks : Blank rest) :
    parse (stringify space 0 value ++ rest) = some (value.map Scalar.plain) := by
  have stop : Stops rest := by
    intro char first
    have space := blanks char (List.mem_of_mem_head? first)
    simp only [JsonText.blank,Bool.or_eq_true,decide_eq_true_eq] at space
    rcases space with ((rfl | rfl) | rfl) | rfl <;> decide
  have read := value_reads space value owned finite 0 [] rest ((stringify space 0 value ++ rest).length + 1)
    (fun _ held => absurd held List.not_mem_nil) stop (by rw [List.length_append]; omega)
  have ended : skip rest = [] := by
    have gone := skip_gap blanks []
    rwa [List.append_nil] at gone
  rw [List.nil_append] at read
  rw [parse,read]
  simp only [Option.bind_eq_bind,Option.bind_some,ended,if_true]

end Zveltio.JsonReading
