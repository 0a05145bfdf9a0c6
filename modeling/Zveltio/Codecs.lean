import Zveltio.IpText
import Mathlib.Data.List.Nodup
import Mathlib.Data.Bool.AllAny
namespace Zveltio.Codecs
open IpText (Text digit digit_exact)

abbrev Bytes := List UInt8

def sextets : Bytes → List Nat
  | [] => []
  | [one] => [one.toNat / 4,one.toNat % 4 * 16]
  | [one,two] => [one.toNat / 4,one.toNat % 4 * 16 + two.toNat / 16,two.toNat % 16 * 4]
  | one::two::three::rest =>
    one.toNat / 4::(one.toNat % 4 * 16 + two.toNat / 16)::(two.toNat % 16 * 4 + three.toNat / 64)::three.toNat % 64::sextets rest

def bytesOf : List Nat → Bytes
  | a::b::c::d::rest =>
    UInt8.ofNat (a * 4 + b / 16)::UInt8.ofNat (b % 16 * 16 + c / 4)::UInt8.ofNat (c % 4 * 64 + d)::bytesOf rest
  | [a,b,c] => [UInt8.ofNat (a * 4 + b / 16),UInt8.ofNat (b % 16 * 16 + c / 4)]
  | [a,b] => [UInt8.ofNat (a * 4 + b / 16)]
  | _ => []

def ALPHABET : Text := "ABCDEFGHIJKLMNOPQRSTUVWXYZabcdefghijklmnopqrstuvwxyz0123456789+/".toList

def letter (value : Nat) : Char := ALPHABET.getD value 'A'

def letterValue (char : Char) : Option Nat := ALPHABET.idxOf? char

def letters (bytes : Bytes) : Text := (sextets bytes).map letter

-- Buffer.toString('base64')
def toBase64 (bytes : Bytes) : Text := letters bytes ++ List.replicate ((3 - bytes.length % 3) % 3) '='

def asciiSpace (char : Char) : Bool := char = ' ' || char = '\t' || char = '\n' || char = '\x0c' || char = '\x0d'

def unpadded (text : Text) : Text :=
  if text.length % 4 = 0 then
    match text.reverse with
    | '=':: '='::rest => rest.reverse
    | '='::rest => rest.reverse
    | _ => text
  else text

def atob (text : Text) : Option Bytes :=
  let clean := unpadded (text.filter fun char => !asciiSpace char)
  if clean.length % 4 = 1 then none else (clean.mapM letterValue).map bytesOf

-- Buffer.from(text, 'base64'): both alphabets, what is in neither is passed over, and = ends it.
def bufferFrom (text : Text) : Bytes :=
  bytesOf ((text.takeWhile fun char => char ≠ '=').filterMap fun char =>
    letterValue (if char = '-' then '+' else if char = '_' then '/' else char))

-- b.toString(16).padStart(2, '0') of each byte
def toHex (bytes : Bytes) : Text := bytes.flatMap fun byte => [Nat.digitChar (byte.toNat / 16),Nat.digitChar (byte.toNat % 16)]

theorem sextets_small (bytes : Bytes) : ∀ value ∈ sextets bytes, value < 64 := by
  fun_induction sextets bytes with
  | case1 => simp
  | case2 one =>
    have := one.toNat_lt
    simp only [List.mem_cons,List.not_mem_nil,or_false]
    rintro value (rfl | rfl) <;> omega
  | case3 one two =>
    have := one.toNat_lt
    have := two.toNat_lt
    simp only [List.mem_cons,List.not_mem_nil,or_false]
    rintro value (rfl | rfl | rfl) <;> omega
  | case4 one two three rest ih =>
    have := one.toNat_lt
    have := two.toNat_lt
    have := three.toNat_lt
    simp only [List.mem_cons]
    rintro value (rfl | rfl | rfl | rfl | later)
    · omega
    · omega
    · omega
    · omega
    · exact ih value later

theorem bytesOf_sextets (bytes : Bytes) : bytesOf (sextets bytes) = bytes := by
  have back : ∀ (value : Nat) (byte : UInt8), value = byte.toNat → UInt8.ofNat value = byte := by
    rintro value byte rfl
    exact UInt8.ofNat_toNat
  fun_induction sextets bytes with
  | case1 => rfl
  | case2 one => rw [bytesOf,back _ one (by omega)]
  | case3 one two =>
    have := two.toNat_lt
    rw [bytesOf,back _ one (by omega),back _ two (by omega)]
  | case4 one two three rest ih =>
    have := two.toNat_lt
    have := three.toNat_lt
    rw [bytesOf,ih,back _ one (by omega),back _ two (by omega),back _ three (by omega)]

-- The alphabet is spelled out once; what is decided about its letters goes along that list.
theorem alphabet_chars : ALPHABET = ['A','B','C','D','E','F','G','H','I','J','K','L','M','N','O','P','Q','R','S','T','U','V','W','X','Y','Z',
    'a','b','c','d','e','f','g','h','i','j','k','l','m','n','o','p','q','r','s','t','u','v','w','x','y','z',
    '0','1','2','3','4','5','6','7','8','9','+','/'] := String.toList_ofList

theorem alphabet_nodup : ALPHABET.Nodup := by
  have codes : ALPHABET.map Char.toNat = List.range' 65 26 ++ List.range' 97 26 ++ List.range' 48 10 ++ [43,47] := by
    rw [alphabet_chars]
    rfl
  refine List.Nodup.of_map Char.toNat ?_
  rw [codes]
  decide +kernel

theorem letter_back : ∀ value < 64, letterValue (letter value) = some value := by
  intro value small
  have inside : value < ALPHABET.length := by
    rw [alphabet_chars]
    exact small
  rw [letterValue,letter,List.getD_eq_getElem?_getD,List.getElem?_eq_getElem inside,Option.getD_some]
  refine List.idxOf?_eq_some_iff.mpr ⟨inside,rfl,fun earlier before same => ?_⟩
  exact absurd ((List.Nodup.getElem_inj_iff alphabet_nodup).mp same) (Nat.ne_of_lt before)

theorem letter_plain : ∀ value < 64, letter value ≠ '=' ∧ letter value ≠ '-' ∧ letter value ≠ '_' ∧
    asciiSpace (letter value) = false := by
  have all : ∀ char ∈ 'A'::ALPHABET, char ≠ '=' ∧ char ≠ '-' ∧ char ≠ '_' ∧ asciiSpace char = false := by
    rw [alphabet_chars]
    exact List.all_iff_forall_prop.mp (by decide)
  intro value _
  refine all _ ?_
  rw [letter,List.getD_eq_getElem?_getD]
  cases found : ALPHABET[value]? with
  | none => exact List.mem_cons_self ..
  | some char => exact List.mem_cons_of_mem _ (List.mem_of_getElem? found)

theorem letters_plain {bytes : Bytes} (held : char ∈ letters bytes) :
    char ≠ '=' ∧ char ≠ '-' ∧ char ≠ '_' ∧ asciiSpace char = false := by
  obtain ⟨value,inside,rfl⟩ := List.mem_map.mp held
  exact letter_plain value (sextets_small bytes value inside)

theorem letters_values (bytes : Bytes) : (letters bytes).mapM letterValue = some (sextets bytes) := by
  have small := sextets_small bytes
  rw [letters]
  generalize sextets bytes = values at small
  induction values with
  | nil => rfl
  | cons value rest ih =>
    rw [List.map_cons,List.mapM_cons,letter_back value (small value (List.mem_cons_self ..)),
      ih fun later held => small later (List.mem_cons_of_mem _ held)]
    rfl

theorem letters_length (bytes : Bytes) : (letters bytes).length % 4 = if bytes.length % 3 = 0 then 0 else bytes.length % 3 + 1 := by
  rw [letters,List.length_map]
  fun_induction sextets bytes with
  | case1 => rfl
  | case2 => rfl
  | case3 => rfl
  | case4 one two three rest ih =>
    simp only [List.length_cons]
    rw [show (sextets rest).length + 1 + 1 + 1 + 1 = (sextets rest).length + 4 by omega,Nat.add_mod_right,ih,
      show rest.length + 1 + 1 + 1 = rest.length + 3 by omega,Nat.add_mod_right]

theorem unpadded_letters (bytes : Bytes) : unpadded (letters bytes) = letters bytes := by
  have solid : (letters bytes).reverse.head? ≠ some '=' := by
    intro last
    exact (letters_plain (List.mem_reverse.mp (List.mem_of_mem_head? last))).1 rfl
  unfold unpadded
  split
  · split
    · next same => rw [same] at solid; exact absurd rfl solid
    · next same => rw [same] at solid; exact absurd rfl solid
    · rfl
  · rfl

theorem unpadded_toBase64 (bytes : Bytes) : unpadded (toBase64 bytes) = letters bytes := by
  have size := letters_length bytes
  have solid : (letters bytes).reverse.head? ≠ some '=' := by
    intro last
    exact (letters_plain (List.mem_reverse.mp (List.mem_of_mem_head? last))).1 rfl
  have bound := Nat.mod_lt bytes.length (show 0 < 3 by decide)
  have whole : (toBase64 bytes).length % 4 = 0 := by
    rw [toBase64,List.length_append,List.length_replicate,Nat.add_mod,size]
    split <;> omega
  rcases (show bytes.length % 3 = 0 ∨ bytes.length % 3 = 1 ∨ bytes.length % 3 = 2 by omega) with none_ | one | two
  · rw [toBase64,none_]
    simpa using unpadded_letters bytes
  · rw [unpadded,if_pos whole,toBase64,one]
    simp
  · rw [unpadded,if_pos whole,toBase64,two]
    simp only [Nat.reduceSub,Nat.reduceMod,List.replicate_one,List.reverse_append,List.reverse_singleton,List.singleton_append]
    split
    · next same =>
      rw [(List.cons.inj same).2] at solid
      exact absurd rfl solid
    · next same => rw [← (List.cons.inj same).2,List.reverse_reverse]
    · next other => exact absurd rfl (other _)

theorem clean_letters (bytes : Bytes) : (letters bytes).filter (fun char => !asciiSpace char) = letters bytes :=
  List.filter_eq_self.mpr fun char held => by simp [(letters_plain held).2.2.2]

theorem clean_toBase64 (bytes : Bytes) : (toBase64 bytes).filter (fun char => !asciiSpace char) = toBase64 bytes := by
  rw [toBase64,List.filter_append,clean_letters]
  congr 1
  refine List.filter_eq_self.mpr fun char held => ?_
  rw [List.eq_of_mem_replicate held]
  decide

theorem atob_clean (bytes : Bytes) (clean : unpadded (text.filter fun char => !asciiSpace char) = letters bytes) :
    atob text = some bytes := by
  have size := letters_length bytes
  have bound := Nat.mod_lt bytes.length (show 0 < 3 by decide)
  rw [atob,clean,if_neg (by rw [size]; split <;> omega),letters_values,Option.map_some,bytesOf_sextets]

theorem atob_toBase64 (bytes : Bytes) : atob (toBase64 bytes) = some bytes :=
  atob_clean bytes (by rw [clean_toBase64,unpadded_toBase64])

theorem atob_letters (bytes : Bytes) : atob (letters bytes) = some bytes :=
  atob_clean bytes (by rw [clean_letters,unpadded_letters])

theorem bufferFrom_toBase64 (bytes : Bytes) : bufferFrom (toBase64 bytes) = bytes := by
  have front : (toBase64 bytes).takeWhile (fun char => decide (char ≠ '=')) = letters bytes := by
    rw [toBase64,List.takeWhile_append_of_pos fun char held => decide_eq_true (letters_plain held).1]
    cases (3 - bytes.length % 3) % 3 with
    | zero => simp
    | succ count => simp [List.replicate_succ]
  have values : (letters bytes).filterMap (fun char => letterValue (if char = '-' then '+' else if char = '_' then '/' else char)) =
      sextets bytes := by
    have small := sextets_small bytes
    rw [letters]
    generalize sextets bytes = values at small
    induction values with
    | nil => rfl
    | cons value rest ih =>
      have here := small value (List.mem_cons_self ..)
      obtain ⟨_,minus,under,_⟩ := letter_plain value here
      rw [List.map_cons,List.filterMap_cons,if_neg minus,if_neg under,letter_back value here,
        ih fun later held => small later (List.mem_cons_of_mem _ held)]
  rw [bufferFrom,front,values,bytesOf_sextets]

theorem toBase64_narrow (bytes : Bytes) : ∀ char ∈ toBase64 bytes, char.toNat < 65536 := by
  have each : ∀ number < 64, (letter number).toNat < 65536 := by decide +kernel
  intro char held
  rcases List.mem_append.mp held with listed | pad
  · obtain ⟨number,inside,rfl⟩ := List.mem_map.mp listed
    exact each number (sextets_small bytes number inside)
  · rw [List.eq_of_mem_replicate pad]
    decide

theorem toHex_cons (byte : UInt8) (rest : Bytes) :
    toHex (byte::rest) = Nat.digitChar (byte.toNat / 16)::Nat.digitChar (byte.toNat % 16)::toHex rest := rfl

theorem toHex_digits (byte : UInt8) : digit (Nat.digitChar (byte.toNat / 16)) = byte.toNat / 16 ∧
    digit (Nat.digitChar (byte.toNat % 16)) = byte.toNat % 16 := by
  have bound := byte.toNat_lt
  exact ⟨digit_exact _ (by omega),digit_exact _ (by omega)⟩

theorem toHex_injective : Function.Injective toHex := by
  intro one
  induction one with
  | nil =>
    intro other same
    cases other with
    | nil => rfl
    | cons byte rest => cases same
  | cons byte rest ih =>
    intro other same
    cases other with
    | nil => cases same
    | cons next more =>
      rw [toHex_cons,toHex_cons] at same
      obtain ⟨high,same⟩ := List.cons.inj same
      obtain ⟨low,same⟩ := List.cons.inj same
      have front := congrArg digit high
      have back := congrArg digit low
      rw [(toHex_digits byte).1,(toHex_digits next).1] at front
      rw [(toHex_digits byte).2,(toHex_digits next).2] at back
      rw [UInt8.toNat_inj.mp (show byte.toNat = next.toNat by omega),ih same]

end Zveltio.Codecs
