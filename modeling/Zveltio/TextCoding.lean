import Zveltio.Codecs
import Zveltio.JsValues
namespace Zveltio.TextCoding
open IpText (Text)
open Codecs (Bytes)
open JsValues

def replacement : Char := '\ufffd'

-- TextEncoder: a surrogate that stands alone becomes the replacement character.
def lone (unit : UInt16) : Char := if leading unit || trailing unit then replacement else Char.ofNat unit.toNat

def scalars : Units → Text
  | [] => []
  | [unit] => [lone unit]
  | high::low::rest => if leading high && trailing low then paired high low::scalars rest else lone high::scalars (low::rest)

def utf8 (text : Text) : Bytes := text.flatMap String.utf8EncodeChar

def textEncoder (value : Units) : Bytes := utf8 (scalars value)

-- The decoder of UTF-8, byte by byte: the bits so far, the bytes still needed and the bounds of the next.
structure Decoding where
  code : Nat
  needed : Nat
  lower : Nat
  upper : Nat

def idle : Decoding := ⟨0,0,128,191⟩

def first (byte : Nat) : Decoding × Text :=
  if byte < 128 then (idle,[Char.ofNat byte])
  else if 194 ≤ byte ∧ byte < 224 then (⟨byte - 192,1,128,191⟩,[])
  else if 224 ≤ byte ∧ byte < 240 then
    (⟨byte - 224,2,if byte = 224 then 160 else 128,if byte = 237 then 159 else 191⟩,[])
  else if 240 ≤ byte ∧ byte < 245 then
    (⟨byte - 240,3,if byte = 240 then 144 else 128,if byte = 244 then 143 else 191⟩,[])
  else (idle,[replacement])

-- A byte out of bounds ends the character and is read again.
def step (state : Decoding) (byte : Nat) : Decoding × Text :=
  if state.needed = 0 then first byte
  else if state.lower ≤ byte ∧ byte ≤ state.upper then
    let code := state.code * 64 + (byte - 128)
    if state.needed = 1 then (idle,[Char.ofNat code]) else (⟨code,state.needed - 1,128,191⟩,[])
  else ((first byte).1,replacement::(first byte).2)

def readUtf8 (state : Decoding) : Bytes → Text
  | [] => if state.needed = 0 then [] else [replacement]
  | byte::rest => (step state byte.toNat).2 ++ readUtf8 (step state byte.toNat).1 rest

def mark : Char := '\ufeff'

-- TextDecoder leaves out a byte order mark in front.
def textDecoder (bytes : Bytes) : Text :=
  let text := readUtf8 idle bytes
  if text.head? = some mark then text.tail else text

-- The same decoder given a stream in chunks; the mark is left out once, in front of everything.
structure TextDecoder where
  bits : Decoding
  seen : Bool

def TextDecoder.fresh : TextDecoder := ⟨idle,false⟩

def readChunk (state : Decoding) : Bytes → Decoding × Text
  | [] => (state,[])
  | byte::rest =>
    let (next,text) := step state byte.toNat
    let (last,later) := readChunk next rest
    (last,text ++ later)

def bare (seen : Bool) (text : Text) : Text := if !seen && text.head? = some mark then text.tail else text

def TextDecoder.decode (decoder : TextDecoder) (chunk : Bytes) : TextDecoder × Text :=
  let (bits,text) := readChunk decoder.bits chunk
  (⟨bits,decoder.seen || !text.isEmpty⟩,bare decoder.seen text)

def TextDecoder.flush (decoder : TextDecoder) : Text := bare decoder.seen (readUtf8 decoder.bits [])

def TextDecoder.stream (decoder : TextDecoder) : List Bytes → Text
  | [] => decoder.flush
  | chunk::rest => (decoder.decode chunk).2 ++ (decoder.decode chunk).1.stream rest

-- A string by its code units; a surrogate is none of the characters a reader of plain texts knows.
def chars (value : Units) : Text := value.map fun unit => Char.ofNat unit.toNat

theorem scalars_single (unit : UInt16) (alone : (leading unit || trailing unit) = false) (rest : Units) :
    scalars (unit::rest) = Char.ofNat unit.toNat::scalars rest := by
  have here : lone unit = Char.ofNat unit.toNat := if_neg (by rw [alone]; exact Bool.false_ne_true)
  cases rest with
  | nil => exact congrArg (fun char => [char]) here
  | cons low rest =>
    have first : leading unit = false := (Bool.or_eq_false_iff.mp alone).1
    rw [scalars,first,Bool.false_and,if_neg Bool.false_ne_true,here]

theorem valid_char (char : Char) : char.toNat < 55296 ∨ 57343 < char.toNat ∧ char.toNat < 1114112 := char.valid

theorem scalars_utf16 (char : Char) (rest : Units) : scalars (utf16 char ++ rest) = char::scalars rest := by
  have valid := valid_char char
  unfold utf16
  split
  · next small =>
    have value : (UInt16.ofNat char.toNat).toNat = char.toNat := UInt16.toNat_ofNat_of_lt' small
    have alone : (leading (UInt16.ofNat char.toNat) || trailing (UInt16.ofNat char.toNat)) = false := by
      simp only [leading,trailing,value,Bool.or_eq_false_iff,Bool.and_eq_false_iff,decide_eq_false_iff_not]
      omega
    rw [List.singleton_append,scalars_single _ alone,value,Char.ofNat_toNat]
  · next large =>
    have high : (UInt16.ofNat (55296 + (char.toNat - 65536) / 1024)).toNat = 55296 + (char.toNat - 65536) / 1024 :=
      UInt16.toNat_ofNat_of_lt' (by show _ < 65536; omega)
    have low : (UInt16.ofNat (56320 + (char.toNat - 65536) % 1024)).toNat = 56320 + (char.toNat - 65536) % 1024 :=
      UInt16.toNat_ofNat_of_lt' (by show _ < 65536; omega)
    have first : leading (UInt16.ofNat (55296 + (char.toNat - 65536) / 1024)) = true := by
      simp only [leading,high,Bool.and_eq_true,decide_eq_true_eq]
      omega
    have second : trailing (UInt16.ofNat (56320 + (char.toNat - 65536) % 1024)) = true := by
      simp only [trailing,low,Bool.and_eq_true,decide_eq_true_eq]
      omega
    have whole : paired (UInt16.ofNat (55296 + (char.toNat - 65536) / 1024)) (UInt16.ofNat (56320 + (char.toNat - 65536) % 1024)) =
        char := by
      rw [paired,high,low,show 65536 + (55296 + (char.toNat - 65536) / 1024 - 55296) * 1024 +
        (56320 + (char.toNat - 65536) % 1024 - 56320) = char.toNat by omega,Char.ofNat_toNat]
    rw [List.cons_append,List.cons_append,List.nil_append,scalars,first,second,Bool.and_self,if_pos rfl,whole]

theorem scalars_units (text : Text) : scalars (units text) = text := by
  induction text with
  | nil => rfl
  | cons char rest ih =>
    have front : units (char::rest) = utf16 char ++ units rest := rfl
    rw [front,scalars_utf16,ih]

theorem chars_units {value : Text} (narrow : ∀ char ∈ value, char.toNat < 65536) : chars (units value) = value := by
  induction value with
  | nil => rfl
  | cons char rest ih =>
    have small := narrow char (List.mem_cons_self ..)
    have back : Char.ofNat (UInt16.ofNat char.toNat).toNat = char := by
      rw [UInt16.toNat_ofNat_of_lt' small,Char.ofNat_toNat]
    rw [units,List.flatMap_cons,utf16,if_pos small,chars,List.singleton_append,List.map_cons,back]
    exact congrArg (char::·) (ih fun other held => narrow other (List.mem_cons_of_mem _ held))

theorem first_two (small : 2 ≤ high) (large : high < 32) : first (high + 192) = (⟨high,1,128,191⟩,[]) := by
  unfold first
  rw [if_neg (by omega),if_pos ⟨by omega,by omega⟩,Nat.add_sub_cancel]

theorem first_three (large : high < 16) :
    first (high + 224) = (⟨high,2,if high = 0 then 160 else 128,if high = 13 then 159 else 191⟩,[]) := by
  unfold first
  rw [if_neg (by omega),if_neg (by omega),if_pos ⟨by omega,by omega⟩,Nat.add_sub_cancel]
  simp only [Nat.add_eq_right,show high + 224 = 237 ↔ high = 13 by omega]

theorem first_four (large : high < 5) :
    first (high + 240) = (⟨high,3,if high = 0 then 144 else 128,if high = 4 then 143 else 191⟩,[]) := by
  unfold first
  rw [if_neg (by omega),if_neg (by omega),if_neg (by omega),if_pos ⟨by omega,by omega⟩,Nat.add_sub_cancel]
  simp only [Nat.add_eq_right,show high + 240 = 244 ↔ high = 4 by omega]

theorem step_idle (byte : Nat) : step idle byte = first byte := if_pos rfl

theorem step_more {state : Decoding} (needed : state.needed = more + 2) (low : state.lower ≤ next + 128) (high : next + 128 ≤ state.upper) :
    step state (next + 128) = (⟨state.code * 64 + next,more + 1,128,191⟩,[]) := by
  unfold step
  rw [needed,if_neg (by omega),if_pos ⟨low,high⟩,if_neg (by omega),Nat.add_sub_cancel]
  rfl

theorem step_last {state : Decoding} (needed : state.needed = 1) (low : state.lower ≤ next + 128) (high : next + 128 ≤ state.upper) :
    step state (next + 128) = (idle,[Char.ofNat (state.code * 64 + next)]) := by
  unfold step
  rw [needed,if_neg (by decide),if_pos ⟨low,high⟩,if_pos rfl,Nat.add_sub_cancel]

theorem readUtf8_byte (state : Decoding) (small : value < 256) (rest : Bytes) :
    readUtf8 state (UInt8.ofNat value::rest) = (step state value).2 ++ readUtf8 (step state value).1 rest := by
  rw [readUtf8,UInt8.toNat_ofNat_of_lt' small]

theorem readUtf8_char (char : Char) (rest : Bytes) :
    readUtf8 idle (String.utf8EncodeChar char ++ rest) = char::readUtf8 idle rest := by
  have valid := valid_char char
  have whole := Char.ofNat_toNat char
  have shown : String.utf8EncodeChar char = if char.toNat ≤ 127 then [UInt8.ofNat char.toNat]
      else if char.toNat ≤ 2047 then [UInt8.ofNat (char.toNat / 64 % 32 + 192),UInt8.ofNat (char.toNat % 64 + 128)]
      else if char.toNat ≤ 65535 then [UInt8.ofNat (char.toNat / 4096 % 16 + 224),UInt8.ofNat (char.toNat / 64 % 64 + 128),
        UInt8.ofNat (char.toNat % 64 + 128)]
      else [UInt8.ofNat (char.toNat / 262144 % 8 + 240),UInt8.ofNat (char.toNat / 4096 % 64 + 128),
        UInt8.ofNat (char.toNat / 64 % 64 + 128),UInt8.ofNat (char.toNat % 64 + 128)] := rfl
  rw [shown]
  generalize char.toNat = value at valid whole
  split
  · next one =>
    rw [List.cons_append,readUtf8_byte idle (by omega),step_idle,first,if_pos (by omega),whole]
    rfl
  split
  · next two =>
    rw [List.cons_append,readUtf8_byte idle (by omega),step_idle,first_two (by omega) (by omega),List.cons_append,
      readUtf8_byte _ (by omega),step_last rfl (by dsimp only; omega) (by dsimp only; omega)]
    dsimp only
    rw [show value / 64 % 32 * 64 + value % 64 = value by omega,whole]
    rfl
  split
  · next three =>
    rw [List.cons_append,readUtf8_byte idle (by omega),step_idle,first_three (by omega),List.cons_append,
      readUtf8_byte _ (by omega),step_more rfl (by dsimp only; split <;> omega) (by dsimp only; split <;> omega),List.cons_append,
      readUtf8_byte _ (by omega),step_last rfl (by dsimp only; omega) (by dsimp only; omega)]
    dsimp only
    rw [show (value / 4096 % 16 * 64 + value / 64 % 64) * 64 + value % 64 = value by omega,whole]
    rfl
  · next four =>
    rw [List.cons_append,readUtf8_byte idle (by omega),step_idle,first_four (by omega),List.cons_append,
      readUtf8_byte _ (by omega),step_more rfl (by dsimp only; split <;> omega) (by dsimp only; split <;> omega),List.cons_append,
      readUtf8_byte _ (by omega),step_more rfl (by dsimp only; omega) (by dsimp only; omega),List.cons_append,
      readUtf8_byte _ (by omega),step_last rfl (by dsimp only; omega) (by dsimp only; omega)]
    dsimp only
    rw [show ((value / 262144 % 8 * 64 + value / 4096 % 64) * 64 + value / 64 % 64) * 64 + value % 64 = value by omega,whole]
    rfl

theorem readUtf8_utf8 (text : Text) : readUtf8 idle (utf8 text) = text := by
  induction text with
  | nil => rfl
  | cons char rest ih =>
    have front : utf8 (char::rest) = String.utf8EncodeChar char ++ utf8 rest := rfl
    rw [front,readUtf8_char,ih]

theorem utf8_injective : Function.Injective utf8 := by
  intro one other same
  have read := congrArg (readUtf8 idle) same
  rwa [readUtf8_utf8,readUtf8_utf8] at read

theorem textDecoder_utf8 {text : Text} (unmarked : text.head? ≠ some mark) : textDecoder (utf8 text) = text := by
  rw [textDecoder,readUtf8_utf8,if_neg unmarked]

theorem readUtf8_chunk (state : Decoding) (chunk rest : Bytes) :
    readUtf8 state (chunk ++ rest) = (readChunk state chunk).2 ++ readUtf8 (readChunk state chunk).1 rest := by
  induction chunk generalizing state with
  | nil => rfl
  | cons byte later ih => rw [List.cons_append,readUtf8,readChunk,ih,← List.append_assoc]

theorem bare_append (seen : Bool) (text more : Text) : bare seen (text ++ more) = bare seen text ++ bare (seen || !text.isEmpty) more := by
  cases seen with
  | true => rfl
  | false =>
    cases text with
    | nil => rfl
    | cons char rest =>
      by_cases marked : char = mark
      · simp [bare,marked]
      · simp [bare,marked]

theorem stream_flatten (decoder : TextDecoder) (chunks : List Bytes) :
    decoder.stream chunks = bare decoder.seen (readUtf8 decoder.bits chunks.flatten) := by
  induction chunks generalizing decoder with
  | nil => rfl
  | cons chunk rest ih =>
    rw [TextDecoder.stream,ih,List.flatten_cons,readUtf8_chunk,bare_append]
    rfl

theorem stream_fresh (chunks : List Bytes) : TextDecoder.fresh.stream chunks = textDecoder chunks.flatten := by
  rw [stream_flatten,textDecoder,bare]
  exact if_congr decide_eq_true_iff rfl rfl

end Zveltio.TextCoding
