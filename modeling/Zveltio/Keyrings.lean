import Zveltio.TextCoding
import Zveltio.MigrationText
namespace Zveltio.Keyrings
open IpText (Text digit digit_ascii)
open Codecs (Bytes toBase64 atob letters toHex)
open TextCoding
open JsValues (Units units)
open MigrationText (trim lineEnd)
open RowRules (isSpace)

inductive Keyring where
  | field
  | mail
  | ai
  deriving DecidableEq

def FIELD_PREFIX : Text := "enc:v1:".toList

def LEGACY_ENC1_PREFIX : Text := "enc1:".toList

def MAIL_PREFIX : Text := "aes256gcm:".toList

def AI_PREFIX : Text := "aes256gcm-ai:".toList

-- What is read of process.env; none is a variable that is not set.
structure Env where
  FIELD_ENCRYPTION_KEY : Option Text
  MAIL_ENCRYPTION_KEY : Option Text
  AI_KEY_ENCRYPTION_KEY : Option Text
  ZVELTIO_ALLOW_PLAINTEXT_ENCRYPTED_FIELDS : Option Text

-- AES-GCM of the platform: the ciphertext ends in the tag, and what does not decrypt is none.
structure Gcm where
  encrypt (key iv plain : Bytes) : Bytes
  decrypt (key iv cipher : Bytes) : Option Bytes

def Gcm.Inverts (gcm : Gcm) : Prop := ∀ key iv plain, key.length = 32 → iv.length = 12 →
  gcm.decrypt key iv (gcm.encrypt key iv plain) = some plain

-- crypto.getRandomValues(new Uint8Array(12))
abbrev Iv := { bytes : Bytes // bytes.length = 12 }

def keyHexFor (env : Env) (keyring : Keyring) : Text :=
  let raw := if keyring = .mail then env.MAIL_ENCRYPTION_KEY
    else if keyring = .ai then env.AI_KEY_ENCRYPTION_KEY
    else env.FIELD_ENCRYPTION_KEY
  trim (raw.getD [])

def hexDigit (char : Char) : Bool := digit char < 16

-- hex.match(/../g): no pair holds the end of a line.
def pairs : Text → List (Char × Char)
  | one::two::rest =>
    if lineEnd one then pairs (two::rest) else if lineEnd two then pairs rest else (one,two)::pairs rest
  | _ => []

-- Number.parseInt(pair, 16) as a byte takes it; NaN is 0.
def parseInt (pair : Char × Char) : Nat :=
  let low := if digit pair.2 < 16 then digit pair.2 else 0
  if pair.1 = '-' then (256 - low) % 256
  else if pair.1 = '+' ∨ isSpace pair.1 then low
  else if digit pair.1 < 16 then (if digit pair.2 < 16 then digit pair.1 * 16 + low else digit pair.1)
  else 0

def fromHex (hex : Text) : Bytes := (pairs hex).map fun pair => UInt8.ofNat (parseInt pair)

-- none is the MissingKeyError.
def importKey (env : Env) (keyring : Keyring) : Option Bytes :=
  let usable := (keyHexFor env keyring).take 64
  if usable.length < 64 ∨ usable.all hexDigit = false then none else some (fromHex usable)

def isKeyringValue (value : Text) : Bool :=
  FIELD_PREFIX.isPrefixOf value || LEGACY_ENC1_PREFIX.isPrefixOf value || AI_PREFIX.isPrefixOf value || MAIL_PREFIX.isPrefixOf value

def replaced (mark other : Char) (text : Text) : Text := text.map fun char => if char = mark then other else char

def urlSafe (base64 : Text) : Text := (replaced '/' '_' (replaced '+' '-' base64)).filter fun char => char ≠ '='

def encryptWithKeyring (gcm : Gcm) (env : Env) (iv : Iv) (plaintext : Units) (keyring : Keyring) : Option Units := do
  let key ← importKey env keyring
  let ct := gcm.encrypt key iv.val (textEncoder plaintext)
  if keyring = .mail ∨ keyring = .ai then
    let start := if keyring = .mail then MAIL_PREFIX else AI_PREFIX
    some (units (start ++ (toHex iv.val ++ ':'::toHex ct)))
  else some (units (FIELD_PREFIX ++ urlSafe (toBase64 (iv.val ++ ct))))

-- The string is seen by its code units; where the source throws it is none.
def decryptWithKeyring (gcm : Gcm) (env : Env) (value : Units) (keyring : Keyring) : Option Units :=
  let text := chars value
  if isKeyringValue text = false then some value
  else if AI_PREFIX.isPrefixOf text ∨ MAIL_PREFIX.isPrefixOf text then
    let isAi := AI_PREFIX.isPrefixOf text
    match (text.drop (if isAi then AI_PREFIX else MAIL_PREFIX).length).splitOn ':' with
    | ivHex::ctHex::_ => do
      let key ← importKey env (if isAi then .ai else .mail)
      let plain ← gcm.decrypt key (fromHex ivHex) (fromHex ctHex)
      some (units (textDecoder plain))
    | _ => none
  else if LEGACY_ENC1_PREFIX.isPrefixOf text then do
    let raw ← atob (text.drop LEGACY_ENC1_PREFIX.length)
    let key ← importKey env .field
    let plain ← gcm.decrypt key (raw.take 12) (raw.drop 28 ++ (raw.take 28).drop 12)
    some (units (textDecoder plain))
  else do
    let combined ← atob (replaced '_' '/' (replaced '-' '+' (text.drop FIELD_PREFIX.length)))
    let key ← importKey env (if keyring = .mail then .mail else .field)
    let plain ← gcm.decrypt key (combined.take 12) (combined.drop 12)
    some (units (textDecoder plain))

theorem pair_digits : ∀ high < 16, ∀ low < 16, lineEnd (Nat.digitChar high) = false ∧ lineEnd (Nat.digitChar low) = false ∧
    parseInt (Nat.digitChar high,Nat.digitChar low) = high * 16 + low := by decide +kernel

theorem fromHex_toHex (bytes : Bytes) : fromHex (toHex bytes) = bytes := by
  induction bytes with
  | nil => rfl
  | cons byte rest ih =>
    have bound := byte.toNat_lt
    obtain ⟨first,second,read⟩ := pair_digits (byte.toNat / 16) (by omega) (byte.toNat % 16) (by omega)
    rw [Codecs.toHex_cons,fromHex,pairs,if_neg (by rw [first]; decide),if_neg (by rw [second]; decide),List.map_cons,← fromHex,ih,
      read,show byte.toNat / 16 * 16 + byte.toNat % 16 = byte.toNat by omega,UInt8.ofNat_toNat]

theorem hex_plain : ∀ number < 16, Nat.digitChar number ≠ ':' ∧ (Nat.digitChar number).toNat < 65536 := by decide +kernel

theorem toHex_plain (bytes : Bytes) (held : char ∈ toHex bytes) : char ≠ ':' ∧ char.toNat < 65536 := by
  obtain ⟨byte,_,listed⟩ := List.mem_flatMap.mp held
  have bound := byte.toNat_lt
  rcases List.mem_cons.mp listed with rfl | last
  · exact hex_plain _ (by omega)
  · rw [List.mem_singleton.mp last]
    exact hex_plain _ (by omega)

theorem split_hex (iv ct : Bytes) : (toHex iv ++ ':'::toHex ct).splitOn ':' = [toHex iv,toHex ct] := by
  have clear : ∀ bytes, ':' ∉ toHex bytes := fun bytes held => (toHex_plain bytes held).1 rfl
  rw [List.splitOn_append_cons_self_of_not_mem (clear iv),List.splitOn_eq_singleton (clear ct)]

theorem hexDigit_solid {char : Char} (hexadecimal : hexDigit char = true) : isSpace char = false ∧ lineEnd char = false := by
  have table : ∀ number < 128, hexDigit (Char.ofNat number) = true →
      isSpace (Char.ofNat number) = false ∧ lineEnd (Char.ofNat number) = false := by decide +kernel
  have same := table char.toNat (digit_ascii (of_decide_eq_true hexadecimal))
  rw [Char.ofNat_toNat] at same
  exact same hexadecimal

theorem fromHex_size {hex : Text} (digits : ∀ char ∈ hex, hexDigit char = true) : (fromHex hex).length = hex.length / 2 := by
  rw [fromHex,List.length_map]
  fun_induction pairs hex with
  | case1 one two rest ended _ => exact absurd ended (by rw [(hexDigit_solid (digits one (by simp))).2]; decide)
  | case2 one two rest _ ended _ => exact absurd ended (by rw [(hexDigit_solid (digits two (by simp))).2]; decide)
  | case3 one two rest _ _ ih =>
    rw [List.length_cons,ih fun char held => digits char (List.mem_cons_of_mem _ (List.mem_cons_of_mem _ held)),List.length_cons,
      List.length_cons]
    omega
  | case4 hex short =>
    match hex with
    | [] => rfl
    | [_] => exact (Nat.div_eq_of_lt (show 1 < 2 by decide)).symm
    | one::two::rest => exact absurd rfl (short one two rest)

theorem importKey_size {env : Env} (found : importKey env keyring = some key) : key.length = 32 := by
  unfold importKey at found
  dsimp only at found
  split at found
  · cases found
  · next usable =>
    obtain ⟨long,digits⟩ := not_or.mp usable
    cases found
    rw [fromHex_size (List.all_eq_true.mp (Bool.not_eq_false _ ▸ digits))]
    have short := List.length_take_le 64 (keyHexFor env keyring)
    omega

theorem urlSafe_back (bytes : Bytes) : replaced '_' '/' (replaced '-' '+' (urlSafe (toBase64 bytes))) = letters bytes := by
  have front : urlSafe (toBase64 bytes) = replaced '/' '_' (replaced '+' '-' (letters bytes)) := by
    have kept : ∀ char ∈ replaced '/' '_' (replaced '+' '-' (letters bytes)), decide (char ≠ '=') = true := by
      intro char held
      obtain ⟨other,listed,rfl⟩ := List.mem_map.mp held
      obtain ⟨letter,inside,rfl⟩ := List.mem_map.mp listed
      have plain := (Codecs.letters_plain inside).1
      by_cases plus : letter = '+' <;> by_cases slash : letter = '/' <;> simp [plus,slash,plain]
    have pad : (replaced '/' '_' (replaced '+' '-' (List.replicate ((3 - bytes.length % 3) % 3) '='))).filter
        (fun char => decide (char ≠ '=')) = [] := by simp [replaced]
    have apart : ∀ (mark other : Char) (one two : Text), replaced mark other (one ++ two) = replaced mark other one ++ replaced mark other two :=
      fun mark other one two => List.map_append ..
    rw [urlSafe,toBase64,apart,apart,List.filter_append,List.filter_eq_self.mpr kept,pad,List.append_nil]
  rw [front]
  simp only [replaced,List.map_map]
  refine (List.map_congr_left fun char held => ?_).trans (List.map_id _)
  obtain ⟨_,minus,under,_⟩ := Codecs.letters_plain held
  by_cases plus : char = '+'
  · subst plus
    rfl
  by_cases slash : char = '/'
  · subst slash
    rfl
  simp [plus,slash,minus,under]

theorem starts_plain : ∀ char ∈ FIELD_PREFIX ++ LEGACY_ENC1_PREFIX ++ MAIL_PREFIX ++ AI_PREFIX, char.toNat < 65536 :=
  List.all_iff_forall_prop.mp (by decide +kernel)

theorem chars_enveloped {start body : Text} (known : ∀ char ∈ start, char ∈ FIELD_PREFIX ++ LEGACY_ENC1_PREFIX ++ MAIL_PREFIX ++ AI_PREFIX)
    (plain : ∀ char ∈ body, char.toNat < 65536) : chars (units (start ++ body)) = start ++ body :=
  chars_units (List.forall_mem_append.mpr ⟨fun char held => starts_plain char (known char held),plain⟩)

theorem hex_start (ai : Bool) (body : Text) :
    isKeyringValue ((if ai then AI_PREFIX else MAIL_PREFIX) ++ body) = true ∧
      AI_PREFIX.isPrefixOf ((if ai then AI_PREFIX else MAIL_PREFIX) ++ body) = ai ∧
      MAIL_PREFIX.isPrefixOf ((if ai then AI_PREFIX else MAIL_PREFIX) ++ body) = !ai := by
  cases ai <;> exact ⟨rfl,rfl,rfl⟩

theorem hex_read (gcm : Gcm) (env : Env) (ai : Bool) (iv ct : Bytes) (reader : Keyring) :
    decryptWithKeyring gcm env (units ((if ai then AI_PREFIX else MAIL_PREFIX) ++ (toHex iv ++ ':'::toHex ct))) reader =
      (do
        let key ← importKey env (if ai then .ai else .mail)
        let plain ← gcm.decrypt key iv ct
        some (units (textDecoder plain))) := by
  have plain : ∀ char ∈ toHex iv ++ ':'::toHex ct, char.toNat < 65536 := by
    refine List.forall_mem_append.mpr ⟨fun char held => (toHex_plain iv held).2,List.forall_mem_cons.mpr ⟨by decide,?_⟩⟩
    exact fun char held => (toHex_plain ct held).2
  have start : ∀ char ∈ if ai then AI_PREFIX else MAIL_PREFIX, char ∈ FIELD_PREFIX ++ LEGACY_ENC1_PREFIX ++ MAIL_PREFIX ++ AI_PREFIX := by
    cases ai <;> simp +contextual
  have shown := chars_enveloped start plain
  obtain ⟨known,first,second⟩ := hex_start ai (toHex iv ++ ':'::toHex ct)
  unfold decryptWithKeyring
  simp only [shown,known,first,second,Bool.true_eq_false,if_false]
  rw [if_pos (by cases ai <;> simp),List.drop_left' rfl,split_hex]
  simp only [fromHex_toHex]

theorem legacy_start (body : Text) : isKeyringValue (LEGACY_ENC1_PREFIX ++ body) = true ∧
    AI_PREFIX.isPrefixOf (LEGACY_ENC1_PREFIX ++ body) = false ∧ MAIL_PREFIX.isPrefixOf (LEGACY_ENC1_PREFIX ++ body) = false ∧
      LEGACY_ENC1_PREFIX.isPrefixOf (LEGACY_ENC1_PREFIX ++ body) = true := ⟨rfl,rfl,rfl,rfl⟩

theorem field_start (body : Text) : isKeyringValue (FIELD_PREFIX ++ body) = true ∧
    AI_PREFIX.isPrefixOf (FIELD_PREFIX ++ body) = false ∧ MAIL_PREFIX.isPrefixOf (FIELD_PREFIX ++ body) = false ∧
      LEGACY_ENC1_PREFIX.isPrefixOf (FIELD_PREFIX ++ body) = false := ⟨rfl,rfl,rfl,rfl⟩

theorem replaced_narrow {mark other : Char} {text : Text} (small : other.toNat < 65536) (narrow : ∀ char ∈ text, char.toNat < 65536) :
    ∀ char ∈ replaced mark other text, char.toNat < 65536 := by
  refine List.forall_mem_map.mpr fun char held => ?_
  split
  · exact small
  · exact narrow char held

theorem urlSafe_narrow (bytes : Bytes) : ∀ char ∈ urlSafe (toBase64 bytes), char.toNat < 65536 :=
  fun char held => replaced_narrow (by decide) (replaced_narrow (by decide) (Codecs.toBase64_narrow bytes)) char (List.mem_of_mem_filter held)

theorem legacy_read (gcm : Gcm) (env : Env) (size : iv.length = 12) (tagged : tag.length = 16) (ct : Bytes) (reader : Keyring) :
    decryptWithKeyring gcm env (units (LEGACY_ENC1_PREFIX ++ toBase64 (iv ++ tag ++ ct))) reader =
      (do
        let key ← importKey env .field
        let plain ← gcm.decrypt key iv (ct ++ tag)
        some (units (textDecoder plain))) := by
  have shown : chars (units (LEGACY_ENC1_PREFIX ++ toBase64 (iv ++ tag ++ ct))) = LEGACY_ENC1_PREFIX ++ toBase64 (iv ++ tag ++ ct) :=
    chars_enveloped (by simp +contextual) (Codecs.toBase64_narrow _)
  obtain ⟨known,ai,mail,legacy⟩ := legacy_start (toBase64 (iv ++ tag ++ ct))
  have front : (iv ++ tag ++ ct).take 12 = iv := by rw [List.append_assoc,List.take_left' size]
  have both : (iv ++ tag).length = 28 := by rw [List.length_append,size,tagged]
  have middle : ((iv ++ tag ++ ct).take 28).drop 12 = tag := by rw [List.take_left' both,List.drop_left' size]
  have behind : (iv ++ tag ++ ct).drop 28 = ct := List.drop_left' both
  unfold decryptWithKeyring
  simp only [shown,known,ai,mail,legacy,Bool.true_eq_false,Bool.false_eq_true,or_self,if_false,if_true]
  rw [List.drop_left' rfl,Codecs.atob_toBase64]
  simp only [Option.bind_eq_bind,Option.bind_some,front,middle,behind]

theorem field_read (gcm : Gcm) (env : Env) (size : iv.length = 12) (ct : Bytes) (reader : Keyring) :
    decryptWithKeyring gcm env (units (FIELD_PREFIX ++ urlSafe (toBase64 (iv ++ ct)))) reader =
      (do
        let key ← importKey env (if reader = .mail then .mail else .field)
        let plain ← gcm.decrypt key iv ct
        some (units (textDecoder plain))) := by
  have shown : chars (units (FIELD_PREFIX ++ urlSafe (toBase64 (iv ++ ct)))) = FIELD_PREFIX ++ urlSafe (toBase64 (iv ++ ct)) :=
    chars_enveloped (by simp +contextual) (urlSafe_narrow _)
  obtain ⟨known,ai,mail,legacy⟩ := field_start (urlSafe (toBase64 (iv ++ ct)))
  unfold decryptWithKeyring
  simp only [shown,known,ai,mail,legacy,Bool.true_eq_false,Bool.false_eq_true,or_self,if_false]
  rw [List.drop_left' rfl,urlSafe_back,Codecs.atob_letters]
  simp only [Option.bind_eq_bind,Option.bind_some,List.take_left' size,List.drop_left' size]

theorem field_envelope (gcm : Gcm) (iv : Iv) (value : Units) (found : importKey env .field = some key) :
    encryptWithKeyring gcm env iv value .field =
      some (units (FIELD_PREFIX ++ urlSafe (toBase64 (iv.val ++ gcm.encrypt key iv.val (textEncoder value))))) := by
  rw [encryptWithKeyring,found]
  rfl

-- An envelope is read back under the key it was written with, whichever keyring the reader names; a field
-- envelope has no say where the reader names mail.
theorem encrypted_read (inverts : gcm.Inverts) (iv : Iv) {value : Units} (unmarked : (scalars value).head? ≠ some mark)
    (found : importKey env writer = some key) (named : writer = .field → reader ≠ .mail) :
    ∃ envelope, encryptWithKeyring gcm env iv value writer = some envelope ∧
      decryptWithKeyring gcm env envelope reader = some (units (scalars value)) := by
  have back := inverts key iv.val (textEncoder value) (importKey_size found) iv.property
  have decoded : textDecoder (textEncoder value) = scalars value := textDecoder_utf8 unmarked
  cases writer with
  | field =>
    refine ⟨_,field_envelope gcm iv value found,?_⟩
    rw [field_read gcm env iv.property,if_neg (named rfl)]
    simp only [found,back,decoded,Option.bind_eq_bind,Option.bind_some]
  | mail =>
    refine ⟨units (MAIL_PREFIX ++ (toHex iv.val ++ ':'::toHex (gcm.encrypt key iv.val (textEncoder value)))),?_,?_⟩
    · rw [encryptWithKeyring,found]
      rfl
    · have read := hex_read gcm env false iv.val (gcm.encrypt key iv.val (textEncoder value)) reader
      rw [if_neg Bool.false_ne_true,if_neg Bool.false_ne_true] at read
      rw [read]
      simp only [found,back,decoded,Option.bind_eq_bind,Option.bind_some]
  | ai =>
    refine ⟨units (AI_PREFIX ++ (toHex iv.val ++ ':'::toHex (gcm.encrypt key iv.val (textEncoder value)))),?_,?_⟩
    · rw [encryptWithKeyring,found]
      rfl
    · have read := hex_read gcm env true iv.val (gcm.encrypt key iv.val (textEncoder value)) reader
      rw [if_pos rfl,if_pos rfl] at read
      rw [read]
      simp only [found,back,decoded,Option.bind_eq_bind,Option.bind_some]

theorem legacy_decrypted (inverts : gcm.Inverts) (iv : Iv) {text : Text} (unmarked : text.head? ≠ some mark)
    (found : importKey env .field = some key) (tagged : tag.length = 16) (cipher : gcm.encrypt key iv.val (utf8 text) = ct ++ tag)
    (reader : Keyring) :
    decryptWithKeyring gcm env (units (LEGACY_ENC1_PREFIX ++ toBase64 (iv.val ++ tag ++ ct))) reader = some (units text) := by
  have back := inverts key iv.val (utf8 text) (importKey_size found) iv.property
  rw [legacy_read gcm env iv.property tagged,← cipher]
  simp only [found,back,textDecoder_utf8 unmarked,Option.bind_eq_bind,Option.bind_some]

theorem importKey_hex (size : (keyHexFor env keyring).length = 64) (digits : (keyHexFor env keyring).all hexDigit = true) :
    importKey env keyring = some (fromHex (keyHexFor env keyring)) := by
  have whole : (keyHexFor env keyring).take 64 = keyHexFor env keyring := List.take_of_length_le (Nat.le_of_eq size)
  unfold importKey
  rw [whole]
  exact if_neg (by simp [size,digits])

theorem trim_solid {text : Text} (solid : ∀ char ∈ text, isSpace char = false) : trim text = text := by
  have clear : ∀ {text : Text}, (∀ char ∈ text, isSpace char = false) → text.dropWhile isSpace = text := by
    intro text solid
    cases text with
    | nil => rfl
    | cons char rest => exact List.dropWhile_cons_of_neg (by rw [solid char (List.mem_cons_self ..)]; exact Bool.false_ne_true)
  rw [trim,clear solid,clear fun char held => solid char (List.mem_reverse.mp held),List.reverse_reverse]

end Zveltio.Keyrings
