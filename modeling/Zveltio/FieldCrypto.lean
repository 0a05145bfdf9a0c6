import Zveltio.Keyrings
namespace Zveltio.FieldCrypto
open IpText (Text)
open Codecs (Bytes toBase64)
open TextCoding
open JsValues (Units units)
open Keyrings

def ENC_PREFIX : Text := "enc:v1:".toList

-- A field value of any type; only strings are encrypted.
inductive Value (α : Type u) where
  | null
  | undefined
  | string (value : Units)
  | other (value : α)

def keyHex (env : Env) : Text := env.FIELD_ENCRYPTION_KEY.getD []

-- Where it is false the source throws.
def assertKeyShape (env : Env) : Bool := (keyHex env).length = 64 && (keyHex env).all hexDigit

def isEncryptedValue (value : Units) : Bool := ENC_PREFIX.isPrefixOf (chars value)

def encryptField (gcm : Gcm) (env : Env) (iv : Iv) (plaintext : Units) : Option Units :=
  if assertKeyShape env then encryptWithKeyring gcm env iv plaintext .field else none

def decryptField (gcm : Gcm) (env : Env) (value : Units) : Option Units :=
  if isEncryptedValue value then
    if assertKeyShape env then decryptWithKeyring gcm env value .field else none
  else some value

def maybeEncrypt {α : Type u} (gcm : Gcm) (env : Env) (iv : Iv) (value : Value α) (isEncrypted : Bool) : Option (Value α) :=
  match value with
  | .string text =>
    if isEncrypted = false then some value
    else if isEncryptedValue text then some value
    else if keyHex env = [] then
      if env.ZVELTIO_ALLOW_PLAINTEXT_ENCRYPTED_FIELDS = some ['1'] then some value else none
    else (encryptField gcm env iv text).map .string
  | _ => some value

-- What does not decrypt is returned as it is.
def maybeDecrypt {α : Type u} (gcm : Gcm) (env : Env) (value : Value α) (isEncrypted : Bool) : Value α :=
  match value with
  | .string text =>
    if isEncrypted = false ∨ isEncryptedValue text = false then value
    else .string ((decryptField gcm env text).getD text)
  | _ => value

theorem shaped_key (shaped : assertKeyShape env = true) : keyHex env ≠ [] ∧ ∃ key, importKey env .field = some key := by
  obtain ⟨size,digits⟩ := Bool.and_eq_true_iff.mp shaped
  have long : (keyHex env).length = 64 := of_decide_eq_true size
  have same : keyHexFor env .field = keyHex env := trim_solid fun char held => (hexDigit_solid (List.all_eq_true.mp digits char held)).1
  refine ⟨fun none => ?_,_,importKey_hex (same ▸ long) (same ▸ digits)⟩
  rw [none] at long
  cases long

theorem isEncryptedValue_field (bytes : Bytes) : isEncryptedValue (units (FIELD_PREFIX ++ urlSafe (toBase64 bytes))) = true := by
  rw [isEncryptedValue,chars_enveloped (by simp +contextual) (urlSafe_narrow _)]
  rfl

theorem maybeDecrypt_back {α : Type u} (inverts : gcm.Inverts) (shaped : assertKeyShape env = true) (iv : Iv) {value : Units}
    (unmarked : (scalars value).head? ≠ some mark) (bare : isEncryptedValue value = false) :
    ∃ stored : Value α, maybeEncrypt gcm env iv (.string value) true = some stored ∧
      maybeDecrypt gcm env stored true = .string (units (scalars value)) := by
  obtain ⟨held,key,found⟩ := shaped_key shaped
  obtain ⟨envelope,written,read⟩ := encrypted_read inverts iv unmarked found
    (show Keyring.field = .field → Keyring.field ≠ .mail by decide)
  have sealed : isEncryptedValue envelope = true := by
    rw [field_envelope gcm iv value found] at written
    rw [← Option.some.inj written]
    exact isEncryptedValue_field _
  refine ⟨.string envelope,?_,?_⟩
  · simp [maybeEncrypt,encryptField,bare,held,shaped,written]
  · simp [maybeDecrypt,decryptField,sealed,shaped,read]

theorem maybeDecrypt_sealed {α : Type u} (gcm : Gcm) (env : Env) (iv : Iv) {value : Units} (sealed : isEncryptedValue value = true) :
    maybeEncrypt gcm env iv (.string value : Value α) true = some (.string value) ∧
      maybeDecrypt gcm env (.string value : Value α) true = .string ((decryptField gcm env value).getD value) := by
  simp [maybeEncrypt,maybeDecrypt,sealed]

theorem envelopes_read {α : Type u} (gcm : Gcm) (inverts : gcm.Inverts) (env : Env) (keys : ∀ keyring, importKey env keyring ≠ none)
    (shaped : assertKeyShape env = true) (iv : Iv) :
    (∀ text writer reader, text.head? ≠ some mark → (writer = .field → reader ≠ .mail) →
      ∃ envelope, encryptWithKeyring gcm env iv (units text) writer = some envelope ∧
        decryptWithKeyring gcm env envelope reader = some (units text)) ∧
    (∀ text key tag ct reader, text.head? ≠ some mark → importKey env .field = some key → tag.length = 16 →
      gcm.encrypt key iv.val (utf8 text) = ct ++ tag →
        decryptWithKeyring gcm env (units (LEGACY_ENC1_PREFIX ++ toBase64 (iv.val ++ tag ++ ct))) reader = some (units text)) ∧
    (∀ value, (scalars value).head? ≠ some mark → isEncryptedValue value = false →
      ∃ stored : Value α, maybeEncrypt gcm env iv (.string value) true = some stored ∧
        ∃ read, maybeDecrypt gcm env stored true = .string read ∧ read = units (scalars value) ∧
          ∀ text, value = units text → read = value) ∧
    ∀ value, isEncryptedValue value = true → maybeEncrypt gcm env iv (.string value : Value α) true = some (.string value) ∧
      maybeDecrypt gcm env (.string value : Value α) true = .string ((decryptField gcm env value).getD value) := by
  refine ⟨?_,?_,?_,fun value sealed => maybeDecrypt_sealed gcm env iv sealed⟩
  · intro text writer reader unmarked named
    obtain ⟨key,found⟩ := Option.ne_none_iff_exists'.mp (keys writer)
    have plain : (scalars (units text)).head? ≠ some mark := by rwa [scalars_units]
    obtain ⟨envelope,written,read⟩ := encrypted_read inverts iv plain found named
    exact ⟨envelope,written,by rw [read,scalars_units]⟩
  · intro text key tag ct reader unmarked found tagged cipher
    exact legacy_decrypted inverts iv unmarked found tagged cipher reader
  · intro value unmarked bare
    obtain ⟨stored,written,read⟩ := maybeDecrypt_back inverts shaped iv unmarked bare
    refine ⟨stored,written,_,read,rfl,?_⟩
    rintro text rfl
    rw [scalars_units]

-- A cipher that hides nothing: the tag is the front of the key.
def sealing : Gcm where
  encrypt key _ plain := plain ++ key.take 16
  decrypt key _ cipher :=
    if cipher.drop (cipher.length - 16) = key.take 16 then some (cipher.take (cipher.length - 16)) else none

theorem sealing_inverts : sealing.Inverts := by
  intro key iv plain size _
  have tag : (key.take 16).length = 16 := by
    rw [List.length_take]
    omega
  have front : (plain ++ key.take 16).length - 16 = plain.length := by
    rw [List.length_append,tag,Nat.add_sub_cancel]
  simp only [sealing,front,List.drop_left,List.take_left,if_true]

def zeros : Env where
  FIELD_ENCRYPTION_KEY := some (List.replicate 64 '0')
  MAIL_ENCRYPTION_KEY := some (List.replicate 64 '0')
  AI_KEY_ENCRYPTION_KEY := some (List.replicate 64 '0')
  ZVELTIO_ALLOW_PLAINTEXT_ENCRYPTED_FIELDS := none

def zeroIv : Iv := ⟨List.replicate 12 0,List.length_replicate⟩

theorem zeros_shaped : assertKeyShape zeros = true := by decide +kernel

theorem zeros_keys (keyring : Keyring) : importKey zeros keyring ≠ none := by
  cases keyring <;> decide +kernel

theorem envelopes_read_sealing : ∃ envelope, encryptWithKeyring sealing zeros zeroIv (units "imap ă".toList) .mail = some envelope ∧
    decryptWithKeyring sealing zeros envelope .field = some (units "imap ă".toList) :=
  (envelopes_read (α := Unit) sealing sealing_inverts zeros zeros_keys zeros_shaped zeroIv).1 _ .mail .field (by decide +kernel)
    (by decide)

-- The envelope of a, kept as a value, is read as a.
theorem envelope_opened :
    maybeEncrypt sealing zeros zeroIv (.string (units "enc:v1:AAAAAAAAAAAAAAAAYQAAAAAAAAAAAAAAAAAAAAA".toList) : Value Unit) true =
      some (.string (units "enc:v1:AAAAAAAAAAAAAAAAYQAAAAAAAAAAAAAAAAAAAAA".toList)) ∧
    maybeDecrypt sealing zeros (.string (units "enc:v1:AAAAAAAAAAAAAAAAYQAAAAAAAAAAAAAAAAAAAAA".toList) : Value Unit) true =
      .string (units ['a']) ∧
    units "enc:v1:AAAAAAAAAAAAAAAAYQAAAAAAAAAAAAAAAAAAAAA".toList ≠ units ['a'] := by
  have sealed : isEncryptedValue (units "enc:v1:AAAAAAAAAAAAAAAAYQAAAAAAAAAAAAAAAAAAAAA".toList) = true := by decide +kernel
  have opened : decryptField sealing zeros (units "enc:v1:AAAAAAAAAAAAAAAAYQAAAAAAAAAAAAAAAAAAAAA".toList) = some (units ['a']) := by
    decide +kernel
  obtain ⟨stored,read⟩ := maybeDecrypt_sealed (α := Unit) sealing zeros zeroIv sealed
  exact ⟨stored,by rw [read,opened,Option.getD_some],by decide +kernel⟩

end Zveltio.FieldCrypto
