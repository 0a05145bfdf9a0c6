import Zveltio.Runs
import Zveltio.IpText
import Zveltio.Parties
namespace Zveltio.StepUp
open Runs
open IpText (Text)

-- The clock counts microseconds.
def seconds (count : Nat) : Nat := count * 1000000

def TTL_SECONDS : Nat := 120

def TOTP_MAX_FAILURES : Nat := 5

def TOTP_FAILURE_SECONDS : Nat := 900

def CONFIG_WINDOW_SECONDS : Nat := 300

inductive StepUpMethod where
  | passkey | totp
  deriving DecidableEq

inductive Factor where
  | passkey (id : Nat)
  | totp (id : Nat)
  deriving DecidableEq

def Factor.method : Factor → StepUpMethod
  | .passkey _ => .passkey
  | .totp _ => .totp

-- What a row's id is hashed of; the random part of a token's and of an attempt's is the run that drew it.
inductive RowId where
  | challenge (challenge session action : Text)
  | totp (user code : Text)
  | token (nonce : Nat) (session action : Text)
  | attempt (nonce : Nat)
  | window (session : Text)
  deriving DecidableEq

inductive Identifier where
  | challenge | totp
  | token (user : Text)
  | attempt (user : Text)
  | window (user : Text)
  deriving DecidableEq

-- earned is not in the table: the factor that a token or a window was given for.
structure Row where
  id : RowId
  identifier : Identifier
  value : Option StepUpMethod
  expiresAt : Nat
  earned : Option Factor
  deriving DecidableEq

structure PasskeyRow where
  id : Nat
  userId : Text
  credentialID : Text
  publicKey : Text
  counter : Nat
  deriving DecidableEq

-- active: the account has it enabled and its enrolment is verified.
structure TwoFactorRow where
  id : Nat
  userId : Text
  secret : Text
  active : Bool
  deriving DecidableEq

-- reserved numbers the attempts in the order of their inserts.
structure Db where
  now : Nat
  verification : List Row
  passkeys : List PasskeyRow
  twoFactors : List TwoFactorRow
  reserved : Nat
  deriving DecidableEq

def Row.live (now : Nat) (row : Row) : Bool := now < row.expiresAt

def Db.sweep (db : Db) : Db := {db with verification := db.verification.filter fun row => !decide (row.expiresAt < db.now)}

def Db.holds (db : Db) (id : RowId) : Bool := db.verification.any (·.id = id)

-- ON CONFLICT (id) DO NOTHING
def Db.insert (db : Db) (id : RowId) (identifier : Identifier) (value : Option StepUpMethod) (ttl : Nat) (earned : Option Factor) : Db :=
  if db.holds id then db else {db with verification := db.verification ++ [⟨id,identifier,value,db.now + seconds ttl,earned⟩]}

-- ON CONFLICT (id) DO UPDATE; a session is one user's, so the identifier stays what it was.
def Db.upsert (db : Db) (id : RowId) (identifier : Identifier) (value : Option StepUpMethod) (ttl : Nat) (earned : Option Factor) : Db :=
  if db.holds id then {db with verification := db.verification.map fun row =>
    if row.id = id then {row with value,expiresAt := db.now + seconds ttl,earned} else row}
  else db.insert id identifier value ttl earned

def Db.peek (db : Db) (id : RowId) : Bool := db.verification.any fun row => row.id = id && row.live db.now

def Db.take (db : Db) (id : RowId) : Db :=
  {db with verification := db.verification.filter fun row => !(decide (row.id = id) && row.live db.now)}

def Db.attempts (db : Db) (user : Text) : List Row :=
  db.verification.filter fun row => row.identifier = .attempt user && row.live db.now

def Db.closeStepUps (db : Db) (user : Text) : Db :=
  {db with verification := db.verification.filter fun row => !(decide (row.identifier = .window user) || decide (row.identifier = .token user))}

def Db.has (db : Db) (user : Text) : Factor → Bool
  | .passkey id => db.passkeys.any fun row => row.id = id && row.userId = user
  | .totp id => db.twoFactors.any fun row => row.id = id && row.userId = user

def Db.totp (db : Db) (user : Text) : Bool := db.twoFactors.any fun row => row.userId = user && row.active

-- What the client sends of an assertion: its challenge where the client data names one, and whether the flags say the user was verified.
structure Response (γ : Type) where
  challenge : Option Text
  id : Text
  userVerified : Bool
  signed : γ
  deriving DecidableEq

-- An action that is no string is the empty one here. code: undefined, no string, or a string.
structure Request (γ : Type) where
  session : Text
  action : Text
  response : Option (Response γ)
  code : Option (Option Text)
  deriving DecidableEq

def letter (char : Char) : Bool := ('a' ≤ char && char ≤ 'z') || ('A' ≤ char && char ≤ 'Z')

def actionChar (char : Char) : Bool := letter char || char.isDigit || char = '.' || char = '_' || char = '-'

def targetChar (char : Char) : Bool := actionChar char || char = '@' || char = '/'

def ACTION_RE (action : Text) : Bool :=
  action.head?.any letter && (action.takeWhile (· != ':')).all actionChar &&
    (!action.contains ':' || (action.dropWhile (· != ':')).length ≥ 2 && ((action.dropWhile (· != ':')).drop 1).all targetChar)

def isStepUpAction (action : Text) : Bool := action.length ≤ 200 && ACTION_RE action

def sixDigits (code : Text) : Bool := code.length = 6 && code.all Char.isDigit

-- An attempt's place among the inserts and the time of its own.
structure Reserved where
  order : Nat
  insertedAt : Nat
  deriving DecidableEq

-- kept: the run ended by an exception with its attempt's row, if it had one, not withdrawn.
inductive Answer where
  | invalidAction | assertionRequired | challengeUnknown | notRegistered | userVerificationRequired | assertionFailed
  | codeRequired | locked | alreadyUsed | enrollmentRequired
  | wrongCode (attempt : Reserved) (countedAt : Nat)
  | threw (kept : Bool)
  | granted
  deriving DecidableEq

-- The statement of stepUpVerify that comes next, with what the ones before it read.
inductive Stage (γ : Type) where
  | passkeys
  | totp (passkeys : List PasskeyRow)
  | challenge (passkeys : List PasskeyRow) (response : Response γ) (challenge : Text)
  | counter (passkey : PasskeyRow) (newCounter : Nat)
  | reserve (swept : Bool) (code : Text)
  | count (attempt : Reserved) (code : Text)
  | withdraw
  | verify (attempt : Reserved) (countedAt : Nat) (code : Text)
  | release (factor : Factor) (code : Text)
  | spend (swept : Bool) (factor : Factor) (code : Text)
  | token (swept : Bool) (factor : Factor)
  | window (factor : Factor)
  | answered (answer : Answer)
  deriving DecidableEq

-- Whose a session is, and the checks of an assertion and of a code, which are other packages'.
structure World (γ : Type) where
  userOf : Text → Text
  verifyAuthenticationResponse : PasskeyRow → Response γ → Option Nat
  verifyTOTP : TwoFactorRow → Text → Nat → Bool

section
variable {γ : Type} (world : World γ)

def start (request : Request γ) : Stage γ := if isStepUpAction request.action then .passkeys else .answered .invalidAction

-- Which factor is asked for, once both reads are done.
def chosen (request : Request γ) (passkeys : List PasskeyRow) (totp : Bool) : Stage γ :=
  if !passkeys.isEmpty && !(totp && request.code.isSome) then
    match request.response with
    | some response => match response.challenge with
      | some challenge => .challenge passkeys response challenge
      | none => .answered .assertionRequired
    | none => .answered .assertionRequired
  else if totp then
    match request.code with
    | some (some code) => if sixDigits code then .reserve false code else .answered .codeRequired
    | _ => .answered .codeRequired
  else .answered .enrollmentRequired

def asserted (passkeys : List PasskeyRow) (response : Response γ) : Stage γ :=
  match passkeys.find? (·.credentialID = response.id) with
  | none => .answered .notRegistered
  | some passkey => if !response.userVerified then .answered .userVerificationRequired
    else match world.verifyAuthenticationResponse passkey response with
      | none => .answered .assertionFailed
      | some newCounter => .counter passkey newCounter

def advances (passkey : PasskeyRow) (newCounter : Nat) (row : PasskeyRow) : Bool :=
  row.id = passkey.id && (decide (row.counter < newCounter) || row.counter = 0 && newCounter = 0)

-- One statement, and what runs up to the next.
def statement (place : Nat) (request : Request γ) (db : Db) : Stage γ → Option (Db × Stage γ)
  | .passkeys => some (db,.totp (db.passkeys.filter (·.userId = (world.userOf request.session))))
  | .totp passkeys => some (db,chosen request passkeys (db.totp (world.userOf request.session)))
  | .challenge passkeys response challenge =>
    if db.peek (.challenge challenge request.session request.action) then
      some (db.take (.challenge challenge request.session request.action),asserted world passkeys response)
    else some (db,.answered .challengeUnknown)
  | .counter passkey newCounter =>
    if db.passkeys.any (advances passkey newCounter) then
      some ({db with passkeys := db.passkeys.map fun row => if advances passkey newCounter row then {row with counter := newCounter} else row},
        .token false (.passkey passkey.id))
    else some (db,.answered .assertionFailed)
  | .reserve false code => some (db.sweep,.reserve true code)
  | .reserve true code =>
    some ({db.insert (.attempt place) (.attempt (world.userOf request.session)) none TOTP_FAILURE_SECONDS none with reserved := db.reserved + 1},
      .count ⟨db.reserved,db.now⟩ code)
  | .count attempt code =>
    some (db,if (db.attempts (world.userOf request.session)).length ≤ TOTP_MAX_FAILURES then .verify attempt db.now code else .withdraw)
  | .withdraw => some (db.take (.attempt place),.answered .locked)
  | .verify attempt countedAt code => match db.twoFactors.find? (·.userId = (world.userOf request.session)) with
    | some row => some (db,if world.verifyTOTP row code db.now then .release (.totp row.id) code else .answered (.wrongCode attempt countedAt))
    | none => some (db,.answered (.wrongCode attempt countedAt))
  | .release factor code => some (db.take (.attempt place),.spend false factor code)
  | .spend false factor code => some (db.sweep,.spend true factor code)
  | .spend true factor code =>
    if db.holds (.totp (world.userOf request.session) code) then some (db,.answered .alreadyUsed)
    else some (db.insert (.totp (world.userOf request.session) code) .totp none TTL_SECONDS none,.token false factor)
  | .token false factor => some (db.sweep,.token true factor)
  | .token true factor =>
    some (db.insert (.token place request.session request.action) (.token (world.userOf request.session)) (some factor.method) TTL_SECONDS (some factor),
      .window factor)
  | .window factor =>
    some (db.upsert (.window request.session) (.window (world.userOf request.session)) (some factor.method) CONFIG_WINDOW_SECONDS (some factor),
      .answered .granted)
  | .answered _ => none

def Stage.keeps : Stage γ → Bool
  | .count .. => true
  | .withdraw => true
  | .verify .. => true
  | .release .. => true
  | .answered (.wrongCode ..) => true
  | .answered (.threw kept) => kept
  | _ => false

-- A statement that throws ends the run, but what the check of a code throws is taken for a wrong one.
def thrown : Stage γ → Option (Stage γ)
  | .answered _ => none
  | .verify attempt countedAt _ => some (.answered (.wrongCode attempt countedAt))
  | stage => some (.answered (.threw stage.keeps))

structure Verify (γ : Type) where
  request : Request γ
  stage : Stage γ
  deriving DecidableEq

-- closing: the removals and password changes that have committed and whose closeStepUps is still to run.
structure State (γ : Type) where
  db : Db
  runs : List (Verify γ)
  closing : List (Text × List Factor)
  deriving DecidableEq

def State.start (now : Nat) (passkeys : List PasskeyRow) (twoFactors : List TwoFactorRow) : State γ := ⟨⟨now,[],passkeys,twoFactors,0⟩,[],[]⟩

-- remove takes factors of one account away, or none where the password changes.
inductive Action (γ : Type) where
  | tick (elapsed : Nat)
  | call (request : Request γ)
  | advance (place : Nat)
  | fail (place : Nat)
  | options (challenge session action : Text)
  | sweep
  | spend (nonce : Nat) (session action : Text)
  | addPasskey (row : PasskeyRow)
  | addTwoFactor (row : TwoFactorRow)
  | remove (user : Text) (factors : List Factor)
  | close (user : Text) (factors : List Factor)

def State.become (state : State γ) (place : Nat) (stage : Stage γ) : State γ :=
  {state with runs := state.runs.modify place fun run => {run with stage}}

def Db.remove (db : Db) (user : Text) (factors : List Factor) : Db := {db with
  passkeys := db.passkeys.filter fun row => !decide (row.userId = user ∧ .passkey row.id ∈ factors)
  twoFactors := db.twoFactors.filter fun row => !decide (row.userId = user ∧ .totp row.id ∈ factors)}

def step (state : State γ) : Action γ → Option (State γ)
  | .tick elapsed => some {state with db := {state.db with now := state.db.now + elapsed}}
  | .call request => some {state with runs := state.runs ++ [⟨request,start request⟩]}
  | .advance place => (state.runs[place]?).bind fun run => (statement world place run.request state.db run.stage).map fun next =>
    {state with db := next.1}.become place next.2
  | .fail place => (state.runs[place]?).bind fun run => (thrown run.stage).map (state.become place)
  | .options challenge session action =>
    some {state with db := state.db.insert (.challenge challenge session action) .challenge none TTL_SECONDS none}
  | .sweep => some {state with db := state.db.sweep}
  | .spend nonce session action => some {state with db := state.db.take (.token nonce session action)}
  | .addPasskey row => some {state with db := {state.db with passkeys := state.db.passkeys ++ [row]}}
  | .addTwoFactor row => some {state with db := {state.db with twoFactors := state.db.twoFactors ++ [row]}}
  | .remove user factors => some {state with db := state.db.remove user factors,closing := state.closing ++ [(user,factors)]}
  | .close user factors =>
    if (user,factors) ∈ state.closing then
      some {state with db := state.db.closeStepUps user,closing := state.closing.erase (user,factors)}
    else none

end

section
variable {γ : Type} {world : World γ} {state after : State γ} {place : Nat}

theorem advance_parts (moved : step world state (.advance place) = some after) : ∃ run next stage,
    state.runs[place]? = some run ∧ statement world place run.request state.db run.stage = some (next,stage) ∧
      after = State.become {state with db := next} place stage := by
  obtain ⟨run,found,moved⟩ := Option.bind_eq_some_iff.mp moved
  obtain ⟨⟨next,stage⟩,done,rfl⟩ := Option.map_eq_some_iff.mp moved
  exact ⟨run,next,stage,found,done,rfl⟩

theorem fail_parts (moved : step world state (.fail place) = some after) : ∃ run stage,
    state.runs[place]? = some run ∧ thrown run.stage = some stage ∧ after = state.become place stage := by
  obtain ⟨run,found,moved⟩ := Option.bind_eq_some_iff.mp moved
  obtain ⟨stage,done,rfl⟩ := Option.map_eq_some_iff.mp moved
  exact ⟨run,stage,found,done,rfl⟩

theorem become_runs (state : State γ) (place : Nat) (stage : Stage γ) (other : Nat) :
    (state.become place stage).runs[other]? =
      if other = place then (state.runs[place]?).map fun run => {run with stage} else state.runs[other]? := by
  rw [State.become,List.getElem?_modify]
  by_cases same : other = place
  · subst same
    simp
  · rw [if_neg same]
    simp [Ne.symm same]

end

section
variable {db : Db} {row : Row} {id : RowId}

theorem mem_sweep (member : row ∈ db.sweep.verification) : row ∈ db.verification := (List.mem_filter.mp member).1

theorem mem_take (member : row ∈ (db.take id).verification) : row ∈ db.verification := (List.mem_filter.mp member).1

theorem mem_insert (member : row ∈ (db.insert id identifier value ttl earned).verification) :
    row ∈ db.verification ∨ row = ⟨id,identifier,value,db.now + seconds ttl,earned⟩ := by
  unfold Db.insert at member
  split at member
  · exact .inl member
  · exact (List.mem_append.mp member).imp_right List.mem_singleton.mp

theorem keep_sweep (member : row ∈ db.verification) : row ∈ db.sweep.verification ∨ row.expiresAt < db.now := by
  by_cases past : row.expiresAt < db.now
  · exact .inr past
  · exact .inl (List.mem_filter.mpr ⟨member,by rw [decide_eq_false past]; rfl⟩)

theorem keep_take (member : row ∈ db.verification) (other : row.id ≠ id) : row ∈ (db.take id).verification :=
  List.mem_filter.mpr ⟨member,by rw [decide_eq_false other]; rfl⟩

theorem keep_insert (member : row ∈ db.verification) : row ∈ (db.insert id identifier value ttl earned).verification := by
  unfold Db.insert
  split
  · exact member
  · exact List.mem_append_left _ member

theorem keep_upsert (member : row ∈ db.verification) (other : row.id ≠ id) : row ∈ (db.upsert id identifier value ttl earned).verification := by
  unfold Db.upsert
  split
  · exact List.mem_map.mpr ⟨row,member,if_neg other⟩
  · exact keep_insert member

theorem take_left (member : row ∈ (db.take id).verification) (same : row.id = id) : row.expiresAt ≤ db.now := by
  have left := (List.mem_filter.mp member).2
  rw [decide_eq_true same,Bool.true_and,Bool.not_eq_true',Row.live,decide_eq_false_iff_not] at left
  exact Nat.not_lt.mp left

theorem insert_new (fresh : db.holds id = false) (identifier : Identifier) (value : Option StepUpMethod) (ttl : Nat) (earned : Option Factor) :
    db.insert id identifier value ttl earned =
      {db with verification := db.verification ++ [⟨id,identifier,value,db.now + seconds ttl,earned⟩]} :=
  if_neg (by rw [fresh]; exact Bool.false_ne_true)

theorem mem_upsert (member : row ∈ (db.upsert id identifier value ttl earned).verification) :
    row ∈ db.verification ∨ row.id = id ∧ row.earned = earned ∧
      (row.identifier = identifier ∨ ∃ old ∈ db.verification, old.id = id ∧ row.identifier = old.identifier) := by
  unfold Db.upsert at member
  split at member
  · obtain ⟨old,before,same⟩ := List.mem_map.mp member
    split at same
    · next named =>
      rw [← same]
      exact .inr ⟨named,rfl,.inr ⟨old,before,named,rfl⟩⟩
    · exact .inl (same ▸ before)
  · refine (mem_insert member).imp_right fun same => ?_
    rw [same]
    exact ⟨rfl,rfl,.inl rfl⟩

theorem holds_iff : db.holds id = true ↔ ∃ row ∈ db.verification, row.id = id := by
  simp [Db.holds]

theorem upsert_row (db : Db) (id : RowId) (identifier : Identifier) (value : Option StepUpMethod) (ttl : Nat) (earned : Option Factor) : ∃ row ∈ (db.upsert id identifier value ttl earned).verification,
    row.id = id ∧ row.earned = earned ∧ row.expiresAt = db.now + seconds ttl := by
  unfold Db.upsert
  split
  · next held =>
    obtain ⟨old,before,named⟩ := holds_iff.mp held
    exact ⟨_,List.mem_map_of_mem before,by rw [if_pos named]; exact ⟨named,rfl,rfl⟩⟩
  · next new =>
    rw [insert_new (Bool.not_eq_true _ ▸ new)]
    exact ⟨_,List.mem_append_right _ (List.mem_singleton_self _),rfl,rfl,rfl⟩

@[simp] theorem insert_passkeys (db : Db) : (db.insert id identifier value ttl earned).passkeys = db.passkeys := by
  unfold Db.insert
  split <;> rfl

@[simp] theorem insert_twoFactors (db : Db) : (db.insert id identifier value ttl earned).twoFactors = db.twoFactors := by
  unfold Db.insert
  split <;> rfl

@[simp] theorem insert_now (db : Db) : (db.insert id identifier value ttl earned).now = db.now := by
  unfold Db.insert
  split <;> rfl

@[simp] theorem insert_reserved (db : Db) : (db.insert id identifier value ttl earned).reserved = db.reserved := by
  unfold Db.insert
  split <;> rfl

@[simp] theorem upsert_passkeys (db : Db) : (db.upsert id identifier value ttl earned).passkeys = db.passkeys := by
  unfold Db.upsert
  split
  · rfl
  · exact insert_passkeys db

@[simp] theorem upsert_twoFactors (db : Db) : (db.upsert id identifier value ttl earned).twoFactors = db.twoFactors := by
  unfold Db.upsert
  split
  · rfl
  · exact insert_twoFactors db

@[simp] theorem upsert_now (db : Db) : (db.upsert id identifier value ttl earned).now = db.now := by
  unfold Db.upsert
  split
  · rfl
  · exact insert_now db

@[simp] theorem upsert_reserved (db : Db) : (db.upsert id identifier value ttl earned).reserved = db.reserved := by
  unfold Db.upsert
  split
  · rfl
  · exact insert_reserved db

end

end Zveltio.StepUp
