import Zveltio.StepUp
import Mathlib.Data.List.MinMax
namespace Zveltio.StepUpBudget
open Runs StepUp
open IpText (Text)

def window : Nat := seconds TOTP_FAILURE_SECONDS

section
variable {γ : Type}

-- An attempt from its insert on, until its row is withdrawn or is about to be.
def reservation : Stage γ → Option Reserved
  | .count attempt _ => some attempt
  | .verify attempt _ _ => some attempt
  | .answered (.wrongCode attempt _) => some attempt
  | _ => none

-- A code that has reached verification and was not found right, with the time of its count.
def tried : Stage γ → Option (Reserved × Nat)
  | .verify attempt countedAt _ => some (attempt,countedAt)
  | .answered (.wrongCode attempt countedAt) => some (attempt,countedAt)
  | _ => none

def released : Stage γ → Bool
  | .spend .. => true
  | .token .. => true
  | .window _ => true
  | .answered _ => true
  | _ => false

variable (world : World γ)

def triedIn (user : Text) (since : Nat) (run : Verify γ) : Bool :=
  world.userOf run.request.session = user &&
    (tried run.stage).any fun attempt => since ≤ attempt.1.insertedAt && attempt.2 < since + window

-- An attempt that a count sees: inserted before the one that counts, and unexpired.
def seenBy (user : Text) (order countedAt : Nat) (run : Verify γ) : Bool :=
  world.userOf run.request.session = user &&
    (reservation run.stage).any fun attempt => attempt.order ≤ order && countedAt < attempt.insertedAt + window

structure Budget (state : State γ) : Prop where
  there : ∀ place run attempt, state.runs[place]? = some run → reservation run.stage = some attempt → attempt.order < state.db.reserved ∧
    (attempt.insertedAt + window < state.db.now ∨
      ⟨.attempt place,.attempt (world.userOf run.request.session),none,attempt.insertedAt + window,none⟩ ∈ state.db.verification)
  counted : ∀ run ∈ state.runs, ∀ attempt countedAt, tried run.stage = some (attempt,countedAt) →
    state.runs.countP (seenBy world (world.userOf run.request.session) attempt.order countedAt) ≤ TOTP_MAX_FAILURES
  rows : ∀ row ∈ state.db.verification, (∀ user, row.identifier = .attempt user → ∃ place, row.id = .attempt place) ∧
    ∀ place, row.id = .attempt place → ∃ run, state.runs[place]? = some run ∧
      row.identifier = .attempt (world.userOf run.request.session) ∧
      (run.stage.keeps = true ∨ released run.stage = true ∧ row.expiresAt ≤ state.db.now)

-- A stage in which no attempt is under way.
structure Idle (stage : Stage γ) : Prop where
  reservation : reservation stage = none
  tried : tried stage = none
  keeps : stage.keeps = false

-- A statement that touches no attempt's row, but for sweeping expired ones.
structure Plain (db next : Db) : Prop where
  added : ∀ row ∈ next.verification, row ∈ db.verification ∨ (∀ user, row.identifier ≠ .attempt user) ∧ ∀ nonce, row.id ≠ .attempt nonce
  kept : ∀ row ∈ db.verification, ∀ nonce, row.id = .attempt nonce → row ∈ next.verification ∨ row.expiresAt < db.now
  reserved : next.reserved = db.reserved

-- What a statement makes of an attempt: it leaves it, makes it, admits or refuses it, finds the code wrong or right, or withdraws it.
inductive Moves (place : Nat) (request : Request γ) (db : Db) : Stage γ → Db → Stage γ → Prop where
  | idle {stage next later} : Idle stage → Idle later → (released stage = true → released later = true) → Plain db next →
    Moves place request db stage next later
  | insert {code} : Moves place request db (.reserve true code)
      {db.insert (.attempt place) (.attempt (world.userOf request.session)) none TOTP_FAILURE_SECONDS none with reserved := db.reserved + 1}
      (.count ⟨db.reserved,db.now⟩ code)
  | admits {attempt code} : (db.attempts (world.userOf request.session)).length ≤ TOTP_MAX_FAILURES →
    Moves place request db (.count attempt code) db (.verify attempt db.now code)
  | refuse {attempt code} : Moves place request db (.count attempt code) db .withdraw
  | wrong {attempt countedAt code} : Moves place request db (.verify attempt countedAt code) db (.answered (.wrongCode attempt countedAt))
  | right {attempt countedAt code factor} : Moves place request db (.verify attempt countedAt code) db (.release factor code)
  | withdraw {stage later} : stage.keeps = true → reservation stage = none → Idle later → released later = true →
    Moves place request db stage (db.take (.attempt place)) later

variable {world} {state after : State γ} {db next : Db} {stage later : Stage γ}

theorem statement_now (moved : statement world place request db stage = some (next,later)) : next.now = db.now := by
  cases stage with
  | passkeys => cases moved; rfl
  | totp passkeys => cases moved; rfl
  | challenge passkeys response challenge =>
    rw [statement] at moved
    split at moved <;> cases moved <;> rfl
  | counter passkey newCounter =>
    rw [statement] at moved
    split at moved <;> cases moved <;> rfl
  | reserve swept code => cases swept <;> cases moved <;> simp [Db.sweep]
  | count attempt code => cases moved; rfl
  | withdraw => cases moved; rfl
  | verify attempt countedAt code =>
    rw [statement] at moved
    split at moved <;> cases moved <;> rfl
  | release factor code => cases moved; rfl
  | spend swept factor code =>
    cases swept with
    | false => cases moved; rfl
    | true =>
      rw [statement] at moved
      split at moved <;> cases moved <;> simp
  | token swept factor => cases swept <;> cases moved <;> simp [Db.sweep]
  | window factor => cases moved; simp
  | answered answer => cases moved

theorem plain_refl (db : Db) : Plain db db := ⟨fun _ => .inl,fun _ member _ _ => .inl member,rfl⟩

theorem plain_sweep (db : Db) : Plain db db.sweep := ⟨fun _ member => .inl (mem_sweep member),fun _ member _ _ => keep_sweep member,rfl⟩

theorem plain_take (db : Db) {id : RowId} (other : ∀ nonce, id ≠ .attempt nonce) : Plain db (db.take id) :=
  ⟨fun _ member => .inl (mem_take member),fun _ member nonce named => .inl (keep_take member (named ▸ (other nonce).symm)),rfl⟩

theorem plain_insert (db : Db) {id : RowId} {identifier : Identifier} (other : ∀ nonce, id ≠ .attempt nonce)
    (unlike : ∀ user, identifier ≠ .attempt user) : Plain db (db.insert id identifier value ttl earned) := by
  refine ⟨fun row member => (mem_insert member).imp_right fun same => ?_,fun _ member _ _ => .inl (keep_insert member),insert_reserved db⟩
  rw [same]
  exact ⟨unlike,other⟩

theorem plain_upsert (db : Db) {id : RowId} {identifier : Identifier} (other : ∀ nonce, id ≠ .attempt nonce)
    (unlike : ∀ user, identifier ≠ .attempt user) (settled : ∀ row ∈ db.verification, row.id = id → ∀ user, row.identifier ≠ .attempt user) :
    Plain db (db.upsert id identifier value ttl earned) := by
  refine ⟨fun row member => (mem_upsert member).imp_right fun ⟨same,_,identified⟩ => ?_,
    fun _ member nonce named => .inl (keep_upsert member (named ▸ (other nonce).symm)),upsert_reserved db⟩
  refine ⟨fun user => ?_,fun nonce => same ▸ other nonce⟩
  rcases identified with new | ⟨old,before,named,kept⟩
  · exact new ▸ unlike user
  · exact kept ▸ settled old before named user

theorem chosen_idle (request : Request γ) (passkeys : List PasskeyRow) (totp : Bool) : Idle (chosen request passkeys totp) := by
  unfold chosen
  split
  · split
    · split <;> exact ⟨rfl,rfl,rfl⟩
    · exact ⟨rfl,rfl,rfl⟩
  split
  · split
    · split <;> exact ⟨rfl,rfl,rfl⟩
    · exact ⟨rfl,rfl,rfl⟩
  · exact ⟨rfl,rfl,rfl⟩

theorem asserted_idle (passkeys : List PasskeyRow) (response : Response γ) : Idle (asserted world passkeys response) := by
  unfold asserted
  split
  · exact ⟨rfl,rfl,rfl⟩
  split
  · exact ⟨rfl,rfl,rfl⟩
  split <;> exact ⟨rfl,rfl,rfl⟩

theorem statement_moves (settled : ∀ row ∈ db.verification, ∀ session, row.id = .window session → ∀ user, row.identifier ≠ .attempt user)
    (moved : statement world place request db stage = some (next,later)) : Moves world place request db stage next later := by
  cases stage with
  | passkeys => cases moved; exact .idle ⟨rfl,rfl,rfl⟩ ⟨rfl,rfl,rfl⟩ (fun wrong => nomatch wrong) (plain_refl db)
  | totp passkeys => cases moved; exact .idle ⟨rfl,rfl,rfl⟩ (chosen_idle ..) (fun wrong => nomatch wrong) (plain_refl db)
  | challenge passkeys response challenge =>
    rw [statement] at moved
    split at moved
    · cases moved
      exact .idle ⟨rfl,rfl,rfl⟩ (asserted_idle ..) (fun wrong => nomatch wrong) (plain_take db fun _ wrong => nomatch wrong)
    · cases moved
      exact .idle ⟨rfl,rfl,rfl⟩ ⟨rfl,rfl,rfl⟩ (fun wrong => nomatch wrong) (plain_refl db)
  | counter passkey newCounter =>
    rw [statement] at moved
    split at moved
    · cases moved
      exact .idle ⟨rfl,rfl,rfl⟩ ⟨rfl,rfl,rfl⟩ (fun wrong => nomatch wrong) ⟨(plain_refl db).added,(plain_refl db).kept,rfl⟩
    · cases moved
      exact .idle ⟨rfl,rfl,rfl⟩ ⟨rfl,rfl,rfl⟩ (fun wrong => nomatch wrong) (plain_refl db)
  | reserve swept code =>
    cases swept with
    | false => cases moved; exact .idle ⟨rfl,rfl,rfl⟩ ⟨rfl,rfl,rfl⟩ (fun wrong => nomatch wrong) (plain_sweep db)
    | true => cases moved; exact .insert
  | count attempt code =>
    cases moved
    split
    · next admitted => exact .admits admitted
    · exact .refuse
  | withdraw => cases moved; exact .withdraw rfl rfl ⟨rfl,rfl,rfl⟩ rfl
  | verify attempt countedAt code =>
    rw [statement] at moved
    split at moved
    · cases moved
      split
      · exact .right
      · exact .wrong
    · cases moved; exact .wrong
  | release factor code => cases moved; exact .withdraw rfl rfl ⟨rfl,rfl,rfl⟩ rfl
  | spend swept factor code =>
    cases swept with
    | false => cases moved; exact .idle ⟨rfl,rfl,rfl⟩ ⟨rfl,rfl,rfl⟩ (fun _ => rfl) (plain_sweep db)
    | true =>
      rw [statement] at moved
      split at moved
      · cases moved
        exact .idle ⟨rfl,rfl,rfl⟩ ⟨rfl,rfl,rfl⟩ (fun _ => rfl) (plain_refl db)
      · cases moved
        exact .idle ⟨rfl,rfl,rfl⟩ ⟨rfl,rfl,rfl⟩ (fun _ => rfl) (plain_insert db (fun _ wrong => nomatch wrong) fun _ wrong => nomatch wrong)
  | token swept factor =>
    cases swept with
    | false => cases moved; exact .idle ⟨rfl,rfl,rfl⟩ ⟨rfl,rfl,rfl⟩ (fun _ => rfl) (plain_sweep db)
    | true =>
      cases moved
      exact .idle ⟨rfl,rfl,rfl⟩ ⟨rfl,rfl,rfl⟩ (fun _ => rfl) (plain_insert db (fun _ wrong => nomatch wrong) fun _ wrong => nomatch wrong)
  | window factor =>
    cases moved
    exact .idle ⟨rfl,rfl,rfl⟩ ⟨rfl,rfl,rfl⟩ (fun _ => rfl) (plain_upsert db (fun _ wrong => nomatch wrong) (fun _ wrong => nomatch wrong)
      fun row member named => settled row member _ named)
  | answered answer => cases moved

theorem moves_reserved (moves : Moves world place request db stage next later) : db.reserved ≤ next.reserved := by
  cases moves with
  | idle _ _ _ plain => exact Nat.le_of_eq plain.reserved.symm
  | insert => exact Nat.le_succ _
  | _ => exact Nat.le_refl _

theorem moves_reservation (moves : Moves world place request db stage next later) (reserved : reservation later = some attempt) :
    reservation stage = some attempt ∧ next = db ∨ attempt = ⟨db.reserved,db.now⟩ ∧ next = {db.insert (.attempt place)
      (.attempt (world.userOf request.session)) none TOTP_FAILURE_SECONDS none with reserved := db.reserved + 1} ∧
      stage.keeps = false ∧ released stage = false := by
  cases moves with
  | idle _ idle _ _ => exact absurd (idle.reservation.symm.trans reserved) (fun wrong => nomatch wrong)
  | insert => exact .inr ⟨(Option.some.inj reserved).symm,rfl,rfl,rfl⟩
  | admits _ => exact .inl ⟨reserved,rfl⟩
  | wrong => exact .inl ⟨reserved,rfl⟩
  | refuse => cases reserved
  | right => cases reserved
  | withdraw _ _ idle _ => exact absurd (idle.reservation.symm.trans reserved) (fun wrong => nomatch wrong)

theorem tried_reservation {stage : Stage γ} (done : tried stage = some (attempt,countedAt)) : reservation stage = some attempt := by
  cases stage with
  | verify attempt countedAt code => cases done; rfl
  | answered answer =>
    cases answer with
    | wrongCode attempt countedAt => cases done; rfl
    | _ => cases done
  | _ => cases done

theorem moves_tried (moves : Moves world place request db stage next later) (done : tried later = some (attempt,countedAt)) :
    tried stage = some (attempt,countedAt) ∨ countedAt = db.now ∧ reservation stage = some attempt ∧
      (db.attempts (world.userOf request.session)).length ≤ TOTP_MAX_FAILURES := by
  cases moves with
  | idle _ idle _ _ => exact absurd (idle.tried.symm.trans done) (fun wrong => nomatch wrong)
  | admits fits => cases done; exact .inr ⟨rfl,rfl,fits⟩
  | wrong => exact .inl done
  | insert => cases done
  | refuse => cases done
  | right => cases done
  | withdraw _ _ idle _ => exact absurd (idle.tried.symm.trans done) (fun wrong => nomatch wrong)

theorem moves_keep (moves : Moves world place request db stage next later) (member : row ∈ db.verification)
    (named : row.id = .attempt other) (elsewhere : other ≠ place) : row ∈ next.verification ∨ row.expiresAt < db.now := by
  cases moves with
  | idle _ _ _ plain => exact plain.kept row member other named
  | insert => exact .inl (keep_insert member)
  | withdraw _ _ _ _ => exact .inl (keep_take member (by rw [named]; exact fun same => elsewhere (RowId.attempt.inj same)))
  | _ => exact .inl member

theorem moves_row (moves : Moves world place request db stage next later) (member : row ∈ next.verification) :
    (row ∈ db.verification ∧ (row.id = .attempt place → stage.keeps = true →
        later.keeps = true ∨ released later = true ∧ row.expiresAt ≤ db.now)) ∨
      ((∀ user, row.identifier ≠ .attempt user) ∧ ∀ nonce, row.id ≠ .attempt nonce) ∨
      row.id = .attempt place ∧ row.identifier = .attempt (world.userOf request.session) ∧ later.keeps = true := by
  cases moves with
  | idle idle _ _ plain =>
    rcases plain.added row member with old | strange
    · exact .inl ⟨old,fun _ keeps => absurd (idle.keeps.symm.trans keeps) Bool.false_ne_true⟩
    · exact .inr (.inl strange)
  | insert =>
    rcases mem_insert member with old | same
    · exact .inl ⟨old,fun _ _ => .inl rfl⟩
    · rw [same]
      exact .inr (.inr ⟨rfl,rfl,rfl⟩)
  | withdraw _ _ _ done => exact .inl ⟨mem_take member,fun same _ => .inr ⟨done,take_left member same⟩⟩
  | admits _ => exact .inl ⟨member,fun _ _ => .inl rfl⟩
  | refuse => exact .inl ⟨member,fun _ _ => .inl rfl⟩
  | wrong => exact .inl ⟨member,fun _ _ => .inl rfl⟩
  | right => exact .inl ⟨member,fun _ _ => .inl rfl⟩

theorem moves_released (moves : Moves world place request db stage next later) (done : released stage = true) :
    released later = true := by
  cases moves with
  | idle _ _ onward _ => exact onward done
  | withdraw _ _ _ after => exact after
  | _ => cases done

theorem seenBy_iff {run : Verify γ} : seenBy world user order countedAt run = true ↔ world.userOf run.request.session = user ∧
    ∃ attempt, reservation run.stage = some attempt ∧ attempt.order ≤ order ∧ countedAt < attempt.insertedAt + window := by
  simp [seenBy,Option.any_eq_true]

-- A step of one run shows no count more attempts than it saw, if what it starts has a later number.
theorem count_become {runs : List (Verify γ)} {run : Verify γ} (found : runs[place]? = some run)
    (fewer : seenBy world user order countedAt ⟨run.request,later⟩ = true → seenBy world user order countedAt run = true) :
    (runs.modify place fun run => {run with stage := later}).countP (seenBy world user order countedAt) ≤
      runs.countP (seenBy world user order countedAt) := by
  have count := Parties.countP_modify (seenBy world user order countedAt) (fun run => {run with stage := later}) found
  have less : (if seenBy world user order countedAt ⟨run.request,later⟩ = true then 1 else 0) ≤
      if seenBy world user order countedAt run = true then 1 else 0 := by
    split
    · next seen => rw [if_pos (fewer seen)]
    · exact Nat.zero_le _
  omega

theorem attempts_seen (budget : Budget world state) (user : Text) (order : Nat) :
    state.runs.countP (seenBy world user order state.db.now) ≤ (state.db.attempts user).length := by
  rw [← List.length_map (f := Row.id)]
  refine Parties.countP_marks RowId.attempt (fun _ _ => RowId.attempt.inj) fun place run found seen => ?_
  obtain ⟨owner,attempt,reserved,_,unexpired⟩ := seenBy_iff.mp seen
  rcases (budget.there place run attempt found reserved).2 with past | member
  · omega
  · refine List.mem_map.mpr ⟨_,List.mem_filter.mpr ⟨member,?_⟩,rfl⟩
    rw [owner]
    simp [Row.live,unexpired]

theorem advance_there {run : Verify γ} (budget : Budget world state) (found : state.runs[place]? = some run) (now : next.now = state.db.now)
    (moves : Moves world place run.request state.db run.stage next later) (here : (state.become place later).runs[other]? = some item)
    (reserved : reservation item.stage = some attempt) : attempt.order < next.reserved ∧ (attempt.insertedAt + window < next.now ∨
      ⟨.attempt other,.attempt (world.userOf item.request.session),none,attempt.insertedAt + window,none⟩ ∈ next.verification) := by
  rw [become_runs] at here
  have more := moves_reserved moves
  split at here
  · next same =>
    subst same
    rw [found] at here
    cases here
    rcases moves_reservation moves reserved with ⟨old,still⟩ | ⟨new,insert,before,unreleased⟩
    · rw [still]
      exact budget.there other run attempt found old
    · have fresh : state.db.holds (.attempt other) = false := by
        refine Bool.eq_false_iff.mpr fun held => ?_
        obtain ⟨row,member,named⟩ := holds_iff.mp held
        obtain ⟨item,there,_,keeps | ⟨done,_⟩⟩ := (budget.rows row member).2 other named
        · cases Option.some.inj (found.symm.trans there)
          exact absurd (before.symm.trans keeps) Bool.false_ne_true
        · cases Option.some.inj (found.symm.trans there)
          exact absurd (unreleased.symm.trans done) Bool.false_ne_true
      rw [insert,new,insert_new fresh]
      exact ⟨Nat.lt_succ_self _,.inr (List.mem_append_right _ (List.mem_singleton_self _))⟩
  · next elsewhere =>
    obtain ⟨order,left⟩ := budget.there other item attempt here reserved
    refine ⟨Nat.lt_of_lt_of_le order more,?_⟩
    rw [now]
    rcases left with past | member
    · exact .inl past
    · exact (moves_keep moves member rfl elsewhere).symm

theorem advance_counted {run : Verify γ} (budget : Budget world state) (found : state.runs[place]? = some run)
    (moves : Moves world place run.request state.db run.stage next later) (member : item ∈ (state.become place later).runs)
    (done : tried item.stage = some (attempt,countedAt)) :
    (state.become place later).runs.countP (seenBy world (world.userOf item.request.session) attempt.order countedAt) ≤ TOTP_MAX_FAILURES := by
  -- The step may start an attempt, but with a number above all there are.
  have fewer (user : Text) (order at' : Nat) (known : order < state.db.reserved) :
      (state.become place later).runs.countP (seenBy world user order at') ≤ state.runs.countP (seenBy world user order at') := by
    refine count_become found fun seen => ?_
    obtain ⟨owner,started,reserved,before,unexpired⟩ := seenBy_iff.mp seen
    rcases moves_reservation moves reserved with ⟨old,_⟩ | ⟨new,_⟩
    · exact seenBy_iff.mpr ⟨owner,started,old,before,unexpired⟩
    · rw [new] at before
      exact absurd (Nat.lt_of_le_of_lt before known) (Nat.lt_irrefl _)
  obtain ⟨old,before,same | ⟨here,same⟩⟩ := Parties.mem_modify member
  · subst same
    obtain ⟨position,there⟩ := List.getElem?_of_mem before
    have known := (budget.there position item attempt there (tried_reservation done)).1
    exact (fewer _ _ _ known).trans (budget.counted item before attempt countedAt done)
  · cases Option.some.inj (found.symm.trans here)
    rw [same] at done ⊢
    rcases moves_tried moves done with old | ⟨rfl,reserved,fits⟩
    · have known := (budget.there place run attempt found (tried_reservation old)).1
      exact (fewer _ _ _ known).trans (budget.counted run before attempt countedAt old)
    · have known := (budget.there place run attempt found reserved).1
      exact (fewer _ _ _ known).trans ((attempts_seen budget _ _).trans fits)

theorem advance_rows {run : Verify γ} (budget : Budget world state) (found : state.runs[place]? = some run) (now : next.now = state.db.now)
    (moves : Moves world place run.request state.db run.stage next later) (member : row ∈ next.verification) :
    (∀ user, row.identifier = .attempt user → ∃ nonce, row.id = .attempt nonce) ∧
      ∀ nonce, row.id = .attempt nonce → ∃ item, (state.become place later).runs[nonce]? = some item ∧
        row.identifier = .attempt (world.userOf item.request.session) ∧
        (item.stage.keeps = true ∨ released item.stage = true ∧ row.expiresAt ≤ next.now) := by
  have moved : (state.become place later).runs[place]? = some {run with stage := later} := by
    rw [become_runs,if_pos rfl,found]
    rfl
  rcases moves_row moves member with ⟨old,onward⟩ | ⟨strange,other⟩ | ⟨named,identified,keeps⟩
  · obtain ⟨own,held⟩ := budget.rows row old
    refine ⟨own,fun nonce named => ?_⟩
    obtain ⟨item,there,identified,phase⟩ := held nonce named
    by_cases same : nonce = place
    · subst same
      cases Option.some.inj (found.symm.trans there)
      refine ⟨_,moved,identified,?_⟩
      rw [now]
      rcases phase with keeps | ⟨done,expired⟩
      · exact onward named keeps
      · exact .inr ⟨moves_released moves done,expired⟩
    · refine ⟨item,?_,identified,now ▸ phase⟩
      rw [become_runs,if_neg same]
      exact there
  · exact ⟨fun user wrong => absurd wrong (strange user),fun nonce wrong => absurd wrong (other nonce)⟩
  · refine ⟨fun _ _ => ⟨place,named⟩,fun nonce same => ?_⟩
    cases named.symm.trans same
    exact ⟨_,moved,identified,.inl keeps⟩

theorem advance_budget {run : Verify γ} (budget : Budget world state) (found : state.runs[place]? = some run)
    (moved : statement world place run.request state.db run.stage = some (next,later)) :
    Budget world (State.become {state with db := next} place later) := by
  have settled : ∀ row ∈ state.db.verification, ∀ session, row.id = .window session → ∀ user, row.identifier ≠ .attempt user := by
    intro row member session named user identified
    obtain ⟨place,other⟩ := (budget.rows row member).1 user identified
    cases named.symm.trans other
  have moves := statement_moves settled moved
  have now := statement_now moved
  refine ⟨fun other item attempt here reserved => ?_,fun item member attempt countedAt done => ?_,fun row member => ?_⟩
  · exact advance_there budget found now moves here reserved
  · have fits : (state.become place later).runs.countP (seenBy world (world.userOf item.request.session) attempt.order countedAt) ≤
        TOTP_MAX_FAILURES := advance_counted budget found moves member done
    exact fits
  · have held := advance_rows budget found now moves member
    exact held

theorem thrown_moves (done : thrown stage = some later) : (reservation later = none ∨ reservation later = reservation stage) ∧
    (∀ attempt countedAt, tried later = some (attempt,countedAt) → tried stage = some (attempt,countedAt)) ∧
    (stage.keeps = true → later.keeps = true) ∧ released later = true := by
  cases stage with
  | answered answer => cases done
  | verify attempt countedAt code => cases done; exact ⟨.inr rfl,fun _ _ => id,fun _ => rfl,rfl⟩
  | _ => cases done; exact ⟨.inl rfl,fun _ _ wrong => (nomatch wrong),id,rfl⟩

theorem fail_budget {run : Verify γ} (budget : Budget world state) (found : state.runs[place]? = some run) (done : thrown run.stage = some later) :
    Budget world (state.become place later) := by
  obtain ⟨reserves,tries,keeps,ended⟩ := thrown_moves done
  have moved : (state.become place later).runs[place]? = some {run with stage := later} := by
    rw [become_runs,if_pos rfl,found]
    rfl
  have before {attempt : Reserved} (reserved : reservation later = some attempt) : reservation run.stage = some attempt := by
    rcases reserves with none | same
    · cases none.symm.trans reserved
    · exact same.symm.trans reserved
  have fewer (user : Text) (order at' : Nat) :
      (state.become place later).runs.countP (seenBy world user order at') ≤ state.runs.countP (seenBy world user order at') := by
    refine count_become found fun seen => ?_
    obtain ⟨owner,attempt,reserved,older,unexpired⟩ := seenBy_iff.mp seen
    exact seenBy_iff.mpr ⟨owner,attempt,before reserved,older,unexpired⟩
  refine ⟨fun other item attempt here reserved => ?_,fun item member attempt countedAt tried => ?_,fun row member => ?_⟩
  · rw [become_runs] at here
    split at here
    · next same =>
      subst same
      rw [found] at here
      cases here
      exact budget.there other run attempt found (before reserved)
    · exact budget.there other item attempt here reserved
  · obtain ⟨old,there,same | ⟨here,same⟩⟩ := Parties.mem_modify member
    · subst same
      exact (fewer _ _ _).trans (budget.counted item there attempt countedAt tried)
    · cases Option.some.inj (found.symm.trans here)
      rw [same] at tried ⊢
      exact (fewer _ _ _).trans (budget.counted run there attempt countedAt (tries _ _ tried))
  · obtain ⟨own,held⟩ := budget.rows row member
    refine ⟨own,fun nonce named => ?_⟩
    obtain ⟨item,there,identified,phase⟩ := held nonce named
    by_cases same : nonce = place
    · subst same
      cases Option.some.inj (found.symm.trans there)
      exact ⟨_,moved,identified,phase.imp keeps fun ⟨_,expired⟩ => ⟨ended,expired⟩⟩
    · refine ⟨item,?_,identified,phase⟩
      rw [become_runs,if_neg same]
      exact there

theorem plain_budget {other : State γ} (budget : Budget world state) (runs : other.runs = state.runs) (later : state.db.now ≤ other.db.now)
    (plain : Plain state.db other.db) : Budget world other := by
  refine ⟨?_,?_,fun row member => ?_⟩
  · rw [runs,plain.reserved]
    intro place run attempt found reserved
    obtain ⟨order,left⟩ := budget.there place run attempt found reserved
    refine ⟨order,?_⟩
    rcases left with past | member
    · exact .inl (Nat.lt_of_lt_of_le past later)
    · exact (plain.kept _ member place rfl).symm.imp_left fun past => Nat.lt_of_lt_of_le past later
  · rw [runs]
    exact budget.counted
  · rw [runs]
    rcases plain.added row member with old | ⟨strange,foreign⟩
    · obtain ⟨own,held⟩ := budget.rows row old
      refine ⟨own,fun place named => ?_⟩
      obtain ⟨run,found,identified,phase⟩ := held place named
      exact ⟨run,found,identified,phase.imp_right fun ⟨done,expired⟩ => ⟨done,expired.trans later⟩⟩
    · exact ⟨fun user wrong => absurd wrong (strange user),fun place wrong => absurd wrong (foreign place)⟩

theorem start_idle (request : Request γ) : Idle (start request) := by
  unfold start
  split <;> exact ⟨rfl,rfl,rfl⟩

theorem call_budget (budget : Budget world state) (request : Request γ) :
    Budget world {state with runs := state.runs ++ [⟨request,start request⟩]} := by
  have idle := start_idle request
  have older : ∀ (place : Nat) (run : Verify γ), state.runs[place]? = some run → (state.runs ++ [⟨request,start request⟩])[place]? = some run := by
    intro place run found
    rw [List.getElem?_append_left (List.getElem?_eq_some_iff.mp found).1]
    exact found
  refine ⟨fun place run attempt found reserved => ?_,fun run member attempt countedAt done => ?_,fun row member => ?_⟩
  · rw [List.getElem?_append] at found
    split at found
    · exact budget.there place run attempt found reserved
    · rw [List.mem_singleton.mp (List.mem_of_getElem? found)] at reserved
      cases idle.reservation.symm.trans reserved
  · have unseen : seenBy world (world.userOf run.request.session) attempt.order countedAt ⟨request,start request⟩ = false := by
      refine Bool.eq_false_iff.mpr fun seen => ?_
      obtain ⟨_,other,reserved,_⟩ := seenBy_iff.mp seen
      cases idle.reservation.symm.trans reserved
    rw [List.countP_append,List.countP_singleton,if_neg (by rw [unseen]; exact Bool.false_ne_true),Nat.add_zero]
    rcases List.mem_append.mp member with old | new
    · exact budget.counted run old attempt countedAt done
    · rw [List.mem_singleton.mp new] at done
      cases idle.tried.symm.trans done
  · obtain ⟨own,held⟩ := budget.rows row member
    refine ⟨own,fun nonce named => ?_⟩
    obtain ⟨run,found,rest⟩ := held nonce named
    exact ⟨run,older nonce run found,rest⟩

theorem step_budget : Preserved (step world) (fun _ _ => True) (Budget world) := by
  intro before action after budget _ moved
  cases action with
  | tick elapsed =>
    cases moved
    exact plain_budget budget rfl (Nat.le_add_right ..) ⟨(plain_refl _).added,(plain_refl _).kept,rfl⟩
  | call request => cases moved; exact call_budget budget request
  | advance place =>
    obtain ⟨run,next,later,found,done,rfl⟩ := advance_parts moved
    exact advance_budget budget found done
  | fail place =>
    obtain ⟨run,stage,found,done,rfl⟩ := fail_parts moved
    exact fail_budget budget found done
  | options challenge session action =>
    cases moved
    exact plain_budget budget rfl (Nat.le_of_eq (insert_now _).symm) (plain_insert _ (fun _ wrong => nomatch wrong) fun _ wrong => nomatch wrong)
  | sweep => cases moved; exact plain_budget budget rfl (Nat.le_refl _) (plain_sweep _)
  | spend nonce session action => cases moved; exact plain_budget budget rfl (Nat.le_refl _) (plain_take _ fun _ wrong => nomatch wrong)
  | addPasskey row => cases moved; exact plain_budget budget rfl (Nat.le_refl _) ⟨(plain_refl _).added,(plain_refl _).kept,rfl⟩
  | addTwoFactor row => cases moved; exact plain_budget budget rfl (Nat.le_refl _) ⟨(plain_refl _).added,(plain_refl _).kept,rfl⟩
  | remove user factors => cases moved; exact plain_budget budget rfl (Nat.le_refl _) ⟨(plain_refl _).added,(plain_refl _).kept,rfl⟩
  | close user factors =>
    rw [step] at moved
    split at moved
    · cases moved
      refine plain_budget budget rfl (Nat.le_refl _) ⟨fun row member => .inl (List.mem_filter.mp member).1,fun row member nonce named => .inl ?_,rfl⟩
      obtain ⟨run,_,identified,_⟩ := (budget.rows row member).2 nonce named
      exact List.mem_filter.mpr ⟨member,by rw [identified]; rfl⟩
    · cases moved

theorem start_budget (now : Nat) (passkeys : List PasskeyRow) (twoFactors : List TwoFactorRow) : Budget world (State.start now passkeys twoFactors) :=
  ⟨fun _ _ _ wrong => (nomatch wrong),fun _ member => absurd member List.not_mem_nil,fun _ member => absurd member List.not_mem_nil⟩

theorem triedIn_iff {since : Nat} {run : Verify γ} : triedIn world user since run = true ↔ world.userOf run.request.session = user ∧
    ∃ attempt countedAt, tried run.stage = some (attempt,countedAt) ∧ since ≤ attempt.insertedAt ∧ countedAt < since + window := by
  simp [triedIn,Option.any_eq_true]

def orderOf (run : Verify γ) : Nat := ((reservation run.stage).map Reserved.order).getD 0

-- The one inserted last counted all the others.
theorem interval_bound (budget : Budget world state) (user : Text) (since : Nat) :
    state.runs.countP (triedIn world user since) ≤ TOTP_MAX_FAILURES := by
  rw [List.countP_eq_length_filter]
  cases found : (state.runs.filter (triedIn world user since)).argmax orderOf with
  | none =>
    rw [List.argmax_eq_none.mp found]
    exact Nat.zero_le _
  | some last =>
    obtain ⟨member,within⟩ := List.mem_filter.mp (List.argmax_mem found)
    obtain ⟨owner,attempt,countedAt,done,_,before⟩ := triedIn_iff.mp within
    refine Nat.le_trans ?_ (budget.counted last member attempt countedAt done)
    rw [← List.countP_eq_length_filter]
    refine List.countP_mono_left fun run held inside => ?_
    obtain ⟨same,other,otherAt,tried,after,_⟩ := triedIn_iff.mp inside
    have order := List.le_of_mem_argmax (List.mem_filter.mpr ⟨held,inside⟩) found
    simp only [orderOf,tried_reservation tried,tried_reservation done,Option.map_some,Option.getD_some] at order
    exact seenBy_iff.mpr ⟨same.trans owner.symm,other,tried_reservation tried,order,by omega⟩

-- In every interval of the given length at most that many codes reserved in it reach verification without being right,
-- and a live row is always of an attempt that is not withdrawn.
theorem budget_held (now : Nat) (passkeys : List PasskeyRow) (twoFactors : List TwoFactorRow) (actions : List (Action γ))
    (path : run (step world) (State.start now passkeys twoFactors) actions = some after) (user : Text) :
    (∀ since, after.runs.countP (triedIn world user since) ≤ TOTP_MAX_FAILURES) ∧
      ∀ row ∈ after.db.attempts user, ∃ place run, after.runs[place]? = some run ∧ row.id = .attempt place ∧
        world.userOf run.request.session = user ∧ run.stage.keeps = true := by
  have budget := run_preserves step_budget (start_budget now passkeys twoFactors) (guarded_of_always fun _ _ => trivial) path
  refine ⟨interval_bound budget user,fun row member => ?_⟩
  obtain ⟨held,shown⟩ := List.mem_filter.mp member
  simp only [Bool.and_eq_true,decide_eq_true_eq,Row.live] at shown
  obtain ⟨own,runs⟩ := budget.rows row held
  obtain ⟨place,named⟩ := own user shown.1
  obtain ⟨run,found,identified,keeps | ⟨_,expired⟩⟩ := runs place named
  · exact ⟨place,run,found,named,Identifier.attempt.inj (identified.symm.trans shown.1),keeps⟩
  · exact absurd shown.2 (Nat.not_lt.mpr expired)

end

-- A wrong code, and a second call that has reserved its attempt beside it.
def noCode : World Unit := ⟨fun _ => ['a'],fun _ _ => none,fun _ _ _ => false⟩

def guess : Request Unit := ⟨['s'],['c','o','n','f','i','g'],none,some (some ['1','2','3','4','5','6'])⟩

def app : TwoFactorRow := ⟨1,['a'],['k'],true⟩

def guesses : List (Action Unit) := [.call guess,.call guess,.advance 0,.advance 0,.advance 0,.advance 0,.tick 1,
  .advance 1,.advance 1,.advance 1,.advance 1,.advance 0,.advance 0]

def guessed : State Unit := ⟨⟨1,[⟨.attempt 0,.attempt ['a'],none,900000000,none⟩,⟨.attempt 1,.attempt ['a'],none,900000001,none⟩],[],[app],2⟩,
  [⟨guess,.answered (.wrongCode ⟨0,0⟩ 1)⟩,⟨guess,.count ⟨1,1⟩ ['1','2','3','4','5','6']⟩],[]⟩

theorem budget_held_guessed : guessed.runs.countP (triedIn noCode ['a'] 0) ≤ TOTP_MAX_FAILURES :=
  (@budget_held Unit noCode guessed 0 [] [app] guesses (by decide) ['a']).1 0

end Zveltio.StepUpBudget
