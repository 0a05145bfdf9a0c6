import Zveltio.StepUp
namespace Zveltio.StepUpClose
open Runs StepUp
open IpText (Text)

section
variable {γ : Type}

-- A removal of the factor has committed and its closeStepUps is still to run.
def State.closes (state : State γ) (user : Text) (factor : Factor) : Prop := ∃ entry ∈ state.closing, entry.1 = user ∧ factor ∈ entry.2

def Backed (state : State γ) (user : Text) (factor : Factor) : Prop := state.db.has user factor = true ∨ State.closes state user factor

def ofUser (row : Row) (user : Text) : Prop := row.identifier = .token user ∨ row.identifier = .window user

-- No unexpired token and no open window was earned with a factor that is gone and whose closing has run.
def Clean (state : State γ) : Prop := ∀ row ∈ state.db.verification, ∀ user, ofUser row user → row.live state.db.now = true →
  ∀ factor, row.earned = some factor → Backed state user factor

end

def stores {γ : Type} : Stage γ → Option Factor
  | .token true factor => some factor
  | .window factor => some factor
  | _ => none

section
variable {γ : Type} (world : World γ)

-- A token or a window is stored while its factor is still there, or before the closing of that factor's removal.
def Permitted (state : State γ) : Action γ → Prop
  | .advance place => ∀ run, state.runs[place]? = some run → ∀ factor, stores run.stage = some factor →
    Backed state (world.userOf run.request.session) factor
  | _ => True

def minted : Stage γ → Bool
  | .window _ => true
  | .answered _ => true
  | _ => false

def mintedAt (state : State γ) (nonce : Nat) : Bool := (state.runs[nonce]?).any fun run => minted run.stage

structure Sound (state : State γ) : Prop where
  named : ∀ row ∈ state.db.verification, ∀ session, row.id = .window session → row.identifier = .window (world.userOf session)
  drawn : ∀ row ∈ state.db.verification, ∀ nonce session action, row.id = .token nonce session action →
    mintedAt state nonce = true

structure Kept (state : State γ) : Prop extends Sound world state where
  backed : ∀ row ∈ state.db.verification, ∀ user, ofUser row user → ∀ factor, row.earned = some factor → Backed state user factor

variable {world} {state after : State γ}

-- A row that is neither a token nor a window.
structure Foreign (row : Row) : Prop where
  owned : ∀ user, ¬ofUser row user
  named : ∀ session, row.id ≠ .window session
  drawn : ∀ nonce session action, row.id ≠ .token nonce session action

theorem foreign_attempt (nonce : Nat) (user : Text) (expiresAt : Nat) : Foreign ⟨.attempt nonce,.attempt user,none,expiresAt,none⟩ :=
  ⟨fun _ owned => owned.elim (fun wrong => nomatch wrong) (fun wrong => nomatch wrong),fun _ wrong => (nomatch wrong),
    fun _ _ _ wrong => (nomatch wrong)⟩

theorem foreign_code (user code : Text) (expiresAt : Nat) : Foreign ⟨.totp user code,.totp,none,expiresAt,none⟩ :=
  ⟨fun _ owned => owned.elim (fun wrong => nomatch wrong) (fun wrong => nomatch wrong),fun _ wrong => (nomatch wrong),
    fun _ _ _ wrong => (nomatch wrong)⟩

theorem foreign_challenge (challenge session action : Text) (expiresAt : Nat) :
    Foreign ⟨.challenge challenge session action,.challenge,none,expiresAt,none⟩ :=
  ⟨fun _ owned => owned.elim (fun wrong => nomatch wrong) (fun wrong => nomatch wrong),fun _ wrong => (nomatch wrong),
    fun _ _ _ wrong => (nomatch wrong)⟩

theorem owner_same {row : Row} (owned : ofUser row user) (mine : ofUser row other) : user = other := by
  rcases owned with token | window
  · rcases mine with same | same
    · cases token.symm.trans same; rfl
    · cases token.symm.trans same
  · rcases mine with same | same
    · cases window.symm.trans same
    · cases window.symm.trans same; rfl

theorem statement_rows (moved : statement world place request db stage = some (next,later)) (member : row ∈ next.verification) :
    row ∈ db.verification ∨ Foreign row ∨ ∃ factor, stores stage = some factor ∧ row.earned = some factor ∧ minted later = true ∧
      (row.id = .token place request.session request.action ∧ row.identifier = .token (world.userOf request.session) ∨
        row.id = .window request.session ∧ (row.identifier = .window (world.userOf request.session) ∨
          ∃ old ∈ db.verification, old.id = row.id ∧ row.identifier = old.identifier)) := by
  cases stage with
  | passkeys => cases moved; exact .inl member
  | totp passkeys => cases moved; exact .inl member
  | challenge passkeys response challenge =>
    rw [statement] at moved
    split at moved
    · cases moved; exact .inl (mem_take member)
    · cases moved; exact .inl member
  | counter passkey newCounter =>
    rw [statement] at moved
    split at moved
    · cases moved; exact .inl member
    · cases moved; exact .inl member
  | reserve swept code =>
    cases swept with
    | false => cases moved; exact .inl (mem_sweep member)
    | true =>
      cases moved
      refine (mem_insert member).imp_right fun same => .inl ?_
      rw [same]
      exact foreign_attempt ..
  | count attempt code => cases moved; exact .inl member
  | withdraw => cases moved; exact .inl (mem_take member)
  | verify attempt countedAt code =>
    rw [statement] at moved
    split at moved
    · cases moved; exact .inl member
    · cases moved; exact .inl member
  | release factor code => cases moved; exact .inl (mem_take member)
  | spend swept factor code =>
    cases swept with
    | false => cases moved; exact .inl (mem_sweep member)
    | true =>
      rw [statement] at moved
      split at moved
      · cases moved; exact .inl member
      · cases moved
        refine (mem_insert member).imp_right fun same => .inl ?_
        rw [same]
        exact foreign_code ..
  | token swept factor =>
    cases swept with
    | false => cases moved; exact .inl (mem_sweep member)
    | true =>
      cases moved
      refine (mem_insert member).imp_right fun same => .inr ⟨factor,rfl,?_⟩
      rw [same]
      exact ⟨rfl,rfl,.inl ⟨rfl,rfl⟩⟩
  | window factor =>
    cases moved
    rcases mem_upsert member with old | ⟨named,earned,identified⟩
    · exact .inl old
    · exact .inr (.inr ⟨factor,rfl,earned,rfl,.inr ⟨named,identified.imp_right fun ⟨old,before,same,kept⟩ =>
        ⟨old,before,same.trans named.symm,kept⟩⟩⟩)
  | answered answer => cases moved

theorem statement_minted (moved : statement world place request db stage = some (next,later)) (done : minted stage = true) : minted later = true := by
  cases stage with
  | window factor => cases moved; rfl
  | answered answer => cases moved
  | _ => cases done

theorem thrown_minted (done : thrown stage = some later) : minted later = true := by
  cases stage <;> cases done <;> rfl

theorem renewed_has (passkey : PasskeyRow) (newCounter id : Nat) (user : Text) (rows : List PasskeyRow) :
    (rows.map fun row => if advances passkey newCounter row then {row with counter := newCounter} else row).any
      (fun row => row.id = id && row.userId = user) = rows.any fun row => row.id = id && row.userId = user := by
  rw [List.any_map]
  congr 1
  funext row
  rw [Function.comp_apply]
  split <;> rfl

theorem statement_has (moved : statement world place request db stage = some (next,later)) (user : Text) (factor : Factor) :
    next.has user factor = db.has user factor := by
  have same (passkeys : next.passkeys = db.passkeys) (twoFactors : next.twoFactors = db.twoFactors) :
      next.has user factor = db.has user factor := by
    cases factor with
    | passkey id => rw [Db.has,Db.has,passkeys]
    | totp id => rw [Db.has,Db.has,twoFactors]
  cases stage with
  | passkeys => cases moved; rfl
  | totp passkeys => cases moved; rfl
  | challenge passkeys response challenge =>
    rw [statement] at moved
    split at moved <;> cases moved <;> exact same rfl rfl
  | counter passkey newCounter =>
    rw [statement] at moved
    split at moved
    · cases moved
      cases factor with
      | passkey id => exact renewed_has passkey newCounter id user db.passkeys
      | totp id => rfl
    · cases moved; rfl
  | reserve swept code => cases swept <;> cases moved <;> exact same (by simp [Db.sweep]) (by simp [Db.sweep])
  | count attempt code => cases moved; rfl
  | withdraw => cases moved; exact same rfl rfl
  | verify attempt countedAt code =>
    rw [statement] at moved
    split at moved <;> cases moved <;> rfl
  | release factor code => cases moved; exact same rfl rfl
  | spend swept factor code =>
    cases swept with
    | false => cases moved; exact same rfl rfl
    | true =>
      rw [statement] at moved
      split at moved <;> cases moved <;> exact same (by simp) (by simp)
  | token swept factor => cases swept <;> cases moved <;> exact same (by simp [Db.sweep]) (by simp [Db.sweep])
  | window factor => cases moved; exact same (by simp) (by simp)
  | answered answer => cases moved

theorem closes_closing {other : State γ} (same : other.closing = state.closing) (closes : State.closes state user factor) :
    State.closes other user factor := by
  rw [State.closes,same]
  exact closes

theorem backed_same {other : State γ} (has : ∀ user factor, other.db.has user factor = state.db.has user factor)
    (closing : other.closing = state.closing) (backed : Backed state user factor) : Backed other user factor :=
  backed.imp (fun held => (has user factor).trans held) (closes_closing closing)

theorem sound_rows {other : State γ} (sound : Sound world state) (rows : ∀ row ∈ other.db.verification, row ∈ state.db.verification ∨ Foreign row)
    (runs : ∀ nonce, mintedAt state nonce = true → mintedAt other nonce = true) : Sound world other := by
  refine ⟨fun row member session named => ?_,fun row member nonce session action drawn => ?_⟩
  · rcases rows row member with old | strange
    · exact sound.named row old session named
    · exact absurd named (strange.named session)
  · rcases rows row member with old | strange
    · exact runs nonce (sound.drawn row old nonce session action drawn)
    · exact absurd drawn (strange.drawn nonce session action)

theorem backed_rows {other : State γ} (kept : Kept world state) (rows : ∀ row ∈ other.db.verification, row ∈ state.db.verification ∨ Foreign row)
    (backed : ∀ user factor, Backed state user factor → Backed other user factor) :
    ∀ row ∈ other.db.verification, ∀ user, ofUser row user → ∀ factor, row.earned = some factor → Backed other user factor := by
  intro row member user owned factor earned
  rcases rows row member with old | strange
  · exact backed user factor (kept.backed row old user owned factor earned)
  · exact absurd owned (strange.owned user)

theorem has_same {db other : Db} (passkeys : other.passkeys = db.passkeys) (twoFactors : other.twoFactors = db.twoFactors)
    (user : Text) (factor : Factor) : other.has user factor = db.has user factor := by
  cases factor with
  | passkey id => rw [Db.has,Db.has,passkeys]
  | totp id => rw [Db.has,Db.has,twoFactors]

theorem has_more {db other : Db} (passkeys : ∀ row ∈ db.passkeys, row ∈ other.passkeys) (twoFactors : ∀ row ∈ db.twoFactors, row ∈ other.twoFactors)
    {user : Text} {factor : Factor} (held : db.has user factor = true) : other.has user factor = true := by
  cases factor with
  | passkey id =>
    obtain ⟨row,member,named⟩ := List.any_eq_true.mp held
    exact List.any_eq_true.mpr ⟨row,passkeys row member,named⟩
  | totp id =>
    obtain ⟨row,member,named⟩ := List.any_eq_true.mp held
    exact List.any_eq_true.mpr ⟨row,twoFactors row member,named⟩

theorem remove_has {db : Db} (user : Text) (factors : List Factor) {other : Text} {factor : Factor}
    (held : db.has other factor = true) : (db.remove user factors).has other factor = true ∨ other = user ∧ factor ∈ factors := by
  by_cases gone : other = user ∧ factor ∈ factors
  · exact .inr gone
  refine .inl ?_
  cases factor with
  | passkey id =>
    obtain ⟨row,member,named⟩ := List.any_eq_true.mp held
    refine List.any_eq_true.mpr ⟨row,List.mem_filter.mpr ⟨member,?_⟩,named⟩
    simp only [Bool.and_eq_true,decide_eq_true_eq] at named
    rw [named.1,named.2,decide_eq_false gone]
    rfl
  | totp id =>
    obtain ⟨row,member,named⟩ := List.any_eq_true.mp held
    refine List.any_eq_true.mpr ⟨row,List.mem_filter.mpr ⟨member,?_⟩,named⟩
    simp only [Bool.and_eq_true,decide_eq_true_eq] at named
    rw [named.1,named.2,decide_eq_false gone]
    rfl

theorem become_minted {state : State γ} {run : Verify γ} (found : state.runs[place]? = some run)
    (onward : minted run.stage = true → minted later = true) (nonce : Nat) (done : mintedAt state nonce = true) :
    mintedAt (state.become place later) nonce = true := by
  rw [mintedAt] at done
  rw [mintedAt,become_runs]
  split
  · next same =>
    rw [same,found] at done
    rw [found]
    exact onward done
  · exact done

theorem statement_sound {run : Verify γ} (sound : Sound world state) (found : state.runs[place]? = some run)
    (moved : statement world place run.request state.db run.stage = some (next,later)) :
    Sound world (State.become {state with db := next} place later) := by
  have runs : ∀ nonce, mintedAt state nonce = true → mintedAt (State.become {state with db := next} place later) nonce = true :=
    become_minted found (statement_minted moved)
  refine ⟨fun row member session named => ?_,fun row member nonce session action drawn => ?_⟩
  · rcases statement_rows moved member with old | strange | ⟨_,_,_,_,⟨other,_⟩ | ⟨same,identified⟩⟩
    · exact sound.named row old session named
    · exact absurd named (strange.named session)
    · cases other.symm.trans named
    · cases same.symm.trans named
      rcases identified with new | ⟨old,before,same,identified⟩
      · exact new
      · exact identified.trans (sound.named old before _ (same.trans named))
  · rcases statement_rows moved member with old | strange | ⟨_,_,_,done,⟨same,_⟩ | ⟨other,_⟩⟩
    · exact runs nonce (sound.drawn row old nonce session action drawn)
    · exact absurd drawn (strange.drawn nonce session action)
    · cases same.symm.trans drawn
      rw [mintedAt,become_runs,if_pos rfl]
      simp only [found,Option.map_some,Option.any_some,done]
    · cases other.symm.trans drawn

theorem step_sound (before : State γ) (action : Action γ) (after : State γ) (sound : Sound world before)
    (moved : step world before action = some after) : Sound world after := by
  have still (rows : ∀ row ∈ after.db.verification, row ∈ before.db.verification ∨ Foreign row) (runs : after.runs = before.runs) :
      Sound world after := sound_rows sound rows fun nonce => by rw [mintedAt,mintedAt,runs]; exact id
  cases action with
  | tick elapsed => cases moved; exact still (fun _ => .inl) rfl
  | call request =>
    cases moved
    refine sound_rows sound (fun _ => .inl) fun nonce done => ?_
    obtain ⟨run,found,_⟩ := (Option.any_eq_true _ _).mp done
    have old : nonce < before.runs.length := (List.getElem?_eq_some_iff.mp found).1
    show (before.runs ++ [⟨request,start request⟩])[nonce]?.any _ = true
    rw [List.getElem?_append_left old]
    exact done
  | advance place =>
    obtain ⟨run,next,later,found,done,rfl⟩ := advance_parts moved
    exact statement_sound sound found done
  | fail place =>
    obtain ⟨run,stage,found,done,rfl⟩ := fail_parts moved
    exact sound_rows sound (fun _ => .inl) (become_minted found fun _ => thrown_minted done)
  | options challenge session action =>
    cases moved
    refine still (fun row member => (mem_insert member).imp_right fun same => ?_) rfl
    rw [same]
    exact foreign_challenge ..
  | sweep => cases moved; exact still (fun _ member => .inl (mem_sweep member)) rfl
  | spend nonce session action => cases moved; exact still (fun _ member => .inl (mem_take member)) rfl
  | addPasskey row => cases moved; exact still (fun _ => .inl) rfl
  | addTwoFactor row => cases moved; exact still (fun _ => .inl) rfl
  | remove user factors => cases moved; exact still (fun _ => .inl) rfl
  | close user factors =>
    rw [step] at moved
    split at moved
    · cases moved
      exact still (fun _ member => .inl (List.mem_filter.mp member).1) rfl
    · cases moved

theorem statement_backed {run : Verify γ} (kept : Kept world state) (permitted : Permitted world state (.advance place))
    (found : state.runs[place]? = some run) (moved : statement world place run.request state.db run.stage = some (next,later)) :
    ∀ row ∈ next.verification, ∀ user, ofUser row user → ∀ factor, row.earned = some factor →
      Backed (State.become {state with db := next} place later) user factor := by
  intro row member user owned factor earned
  refine backed_same (statement_has moved) rfl ?_
  rcases statement_rows moved member with old | strange | ⟨proof,stored,earns,_,identified⟩
  · exact kept.backed row old user owned factor earned
  · exact absurd owned (strange.owned user)
  · cases Option.some.inj (earns.symm.trans earned)
    have mine : ofUser row (world.userOf run.request.session) := by
      rcases identified with ⟨_,token⟩ | ⟨named,window | ⟨old,before,same,identified⟩⟩
      · exact .inl token
      · exact .inr window
      · exact .inr (identified.trans (kept.named old before _ (same.trans named)))
    rw [owner_same owned mine]
    exact permitted run found _ stored

theorem close_backed (kept : Kept world state) (user : Text) (factors : List Factor) :
    ∀ row ∈ (state.db.closeStepUps user).verification, ∀ other, ofUser row other → ∀ factor, row.earned = some factor →
      Backed {state with db := state.db.closeStepUps user,closing := state.closing.erase (user,factors)} other factor := by
  intro row member other owned factor earned
  obtain ⟨before,left⟩ := List.mem_filter.mp member
  have elsewhere : user ≠ other := by
    rintro rfl
    rcases owned with token | window
    · simp [token] at left
    · simp [window] at left
  rcases kept.backed row before other owned factor earned with held | ⟨entry,pending,named,removed⟩
  · exact .inl ((has_same rfl rfl other factor).trans held)
  · refine .inr ⟨entry,(List.mem_erase_of_ne ?_).mpr pending,named,removed⟩
    rintro rfl
    exact elsewhere named

theorem step_kept : Preserved (step world) (Permitted world) (Kept world) := by
  intro before action after kept permitted moved
  refine ⟨step_sound before action after kept.toSound moved,?_⟩
  have still (rows : ∀ row ∈ after.db.verification, row ∈ before.db.verification ∨ Foreign row)
      (passkeys : after.db.passkeys = before.db.passkeys) (twoFactors : after.db.twoFactors = before.db.twoFactors)
      (closing : after.closing = before.closing) := backed_rows kept rows fun user factor => backed_same (has_same passkeys twoFactors) closing
  cases action with
  | tick elapsed => cases moved; exact still (fun _ => .inl) rfl rfl rfl
  | call request => cases moved; exact still (fun _ => .inl) rfl rfl rfl
  | advance place =>
    obtain ⟨run,next,later,found,done,rfl⟩ := advance_parts moved
    exact statement_backed kept permitted found done
  | fail place =>
    obtain ⟨run,stage,_,_,rfl⟩ := fail_parts moved
    exact still (fun _ => .inl) rfl rfl rfl
  | options challenge session action =>
    cases moved
    refine still (fun row member => (mem_insert member).imp_right fun same => ?_) (insert_passkeys _) (insert_twoFactors _) rfl
    rw [same]
    exact foreign_challenge ..
  | sweep => cases moved; exact still (fun _ member => .inl (mem_sweep member)) rfl rfl rfl
  | spend nonce session action => cases moved; exact still (fun _ member => .inl (mem_take member)) rfl rfl rfl
  | addPasskey row =>
    cases moved
    refine backed_rows kept (fun _ => .inl) fun user factor => Or.imp (has_more ?_ ?_) (closes_closing rfl)
    · exact fun _ => List.mem_append_left _
    · exact fun _ member => member
  | addTwoFactor row =>
    cases moved
    refine backed_rows kept (fun _ => .inl) fun user factor => Or.imp (has_more ?_ ?_) (closes_closing rfl)
    · exact fun _ member => member
    · exact fun _ => List.mem_append_left _
  | remove user factors =>
    cases moved
    refine backed_rows kept (fun _ => .inl) fun other factor backed => ?_
    rcases backed with held | ⟨entry,pending,named,removed⟩
    · refine (remove_has user factors held).imp_right fun ⟨named,removed⟩ => ?_
      exact ⟨(user,factors),List.mem_append_right _ (List.mem_singleton_self _),named.symm,removed⟩
    · exact .inr ⟨entry,List.mem_append_left _ pending,named,removed⟩
  | close user factors =>
    rw [step] at moved
    split at moved
    · cases moved
      exact close_backed kept user factors
    · cases moved

theorem start_sound (now : Nat) (passkeys : List PasskeyRow) (twoFactors : List TwoFactorRow) :
    Sound world (State.start now passkeys twoFactors) :=
  ⟨fun _ member => absurd member List.not_mem_nil,fun _ member => absurd member List.not_mem_nil⟩

theorem statement_stored {run : Verify γ} (sound : Sound world state) (found : state.runs[place]? = some run)
    (stored : stores run.stage = some factor) (moved : statement world place run.request state.db run.stage = some (next,later)) :
    ∃ row ∈ next.verification, ofUser row (world.userOf run.request.session) ∧ row.earned = some factor ∧ row.live next.now = true := by
  obtain ⟨request,stage⟩ := run
  cases stage with
  | token swept proof =>
    cases swept with
    | false => cases stored
    | true =>
      cases stored
      have new : state.db.holds (.token place request.session request.action) = false := by
        refine Bool.eq_false_iff.mpr fun held => ?_
        obtain ⟨row,member,named⟩ := holds_iff.mp held
        have drawn := sound.drawn row member _ _ _ named
        rw [mintedAt,found] at drawn
        cases drawn
      rw [statement,insert_new new] at moved
      cases moved
      exact ⟨_,List.mem_append_right _ (List.mem_singleton_self _),.inl rfl,rfl,decide_eq_true (Nat.lt_add_of_pos_right (by decide))⟩
  | window proof =>
    cases stored
    cases moved
    obtain ⟨row,member,named,earned,expires⟩ := upsert_row state.db (.window request.session)
      (.window (world.userOf request.session)) (some factor.method) CONFIG_WINDOW_SECONDS (some factor)
    refine ⟨row,member,.inr ?_,earned,?_⟩
    · rcases mem_upsert member with old | ⟨_,_,new | ⟨old,before,same,kept⟩⟩
      · exact sound.named row old _ named
      · exact new
      · exact kept.trans (sound.named old before _ same)
    · rw [Row.live,expires,upsert_now]
      exact decide_eq_true (Nat.lt_add_of_pos_right (by decide))
  | _ => cases stored

theorem late_unclean {run : Verify γ} (sound : Sound world state) (found : state.runs[place]? = some run)
    (stored : stores run.stage = some factor) (moved : step world state (.advance place) = some after) (clean : Clean after) :
    Backed state (world.userOf run.request.session) factor := by
  obtain ⟨other,next,later,same,done,rfl⟩ := advance_parts moved
  cases Option.some.inj (found.symm.trans same)
  obtain ⟨row,member,owned,earned,live⟩ := statement_stored sound found stored done
  have backed := clean row member _ owned live factor earned
  exact backed.imp (fun held => (statement_has done _ factor).symm.trans held) (closes_closing rfl)

-- In every state of a run all tokens and windows are of factors that are still there or are about to be closed,
-- exactly if none is stored once the closing of its factor's removal has run.
theorem step_ups_closed (now : Nat) (passkeys : List PasskeyRow) (twoFactors : List TwoFactorRow) (actions : List (Action γ))
    (path : run (step world) (State.start now passkeys twoFactors) actions = some after) :
    Guarded (step world) (Permitted world) (State.start now passkeys twoFactors) actions ↔
      ∀ first rest, actions = first ++ rest → ∀ state, run (step world) (State.start now passkeys twoFactors) first = some state → Clean state := by
  constructor
  · rintro guarded first rest rfl state reached
    have kept := run_preserves step_kept ⟨start_sound now passkeys twoFactors,fun _ member => absurd member List.not_mem_nil⟩
      (guarded_append.mp guarded).1 reached
    exact fun row member user owned _ => kept.backed row member user owned
  · refine guarded_of_kept (Sound world) step_sound (fun before action after sound moved clean => ?_)
      (start_sound now passkeys twoFactors) path
    cases action with
    | advance place =>
      intro run found factor stored
      exact late_unclean sound found stored moved clean
    | _ => trivial

end

def key : PasskeyRow := ⟨1,['a'],['k'],[],0⟩

def plainWorld : World Unit := ⟨fun _ => ['a'],fun passkey _ => some (passkey.counter + 1),fun _ _ _ => false⟩

def assertion : Request Unit := ⟨['s'],['c','o','n','f','i','g'],some ⟨some ['c'],['k'],true,()⟩,none⟩

def latePath : List (Action Unit) := [.options ['c'] ['s'] ['c','o','n','f','i','g'],.call assertion,.advance 0,.advance 0,.advance 0,.advance 0,
  .remove ['a'] [.passkey 1],.close ['a'] [.passkey 1],.advance 0,.advance 0,.advance 0]

def lateState : State Unit := ⟨⟨0,[⟨.token 0 ['s'] ['c','o','n','f','i','g'],.token ['a'],some .passkey,120000000,some (.passkey 1)⟩,
  ⟨.window ['s'],.window ['a'],some .passkey,300000000,some (.passkey 1)⟩],[],[],0⟩,[⟨assertion,.answered .granted⟩],[]⟩

theorem late_kept : ¬Clean lateState := by
  intro clean
  have backed := clean _ (List.mem_cons_self ..) ['a'] (.inl rfl) (by decide) (.passkey 1) rfl
  rcases backed with held | ⟨entry,pending,_⟩
  · exact absurd held (by decide)
  · exact absurd pending List.not_mem_nil

theorem step_ups_closed_late : ¬Guarded (step plainWorld) (Permitted plainWorld) (State.start 0 [key] []) latePath := by
  intro guarded
  have clean := (@step_ups_closed Unit plainWorld lateState 0 [key] [] latePath (by decide)).mp guarded
  exact late_kept (clean latePath [] (List.append_nil _).symm lateState (by decide))

-- Both are stored after the closing and outlive the passkey.
theorem outlived : ¬∀ (actions : List (Action Unit)) (after : State Unit), run (step plainWorld) (State.start 0 [key] []) actions = some after →
    after.closing = [] → (∀ run ∈ after.runs, ∃ answer, run.stage = .answered answer) →
      ∀ row ∈ after.db.verification, ∀ user, ofUser row user → row.live after.db.now = true →
        ∀ factor, row.earned = some factor → after.db.has user factor = true := by
  intro claim
  have finished : ∀ run ∈ lateState.runs, ∃ answer, run.stage = .answered answer := by
    intro run member
    rw [List.mem_singleton.mp member]
    exact ⟨.granted,rfl⟩
  have held := claim latePath lateState (by decide) rfl finished ⟨.token 0 ['s'] ['c','o','n','f','i','g'],.token ['a'],some .passkey,120000000,some (.passkey 1)⟩
    (List.mem_cons_self ..) ['a'] (.inl rfl) (by decide) (.passkey 1) rfl
  exact absurd held (by decide)

end Zveltio.StepUpClose
