import Zveltio.SavepointBlock
import Mathlib.Logic.Function.Basic
namespace Zveltio.RoleWindows
open Runs Savepoints SavepointBlock

-- A transaction's settings by name; one never set reads as none for the role and as empty otherwise.
abbrev Settings := String → String

def setConfig (values : List (String × String)) (now : Settings) : Settings := values.foldl (fun settings entry => Function.update settings entry.1 entry.2) now

-- The settings a window puts back, as they are when it opens.
def saved (values : List (String × String)) (now : Settings) : List (String × String) := values.map fun entry => (entry.1,now entry.1)

structure Issuer where
  mode : String
  id : String
  email : String
  role : String
  roles : List String

structure RlsIdentity where
  userId : String
  email : String
  role : String
  roles : List String
  bypass : Bool
  collectionGrants : Option String
  collectionAll : Bool
  columnsAll : Bool
  issuerRole : Option String
  issuer : Option Issuer
  anonymous : Bool

-- What a window sets, which may depend on the settings it opens on.
abbrev Window := Settings → List (String × String)

def asEngineRole : Window := fun _ => [("role","none")]

structure WindowRoles where
  plain : String
  bypass : Option String

-- bypasses tells of the current role whether it passes row security.
def setRoleSql (roles : WindowRoles) (mirror : Bool) (bypasses : String → Bool) : Window := fun now =>
  [("role",if mirror && bypasses (now "role") then roles.bypass.getD (now "role") else roles.plain)]

def MARK_SQL : Window := fun _ => [("zveltio.ext_statement","on")]

def asExtensionDbRole (ready : Bool) (roles : WindowRoles) (mirror : Bool) (bypasses : String → Bool) : Window :=
  if ready then setRoleSql roles mirror bypasses else MARK_SQL

def flag (value : Bool) : String := if value then "on" else "off"

def asIdentityOn (identity : RlsIdentity) : Window := fun _ =>
  [("zveltio.visible_tenants",""),("zveltio.user_id",identity.userId),("zveltio.user_email",identity.email),("zveltio.user_role",identity.role),
    ("zveltio.user_roles",",".intercalate identity.roles),("zveltio.issuer_role",identity.issuerRole.getD ""),
    ("zveltio.issuer_rows",identity.issuer.elim "" Issuer.mode),("zveltio.issuer_user_id",identity.issuer.elim "" Issuer.id),
    ("zveltio.issuer_user_email",identity.issuer.elim "" Issuer.email),("zveltio.issuer_user_role",identity.issuer.elim "" Issuer.role),
    ("zveltio.issuer_user_roles",",".intercalate (identity.issuer.elim [] Issuer.roles)),
    ("zveltio.actor",flag (identity.userId ≠ "" || identity.anonymous)),("zveltio.rls_bypass",flag identity.bypass),
    ("zveltio.collection_grants",identity.collectionGrants.getD ""),("zveltio.collection_all",flag identity.collectionAll),
    ("zveltio.columns_all",flag identity.columnsAll),("zveltio.system_collections","")]

inductive Scope where
  | block (block : Block String Settings)
  | window (window : Window) (saved : List (String × String))

structure State where
  conn : Connection String Settings
  scopes : List Scope

def State.start (base : Settings) : State := ⟨Savepoints.start base,[]⟩

-- A window that cannot set its settings rejects without having begun.
def openWindow (window : Window) (state : State) : State :=
  let set := statement (fun now => some (setConfig (window now) now)) state.conn
  if set.1 then ⟨set.2,.window window (saved (window state.conn.now) state.conn.now)::state.scopes⟩ else { state with conn := set.2 }

-- A restore that fails after the body returned is tried once more on the way out, as after a body that rejected.
def closeWindow (values : List (String × String)) (returned : Bool) (conn : Connection String Settings) : Bool × Connection String Settings :=
  let restore := statement (fun now => some (setConfig values now))
  if returned then
    let restored := restore conn
    if restored.1 then (true,restored.2) else (false,(restore restored.2).2)
  else (false,(restore conn).2)

inductive Action where
  | enter (name : String)
  | leave (returned : Bool)
  | openWindow (window : Window)
  | closeWindow (returned : Bool)
  | statement (fails : Bool)

-- A window awaits the statements it issues, so one of them belongs to the innermost scope.
def step (state : State) : Action → Option State
  | .enter name =>
    let entered := enter name state.conn
    some ⟨entered.2,.block entered.1::state.scopes⟩
  | .leave returned => match state.scopes with
    | .block block::outer => some ⟨(leave block returned state.conn).2,outer⟩
    | _ => none
  | .openWindow window => some (openWindow window state)
  | .closeWindow returned => match state.scopes with
    | .window _ values::outer => some ⟨(closeWindow values returned state.conn).2,outer⟩
    | _ => none
  | .statement fails => some { state with conn := (statement (fun now => if fails then none else some now) state.conn).2 }

def Permitted (state : State) : Action → Prop
  | .leave returned => returned = true ∧ state.conn.aborted = false ∨
      ∀ block outer, state.scopes = .block block::outer → block.guarded = true → (newest block.name state.conn.stack).head?.map Prod.snd = some block.began
  | _ => True

-- The settings of the innermost window around, each window's over those it was opened on.
def innermost (base : Settings) : List Scope → Settings
  | [] => base
  | .block _::outer => innermost base outer
  | .window window _::outer => setConfig (window (innermost base outer)) (innermost base outer)

def blocks : List Scope → List (Block String Settings)
  | [] => []
  | .block block::outer => block::blocks outer
  | .window _ _::outer => blocks outer

def Kept (base : Settings) (aborted : Bool) : List Scope → Prop
  | [] => True
  | .block block::outer => if block.guarded then block.began = innermost base outer ∧ Kept base false outer else aborted = true ∧ Kept base aborted outer
  | .window window values::outer => values = saved (window (innermost base outer)) (innermost base outer) ∧ Kept base aborted outer

structure Sound (base : Settings) (state : State) : Prop where
  carries : Carries (blocks state.scopes) state.conn.stack
  kept : Kept base state.conn.aborted state.scopes
  now : state.conn.aborted = false → state.conn.now = innermost base state.scopes

theorem setConfig_apart (apart : ∀ entry ∈ values, entry.1 ≠ key) (now : Settings) : setConfig values now key = now key := by
  induction values generalizing now with
  | nil => rfl
  | cons entry rest ih =>
    show setConfig rest (Function.update now entry.1 entry.2) key = now key
    rw [ih (fun other member => apart other (List.mem_cons_of_mem _ member)),Function.update_of_ne (apart entry (List.mem_cons_self ..)).symm]

theorem setConfig_saved (values : List (String × String)) (base now : Settings) (listed : key ∈ values.map Prod.fst) :
    setConfig (saved values base) now key = base key := by
  induction values generalizing now with
  | nil => cases listed
  | cons entry rest ih =>
    show setConfig (saved rest base) (Function.update now entry.1 (base entry.1)) key = base key
    by_cases later : key ∈ rest.map Prod.fst
    · exact ih _ later
    · have same : key = entry.1 := (List.mem_cons.mp listed).resolve_right later
      rw [setConfig_apart,same,Function.update_self]
      intro other member wrong
      obtain ⟨kept,inside,equal⟩ := List.mem_map.mp member
      have name : kept.1 = key := by rw [← wrong,← equal]
      exact later (name ▸ List.mem_map_of_mem inside)

theorem restored (values : List (String × String)) (base : Settings) : setConfig (saved values base) (setConfig values base) = base := by
  funext key
  by_cases listed : key ∈ values.map Prod.fst
  · exact setConfig_saved values base _ listed
  · have apart : ∀ entry ∈ values, entry.1 ≠ key := fun entry member same => listed (same ▸ List.mem_map_of_mem member)
    rw [setConfig_apart,setConfig_apart apart]
    intro other member
    obtain ⟨kept,inside,equal⟩ := List.mem_map.mp member
    rw [← equal]
    exact apart kept inside

theorem kept_weaken {scopes : List Scope} (kept : Kept base false scopes) (aborted : Bool) : Kept base aborted scopes := by
  induction scopes with
  | nil => trivial
  | cons scope outer ih =>
    cases scope with
    | block block =>
      unfold Kept at kept ⊢
      split
      · next guarded =>
        rw [if_pos guarded] at kept
        exact kept
      · next unguarded =>
        rw [if_neg unguarded] at kept
        exact absurd kept.1 (by decide)
    | window window values => exact ⟨kept.1,ih kept.2⟩

theorem start_sound (base : Settings) : Sound base (State.start base) := ⟨trivial,trivial,fun _ => rfl⟩

theorem statement_sound {base : Settings} {conn : Connection String Settings} {scopes : List Scope} (effect : Settings → Option Settings) (sound : Sound base ⟨conn,scopes⟩)
    (made : ∀ next, effect (innermost base scopes) = some next → next = innermost base scopes) : Sound base ⟨(statement effect conn).2,scopes⟩ := by
  obtain ⟨carries,kept,now⟩ := sound
  cases aborted : conn.aborted with
  | true =>
    have still : (statement effect conn).2 = conn := by simp only [statement,aborted,if_true]
    rw [still]
    exact ⟨carries,kept,now⟩
  | false =>
    cases ran : effect conn.now with
    | none =>
      have failed : (statement effect conn).2 = { conn with aborted := true } := by simp only [statement,aborted,ran,Bool.false_eq_true,if_false]
      rw [failed]
      have same : Kept base conn.aborted scopes := kept
      rw [aborted] at same
      exact ⟨carries,kept_weaken same true,Bool.noConfusion⟩
    | some next =>
      have done : (statement effect conn).2 = { conn with now := next } := by simp only [statement,aborted,ran,Bool.false_eq_true,if_false]
      rw [done]
      refine ⟨carries,kept,fun _ => made next ?_⟩
      have here : conn.now = innermost base scopes := now aborted
      rw [← here]
      exact ran

theorem enter_sound {base : Settings} {conn : Connection String Settings} {scopes : List Scope} (name : String) (sound : Sound base ⟨conn,scopes⟩) :
    Sound base ⟨(enter name conn).2,.block (enter name conn).1::scopes⟩ := by
  obtain ⟨carries,kept,now⟩ := sound
  cases aborted : conn.aborted with
  | true =>
    have refused : enter name conn = (⟨name,false,conn.now⟩,conn) := by simp only [enter,savepoint,aborted,if_true]
    rw [refused]
    exact ⟨carries,⟨aborted,kept⟩,fun usable => now usable⟩
  | false =>
    have entered : enter name conn = (⟨name,true,conn.now⟩,{ conn with stack := (name,conn.now)::conn.stack }) := by
      simp only [enter,savepoint,aborted,Bool.false_eq_true,if_false]
    have same : Kept base conn.aborted scopes := kept
    rw [aborted] at same
    rw [entered]
    exact ⟨⟨[],_,rfl,carries⟩,⟨now aborted,same⟩,fun _ => now aborted⟩

theorem leave_sound {base : Settings} {conn : Connection String Settings} {block : Block String Settings} {outer : List Scope} {returned : Bool}
    (sound : Sound base ⟨conn,.block block::outer⟩) (allowed : Permitted ⟨conn,.block block::outer⟩ (.leave returned)) :
    Sound base ⟨(leave block returned conn).2,outer⟩ := by
  obtain ⟨carries,kept,now⟩ := sound
  cases guarded : block.guarded with
  | true =>
    obtain ⟨value,undone,usable,later⟩ := leave_exact returned carries guarded
    unfold Kept at kept
    rw [if_pos guarded] at kept
    refine ⟨later,?_,fun _ => ?_⟩
    · rw [usable]
      exact kept.2
    · by_cases success : returned = true ∧ conn.aborted = false
      · exact (value success).2.trans (now success.2)
      · have back := (allowed.resolve_left success) block outer rfl guarded
        have newest := (undone success).2
        rw [back] at newest
        exact (Option.some.inj newest).symm.trans kept.1
  | false =>
    have still : (leave block returned conn).2 = conn := by
      cases returned <;> simp only [leave,fallBack,guarded,if_true,Bool.false_eq_true,if_false]
    unfold blocks Carries at carries
    unfold Kept at kept
    simp only [guarded,Bool.false_eq_true,if_false] at carries kept
    rw [still]
    exact ⟨carries,kept.2,fun usable => now usable⟩

theorem open_sound {base : Settings} {state : State} (window : Window) (sound : Sound base state) : Sound base (openWindow window state) := by
  obtain ⟨carries,kept,now⟩ := sound
  unfold openWindow
  cases aborted : state.conn.aborted with
  | true =>
    simp only [statement,aborted,if_true,Bool.false_eq_true,if_false]
    exact ⟨carries,kept,now⟩
  | false =>
    simp only [statement,aborted,if_true,Bool.false_eq_true,if_false]
    have here := now aborted
    rw [aborted] at kept
    refine ⟨carries,⟨by rw [here],kept⟩,fun _ => ?_⟩
    show setConfig (window state.conn.now) state.conn.now = _
    rw [here]
    rfl

theorem close_sound {base : Settings} {conn : Connection String Settings} {window : Window} {values : List (String × String)} {outer : List Scope} (returned : Bool)
    (sound : Sound base ⟨conn,.window window values::outer⟩) : Sound base ⟨(closeWindow values returned conn).2,outer⟩ := by
  obtain ⟨carries,kept,now⟩ := sound
  cases aborted : conn.aborted with
  | true =>
    have still : (closeWindow values returned conn).2 = conn := by
      cases returned <;> simp only [closeWindow,statement,aborted,if_true,Bool.false_eq_true,if_false]
    rw [still]
    exact ⟨carries,kept.2,fun usable => absurd (aborted.symm.trans usable) (by decide)⟩
  | false =>
    have back : (closeWindow values returned conn).2 = { conn with now := setConfig values conn.now } := by
      cases returned <;> simp only [closeWindow,statement,aborted,if_true,Bool.false_eq_true,if_false]
    rw [back]
    refine ⟨carries,kept.2,fun _ => ?_⟩
    have here : conn.now = setConfig (window (innermost base outer)) (innermost base outer) := now aborted
    show setConfig values conn.now = _
    rw [here,kept.1]
    exact restored _ _

theorem step_sound {base : Settings} : Preserved step Permitted (Sound base) := by
  intro state action after sound allowed moved
  obtain ⟨conn,scopes⟩ := state
  cases action with
  | enter name =>
    cases Option.some.inj moved
    exact enter_sound name sound
  | leave returned =>
    simp only [step] at moved
    split at moved
    · cases Option.some.inj moved
      exact leave_sound sound allowed
    · cases moved
  | openWindow window =>
    cases Option.some.inj moved
    exact open_sound window sound
  | closeWindow returned =>
    simp only [step] at moved
    split at moved
    · cases Option.some.inj moved
      exact close_sound returned sound
    · cases moved
  | statement fails =>
    cases Option.some.inj moved
    refine statement_sound _ sound fun next ran => ?_
    split at ran
    · cases ran
    · exact (Option.some.inj ran).symm

theorem innermost_blocks {scopes : List Scope} (only_blocks : ∀ scope ∈ scopes, ∃ block, scope = .block block) (base : Settings) : innermost base scopes = base := by
  induction scopes with
  | nil => rfl
  | cons scope outer ih =>
    obtain ⟨block,same⟩ := only_blocks scope (List.mem_cons_self ..)
    rw [same]
    exact ih fun other member => only_blocks other (List.mem_cons_of_mem _ member)

-- While the transaction is usable its settings are the innermost window's, the transaction's own once every window has ended;
-- and a block goes back to the settings around it exactly when its step is permitted.
theorem windows_exact {base : Settings} {state : State} (guarded : Guarded step Permitted (State.start base) actions)
    (path : run step (State.start base) actions = some state) :
    (state.conn.aborted = false → state.conn.now = innermost base state.scopes) ∧
    ((∀ scope ∈ state.scopes, ∃ block, scope = .block block) → state.conn.aborted = false → state.conn.now = base) ∧
    ∀ block outer returned, state.scopes = .block block::outer → block.guarded = true →
      ((leave block returned state.conn).2.now = innermost base outer ↔ Permitted state (.leave returned)) := by
  obtain ⟨carries,kept,now⟩ := run_preserves step_sound (start_sound base) guarded path
  refine ⟨now,fun only_blocks usable => (now usable).trans (innermost_blocks only_blocks base),fun block outer returned scopes guards => ?_⟩
  rw [scopes] at carries kept now
  obtain ⟨value,undone,_,_⟩ := leave_exact returned carries guards
  unfold Kept at kept
  rw [if_pos guards] at kept
  by_cases success : returned = true ∧ state.conn.aborted = false
  · exact iff_of_true ((value success).2.trans (now success.2)) (.inl success)
  · have newest := (undone success).2
    constructor
    · intro right
      refine .inr fun other rest same _ => ?_
      cases scopes.symm.trans same
      rw [newest,right,kept.1]
    · intro allowed
      have back := (allowed.resolve_left success) block outer scopes guards
      rw [newest] at back
      exact (Option.some.inj back).trans kept.1

def request : Settings := fun name => if name = "role" then "zveltio_rls" else ""

-- A statement fails in an engine window inside a block and after a block of the same name failed there.
theorem login_left : ∃ state, run step (State.start request)
      [.enter "s",.openWindow asEngineRole,.enter "s",.leave false,.statement true,.closeWindow false,.leave false] = some state ∧
    state.scopes = [] ∧ state.conn.aborted = false ∧ state.conn.now "role" = "none" ∧ request "role" = "zveltio_rls" :=
  ⟨_,rfl,rfl,rfl,by decide,by decide⟩

-- An extension's window that fails in a block inside an engine window.
def failing : List Action :=
  [.openWindow asEngineRole,.enter "s",.openWindow (asExtensionDbRole true ⟨"zveltio_ext",none⟩ false fun _ => false),.statement true,.closeWindow false,.leave false,
    .statement false,.closeWindow true]

theorem windows_exact_failing : ∃ state, run step (State.start request) failing = some state ∧ state.scopes = [] ∧ state.conn.now = request := by
  have guarded : Guarded step Permitted (State.start request) failing := by
    refine guarded_cons (show Permitted _ (.openWindow asEngineRole) from trivial) rfl ?_
    refine guarded_cons (show Permitted _ (.enter "s") from trivial) rfl ?_
    refine guarded_cons (show Permitted _ (.openWindow _) from trivial) rfl ?_
    refine guarded_cons (show Permitted _ (.statement true) from trivial) rfl ?_
    refine guarded_cons (show Permitted _ (.closeWindow false) from trivial) rfl ?_
    refine guarded_cons (show Permitted _ (.leave false) from .inr fun block outer same _ => by cases same; rfl) rfl ?_
    refine guarded_cons (show Permitted _ (.statement false) from trivial) rfl ?_
    refine guarded_cons (show Permitted _ (.closeWindow true) from trivial) rfl ?_
    trivial
  have after : ∃ state, run step (State.start request) failing = some state ∧ state.scopes = [] ∧ state.conn.aborted = false := ⟨_,rfl,rfl,rfl⟩
  obtain ⟨state,path,scopes,usable⟩ := after
  exact ⟨state,path,scopes,(windows_exact guarded path).2.1 (by rw [scopes]; exact fun _ member => absurd member List.not_mem_nil) usable⟩

end Zveltio.RoleWindows
