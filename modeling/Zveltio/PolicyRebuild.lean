import Zveltio.Runs
import Zveltio.PolicyTable
import Mathlib.Data.List.Perm.Subperm
import Mathlib.Data.Finset.Dedup
namespace Zveltio.PolicyRebuild

open Runs PolicyTable

-- A local write: addPolicy, removePolicy, removeFilteredPolicy.
inductive Edit where
  | add (rule : Rule)
  | remove (rule : Rule)
  | removeFiltered (sec : Sec) (filter : Filter)

def Edit.statement (sensitive : List String) (store : Store) : Edit → Store
  | .add rule => store.insert rule
  | .remove rule => store.delete sensitive (· = rule)
  | .removeFiltered sec filter => store.delete sensitive (Change.filtered ⟨sec,[],some filter⟩)

def Edit.model (model : List Rule) : Edit → List Rule
  | .add rule => addPolicy model rule
  | .remove rule => removePolicy model rule
  | .removeFiltered sec filter => model.filter fun rule => !Change.filtered ⟨sec,[],some filter⟩ rule

-- TableEnforcer writes the table only when its model already agrees.
def Edit.agrees (model : List Rule) : Edit → Bool
  | .add rule => rule ∈ model
  | .remove rule => rule ∉ model
  | .removeFiltered _ _ => false

-- What the write makes of a rule, none where it leaves it alone.
def Edit.value (rule : Rule) : Edit → Option Bool
  | .add own => if rule = own then some true else none
  | .remove own => if rule = own then some false else none
  | .removeFiltered sec filter => if Change.filtered ⟨sec,[],some filter⟩ rule then some false else none

-- owner is the enforcer the write was called on. A write is tracked until its statement
-- has answered; the default grants until their model edit is done.
inductive Call where
  | writing (owner : Nat) (edit : Edit) (agrees : Bool)
  | written (owner : Nat) (edit : Edit) (agrees : Bool)
  | editing (owner : Nat) (edit : Edit)
  | granting (todo : List Grant) (done : List Rule)
  | granted

def Call.tracked : Call → Bool
  | .editing _ _ => false
  | _ => true

def Call.owner : Call → Option Nat
  | .writing owner _ _ => some owner
  | .written owner _ _ => some owner
  | .editing owner _ => some owner
  | _ => none

inductive Task where
  | receive (change : Change)
  | rebuild

-- The task of _receiveChain under way: a receive as it reads and compares, or a rebuild
-- after each of its reads; writes is _writeGen as the attempt found it.
inductive Running (φ : Type u) where
  | reading (candidates : List Rule)
  | editing (held rest : List Rule) (touched : Bool)
  | fingerprinting (attempt : Nat)
  | fingerprinted (attempt : Nat) (fingerprint : φ)
  | comparing (attempt : Nat) (fingerprint : φ) (writes : Nat)
  | compared (attempt : Nat) (fingerprint : φ) (writes : Nat) (rows : List Rule)
  | loading (attempt : Nat) (fingerprint : φ) (writes : Nat)
  | loaded (attempt : Nat) (fingerprint : φ) (writes : Nat) (rows : List Rule)

-- One engine instance; models holds the enforcers it has built, live is _enforcer.
structure Engine (φ : Type u) where
  live : Nat
  next : Nat
  models : Nat → List Rule
  applied : Option φ
  writeGen : Nat
  inFlight : Nat
  calls : List Call
  queue : List Task
  active : Option (Running φ)

def Engine.model (engine : Engine φ) : List Rule := engine.models engine.live

-- last is what an instance's own write made of a rule, where nobody has changed it since;
-- installed logs each swapped-in model with it.
structure State (φ : Type u) where
  store : Store
  engines : Nat → Engine φ
  last : Nat → Rule → Option Bool
  installed : List (List Rule × (Rule → Option Bool))

-- policyFingerprint's hash and casbin's line parser after tokens.join(', ').
structure Setting (φ : Type u) where
  fingerprint : List Rule → φ
  loadPolicyLine : Rule → Option Rule
  sensitive : List String

-- The fingerprint changes on any insert, delete or edit, and equal tables agree.
def Setting.Exact (setting : Setting φ) : Prop := ∀ rows others,
  setting.fingerprint rows = setting.fingerprint others ↔ ∀ rule, rule ∈ rows ↔ rule ∈ others

def State.initial (setting : Setting φ) (rules : List Rule) : State φ :=
  let rows := rules.foldl addPolicy []
  ⟨⟨rows,[]⟩,fun _ => ⟨0,1,fun _ => rows,some (setting.fingerprint rows),0,0,[],[],none⟩,fun _ _ => none,[]⟩

inductive Action where
  | begin (instance' owner : Nat) (edit : Edit)
  | materialize (instance' : Nat) (resources : List String) (extension : Bool)
  | advance (instance' call : Nat)
  | fail (instance' call : Nat)
  | direct (gone : Rule → Bool) (inserted : List Rule)
  | deliver (instance' : Nat) (change : Change)
  | rebuild (instance' : Nat)
  | chain (instance' : Nat)

def State.put (state : State φ) (here : Nat) (engine : Engine φ) : State φ :=
  {state with engines := Function.update state.engines here engine}

def State.wrote (state : State φ) (here : Nat) (store : Store) (value : Rule → Option Bool) : State φ :=
  {state with
    store
    last := fun other rule => match value rule with
      | none => state.last other rule
      | some held => if other = here then some held else none}

-- trackPolicyWrite, its start and its finally.
def Engine.begun (engine : Engine φ) : Engine φ :=
  {engine with writeGen := engine.writeGen + 1,inFlight := engine.inFlight + 1}

def Engine.ended (engine : Engine φ) : Engine φ :=
  {engine with writeGen := engine.writeGen + 1,inFlight := engine.inFlight - 1,applied := none}

def Engine.settled (engine : Engine φ) (writes : Nat) : Bool := engine.inFlight = 0 ∧ writes = engine.writeGen

def advance (setting : Setting φ) (state : State φ) (here index : Nat) : Call → State φ
  | .writing owner edit agrees =>
    let engine := state.engines here
    (state.wrote here (edit.statement setting.sensitive state.store) edit.value).put here
      {engine with calls := engine.calls.set index (.written owner edit agrees)}
  | .written owner edit agrees =>
    let engine := (state.engines here).ended
    state.put here
      {engine with calls := if agrees then engine.calls.eraseIdx index else engine.calls.set index (.editing owner edit)}
  | .editing owner edit =>
    let engine := state.engines here
    state.put here {engine with
      models := Function.update engine.models owner (edit.model (engine.models owner))
      calls := engine.calls.eraseIdx index}
  | .granting (grant::todo) done =>
    let engine := state.engines here
    match state.store.grant grant with
    | none => state.put here {engine with calls := engine.calls.set index (.granting todo done)}
    | some store =>
      (state.wrote here store fun rule => if rule = grant.rule then some true else none).put here
        {engine with calls := engine.calls.set index (.granting todo (done ++ [grant.rule]))}
  | .granting [] done =>
    let engine := state.engines here
    state.put here {engine with
      models := Function.update engine.models engine.live (done.foldl addPolicy engine.model)
      calls := engine.calls.set index .granted}
  | .granted =>
    let engine := (state.engines here).ended
    state.put here {engine with calls := engine.calls.eraseIdx index}

def liveModelMatchesTable (model rows : List Rule) : Bool := model.all (· ∈ rows) ∧ model.length = rows.length

-- The next step of a rebuild; a third attempt that a write overlapped is the last.
def rebuild (setting : Setting φ) [DecidableEq φ] (state : State φ) (here : Nat) : Running φ → State φ
  | .fingerprinting attempt =>
    state.put here {state.engines here with active := some (.fingerprinted attempt (setting.fingerprint state.store.rows))}
  | .fingerprinted attempt fingerprint =>
    let engine := state.engines here
    state.put here {engine with
      active := if engine.applied = some fingerprint then none else some (.comparing attempt fingerprint engine.writeGen)}
  | .comparing attempt fingerprint writes =>
    state.put here {state.engines here with active := some (.compared attempt fingerprint writes state.store.rows)}
  | .compared attempt fingerprint writes rows =>
    let engine := state.engines here
    if liveModelMatchesTable engine.model rows then
      state.put here {engine with
        applied := if engine.settled writes then some fingerprint else engine.applied
        active := none}
    else state.put here {engine with active := some (.loading attempt fingerprint writes)}
  | .loading attempt fingerprint writes =>
    state.put here {state.engines here with active := some (.loaded attempt fingerprint writes state.store.rows)}
  | .loaded attempt fingerprint writes rows =>
    let engine := state.engines here
    if engine.settled writes then
      let fresh := rows.filterMap setting.loadPolicyLine
      {state.put here {engine with
          live := engine.next
          next := engine.next + 1
          models := Function.update engine.models engine.next fresh
          applied := some fingerprint
          active := none} with
        installed := state.installed ++ [(fresh,state.last here)]}
    else state.put here {engine with active := if attempt + 1 < 3 then some (.fingerprinting (attempt + 1)) else none}
  | _ => state

-- A step of a receive; a rule that was changed voids the remembered fingerprint at the end.
def receive (state : State φ) (here : Nat) : Running φ → State φ
  | .reading candidates =>
    state.put here {state.engines here with active := some (.editing (heldRows state.store.rows candidates) candidates false)}
  | .editing held (rule::rest) touched =>
    let engine := state.engines here
    let want : Bool := rule ∈ held
    let has : Bool := rule ∈ engine.model
    state.put here {engine with
      models := Function.update engine.models engine.live (if want = has then engine.model
        else if want then addPolicy engine.model rule else removePolicy engine.model rule)
      active := some (.editing held rest (touched || want ≠ has))}
  | .editing _ [] touched =>
    let engine := state.engines here
    state.put here {engine with applied := if touched then none else engine.applied,active := none}
  | _ => state

def chain (setting : Setting φ) [DecidableEq φ] (state : State φ) (here : Nat) : Option (State φ) :=
  let engine := state.engines here
  match engine.active with
  | none => match engine.queue with
    | [] => none
    | .rebuild::queue => some (state.put here {engine with queue,active := some (.fingerprinting 0)})
    | .receive change::queue =>
      let named := candidates change engine.model
      some (state.put here {engine with queue,active := if named = [] then none else some (.reading named)})
  | some (.reading candidates) => some (receive state here (.reading candidates))
  | some (.editing held rest touched) => some (receive state here (.editing held rest touched))
  | some running => some (rebuild setting state here running)

def step (setting : Setting φ) [DecidableEq φ] (state : State φ) : Action → Option (State φ)
  | .begin here owner edit =>
    let engine := (state.engines here).begun
    if owner < engine.next then
      some (state.put here
        {engine with calls := engine.calls ++ [.writing owner edit (edit.agrees (engine.models owner))]})
    else none
  | .materialize here resources extension =>
    let engine := (state.engines here).begun
    some (state.put here
      {engine with calls := engine.calls ++ [.granting (defaultGrants setting.sensitive resources extension) []]})
  | .advance here index => ((state.engines here).calls[index]?).map (advance setting state here index)
  | .fail here index => match (state.engines here).calls[index]? with
    | some (.writing _ _ _) | some (.granting (_::_) _) =>
      let engine := (state.engines here).ended
      some (state.put here {engine with calls := engine.calls.eraseIdx index})
    | _ => none
  | .direct gone inserted =>
    some {state with
      store := {state.store with rows := inserted.foldl addPolicy (state.store.rows.filter fun row => !gone row)}
      last := fun other rule => if gone rule ∨ rule ∈ inserted then none else state.last other rule}
  | .deliver here change =>
    let engine := state.engines here
    some (state.put here {engine with queue := engine.queue ++ [.receive change]})
  | .rebuild here =>
    let engine := state.engines here
    some (state.put here {engine with queue := engine.queue ++ [.rebuild]})
  | .chain here => chain setting state here

-- A rebuild that records its fingerprint read the same rules after it as for it; it
-- records them for a live model no write is still to change, or has read each back as it is.
def Permitted (setting : Setting φ) (state : State φ) : Action → Prop
  | .chain here => ∀ attempt fingerprint writes rows, (state.engines here).settled writes = true →
      ((state.engines here).active = some (.compared attempt fingerprint writes rows) →
        liveModelMatchesTable (state.engines here).model rows = true →
        setting.fingerprint rows = fingerprint ∧ ∀ edit, .editing (state.engines here).live edit ∉ (state.engines here).calls) ∧
      ((state.engines here).active = some (.loaded attempt fingerprint writes rows) →
        setting.fingerprint rows = fingerprint ∧ ∀ rule ∈ rows, setting.loadPolicyLine rule = some rule)
  | _ => True

theorem addPolicy_nodup {model : List Rule} (nodup : model.Nodup) (rule : Rule) : (addPolicy model rule).Nodup := by
  unfold addPolicy
  split
  · exact nodup
  · next away =>
    rw [List.nodup_append]
    refine ⟨nodup,by simp,fun held inside other single => ?_⟩
    rintro rfl
    exact away (List.mem_singleton.mp single ▸ inside)

theorem addPolicies_nodup {model : List Rule} (nodup : model.Nodup) (rules : List Rule) : (rules.foldl addPolicy model).Nodup := by
  induction rules generalizing model with
  | nil => exact nodup
  | cons rule rest ih => exact ih (addPolicy_nodup nodup rule)

theorem statement_nodup {store : Store} (nodup : store.rows.Nodup) (sensitive : List String) (edit : Edit) :
    (edit.statement sensitive store).rows.Nodup := by
  cases edit with
  | add rule => exact addPolicy_nodup nodup rule
  | remove rule => exact nodup.filter _
  | removeFiltered sec filter => exact nodup.filter _

theorem model_nodup {model : List Rule} (nodup : model.Nodup) (edit : Edit) : (edit.model model).Nodup := by
  cases edit with
  | add rule => exact addPolicy_nodup nodup rule
  | remove rule => exact nodup.filter _
  | removeFiltered sec filter => exact nodup.filter _

theorem statement_exact (sensitive : List String) (store : Store) (edit : Edit) (rule : Rule) :
    (rule ∈ (edit.statement sensitive store).rows) ↔ match edit.value rule with
      | some held => held = true
      | none => rule ∈ store.rows := by
  cases edit with
  | add own =>
    by_cases same : rule = own <;> simp [Edit.statement,Edit.value,same]
  | remove own =>
    by_cases same : rule = own <;> simp [Edit.statement,Edit.value,same]
  | removeFiltered sec filter =>
    by_cases same : Change.filtered ⟨sec,[],some filter⟩ rule = true
    · simp [Edit.statement,Edit.value,same]
    · simp [Edit.statement,Edit.value,same]

theorem tracked_erased {calls : List Call} (here : calls[index]? = some call) :
    calls.countP Call.tracked = (calls.eraseIdx index).countP Call.tracked + if call.tracked then 1 else 0 := by
  obtain ⟨inside,rfl⟩ := List.getElem?_eq_some_iff.mp here
  rw [List.eraseIdx_eq_take_drop_succ,List.countP_append]
  conv_lhs => rw [← List.take_append_drop index calls,List.drop_eq_getElem_cons inside,List.countP_append,List.countP_cons]
  omega

theorem tracked_set {calls : List Call} (here : calls[index]? = some call) (other : Call) :
    (calls.set index other).countP Call.tracked + (if call.tracked then 1 else 0) =
      calls.countP Call.tracked + if other.tracked then 1 else 0 := by
  obtain ⟨inside,rfl⟩ := List.getElem?_eq_some_iff.mp here
  rw [List.set_eq_take_append_cons_drop,if_pos inside,List.countP_append,List.countP_cons]
  conv_rhs => rw [← List.take_append_drop index calls,List.drop_eq_getElem_cons inside,List.countP_append,List.countP_cons]
  omega

-- What a rebuild under way has in hand: rows that hold every write ended before it read
-- them, unless a write has begun since.
def Held (last : Rule → Option Bool) (engine : Engine φ) : Running φ → Prop
  | .comparing _ _ writes => writes ≤ engine.writeGen
  | .compared _ _ writes _ => writes ≤ engine.writeGen
  | .loading _ _ writes => writes ≤ engine.writeGen
  | .loaded _ _ writes rows => writes ≤ engine.writeGen ∧ rows.Nodup ∧
      (engine.settled writes = true → ∀ rule held, last rule = some held → (rule ∈ rows ↔ held = true))
  | _ => True

structure EngineOk (setting : Setting φ) (last : Rule → Option Bool) (engine : Engine φ) : Prop where
  live : engine.live < engine.next
  owners : ∀ call ∈ engine.calls, ∀ owner, call.owner = some owner → owner < engine.next
  nodup : ∀ id, (engine.models id).Nodup
  counted : engine.inFlight = engine.calls.countP Call.tracked
  idle : engine.applied ≠ none → ∀ edit, .editing engine.live edit ∉ engine.calls
  applied : ∀ fingerprint, engine.applied = some fingerprint → .granted ∈ engine.calls ∨
    (∃ held rest, engine.active = some (.editing held rest true)) ∨ setting.fingerprint engine.model = fingerprint
  held : ∀ running, engine.active = some running → Held last engine running

structure Ok (setting : Setting φ) (state : State φ) : Prop where
  rows : state.store.rows.Nodup
  last : ∀ here rule held, state.last here rule = some held → (rule ∈ state.store.rows ↔ held = true)
  engines : ∀ here, EngineOk setting (state.last here) (state.engines here)
  installed : ∀ entry ∈ state.installed, ∀ rule held, entry.2 rule = some held → (rule ∈ entry.1 ↔ held = true)

theorem initial_ok (setting : Setting φ) (rules : List Rule) : Ok setting (State.initial setting rules) := by
  have nodup := addPolicies_nodup List.nodup_nil rules
  exact ⟨nodup,nofun,fun _ => ⟨Nat.zero_lt_one,nofun,fun _ => nodup,rfl,fun _ _ => nofun,
    fun _ same => .inr (.inr (Option.some.inj same)),nofun⟩,nofun⟩

theorem fewer_ok {engine : Engine φ} (ok : EngineOk setting last engine)
    (fewer : ∀ rule held, less rule = some held → last rule = some held) : EngineOk setting less engine := by
  refine ⟨ok.live,ok.owners,ok.nodup,ok.counted,ok.idle,ok.applied,fun running here => ?_⟩
  have held := ok.held running here
  cases running with
  | loaded attempt fingerprint writes rows =>
    exact ⟨held.1,held.2.1,fun settled rule value found => held.2.2 settled rule value (fewer rule value found)⟩
  | _ => exact held

theorem put_ok {state : State φ} (ok : Ok setting state) (engine : EngineOk setting (state.last here) engine') :
    Ok setting (state.put here engine') := by
  refine ⟨ok.rows,ok.last,fun other => ?_,ok.installed⟩
  by_cases own : other = here
  · subst own
    simpa only [State.put,Function.update_self] using engine
  · simpa only [State.put,Function.update_of_ne own] using ok.engines other

theorem wrote_ok {state : State φ} {engine' : Engine φ} (ok : Ok setting state) {store : Store} {value : Rule → Option Bool} (nodup : store.rows.Nodup)
    (exact : ∀ rule, rule ∈ store.rows ↔ match value rule with
      | some held => held = true
      | none => rule ∈ state.store.rows)
    (engine : EngineOk setting ((state.wrote here store value).last here) engine') :
    Ok setting ((state.wrote here store value).put here engine') := by
  refine ⟨nodup,fun other rule held known => ?_,fun other => ?_,ok.installed⟩
  · rw [show ((state.wrote here store value).put here engine').store.rows = store.rows from rfl,exact]
    cases made : value rule with
    | none => exact ok.last other rule held (by simpa [State.put,State.wrote,made] using known)
    | some own =>
      have same : other = here ∧ own = held := by simpa [State.put,State.wrote,made] using known
      simp [same.2]
  · by_cases own : other = here
    · subst own
      simpa only [State.put,Function.update_self] using engine
    · have kept : EngineOk setting ((state.wrote here store value).last other) (state.engines other) := by
        refine fewer_ok (ok.engines other) fun rule held known => ?_
        cases made : value rule with
        | none => simpa [State.wrote,made] using known
        | some value => simp [State.wrote,made,own] at known
      have same : ((state.wrote here store value).put here engine').engines other = state.engines other :=
        Function.update_of_ne own _ _
      rw [same]
      exact kept

theorem mem_erased {calls : List κ} (member : call ∈ calls.eraseIdx index) : call ∈ calls := List.eraseIdx_subset member

theorem unsettled {engine : Engine φ} (ok : EngineOk setting last engine) (gen : engine'.writeGen = engine.writeGen + 1)
    (here : engine.active = some running) : Held last' engine' running := by
  have held := ok.held running here
  have never : ∀ writes, writes ≤ engine.writeGen → engine'.settled writes = true → False := by
    intro writes less settled
    have same := (of_decide_eq_true settled).2
    omega
  cases running with
  | comparing attempt fingerprint writes => exact (gen ▸ Nat.le_succ_of_le held : writes ≤ engine'.writeGen)
  | compared attempt fingerprint writes rows => exact (gen ▸ Nat.le_succ_of_le held : writes ≤ engine'.writeGen)
  | loading attempt fingerprint writes => exact (gen ▸ Nat.le_succ_of_le held : writes ≤ engine'.writeGen)
  | loaded attempt fingerprint writes rows =>
    exact ⟨gen ▸ Nat.le_succ_of_le held.1,held.2.1,fun settled => (never writes held.1 settled).elim⟩
  | _ => trivial

theorem busy_held {engine engine' : Engine φ} (gen : engine'.writeGen = engine.writeGen) (busy : engine'.inFlight ≠ 0)
    (held : Held last engine running) : Held last' engine' running := by
  cases running with
  | comparing attempt fingerprint writes => exact (gen ▸ held : writes ≤ engine'.writeGen)
  | compared attempt fingerprint writes rows => exact (gen ▸ held : writes ≤ engine'.writeGen)
  | loading attempt fingerprint writes => exact (gen ▸ held : writes ≤ engine'.writeGen)
  | loaded attempt fingerprint writes rows =>
    exact ⟨gen ▸ held.1,held.2.1,fun settled => absurd (of_decide_eq_true settled).1 busy⟩
  | _ => trivial

theorem same_held {engine engine' : Engine φ} (gen : engine'.writeGen = engine.writeGen) (flight : engine'.inFlight = engine.inFlight)
    (held : Held last engine running) : Held last engine' running := by
  cases running with
  | comparing attempt fingerprint writes => exact (gen ▸ held : writes ≤ engine'.writeGen)
  | compared attempt fingerprint writes rows => exact (gen ▸ held : writes ≤ engine'.writeGen)
  | loading attempt fingerprint writes => exact (gen ▸ held : writes ≤ engine'.writeGen)
  | loaded attempt fingerprint writes rows =>
    refine ⟨gen ▸ held.1,held.2.1,fun settled => held.2.2 ?_⟩
    simpa only [Engine.settled,gen,flight] using settled
  | _ => trivial

theorem begun_ok {engine : Engine φ} (ok : EngineOk setting last engine) (tracked : call.tracked = true)
    (owner : ∀ owner, call.owner = some owner → owner < engine.next) :
    EngineOk setting last {engine.begun with calls := engine.calls ++ [call]} := by
  refine ⟨ok.live,fun other member => ?_,ok.nodup,?_,fun some' edit member => ?_,fun fingerprint same => ?_,
    fun running here => unsettled ok rfl here⟩
  · rcases List.mem_append.mp member with old | new
    · exact ok.owners other old
    · cases List.mem_singleton.mp new
      exact owner
  · simp [Engine.begun,ok.counted,tracked]
  · rcases List.mem_append.mp member with old | new
    · exact ok.idle some' edit old
    · rw [← List.mem_singleton.mp new] at tracked
      cases tracked
  · exact (ok.applied fingerprint same).imp (List.mem_append_left _) id

theorem ended_ok {engine : Engine φ} (ok : EngineOk setting last engine) (calls : List Call)
    (counted : engine.calls.countP Call.tracked = calls.countP Call.tracked + 1)
    (owners : ∀ call ∈ calls, ∀ owner, call.owner = some owner → owner < engine.next) :
    EngineOk setting last {engine.ended with calls} := by
  refine ⟨ok.live,owners,ok.nodup,?_,fun some' => absurd rfl some',nofun,fun running here => unsettled ok rfl here⟩
  show engine.inFlight - 1 = _
  rw [ok.counted,counted]
  rfl

theorem update_nodup {models : Nat → List Rule} (nodup : ∀ id, (models id).Nodup) (new : rows.Nodup) (owner : Nat) :
    ∀ id, (Function.update models owner rows id).Nodup := by
  intro id
  by_cases own : id = owner
  · subst own
    rwa [Function.update_self]
  · rw [Function.update_of_ne own]
    exact nodup id

theorem busy {engine : Engine φ} {call : Call} {index : Nat} (ok : EngineOk setting last engine) (here : engine.calls[index]? = some call)
    (tracked : call.tracked = true) : engine.inFlight ≠ 0 := by
  rw [ok.counted]
  exact Nat.ne_of_gt (List.countP_pos_iff.mpr ⟨call,List.mem_of_getElem? here,tracked⟩)

theorem set_owners {engine : Engine φ} (ok : EngineOk setting last engine) (other : Call) (new : ∀ owner, other.owner = some owner → owner < engine.next) :
    ∀ call ∈ engine.calls.set index other, ∀ owner, call.owner = some owner → owner < engine.next := by
  intro call member
  rcases List.mem_or_eq_of_mem_set member with old | rfl
  · exact ok.owners call old
  · exact new

theorem tracked_ok {engine : Engine φ} (ok : EngineOk setting last engine) (here : engine.calls[index]? = some call)
    (tracked : call.tracked = true) (more : other.tracked = true) (last' : Rule → Option Bool) (done : call ≠ .granted)
    (new : ∀ owner, other.owner = some owner → owner < engine.next) :
    EngineOk setting last' {engine with calls := engine.calls.set index other} := by
  have counts := tracked_set here other
  have under : engine.inFlight ≠ 0 := busy ok here tracked
  refine ⟨ok.live,set_owners ok other new,ok.nodup,?_,fun some' edit member => ?_,fun fingerprint same => ?_,
    fun running active => busy_held rfl under (ok.held running active)⟩
  · rw [if_pos tracked,if_pos more] at counts
    exact ok.counted.trans (Nat.add_right_cancel counts).symm
  · rcases List.mem_or_eq_of_mem_set member with old | same
    · exact ok.idle some' edit old
    · rw [← same] at more
      cases more
  · refine (ok.applied fingerprint same).imp (fun member => ?_) id
    rcases kept_or_set member index other with kept | own
    · exact kept
    · cases here.symm.trans own
      exact absurd rfl done

theorem advance_ok {setting : Setting φ} {state : State φ} (ok : Ok setting state)
    (found : (state.engines here).calls[index]? = some call) : Ok setting (advance setting state here index call) := by
  have engine := ok.engines here
  have inside := List.mem_of_getElem? found
  cases call with
  | writing owner edit agrees =>
    refine wrote_ok ok (statement_nodup ok.rows setting.sensitive edit) (statement_exact setting.sensitive state.store edit) ?_
    exact tracked_ok engine found rfl rfl _ nofun fun other same => engine.owners _ inside other same
  | written owner edit agrees =>
    refine put_ok ok (ended_ok engine _ ?_ ?_)
    · cases agrees with
      | true => exact tracked_erased found
      | false => exact (tracked_set found (.editing owner edit)).symm
    · cases agrees with
      | true => exact fun other member => engine.owners other (mem_erased member)
      | false => exact set_owners engine (.editing owner edit) fun other same => engine.owners _ inside other same
  | editing owner edit =>
    refine put_ok ok ⟨engine.live,fun other member => engine.owners other (mem_erased member),
      update_nodup engine.nodup (model_nodup (engine.nodup owner) edit) owner,?_,fun some' other member => engine.idle some' other (mem_erased member),fun fingerprint same => ?_,
      fun running active => same_held rfl rfl (engine.held running active)⟩
    · exact engine.counted.trans (tracked_erased found)
    · have away : (state.engines here).live ≠ owner := by
        rintro rfl
        exact engine.idle (by rw [show (state.engines here).applied = some fingerprint from same]; nofun) edit inside
      have kept : Function.update (state.engines here).models owner (edit.model ((state.engines here).models owner))
          (state.engines here).live = (state.engines here).model := Function.update_of_ne away _ _
      rcases engine.applied fingerprint same with granted | clearing | equal
      · refine .inl ((kept_or_erased granted index).resolve_right fun own => ?_)
        cases found.symm.trans own
      · exact .inr (.inl clearing)
      · exact .inr (.inr (by rw [← equal]; exact congrArg setting.fingerprint kept))
  | granting todo done =>
    cases todo with
    | nil =>
      have counts := tracked_set found .granted
      refine put_ok ok ⟨engine.live,set_owners engine .granted nofun,
        update_nodup engine.nodup (addPolicies_nodup (engine.nodup _) done) _,?_,fun some' edit member => ?_,fun _ _ => .inl (set_member found _),fun running active => same_held rfl rfl (engine.held running active)⟩
      · exact engine.counted.trans (by simpa [Call.tracked] using counts.symm)
      · rcases List.mem_or_eq_of_mem_set member with old | same
        · exact engine.idle some' edit old
        · cases same
    | cons grant todo =>
      dsimp only [advance]
      cases granted : state.store.grant grant with
      | none => exact put_ok ok (tracked_ok engine found rfl rfl _ nofun nofun)
      | some store =>
        refine wrote_ok ok ?_ (fun rule => ?_) (tracked_ok engine found rfl rfl _ nofun nofun)
        · unfold Store.grant at granted
          split at granted
          · cases granted
          · cases Option.some.inj granted
            exact addPolicy_nodup ok.rows _
        · rw [mem_grant granted]
          by_cases own : rule = grant.rule <;> simp [own]
  | granted =>
    exact put_ok ok (ended_ok engine _ (tracked_erased found) fun other member => engine.owners other (mem_erased member))

theorem matches_exact {model rows : List Rule} (unique : model.Nodup)
    (same : liveModelMatchesTable model rows = true) (rule : Rule) : rule ∈ model ↔ rule ∈ rows := by
  obtain ⟨inside,length⟩ := of_decide_eq_true same
  have subset : model ⊆ rows := fun rule member => of_decide_eq_true (List.all_eq_true.mp inside rule member)
  exact ((List.subperm_of_subset unique subset).perm_of_length_le (Nat.le_of_eq length.symm)).mem_iff

theorem loaded_exact {loadPolicyLine : Rule → Option Rule} {rows : List Rule} (plain : ∀ rule ∈ rows, loadPolicyLine rule = some rule) : rows.filterMap loadPolicyLine = rows := by
  induction rows with
  | nil => rfl
  | cons rule rest ih =>
    rw [List.filterMap_cons,plain rule (List.mem_cons_self ..),ih fun other member => plain other (List.mem_cons_of_mem _ member)]

theorem active_ok {engine : Engine φ} (ok : EngineOk setting last engine) (queue : List Task) (active : Option (Running φ))
    (clearing : (∃ held rest, engine.active = some (.editing held rest true)) → ∃ held rest, active = some (.editing held rest true))
    (held : ∀ running, active = some running → Held last engine running) :
    EngineOk setting last {engine with queue,active} :=
  ⟨ok.live,ok.owners,ok.nodup,ok.counted,ok.idle,fun fingerprint same => (ok.applied fingerprint same).imp id (.imp clearing id),
    fun running here => same_held rfl rfl (held running here)⟩

theorem receive_ok {setting : Setting φ} {state : State φ} (ok : Ok setting state) (active : (state.engines here).active = some running) :
    Ok setting (receive state here running) := by
  have engine := ok.engines here
  cases running with
  | reading candidates =>
    refine put_ok ok (active_ok engine _ _ ?_ ?_)
    · rintro ⟨_,_,editing⟩
      cases active.symm.trans editing
    · rintro _ ⟨⟩
      trivial
  | editing held rest touched =>
    cases rest with
    | nil =>
      refine put_ok ok ?_
      cases touched with
      | true => exact ⟨engine.live,engine.owners,engine.nodup,engine.counted,fun some' => absurd rfl some',nofun,nofun⟩
      | false =>
        refine ⟨engine.live,engine.owners,engine.nodup,engine.counted,engine.idle,fun fingerprint same => ?_,nofun⟩
        rcases engine.applied fingerprint same with granted | ⟨_,_,editing⟩ | equal
        · exact .inl granted
        · cases active.symm.trans editing
        · exact .inr (.inr equal)
    | cons rule rest =>
      have nodup : (if decide (rule ∈ held) = decide (rule ∈ (state.engines here).model) then (state.engines here).model
          else if decide (rule ∈ held) = true then addPolicy (state.engines here).model rule
          else removePolicy (state.engines here).model rule).Nodup := by
        split
        · exact engine.nodup _
        · split
          · exact addPolicy_nodup (engine.nodup _) rule
          · exact (engine.nodup _).filter _
      refine put_ok ok ⟨engine.live,engine.owners,update_nodup engine.nodup nodup _,engine.counted,engine.idle,
        fun fingerprint same => ?_,?_⟩
      · by_cases agrees : decide (rule ∈ held) = decide (rule ∈ (state.engines here).model)
        · rcases engine.applied fingerprint same with granted | ⟨_,_,editing⟩ | equal
          · exact .inl granted
          · cases active.symm.trans editing
            exact .inr (.inl ⟨held,rest,by simp⟩)
          · refine .inr (.inr ?_)
            simpa only [Engine.model,agrees,if_true,Function.update_self] using equal
        · exact .inr (.inl ⟨held,rest,by simp [agrees]⟩)
      · rintro _ ⟨⟩
        trivial
  | _ => exact ok

theorem rebuild_ok [DecidableEq φ] {setting : Setting φ} {state : State φ} (exact : setting.Exact) (ok : Ok setting state)
    (active : (state.engines here).active = some running) (permitted : Permitted setting state (.chain here)) :
    Ok setting (rebuild setting state here running) := by
  have engine := ok.engines here
  have held := engine.held running active
  have idle : (∃ held rest, (state.engines here).active = some (.editing held rest true)) →
      (∀ held rest, running ≠ .editing held rest true) → False := by
    rintro ⟨held,rest,editing⟩ other
    exact other held rest (Option.some.inj (active.symm.trans editing))
  cases running with
  | fingerprinting attempt =>
    refine put_ok ok (active_ok engine _ _ (fun editing => (idle editing nofun).elim) ?_)
    rintro _ ⟨⟩
    trivial
  | fingerprinted attempt fingerprint =>
    refine put_ok ok (active_ok engine _ _ (fun editing => (idle editing nofun).elim) fun running next => ?_)
    split at next
    · cases next
    · cases next
      exact Nat.le_refl _
  | comparing attempt fingerprint writes =>
    refine put_ok ok (active_ok engine _ _ (fun editing => (idle editing nofun).elim) ?_)
    rintro _ ⟨⟩
    exact held
  | compared attempt fingerprint writes rows =>
    dsimp only [rebuild]
    split
    · next same =>
      by_cases settled : (state.engines here).settled writes = true
      · obtain ⟨read,pending⟩ := ((permitted attempt fingerprint writes rows settled).1 active same)
        have equal : setting.fingerprint (state.engines here).model = fingerprint :=
          read ▸ (exact _ _).mpr (matches_exact (engine.nodup _) same)
        rw [if_pos settled]
        exact put_ok ok ⟨engine.live,engine.owners,engine.nodup,engine.counted,fun _ => pending,
          fun _ same => .inr (.inr (equal.trans (Option.some.inj same))),nofun⟩
      · rw [if_neg settled]
        exact put_ok ok (active_ok engine _ _ (fun editing => (idle editing nofun).elim) nofun)
    · refine put_ok ok (active_ok engine _ _ (fun editing => (idle editing nofun).elim) ?_)
      rintro _ ⟨⟩
      exact held
  | loading attempt fingerprint writes =>
    refine put_ok ok (active_ok engine _ _ (fun editing => (idle editing nofun).elim) ?_)
    rintro _ ⟨⟩
    exact ⟨held,ok.rows,fun _ => ok.last here⟩
  | loaded attempt fingerprint writes rows =>
    dsimp only [rebuild]
    split
    · next settled =>
      obtain ⟨read,plain⟩ := (permitted attempt fingerprint writes rows settled).2 active
      rw [loaded_exact plain]
      have swapped : Ok setting (state.put here {state.engines here with
          live := (state.engines here).next
          next := (state.engines here).next + 1
          models := Function.update (state.engines here).models (state.engines here).next rows
          applied := some fingerprint
          active := none}) := by
        refine put_ok ok ⟨Nat.lt_succ_self _,fun call member owner own => Nat.lt_succ_of_lt (engine.owners call member owner own),
          update_nodup engine.nodup held.2.1 _,engine.counted,fun _ edit member => ?_,fun _ same => .inr (.inr ?_),nofun⟩
        · exact absurd (engine.owners _ member _ rfl) (Nat.lt_irrefl _)
        · rw [← Option.some.inj same,← read]
          exact congrArg setting.fingerprint (Function.update_self ..)
      refine ⟨swapped.rows,swapped.last,swapped.engines,fun entry member => ?_⟩
      rcases List.mem_append.mp member with old | new
      · exact ok.installed entry old
      · cases List.mem_singleton.mp new
        exact held.2.2 settled
    · refine put_ok ok (active_ok engine _ _ (fun editing => (idle editing nofun).elim) fun running next => ?_)
      split at next
      · cases next
        trivial
      · cases next
  | _ => exact ok

theorem chain_ok [DecidableEq φ] {setting : Setting φ} {state after : State φ} (exact : setting.Exact) (ok : Ok setting state)
    (permitted : Permitted setting state (.chain here)) (one : chain setting state here = some after) : Ok setting after := by
  unfold chain at one
  have engine := ok.engines here
  cases active : (state.engines here).active with
  | none =>
    have quiet : ∀ {next : Option (Running φ)}, (∃ held rest, (state.engines here).active = some (.editing held rest true)) →
        ∃ held rest, next = some (.editing held rest true) := by
      rintro _ ⟨_,_,editing⟩
      cases active.symm.trans editing
    simp only [active] at one
    cases queued : (state.engines here).queue with
    | nil => simp [queued] at one
    | cons task queue =>
      simp only [queued] at one
      cases task with
      | rebuild =>
        cases Option.some.inj one
        refine put_ok ok (active_ok engine _ _ quiet ?_)
        rintro _ ⟨⟩
        trivial
      | receive change =>
        cases Option.some.inj one
        refine put_ok ok (active_ok engine _ _ quiet fun running next => ?_)
        split at next
        · cases next
        · cases next
          trivial
  | some running =>
    simp only [active] at one
    cases running with
    | reading candidates =>
      cases Option.some.inj one
      exact receive_ok ok active
    | editing held rest touched =>
      cases Option.some.inj one
      exact receive_ok ok active
    | _ =>
      cases Option.some.inj one
      exact rebuild_ok exact ok active permitted

theorem step_ok [DecidableEq φ] {setting : Setting φ} (exact : setting.Exact) :
    Preserved (step setting) (Permitted setting) (Ok setting) := by
  intro before action after ok permitted one
  cases action with
  | begin here owner edit =>
    simp only [step] at one
    split at one
    · next known =>
      cases Option.some.inj one
      exact put_ok ok (begun_ok (ok.engines here) rfl fun other same => Option.some.inj same ▸ known)
    · cases one
  | materialize here resources extension =>
    cases Option.some.inj one
    exact put_ok ok (begun_ok (ok.engines here) rfl nofun)
  | advance here index =>
    obtain ⟨call,found,rfl⟩ := Option.map_eq_some_iff.mp one
    exact advance_ok ok found
  | fail here index =>
    have dropped : ∀ {call : Call}, (before.engines here).calls[index]? = some call → call.tracked = true →
        Ok setting (before.put here {(before.engines here).ended with calls := (before.engines here).ended.calls.eraseIdx index}) := by
      intro call found tracked
      have counts := tracked_erased found
      rw [if_pos tracked] at counts
      exact put_ok ok (ended_ok (ok.engines here) _ counts fun other member => (ok.engines here).owners other (mem_erased member))
    simp only [step] at one
    split at one
    · next found =>
      cases Option.some.inj one
      exact dropped found rfl
    · next found =>
      cases Option.some.inj one
      exact dropped found rfl
    · cases one
  | direct gone inserted =>
    cases Option.some.inj one
    refine ⟨addPolicies_nodup (ok.rows.filter _) inserted,fun here rule held known => ?_,fun here => ?_,ok.installed⟩
    · dsimp only at known
      split at known
      · cases known
      · next away =>
        rw [← ok.last here rule held known]
        simp_all [mem_addPolicies]
    · refine fewer_ok (ok.engines here) fun rule held known => ?_
      dsimp only at known
      split at known
      · cases known
      · exact known
  | deliver here change =>
    cases Option.some.inj one
    exact put_ok ok (active_ok (ok.engines here) _ _ id (ok.engines here).held)
  | rebuild here =>
    cases Option.some.inj one
    exact put_ok ok (active_ok (ok.engines here) _ _ id (ok.engines here).held)
  | chain here => exact chain_ok exact ok permitted one

-- No write and no message is under way; a rebuild may be.
structure Quiet (engine : Engine φ) : Prop where
  calls : engine.calls = []
  queue : ∀ change, .receive change ∉ engine.queue
  reading : ∀ candidates, engine.active ≠ some (.reading candidates)
  editing : ∀ held rest touched, engine.active ≠ some (.editing held rest touched)

-- A rebuild that has read the table as it is.
def UpToDate (setting : Setting φ) (rows : List Rule) (engine : Engine φ) : Running φ → Prop
  | .fingerprinting _ => True
  | .fingerprinted _ fingerprint => fingerprint = setting.fingerprint rows
  | .comparing _ _ writes => writes = engine.writeGen
  | .compared _ _ writes read => writes = engine.writeGen ∧ read = rows
  | .loading _ _ writes => writes = engine.writeGen
  | .loaded _ _ writes read => writes = engine.writeGen ∧ read = rows
  | _ => False

def Follows (engine : Engine φ) (rows : List Rule) : Prop := ∀ rule, rule ∈ engine.model ↔ rule ∈ rows

def Coming (setting : Setting φ) (rows : List Rule) (engine : Engine φ) : Prop :=
  .rebuild ∈ engine.queue ∨ (∃ running, engine.active = some running ∧ UpToDate setting rows engine running) ∨
    engine.active = none ∧ Follows engine rows

def Alone : Action → Prop
  | .rebuild _ | .chain _ => True
  | _ => False

theorem put_here (state : State φ) (here : Nat) (engine : Engine φ) : (state.put here engine).engines here = engine :=
  Function.update_self ..

theorem put_other (state : State φ) (engine : Engine φ) (other : here ≠ there) : (state.put there engine).engines here = state.engines here :=
  Function.update_of_ne other ..

theorem rebuild_alone [DecidableEq φ] {setting : Setting φ} {state : State φ} (active : (state.engines here).active = some running)
    (quiet : Quiet (state.engines here)) : ∃ engine, (rebuild setting state here running).engines = Function.update state.engines here engine ∧
      (rebuild setting state here running).store = state.store ∧ engine.queue = (state.engines here).queue ∧ Quiet engine := by
  have next : ∀ {engine : Engine φ}, engine.calls = (state.engines here).calls → engine.queue = (state.engines here).queue →
      (∀ candidates, engine.active ≠ some (.reading candidates)) →
      (∀ held rest touched, engine.active ≠ some (.editing held rest touched)) → Quiet engine :=
    fun calls queue reading editing => ⟨calls.trans quiet.calls,queue ▸ quiet.queue,reading,editing⟩
  cases running with
  | reading candidates => exact absurd active (quiet.reading candidates)
  | editing held rest touched => exact absurd active (quiet.editing held rest touched)
  | fingerprinting attempt => exact ⟨_,rfl,rfl,rfl,next rfl rfl nofun nofun⟩
  | fingerprinted attempt fingerprint =>
    refine ⟨_,rfl,rfl,rfl,next rfl rfl (fun _ => ?_) fun _ _ _ => ?_⟩
    · dsimp only
      split <;> nofun
    · dsimp only
      split <;> nofun
  | comparing attempt fingerprint writes => exact ⟨_,rfl,rfl,rfl,next rfl rfl nofun nofun⟩
  | compared attempt fingerprint writes rows =>
    simp only [rebuild]
    split
    · exact ⟨_,rfl,rfl,rfl,next rfl rfl nofun nofun⟩
    · exact ⟨_,rfl,rfl,rfl,next rfl rfl nofun nofun⟩
  | loading attempt fingerprint writes => exact ⟨_,rfl,rfl,rfl,next rfl rfl nofun nofun⟩
  | loaded attempt fingerprint writes rows =>
    simp only [rebuild]
    split
    · exact ⟨_,rfl,rfl,rfl,next rfl rfl nofun nofun⟩
    · refine ⟨_,rfl,rfl,rfl,next rfl rfl (fun _ => ?_) fun _ _ _ => ?_⟩
      · dsimp only
        split <;> nofun
      · dsimp only
        split <;> nofun

theorem chain_alone [DecidableEq φ] {setting : Setting φ} {state after : State φ} (quiet : Quiet (state.engines here))
    (one : chain setting state here = some after) : ∃ engine, after.engines = Function.update state.engines here engine ∧
      after.store = state.store ∧ Quiet engine ∧ ((state.engines here).active = none → engine.active = some (.fingerprinting 0)) ∧
      ((state.engines here).active ≠ none → engine.queue = (state.engines here).queue) := by
  unfold chain at one
  cases active : (state.engines here).active with
  | none =>
    simp only [active] at one
    cases queued : (state.engines here).queue with
    | nil => simp [queued] at one
    | cons task queue =>
      have later : ∀ change, .receive change ∉ queue := fun change member =>
        quiet.queue change (queued ▸ List.mem_cons_of_mem _ member)
      simp only [queued] at one
      cases task with
      | rebuild =>
        cases Option.some.inj one
        exact ⟨_,rfl,rfl,⟨quiet.calls,later,nofun,nofun⟩,fun _ => rfl,fun some' => absurd rfl some'⟩
      | receive change => exact absurd (queued ▸ List.mem_cons_self ..) (quiet.queue change)
  | some running =>
    have moved : ∃ engine, (rebuild setting state here running).engines = Function.update state.engines here engine ∧
        (rebuild setting state here running).store = state.store ∧ engine.queue = (state.engines here).queue ∧ Quiet engine :=
      rebuild_alone active quiet
    obtain ⟨engine,engines,store,queue,still⟩ := moved
    simp only [active] at one
    cases running with
    | reading candidates => exact absurd active (quiet.reading candidates)
    | editing held rest touched => exact absurd active (quiet.editing held rest touched)
    | _ =>
      cases Option.some.inj one
      exact ⟨engine,engines,store,still,nofun,fun _ => queue⟩

-- A rebuild that read the table as it is ends with the model at the table.
theorem rebuild_follows [DecidableEq φ] {setting : Setting φ} {state : State φ} (exact : setting.Exact) (ok : Ok setting state)
    (quiet : Quiet (state.engines here)) (active : (state.engines here).active = some running)
    (fresh : UpToDate setting state.store.rows (state.engines here) running) (permitted : Permitted setting state (.chain here)) :
    Coming setting state.store.rows ((rebuild setting state here running).engines here) := by
  have engine := ok.engines here
  have still : (state.engines here).inFlight = 0 := by rw [engine.counted,quiet.calls]; rfl
  cases running with
  | fingerprinting attempt =>
    rw [rebuild,put_here]
    exact .inr (.inl ⟨_,rfl,rfl⟩)
  | fingerprinted attempt fingerprint =>
    rw [rebuild,put_here]
    by_cases known : (state.engines here).applied = some fingerprint
    · refine .inr (.inr ⟨if_pos known,?_⟩)
      rcases engine.applied fingerprint known with granted | ⟨_,_,editing⟩ | equal
      · simp [quiet.calls] at granted
      · exact absurd editing (quiet.editing _ _ _)
      · exact (exact _ _).mp (equal.trans fresh)
    · exact .inr (.inl ⟨_,if_neg known,rfl⟩)
  | comparing attempt fingerprint writes =>
    rw [rebuild,put_here]
    exact .inr (.inl ⟨_,rfl,fresh,rfl⟩)
  | compared attempt fingerprint writes rows =>
    simp only [rebuild]
    split
    · next same =>
      rw [put_here]
      exact .inr (.inr ⟨rfl,fresh.2 ▸ matches_exact (engine.nodup _) same⟩)
    · rw [put_here]
      exact .inr (.inl ⟨_,rfl,fresh.1⟩)
  | loading attempt fingerprint writes =>
    rw [rebuild,put_here]
    exact .inr (.inl ⟨_,rfl,fresh,rfl⟩)
  | loaded attempt fingerprint writes rows =>
    have settled : (state.engines here).settled writes = true := decide_eq_true ⟨still,fresh.1⟩
    have plain := ((permitted attempt fingerprint writes rows settled).2 active).2
    simp only [rebuild,if_pos settled,loaded_exact plain]
    refine .inr (.inr ?_)
    have here' := put_here state here {state.engines here with
      live := (state.engines here).next
      next := (state.engines here).next + 1
      models := Function.update (state.engines here).models (state.engines here).next rows
      applied := some fingerprint
      active := none}
    rw [here']
    have installed := Function.update_self (state.engines here).next rows (state.engines here).models
    exact ⟨rfl,fun rule => iff_of_eq (congrArg (rule ∈ ·) (installed.trans fresh.2))⟩
  | _ => exact fresh.elim

theorem chain_follows [DecidableEq φ] {setting : Setting φ} {state after : State φ} (exact : setting.Exact) (ok : Ok setting state)
    (quiet : Quiet (state.engines here)) (coming : Coming setting state.store.rows (state.engines here))
    (permitted : Permitted setting state (.chain here)) (one : chain setting state here = some after) :
    Coming setting state.store.rows (after.engines here) := by
  obtain ⟨engine,engines,_,_,taken,kept⟩ := chain_alone quiet one
  have own : after.engines here = engine := by rw [engines,Function.update_self]
  cases active : (state.engines here).active with
  | none =>
    rw [own]
    exact .inr (.inl ⟨_,taken active,trivial⟩)
  | some running =>
    rcases coming with waits | ⟨other,same,fresh⟩ | ⟨idle,_⟩
    · rw [own]
      exact .inl (kept (by simp [active]) ▸ waits)
    · cases active.symm.trans same
      have next := rebuild_follows exact ok quiet active fresh permitted
      unfold chain at one
      simp only [active] at one
      cases running with
      | reading candidates => exact fresh.elim
      | editing held rest touched => exact fresh.elim
      | _ =>
        cases Option.some.inj one
        exact next
    · cases active.symm.trans idle

theorem alone_step [DecidableEq φ] {setting : Setting φ} {before after : State φ} (alone : Alone action)
    (quiet : ∀ here, Quiet (before.engines here)) (one : step setting before action = some after) :
    (∀ here, Quiet (after.engines here)) ∧ after.store = before.store ∧ ∀ here, setting.Exact → Ok setting before →
      Permitted setting before action → (Coming setting before.store.rows (before.engines here) ∨ action = .rebuild here) →
      Coming setting after.store.rows (after.engines here) := by
  cases action with
  | rebuild there =>
    cases Option.some.inj one
    refine ⟨fun here => ?_,rfl,fun here _ _ _ coming => ?_⟩
    · by_cases own : here = there
      · subst own
        have old := quiet here
        rw [put_here]
        exact ⟨old.calls,by simpa using old.queue,old.reading,old.editing⟩
      · rw [put_other _ _ own]
        exact quiet here
    · by_cases own : here = there
      · subst own
        rw [put_here]
        exact .inl (List.mem_append_right _ (List.mem_singleton_self _))
      · rw [put_other _ _ own]
        refine coming.resolve_right fun same => own ?_
        cases same
        rfl
  | chain there =>
    obtain ⟨engine,engines,store,still,_,_⟩ := chain_alone (quiet there) one
    have other : ∀ {here}, here ≠ there → after.engines here = before.engines here := fun away => by
      rw [engines,Function.update_of_ne away]
    refine ⟨fun here => ?_,store,fun here exact ok permitted coming => ?_⟩
    · by_cases own : here = there
      · subst own
        rw [engines,Function.update_self]
        exact still
      · rw [other own]
        exact quiet here
    · rw [store]
      by_cases own : here = there
      · subst own
        exact chain_follows exact ok (quiet here) (coming.resolve_right nofun) permitted one
      · rw [other own]
        exact coming.resolve_right nofun
  | _ => exact alone.elim

theorem alone_run [DecidableEq φ] {setting : Setting φ} {before after : State φ} (exact : setting.Exact) (ok : Ok setting before)
    (quiet : ∀ here, Quiet (before.engines here)) (alone : ∀ action ∈ actions, Alone action)
    (guarded : Guarded (step setting) (Permitted setting) before actions) (path : run (step setting) before actions = some after)
    (coming : Coming setting before.store.rows (before.engines here) ∨ .rebuild here ∈ actions) :
    Coming setting after.store.rows (after.engines here) := by
  induction actions generalizing before with
  | nil =>
    cases Option.some.inj path
    exact coming.resolve_right nofun
  | cons action rest ih =>
    obtain ⟨next,one,later⟩ := run_cons.mp path
    obtain ⟨still,_,follows⟩ := alone_step (alone action (List.mem_cons_self ..)) quiet one
    refine ih (step_ok exact before action next ok guarded.1 one) still (fun other member => alone other (List.mem_cons_of_mem _ member))
      (guarded.2 next one) later ?_
    rcases coming with now | member
    · exact .inl (follows here exact ok guarded.1 (.inl now))
    · rcases List.mem_cons.mp member with rfl | waits
      · exact .inl (follows here exact ok guarded.1 (.inr rfl))
      · exact .inr waits

theorem replicas_follow_table [DecidableEq φ] {setting : Setting φ} (exact : setting.Exact)
    (guarded : Guarded (step setting) (Permitted setting) (State.initial setting rules) (actions ++ rebuilds))
    (path : run (step setting) (State.initial setting rules) actions = some middle) :
    (∀ entry ∈ middle.installed, ∀ rule held, entry.2 rule = some held → (rule ∈ entry.1 ↔ held = true)) ∧
    ∀ state here, (∀ there, Quiet (middle.engines there)) → (∀ action ∈ rebuilds, Alone action) → .rebuild here ∈ rebuilds →
      run (step setting) middle rebuilds = some state → (state.engines here).queue = [] → (state.engines here).active = none →
      ∀ rule, rule ∈ (state.engines here).model ↔ rule ∈ state.store.rows := by
  obtain ⟨first,second⟩ := guarded_append.mp guarded
  have ok := run_preserves (step_ok exact) (initial_ok setting rules) first path
  refine ⟨ok.installed,fun state here quiet alone again later queue active => ?_⟩
  rcases alone_run exact ok quiet alone (second middle path) later (.inr again) with waits | ⟨running,same,_⟩ | ⟨_,follows⟩
  · simp [queue] at waits
  · cases active.symm.trans same
  · exact follows

section
def hashing : Setting (Finset Rule) := ⟨List.toFinset,some,[]⟩

theorem hashing_exact : hashing.Exact := fun rows others => by
  simp [hashing,Finset.ext_iff]

def readOrders : Rule := ⟨.p,["editor","*","orders","read"]⟩

def awayAndBack : List Action :=
  [.direct (· = readOrders) [],.rebuild 0,.chain 0,.chain 0,.chain 0,.direct (fun _ => false) [readOrders],.chain 0,.chain 0,
    .direct (· = readOrders) []]

theorem revoke_skipped : ∃ middle state, run (step hashing) (State.initial hashing [readOrders]) awayAndBack = some middle ∧
    ((middle.engines 0).calls = [] ∧ (middle.engines 0).queue = [] ∧ (middle.engines 0).active = none) ∧
    run (step hashing) middle [.rebuild 0,.chain 0,.chain 0,.chain 0] = some state ∧
    ((state.engines 0).queue = [] ∧ (state.engines 0).active = none) ∧
    readOrders ∈ (state.engines 0).model ∧ readOrders ∉ state.store.rows := by
  refine ⟨_,_,rfl,⟨rfl,rfl,?_⟩,rfl,⟨rfl,?_⟩,?_,?_⟩
  all_goals decide

-- A grant written straight to the table is loaded by the next rebuild.
def granted : List Action := [.direct (fun _ => false) [readOrders]]

def oneRebuild : List Action := [.rebuild 0,.chain 0,.chain 0,.chain 0,.chain 0,.chain 0,.chain 0,.chain 0]

theorem replicas_follow_table_oneRebuild : ∃ middle state, run (step hashing) (State.initial hashing []) granted = some middle ∧
    run (step hashing) middle oneRebuild = some state ∧ state.store.rows = [readOrders] ∧
    ∀ rule, rule ∈ (state.engines 0).model ↔ rule ∈ state.store.rows := by
  have guarded : Guarded (step hashing) (Permitted hashing) (State.initial hashing []) (granted ++ oneRebuild) := by
    refine guarded_cons trivial rfl (guarded_cons trivial rfl (guarded_cons ?_ rfl (guarded_cons ?_ rfl (guarded_cons ?_ rfl
      (guarded_cons ?_ rfl (guarded_cons ?_ rfl (guarded_cons ?_ rfl (guarded_cons ?_ rfl trivial))))))))
    iterate 4
      exact fun _ _ _ _ _ => ⟨nofun,nofun⟩
    · refine fun _ _ _ _ _ => ⟨?_,nofun⟩
      rintro ⟨⟩ same
      exact absurd same (by decide)
    · exact fun _ _ _ _ _ => ⟨nofun,nofun⟩
    · refine fun _ _ _ _ _ => ⟨nofun,?_⟩
      rintro ⟨⟩
      exact ⟨rfl,fun _ _ => rfl⟩
  refine ⟨_,_,rfl,rfl,rfl,(replicas_follow_table hashing_exact guarded rfl).2 _ 0 (fun there => ⟨rfl,nofun,nofun,nofun⟩) ?_
    (List.mem_cons_self ..) rfl rfl rfl⟩
  simp [oneRebuild,Alone]

end

end Zveltio.PolicyRebuild
