import Zveltio.SavepointLog
import Zveltio.Turns
import Zveltio.WorkerTxn
import Mathlib.Data.List.TakeWhile
namespace Zveltio.WorkerScopes
open Runs Savepoints SavepointLog WorkerTxn
open Turns (Level Phase)

-- An invocation's work takes its turn at context; made has the open savepoints the call it serves was made in, the innermost first.
structure Invocation (ε : Type) where
  ext : ε
  context : Level
  made : List Nat
  isOver : Bool

inductive Job (ω : Type) where
  | query (writes : List ω)
  | savepoint (op : SavepointOp) (scope : Nat)
  | begin (key : Nat × Nat)
  | abandon (scope base : Nat)

-- What an item of the turns is about.
structure Note (ε ω : Type) where
  ext : ε
  invocation : Nat
  made : List Nat
  job : Job ω

-- A scope by its invocation and db.transaction() id, with its item of the turns. Its savepoints open now, newest first, are its depth:
-- none yet while SAVEPOINT is on its way.
structure TxnScope (ε : Type) where
  key : Nat × Nat
  ext : ε
  item : Nat
  context : Level
  base : Nat
  nodes : List Nat

-- Savepoints are numbered as they are taken. scopes has the innermost first; log has the statements that ran with the savepoints
-- open around them, undone the savepoints rolled back, lost whether a rollback was refused.
structure State (ε ω : Type) where
  turns : Turns.State
  notes : List (Note ε ω)
  invocations : List (Invocation ε)
  scopes : List (TxnScope ε)
  txn : RequestTxn ε ω
  count : Nat
  view : View ω
  log : List (Entry ω)
  undone : List Nat
  lost : Bool

def State.start {ε ω : Type} (joined : Bool) (ext : ε) : State ε ω where
  turns := .empty
  notes := []
  invocations := [⟨ext,[],[],false⟩]
  scopes := []
  txn := ⟨if joined then some ⟨0,Savepoints.start []⟩ else none,joined,none,none,[],false⟩
  count := 0
  view := ⟨[],[]⟩
  log := []
  undone := []
  lost := false

def openNodes {ε : Type} (scopes : List (TxnScope ε)) : List Nat := scopes.flatMap TxnScope.nodes

def upTo {ε : Type} (item : Nat) (scopes : List (TxnScope ε)) : List (TxnScope ε) := scopes.dropWhile fun scope => scope.item ≠ item

-- The savepoints work of a level is inside, where its scope has begun and is open.
def inside {ε : Type} (scopes : List (TxnScope ε)) : Level → Option (List Nat)
  | [] => some []
  | item::_ => match upTo item scopes with
    | [] => none
    | scope::outer => if scope.nodes = [] then none else some (openNodes (scope::outer))

section
variable {ε ω : Type} [DecidableEq ε]

def depthAfter (op : SavepointOp) (told : Bool) (node : Nat) (nodes : List Nat) : List Nat :=
  match op with
  | .begin => if told then node::nodes else nodes
  | .release => if told then nodes.tail else nodes
  | .rollback => nodes.tail

def TxnScope.answered (scope : TxnScope ε) (item : Nat) (op : SavepointOp) (told : Bool) (node : Nat) : Option (TxnScope ε) :=
  if scope.item = item then
    let nodes := depthAfter op told node scope.nodes
    if nodes = [] then none else some {scope with nodes}
  else some scope

def State.scope (state : State ε ω) (key : Nat × Nat) : Option (TxnScope ε) := state.scopes.find? fun scope => scope.key = key

def State.pending (state : State ε ω) : Bool := state.scopes.any fun scope => scope.nodes = []

def State.ask (state : State ε ω) (note : Note ε ω) (work : Work ω) (fate : Fate) : Bool × State ε ω :=
  let done := onConnection state.txn ⟨note.ext,note.invocation,work⟩ fate
  (done.1,{state with txn := done.2,view := if done.1 then state.view.hear work else state.view})

def State.query (state : State ε ω) (note : Note ε ω) (writes : List ω) (fate : Fate) : Bool × State ε ω :=
  let done := state.ask note (.query writes) fate
  (done.1,{done.2 with
    log := if state.txn.isOver then state.log else state.log ++ [⟨note.made,openNodes state.scopes,if done.1 then writes else []⟩]})

def State.nodes (state : State ε ω) (item : Nat) : List Nat := (state.scopes.find? fun scope => scope.item = item).elim [] TxnScope.nodes

def State.savepoint (state : State ε ω) (note : Note ε ω) (op : SavepointOp) (item : Nat) (fate : Fate) : Bool × State ε ω :=
  let done := state.ask note (.savepoint op) fate
  (done.1,{done.2 with
    scopes := state.scopes.filterMap fun scope => scope.answered item op done.1 state.count
    count := state.count + 1
    undone := if op = .rollback ∧ done.1 then (state.nodes item).take 1 ++ state.undone else state.undone
    lost := state.lost || (op = .rollback && !done.1 && !state.txn.isOver)})

def State.abandon (state : State ε ω) (note : Note ε ω) (item base : Nat) (fate : Fate) : Bool × State ε ω :=
  let done := state.ask note (.abandon base) fate
  (done.1,{done.2 with
    scopes := state.scopes.filter fun scope => scope.item ≠ item
    undone := if done.1 then state.nodes item ++ state.undone else state.undone
    lost := state.lost || (!done.1 && !state.txn.isOver)})

def State.issue (state : State ε ω) (context : Level) (exclusive : Bool) (note : Note ε ω) : Option (State ε ω) :=
  (Turns.step state.turns (.issue context exclusive)).map fun turns => {state with turns,notes := state.notes ++ [note]}

def State.levelOf (state : State ε ω) (number : Nat) (invocation : Invocation ε) (txn : Option Nat) : Level × List Nat :=
  match txn.bind fun id => state.scope (number,id) with
  | some scope => (scope.context,openNodes (upTo scope.item state.scopes))
  | none => (invocation.context,invocation.made)

inductive Action (ε ω : Type) where
  | call (caller : Nat) (txn : Option Nat) (ext : ε)
  | query (invocation : Nat) (txn : Option Nat) (writes : List ω)
  | savepoint (invocation txn : Nat) (op : SavepointOp)
  | leave (invocation : Nat)
  | serve (item : Nat) (fate : Fate)
  | enter (item : Nat)
  | begun (item : Nat) (fate : Fate)
  | exit (item : Nat)
  | endTxn

def Job.begins (invocation : Nat) : Job ω → Bool
  | .begin key => key.1 = invocation
  | _ => false

def Job.ends (item : Nat) : Job ω → Bool
  | .savepoint _ scope => scope = item
  | _ => false

def State.waits (state : State ε ω) (about : Job ω → Bool) : Bool :=
  (List.range state.notes.length).any fun item => (state.notes[item]?.any fun note => about note.job) && !state.turns.done item

-- The runtime sends a scope's next operation once the one before it is answered, and runs an invocation's scopes in turn.
def State.busy (state : State ε ω) (scope : TxnScope ε) : Bool := scope.nodes = [] || state.waits (Job.ends scope.item)

def State.serve (state : State ε ω) (note : Note ε ω) (fate : Fate) : Option (Bool × State ε ω) :=
  match note.job with
  | .query writes => some (state.query note writes fate)
  | .savepoint op scope => some (state.savepoint note op scope fate)
  | .abandon scope base => some (state.abandon note scope base fate)
  | .begin _ => none

def take (turns : Turns.State) (item : Nat) (told : Bool) : Option Turns.State := (Turns.step turns (.start item)).bind fun started =>
  (Turns.step started (.finish item (if told then .fulfilled else .rejected))).bind fun ended => Turns.step ended (.settle item)

def quit (turns : Turns.State) (item : Nat) : Option Turns.State := (Turns.step turns (.finish item .fulfilled)).bind fun ended =>
  (Turns.step ended (.close item)).bind fun closed => Turns.step closed (.settle item)

def step (state : State ε ω) : Action ε ω → Option (State ε ω)
  | .call caller txn ext => (state.invocations[caller]?).bind fun invocation =>
    if invocation.isOver ∨ txn.any fun id => (state.scope (caller,id)).any fun scope => scope.nodes = [] then none
    else
      let at_level := state.levelOf caller invocation txn
      some {state with invocations := state.invocations ++ [⟨ext,at_level.1,at_level.2,false⟩]}
  | .query number txn writes => (state.invocations[number]?).bind fun invocation =>
    if invocation.isOver ∨ ¬txn.all fun id => (state.scope (number,id)).any fun scope => !state.busy scope then none
    else
      let at_level := state.levelOf number invocation txn
      state.issue at_level.1 false ⟨invocation.ext,number,at_level.2,.query writes⟩
  | .savepoint number txn op => (state.invocations[number]?).bind fun invocation =>
    if invocation.isOver then none
    else match state.scope (number,txn) with
      | some scope =>
        if state.busy scope then none
        else state.issue scope.context false ⟨invocation.ext,number,openNodes (upTo scope.item state.scopes),.savepoint op scope.item⟩
      | none =>
        if op = .begin ∧ ¬state.waits (Job.begins number) then state.issue invocation.context true ⟨invocation.ext,number,invocation.made,.begin (number,txn)⟩
        else none
  | .leave number => (state.invocations[number]?).bind fun invocation =>
    if number = 0 ∨ invocation.isOver then none
    else
      let left := {state with invocations := state.invocations.set number {invocation with isOver := true}}
      match state.scopes.find? fun scope => scope.key.1 = number with
      | some scope => left.issue scope.context false ⟨invocation.ext,number,[],.abandon scope.item scope.base⟩
      | none => some left
  | .serve item fate => (state.notes[item]?).bind fun note => if state.pending then none
    else (state.serve note fate).bind fun served => (take state.turns item served.1).map fun turns => {served.2 with turns}
  -- The begin of a scope is refused, and the scope closed, once the transaction is over.
  | .enter item => (state.notes[item]?).bind fun note => match note.job with
    | .begin key => if state.pending then none
      else (state.turns.item item).bind fun it => (Turns.step state.turns (.start item)).map fun turns =>
        if state.txn.isOver then {state with turns}
        else {state with turns,scopes := ⟨key,note.ext,item,item::it.level,state.txn.savepoints.length,[]⟩::state.scopes}
    | _ => none
  | .begun item fate => (state.notes[item]?).bind fun note =>
    if state.scopes.any fun scope => scope.item = item && scope.nodes = [] then some (state.savepoint note .begin item fate).2 else none
  | .exit item => (state.notes[item]?).bind fun note => match note.job with
    | .begin _ => if state.scopes.any fun scope => scope.item = item then none
      else (quit state.turns item).map fun turns => {state with turns}
    | _ => none
  | .endTxn => some {state with txn := {state.txn with isOver := true},scopes := []}

def Alone (state : State ε ω) (item : Nat) (level : Level) : Prop :=
  ∀ other inner, state.turns.item other = some inner → inner.level = level → other = item ∨ inner.phase.done = true

def Reaches (state : State ε ω) (ext : ε) (fate : Fate) : Prop :=
  fate.host = true ∧ ∀ conn, state.txn.conn = some conn → conn.session.aborted = true → state.txn.joined = true ∨ state.txn.ext = some ext

def Fits (state : State ε ω) (number : Nat) : Prop :=
  ∀ invocation, state.invocations[number]? = some invocation → inside state.scopes (state.turns.level invocation.context) = some invocation.made

def Permitted (state : State ε ω) : Action ε ω → Prop
  | .query number none _ => state.txn.isOver = true ∨ Fits state number
  | .savepoint number txn _ => state.txn.isOver = true ∨ state.scope (number,txn) ≠ none ∨ Fits state number
  | .serve item fate => state.txn.isOver = true ∨ ∀ it note, state.turns.item item = some it → state.notes[item]? = some note → match note.job with
    | .savepoint op _ => Alone state item it.level ∧ (op = .rollback → Reaches state note.ext fate)
    | .abandon _ _ => Alone state item it.level ∧ Reaches state note.ext fate
    | _ => True
  | .begun item fate => ∀ scope ∈ state.scopes, scope.item = item → Alone state item scope.context ∨ fate.host = true ∧
      (state.txn.conn = none → fate.opened = some true) ∧ ∀ conn, state.txn.conn = some conn → conn.session.aborted = false
  | _ => True

end

def path {ε : Type} (scopes : List (TxnScope ε)) : Level := scopes.map TxnScope.item

def owners {ε : Type} (scopes : List (TxnScope ε)) : List ε := scopes.flatMap fun scope => List.replicate scope.nodes.length scope.ext

def Nested {ε : Type} : List (TxnScope ε) → Prop
  | [] => True
  | scope::outer => scope.context = path (scope::outer) ∧ scope.base = (openNodes outer).length ∧ (∀ other ∈ outer, other.nodes ≠ []) ∧ Nested outer

section
variable {ε ω : Type}

-- What an undone item is about is where it was made.
def Meant (invocations : List (Invocation ε)) (scopes : List (TxnScope ε)) (level : Level) (note : Note ε ω) : Prop :=
  match note.job with
  | .query _ => inside scopes level = some note.made
  | .begin key => (invocations[key.1]?).map Invocation.ext = some note.ext
  | .savepoint _ item => ∃ scope ∈ scopes, scope.item = item ∧ level = scope.context ∧ scope.ext = note.ext
  | .abandon item base => ∃ scope ∈ scopes, scope.item = item ∧ level = scope.context ∧ scope.base = base

-- The items of the turns and what they are about.
structure Queued (turns : Turns.State) (notes : List (Note ε ω)) : Prop where
  unawaited : turns.awaited = []
  paired : notes.length = turns.items.length
  phases : ∀ item it, turns.item item = some it → it.phase = .waiting ∨ (it.phase = .running ∧ it.exclusive = true) ∨ it.phase.done = true
  follows : ∀ item it last, turns.item item = some it → it.after = some last → last < item
  kinds : ∀ item it note, turns.item item = some it → notes[item]? = some note → (it.exclusive = true ↔ ∃ key, note.job = .begin key)

-- What holds of the transaction, over as it may be.
structure Kept (state : State ε ω) : Prop where
  queued : Queued state.turns state.notes
  matched : Matches state.txn state.view
  closed : Closed state.txn
  exact : ∀ entry ∈ state.log, entry.around = entry.made
  told : state.view.told = standing state.log state.undone
  kept : state.lost = false
  ended : state.txn.isOver = true → state.scopes = []

-- What holds of its scopes until it is over.
structure Live (state : State ε ω) : Prop where
  sound : Turns.Sound state.turns
  lane : Turns.Lane state.turns (path state.scopes)
  covered : ∀ item it, state.turns.item item = some it → it.phase.done = false → it.level <:+ path state.scopes
  nested : Nested state.scopes
  meant : ∀ item it note, state.turns.item item = some it → it.phase.done = false → state.notes[item]? = some note →
    Meant state.invocations state.scopes it.level note
  named : ∀ scope ∈ state.scopes, (∃ note, state.notes[scope.item]? = some note ∧ note.ext = scope.ext) ∧
    (state.invocations[scope.key.1]?).map Invocation.ext = some scope.ext
  owned : state.txn.savepoints = owners state.scopes
  ledger : Ledger state.log (openNodes state.scopes) state.undone state.count state.view.told state.view.outer

structure Sound (state : State ε ω) : Prop where
  always : Kept state
  live : state.txn.isOver = false → Live state

theorem start_sound (joined : Bool) (ext : ε) : Sound (State.start joined ext : State ε ω) where
  always := {
    queued := ⟨rfl,rfl,fun _ _ wrong => (by cases wrong),fun _ _ _ wrong => (by cases wrong),fun _ _ _ wrong => (by cases wrong)⟩
    matched := by
      cases joined with
      | false => exact ⟨rfl,rfl,rfl⟩
      | true => exact start_agree
    closed := ⟨fun _ => rfl,fun _ _ _ => rfl⟩
    exact := fun _ wrong => absurd wrong List.not_mem_nil
    told := rfl
    kept := rfl
    ended := fun _ => rfl }
  live := fun _ => {
    sound := Turns.empty_sound
    lane := trivial
    covered := fun _ _ wrong => (by cases wrong)
    nested := trivial
    meant := fun _ _ _ wrong => (by cases wrong)
    named := fun _ wrong => absurd wrong List.not_mem_nil
    owned := rfl
    ledger := empty_ledger }

variable {scopes outer : List (TxnScope ε)} {scope : TxnScope ε} {level : Level}

theorem owners_length (scopes : List (TxnScope ε)) : (owners scopes).length = (openNodes scopes).length := by
  unfold owners openNodes
  simp only [List.length_flatMap,List.length_replicate]

theorem lane_apart {turns : Turns.State} (sound : Turns.Sound turns) (lane : Turns.Lane turns (item::front)) : item ∉ front := by
  obtain ⟨⟨it,found,level,_⟩,_⟩ := lane
  intro member
  obtain ⟨before,after,split⟩ := List.append_of_mem member
  exact absurd (Turns.path_split sound found (level.trans split)).1 (Nat.lt_irrefl _)

theorem suffix_outer {item : Nat} {front : Level} (covered : level <:+ item::front) (other : level ≠ item::front) : level <:+ front :=
  (List.suffix_cons_iff.mp covered).resolve_left other

theorem inside_outer (within : level <:+ path outer) (apart : scope.item ∉ path outer) : inside (scope::outer) level = inside outer level := by
  cases level with
  | nil => rfl
  | cons item rest =>
    have other : scope.item ≠ item := fun same => apart (same ▸ within.subset (List.mem_cons_self ..))
    have skipped : upTo item (scope::outer) = upTo item outer := List.dropWhile_cons_of_pos (decide_eq_true other)
    simp only [inside,skipped]

theorem inside_here (scope : TxnScope ε) (outer : List (TxnScope ε)) : inside (scope::outer) (path (scope::outer)) =
    if scope.nodes = [] then none else some (openNodes (scope::outer)) := by
  have here : upTo scope.item (scope::outer) = scope::outer := List.dropWhile_cons_of_neg (by simp)
  simp only [path,List.map_cons,inside,here]

variable {turns after : Turns.State} {notes : List (Note ε ω)} {note : Note ε ω} {item : Nat} {it : Turns.Item}

theorem queued_become (queued : Queued turns notes) (found : turns.item item = some it)
    (fits : phase = .running ∧ it.exclusive = true ∨ phase.done = true) : Queued (turns.become item phase) notes := by
  refine ⟨queued.unawaited,by rw [queued.paired,Turns.State.become,List.length_modify],fun other now there => ?_,fun other now last there equal => ?_,
    fun other now about there noted => ?_⟩
  · obtain ⟨old,before,_,exclusive,_,rest,moved⟩ := Turns.become_back there
    by_cases same : item = other
    · rw [moved same,exclusive]
      subst same
      cases Option.some.inj (before.symm.trans found)
      exact .inr fits
    · rw [rest same]
      exact queued.phases other old before
  · obtain ⟨old,before,_,_,last_same,_⟩ := Turns.become_back there
    exact queued.follows other old last before (last_same.symm.trans equal)
  · obtain ⟨old,before,_,exclusive,_⟩ := Turns.become_back there
    rw [exclusive]
    exact queued.kinds other old about before noted

theorem queued_issue {context : Level} {exclusive : Bool} (queued : Queued turns notes) (moved : Turns.step turns (.issue context exclusive) = some after)
    (kind : exclusive = true ↔ ∃ key, note.job = .begin key) : Queued after (notes ++ [note]) := by
  obtain ⟨_,same⟩ := Turns.issue_exact.mp moved
  subst same
  refine ⟨queued.unawaited,by rw [List.length_append,List.length_append,queued.paired]; rfl,fun other now there => ?_,fun other now last there equal => ?_,
    fun other now about there noted => ?_⟩
  · rcases Turns.append_back there with ⟨_,old⟩ | ⟨_,new⟩
    · exact queued.phases other now old
    · rw [new]
      exact .inl rfl
  · rcases Turns.append_back there with ⟨_,old⟩ | ⟨same,new⟩
    · exact queued.follows other now last old equal
    · rw [new] at equal
      obtain ⟨_,_,held,_⟩ := Turns.lastAt_some equal
      rw [same]
      exact (List.getElem?_eq_some_iff.mp held).1
  · rcases Turns.append_back there with ⟨below,old⟩ | ⟨same,new⟩
    · rw [List.getElem?_append_left (queued.paired ▸ below)] at noted
      exact queued.kinds other now about old noted
    · rw [same,← queued.paired,List.getElem?_append_right (Nat.le_refl _),Nat.sub_self] at noted
      cases noted
      rw [new]
      exact kind

theorem meant_outer (meant : Meant invocations (scope::outer) level note) (apart : scope.item ∉ path outer) (within : level <:+ path outer)
    (whole : scope.context = path (scope::outer)) : Meant invocations outer level note := by
  have other {around : TxnScope ε} (member : around ∈ scope::outer) (here : level = around.context) : around ∈ outer := by
    refine (List.mem_cons.mp member).resolve_left fun same => ?_
    subst same
    rw [here,whole] at within
    exact absurd within.length_le (Nat.not_le.mpr (Nat.lt_succ_self _))
  unfold Meant at meant ⊢
  split
  · next job =>
    simp only [job] at meant
    exact (inside_outer within apart).symm.trans meant
  · next job =>
    simp only [job] at meant
    exact meant
  · next job =>
    simp only [job] at meant
    obtain ⟨around,member,same,here,rest⟩ := meant
    exact ⟨around,other member here,same,here,rest⟩
  · next job =>
    simp only [job] at meant
    obtain ⟨around,member,same,here,rest⟩ := meant
    exact ⟨around,other member here,same,here,rest⟩

theorem meant_inner (meant : Meant invocations outer level note) (apart : scope.item ∉ path outer) (within : level <:+ path outer) :
    Meant invocations (scope::outer) level note := by
  unfold Meant at meant ⊢
  split
  · next job =>
    simp only [job] at meant
    exact (inside_outer within apart).trans meant
  · next job =>
    simp only [job] at meant
    exact meant
  · next job =>
    simp only [job] at meant
    obtain ⟨around,member,rest⟩ := meant
    exact ⟨around,List.mem_cons_of_mem _ member,rest⟩
  · next job =>
    simp only [job] at meant
    obtain ⟨around,member,rest⟩ := meant
    exact ⟨around,List.mem_cons_of_mem _ member,rest⟩

theorem meant_invocations {later : List (Invocation ε)} (meant : Meant invocations scopes level note)
    (kept : ∀ (number : Nat) (ext : ε), (invocations[number]?).map Invocation.ext = some ext → (later[number]?).map Invocation.ext = some ext) :
    Meant later scopes level note := by
  unfold Meant at meant ⊢
  split
  · next job => simpa only [job] using meant
  · next job =>
    simp only [job] at meant
    exact kept _ _ meant
  · next job => simpa only [job] using meant
  · next job => simpa only [job] using meant

theorem live_invocations {state : State ε ω} (live : Live state) {later : List (Invocation ε)}
    (kept : ∀ (number : Nat) (ext : ε), (state.invocations[number]?).map Invocation.ext = some ext → (later[number]?).map Invocation.ext = some ext) :
    Live {state with invocations := later} where
  sound := live.sound
  lane := live.lane
  covered := live.covered
  nested := live.nested
  meant := fun item it note found undone noted => meant_invocations (live.meant item it note found undone noted) kept
  named := fun scope member => ⟨(live.named scope member).1,kept _ _ (live.named scope member).2⟩
  owned := live.owned
  ledger := live.ledger

theorem live_issue {state : State ε ω} {context : Level} {exclusive : Bool} (queued : Queued state.turns state.notes) (live : Live state)
    (moved : Turns.step state.turns (.issue context exclusive) = some after) (covered : state.turns.level context <:+ path state.scopes)
    (meant : Meant state.invocations state.scopes (state.turns.level context) note) : Live {state with turns := after,notes := state.notes ++ [note]} := by
  obtain ⟨entered,same⟩ := Turns.issue_exact.mp moved
  have running (scope : Nat) (outer : Level) (level : state.turns.level context = scope::outer) : state.turns.phase scope = some .running :=
    Turns.lane_member live.lane (covered.subset (level ▸ List.mem_cons_self ..))
  have sound : Turns.Sound after := Turns.step_sound state.turns (.issue context exclusive) after live.sound running moved
  subst same
  refine ⟨sound,Turns.lane_append live.lane,fun item it found undone => ?_,live.nested,fun item it about found undone noted => ?_,fun scope member => ?_,live.owned,live.ledger⟩
  · rcases Turns.append_back found with ⟨_,old⟩ | ⟨_,new⟩
    · exact live.covered item it old undone
    · rw [new]
      exact covered
  · rcases Turns.append_back found with ⟨below,old⟩ | ⟨same,new⟩
    · rw [List.getElem?_append_left (queued.paired ▸ below)] at noted
      exact live.meant item it about old undone noted
    · rw [same,← queued.paired,List.getElem?_append_right (Nat.le_refl _),Nat.sub_self] at noted
      cases noted
      rw [new]
      exact meant
  · obtain ⟨⟨about,noted,ext⟩,caller⟩ := live.named scope member
    exact ⟨⟨about,(List.getElem?_append_left (List.getElem?_eq_some_iff.mp noted).1).trans noted,ext⟩,caller⟩

theorem nested_split {front : List (TxnScope ε)} (nested : Nested (front ++ scope::outer)) :
    scope.context = path (scope::outer) ∧ scope.base = (openNodes outer).length ∧ (∀ other ∈ outer, other.nodes ≠ []) := by
  induction front with
  | nil => exact ⟨nested.1,nested.2.1,nested.2.2.1⟩
  | cons _ rest ih => exact ih nested.2.2.2

theorem upTo_split {front : List (TxnScope ε)} (apart : scope.item ∉ path front) : upTo scope.item (front ++ scope::outer) = scope::outer := by
  induction front with
  | nil => exact List.dropWhile_cons_of_neg (by simp)
  | cons first rest ih =>
    have other : first.item ≠ scope.item := fun same => apart (same ▸ List.mem_cons_self ..)
    have skipped : upTo scope.item (first::(rest ++ scope::outer)) = upTo scope.item (rest ++ scope::outer) :=
      List.dropWhile_cons_of_pos (decide_eq_true other)
    exact skipped.trans (ih fun member => apart (List.mem_cons_of_mem _ member))

theorem scope_level {state : State ε ω} (live : Live state) (member : scope ∈ state.scopes) : state.turns.level scope.context = scope.context ∧
    scope.context <:+ path state.scopes ∧ (scope.nodes ≠ [] → inside state.scopes scope.context = some (openNodes (upTo scope.item state.scopes))) := by
  obtain ⟨front,outer,split⟩ := List.append_of_mem member
  have nested := live.nested
  have lane := live.lane
  rw [split] at nested lane
  rw [path,List.map_append] at lane
  obtain ⟨context,_⟩ := nested_split nested
  have running := Turns.lane_member live.lane (List.mem_map_of_mem member : scope.item ∈ path state.scopes)
  refine ⟨?_,?_,fun begun => ?_⟩
  · rw [context,path,List.map_cons,Turns.State.level,running]
    rfl
  · rw [context,split,path,path,List.map_append]
    exact List.suffix_append ..
  · have apart : scope.item ∉ path front := by
      intro wrong
      obtain ⟨before,between,again⟩ := List.append_of_mem wrong
      have whole : Turns.Lane state.turns (before ++ (scope.item::(between ++ path (scope::outer)))) := by
        rw [← List.cons_append,← List.append_assoc,← again]
        exact lane
      exact lane_apart live.sound (Turns.lane_suffix whole) (List.mem_append_right _ (List.mem_cons_self ..))
    have found : upTo scope.item (front ++ scope::outer) = scope::outer := upTo_split apart
    rw [context,split,found]
    simp only [path,List.map_cons,inside,found,if_neg begun]

theorem fits_covered {state : State ε ω} {context : Level} {made : List Nat} (live : Live state) (entered : state.turns.entered context = true)
    (fits : inside state.scopes (state.turns.level context) = some made) : state.turns.level context <:+ path state.scopes := by
  cases level : state.turns.level context with
  | nil => exact List.nil_suffix
  | cons item rest =>
    rw [level] at fits
    have member : item ∈ path state.scopes := by
      by_contra apart
      have none_left : upTo item state.scopes = [] := by
        refine List.dropWhile_eq_nil_iff.mpr fun scope there => decide_eq_true fun same => apart ?_
        rw [← same]
        exact List.mem_map_of_mem there
      simp only [inside,none_left] at fits
      cases fits
    obtain ⟨scope,there,same⟩ := List.mem_map.mp member
    obtain ⟨_,covered,_⟩ := scope_level live there
    obtain ⟨front,outer,split⟩ := List.append_of_mem there
    have nested := live.nested
    rw [split] at nested
    have context := (nested_split nested).1
    have lane := live.lane
    obtain ⟨before,equal⟩ := covered
    rw [← equal,context] at lane
    obtain ⟨⟨it,found,beside,_⟩,_⟩ := Turns.lane_suffix lane
    obtain ⟨around,place,below,_⟩ := Turns.level_open live.sound entered level
    rw [same] at found
    cases Option.some.inj (found.symm.trans place)
    refine ⟨before,?_⟩
    rw [← equal,context,path,List.map_cons,same,← below,beside]

theorem issue_sound {state later : State ε ω} {context : Level} {exclusive : Bool} (sound : Sound state) (moved : state.issue context exclusive note = some later)
    (kind : exclusive = true ↔ ∃ key, note.job = .begin key)
    (fits : state.txn.isOver = false → state.turns.entered context = true → state.turns.level context <:+ path state.scopes ∧
      Meant state.invocations state.scopes (state.turns.level context) note) : Sound later := by
  obtain ⟨turns,issued,same⟩ := Option.map_eq_some_iff.mp moved
  subst same
  obtain ⟨always,live⟩ := sound
  refine ⟨⟨queued_issue always.queued issued kind,always.matched,always.closed,always.exact,always.told,always.kept,always.ended⟩,fun usable => ?_⟩
  obtain ⟨covered,meant⟩ := fits usable (Turns.issue_exact.mp issued).1
  exact live_issue always.queued (live usable) issued covered meant

theorem scope_found {state : State ε ω} {key : Nat × Nat} (found : state.scope key = some scope) : scope ∈ state.scopes ∧ scope.key = key := by
  unfold State.scope at found
  exact ⟨List.mem_of_find?_eq_some found,by simpa using List.find?_some found⟩

theorem named_ext {state : State ε ω} {invocation : Invocation ε} (live : Live state) (member : scope ∈ state.scopes)
    (there : state.invocations[scope.key.1]? = some invocation) : scope.ext = invocation.ext := by
  have named := (live.named scope member).2
  rw [there] at named
  exact (Option.some.inj named).symm

variable [DecidableEq ε] {state later : State ε ω}

theorem query_sound {number : Nat} {txn : Option Nat} {writes : List ω} (sound : Sound state) (permitted : Permitted state (.query number txn writes))
    (moved : step state (.query number txn writes) = some later) : Sound later := by
  obtain ⟨invocation,there,moved⟩ := Option.bind_eq_some_iff.mp moved
  split at moved
  · cases moved
  · next allowed =>
    refine issue_sound sound moved ⟨fun wrong => (by cases wrong),fun ⟨_,wrong⟩ => (by cases wrong)⟩ fun usable entered => ?_
    have live := sound.live usable
    cases txn with
    | none =>
      have fits := permitted.resolve_left (by rw [usable]; exact Bool.false_ne_true) invocation there
      exact ⟨fits_covered live entered fits,fits⟩
    | some id =>
      simp only [not_or,not_not,Option.all_some] at allowed
      obtain ⟨scope,found,idle⟩ := Option.any_eq_true _ _ |>.mp allowed.2
      have begun : scope.nodes ≠ [] := by
        intro wrong
        simp [State.busy,wrong] at idle
      obtain ⟨level,covered,made⟩ := scope_level live (scope_found found).1
      simp only [State.levelOf,Option.bind_some,found,level]
      exact ⟨covered,made begun⟩

theorem savepoint_sound {number txn : Nat} {op : SavepointOp} (sound : Sound state) (permitted : Permitted state (.savepoint number txn op))
    (moved : step state (.savepoint number txn op) = some later) : Sound later := by
  obtain ⟨invocation,there,moved⟩ := Option.bind_eq_some_iff.mp moved
  split at moved
  · cases moved
  · split at moved
    · next scope found =>
      split at moved
      · cases moved
      · refine issue_sound sound moved ⟨fun wrong => (by cases wrong),fun ⟨_,wrong⟩ => (by cases wrong)⟩ fun usable _ => ?_
        obtain ⟨member,key⟩ := scope_found found
        obtain ⟨level,covered,_⟩ := scope_level (sound.live usable) member
        rw [level]
        exact ⟨covered,scope,member,rfl,rfl,named_ext (sound.live usable) member (by rw [key]; exact there)⟩
    · next absent =>
      split at moved
      · refine issue_sound sound moved ⟨fun _ => ⟨_,rfl⟩,fun _ => rfl⟩ fun usable entered => ?_
        have fits := ((permitted.resolve_left (by rw [usable]; exact Bool.false_ne_true)).resolve_left fun other => other absent) invocation there
        refine ⟨fits_covered (sound.live usable) entered fits,?_⟩
        show (state.invocations[number]?).map Invocation.ext = some invocation.ext
        rw [there]
        rfl
      · cases moved

theorem call_sound {caller : Nat} {txn : Option Nat} {ext : ε} (sound : Sound state) (moved : step state (.call caller txn ext) = some later) :
    Sound later := by
  obtain ⟨invocation,there,moved⟩ := Option.bind_eq_some_iff.mp moved
  split at moved
  · cases moved
  · cases Option.some.inj moved
    obtain ⟨always,live⟩ := sound
    refine ⟨⟨always.queued,always.matched,always.closed,always.exact,always.told,always.kept,always.ended⟩,fun usable => ?_⟩
    refine live_invocations (live usable) fun number ext named => ?_
    obtain ⟨found,held,_⟩ := Option.map_eq_some_iff.mp named
    rw [List.getElem?_append_left (List.getElem?_eq_some_iff.mp held).1]
    exact named

theorem leave_sound {number : Nat} (sound : Sound state) (moved : step state (.leave number) = some later) : Sound later := by
  obtain ⟨invocation,there,moved⟩ := Option.bind_eq_some_iff.mp moved
  split at moved
  · cases moved
  · have kept (other : Nat) (ext : ε) (named : (state.invocations[other]?).map Invocation.ext = some ext) :
        ((state.invocations.set number {invocation with isOver := true})[other]?).map Invocation.ext = some ext := by
      by_cases same : number = other
      · subst same
        rw [List.getElem?_set_self (List.getElem?_eq_some_iff.mp there).1]
        rw [there] at named
        exact named
      · rw [List.getElem?_set_ne same]
        exact named
    have left : Sound {state with invocations := state.invocations.set number {invocation with isOver := true}} := by
      obtain ⟨always,live⟩ := sound
      exact ⟨⟨always.queued,always.matched,always.closed,always.exact,always.told,always.kept,always.ended⟩,fun usable => live_invocations (live usable) kept⟩
    simp only at moved
    split at moved
    · next scope found =>
      refine issue_sound left moved ⟨fun wrong => (by cases wrong),fun ⟨_,wrong⟩ => (by cases wrong)⟩ fun usable _ => ?_
      have member : scope ∈ state.scopes := List.mem_of_find?_eq_some found
      obtain ⟨level,covered,_⟩ := scope_level (left.live usable) member
      exact ⟨level.symm ▸ covered,scope,member,rfl,level,rfl⟩
    · cases Option.some.inj moved
      exact left

-- What an answer leaves of the transaction.
structure Asked (state : State ε ω) (note : Note ε ω) (work : Work ω) (done : Bool × State ε ω) : Prop where
  matched : Matches done.2.txn done.2.view
  closed : Closed done.2.txn
  isOver : done.2.txn.isOver = state.txn.isOver
  savepoints : done.2.txn.savepoints = savepointsAfter state.txn ⟨note.ext,note.invocation,work⟩ done.1
  view : done.2.view = if done.1 then state.view.hear work else state.view
  refused : state.txn.isOver = true → done.1 = false

theorem asked (always : Kept state) (note : Note ε ω) (work : Work ω) (fate : Fate) : Asked state note work (state.ask note work fate) where
  matched := onConnection_matches always.matched ⟨note.ext,note.invocation,work⟩ fate
  closed := onConnection_closed always.closed ⟨note.ext,note.invocation,work⟩ fate
  isOver := (onConnection_frame state.txn ⟨note.ext,note.invocation,work⟩ fate).2
  savepoints := onConnection_savepoints state.txn ⟨note.ext,note.invocation,work⟩ fate
  view := rfl
  refused := fun isOver => by
    unfold State.ask onConnection
    rw [if_pos isOver]

omit [DecidableEq ε] in
theorem done_live {phase : Turns.Phase} (live : Live state) (sound : Turns.Sound (state.turns.become item phase)) (isOver : phase.done = true)
    (apart : item ∉ path state.scopes) : Live {state with turns := state.turns.become item phase} where
  sound := sound
  lane := Turns.lane_become live.lane apart
  covered := fun other now there undone => by
    obtain ⟨old,before,level,_,_,rest,moved⟩ := Turns.become_back there
    by_cases same : item = other
    · rw [moved same,isOver] at undone
      cases undone
    · rw [rest same] at undone ⊢
      exact live.covered other old before undone
  nested := live.nested
  meant := fun other now about there undone noted => by
    obtain ⟨old,before,level,_,_,rest,moved⟩ := Turns.become_back there
    by_cases same : item = other
    · rw [moved same,isOver] at undone
      cases undone
    · rw [rest same] at undone ⊢
      exact live.meant other old about before undone noted
  named := live.named
  owned := live.owned
  ledger := live.ledger

omit [DecidableEq ε] in
theorem reshape_live (live : Live state) (shape : state.scopes = scope::outer)
    (left : ∀ other inner, state.turns.item other = some inner → inner.phase.done = false → inner.level ≠ path state.scopes)
    (turns : later.turns = state.turns) (notes : later.notes = state.notes) (invocations : later.invocations = state.invocations) (nodes : List Nat)
    (scopes : later.scopes = if nodes = [] then outer else {scope with nodes}::outer)
    (owned : later.txn.savepoints = List.replicate nodes.length scope.ext ++ owners outer)
    (ledger : Ledger later.log (nodes ++ openNodes outer) later.undone later.count later.view.told later.view.outer) : Live later := by
  have lane : Turns.Lane state.turns (scope.item::path outer) := by
    have lane := live.lane
    rwa [shape] at lane
  have apart := lane_apart live.sound lane
  have nested : Nested (scope::outer) := shape ▸ live.nested
  have within (other : Nat) (inner : Turns.Item) (there : state.turns.item other = some inner) (undone : inner.phase.done = false) : inner.level <:+ path outer := by
    have covered := live.covered other inner there undone
    have apart := left other inner there undone
    rw [shape] at covered apart
    exact suffix_outer covered apart
  have meant (other : Nat) (inner : Turns.Item) (about : Note ε ω) (there : state.turns.item other = some inner) (undone : inner.phase.done = false)
      (noted : state.notes[other]? = some about) : Meant state.invocations outer inner.level about :=
    meant_outer (shape ▸ live.meant other inner about there undone noted) apart (within other inner there undone) nested.1
  have named (around : TxnScope ε) (member : around ∈ scope::outer) := live.named around (shape ▸ member)
  by_cases closes : nodes = []
  · rw [if_pos closes] at scopes
    subst closes
    refine ⟨turns ▸ live.sound,?_,?_,scopes ▸ nested.2.2.2,?_,?_,?_,?_⟩
    · rw [turns,scopes]
      exact lane.2
    · rw [turns,scopes]
      exact within
    · rw [turns,scopes,notes,invocations]
      exact meant
    · rw [scopes,notes,invocations]
      exact fun around member => named around (List.mem_cons_of_mem _ member)
    · rw [scopes]
      exact owned
    · rw [scopes]
      exact ledger
  · rw [if_neg closes] at scopes
    refine ⟨turns ▸ live.sound,?_,?_,?_,?_,?_,?_,?_⟩
    · rw [turns,scopes]
      exact lane
    · rw [turns,scopes]
      exact fun other inner there undone => (within other inner there undone).trans (List.suffix_cons ..)
    · rw [scopes]
      exact nested
    · rw [turns,scopes,notes,invocations]
      exact fun other inner about there undone noted => meant_inner (meant other inner about there undone noted) apart (within other inner there undone)
    · rw [scopes,notes,invocations]
      intro around member
      rcases List.mem_cons.mp member with same | further
      · subst same
        exact named scope (List.mem_cons_self ..)
      · exact named around (List.mem_cons_of_mem _ further)
    · rw [scopes]
      exact owned
    · rw [scopes]
      exact ledger

omit [DecidableEq ε] in
theorem answered_head (apart : scope.item ∉ path outer) (op : SavepointOp) (told : Bool) (node : Nat) :
    ((scope::outer).filterMap fun other => other.answered scope.item op told node) =
      if depthAfter op told node scope.nodes = [] then outer else {scope with nodes := depthAfter op told node scope.nodes}::outer := by
  have rest : (outer.filterMap fun other => other.answered scope.item op told node) = outer := by
    have same : ∀ other ∈ outer, other.answered scope.item op told node = some other := by
      intro other member
      have different : other.item ≠ scope.item := fun wrong => apart (by rw [← wrong]; exact List.mem_map_of_mem member)
      exact if_neg different
    rw [List.filterMap_congr same,List.filterMap_some]
  rw [List.filterMap_cons,rest]
  simp only [TxnScope.answered,if_true]
  by_cases closes : depthAfter op told node scope.nodes = []
  · simp only [if_pos closes]
  · simp only [if_neg closes]

theorem answered_ledger {log : List (Entry ω)} {nodes rest undone : List Nat} {count : Nat} {view : View ω}
    (ledger : Ledger log (nodes ++ rest) undone count view.told view.outer) (op : SavepointOp) (told : Bool) (held : op = .begin ∨ nodes ≠ [])
    (reached : op = .rollback → told = true) :
    Ledger log (depthAfter op told count nodes ++ rest) (if op = .rollback ∧ told then nodes.take 1 ++ undone else undone) (count + 1)
      (if told then view.hear (.savepoint op) else view).told (if told then view.hear (.savepoint op) else view).outer := by
  cases op with
  | begin =>
    cases told with
    | true => exact open_ledger ledger
    | false => exact next_ledger ledger
  | release =>
    cases told with
    | true =>
      obtain ⟨node,more,shape⟩ := List.exists_cons_of_ne_nil (held.resolve_left SavepointOp.noConfusion)
      subst shape
      exact next_ledger (release_ledger ledger)
    | false => exact next_ledger ledger
  | rollback =>
    obtain ⟨node,more,shape⟩ := List.exists_cons_of_ne_nil (held.resolve_left SavepointOp.noConfusion)
    subst shape
    have newest : Ledger log ([node] ++ (more ++ rest)) undone count view.told view.outer := ledger
    obtain ⟨saved,later,found,kept⟩ := undo_ledger newest (List.cons_ne_nil _ _)
    have whole : view.outer = saved::later := found
    rw [reached rfl]
    simp only [View.hear,View.back,whole,if_true,and_self]
    exact next_ledger kept

omit [DecidableEq ε] in
theorem answered_owned {txn : RequestTxn ε ω} {nodes : List Nat} {rest : List ε} (owned : txn.savepoints = List.replicate nodes.length note.ext ++ rest)
    (op : SavepointOp) (told : Bool) (node : Nat) (held : op = .begin ∨ nodes ≠ []) (reached : op = .rollback → told = true) :
    savepointsAfter txn ⟨note.ext,note.invocation,.savepoint op⟩ told = List.replicate (depthAfter op told node nodes).length note.ext ++ rest := by
  cases op with
  | begin => cases told <;> simp [savepointsAfter,depthAfter,owned,List.replicate_succ]
  | release =>
    obtain ⟨first,more,shape⟩ := List.exists_cons_of_ne_nil (held.resolve_left SavepointOp.noConfusion)
    subst shape
    cases told <;> simp [savepointsAfter,depthAfter,owned,List.replicate_succ]
  | rollback =>
    obtain ⟨first,more,shape⟩ := List.exists_cons_of_ne_nil (held.resolve_left SavepointOp.noConfusion)
    subst shape
    simp [savepointsAfter,depthAfter,owned,List.replicate_succ,reached rfl]

theorem query_served (always : Kept state) (live : Live state) (usable : state.txn.isOver = false) (here : note.made = openNodes state.scopes)
    (writes : List ω) (fate : Fate) : Sound (state.query note writes fate).2 := by
  have answer := asked always note (.query writes) fate
  have ledger : Ledger (state.query note writes fate).2.log (openNodes state.scopes) state.undone state.count
      (state.query note writes fate).2.view.told (state.query note writes fate).2.view.outer := by
    have added := add_ledger live.ledger (openNodes state.scopes) (if (state.ask note (.query writes) fate).1 then writes else [])
    simp only [State.query,usable,Bool.false_eq_true,if_false,here]
    rw [answer.view]
    split
    · next told => simpa only [told,if_true,View.hear] using added
    · next told => simpa only [told,if_false,List.append_nil,Bool.false_eq_true] using added
  have owned : (state.ask note (.query writes) fate).2.txn.savepoints = owners state.scopes := by
    rw [answer.savepoints,← live.owned]
    exact ite_self _
  refine ⟨⟨always.queued,answer.matched,answer.closed,fun entry member => ?_,ledger.told,always.kept,fun isOver => ?_⟩,fun _ =>
    ⟨live.sound,live.lane,live.covered,live.nested,live.meant,live.named,owned,ledger⟩⟩
  · simp only [State.query,usable,Bool.false_eq_true,if_false] at member
    rcases List.mem_append.mp member with old | new
    · exact always.exact entry old
    · cases List.mem_singleton.mp new
      exact here.symm
  · rw [show (state.query note writes fate).2.txn.isOver = false from answer.isOver.trans usable] at isOver
    cases isOver

theorem savepoint_served {op : SavepointOp} {fate : Fate} (always : Kept state) (live : Live state) (usable : state.txn.isOver = false)
    (shape : state.scopes = scope::outer) (own : note.ext = scope.ext) (held : op = .begin ∨ scope.nodes ≠ [])
    (reached : op = .rollback → (state.ask note (.savepoint op) fate).1 = true)
    (left : ∀ other inner, state.turns.item other = some inner → inner.phase.done = false → inner.level ≠ path state.scopes) :
    Sound (state.savepoint note op scope.item fate).2 := by
  have answer := asked always note (.savepoint op) fate
  have apart : scope.item ∉ path outer := by
    have lane := live.lane
    rw [shape] at lane
    exact lane_apart live.sound lane
  have found : state.nodes scope.item = scope.nodes := by
    rw [State.nodes,shape,List.find?_cons_of_pos (by simp)]
    rfl
  have owned : state.txn.savepoints = List.replicate scope.nodes.length note.ext ++ owners outer := by
    rw [live.owned,shape,own]
    rfl
  have ledger := live.ledger
  rw [shape] at ledger
  have kept := answered_ledger ledger op (state.ask note (.savepoint op) fate).1 held reached
  rw [← answer.view] at kept
  have after : Live (state.savepoint note op scope.item fate).2 := by
    refine reshape_live live shape left rfl rfl rfl (depthAfter op (state.ask note (.savepoint op) fate).1 state.count scope.nodes) ?_ ?_ ?_
    · simp only [State.savepoint,shape]
      exact answered_head apart op _ _
    · rw [← own]
      exact answer.savepoints.trans (answered_owned owned op _ state.count held reached)
    · simp only [State.savepoint,found]
      exact kept
  refine ⟨⟨always.queued,answer.matched,answer.closed,always.exact,after.ledger.told,?_,fun isOver => ?_⟩,fun _ => after⟩
  · simp only [State.savepoint,always.kept,Bool.false_or]
    cases op with
    | begin => rfl
    | release => rfl
    | rollback =>
      rw [reached rfl]
      rfl
  · rw [show (state.savepoint note op scope.item fate).2.txn.isOver = false from answer.isOver.trans usable] at isOver
    cases isOver

theorem abandon_served {fate : Fate} (always : Kept state) (live : Live state) (usable : state.txn.isOver = false) (shape : state.scopes = scope::outer)
    (held : scope.nodes ≠ []) (reached : (state.ask note (.abandon scope.base) fate).1 = true)
    (left : ∀ other inner, state.turns.item other = some inner → inner.phase.done = false → inner.level ≠ path state.scopes) :
    Sound (state.abandon note scope.item scope.base fate).2 := by
  have answer := asked always note (.abandon scope.base) fate
  have apart : scope.item ∉ path outer := by
    have lane := live.lane
    rw [shape] at lane
    exact lane_apart live.sound lane
  have found : state.nodes scope.item = scope.nodes := by
    rw [State.nodes,shape,List.find?_cons_of_pos (by simp)]
    rfl
  have base : scope.base = (openNodes outer).length := by
    have nested := live.nested
    rw [shape] at nested
    exact nested.2.1
  have ledger : Ledger state.log (scope.nodes ++ openNodes outer) state.undone state.count state.view.told state.view.outer := by
    have ledger := live.ledger
    rwa [shape] at ledger
  obtain ⟨saved,before,back,kept⟩ := undo_ledger ledger held
  have view : (state.ask note (.abandon scope.base) fate).2.view = ⟨saved,before⟩ := by
    have length : state.view.outer.length - (scope.base + 1) = scope.nodes.length - 1 := by
      rw [ledger.outer,List.length_map,List.length_append,base]
      omega
    rw [answer.view,if_pos reached,View.hear,length,back]
    rfl
  have after : Live (state.abandon note scope.item scope.base fate).2 := by
    refine reshape_live live shape left rfl rfl rfl [] ?_ ?_ ?_
    · have rest : (outer.filter fun other => other.item ≠ scope.item) = outer := by
        refine List.filter_eq_self.mpr fun other member => decide_eq_true fun wrong => apart ?_
        rw [← wrong]
        exact List.mem_map_of_mem member
      simp only [State.abandon,shape,if_true]
      rw [List.filter_cons_of_neg (by simp)]
      exact rest
    · have all : state.txn.savepoints = List.replicate scope.nodes.length scope.ext ++ owners outer := by
        rw [live.owned,shape]
        rfl
      have length : state.txn.savepoints.length - scope.base = scope.nodes.length := by
        rw [all,List.length_append,List.length_replicate,owners_length,base]
        omega
      refine answer.savepoints.trans ?_
      rw [reached]
      simp only [savepointsAfter,if_true,length]
      rw [all,List.drop_append_of_le_length (by rw [List.length_replicate]),List.drop_replicate,Nat.sub_self]
      rfl
    · simp only [State.abandon,found,reached,if_true,view]
      exact kept
  refine ⟨⟨always.queued,answer.matched,answer.closed,always.exact,after.ledger.told,?_,fun isOver => ?_⟩,fun _ => after⟩
  · simp only [State.abandon,always.kept,reached,Bool.false_or,Bool.not_true,Bool.false_and]
  · rw [show (state.abandon note scope.item scope.base fate).2.txn.isOver = false from answer.isOver.trans usable] at isOver
    cases isOver

omit [DecidableEq ε] in
theorem innermost (nested : Nested scopes) (member : scope ∈ scopes) (level : scope.context = path scopes) : ∃ outer, scopes = scope::outer := by
  obtain ⟨front,outer,split⟩ := List.append_of_mem member
  rw [split] at nested level
  rw [(nested_split nested).1] at level
  have length := congrArg List.length level
  simp only [path,List.length_map,List.length_append,List.length_cons] at length
  have none_before : front = [] := List.length_eq_zero_iff.mp (by omega)
  exact ⟨outer,by rw [split,none_before]; rfl⟩

omit [DecidableEq ε] in
theorem conn_there {txn : RequestTxn ε ω} {view : View ω} (matched : Matches txn view) (any : txn.savepoints ≠ []) : ∃ conn, txn.conn = some conn := by
  cases there : txn.conn with
  | some conn => exact ⟨conn,rfl⟩
  | none =>
    unfold Matches at matched
    rw [there] at matched
    exact absurd matched.1 any

theorem ask_refused (isOver : state.txn.isOver = true) (note : Note ε ω) (work : Work ω) (fate : Fate) : state.ask note work fate = (false,state) := by
  unfold State.ask onConnection
  simp only [if_pos isOver,Bool.false_eq_true,if_false]

theorem serve_refused {fate : Fate} {served : Bool × State ε ω} (always : Kept state) (isOver : state.txn.isOver = true)
    (performed : state.serve note fate = some served) : Kept served.2 ∧ served.2.txn.isOver = true := by
  unfold State.serve at performed
  split at performed
  · next writes _ =>
    cases performed
    simp only [State.query,ask_refused isOver,if_pos isOver]
    exact ⟨always,isOver⟩
  · next op scope _ =>
    cases performed
    simp only [State.savepoint,ask_refused isOver,isOver,always.ended isOver,Bool.false_eq_true,and_false,if_false,Bool.not_true,Bool.and_false,Bool.or_false]
    exact ⟨⟨always.queued,always.matched,always.closed,always.exact,always.told,always.kept,fun _ => rfl⟩,trivial⟩
  · next scope base _ =>
    cases performed
    simp only [State.abandon,ask_refused isOver,isOver,always.ended isOver,Bool.false_eq_true,if_false,Bool.not_true,Bool.and_false,Bool.or_false]
    exact ⟨⟨always.queued,always.matched,always.closed,always.exact,always.told,always.kept,fun _ => rfl⟩,trivial⟩
  · cases performed

theorem rollback_told {fate : Fate} {work : Work ω} (always : Kept state) (live : Live state) (usable : state.txn.isOver = false)
    (shape : state.scopes = scope::outer) (held : scope.nodes ≠ []) (reaches : Reaches state note.ext fate)
    (own : work = .savepoint .rollback ∧ note.ext = scope.ext ∨ work = .abandon scope.base) : (state.ask note work fate).1 = true := by
  obtain ⟨node,more,nodes⟩ := List.exists_cons_of_ne_nil held
  have owned : state.txn.savepoints = scope.ext::(List.replicate more.length scope.ext ++ owners outer) := by
    rw [live.owned,shape,owners,List.flatMap_cons,nodes]
    rfl
  obtain ⟨conn,there⟩ := conn_there always.matched (by rw [owned]; exact List.cons_ne_nil _ _)
  refine rollback_reached always.closed always.matched usable there reaches.1 (reaches.2 conn there) ?_
  rcases own with ⟨same,ext⟩ | same
  · exact .inl ⟨same,by rw [owned,ext]; rfl⟩
  · refine .inr ⟨scope.base,same,?_⟩
    have nested := live.nested
    rw [shape] at nested
    rw [nested.2.1,owned,List.length_cons,List.length_append,owners_length]
    omega

theorem serve_turns {fate : Fate} {served : Bool × State ε ω} (turns : Turns.State) (performed : state.serve note fate = some served) :
    ({state with turns} : State ε ω).serve note fate = some (served.1,{served.2 with turns}) := by
  unfold State.serve at performed ⊢
  split at performed <;> cases performed <;> rfl

theorem turn_served {fate : Fate} {served : Bool × State ε ω} {phase : Turns.Phase} (sound : Sound state) (permitted : Permitted state (.serve item fate))
    (noted : state.notes[item]? = some note) (begun : state.pending = false) (performed : state.serve note fate = some served)
    (found : state.turns.item item = some it) (waits : it.phase = .waiting) (ready : it.after.elim true state.turns.done = true)
    (single : it.exclusive = false) (done : phase.done = true) : Sound {served.2 with turns := state.turns.become item phase} := by
  obtain ⟨always,live⟩ := sound
  have turned : Kept {state with turns := state.turns.become item phase} :=
    ⟨queued_become always.queued found (.inr done),always.matched,always.closed,always.exact,always.told,always.kept,always.ended⟩
  have performed := serve_turns (state.turns.become item phase) performed
  generalize ({served.2 with turns := state.turns.become item phase} : State ε ω) = result at performed ⊢
  generalize served.1 = told at performed
  cases usable : state.txn.isOver with
  | true =>
    obtain ⟨kept,isOver⟩ := serve_refused turned usable performed
    exact ⟨kept,fun wrong => absurd (wrong.symm.trans isOver) Bool.false_ne_true⟩
  | false =>
    have live := live usable
    have undone : it.phase.done = false := by rw [waits]; rfl
    have level : it.level = path state.scopes := Turns.turn_innermost live.sound live.lane found waits ready (live.covered item it found undone)
    have apart : item ∉ path state.scopes := by
      intro wrong
      obtain ⟨other,there,running⟩ := Turns.phase_some.mp (Turns.lane_member live.lane wrong)
      cases Option.some.inj (there.symm.trans found)
      rw [waits] at running
      cases running
    have began : phase ≠ .waiting := Turns.done_began done
    have after := done_live live (Turns.turn_sound live.sound found waits ready single began) done apart
    have meant := live.meant item it note found undone noted
    have permitted := permitted.resolve_left (by rw [usable]; exact Bool.false_ne_true) it note found noted
    -- What is left is not at the level of the item whose turn it is.
    have left (only : Alone state item it.level) (other : Nat) (inner : Turns.Item) (there : (state.turns.become item phase).item other = some inner)
        (open_still : inner.phase.done = false) : inner.level ≠ path state.scopes := by
      intro same
      obtain ⟨old,before,_,_,_,rest,moved⟩ := Turns.become_back there
      by_cases mine : item = other
      · rw [moved mine,done] at open_still
        cases open_still
      · rw [rest mine] at open_still same
        rcases only other old before (same.trans level.symm) with wrong | isOver
        · exact mine wrong.symm
        · rw [isOver] at open_still
          cases open_still
    have nodes (scope : TxnScope ε) (member : scope ∈ state.scopes) : scope.nodes ≠ [] := by
      have none_pending := List.any_eq_false.mp begun scope member
      simpa using none_pending
    obtain ⟨ext,invocation,made,job⟩ := note
    cases job with
    | query writes =>
      cases performed
      have here : made = openNodes state.scopes := by
        have meant : inside state.scopes it.level = some made := meant
        rw [level] at meant
        cases shape : state.scopes with
        | nil =>
          rw [shape] at meant
          exact (Option.some.inj meant).symm
        | cons scope outer =>
          rw [shape,inside_here,if_neg (nodes scope (shape ▸ List.mem_cons_self ..))] at meant
          exact (Option.some.inj meant).symm
      exact query_served turned after usable here writes fate
    | savepoint op number =>
      cases performed
      obtain ⟨scope,member,same,context,own⟩ := meant
      obtain ⟨outer,shape⟩ := innermost live.nested member (context.symm.trans level)
      subst same
      obtain ⟨only,reaches⟩ := permitted
      exact savepoint_served turned after usable shape own.symm (.inr (nodes scope member))
        (fun same => rollback_told turned after usable shape (nodes scope member) (reaches same) (.inl ⟨by rw [same],own.symm⟩)) (left only)
    | abandon number base =>
      cases performed
      obtain ⟨scope,member,same,context,below⟩ := meant
      obtain ⟨outer,shape⟩ := innermost live.nested member (context.symm.trans level)
      subst same below
      obtain ⟨only,reaches⟩ := permitted
      exact abandon_served turned after usable shape (nodes scope member)
        (rollback_told turned after usable shape (nodes scope member) reaches (.inr rfl)) (left only)
    | begin key => cases performed

theorem serve_sound {fate : Fate} (sound : Sound state) (permitted : Permitted state (.serve item fate)) (moved : step state (.serve item fate) = some later) :
    Sound later := by
  obtain ⟨note,noted,moved⟩ := Option.bind_eq_some_iff.mp moved
  split at moved
  · cases moved
  · next begun =>
    obtain ⟨served,performed,moved⟩ := Option.bind_eq_some_iff.mp moved
    obtain ⟨turns,taken,same⟩ := Option.map_eq_some_iff.mp moved
    subst same
    obtain ⟨it,found,waits,ready,single,same⟩ := (Turns.turn_exact sound.always.queued.unawaited).mp taken
    subst same
    exact turn_served sound permitted noted (Bool.not_eq_true _ ▸ begun) performed found waits ready single rfl

theorem enter_sound (sound : Sound state) (moved : step state (.enter item) = some later) : Sound later := by
  obtain ⟨note,noted,moved⟩ := Option.bind_eq_some_iff.mp moved
  split at moved
  · next key job =>
    split at moved
    · cases moved
    · next begun =>
      obtain ⟨always,live⟩ := sound
      obtain ⟨it,found,moved⟩ := Option.bind_eq_some_iff.mp moved
      obtain ⟨turns,started,same⟩ := Option.map_eq_some_iff.mp moved
      subst same
      obtain ⟨other,there,waits,ready,same⟩ := Turns.start_exact.mp started
      cases Option.some.inj (found.symm.trans there)
      have exclusive := (always.queued.kinds item it note found noted).mpr ⟨key,job⟩
      have queued : Queued turns state.notes := by
        rw [same]
        exact queued_become always.queued found (.inl ⟨rfl,exclusive⟩)
      cases usable : state.txn.isOver with
      | true =>
        rw [if_pos rfl]
        exact ⟨⟨queued,always.matched,always.closed,always.exact,always.told,always.kept,always.ended⟩,
          fun wrong => absurd (wrong.symm.trans usable) Bool.false_ne_true⟩
      | false =>
        rw [if_neg Bool.false_ne_true]
        have live := live usable
        have undone : it.phase.done = false := by rw [waits]; rfl
        have level : it.level = path state.scopes := Turns.turn_innermost live.sound live.lane found waits ready (live.covered item it found undone)
        have after : Turns.Sound turns := Turns.step_sound state.turns (.start item) turns live.sound trivial started
        have apart : item ∉ path state.scopes := by
          intro wrong
          obtain ⟨other,there,running⟩ := Turns.phase_some.mp (Turns.lane_member live.lane wrong)
          cases Option.some.inj (there.symm.trans found)
          rw [waits] at running
          cases running
        have covered (other : Nat) (inner : Turns.Item) (there : turns.item other = some inner) (undone : inner.phase.done = false) :
            inner.level <:+ path state.scopes ∧ ∃ old, state.turns.item other = some old ∧ old.level = inner.level ∧ old.phase.done = false := by
          rw [same] at there
          obtain ⟨old,before,beside,_,_,rest,_⟩ := Turns.become_back there
          have left : old.phase.done = false := by
            by_cases mine : item = other
            · subst mine
              cases Option.some.inj (before.symm.trans found)
              rw [waits]
              rfl
            · rw [← rest mine]
              exact undone
          rw [beside]
          exact ⟨live.covered other old before left,old,before,rfl,left⟩
        refine ⟨⟨queued,always.matched,always.closed,always.exact,always.told,always.kept,fun wrong => absurd (usable.symm.trans wrong) Bool.false_ne_true⟩,
          fun _ => ⟨after,?_,fun other inner there undone => ?_,?_,fun other inner about there undone noted => ?_,fun around member => ?_,live.owned,live.ledger⟩⟩
        · rw [same]
          exact ⟨⟨_,Turns.become_self found,level,rfl⟩,Turns.lane_become live.lane apart⟩
        · exact (covered other inner there undone).1.trans (List.suffix_cons ..)
        · refine ⟨by rw [level]; rfl,by rw [live.owned,owners_length],fun other member => ?_,live.nested⟩
          have none_pending := List.any_eq_false.mp (Bool.not_eq_true _ ▸ begun : state.pending = false) other member
          simpa using none_pending
        · obtain ⟨within,old,before,beside,left⟩ := covered other inner there undone
          exact meant_inner (beside ▸ live.meant other old about before left noted) apart within
        · rcases List.mem_cons.mp member with same | further
          · subst same
            have meant := live.meant item it note found undone noted
            unfold Meant at meant
            rw [job] at meant
            exact ⟨⟨note,noted,rfl⟩,meant⟩
          · exact live.named around further
  · cases moved

theorem exit_sound (sound : Sound state) (moved : step state (.exit item) = some later) : Sound later := by
  obtain ⟨note,noted,moved⟩ := Option.bind_eq_some_iff.mp moved
  split at moved
  · next key job =>
    split at moved
    · cases moved
    · next closed =>
      obtain ⟨always,live⟩ := sound
      obtain ⟨turns,left,same⟩ := Option.map_eq_some_iff.mp moved
      subst same
      obtain ⟨it,found,running,exclusive,same⟩ := (Turns.leave_exact always.queued.unawaited).mp left
      subst same
      refine ⟨⟨queued_become always.queued found (.inr rfl),always.matched,always.closed,always.exact,always.told,always.kept,always.ended⟩,fun usable => ?_⟩
      have live := live usable
      have apart : item ∉ path state.scopes := by
        intro wrong
        obtain ⟨scope,member,same⟩ := List.mem_map.mp wrong
        exact closed (List.any_eq_true.mpr ⟨scope,member,decide_eq_true same⟩)
      -- Nothing is left inside: what is left is inside the open scopes.
      refine done_live live (Turns.become_sound live.sound found (by rw [running]; rfl) Turns.Phase.noConfusion (fun wrong => ?_)
        (.inr fun other inner there inside => ?_)) rfl apart
      · cases running.symm.trans wrong
      · by_contra left
        rw [Bool.not_eq_true] at left
        exact apart ((live.covered other inner there left).subset inside)
  · cases moved

omit [DecidableEq ε] in
theorem meant_begun {nodes : List Nat} (meant : Meant invocations (scope::outer) level note) (pending : scope.nodes = []) (apart : scope.item ∉ path outer)
    (covered : level <:+ path (scope::outer)) : Meant invocations ({scope with nodes}::outer) level note := by
  have held {around : TxnScope ε} (member : around ∈ scope::outer) : ∃ other ∈ {scope with nodes}::outer, other.item = around.item ∧
      other.context = around.context ∧ other.ext = around.ext ∧ other.base = around.base := by
    rcases List.mem_cons.mp member with same | further
    · subst same
      exact ⟨_,List.mem_cons_self ..,rfl,rfl,rfl,rfl⟩
    · exact ⟨around,List.mem_cons_of_mem _ further,rfl,rfl,rfl,rfl⟩
  unfold Meant at meant ⊢
  split
  · next job =>
    simp only [job] at meant
    have other : level ≠ path (scope::outer) := by
      intro same
      rw [same,inside_here,if_pos pending] at meant
      cases meant
    have within : level <:+ path outer := suffix_outer covered other
    rw [inside_outer within apart] at meant
    have same : inside ({scope with nodes}::outer) level = inside outer level := inside_outer within apart
    exact same.trans meant
  · next job =>
    simp only [job] at meant
    exact meant
  · next job =>
    simp only [job] at meant
    obtain ⟨around,member,item,context,ext⟩ := meant
    obtain ⟨other,place,same,level,owner,_⟩ := held member
    exact ⟨other,place,same.trans item,context.trans level.symm,owner.trans ext⟩
  · next job =>
    simp only [job] at meant
    obtain ⟨around,member,item,context,base⟩ := meant
    obtain ⟨other,place,same,level,_,below⟩ := held member
    exact ⟨other,place,same.trans item,context.trans level.symm,below.trans base⟩

theorem begun_told {fate : Fate} (always : Kept state) (live : Live state) (usable : state.txn.isOver = false) (shape : state.scopes = scope::outer)
    (own : note.ext = scope.ext) (pending : scope.nodes = []) (told : (state.ask note (.savepoint .begin) fate).1 = true) :
    Sound (state.savepoint note .begin scope.item fate).2 := by
  have answer := asked always note (.savepoint .begin) fate
  have lane : Turns.Lane state.turns (scope.item::path outer) := by
    have lane := live.lane
    rwa [shape] at lane
  have apart := lane_apart live.sound lane
  have covered (other : Nat) (inner : Turns.Item) (there : state.turns.item other = some inner) (undone : inner.phase.done = false) :
      inner.level <:+ path (scope::outer) := shape ▸ live.covered other inner there undone
  have scopes : (state.savepoint note .begin scope.item fate).2.scopes = {scope with nodes := [state.count]}::outer := by
    have head := answered_head apart .begin true state.count
    simp only [depthAfter,pending,if_true,if_neg (List.cons_ne_nil _ _)] at head
    simp only [State.savepoint,shape,told]
    exact head
  have ledger : Ledger state.log (openNodes (scope::outer)) state.undone state.count state.view.told state.view.outer := shape ▸ live.ledger
  have nodes : openNodes (scope::outer) = openNodes outer := by
    unfold openNodes
    rw [List.flatMap_cons,pending]
    rfl
  rw [nodes] at ledger
  have view : (state.savepoint note .begin scope.item fate).2.view = ⟨state.view.told,state.view.told::state.view.outer⟩ := by
    show (state.ask note (.savepoint .begin) fate).2.view = _
    rw [answer.view,if_pos told]
    rfl
  have kept : Ledger state.log (openNodes ({scope with nodes := [state.count]}::outer)) state.undone (state.count + 1) state.view.told
      (state.view.told::state.view.outer) := open_ledger ledger
  have whole : Live (state.savepoint note .begin scope.item fate).2 := by
    refine ⟨live.sound,?_,?_,?_,?_,?_,?_,?_⟩
    · rw [scopes]
      exact lane
    · rw [scopes]
      exact covered
    · rw [scopes]
      exact (shape ▸ live.nested : Nested (scope::outer))
    · rw [scopes]
      exact fun other inner about there undone noted => meant_begun (shape ▸ live.meant other inner about there undone noted) pending apart
        (covered other inner there undone)
    · rw [scopes]
      intro around member
      rcases List.mem_cons.mp member with same | further
      · subst same
        exact live.named scope (shape ▸ List.mem_cons_self ..)
      · exact live.named around (shape ▸ List.mem_cons_of_mem _ further)
    · rw [scopes]
      refine answer.savepoints.trans ?_
      rw [told]
      show note.ext::state.txn.savepoints = scope.ext::owners outer
      rw [live.owned,shape,own,owners,List.flatMap_cons,pending]
      rfl
    · rw [scopes,view]
      exact kept
  refine ⟨⟨always.queued,answer.matched,answer.closed,always.exact,whole.ledger.told,?_,fun isOver => ?_⟩,fun _ => whole⟩
  · simp only [State.savepoint,always.kept,Bool.false_or]
    rfl
  · rw [show (state.savepoint note .begin scope.item fate).2.txn.isOver = false from answer.isOver.trans usable] at isOver
    cases isOver

theorem begun_sound {fate : Fate} (sound : Sound state) (permitted : Permitted state (.begun item fate)) (moved : step state (.begun item fate) = some later) :
    Sound later := by
  obtain ⟨note,noted,moved⟩ := Option.bind_eq_some_iff.mp moved
  split at moved
  · next waits =>
    cases Option.some.inj moved
    obtain ⟨always,live⟩ := sound
    obtain ⟨scope,member,condition⟩ := List.any_eq_true.mp waits
    obtain ⟨same,pending⟩ := Bool.and_eq_true_iff.mp condition
    have same := of_decide_eq_true same
    have pending := of_decide_eq_true pending
    cases usable : state.txn.isOver with
    | true =>
      rw [always.ended usable] at member
      cases member
    | false =>
      have live := live usable
      have nested := live.nested
      obtain ⟨front,outer,split⟩ := List.append_of_mem member
      have shape : state.scopes = scope::outer := by
        cases front with
        | nil => exact split
        | cons first rest =>
          rw [split] at nested
          exact absurd pending (nested.2.2.1 scope (List.mem_append_right _ (List.mem_cons_self ..)))
      subst same
      obtain ⟨⟨about,there,ext⟩,_⟩ := live.named scope member
      cases Option.some.inj (noted.symm.trans there)
      cases told : (state.ask note (.savepoint .begin) fate).1 with
      | true => exact begun_told always live usable shape ext pending told
      | false =>
        rcases permitted scope member rfl with only | ⟨host,opened,intact⟩
        · refine savepoint_served always live usable shape ext (.inl rfl) (fun wrong => (by cases wrong)) fun other inner found undone level => ?_
          rw [shape] at level nested
          rcases only other inner found (level.trans nested.1.symm) with mine | done
          · subst mine
            have lane := live.lane
            rw [shape] at lane
            obtain ⟨⟨it,here,around,_⟩,_⟩ := lane
            cases Option.some.inj (here.symm.trans found)
            have length := congrArg List.length (around.symm.trans level)
            exact absurd length (Nat.ne_of_lt (Nat.lt_succ_self _))
          · rw [done] at undone
            cases undone
        · exact absurd (told.symm.trans (begin_reached usable host opened intact note.ext note.invocation)) Bool.false_ne_true
  · cases moved

theorem step_sound : Preserved (step (ε := ε) (ω := ω)) Permitted Sound := by
  intro state action after sound permitted moved
  cases action with
  | call caller txn ext => exact call_sound sound moved
  | query invocation txn writes => exact query_sound sound permitted moved
  | savepoint invocation txn op => exact savepoint_sound sound permitted moved
  | leave invocation => exact leave_sound sound moved
  | serve item fate => exact serve_sound sound permitted moved
  | enter item => exact enter_sound sound moved
  | begun item fate => exact begun_sound sound permitted moved
  | exit item => exact exit_sound sound moved
  | endTxn =>
    cases Option.some.inj moved
    obtain ⟨always,_⟩ := sound
    exact ⟨⟨always.queued,always.matched,always.closed,always.exact,always.told,always.kept,fun _ => rfl⟩,fun wrong => absurd wrong.symm Bool.false_ne_true⟩

-- The steps of the turns, as against what is sent and the end of the transaction.
def Action.serves : Action ε ω → Bool
  | .serve _ _ | .enter _ | .begun _ _ | .exit _ => true
  | _ => false

def Stuck (state : State ε ω) : Prop := ∀ (action : Action ε ω) (after : State ε ω), action.serves = true → step state action ≠ some after

def State.load (state : State ε ω) : Nat := 2 * state.turns.work + state.scopes.countP fun scope => scope.nodes = []

def undoes (state : State ε ω) : Action ε ω → List Nat
  | .serve item _ => match (state.notes[item]?).map Note.job with
    | some (.savepoint .rollback scope) => (state.nodes scope).take 1
    | some (.abandon scope _) => state.nodes scope
    | _ => []
  | _ => []

structure Isolated (state : State ε ω) : Prop where
  named : state.txn.conn = none → state.txn.savepoints = []
  numbered : ∀ conn, state.txn.conn = some conn → Numbered conn.session.stack ∧ conn.session.stack.length = state.txn.savepoints.length
  owned : state.txn.isOver = false → state.txn.savepoints = owners state.scopes
  inside : ∀ entry ∈ state.log, entry.around = entry.made
  stands : ∀ conn, state.txn.conn = some conn → conn.session.aborted = false → conn.session.now = standing state.log state.undone
  kept : state.lost = false
  undone : ∀ (action : Action ε ω) after, Permitted state action → step state action = some after → after.undone = undoes state action ++ state.undone
  freed : state.txn.isOver = true → state.scopes = []
  settled : state.scopes = [] → Stuck state → ∀ item it, state.turns.item item = some it → it.phase.done = true
  bounded : ∀ (actions : List (Action ε ω)) after, (∀ action ∈ actions, action.serves = true) → run step state actions = some after →
    actions.length ≤ state.load

omit [DecidableEq ε] in
theorem take_work {told : Bool} {turns after : Turns.State} (taken : take turns item told = some after) : after.work < turns.work := by
  obtain ⟨started,one,taken⟩ := Option.bind_eq_some_iff.mp taken
  obtain ⟨ended,two,three⟩ := Option.bind_eq_some_iff.mp taken
  exact (Turns.internal_work rfl three).trans ((Turns.internal_work rfl two).trans (Turns.internal_work rfl one))

theorem quit_work {turns after : Turns.State} (left : quit turns item = some after) : after.work < turns.work := by
  obtain ⟨ended,one,left⟩ := Option.bind_eq_some_iff.mp left
  obtain ⟨closed,two,three⟩ := Option.bind_eq_some_iff.mp left
  exact (Turns.internal_work rfl three).trans ((Turns.internal_work rfl two).trans (Turns.internal_work rfl one))

omit [DecidableEq ε] in
theorem answered_pending {answer : TxnScope ε → Option (TxnScope ε)} (own : ∀ scope other, scope.item = item → answer scope = some other → other.nodes ≠ [])
    (rest : ∀ scope, scope.item ≠ item → answer scope = some scope) (scopes : List (TxnScope ε)) :
    ((scopes.filterMap answer).countP fun scope => scope.nodes = []) + (if (scopes.any fun scope => scope.item = item && scope.nodes = []) then 1 else 0) ≤
      scopes.countP fun scope => scope.nodes = [] := by
  induction scopes with
  | nil => exact Nat.le_refl _
  | cons scope outer ih =>
    rw [List.any_cons,List.countP_cons]
    by_cases mine : scope.item = item
    · have same : ((scope::outer).filterMap answer).countP (fun scope => scope.nodes = []) = (outer.filterMap answer).countP fun scope => scope.nodes = [] := by
        cases result : answer scope with
        | none => rw [List.filterMap_cons_none result]
        | some other =>
          rw [List.filterMap_cons_some result]
          exact List.countP_cons_of_neg (by simpa using own scope other mine result)
      rw [same]
      by_cases pending : scope.nodes = []
      · simp only [mine,pending,decide_true,Bool.and_self,Bool.true_or,if_true]
        omega
      · simp only [pending,decide_false,Bool.and_false,Bool.false_or,Bool.false_eq_true,if_false,Nat.add_zero]
        exact ih
    · rw [List.filterMap_cons_some (rest scope mine),List.countP_cons]
      simp only [mine,decide_false,Bool.false_and,Bool.false_or]
      omega

omit [DecidableEq ε] in
theorem answered_fewer (scopes : List (TxnScope ε)) (item : Nat) (op : SavepointOp) (told : Bool) (node : Nat) :
    ((scopes.filterMap fun scope => scope.answered item op told node).countP fun scope => scope.nodes = []) +
      (if (scopes.any fun scope => scope.item = item && scope.nodes = []) then 1 else 0) ≤ scopes.countP fun scope => scope.nodes = [] := by
  refine answered_pending (fun scope other mine result => ?_) (fun scope other => if_neg other) scopes
  simp only [if_pos mine] at result
  split at result
  · cases result
  · next open_still =>
    cases Option.some.inj result
    exact open_still

theorem serves_load {action : Action ε ω} (serves : action.serves = true) (moved : step state action = some later) : later.load < state.load := by
  unfold State.load
  cases action with
  | call caller txn ext => cases serves
  | query invocation txn writes => cases serves
  | savepoint invocation txn op => cases serves
  | leave invocation => cases serves
  | endTxn => cases serves
  | serve item fate =>
    obtain ⟨note,noted,moved⟩ := Option.bind_eq_some_iff.mp moved
    split at moved
    · cases moved
    · obtain ⟨served,performed,moved⟩ := Option.bind_eq_some_iff.mp moved
      obtain ⟨turns,taken,same⟩ := Option.map_eq_some_iff.mp moved
      subst same
      have less := take_work taken
      have fewer : (served.2.scopes.countP fun scope => scope.nodes = []) ≤ state.scopes.countP fun scope => scope.nodes = [] := by
        unfold State.serve at performed
        split at performed
        · cases performed
          exact Nat.le_refl _
        · next op scope _ =>
          cases performed
          have answered := answered_fewer state.scopes scope op (state.ask note (.savepoint op) fate).1 state.count
          exact (Nat.le_add_right _ _).trans answered
        · cases performed
          exact List.filter_sublist.countP_le
        · cases performed
      simp only
      omega
  | enter item =>
    obtain ⟨note,noted,moved⟩ := Option.bind_eq_some_iff.mp moved
    split at moved
    · split at moved
      · cases moved
      · obtain ⟨it,found,moved⟩ := Option.bind_eq_some_iff.mp moved
        obtain ⟨turns,started,same⟩ := Option.map_eq_some_iff.mp moved
        have less : turns.work < state.turns.work := Turns.internal_work rfl started
        subst same
        split
        · simp only
          omega
        · simp only [List.countP_cons,decide_true,if_true]
          omega
    · cases moved
  | begun item fate =>
    obtain ⟨note,noted,moved⟩ := Option.bind_eq_some_iff.mp moved
    split at moved
    · next waits =>
      cases Option.some.inj moved
      have answered := answered_fewer state.scopes item .begin (state.ask note (.savepoint .begin) fate).1 state.count
      rw [if_pos waits] at answered
      simp only [State.savepoint,State.ask]
      exact Nat.add_lt_add_left answered _
    · cases moved
  | exit item =>
    obtain ⟨note,noted,moved⟩ := Option.bind_eq_some_iff.mp moved
    split at moved
    · split at moved
      · cases moved
      · obtain ⟨turns,left,same⟩ := Option.map_eq_some_iff.mp moved
        have less := quit_work left
        subst same
        simp only
        omega
    · cases moved

theorem run_load {actions : List (Action ε ω)} (serves : ∀ action ∈ actions, action.serves = true) (path : run step state actions = some later) :
    actions.length ≤ state.load := by
  induction actions generalizing state with
  | nil => exact Nat.zero_le _
  | cons action rest ih =>
    obtain ⟨next,one,after⟩ := run_cons.mp path
    have less := serves_load (serves action (List.mem_cons_self ..)) one
    have fewer := ih (fun other member => serves other (List.mem_cons_of_mem _ member)) after
    show rest.length + 1 ≤ state.load
    omega

theorem stuck_done (queued : Queued state.turns state.notes) (free : state.scopes = []) (stuck : Stuck state) :
    ∀ item it, state.turns.item item = some it → it.phase.done = true := by
  intro item
  induction item using Nat.strong_induction_on with
  | _ item ih =>
    intro it found
    have below : item < state.notes.length := queued.paired ▸ (List.getElem?_eq_some_iff.mp found).1
    obtain ⟨note,noted⟩ : ∃ note, state.notes[item]? = some note := ⟨_,List.getElem?_eq_getElem below⟩
    have kind := queued.kinds item it note found noted
    have none_pending : state.pending = false := by
      unfold State.pending
      rw [free]
      rfl
    rcases queued.phases item it found with waits | ⟨running,exclusive⟩ | done
    · exfalso
      have ready : it.after.elim true state.turns.done = true := by
        cases equal : it.after with
        | none => rfl
        | some last =>
          have less := queued.follows item it last found equal
          have there : last < state.turns.items.length := less.trans (List.getElem?_eq_some_iff.mp found).1
          exact Turns.done_iff.mpr ⟨_,List.getElem?_eq_getElem there,ih last less _ (List.getElem?_eq_getElem there)⟩
      cases exclusive : it.exclusive with
      | true =>
        obtain ⟨key,job⟩ := kind.mp exclusive
        have started := Turns.start_exact.mpr ⟨it,found,waits,ready,rfl⟩
        obtain ⟨after,same⟩ : ∃ after, step state (.enter item) = some after := by
          simp only [step,noted,Option.bind_some,job,none_pending,Bool.false_eq_true,if_false,found,started,Option.map_some]
          exact ⟨_,rfl⟩
        exact stuck _ after rfl same
      | false =>
        let fate : Fate := ⟨none,false,false,false⟩
        obtain ⟨served,performed⟩ : ∃ served, state.serve note fate = some served := by
          unfold State.serve
          split
          · exact ⟨_,rfl⟩
          · exact ⟨_,rfl⟩
          · exact ⟨_,rfl⟩
          · next key job =>
            have wrong := kind.mpr ⟨key,job⟩
            rw [exclusive] at wrong
            cases wrong
        have taken : take state.turns item served.1 = some _ := (Turns.turn_exact queued.unawaited).mpr ⟨it,found,waits,ready,exclusive,rfl⟩
        obtain ⟨after,same⟩ : ∃ after, step state (.serve item fate) = some after := by
          simp only [step,noted,Option.bind_some,none_pending,Bool.false_eq_true,if_false,performed,taken,Option.map_some]
          exact ⟨_,rfl⟩
        exact stuck _ after rfl same
    · exfalso
      obtain ⟨key,job⟩ := kind.mp exclusive
      have left : quit state.turns item = some _ := (Turns.leave_exact queued.unawaited).mpr ⟨it,found,running,exclusive,rfl⟩
      obtain ⟨after,same⟩ : ∃ after, step state (.exit item) = some after := by
        simp only [step,noted,Option.bind_some,job,free,List.any_nil,Bool.false_eq_true,if_false,left,Option.map_some]
        exact ⟨_,rfl⟩
      exact stuck _ after rfl same
    · exact done

-- A rollback that was not lost was told, or the transaction is over and has no scope to undo.
theorem undone_told {nodes rest : List Nat} {told isOver lost : Bool} (kept : (lost || (!told && !isOver)) = false) (empty : isOver = true → nodes = []) :
    (if told then nodes ++ rest else rest) = nodes ++ rest := by
  cases told with
  | true => rfl
  | false =>
    cases isOver with
    | true => rw [empty rfl]; rfl
    | false =>
      cases lost <;> cases kept

theorem savepoint_undone {op : SavepointOp} (other : op ≠ .rollback) (note : Note ε ω) (item : Nat) (fate : Fate) :
    (state.savepoint note op item fate).2.undone = state.undone := if_neg fun both => other both.1

theorem undone_exact {action : Action ε ω} (sound : Sound state) (permitted : Permitted state action) (moved : step state action = some later) :
    later.undone = undoes state action ++ state.undone := by
  have after := (step_sound state action later sound permitted moved).always.kept
  have empty (item : Nat) (isOver : state.txn.isOver = true) : state.nodes item = [] := by
    rw [State.nodes,sound.always.ended isOver]
    rfl
  have issued {context : Level} {exclusive : Bool} {note : Note ε ω} {before after : State ε ω} (moved : before.issue context exclusive note = some after) :
      after.undone = before.undone := by
    obtain ⟨turns,_,same⟩ := Option.map_eq_some_iff.mp moved
    exact same ▸ rfl
  cases action with
  | call caller txn ext =>
    obtain ⟨invocation,_,moved⟩ := Option.bind_eq_some_iff.mp moved
    split at moved
    · cases moved
    · cases Option.some.inj moved
      rfl
  | query number txn writes =>
    obtain ⟨invocation,_,moved⟩ := Option.bind_eq_some_iff.mp moved
    split at moved
    · cases moved
    · exact issued moved
  | savepoint number txn op =>
    obtain ⟨invocation,_,moved⟩ := Option.bind_eq_some_iff.mp moved
    split at moved
    · cases moved
    · split at moved
      · split at moved
        · cases moved
        · exact issued moved
      · split at moved
        · exact issued moved
        · cases moved
  | leave number =>
    obtain ⟨invocation,_,moved⟩ := Option.bind_eq_some_iff.mp moved
    split at moved
    · cases moved
    · simp only at moved
      split at moved
      · have same := issued moved
        exact same
      · cases Option.some.inj moved
        rfl
  | serve item fate =>
    obtain ⟨note,noted,moved⟩ := Option.bind_eq_some_iff.mp moved
    split at moved
    · cases moved
    · obtain ⟨served,performed,moved⟩ := Option.bind_eq_some_iff.mp moved
      obtain ⟨turns,_,same⟩ := Option.map_eq_some_iff.mp moved
      subst same
      simp only [undoes,noted,Option.map_some]
      unfold State.serve at performed
      split at performed
      · next writes job =>
        cases performed
        rw [job]
        rfl
      · next op scope job =>
        cases performed
        rw [job]
        cases op with
        | begin => exact savepoint_undone (fun wrong => (by cases wrong)) note scope fate
        | release => exact savepoint_undone (fun wrong => (by cases wrong)) note scope fate
        | rollback =>
          simp only [State.savepoint,true_and] at after ⊢
          exact undone_told after fun isOver => by rw [empty scope isOver]; rfl
      · next scope base job =>
        cases performed
        rw [job]
        exact undone_told after (empty scope)
      · cases performed
  | enter item =>
    obtain ⟨note,_,moved⟩ := Option.bind_eq_some_iff.mp moved
    split at moved
    · split at moved
      · cases moved
      · obtain ⟨it,_,moved⟩ := Option.bind_eq_some_iff.mp moved
        obtain ⟨turns,_,same⟩ := Option.map_eq_some_iff.mp moved
        subst same
        split <;> rfl
    · cases moved
  | begun item fate =>
    obtain ⟨note,_,moved⟩ := Option.bind_eq_some_iff.mp moved
    split at moved
    · cases Option.some.inj moved
      exact savepoint_undone (fun wrong => (by cases wrong)) note item fate
    · cases moved
  | exit item =>
    obtain ⟨note,_,moved⟩ := Option.bind_eq_some_iff.mp moved
    split at moved
    · split at moved
      · cases moved
      · obtain ⟨turns,_,same⟩ := Option.map_eq_some_iff.mp moved
        subst same
        rfl
    · cases moved
  | endTxn =>
    cases Option.some.inj moved
    rfl

theorem scopes_isolated {joined : Bool} {ext : ε} {actions : List (Action ε ω)} (guarded : Guarded step Permitted (State.start joined ext) actions)
    (path : run step (State.start joined ext) actions = some state) : Isolated state := by
  have sound := run_preserves step_sound (start_sound joined ext) guarded path
  obtain ⟨always,live⟩ := sound
  have matched := always.matched
  unfold Matches at matched
  refine ⟨fun there => ?_,fun conn there => ?_,fun usable => (live usable).owned,always.exact,fun conn there intact => ?_,always.kept,
    fun action after permitted moved => undone_exact ⟨always,live⟩ permitted moved,always.ended,stuck_done always.queued,
    fun actions after serves later => run_load serves later⟩
  · rw [there] at matched
    exact matched.1
  · rw [there] at matched
    exact ⟨matched.numbered,matched.counted⟩
  · rw [there] at matched
    exact (matched.now intact).trans always.told

omit [DecidableEq ε] in
theorem alone_of (clear : ∀ it, state.turns.item item = some it → it.level = level →
    ((List.range state.turns.items.length).all fun other => other = item || (state.turns.item other).all fun inner => inner.level ≠ level || inner.phase.done) = true)
    (found : state.turns.item item = some it) (here : it.level = level) : Alone state item level := by
  intro other inner there same
  have every := List.all_eq_true.mp (clear it found here) other (List.mem_range.mpr (List.getElem?_eq_some_iff.mp there).1)
  rw [there,Option.all_some] at every
  rcases Bool.or_eq_true_iff.mp every with mine | isOver
  · exact .inl (of_decide_eq_true mine)
  · rcases Bool.or_eq_true_iff.mp isOver with apart | done
    · exact absurd same (of_decide_eq_true apart)
    · exact .inr done

end

def well : Fate := ⟨some true,true,true,true⟩
def failing : Fate := {well with ran := false}

def called : List (Action Nat Nat) :=
  [.query 0 none [1],.serve 0 well,.savepoint 0 7 .begin,.enter 1,.begun 1 well,.call 0 (some 7) 1,.query 1 none [2],.serve 2 well,
    .savepoint 0 7 .rollback,.serve 3 well,.exit 1,.query 0 none [4],.serve 4 well,.endTxn]

theorem called_isolated : ∃ state : State Nat Nat, run step (State.start false 0) called = some state ∧ Isolated state ∧
    state.txn.conn.map (fun conn => conn.session.now) = some [1,4] := by
  have guarded : Guarded step Permitted (State.start false 0) called := by
    refine guarded_cons (show Permitted _ (.query 0 none [1]) from .inr fun _ there => by cases there; rfl) rfl ?_
    refine guarded_cons (show Permitted _ (.serve 0 well) from .inr fun _ _ found noted => by cases found; cases noted; trivial) rfl ?_
    refine guarded_cons (show Permitted _ (.savepoint 0 7 .begin) from .inr (.inr fun _ there => by cases there; rfl)) rfl ?_
    refine guarded_cons (show Permitted _ (.enter 1) from trivial) rfl ?_
    refine guarded_cons (show Permitted _ (.begun 1 well) from fun scope member _ => .inr ⟨rfl,fun wrong => (by cases wrong),fun conn there => by
      cases there
      rfl⟩) rfl ?_
    refine guarded_cons (show Permitted _ (.call 0 (some 7) 1) from trivial) rfl ?_
    refine guarded_cons (show Permitted _ (.query 1 none [2]) from .inr fun _ there => by cases there; rfl) rfl ?_
    refine guarded_cons (show Permitted _ (.serve 2 well) from .inr fun _ _ found noted => by cases found; cases noted; trivial) rfl ?_
    refine guarded_cons (show Permitted _ (.savepoint 0 7 .rollback) from .inr (.inl fun wrong => (by cases wrong))) rfl ?_
    refine guarded_cons (show Permitted _ (.serve 3 well) from .inr fun it _ found noted => by
      cases found
      cases noted
      exact ⟨alone_of (fun _ there _ => by cases there; rfl) rfl rfl,fun _ => ⟨rfl,fun conn there wrong => by
        cases there
        cases wrong⟩⟩) rfl ?_
    refine guarded_cons (show Permitted _ (.exit 1) from trivial) rfl ?_
    refine guarded_cons (show Permitted _ (.query 0 none [4]) from .inr fun _ there => by cases there; rfl) rfl ?_
    refine guarded_cons (show Permitted _ (.serve 4 well) from .inr fun _ _ found noted => by cases found; cases noted; trivial) rfl ?_
    exact guarded_cons (show Permitted _ .endTxn from trivial) rfl trivial
  exact ⟨_,rfl,scopes_isolated guarded rfl,rfl⟩

-- The service's statement fails and the scope is rolled back: the role is switched back on the aborted transaction first, and the rollback refused.
def refused : List (Action Nat Nat) :=
  [.query 0 none [1],.serve 0 well,.savepoint 0 7 .begin,.enter 1,.begun 1 well,.call 0 (some 7) 1,.query 1 none [2],.serve 2 failing,
    .savepoint 0 7 .rollback,.serve 3 well]

theorem refused_lost : ∃ state : State Nat Nat, run step (State.start false 0) refused = some state ∧ state.lost = true ∧ state.txn.savepoints = [0] ∧
    state.scopes = [] ∧ state.txn.conn.map (fun conn => conn.session.aborted) = some true := ⟨_,rfl,rfl,rfl,rfl,rfl⟩

end Zveltio.WorkerScopes
