import Zveltio.LocalStore
namespace Zveltio.SyncManager

open Fields Crdt LocalStore Runs

section
variable {ν : Type u} {ι : Type v}

-- collection(name).update: the local fields with the given ones over them.
def update (store : Store ν ι) (key : Key) (data : Record FieldName ν) (now : Nat) (opId : String) : Store ν ι :=
  store.put key (spread ((store.get key).elim ∅ LocalRecord.data) data) now opId

abbrev Row (ν : Type u) := Option (Record FieldName ν)

-- The body of one send. crdt is what the source attaches as __crdt, which is no
-- column: the server below does not store it.
structure Request (ν : Type u) (ι : Type v) where
  key : Key
  operation : Operation
  payload : Record FieldName ν
  crdt : Option (LWWDocument ν ι)

def request (store : Store ν ι) (op : SyncQueueItem ν) : Request ν ι :=
  ⟨op.key,op.operation,op.payload,(store.get op.key).bind LocalRecord.crdtDoc⟩

inductive Answer (ν : Type u) where
  | stored (row : Row ν)
  | missing
  | exists

-- The collection routes: POST needs a free id, PATCH merges into the row and
-- DELETE removes it; without the row the last two answer 404.
def answer (row : Row ν) (operation : Operation) (payload : Record FieldName ν) : Answer ν :=
  match operation,row with
  | .create,none => .stored (some payload)
  | .create,some _ => .exists
  | .update,some old => .stored (some (spread old payload))
  | .delete,some _ => .stored none
  | _,none => .missing

-- syncNow between two awaits: idle, about to take the next operation of its
-- snapshot, or holding the outcome of one send.
inductive Cycle (ν : Type u) where
  | idle
  | sending (rest : List (SyncQueueItem ν))
  | settling (op : SyncQueueItem ν) (accepted : Bool) (serverVersion : Nat) (rest : List (SyncQueueItem ν))

structure State (ν : Type u) (ι : Type v) where
  store : Store ν ι
  server : Key → Row ν
  cycle : Cycle ν

inductive Action (ν : Type u) where
  | put (key : Key) (data : Record FieldName ν) (now : Nat) (opId : String)
  | delete (key : Key) (now : Nat) (opId : String)
  | begin
  | skip
  | send (delivered : Bool) (now : Nat)
  | settle (error : String) (now : Nat)
  | finish
  | otherWriter (key : Key) (row : Row ν)

-- A send that fails on the way leaves the server as it was. A create of a row
-- that exists answers 409, which is not a transient failure and has no step here.
def send (state : State ν ι) (op : SyncQueueItem ν) (rest : List (SyncQueueItem ν)) (delivered : Bool) (now : Nat) :
    Option (State ν ι) :=
  let sent := request state.store op
  if delivered then
    match answer (state.server sent.key) sent.operation sent.payload with
    | .stored row => some {state with
        server := Function.update state.server sent.key row
        cycle := .settling op true now rest}
    | .missing => some {state with cycle := .settling op false now rest}
    | .exists => none
  else some {state with cycle := .settling op false now rest}

def step (maxRetries : Nat) (state : State ν ι) : Action ν → Option (State ν ι)
  | .put key data now opId => some {state with store := state.store.put key data now opId}
  | .delete key now opId => some {state with store := state.store.delete key now opId}
  | .begin => match state.cycle with
    | .idle => some {state with cycle := .sending state.store.getPendingOps}
    | _ => none
  | .skip => match state.cycle with
    | .sending (op::rest) => if maxRetries ≤ op.attempts then some {state with cycle := .sending rest} else none
    | _ => none
  | .send delivered now => match state.cycle with
    | .sending (op::rest) => if maxRetries ≤ op.attempts then none else send state op rest delivered now
    | _ => none
  | .settle error now => match state.cycle with
    | .settling op true serverVersion rest =>
      some {state with store := state.store.markSynced op.id op.key serverVersion,cycle := .sending rest}
    | .settling op false _ rest =>
      some {state with store := state.store.markFailed op.id error now,cycle := .sending rest}
    | _ => none
  | .finish => match state.cycle with
    | .sending [] => some {state with cycle := .idle}
    | _ => none
  | .otherWriter key row => some {state with server := Function.update state.server key row}

def localRow (store : Store ν ι) (key : Key) : Row ν := (store.get key).map LocalRecord.data

def ofKey (ops : List (SyncQueueItem ν)) (key : Key) : List (SyncQueueItem ν) := ops.filter fun op => op.key = key

-- What the running cycle still holds of its snapshot.
def Cycle.inFlight : Cycle ν → List (SyncQueueItem ν)
  | .idle => []
  | .sending rest => rest
  | .settling op _ _ rest => op::rest

def Cycle.stored : Cycle ν → String → Bool
  | .settling op true _ _,opId => opId = op.id
  | _,_ => false

def unsent (state : State ν ι) : List (SyncQueueItem ν) :=
  state.store.queue.filter fun op => !state.cycle.stored op.id

def replayOne (row : Row ν) (op : SyncQueueItem ν) : Option (Row ν) :=
  match answer row op.operation op.payload with
  | .stored next => some next
  | _ => none

def replay (row : Row ν) (ops : List (SyncQueueItem ν)) : Option (Row ν) := run replayOne row ops

def SameRow : Row ν → Row ν → Prop
  | none,none => True
  | some left,some right => ∀ field, left.lookup field = right.lookup field
  | _,_ => False

-- The guard for one record: its operations get increasing places in the index,
-- a put repeats the fields it replaces, and an operation that is not sent leaves
-- no later one of the record in the cycle.
def Permitted (key : Key) (state : State ν ι) : Action ν → Prop
  | .put other data now opId => other = key →
      (∀ op ∈ state.store.queue, op.key = key → createdBefore op (newItem opId key .update data now)) ∧
      ∀ record, state.store.get key = some record → ∀ field ∈ record.data, field ∈ data
  | .delete other now opId => other = key →
      ∀ op ∈ state.store.queue, op.key = key → createdBefore op (newItem opId key .delete ∅ now)
  | .skip => ∀ op rest, state.cycle = .sending (op::rest) → op.key = key → ∀ later ∈ rest, later.key ≠ key
  | .settle _ _ => ∀ op serverVersion rest, state.cycle = .settling op false serverVersion rest → op.key = key →
      ∀ later ∈ rest, later.key ≠ key
  | .otherWriter other _ => other ≠ key
  | _ => True

end

end Zveltio.SyncManager
