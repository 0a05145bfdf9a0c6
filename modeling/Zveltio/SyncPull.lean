import Zveltio.Keyset
import Zveltio.Runs
import Mathlib.Data.Prod.Lex
namespace Zveltio.SyncPull

open Keyset Runs

-- PULL_LIMIT_PER_COLLECTION and SYNC_TOMBSTONE_RETENTION_DAYS, the latter in the
-- microseconds of the keyset.
def pullLimit : Nat := 1000

def retentionUs : Nat := 30 * 24 * 60 * 60 * 1000000

abbrev Position (ι : Type u) := ℕ ×ₗ ι

-- us is the start of the writing transaction. seq numbers the commits; no query
-- sees it, it only says which of two versions came later.
structure RowVersion (ι : Type u) (δ : Type v) where
  id : ι
  us : Nat
  seq : Nat
  data : δ
  deriving DecidableEq

structure Tombstone (ι : Type u) where
  id : ι
  us : Nat
  seq : Nat
  deriving DecidableEq

inductive Write (ι : Type u) (δ : Type v) where
  | put (id : ι) (data : δ)
  | delete (id : ι)

structure Txn (ι : Type u) (δ : Type v) where
  start : Nat
  writes : List (Write ι δ)

-- del: where the client's deletes are complete from; us and id: the last row read.
structure Cursor (ι : Type u) where
  del : Nat
  us : Nat
  id : ι
  deriving DecidableEq

structure Item (ι : Type u) (δ : Type v) where
  us : Nat
  id : ι
  row : Option (RowVersion ι δ)

-- What a pull fixed when it started: its transaction's now(), and the cursor it
-- reads from after the resync decision.
structure Context (ι : Type u) where
  began : Nat
  cursor : Option (Cursor ι)
  resync : Bool

inductive Pull (ι : Type u) (δ : Type v) where
  | idle
  | started (context : Context ι)
  | watermarked (context : Context ι) (watermark : Nat)
  | rowsRead (context : Context ι) (watermark : Nat) (rows : List (Item ι δ))
  | stonesRead (context : Context ι) (watermark : Nat) (rows stones : List (Item ι δ))

-- delivered and caughtUp only record: every row version sent so far, and the
-- watermark of the last pull if it was answered with hasMore = false.
structure Client (ι : Type u) (δ : Type v) where
  cursor : Option (Cursor ι)
  held : ι → Option (RowVersion ι δ)
  delivered : List (RowVersion ι δ)
  caughtUp : Option Nat

-- One collection. deletions keeps every committed delete, purged or not.
structure State (ι : Type u) (δ : Type v) where
  now : Nat
  commits : Nat
  active : List (Txn ι δ)
  rows : List (RowVersion ι δ)
  stones : List (Tombstone ι)
  deletions : List (Tombstone ι)
  pull : Pull ι δ
  client : Client ι δ

def State.initial : State ι δ := ⟨0,0,[],[],[],[],.idle,⟨none,fun _ => none,[],none⟩⟩

section
variable {ι : Type u} {δ : Type v} [LinearOrder ι]

def RowVersion.position (row : RowVersion ι δ) : Position ι := toLex (row.us,row.id)

def Tombstone.position (stone : Tombstone ι) : Position ι := toLex (stone.us,stone.id)

def Cursor.position (cursor : Cursor ι) : Position ι := toLex (cursor.us,cursor.id)

def Item.position (item : Item ι δ) : Position ι := toLex (item.us,item.id)

def rowItem (row : RowVersion ι δ) : Item ι δ := ⟨row.us,row.id,some row⟩

def stoneItem (stone : Tombstone ι) : Item ι δ := ⟨stone.us,stone.id,none⟩

-- Rows and new tombstones of one transaction. The delete trigger writes one for
-- each row the statement removed.
def applyWrite (start seq : Nat) (tables : List (RowVersion ι δ) × List (Tombstone ι)) :
    Write ι δ → List (RowVersion ι δ) × List (Tombstone ι)
  | .put id data => (tables.1.filter (fun row => row.id ≠ id) ++ [⟨id,start,seq,data⟩],tables.2)
  | .delete id =>
    if tables.1.any fun row => row.id = id then
      (tables.1.filter fun row => row.id ≠ id,tables.2 ++ [⟨id,start,seq⟩])
    else tables

def commit (state : State ι δ) (txn : Txn ι δ) : State ι δ :=
  let seq := state.commits + 1
  let written := txn.writes.foldl (applyWrite txn.start seq) (state.rows,[])
  {state with
    commits := seq
    rows := written.1
    stones := state.stones ++ written.2
    deletions := state.deletions ++ written.2}

-- The collector's DELETE: NOW() is its own transaction's start, and its snapshot
-- holds the commits up to the given number.
def purge (state : State ι δ) (began seen : Nat) : State ι δ :=
  {state with stones := state.stones.filter fun stone => ¬(stone.us + retentionUs < began ∧ stone.seq ≤ seen)}

-- A cursor that does not open restarts its collection like one too old.
def decideResync (client : Client ι δ) (now : Nat) (opens : Bool) : Context ι :=
  match client.cursor with
  | none => ⟨now,none,false⟩
  | some cursor =>
    if !opens then ⟨now,none,true⟩
    else if cursor.del < now - retentionUs then ⟨now,none,true⟩
    else ⟨now,some cursor,false⟩

-- least(statement_timestamp(), oldest open transaction), or 0 when a session the
-- role may not inspect is inside a transaction.
def syncWatermarkUs (state : State ι δ) (blind : Bool) : Nat :=
  if blind then 0 else (state.active.map Txn.start).foldl min state.now

def after (cursor : Option (Cursor ι)) (position : Position ι) : Bool :=
  match cursor with
  | none => true
  | some cursor => cursor.position < position

def matchingRows (state : State ι δ) (context : Context ι) (watermark : Nat) : List (Item ι δ) :=
  (state.rows.filter fun row => after context.cursor row.position && row.us < watermark).map rowItem

-- No cursor, nothing to delete: the query is not made.
def matchingStones (state : State ι δ) (context : Context ι) (watermark : Nat) : List (Item ι δ) :=
  if context.cursor.isNone then [] else
    (state.stones.filter fun stone => after context.cursor stone.position && stone.us < watermark).map stoneItem

structure Response (ι : Type u) (δ : Type v) where
  changes : List (Item ι δ)
  hasMore : Bool
  cursor : Option (Cursor ι)
  resync : Bool

-- A full page, or a watermark that could not be told, still owes what it owed.
def owed (context : Context ι) (watermark : Nat) (full : Bool) : Nat :=
  if full || watermark = 0 then context.cursor.elim watermark Cursor.del else watermark

def respond (context : Context ι) (watermark : Nat) (rows stones : List (Item ι δ)) : Response ι δ :=
  let merged := merge Item.position rows stones
  let full : Bool := pullLimit < merged.length
  let changes := page pullLimit merged
  let del := owed context watermark full
  let cursor := match changes.getLast? with
    | some last => some ⟨del,last.us,last.id⟩
    | none => context.cursor.map fun cursor => ⟨del,cursor.us,cursor.id⟩
  ⟨changes,full,cursor,context.resync⟩

def applyChange (held : ι → Option (RowVersion ι δ)) (item : Item ι δ) : ι → Option (RowVersion ι δ) :=
  Function.update held item.id item.row

def nothing : ι → Option (RowVersion ι δ) := fun _ => none

-- pullChanges for one response; a response without a cursor leaves the old one.
def receive (client : Client ι δ) (watermark : Nat) (response : Response ι δ) : Client ι δ :=
  { cursor := response.cursor.or client.cursor
    held := response.changes.foldl applyChange (if response.resync then nothing else client.held)
    delivered := client.delivered ++ response.changes.filterMap Item.row
    caughtUp := if response.hasMore then none else some watermark }

inductive Action (ι : Type u) (δ : Type v) where
  | tick (us : Nat)
  | begin
  | write (index : Nat) (change : Write ι δ)
  | commit (index : Nat)
  | abort (index : Nat)
  | purge (began seen : Nat)
  | startPull (opens : Bool)
  | readWatermark (blind : Bool)
  | readRows
  | readStones
  | receive
  | lose

-- A first pull drops the synced copy; a pull that fails changes nothing at the client.
def stepPull (state : State ι δ) : Action ι δ → Option (State ι δ)
  | .startPull opens => match state.pull with
    | .idle => some {state with
        pull := .started (decideResync state.client state.now opens)
        client := if state.client.cursor.isNone then {state.client with held := nothing} else state.client}
    | _ => none
  | .readWatermark blind => match state.pull with
    | .started context => some {state with pull := .watermarked context (syncWatermarkUs state blind)}
    | _ => none
  | .readRows => match state.pull with
    | .watermarked context watermark => some {state with
        pull := .rowsRead context watermark (fetch Item.position (pullLimit + 1) (matchingRows state context watermark))}
    | _ => none
  | .readStones => match state.pull with
    | .rowsRead context watermark rows => some {state with
        pull := .stonesRead context watermark rows
          (fetch Item.position (pullLimit + 1) (matchingStones state context watermark))}
    | _ => none
  | .receive => match state.pull with
    | .stonesRead context watermark rows stones => some {state with
        pull := .idle
        client := receive state.client watermark (respond context watermark rows stones)}
    | _ => none
  | .lose => some {state with pull := .idle}
  | _ => none

def step (state : State ι δ) : Action ι δ → Option (State ι δ)
  | .tick us => some {state with now := state.now + us}
  | .begin => some {state with active := state.active ++ [⟨state.now,[]⟩]}
  | .write index change => (state.active[index]?).map fun txn =>
    {state with active := state.active.set index {txn with writes := txn.writes ++ [change]}}
  | .commit index => (state.active[index]?).map fun txn =>
    {commit state txn with active := state.active.eraseIdx index}
  | .abort index => (state.active[index]?).map fun _ => {state with active := state.active.eraseIdx index}
  | .purge began seen => if began ≤ state.now then some (purge state began seen) else none
  | action => stepPull state action

def Pull.resumed : Pull ι δ → Option (Cursor ι)
  | .started context | .watermarked context _ | .rowsRead context _ _ => context.cursor
  | _ => none

-- A collector that runs before a resumed pull has read the tombstones leaves those
-- from the cursor's del on; and where that read is cut, no row of the pull stands
-- for two of them.
def Permitted (state : State ι δ) : Action ι δ → Prop
  | .purge began seen => ∀ cursor, state.pull.resumed = some cursor →
      ∀ stone ∈ state.stones, stone.us + retentionUs < began ∧ stone.seq ≤ seen → stone.us < cursor.del
  | .readStones => ∀ context watermark rows, state.pull = .rowsRead context watermark rows →
      let stones := fetch Item.position (pullLimit + 1) (matchingStones state context watermark)
      stones.length = pullLimit + 1 →
        ((stones.filter fun stone => stone.position ∈ rows.map Item.position).map Item.position).Nodup
  | _ => True

end

end Zveltio.SyncPull
