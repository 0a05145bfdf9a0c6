import Zveltio.Runs
import Zveltio.RowTable
namespace Zveltio.GhostRun
open Runs RowTable

inductive Change (ι : Type u) (α : Type v) where
  | insert (row : Row ι α)
  | update (id : ι) (row : Row ι α)
  | delete (id : ι)
  deriving DecidableEq

inductive Operation where
  | insert | update | delete
  deriving DecidableEq

-- One row of the changelog; row_data is the whole row, null for a delete.
structure Entry (ι : Type u) (α : Type v) where
  id : Nat
  operation : Operation
  row_id : ι
  row_data : Option (Row ι α)
  deriving DecidableEq

-- What the capture trigger inserts: the new row's id, the old one's for a delete only.
def captured (id : Nat) : Change ι α → Entry ι α
  | .insert row => ⟨id,.insert,row.id,some row⟩
  | .update _ row => ⟨id,.update,row.id,some row⟩
  | .delete gone => ⟨id,.delete,gone,none⟩

-- An uncommitted row change, with the entry its trigger wrote in the same transaction.
structure Write (τ : Type w) (ι : Type u) (α : Type v) where
  writer : τ
  change : Change ι α
  entry : Option (Entry ι α)
  deriving DecidableEq

-- applyChangelog runs three times: in run, first in atomicSwap, and under its lock.
inductive Pass where
  | first | second | third
  deriving DecidableEq

inductive Phase (ι : Type u) (α : Type v) where
  | absent
  | counting
  | copying (lastId : Option ι)
  | reading (pass : Pass)
  | replaying (pass : Pass) (changes todo : List (Entry ι α))
  | waiting
  | checking
  | swapped
  | violated
  | stopped
  deriving DecidableEq

-- held is what the original held at the lock, copied every row the batches have read.
structure State (τ : Type w) (ι : Type u) (α : Type v) where
  original : List (Row ι α)
  writes : List (Write τ ι α)
  sequence : Nat
  changelog : List (Entry ι α)
  ghost : List (Row ι α)
  copied : List (Row ι α)
  held : List (Row ι α)
  phase : Phase ι α

inductive Action (τ : Type w) (ι : Type u) (α : Type v) where
  | write (writer : τ) (change : Change ι α)
  | commit (writer : τ)
  | rollback (writer : τ) (mark : Nat)
  | createGhost
  | count (reads : Row ι α → Bool)
  | copyBatch (reads : Row ι α → Bool)
  | readChanges
  | replay
  | clear
  | lock
  | swap
  | stop

section
variable {τ : Type w} {ι : Type u} {α : Type v} {κ : Type x} [DecidableEq τ] [LinearOrder ι] [DecidableEq κ] {id : ι} {table : List (Row ι α)}
  {value : Option α}

def Change.apply (table : List (Row ι α)) : Change ι α → List (Row ι α)
  | .insert row => put table row
  | .update id row => put (erase table id) row
  | .delete id => erase table id

def Change.touched : Change ι α → List ι
  | .insert row => [row.id]
  | .update id row => [id,row.id]
  | .delete id => [id]

def Change.row : Change ι α → Option (Row ι α)
  | .insert row => some row
  | .update _ row => some row
  | .delete _ => none

-- A unique key is a value of the row, none where a NULL keeps the row out of the index.
def shares (keys : List (α → Option κ)) (one two : α) : Bool := keys.any fun key => (key one).isSome && key one = key two

def clashes (keys : List (α → Option κ)) (table : List (Row ι α)) (row : Row ι α) : Bool :=
  table.any fun other => other.id ≠ row.id && shares keys row.columns other.columns

def accepted (keys : List (α → Option κ)) (table : List (Row ι α)) : Change ι α → Bool
  | .insert row => (find table row.id).isNone && !clashes keys table row
  | .update id row => (find table id).isSome && (row.id = id || (find table row.id).isNone) && !clashes keys (erase table id) row
  | .delete id => (find table id).isSome

local instance lawfulId {ι : Type u} [LinearOrder ι] : LawfulBEq ι := inferInstance

-- Row locks and the waits of a unique check: what another writer has not committed is out of reach.
def waits (keys : List (α → Option κ)) (change other : Change ι α) : Bool :=
  change.touched.any (fun id => id ∈ other.touched) ||
    match change.row,other.row with
    | some one,some two => shares keys one.columns two.columns
    | _,_ => false

def State.own (state : State τ ι α) (writer : τ) : List (Write τ ι α) := state.writes.filter fun write => write.writer = writer

def applied (table : List (Row ι α)) (writes : List (Write τ ι α)) : List (Row ι α) :=
  writes.foldl (fun table write => write.change.apply table) table

def State.view (state : State τ ι α) (writer : τ) : List (Row ι α) := applied state.original (state.own writer)

def Phase.locked : Phase ι α → Bool
  | .reading .third => true
  | .replaying .third _ _ => true
  | .checking => true
  | _ => false

def Phase.traced : Phase ι α → Bool
  | .absent => false
  | _ => true

def Phase.ended : Phase ι α → Bool
  | .swapped | .violated | .stopped => true
  | _ => false

-- SELECT … FROM the original WHERE id > lastId ORDER BY id LIMIT size, as far as the connection reads it.
def batch (size : Nat) (reads : Row ι α → Bool) (lastId : Option ι) (original : List (Row ι α)) : List (Row ι α) :=
  page Row.id size (original.filter fun row => reads row && lastId.all fun last => last < row.id)

-- Only what the replay does with one entry: DELETE, skip without data, or INSERT … ON CONFLICT (id) DO UPDATE.
def Entry.replay (entry : Entry ι α) (ghost : List (Row ι α)) : List (Row ι α) :=
  match entry.operation,entry.row_data with
  | .delete,_ => erase ghost entry.row_id
  | _,none => ghost
  | _,some row => put ghost row

def Entry.violates (keys : List (α → Option κ)) (entry : Entry ι α) (ghost : List (Row ι α)) : Bool :=
  match entry.operation,entry.row_data with
  | .delete,_ => false
  | _,none => false
  | _,some row => clashes keys ghost row

def Pass.next : Pass → Phase ι α
  | .first => .reading .second
  | .second => .waiting
  | .third => .checking

-- One statement of the run or of a writer, against what is committed when it starts.
def step (keys : List (α → Option κ)) (size : Nat) (state : State τ ι α) : Action τ ι α → Option (State τ ι α)
  | .write writer change =>
    if !state.phase.ended && !state.phase.locked && accepted keys (state.view writer) change &&
        state.writes.all (fun write => write.writer = writer || !waits keys change write.change) then
      if state.phase.traced then some { state with
        writes := state.writes ++ [⟨writer,change,some (captured state.sequence change)⟩]
        sequence := state.sequence + 1 }
      else some { state with writes := state.writes ++ [⟨writer,change,none⟩] }
    else none
  | .commit writer =>
    if state.phase.ended then none
    else some { state with
      original := state.view writer
      changelog := state.changelog ++ (state.own writer).filterMap Write.entry
      writes := state.writes.filter fun write => write.writer ≠ writer }
  | .rollback writer mark =>
    if state.phase.ended then none
    else some { state with
      writes := state.writes.take mark ++ (state.writes.drop mark).filter fun write => write.writer ≠ writer }
  | .createGhost =>
    match state.phase,state.writes with
    | .absent,[] => some { state with changelog := [], ghost := [], copied := [], phase := .counting }
    | _,_ => none
  | .count reads =>
    match state.phase with
    | .counting => some { state with phase := if (state.original.filter reads).length = 0 then .reading .first else .copying none }
    | _ => none
  | .copyBatch reads =>
    match state.phase with
    | .copying lastId =>
      let rows := batch size reads lastId state.original
      let returned := rows.filter fun row => (find state.ghost row.id).isNone
      let ghost := state.ghost ++ returned
      if returned.any (clashes keys ghost) then some { state with phase := .violated }
      else some { state with
        ghost := ghost
        copied := state.copied ++ rows
        phase := if returned.length < size then .reading .first else .copying (lastOf Row.id ghost) }
    | _ => none
  | .readChanges =>
    match state.phase with
    | .reading pass =>
      let changes := inOrder Entry.id state.changelog
      some { state with phase := .replaying pass changes changes }
    | _ => none
  | .replay =>
    match state.phase with
    | .replaying pass changes (entry::todo) =>
      if entry.violates keys state.ghost then some { state with phase := .violated }
      else some { state with ghost := entry.replay state.ghost, phase := .replaying pass changes todo }
    | _ => none
  | .clear =>
    match state.phase with
    | .replaying pass changes [] =>
      some { state with changelog := state.changelog.filter (fun entry => entry.id ∉ changes.map Entry.id), phase := pass.next }
    | _ => none
  | .lock =>
    match state.phase,state.writes with
    | .waiting,[] => some { state with held := state.original, phase := .reading .third }
    | _,_ => none
  | .swap =>
    match state.phase with
    | .checking => some { state with phase := if state.original.length = state.ghost.length then .swapped else .stopped }
    | _ => none
  | .stop => if state.phase.ended then none else some { state with phase := .stopped }

def begun (original : List (Row ι α)) : State τ ι α := ⟨original,[],1,[],[],[],[],.absent⟩

-- The change gives the row of this id another one; the trigger writes no entry for the id it leaves.
def Change.leaves (id : ι) : Change ι α → Prop
  | .update old row => old = id ∧ row.id ≠ id
  | _ => False

def State.logged (state : State τ ι α) : List (Entry ι α) := state.writes.filterMap Write.entry

-- What the replay still owes the ghost, in the order it will be seen.
def State.rest (state : State τ ι α) : List (Entry ι α) :=
  match state.phase with
  | .replaying _ changes todo => todo ++ state.changelog.filter fun entry => entry.id ∉ changes.map Entry.id
  | _ => state.changelog

def settle (id : ι) (value : Option α) (entry : Entry ι α) : Option α :=
  if entry.row_id = id then entry.row_data.map Row.columns else value

theorem settle_own {entry : Entry ι α} (own : entry.row_id = id) : settle id value entry = entry.row_data.map Row.columns := if_pos own

theorem settle_other {entry : Entry ι α} (other : entry.row_id ≠ id) : settle id value entry = value := if_neg other

def latest (id : ι) (value : Option α) (entries : List (Entry ι α)) : Option α := entries.foldl (settle id) value

theorem latest_append (id : ι) (value : Option α) (first second : List (Entry ι α)) :
    latest id value (first ++ second) = latest id (latest id value first) second := List.foldl_append

theorem latest_absent {entries : List (Entry ι α)} (absent : ∀ entry ∈ entries, entry.row_id ≠ id) : latest id value entries = value := by
  induction entries generalizing value with
  | nil => rfl
  | cons entry later ih =>
    have apart := absent entry (List.mem_cons_self ..)
    show latest id (settle id value entry) later = value
    rw [ih fun other member => absent other (List.mem_cons_of_mem _ member)]
    exact settle_other apart

theorem latest_filter (id : ι) (value : Option α) (entries : List (Entry ι α)) :
    latest id value entries = latest id value (entries.filter fun entry => entry.row_id = id) := by
  induction entries generalizing value with
  | nil => rfl
  | cons entry later ih =>
    by_cases same : entry.row_id = id
    · rw [List.filter_cons_of_pos (by simpa using same)]
      exact ih _
    · rw [List.filter_cons_of_neg (by simpa using same),← ih]
      show latest id (settle id value entry) later = _
      rw [settle_other same]

theorem latest_inOrder {entries : List (Entry ι α)} (ordered : entries.Pairwise fun one two => one.row_id = two.row_id → one.id < two.id)
    (distinct : (entries.map Entry.id).Nodup) (id : ι) (value : Option α) :
    latest id value (inOrder Entry.id entries) = latest id value entries := by
  rw [latest_filter,latest_filter id value entries]
  have sorted : ((inOrder Entry.id entries).filter fun entry => entry.row_id = id).Pairwise fun one two => one.id < two.id :=
    (inOrder_strict Entry.id distinct).filter _
  have own : (entries.filter fun entry => entry.row_id = id).Pairwise fun one two => one.id < two.id := by
    refine List.Pairwise.imp_of_mem (fun {one two} first second before => ?_) (ordered.filter fun entry => entry.row_id = id)
    have named : one.row_id = id := of_decide_eq_true (List.mem_filter.mp first).2
    have also : two.row_id = id := of_decide_eq_true (List.mem_filter.mp second).2
    exact before (named.trans also.symm)
  have same := List.Perm.eq_of_pairwise (fun one two _ _ before after => absurd before (Nat.lt_asymm after)) sorted own
    ((inOrder_perm Entry.id).filter _)
  rw [same]

def Captured (entry : Entry ι α) : Prop := ∃ change, entry = captured entry.id change

theorem find_replay {entry : Entry ι α} (shaped : Captured entry) (ghost : List (Row ι α)) (id : ι) :
    find (entry.replay ghost) id = settle id (find ghost id) entry := by
  obtain ⟨change,equal⟩ := shaped
  rw [equal]
  cases change with
  | insert row => exact find_put
  | update old row => exact find_put
  | delete gone => exact find_erase

omit [DecidableEq κ] in
theorem keyed_replay {entry : Entry ι α} {ghost : List (Row ι α)} (keyed : Keyed ghost) : Keyed (entry.replay ghost) := by
  unfold Entry.replay
  split
  · exact keyed_erase keyed
  · exact keyed
  · exact keyed_put keyed

-- A row of the original beside the replayed one: only a row whose id was moved away may be missing.
def Near (moved : Prop) (held value : Option α) : Prop := held = value ∨ (moved ∧ held = none)

theorem near_change {change : Change ι α} (stays : change.leaves id → moved) (near : Near moved (find table id) value) (number : Nat) :
    Near moved (find (change.apply table) id) (settle id value (captured number change)) := by
  cases change with
  | insert row =>
    rw [Change.apply,find_put]
    by_cases own : row.id = id
    · rw [if_pos own,settle_own own]
      exact .inl rfl
    · rwa [if_neg own,settle_other own]
  | delete gone =>
    rw [Change.apply,find_erase]
    by_cases own : gone = id
    · rw [if_pos own,settle_own own]
      exact .inl rfl
    · rwa [if_neg own,settle_other own]
  | update old row =>
    rw [Change.apply,find_put,find_erase]
    by_cases own : row.id = id
    · rw [if_pos own,settle_own own]
      exact .inl rfl
    · rw [if_neg own,settle_other own]
      by_cases gone : old = id
      · rw [if_pos gone]
        exact .inr ⟨stays ⟨gone,own⟩,rfl⟩
      · rwa [if_neg gone]

def Logged (write : Write τ ι α) : Prop := ∃ number, write.entry = some (captured number write.change)

omit [DecidableEq τ] in
theorem near_applied {writes : List (Write τ ι α)} (logs : ∀ write ∈ writes, Logged write) (stays : ∀ write ∈ writes, write.change.leaves id → moved)
    (near : Near moved (find table id) value) :
    Near moved (find (applied table writes) id) (latest id value (writes.filterMap Write.entry)) := by
  induction writes generalizing table value with
  | nil => exact near
  | cons write later ih =>
    obtain ⟨number,entry⟩ := logs write (List.mem_cons_self ..)
    rw [List.filterMap_cons_some entry]
    exact ih (fun other member => logs other (List.mem_cons_of_mem _ member))
      (fun other member => stays other (List.mem_cons_of_mem _ member)) (near_change (stays write (List.mem_cons_self ..)) near number)

omit [DecidableEq τ] in
theorem near_written {writes : List (Write τ ι α)} (logs : ∀ write ∈ writes, Logged write) (stays : ∀ write ∈ writes, write.change.leaves id → moved)
    (written : ∃ entry ∈ writes.filterMap Write.entry, entry.row_id = id) :
    Near moved (find (applied table writes) id) (latest id value (writes.filterMap Write.entry)) := by
  induction writes generalizing table value with
  | nil =>
    obtain ⟨entry,member,_⟩ := written
    cases member
  | cons write later ih =>
    obtain ⟨number,entry⟩ := logs write (List.mem_cons_self ..)
    have logs_later : ∀ other ∈ later, Logged other := fun other member => logs other (List.mem_cons_of_mem _ member)
    have stays_later : ∀ other ∈ later, other.change.leaves id → moved := fun other member => stays other (List.mem_cons_of_mem _ member)
    rw [List.filterMap_cons_some entry] at written ⊢
    by_cases own : (captured number write.change).row_id = id
    · have near := near_change (stays write (List.mem_cons_self ..)) (.inl rfl : Near moved (find table id) (find table id)) number
      have same : settle id value (captured number write.change) = settle id (find table id) (captured number write.change) := by
        rw [settle_own own,settle_own own]
      show Near moved _ (latest id (settle id value (captured number write.change)) _)
      rw [same]
      exact near_applied logs_later stays_later near
    · obtain ⟨other,member,named⟩ := written
      rcases List.mem_cons.mp member with rfl | behind
      · exact absurd named own
      · exact ih logs_later stays_later ⟨other,behind,named⟩

theorem keyed_change {change : Change ι α} (keyed : Keyed table) : Keyed (change.apply table) := by
  cases change with
  | insert row => exact keyed_put keyed
  | update old row => exact keyed_put (keyed_erase keyed)
  | delete gone => exact keyed_erase keyed

omit [DecidableEq τ] in
theorem keyed_applied {writes : List (Write τ ι α)} (keyed : Keyed table) : Keyed (applied table writes) := by
  induction writes generalizing table with
  | nil => exact keyed
  | cons write later ih => exact ih (keyed_change keyed)

end

end Zveltio.GhostRun
