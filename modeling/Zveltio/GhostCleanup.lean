import Zveltio.Runs
import Zveltio.RowTable
namespace Zveltio.GhostCleanup
open Runs RowTable

abbrev Name := List Char

-- PostgreSQL keeps the first 63 bytes of an identifier.
def cut (name : Name) : Name := name.take 63

-- Names compare as lists of characters.
local instance lawfulName : LawfulBEq Name := inferInstance

def ghostPrefix : Name := ['_', 'z', 'v', '_', 'g', 'h', 'o', 's', 't', '_']

def changelogPrefix : Name := ['_', 'z', 'v', '_', 'c', 'h', 'a', 'n', 'g', 'e', 'l', 'o', 'g', '_']

def oldPrefix : Name := ['_', 'z', 'v', '_', 'o', 'l', 'd', '_']

def ghostTable (table : Name) : Name := cut (ghostPrefix ++ table)

def changelogTable (table : Name) : Name := cut (changelogPrefix ++ table)

def oldTable (table : Name) : Name := cut (oldPrefix ++ table)

-- How far the run on a table is: createGhost's statements, the copy up to the swap, then the failure cleanup's.
inductive Stage where
  | begun
  | ghosted (ghost : Nat)
  | cleared (ghost : Nat)
  | logged (ghost log : Nat)
  | copying (ghost log : Nat)
  | dropTrigger
  | dropGhost
  | dropLog
  deriving DecidableEq

structure Run (π : Type u) where
  process : π
  stage : Stage
  deriving DecidableEq

-- What a committed swap left behind, by oid: the old copy and the changelog.
structure Swap where
  table : Name
  old : Nat
  log : Nat
  deriving DecidableEq

structure Cleanup (π : Type u) where
  process : π
  owned : Swap
  deriving DecidableEq

-- One boot's sweep: the names it listed, and whether the first one's changelog is dropped already.
structure Sweep where
  todo : List Name
  halfway : Bool
  deriving DecidableEq

-- relations is pg_class by name; triggers lists the tables that carry a capture trigger, with its function.
structure State (π : Type u) where
  relations : List (Row Name Nat)
  triggers : List Name
  next : Nat
  runs : List (Row Name (Run π))
  cleanups : List (Cleanup π)
  sweeps : List (Row π Sweep)
  swaps : List Swap
  deriving DecidableEq

inductive Action (π : Type u) where
  | start (process : π) (table : Name)
  | advance (table : Name)
  | fail (table : Name)
  | clean (table : Name) (succeeds : Bool)
  | cleanup (index : Nat)
  | sweep (process : π)
  | sweepStep (process : π) (succeeds : Bool)
  | exit (process : π)

section
variable {π : Type u} [DecidableEq π]

def State.drop (state : State π) (name : Name) : State π :=
  { state with relations := erase state.relations name, triggers := state.triggers.filter fun table => table ≠ name }

def State.create (state : State π) (name : Name) : State π :=
  { state with relations := put state.relations ⟨name,state.next⟩, next := state.next + 1 }

def State.at (state : State π) (table : Name) (run : Run π) (stage : Stage) : State π :=
  { state with runs := put state.runs ⟨table,⟨run.process,stage⟩⟩ }

-- The swap's transaction: a previous old copy goes, the original becomes the old copy, the ghost the original.
def State.swap (state : State π) (table : Name) (run : Run π) (original ghost log : Nat) : State π :=
  { state with
    relations := put (put (erase state.relations (ghostTable table)) ⟨oldTable table,original⟩) ⟨table,ghost⟩
    triggers := state.triggers.filter fun name => name ≠ table
    runs := erase state.runs table
    cleanups := state.cleanups ++ [⟨run.process,table,original,log⟩]
    swaps := state.swaps ++ [⟨table,original,log⟩] }

-- The next statement of a run; one that PostgreSQL refuses sends the run to its failure cleanup.
def advance (state : State π) (table : Name) (run : Run π) : Option (State π) :=
  match run.stage with
  | .begun =>
    if (find state.relations table).isSome && (find state.relations (ghostTable table)).isNone then
      some ((state.create (ghostTable table)).at table run (.ghosted state.next))
    else some (state.at table run .dropTrigger)
  | .ghosted ghost => some ((state.drop (changelogTable table)).at table run (.cleared ghost))
  | .cleared ghost =>
    if (find state.relations (changelogTable table)).isNone then
      some ((state.create (changelogTable table)).at table run (.logged ghost state.next))
    else some (state.at table run .dropTrigger)
  | .logged ghost log =>
    if (find state.relations table).isSome && table ∉ state.triggers then
      some ({ state with triggers := state.triggers ++ [table] }.at table run (.copying ghost log))
    else some (state.at table run .dropTrigger)
  | .copying _ _ =>
    match find state.relations table,find state.relations (ghostTable table),find state.relations (changelogTable table) with
    | some original,some ghost,some log => some (state.swap table run original ghost log)
    | _,_,_ => some (state.at table run .dropTrigger)
  | _ => none

-- The failure cleanup: a failed DROP TRIGGER is caught by itself, a failed DROP TABLE ends the cleanup.
def clean (state : State π) (table : Name) (run : Run π) (succeeds : Bool) : Option (State π) :=
  match run.stage,succeeds with
  | .dropTrigger,true => some ({ state with triggers := state.triggers.filter fun name => name ≠ table }.at table run .dropGhost)
  | .dropTrigger,false => some (state.at table run .dropGhost)
  | .dropGhost,true => some ((state.drop (ghostTable table)).at table run .dropLog)
  | .dropLog,true => some { state.drop (changelogTable table) with runs := erase state.runs table }
  | .dropGhost,false | .dropLog,false => some { state with runs := erase state.runs table }
  | _,_ => none

def dropOwned (state : State π) (name : Name) (oid : Nat) : State π :=
  if find state.relations name = some oid then state.drop name else state

-- sweepGhostOrphans, one statement a step; the changelog's name comes from the old copy's.
def sweepStep (state : State π) (process : π) (sweep : Sweep) (succeeds : Bool) : Option (State π) :=
  match sweep.todo with
  | [] => none
  | name::rest =>
    let later (state : State π) (sweep : Sweep) : State π := { state with sweeps := put state.sweeps ⟨process,sweep⟩ }
    match sweep.halfway,succeeds with
    | _,false => some (later state ⟨rest,false⟩)
    | false,true => some (later (state.drop (changelogTable (name.drop oldPrefix.length))) ⟨name::rest,true⟩)
    | true,true => some (later (state.drop name) ⟨rest,false⟩)

def step (state : State π) : Action π → Option (State π)
  | .start process table =>
    if (find state.runs table).isNone then some { state with runs := put state.runs ⟨table,⟨process,.begun⟩⟩ } else none
  | .advance table => (find state.runs table).bind (advance state table)
  | .fail table => (find state.runs table).bind fun run =>
    match run.stage with
    | .dropTrigger | .dropGhost | .dropLog => none
    | _ => some (state.at table run .dropTrigger)
  | .clean table succeeds => (find state.runs table).bind fun run => clean state table run succeeds
  | .cleanup index => state.cleanups[index]?.map fun due =>
    let state := { state with cleanups := state.cleanups.eraseIdx index }
    dropOwned (dropOwned state (oldTable due.owned.table) due.owned.old) (changelogTable due.owned.table) due.owned.log
  | .sweep process =>
    some { state with sweeps := put state.sweeps ⟨process,⟨(state.relations.map Row.id).filter oldPrefix.isPrefixOf,false⟩⟩ }
  | .sweepStep process succeeds => (find state.sweeps process).bind fun sweep => sweepStep state process sweep succeeds
  | .exit process => some { state with
    runs := state.runs.filter fun run => run.columns.process ≠ process
    cleanups := state.cleanups.filter fun due => due.process ≠ process
    sweeps := state.sweeps.filter fun sweep => sweep.id ≠ process }

def begun (relations : List (Row Name Nat)) (next : Nat) : State π := ⟨relations,[],next,[],[],[],[]⟩

end

-- The tables runs are started for: no name like a derived one, and no two alike in the first 49 bytes.
structure Named (tables : List Name) : Prop where
  plain : ∀ table ∈ tables, table.head? ≠ some '_'
  apart : ∀ one ∈ tables, ∀ two ∈ tables, one.take 49 = two.take 49 → one = two

theorem ghost_name (table : Name) : ghostTable table = ghostPrefix ++ table.take 53 := by
  simp [ghostTable,cut,ghostPrefix]

theorem changelog_name (table : Name) : changelogTable table = changelogPrefix ++ table.take 49 := by
  simp [changelogTable,cut,changelogPrefix]

theorem old_name (table : Name) : oldTable table = oldPrefix ++ table.take 55 := by
  simp [oldTable,cut,oldPrefix]

theorem ghost_changelog (one two : Name) : ghostTable one ≠ changelogTable two := by
  rw [ghost_name,changelog_name]
  simp [ghostPrefix,changelogPrefix]

theorem ghost_old (one two : Name) : ghostTable one ≠ oldTable two := by
  rw [ghost_name,old_name]
  simp [ghostPrefix,oldPrefix]

theorem changelog_old (one two : Name) : changelogTable one ≠ oldTable two := by
  rw [changelog_name,old_name]
  simp [changelogPrefix,oldPrefix]

theorem derived_head (table : Name) :
    (ghostTable table).head? = some '_' ∧ (changelogTable table).head? = some '_' ∧ (oldTable table).head? = some '_' := by
  rw [ghost_name,changelog_name,old_name]
  exact ⟨rfl,rfl,rfl⟩

section
variable {tables : List Name} (named : Named tables) {one two : Name} (first : one ∈ tables) (second : two ∈ tables)
include named first second

theorem ghost_same (same : ghostTable one = ghostTable two) : one = two := by
  rw [ghost_name,ghost_name] at same
  have longer := congrArg (List.take 49) (List.append_cancel_left same)
  exact named.apart one first two second (by simpa [List.take_take] using longer)

theorem changelog_same (same : changelogTable one = changelogTable two) : one = two := by
  rw [changelog_name,changelog_name] at same
  exact named.apart one first two second (List.append_cancel_left same)

theorem old_same (same : oldTable one = oldTable two) : one = two := by
  rw [old_name,old_name] at same
  have longer := congrArg (List.take 49) (List.append_cancel_left same)
  exact named.apart one first two second (by simpa [List.take_take] using longer)

end

theorem table_derived {tables : List Name} (named : Named tables) (listed : table ∈ tables) (other : Name) :
    table ≠ ghostTable other ∧ table ≠ changelogTable other ∧ table ≠ oldTable other := by
  have plain := named.plain table listed
  obtain ⟨ghost,changelog,old⟩ := derived_head other
  exact ⟨fun same => plain (same ▸ ghost),fun same => plain (same ▸ changelog),fun same => plain (same ▸ old)⟩

theorem swept_changelog (table : Name) : changelogTable ((oldTable table).drop oldPrefix.length) = changelogTable table := by
  rw [old_name,List.drop_left,changelog_name,changelog_name,List.take_take]
  rfl

def Stage.ghost : Stage → Option Nat
  | .ghosted ghost | .cleared ghost | .logged ghost _ | .copying ghost _ => some ghost
  | _ => none

def Stage.log : Stage → Option Nat
  | .logged _ log | .copying _ log => some log
  | _ => none

def Stage.tracing : Stage → Bool
  | .copying _ _ => true
  | _ => false

-- Between these statements the capture trigger is not on the table.
def Stage.untraced : Stage → Bool
  | .ghosted _ | .cleared _ | .dropGhost | .dropLog => true
  | _ => false

section
variable {π : Type u} [DecidableEq π] {state : State π} {tables : List Name} {table name : Name} {run : Run π}

-- What a run in progress needs is in place, under the names it uses and with the oids it made.
structure Live (state : State π) (table : Name) (stage : Stage) : Prop where
  ghost : ∀ ghost, stage.ghost = some ghost → find state.relations (ghostTable table) = some ghost ∧ (find state.relations table).isSome = true
  log : ∀ log, stage.log = some log → find state.relations (changelogTable table) = some log ∧ ∀ swap ∈ state.swaps, swap.log ≠ log
  traced : stage.tracing = true → table ∈ state.triggers
  untraced : stage.untraced = true → table ∉ state.triggers

structure Sound (tables : List Name) (state : State π) : Prop where
  listed : ∀ table run, find state.runs table = some run → table ∈ tables
  carried : ∀ table ∈ state.triggers, table ∈ tables
  swapped : ∀ swap ∈ state.swaps, swap.table ∈ tables
  owned : ∀ due ∈ state.cleanups, due.owned ∈ state.swaps
  fresh : ∀ name oid, find state.relations name = some oid → oid < state.next
  past : ∀ swap ∈ state.swaps, swap.old < state.next ∧ swap.log < state.next
  distinct : ∀ one ∈ state.swaps, ∀ two ∈ state.swaps, one.old = two.old → one = two
  one : ∀ one two oid, find state.relations one = some oid → find state.relations two = some oid → one = two
  live : ∀ table run, find state.runs table = some run → Live state table run.stage
  traced : ∀ table ∈ state.triggers, (find state.relations (ghostTable table)).isSome = true ∧
    ∃ log, find state.relations (changelogTable table) = some log ∧ ∀ swap ∈ state.swaps, swap.log ≠ log
  left : ∀ swap ∈ state.swaps, (∀ name, find state.relations name = some swap.old → name = oldTable swap.table) ∧
    ∀ name, find state.relations name = some swap.log →
      name = changelogTable swap.table ∧ find state.relations (oldTable swap.table) = some swap.old
  olds : ∀ name oid, find state.relations name = some oid → oldPrefix.isPrefixOf name = true → ∃ table ∈ tables, name = oldTable table
  sweeping : ∀ process sweep, find state.sweeps process = some sweep → ∀ name ∈ sweep.todo, ∃ table ∈ tables, name = oldTable table
  keyed_runs : Keyed state.runs
  keyed_sweeps : Keyed state.sweeps

omit [DecidableEq π] in
theorem find_drop (other : Name) : find (state.drop name).relations other = if name = other then none else find state.relations other := find_erase

omit [DecidableEq π] in
theorem found_drop {other : Name} (found : find (state.drop name).relations other = some oid) : name ≠ other ∧ find state.relations other = some oid := by
  rw [find_drop] at found
  split at found
  · cases found
  · next apart => exact ⟨apart,found⟩

-- Nothing in progress or left behind needs the name.
structure Spare (state : State π) (name : Name) : Prop where
  ghosts : ∀ table run, find state.runs table = some run → run.stage.ghost.isSome = true → ghostTable table ≠ name ∧ table ≠ name
  logs : ∀ table run, find state.runs table = some run → run.stage.log.isSome = true → changelogTable table ≠ name
  traces : ∀ table ∈ state.triggers, ghostTable table ≠ name ∧ changelogTable table ≠ name ∧ table ≠ name
  left : ∀ swap ∈ state.swaps, oldTable swap.table = name → find state.relations (changelogTable swap.table) ≠ some swap.log

theorem drop_sound (sound : Sound tables state) (spare : Spare state name) : Sound tables (state.drop name) := by
  have keeps {other : Name} (apart : other ≠ name) : find (state.drop name).relations other = find state.relations other := by
    rw [find_drop,if_neg (Ne.symm apart)]
  have triggers : ∀ table, table ∈ (state.drop name).triggers ↔ table ∈ state.triggers := by
    intro table
    refine ⟨fun member => (List.mem_filter.mp member).1,fun member => List.mem_filter.mpr ⟨member,?_⟩⟩
    exact decide_eq_true (spare.traces table member).2.2
  refine ⟨sound.listed,fun table member => sound.carried table ((triggers table).mp member),sound.swapped,sound.owned,
    fun name oid found => sound.fresh name oid (found_drop found).2,sound.past,sound.distinct,
    fun one two oid first second => sound.one one two oid (found_drop first).2 (found_drop second).2,fun table run found => ?_,
    fun table member => ?_,fun swap member => ?_,fun name oid found => sound.olds name oid (found_drop found).2,sound.sweeping,
    sound.keyed_runs,sound.keyed_sweeps⟩
  · have live := sound.live table run found
    refine ⟨fun ghost held => ?_,fun log held => ?_,fun traced => (triggers table).mpr (live.traced traced),
      fun untraced wrong => live.untraced untraced ((triggers table).mp wrong)⟩
    · obtain ⟨first,second⟩ := spare.ghosts table run found (by rw [held]; rfl)
      rw [keeps first,keeps second]
      exact live.ghost ghost held
    · rw [keeps (spare.logs table run found (by rw [held]; rfl))]
      exact live.log log held
  · obtain ⟨first,second,_⟩ := spare.traces table ((triggers table).mp member)
    rw [keeps first,keeps second]
    exact sound.traced table ((triggers table).mp member)
  · obtain ⟨old,log⟩ := sound.left swap member
    refine ⟨fun other found => old other (found_drop found).2,fun other found => ?_⟩
    obtain ⟨apart,before⟩ := found_drop found
    obtain ⟨named,there⟩ := log other before
    refine ⟨named,?_⟩
    rw [keeps fun same => spare.left swap member same (named ▸ before)]
    exact there

theorem create_sound (sound : Sound tables state) (absent : find state.relations name = none) (derived : oldPrefix.isPrefixOf name = false) :
    Sound tables (state.create name) := by
  have keeps {other : Name} {oid : Nat} (found : find state.relations other = some oid) : find (state.create name).relations other = some oid := by
    refine (find_put ..).trans ?_
    rw [if_neg]
    · exact found
    · intro same
      rw [show name = other from same] at absent
      cases absent.symm.trans found
  have back {other : Name} {oid : Nat} (found : find (state.create name).relations other = some oid) :
      (other = name ∧ oid = state.next) ∨ find state.relations other = some oid := by
    rw [show find (state.create name).relations other = _ from find_put ..] at found
    split at found
    · next same => exact .inl ⟨same.symm,(Option.some.inj found).symm⟩
    · exact .inr found
  have kept {other : Name} (there : (find state.relations other).isSome = true) : (find (state.create name).relations other).isSome = true := by
    obtain ⟨oid,found⟩ := Option.isSome_iff_exists.mp there
    rw [keeps found]
    rfl
  refine ⟨sound.listed,sound.carried,sound.swapped,sound.owned,fun other oid found => ?_,fun swap member => ?_,sound.distinct,
    fun one two oid first second => ?_,fun table run found => ?_,fun table member => ?_,fun swap member => ?_,fun other oid found old => ?_,sound.sweeping,
    sound.keyed_runs,sound.keyed_sweeps⟩
  · rcases back found with ⟨_,rfl⟩ | before
    · exact Nat.lt_succ_self _
    · exact Nat.lt_succ_of_lt (sound.fresh other oid before)
  · exact ⟨Nat.lt_succ_of_lt (sound.past swap member).1,Nat.lt_succ_of_lt (sound.past swap member).2⟩
  · rcases back first with ⟨rfl,new⟩ | before <;> rcases back second with ⟨rfl,newer⟩ | earlier
    · rfl
    · have below := sound.fresh two oid earlier
      omega
    · have below := sound.fresh one oid before
      omega
    · exact sound.one one two oid before earlier
  · have live := sound.live table run found
    exact ⟨fun ghost held => ⟨keeps (live.ghost ghost held).1,kept (live.ghost ghost held).2⟩,
      fun log held => ⟨keeps (live.log log held).1,(live.log log held).2⟩,live.traced,live.untraced⟩
  · obtain ⟨ghost,log,held,later⟩ := sound.traced table member
    exact ⟨kept ghost,log,keeps held,later⟩
  · obtain ⟨old,log⟩ := sound.left swap member
    obtain ⟨old_past,log_past⟩ := sound.past swap member
    refine ⟨fun other found => ?_,fun other found => ?_⟩
    · rcases back found with ⟨_,new⟩ | before
      · omega
      · exact old other before
    · rcases back found with ⟨_,new⟩ | before
      · omega
      · exact ⟨(log other before).1,keeps (log other before).2⟩
  · rcases back found with ⟨rfl,_⟩ | before
    · cases derived.symm.trans old
    · exact sound.olds other oid before old

omit [DecidableEq π] in
theorem resting (ghost : stage.ghost = none) (log : stage.log = none) (tracing : stage.tracing = false)
    (untraced : stage.untraced = true → table ∉ state.triggers) : Live state table stage :=
  ⟨fun _ held => absurd (ghost.symm.trans held) (Option.some_ne_none _).symm,fun _ held => absurd (log.symm.trans held) (Option.some_ne_none _).symm,
    fun wrong => absurd (tracing.symm.trans wrong) Bool.false_ne_true,untraced⟩

theorem at_sound (sound : Sound tables state) (listed : table ∈ tables) (live : Live state table stage) : Sound tables (state.at table run stage) := by
  refine ⟨fun other later found => ?_,sound.carried,sound.swapped,sound.owned,sound.fresh,sound.past,sound.distinct,sound.one,fun other later found => ?_,
    sound.traced,sound.left,sound.olds,sound.sweeping,keyed_put sound.keyed_runs,sound.keyed_sweeps⟩
  all_goals
    rw [show find (state.at table run stage).runs other = _ from find_put ..] at found
    split at found
  · next same => exact same ▸ listed
  · exact sound.listed other later found
  · next same =>
    cases Option.some.inj found
    cases same
    exact ⟨live.ghost,live.log,live.traced,live.untraced⟩
  · have before := sound.live other later found
    exact ⟨before.ghost,before.log,before.traced,before.untraced⟩

theorem ended_sound (sound : Sound tables state) (gone : Name) : Sound tables { state with runs := erase state.runs gone } := by
  have back {other : Name} {run : Run π} (found : find (erase state.runs gone) other = some run) : find state.runs other = some run := by
    rw [find_erase] at found
    split at found
    · cases found
    · exact found
  refine ⟨fun other run found => sound.listed other run (back found),sound.carried,sound.swapped,sound.owned,sound.fresh,sound.past,sound.distinct,
    sound.one,fun other run found => ?_,sound.traced,sound.left,sound.olds,sound.sweeping,keyed_erase sound.keyed_runs,sound.keyed_sweeps⟩
  have live := sound.live other run (back found)
  exact ⟨live.ghost,live.log,live.traced,live.untraced⟩

theorem find_filter {table : List (Row ι α)} [DecidableEq ι] {id : ι} {kept : Row ι α → Bool} (keyed : Keyed table)
    (found : find (table.filter kept) id = some columns) : find table id = some columns :=
  (mem_find keyed).mp (List.mem_filter.mp (find_mem found)).1

-- A process that exits takes its runs, its timers and its sweep with it, and leaves the database as it is.
theorem exit_sound (sound : Sound tables state) (process : π) : Sound tables { state with
    runs := state.runs.filter fun run => run.columns.process ≠ process
    cleanups := state.cleanups.filter fun due => due.process ≠ process
    sweeps := state.sweeps.filter fun sweep => sweep.id ≠ process } := by
  refine ⟨fun other run found => sound.listed other run (find_filter sound.keyed_runs found),sound.carried,sound.swapped,
    fun due member => sound.owned due (List.mem_filter.mp member).1,sound.fresh,sound.past,sound.distinct,sound.one,fun other run found => ?_,
    sound.traced,sound.left,sound.olds,fun other sweep found => sound.sweeping other sweep (find_filter sound.keyed_sweeps found),
    keyed_sublist sound.keyed_runs List.filter_sublist,keyed_sublist sound.keyed_sweeps List.filter_sublist⟩
  have live := sound.live other run (find_filter sound.keyed_runs found)
  exact ⟨live.ghost,live.log,live.traced,live.untraced⟩

theorem start_sound (sound : Sound tables state) (listed : table ∈ tables) (process : π) :
    Sound tables { state with runs := put state.runs ⟨table,⟨process,.begun⟩⟩ } :=
  have live : Live state table .begun := resting rfl rfl rfl fun wrong => absurd wrong Bool.false_ne_true
  show Sound tables (state.at table ⟨process,.begun⟩ .begun) from at_sound sound listed live

theorem untrace_sound (sound : Sound tables state) (gone : Name) (idle : ∀ run, find state.runs gone = some run → run.stage.tracing = false) :
    Sound tables { state with triggers := state.triggers.filter fun name => name ≠ gone } := by
  have fewer {name : Name} (member : name ∈ state.triggers.filter fun name => name ≠ gone) : name ∈ state.triggers := (List.mem_filter.mp member).1
  refine ⟨sound.listed,fun name member => sound.carried name (fewer member),sound.swapped,sound.owned,sound.fresh,sound.past,sound.distinct,sound.one,
    fun other run found => ?_,fun name member => sound.traced name (fewer member),sound.left,sound.olds,sound.sweeping,sound.keyed_runs,sound.keyed_sweeps⟩
  have live := sound.live other run found
  refine ⟨live.ghost,live.log,fun tracing => ?_,fun untraced wrong => live.untraced untraced (fewer wrong)⟩
  refine List.mem_filter.mpr ⟨live.traced tracing,decide_eq_true ?_⟩
  rintro rfl
  cases tracing.symm.trans (idle run found)

theorem trace_sound (sound : Sound tables state) (listed : table ∈ tables) (found : find state.runs table = some run)
    (stage : run.stage = .logged ghost log) : Sound tables ({ state with triggers := state.triggers ++ [table] }.at table run (.copying ghost log)) := by
  have live := sound.live table run found
  obtain ⟨held,original⟩ := live.ghost ghost (by rw [stage]; rfl)
  obtain ⟨log_held,later⟩ := live.log log (by rw [stage]; rfl)
  refine ⟨fun other after there => ?_,fun name member => ?_,sound.swapped,sound.owned,sound.fresh,sound.past,sound.distinct,sound.one,fun other after there => ?_,
    fun name member => ?_,sound.left,sound.olds,sound.sweeping,keyed_put sound.keyed_runs,sound.keyed_sweeps⟩
  · rw [show find (State.at _ table run (.copying ghost log)).runs other = _ from find_put ..] at there
    split at there
    · next same => exact same ▸ listed
    · exact sound.listed other after there
  · rcases List.mem_append.mp member with old | new
    · exact sound.carried name old
    · rw [List.mem_singleton.mp new]
      exact listed
  · rw [show find (State.at _ table run (.copying ghost log)).runs other = _ from find_put ..] at there
    split at there
    · next same =>
      cases Option.some.inj there
      cases same
      refine ⟨fun _ equal => ?_,fun _ equal => ?_,fun _ => List.mem_append_right _ (List.mem_singleton_self _),fun wrong => absurd wrong Bool.false_ne_true⟩
      · cases equal
        exact ⟨held,original⟩
      · cases equal
        exact ⟨log_held,later⟩
    · next apart =>
      have before := sound.live other after there
      refine ⟨before.ghost,before.log,fun tracing => List.mem_append_left _ (before.traced tracing),fun untraced wrong => ?_⟩
      rcases List.mem_append.mp wrong with old | new
      · exact before.untraced untraced old
      · exact apart (List.mem_singleton.mp new).symm
  · rcases List.mem_append.mp member with old | new
    · exact sound.traced name old
    · rw [List.mem_singleton.mp new]
      exact ⟨congrArg Option.isSome held,log,log_held,later⟩

omit [DecidableEq π] in
theorem swap_find (name : Name) : find (state.swap table run original ghost log).relations name =
    if table = name then some ghost else if oldTable table = name then some original else if ghostTable table = name then none
      else find state.relations name := by
  refine (find_put ..).trans ?_
  rw [find_put,find_erase]

omit [DecidableEq π] in
theorem swap_back (there : find (state.swap table run original ghost log).relations name = some oid) :
    (name = table ∧ oid = ghost) ∨ (name = oldTable table ∧ oid = original) ∨
      (table ≠ name ∧ oldTable table ≠ name ∧ find state.relations name = some oid) := by
  rw [swap_find] at there
  split at there
  · next same => exact .inl ⟨same.symm,(Option.some.inj there).symm⟩
  · next apart =>
    split at there
    · next same => exact .inr (.inl ⟨same.symm,(Option.some.inj there).symm⟩)
    · next other =>
      split at there
      · cases there
      · exact .inr (.inr ⟨apart,other,there⟩)

omit [DecidableEq π] in
theorem swap_other (named : Named tables) (listed : table ∈ tables) {other : Name} (inside : other ∈ tables) (apart : table ≠ other) :
    find (state.swap table run original ghost log).relations other = find state.relations other ∧
    find (state.swap table run original ghost log).relations (ghostTable other) = find state.relations (ghostTable other) ∧
    find (state.swap table run original ghost log).relations (changelogTable other) = find state.relations (changelogTable other) ∧
    find (state.swap table run original ghost log).relations (oldTable other) = find state.relations (oldTable other) := by
  have keeps {name : Name} (apart : table ≠ name) (other : oldTable table ≠ name) (away : ghostTable table ≠ name) :
      find (state.swap table run original ghost log).relations name = find state.relations name := by
    rw [swap_find,if_neg apart,if_neg other,if_neg away]
  obtain ⟨plain_ghost,plain_log,plain_old⟩ := table_derived named listed other
  obtain ⟨their_ghost,_,their_old⟩ := table_derived named inside table
  exact ⟨keeps apart (Ne.symm their_old) (Ne.symm their_ghost),
    keeps plain_ghost (Ne.symm (ghost_old other table)) fun same => apart (ghost_same named listed inside same),
    keeps plain_log (Ne.symm (changelog_old other table)) (ghost_changelog table other),
    keeps plain_old (fun same => apart (old_same named listed inside same)) (ghost_old table other)⟩

omit [DecidableEq π] in
theorem swap_logs {number : Nat} (old : ∀ swap ∈ state.swaps, swap.log ≠ number) (new : log ≠ number) :
    ∀ swap ∈ (state.swap table run original ghost log).swaps, swap.log ≠ number := by
  intro swap member
  rcases List.mem_append.mp member with before | after
  · exact old swap before
  · rw [List.mem_singleton.mp after]
    exact new

omit [DecidableEq π] in
theorem swap_run {other : Name} {later : Run π} (there : find (state.swap table run original ghost log).runs other = some later) :
    table ≠ other ∧ find state.runs other = some later := by
  rw [show find (state.swap table run original ghost log).runs other = _ from find_erase] at there
  split at there
  · cases there
  · next apart => exact ⟨apart,there⟩

omit [DecidableEq π] in
theorem swap_trigger {other : Name} (member : other ∈ (state.swap table run original ghost log).triggers) :
    table ≠ other ∧ other ∈ state.triggers := by
  obtain ⟨inside,apart⟩ := List.mem_filter.mp member
  exact ⟨Ne.symm (of_decide_eq_true apart),inside⟩

theorem swap_one (named : Named tables) (sound : Sound tables state) (listed : table ∈ tables)
    (original_there : find state.relations table = some original) (ghost_there : find state.relations (ghostTable table) = some ghost)
    {one two : Name} {oid : Nat} (first : find (state.swap table run original ghost log).relations one = some oid)
    (second : find (state.swap table run original ghost log).relations two = some oid) : one = two := by
  have away {name : Name} {oid : Nat} (apart : table ≠ name) (there : find state.relations name = some oid) : oid ≠ original := by
    rintro rfl
    exact apart (sound.one _ _ _ original_there there)
  have beyond {name : Name} {oid : Nat} (there : find state.relations name = some oid)
      (kept : find (state.swap table run original ghost log).relations name = some oid) (apart : table ≠ name) (other : oldTable table ≠ name) : oid ≠ ghost := by
    rintro rfl
    have same := sound.one _ _ _ ghost_there there
    rw [swap_find,if_neg apart,if_neg other,if_pos same] at kept
    cases kept
  have parted : ghost ≠ original := away (table_derived named listed table).1 ghost_there
  rcases swap_back first with ⟨rfl,rfl⟩ | ⟨rfl,rfl⟩ | ⟨apart,other,before⟩ <;> rcases swap_back second with ⟨rfl,same⟩ | ⟨rfl,same⟩ | ⟨away_two,other_two,earlier⟩
  · rfl
  · exact absurd same parted
  · exact absurd rfl (beyond earlier second away_two other_two)
  · exact absurd same.symm parted
  · rfl
  · exact absurd rfl (away away_two earlier)
  · exact absurd same (beyond before first apart other)
  · exact absurd same (away apart before)
  · exact sound.one _ _ _ before earlier

theorem swap_sound (named : Named tables) (sound : Sound tables state) (found : find state.runs table = some run)
    (stage : run.stage = .copying held_ghost held_log) (original_there : find state.relations table = some original)
    (ghost_there : find state.relations (ghostTable table) = some ghost) (log_there : find state.relations (changelogTable table) = some log) :
    Sound tables (state.swap table run original ghost log) := by
  have listed := sound.listed table run found
  have live := sound.live table run found
  obtain ⟨log_held,later⟩ := live.log held_log (by rw [stage]; rfl)
  cases Option.some.inj (log_held.symm.trans log_there)
  obtain ⟨own_ghost,own_log,own_old⟩ := table_derived named listed table
  have log_apart {other : Name} {number : Nat} (inside : other ∈ tables) (apart : table ≠ other)
      (there : find state.relations (changelogTable other) = some number) : held_log ≠ number := by
    rintro rfl
    exact apart (changelog_same named listed inside (sound.one _ _ _ log_there there))
  refine ⟨fun other run there => sound.listed other run (swap_run there).2,fun other member => sound.carried other (swap_trigger member).2,?_,?_,?_,?_,?_,?_,
    fun other run there => ?_,fun other member => ?_,?_,?_,sound.sweeping,keyed_erase sound.keyed_runs,sound.keyed_sweeps⟩
  · intro swap member
    rcases List.mem_append.mp member with before | after
    · exact sound.swapped swap before
    · rw [List.mem_singleton.mp after]
      exact listed
  · intro due member
    rcases List.mem_append.mp member with before | after
    · exact List.mem_append_left _ (sound.owned due before)
    · rw [List.mem_singleton.mp after]
      exact List.mem_append_right _ (List.mem_singleton_self _)
  · intro name oid there
    rcases swap_back there with ⟨_,rfl⟩ | ⟨_,rfl⟩ | ⟨_,_,before⟩
    · exact sound.fresh _ _ ghost_there
    · exact sound.fresh _ _ original_there
    · exact sound.fresh _ _ before
  · intro swap member
    rcases List.mem_append.mp member with before | after
    · exact sound.past swap before
    · rw [List.mem_singleton.mp after]
      exact ⟨sound.fresh _ _ original_there,sound.fresh _ _ log_there⟩
  · have new {swap : Swap} (member : swap ∈ state.swaps) : swap.old ≠ original := by
      rintro rfl
      exact (table_derived named listed swap.table).2.2 ((sound.left swap member).1 table original_there)
    intro one first two second same
    rcases List.mem_append.mp first with before | after <;> rcases List.mem_append.mp second with earlier | latest
    · exact sound.distinct one before two earlier same
    · rw [List.mem_singleton.mp latest] at same
      exact absurd same (new before)
    · rw [List.mem_singleton.mp after] at same
      exact absurd same.symm (new earlier)
    · rw [List.mem_singleton.mp after,List.mem_singleton.mp latest]
  · intro one two oid first second
    exact swap_one named sound listed original_there ghost_there first second
  · obtain ⟨apart,before⟩ := swap_run there
    have inside := sound.listed other run before
    obtain ⟨same,same_ghost,same_log,_⟩ := swap_other named listed inside apart
    have live := sound.live other run before
    refine ⟨fun number held => ?_,fun number held => ?_,fun tracing => ?_,fun untraced wrong => live.untraced untraced (swap_trigger wrong).2⟩
    · rw [same,same_ghost]
      exact live.ghost number held
    · obtain ⟨there_log,old⟩ := live.log number held
      rw [same_log]
      exact ⟨there_log,swap_logs old (log_apart inside apart there_log)⟩
    · exact List.mem_filter.mpr ⟨live.traced tracing,decide_eq_true (Ne.symm apart)⟩
  · obtain ⟨apart,before⟩ := swap_trigger member
    have inside := sound.carried other before
    obtain ⟨_,same_ghost,same_log,_⟩ := swap_other named listed inside apart
    obtain ⟨there_ghost,number,there_log,old⟩ := sound.traced other before
    rw [same_ghost,same_log]
    exact ⟨there_ghost,number,there_log,swap_logs old (log_apart inside apart there_log)⟩
  · intro swap member
    rcases List.mem_append.mp member with before | after
    · have inside := sound.swapped swap before
      obtain ⟨old,log⟩ := sound.left swap before
      refine ⟨fun name there => ?_,fun name there => ?_⟩
      · rcases swap_back there with ⟨rfl,same⟩ | ⟨rfl,same⟩ | ⟨_,_,first⟩
        · exact absurd (old _ (same ▸ ghost_there)) (ghost_old _ _)
        · exact absurd (old _ (same ▸ original_there)) (table_derived named listed swap.table).2.2
        · exact old name first
      · rcases swap_back there with ⟨rfl,same⟩ | ⟨rfl,same⟩ | ⟨_,_,first⟩
        · exact absurd (log _ (same ▸ ghost_there)).1 (ghost_changelog _ _)
        · exact absurd (log _ (same ▸ original_there)).1 (table_derived named listed swap.table).2.1
        · obtain ⟨rfl,held⟩ := log name first
          have apart : table ≠ swap.table := by
            intro same
            rw [← same] at first
            exact later swap before (Option.some.inj (first.symm.trans log_there))
          rw [(swap_other named listed inside apart).2.2.2]
          exact ⟨rfl,held⟩
    · rw [List.mem_singleton.mp after]
      refine ⟨fun name there => ?_,fun name there => ?_⟩
      · rcases swap_back there with ⟨rfl,same⟩ | ⟨rfl,_⟩ | ⟨apart,_,first⟩
        · exact absurd (sound.one _ _ _ original_there ((show original = ghost from same) ▸ ghost_there)) own_ghost
        · rfl
        · exact absurd (sound.one _ _ _ original_there first) apart
      · rcases swap_back there with ⟨rfl,same⟩ | ⟨rfl,same⟩ | ⟨_,_,first⟩
        · exact absurd (sound.one _ _ _ log_there ((show held_log = ghost from same) ▸ ghost_there)) (Ne.symm (ghost_changelog _ _))
        · exact absurd (sound.one _ _ _ log_there ((show held_log = original from same) ▸ original_there)) (Ne.symm own_log)
        · refine ⟨sound.one _ _ _ first log_there,?_⟩
          rw [swap_find,if_neg own_old,if_pos rfl]
  · intro name oid there old
    rcases swap_back there with ⟨rfl,_⟩ | ⟨rfl,_⟩ | ⟨_,_,first⟩
    · have plain := named.plain _ listed
      cases name with
      | nil => cases old
      | cons head rest =>
        rw [oldPrefix,List.isPrefixOf,Bool.and_eq_true] at old
        exact absurd (by rw [List.head?_cons,← eq_of_beq old.1]) plain
    · exact ⟨table,listed,rfl⟩
    · exact sound.olds name oid first old

theorem derived_old (table : Name) : oldPrefix.isPrefixOf (ghostTable table) = false ∧ oldPrefix.isPrefixOf (changelogTable table) = false := by
  rw [ghost_name,changelog_name]
  exact ⟨rfl,rfl⟩

-- A name no run, trigger or finished swap is in need of: what each cleaner has to establish.
theorem spare_changelog (named : Named tables) (sound : Sound tables state) (inside : table ∈ tables)
    (idle : ∀ run, find state.runs table = some run → run.stage.log = none) (quiet : table ∉ state.triggers) : Spare state (changelogTable table) := by
  refine ⟨fun other run found _ => ⟨ghost_changelog other table,(table_derived named (sound.listed other run found) table).2.1⟩,
    fun other run found held same => ?_,fun other member => ⟨ghost_changelog other table,fun same => ?_,(table_derived named (sound.carried other member) table).2.1⟩,
    fun swap _ same => absurd same.symm (changelog_old _ _)⟩
  · cases changelog_same named (sound.listed other run found) inside same
    rw [idle run found] at held
    cases held
  · cases changelog_same named (sound.carried other member) inside same
    exact quiet member

theorem spare_ghost (named : Named tables) (sound : Sound tables state) (inside : table ∈ tables)
    (idle : ∀ run, find state.runs table = some run → run.stage.ghost = none) (quiet : table ∉ state.triggers) : Spare state (ghostTable table) := by
  refine ⟨fun other run found held => ⟨fun same => ?_,(table_derived named (sound.listed other run found) table).1⟩,
    fun other _ _ _ same => absurd same.symm (ghost_changelog table other),
    fun other member => ⟨fun same => ?_,fun same => absurd same.symm (ghost_changelog table other),(table_derived named (sound.carried other member) table).1⟩,
    fun swap _ same => absurd same.symm (ghost_old _ _)⟩
  · cases ghost_same named (sound.listed other run found) inside same
    rw [idle run found] at held
    cases held
  · cases ghost_same named (sound.carried other member) inside same
    exact quiet member

theorem spare_old (named : Named tables) (sound : Sound tables state)
    (done : ∀ swap ∈ state.swaps, oldTable swap.table = oldTable table → find state.relations (changelogTable swap.table) ≠ some swap.log) :
    Spare state (oldTable table) :=
  ⟨fun other run found _ => ⟨ghost_old other table,(table_derived named (sound.listed other run found) table).2.2⟩,
    fun other _ _ _ => changelog_old other table,
    fun other member => ⟨ghost_old other table,changelog_old other table,(table_derived named (sound.carried other member) table).2.2⟩,done⟩

omit [DecidableEq π] in
theorem drop_comm (one two : Name) : (state.drop one).drop two = (state.drop two).drop one := by
  unfold State.drop erase
  congr 1
  · exact List.filter_comm ..
  · exact List.filter_comm ..

omit [DecidableEq π] in
theorem dropOwned_comm (apart : one ≠ two) : dropOwned (dropOwned state one first) two second = dropOwned (dropOwned state two second) one first := by
  unfold dropOwned
  by_cases left : find state.relations one = some first <;> by_cases right : find state.relations two = some second
  · rw [if_pos left,if_pos right,find_drop,find_drop,if_neg apart,if_neg (Ne.symm apart),if_pos left,if_pos right,drop_comm]
  · rw [if_pos left,if_neg right,find_drop,if_neg apart,if_neg right,if_pos left]
  · rw [if_neg left,if_pos right,find_drop,if_neg (Ne.symm apart),if_neg left]
  · rw [if_neg left,if_neg right,if_neg left]

theorem advance_sound (named : Named tables) (sound : Sound tables state) (found : find state.runs table = some run)
    (moved : advance state table run = some after) : Sound tables after := by
  have listed := sound.listed table run found
  have live := sound.live table run found
  have back {stage : Stage} {later : Run π} (same : run.stage = stage) (there : find state.runs table = some later) : later.stage = stage := by
    cases Option.some.inj (found.symm.trans there)
    exact same
  unfold advance at moved
  split at moved
  · split at moved
    · next clear =>
      cases Option.some.inj moved
      obtain ⟨original,absent⟩ := Bool.and_eq_true_iff.mp clear
      have absent := Option.isNone_iff_eq_none.mp absent
      have made := create_sound sound absent (derived_old table).1
      refine at_sound made listed ⟨fun ghost held => ?_,fun _ wrong => absurd wrong (Option.some_ne_none _).symm,fun wrong => absurd wrong Bool.false_ne_true,fun _ wrong => ?_⟩
      · cases Option.some.inj held
        refine ⟨(find_put ..).trans (if_pos rfl),?_⟩
        rw [show find (state.create (ghostTable table)).relations table = _ from find_put .., if_neg (Ne.symm (table_derived named listed table).1)]
        exact original
      · have there := (sound.traced table wrong).1
        rw [absent] at there
        cases there
    · cases Option.some.inj moved
      exact at_sound sound listed (resting rfl rfl rfl fun wrong => absurd wrong Bool.false_ne_true)
  · next ghost stage =>
    cases Option.some.inj moved
    obtain ⟨held,original⟩ := live.ghost ghost (by rw [stage]; rfl)
    have quiet := live.untraced (by rw [stage]; rfl)
    have spare := spare_changelog named sound listed (fun later there => by rw [back stage there]; rfl) quiet
    refine at_sound (drop_sound sound spare) listed ⟨fun other same => ?_,fun _ wrong => absurd wrong (Option.some_ne_none _).symm,fun wrong => absurd wrong Bool.false_ne_true,
      fun _ wrong => quiet (List.mem_filter.mp wrong).1⟩
    cases Option.some.inj same
    rw [find_drop,find_drop,if_neg (Ne.symm (ghost_changelog table table)),if_neg (Ne.symm (table_derived named listed table).2.1)]
    exact ⟨held,original⟩
  · next ghost stage =>
    obtain ⟨held,original⟩ := live.ghost ghost (by rw [stage]; rfl)
    have quiet := live.untraced (by rw [stage]; rfl)
    split at moved
    · next absent =>
      cases Option.some.inj moved
      have made := create_sound sound (Option.isNone_iff_eq_none.mp absent) (derived_old table).2
      refine at_sound made listed ⟨fun other same => ?_,fun other same => ?_,fun wrong => absurd wrong Bool.false_ne_true,fun wrong => absurd wrong Bool.false_ne_true⟩
      · cases Option.some.inj same
        rw [show find (state.create (changelogTable table)).relations (ghostTable table) = _ from find_put ..,
          show find (state.create (changelogTable table)).relations table = _ from find_put ..,
          if_neg (Ne.symm (ghost_changelog table table)),if_neg (Ne.symm (table_derived named listed table).2.1)]
        exact ⟨held,original⟩
      · cases Option.some.inj same
        exact ⟨(find_put ..).trans (if_pos rfl),fun swap member => Nat.ne_of_lt (sound.past swap member).2⟩
    · cases Option.some.inj moved
      exact at_sound sound listed (resting rfl rfl rfl fun wrong => absurd wrong Bool.false_ne_true)
  · next ghost log stage =>
    split at moved
    · cases Option.some.inj moved
      exact trace_sound sound listed found stage
    · cases Option.some.inj moved
      exact at_sound sound listed (resting rfl rfl rfl fun wrong => absurd wrong Bool.false_ne_true)
  · next held_ghost held_log stage =>
    split at moved
    · next original_there ghost_there log_there =>
      cases Option.some.inj moved
      exact swap_sound named sound found stage original_there ghost_there log_there
    · cases Option.some.inj moved
      exact at_sound sound listed (resting rfl rfl rfl fun wrong => absurd wrong Bool.false_ne_true)
  · cases moved

theorem clean_sound {succeeds : Bool} (named : Named tables) (sound : Sound tables state) (found : find state.runs table = some run)
    (allowed : succeeds = false → run.stage = .dropTrigger → table ∉ state.triggers)
    (moved : clean state table run succeeds = some after) : Sound tables after := by
  have listed := sound.listed table run found
  have live := sound.live table run found
  have back {stage : Stage} {later : Run π} (same : run.stage = stage) (there : find state.runs table = some later) : later.stage = stage := by
    cases Option.some.inj (found.symm.trans there)
    exact same
  unfold clean at moved
  split at moved
  · next stage =>
    cases Option.some.inj moved
    refine at_sound (untrace_sound sound table fun later there => by rw [back stage there]; rfl) listed (resting rfl rfl rfl fun _ wrong => ?_)
    exact of_decide_eq_true (List.mem_filter.mp wrong).2 rfl
  · next stage =>
    cases Option.some.inj moved
    exact at_sound sound listed (resting rfl rfl rfl fun _ => allowed rfl stage)
  · next stage =>
    cases Option.some.inj moved
    have quiet := live.untraced (by rw [stage]; rfl)
    have spare := spare_ghost named sound listed (fun later there => by rw [back stage there]; rfl) quiet
    exact at_sound (drop_sound sound spare) listed (resting rfl rfl rfl fun _ wrong => quiet (List.mem_filter.mp wrong).1)
  · next stage =>
    cases Option.some.inj moved
    have quiet := live.untraced (by rw [stage]; rfl)
    have spare := spare_changelog named sound listed (fun later there => by rw [back stage there]; rfl) quiet
    exact ended_sound (drop_sound sound spare) table
  · cases Option.some.inj moved
    exact ended_sound sound table
  · cases Option.some.inj moved
    exact ended_sound sound table
  · cases moved

theorem cleanup_sound (named : Named tables) (sound : Sound tables state) (owned : swap ∈ state.swaps) :
    Sound tables (dropOwned (dropOwned state (oldTable swap.table) swap.old) (changelogTable swap.table) swap.log) := by
  have inside := sound.swapped swap owned
  rw [dropOwned_comm (Ne.symm (changelog_old swap.table swap.table))]
  have logged : Sound tables (dropOwned state (changelogTable swap.table) swap.log) ∧ (dropOwned state (changelogTable swap.table) swap.log).swaps = state.swaps ∧
      find (dropOwned state (changelogTable swap.table) swap.log).relations (changelogTable swap.table) ≠ some swap.log := by
    unfold dropOwned
    split
    · next there =>
      refine ⟨drop_sound sound (spare_changelog named sound inside (fun run found => ?_) fun member => ?_),rfl,fun wrong => (found_drop wrong).1 rfl⟩
      · cases held : run.stage.log with
        | none => rfl
        | some log =>
          obtain ⟨their,apart⟩ := (sound.live swap.table run found).log log held
          exact absurd (Option.some.inj (there.symm.trans their)) (apart swap owned)
      · obtain ⟨_,log,their,apart⟩ := sound.traced swap.table member
        exact apart swap owned (Option.some.inj (there.symm.trans their))
    · next gone => exact ⟨sound,rfl,gone⟩
  obtain ⟨sound,swaps,gone⟩ := logged
  generalize dropOwned state (changelogTable swap.table) swap.log = state at sound swaps gone ⊢
  rw [← swaps] at owned
  unfold dropOwned
  split
  · next there =>
    refine drop_sound sound (spare_old named sound fun other member same held => ?_)
    obtain ⟨_,kept⟩ := (sound.left other member).2 _ held
    rw [old_same named (sound.swapped other member) inside same] at kept
    cases sound.distinct other member swap owned (Option.some.inj (kept.symm.trans there))
    exact gone held
  · exact sound

-- What the next statement of a sweep must find: no run or trigger on the table when its changelog's name goes,
-- and no changelog of a finished swap left when the old copy goes.
def Idle (state : State π) (sweep : Sweep) : Prop :=
  match sweep.todo with
  | [] => True
  | name::_ =>
    if sweep.halfway then
      ∀ swap ∈ state.swaps, oldTable swap.table = name → find state.relations (changelogTable swap.table) ≠ some swap.log
    else
      (∀ table run, find state.runs table = some run → oldTable table = name → run.stage.log = none) ∧
        ∀ table ∈ state.triggers, oldTable table ≠ name

def Permitted (tables : List Name) (state : State π) : Action π → Prop
  | .start _ table => table ∈ tables
  | .clean table false => ∀ run, find state.runs table = some run → run.stage = .dropTrigger → table ∉ state.triggers
  | .sweepStep process true => ∀ sweep, find state.sweeps process = some sweep → Idle state sweep
  | _ => True

theorem sweeping_sound (sound : Sound tables state) (listed : ∀ name ∈ sweep.todo, ∃ table ∈ tables, name = oldTable table) (process : π) :
    Sound tables { state with sweeps := put state.sweeps ⟨process,sweep⟩ } := by
  refine ⟨sound.listed,sound.carried,sound.swapped,sound.owned,sound.fresh,sound.past,sound.distinct,sound.one,fun table run found => ?_,
    sound.traced,sound.left,sound.olds,fun other later found => ?_,sound.keyed_runs,keyed_put sound.keyed_sweeps⟩
  · have live := sound.live table run found
    exact ⟨live.ghost,live.log,live.traced,live.untraced⟩
  · rw [show find (put state.sweeps ⟨process,sweep⟩) other = _ from find_put ..] at found
    split at found
    · cases Option.some.inj found
      exact listed
    · exact sound.sweeping other later found

theorem sweepStep_sound {succeeds : Bool} (named : Named tables) (sound : Sound tables state) (found : find state.sweeps process = some sweep)
    (idle : succeeds = true → Idle state sweep) (moved : sweepStep state process sweep succeeds = some after) : Sound tables after := by
  have listed := sound.sweeping process sweep found
  unfold sweepStep at moved
  cases todo : sweep.todo with
  | nil =>
    rw [todo] at moved
    cases moved
  | cons name rest =>
    rw [todo] at listed moved
    have later : ∀ other ∈ rest, ∃ table ∈ tables, other = oldTable table := fun other member => listed other (List.mem_cons_of_mem _ member)
    obtain ⟨table,inside,rfl⟩ := listed name (List.mem_cons_self ..)
    cases succeeds with
    | false =>
      cases Option.some.inj ((by cases sweep.halfway <;> rfl : _ = _).symm.trans moved)
      exact sweeping_sound sound later process
    | true =>
      have idle := idle rfl
      unfold Idle at idle
      rw [todo] at idle
      cases half : sweep.halfway with
      | false =>
        rw [half] at idle moved
        cases Option.some.inj moved
        rw [swept_changelog]
        have spare := spare_changelog named sound inside (fun run there => idle.1 table run there rfl) fun member => idle.2 table member rfl
        exact sweeping_sound (drop_sound sound spare) listed process
      | true =>
        rw [half] at idle moved
        cases Option.some.inj moved
        exact sweeping_sound (drop_sound sound (spare_old named sound idle)) later process

theorem step_sound (named : Named tables) : Preserved step (Permitted tables) (Sound (π := π) tables) := by
  intro state action after sound permitted moved
  cases action with
  | start process table =>
    simp only [step] at moved
    split at moved
    · cases Option.some.inj moved
      exact start_sound sound permitted process
    · cases moved
  | advance table =>
    obtain ⟨run,found,moved⟩ := Option.bind_eq_some_iff.mp moved
    exact advance_sound named sound found moved
  | fail table =>
    obtain ⟨run,found,moved⟩ := Option.bind_eq_some_iff.mp moved
    split at moved
    · cases moved
    · cases moved
    · cases moved
    · cases Option.some.inj moved
      exact at_sound sound (sound.listed table run found) (resting rfl rfl rfl fun wrong => absurd wrong Bool.false_ne_true)
  | clean table succeeds =>
    obtain ⟨run,found,moved⟩ := Option.bind_eq_some_iff.mp moved
    refine clean_sound named sound found (fun failed stage => ?_) moved
    subst failed
    exact permitted run found stage
  | cleanup index =>
    obtain ⟨due,there,same⟩ := Option.map_eq_some_iff.mp moved
    subst same
    have owned := sound.owned due (List.mem_of_getElem? there)
    have gone : Sound tables { state with cleanups := state.cleanups.eraseIdx index } := by
      refine ⟨sound.listed,sound.carried,sound.swapped,fun later member => sound.owned later ((List.eraseIdx_sublist ..).mem member),sound.fresh,sound.past,
        sound.distinct,sound.one,fun table run found => ?_,sound.traced,sound.left,sound.olds,sound.sweeping,sound.keyed_runs,sound.keyed_sweeps⟩
      have live := sound.live table run found
      exact ⟨live.ghost,live.log,live.traced,live.untraced⟩
    exact cleanup_sound named gone owned
  | sweep process =>
    cases Option.some.inj moved
    refine sweeping_sound sound (fun name member => ?_) process
    obtain ⟨there,old⟩ := List.mem_filter.mp member
    obtain ⟨row,inside,rfl⟩ := List.mem_map.mp there
    cases found : find state.relations row.id with
    | none => exact absurd rfl (find_none.mp found row inside)
    | some oid => exact sound.olds row.id oid found old
  | sweepStep process succeeds =>
    obtain ⟨sweep,found,moved⟩ := Option.bind_eq_some_iff.mp moved
    refine sweepStep_sound named sound found (fun done => ?_) moved
    subst done
    exact permitted sweep found
  | exit process =>
    cases Option.some.inj moved
    exact exit_sound sound process

structure Initial (relations : List (Row Name Nat)) (next : Nat) : Prop where
  plain : ∀ row ∈ relations, row.id.head? ≠ some '_'
  below : ∀ row ∈ relations, row.columns < next
  apart : (relations.map Row.columns).Nodup

theorem begun_sound (initial : Initial relations next) : Sound tables (begun (π := π) relations next) := by
  refine ⟨nofun,nofun,nofun,nofun,fun name oid found => initial.below _ (find_mem found),nofun,nofun,fun one two oid first second => ?_,nofun,nofun,nofun,
    fun name oid found old => ?_,nofun,List.nodup_nil,List.nodup_nil⟩
  · have same := List.inj_on_of_nodup_map initial.apart (find_mem first) (find_mem second) rfl
    exact congrArg Row.id same
  · have plain := initial.plain _ (find_mem found)
    obtain ⟨rest,rfl⟩ := List.isPrefixOf_iff_prefix.mp old
    exact absurd rfl plain

-- A sweep that is left to finish drops what it listed, and with each name the changelog that goes by it.
theorem swept (process : π) (listed : find state.sweeps process = some ⟨todo,false⟩) :
    ∃ after, Runs.run step state (List.replicate (2 * todo.length) (.sweepStep process true)) = some after ∧
      ∀ name oid, find after.relations name = some oid →
        find state.relations name = some oid ∧ name ∉ todo ∧ ∀ old ∈ todo, name ≠ changelogTable (old.drop oldPrefix.length) := by
  induction todo generalizing state with
  | nil => exact ⟨state,rfl,fun name oid found => ⟨found,List.not_mem_nil,fun _ member => absurd member List.not_mem_nil⟩⟩
  | cons old rest ih =>
    let first : State π := { state.drop (changelogTable (old.drop oldPrefix.length)) with sweeps := put state.sweeps ⟨process,⟨old::rest,true⟩⟩ }
    let second : State π := { first.drop old with sweeps := put first.sweeps ⟨process,⟨rest,false⟩⟩ }
    have one : step state (.sweepStep process true) = some first := by
      rw [step,listed]
      rfl
    have two : step first (.sweepStep process true) = some second := by
      rw [step,show find first.sweeps process = _ from find_put ..,if_pos rfl]
      rfl
    have rest_listed : find second.sweeps process = some ⟨rest,false⟩ := (find_put ..).trans (if_pos rfl)
    obtain ⟨after,path,kept⟩ := ih rest_listed
    refine ⟨after,run_cons.mpr ⟨first,one,run_cons.mpr ⟨second,two,path⟩⟩,fun name oid found => ?_⟩
    obtain ⟨there,absent,others⟩ := kept name oid found
    obtain ⟨apart,before⟩ : old ≠ name ∧ find first.relations name = some oid := found_drop there
    obtain ⟨away,there⟩ : changelogTable (old.drop oldPrefix.length) ≠ name ∧ find state.relations name = some oid := found_drop before
    refine ⟨there,fun member => ?_,fun other member => ?_⟩
    · rcases List.mem_cons.mp member with same | later
      · exact apart same.symm
      · exact absent later
    · rcases List.mem_cons.mp member with rfl | later
      · exact Ne.symm away
      · exact others other later

def Droppable (state : State π) : Prop :=
  ∀ process, ∃ count after, Runs.run step state (.sweep process::List.replicate count (.sweepStep process true)) = some after ∧
    ∀ swap ∈ state.swaps, ∀ name, find after.relations name ≠ some swap.old ∧ find after.relations name ≠ some swap.log

theorem sound_droppable (sound : Sound tables state) : Droppable state := by
  intro process
  let todo := (state.relations.map Row.id).filter oldPrefix.isPrefixOf
  let begun : State π := { state with sweeps := put state.sweeps ⟨process,⟨todo,false⟩⟩ }
  have listed : find begun.sweeps process = some ⟨todo,false⟩ := (find_put ..).trans (if_pos rfl)
  obtain ⟨after,path,kept⟩ := swept process listed
  refine ⟨_,after,run_cons.mpr ⟨begun,rfl,path⟩,fun swap member name => ?_⟩
  have listed (oid : Nat) (found : find state.relations (oldTable swap.table) = some oid) : oldTable swap.table ∈ todo := by
    refine List.mem_filter.mpr ⟨List.mem_map_of_mem (f := Row.id) (find_mem found),?_⟩
    rw [old_name]
    exact List.isPrefixOf_iff_prefix.mpr (List.prefix_append ..)
  constructor
  · intro found
    obtain ⟨there,absent,_⟩ := kept name _ found
    cases (sound.left swap member).1 name there
    exact absent (listed _ there)
  · intro found
    obtain ⟨there,_,others⟩ := kept name _ found
    obtain ⟨rfl,old⟩ := (sound.left swap member).2 name there
    exact others _ (listed _ old) (swept_changelog swap.table).symm

-- What a run in progress made is there under its oids, the original beside it and the trigger on it.
structure InPlace (state : State π) (table : Name) (stage : Stage) : Prop where
  ghost : ∀ ghost, stage.ghost = some ghost → find state.relations (ghostTable table) = some ghost
  original : stage.ghost.isSome = true → (find state.relations table).isSome = true
  log : ∀ log, stage.log = some log → find state.relations (changelogTable table) = some log
  trigger : stage.tracing = true → table ∈ state.triggers

theorem runs_untouched (named : Named tables) (initial : Initial relations next)
    (guarded : Guarded step (Permitted tables) (begun (π := π) relations next) actions) (path : Runs.run step (begun relations next) actions = some state) :
    (∀ table run, find state.runs table = some run → InPlace state table run.stage) ∧
    (∀ table ∈ state.triggers, (find state.relations (changelogTable table)).isSome = true) ∧ Droppable state := by
  have sound := run_preserves (step_sound named) (begun_sound initial) guarded path
  refine ⟨fun table run found => ?_,fun table member => ?_,sound_droppable sound⟩
  · have live := sound.live table run found
    refine ⟨fun ghost held => (live.ghost ghost held).1,fun held => ?_,fun log held => (live.log log held).1,live.traced⟩
    obtain ⟨ghost,same⟩ := Option.isSome_iff_exists.mp held
    exact (live.ghost ghost same).2
  · obtain ⟨_,log,there,_⟩ := sound.traced table member
    rw [there]
    rfl

end

-- One run swapped and its old copy is still there; a boot sweeps while the next run on the table is copying.
def overtaken : List (Action Nat) :=
  [.start 0 ['t'],.advance ['t'],.advance ['t'],.advance ['t'],.advance ['t'],.advance ['t'],
    .start 0 ['t'],.advance ['t'],.advance ['t'],.advance ['t'],.advance ['t'],.sweep 1,.sweepStep 1 true]

theorem swept_in_progress :
    ∃ state run, Runs.run step (begun [⟨['t'],1⟩] 2) overtaken = some state ∧ find state.runs ['t'] = some run ∧
      run.stage = .copying 4 5 ∧ ['t'] ∈ state.triggers ∧ find state.relations (changelogTable ['t']) = none :=
  ⟨_,_,rfl,rfl,rfl,List.mem_singleton_self _,rfl⟩

def quietly : List (Action Nat) :=
  [.start 0 ['t'],.advance ['t'],.advance ['t'],.advance ['t'],.advance ['t'],.advance ['t'],.sweep 1,.sweepStep 1 true,.sweepStep 1 true,.cleanup 0,
    .start 0 ['t'],.advance ['t'],.advance ['t'],.advance ['t'],.advance ['t'],.fail ['t'],.clean ['t'] true,.clean ['t'] true]

theorem runs_untouched_quietly :
    ∃ state, Runs.run step (begun [⟨['t'],1⟩] 2) quietly = some state ∧
      (∀ table run, find state.runs table = some run → InPlace state table run.stage) ∧
      (∀ table ∈ state.triggers, (find state.relations (changelogTable table)).isSome = true) ∧ Droppable state := by
  have named : Named [['t']] := by
    refine ⟨fun table member => ?_,fun one first two second _ => ?_⟩
    · cases List.mem_singleton.mp member
      nofun
    · rw [List.mem_singleton.mp first,List.mem_singleton.mp second]
  have initial : Initial [⟨['t'],1⟩] 2 := by
    refine ⟨fun row member => ?_,fun row member => ?_,List.nodup_singleton 1⟩
    all_goals cases List.mem_singleton.mp member
    · nofun
    · exact Nat.lt_succ_self 1
  have guarded : Guarded step (Permitted [['t']]) (begun [⟨['t'],1⟩] 2) quietly := by
    have listed : ['t'] ∈ [['t']] := List.mem_singleton_self _
    refine guarded_cons (show Permitted [['t']] _ (.start 0 ['t']) from listed) rfl ?_
    iterate 6 refine guarded_cons (show Permitted [['t']] _ _ from trivial) rfl ?_
    refine guarded_cons (show Permitted [['t']] _ (.sweepStep 1 true) from fun sweep found => ?_) rfl ?_
    · cases Option.some.inj found
      exact ⟨nofun,nofun⟩
    refine guarded_cons (show Permitted [['t']] _ (.sweepStep 1 true) from fun sweep found => ?_) rfl ?_
    · cases Option.some.inj found
      intro swap member _
      cases List.mem_singleton.mp member
      nofun
    refine guarded_cons (show Permitted [['t']] _ _ from trivial) rfl ?_
    refine guarded_cons (show Permitted [['t']] _ (.start 0 ['t']) from listed) rfl ?_
    iterate 7 refine guarded_cons (show Permitted [['t']] _ _ from trivial) rfl ?_
    trivial
  exact ⟨_,rfl,runs_untouched named initial guarded rfl⟩

end Zveltio.GhostCleanup
