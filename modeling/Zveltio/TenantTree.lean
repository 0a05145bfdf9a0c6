import Mathlib.Data.List.Dedup
import Zveltio.Runs
import Zveltio.ParentChains
namespace Zveltio.TenantTree
open Runs ParentChains

-- A row as a transaction wrote it, with its trigger's walk: the units it came by and the parent it read of each.
structure Write (ι : Type) where
  node : ι
  parent : Option ι
  path : List (ι × Option ι)

-- NEW and the variables of the trigger.
structure Walk (ι : Type) where
  insert : Bool
  node : ι
  parent : Option ι
  walker : Option ι
  depth : Nat
  path : List (ι × Option ι)

structure Tx (ι : Type) where
  writes : List (Write ι)
  walk : Option (Walk ι)
  failed : Bool

def Tx.begun {ι : Type} : Tx ι := ⟨[],none,false⟩

def Tx.fail {ι : Type} (tx : Tx ι) : Tx ι := {tx with walk := none,failed := true}

-- rows: the committed parent_id of each unit there is.
structure State (τ ι : Type) where
  rows : ι → Option (Option ι)
  txs : τ → Option (Tx ι)

def State.start {τ ι : Type} : State τ ι := ⟨fun _ => none,fun _ => none⟩

section
variable {τ ι : Type} [DecidableEq τ] [DecidableEq ι]

def written : List (Write ι) → ι → Option (Option ι)
  | [],_ => none
  | write::rest,x => (written rest x).or (if write.node = x then some write.parent else none)

def view (rows : ι → Option (Option ι)) (writes : List (Write ι)) (x : ι) : Option (Option ι) := (written writes x).or (rows x)

def parentOf (rows : ι → Option (Option ι)) (x : ι) : Option ι := (rows x).join

-- The trigger up to its loop; a parent that is NULL leaves nothing to walk.
def zveltio_tenant_no_cycle (tx : Tx ι) (insert : Bool) (node : ι) (parent : Option ι) : Tx ι :=
  if parent = some node then tx.fail else {tx with walk := some ⟨insert,node,parent,parent,0,[]⟩}

-- One turn of the loop, or past it the write itself.
def walkOn (rows : ι → Option (Option ι)) (tx : Tx ι) (walk : Walk ι) : Tx ι :=
  match walk.walker with
  | none =>
    if walk.insert && (view rows tx.writes walk.node).isSome then tx.fail
    else {tx with writes := tx.writes ++ [⟨walk.node,walk.parent,walk.path⟩],walk := none}
  | some walker =>
    if walk.depth + 1 > 64 then tx.fail
    else if walker = walk.node then tx.fail
    else
      let above := parentOf (view rows tx.writes) walker
      {tx with walk := some {walk with walker := above,depth := walk.depth + 1,path := walk.path ++ [(walker,above)]}}

inductive Action (τ ι : Type) where
  | begin (tx : τ)
  | insert (tx : τ) (node : ι) (parent : Option ι)
  | update (tx : τ) (node : ι) (parent : Option ι)
  | walk (tx : τ)
  | rollbackTo (tx : τ) (kept : Nat)
  | abort (tx : τ)
  | commit (tx : τ)

def Tx.ready (tx : Tx ι) : Bool := tx.walk.isNone && !tx.failed

-- Row locks are left out: they only take runs away.
def step (state : State τ ι) : Action τ ι → Option (State τ ι)
  | .begin tx => match state.txs tx with
    | none => some {state with txs := Function.update state.txs tx (some .begun)}
    | some _ => none
  | .insert tx node parent => (state.txs tx).bind fun own =>
    if own.ready then some {state with txs := Function.update state.txs tx (some (zveltio_tenant_no_cycle own true node parent))} else none
  | .update tx node parent => (state.txs tx).bind fun own =>
    if own.ready && (view state.rows own.writes node).isSome then
      some {state with txs := Function.update state.txs tx (some (zveltio_tenant_no_cycle own false node parent))}
    else none
  | .walk tx => (state.txs tx).bind fun own => own.walk.map fun walk =>
    {state with txs := Function.update state.txs tx (some (walkOn state.rows own walk))}
  | .rollbackTo tx kept => (state.txs tx).bind fun own =>
    if own.walk.isNone then some {state with txs := Function.update state.txs tx (some ⟨own.writes.take kept,none,false⟩)} else none
  | .abort tx => (state.txs tx).map fun _ => {state with txs := Function.update state.txs tx none}
  | .commit tx => (state.txs tx).bind fun own =>
    if own.ready then some ⟨view state.rows own.writes,Function.update state.txs tx none⟩ else none

def zveltio_tenant_subtree (all : List ι) (rows : ι → Option (Option ι)) (root : ι) : List ι := descendants (parentOf rows) all root 64

-- A unit the walk came by, that its transaction did not write, has another parent by now.
def Changed (rows : ι → Option (Option ι)) (writes : List (Write ι)) (write : Write ι) (read : ι × Option ι) : Prop :=
  read ∈ write.path ∧ written writes read.1 = none ∧ parentOf rows read.1 ≠ read.2

-- Of each unit's last write in a transaction that commits: no unit its walk came by that has changed since is below it now;
-- and, where nothing is in a cycle, a unit that is not alone, or whose walk met a unit that has changed since,
-- has nothing below it that is more than 64 levels deep.
def Permitted (state : State τ ι) : Action τ ι → Prop
  | .commit tx => ∀ own, state.txs tx = some own → ∀ earlier write later, own.writes = earlier ++ write::later →
      (∀ other ∈ later, other.node ≠ write.node) →
      (∀ read, Changed state.rows own.writes write read → ∀ levels, up (parentOf (view state.rows own.writes)) levels read.1 ≠ some write.node) ∧
      (Acyclic (parentOf (view state.rows own.writes)) → ∀ levels x, levels ≤ 64 → up (parentOf (view state.rows own.writes)) levels x = some write.node →
        (0 < levels ∨ ∃ read, Changed state.rows own.writes write read) → up (parentOf (view state.rows own.writes)) (65 - levels) write.node = none)
  | _ => True

theorem written_append (first second : List (Write ι)) (x : ι) : written (first ++ second) x = (written second x).or (written first x) := by
  induction first with
  | nil => simp [written]
  | cons write rest ih => simp only [List.cons_append,written,ih,Option.or_assoc]

theorem written_exact (writes : List (Write ι)) (x : ι) : (written writes x).isSome = true ↔ ∃ write ∈ writes, write.node = x := by
  induction writes with
  | nil => simp [written]
  | cons write rest ih =>
    simp only [written,Option.isSome_or,Bool.or_eq_true,ih,List.mem_cons,exists_eq_or_imp]
    rw [or_comm]
    by_cases same : write.node = x <;> simp [same]

theorem written_none {writes : List (Write ι)} {x : ι} (apart : ∀ write ∈ writes, write.node ≠ x) : written writes x = none := by
  refine Option.not_isSome_iff_eq_none.mp fun found => ?_
  obtain ⟨write,member,same⟩ := (written_exact writes x).mp found
  exact apart write member same

theorem written_last {earlier later : List (Write ι)} {write : Write ι} (last : ∀ other ∈ later, other.node ≠ write.node) :
    written (earlier ++ write::later) write.node = some write.parent := by
  rw [written_append]
  simp [written,written_none last]

theorem written_earlier {earlier later : List (Write ι)} {write : Write ι} {x : ι} (other : write.node ≠ x)
    (apart : ∀ write ∈ later, write.node ≠ x) : written (earlier ++ write::later) x = written earlier x := by
  rw [written_append]
  simp [written,written_none apart,other]

omit [DecidableEq ι] in
theorem last_write {writes : List (Write ι)} (among : ι → Prop) (there : ∃ write ∈ writes, among write.node) :
    ∃ earlier write later, writes = earlier ++ write::later ∧ among write.node ∧ ∀ other ∈ later, ¬among other.node := by
  induction writes with
  | nil =>
    obtain ⟨_,member,_⟩ := there
    cases member
  | cons head rest ih =>
    by_cases more : ∃ write ∈ rest, among write.node
    · obtain ⟨earlier,write,later,same,holds,after⟩ := ih more
      exact ⟨head::earlier,write,later,by rw [same]; rfl,holds,after⟩
    · obtain ⟨write,member,holds⟩ := there
      rcases List.mem_cons.mp member with rfl | later
      · exact ⟨[],write,rest,rfl,holds,fun other there holds => more ⟨other,there,holds⟩⟩
      · exact absurd ⟨write,later,holds⟩ more

-- A walk's reads, each the parent of the one before.
def leads (start : Option ι) : List (ι × Option ι) → Option ι → Prop
  | [],stop => start = stop
  | (unit,parent)::rest,stop => start = some unit ∧ leads parent rest stop

omit [DecidableEq ι] in
theorem leads_append {start : Option ι} {path : List (ι × Option ι)} {unit : ι} {parent : Option ι} (leading : leads start path (some unit)) :
    leads start (path ++ [(unit,parent)]) parent := by
  induction path generalizing start with
  | nil => exact ⟨leading,rfl⟩
  | cons read rest ih => exact ⟨leading.1,ih leading.2⟩

-- What the trigger has seen to: never the unit itself, and of the units the transaction wrote what it wrote last.
structure Walked (writes : List (Write ι)) (node : ι) (start : Option ι) (path : List (ι × Option ι)) (stop : Option ι) : Prop where
  leading : leads start path stop
  elsewhere : ∀ read ∈ path, read.1 ≠ node
  own : ∀ read ∈ path, ∀ parent, written writes read.1 = some parent → read.2 = parent
  short : path.length ≤ 64

def WritesChecked (writes : List (Write ι)) : Prop :=
  ∀ earlier write later, writes = earlier ++ write::later → Walked earlier write.node write.parent write.path none

def WalkChecked (writes : List (Write ι)) (walk : Walk ι) : Prop :=
  Walked writes walk.node walk.parent walk.path walk.walker ∧ walk.depth = walk.path.length

structure Checked (tx : Tx ι) : Prop where
  writes : WritesChecked tx.writes
  walk : ∀ walk, tx.walk = some walk → WalkChecked tx.writes walk

theorem writesChecked_append {writes : List (Write ι)} {write : Write ι} (checked : WritesChecked writes)
    (walked : Walked writes write.node write.parent write.path none) : WritesChecked (writes ++ [write]) := by
  intro earlier other later same
  rcases List.eq_nil_or_concat later with rfl | ⟨front,last,rfl⟩
  · obtain ⟨rfl,one⟩ := List.append_inj' same rfl
    cases List.singleton_inj.mp one
    exact walked
  · rw [List.concat_eq_append,← List.cons_append,← List.append_assoc] at same
    obtain ⟨rfl,_⟩ := List.append_inj' same rfl
    exact checked earlier other front rfl

theorem writesChecked_take {writes : List (Write ι)} (checked : WritesChecked writes) (kept : Nat) : WritesChecked (writes.take kept) := by
  intro earlier write later same
  refine checked earlier write (later ++ writes.drop kept) ?_
  rw [← List.cons_append,← List.append_assoc,← same,List.take_append_drop]

theorem fail_checked {tx : Tx ι} (checked : Checked tx) : Checked tx.fail :=
  ⟨checked.writes,fun _ wrong => (by cases wrong)⟩

theorem begun_checked (tx : Tx ι) (insert : Bool) (node : ι) (parent : Option ι) (checked : Checked tx) :
    Checked (zveltio_tenant_no_cycle tx insert node parent) := by
  unfold zveltio_tenant_no_cycle
  split
  · exact fail_checked checked
  · refine ⟨checked.writes,?_⟩
    intro walk same
    cases Option.some.inj same
    exact ⟨⟨rfl,fun _ wrong => (by cases wrong),fun _ wrong => (by cases wrong),Nat.zero_le _⟩,rfl⟩

theorem walkOn_checked {rows : ι → Option (Option ι)} {tx : Tx ι} {walk : Walk ι} (checked : Checked tx) (walking : tx.walk = some walk) :
    Checked (walkOn rows tx walk) := by
  obtain ⟨walked,depth⟩ := checked.walk walk walking
  unfold walkOn
  split
  · next stopped =>
    split
    · exact fail_checked checked
    · rw [stopped] at walked
      exact ⟨writesChecked_append checked.writes walked,fun _ wrong => (by cases wrong)⟩
  · next walker going =>
    split
    · exact fail_checked checked
    · next shallow =>
      split
      · exact fail_checked checked
      · next apart =>
        refine ⟨checked.writes,?_⟩
        intro next same
        cases Option.some.inj same
        rw [going] at walked
        refine ⟨⟨leads_append walked.leading,?_,?_,?_⟩,by simp [depth]⟩
        · intro read member
          rcases List.mem_append.mp member with old | new
          · exact walked.elsewhere read old
          · cases List.mem_singleton.mp new
            exact apart
        · intro read member parent found
          rcases List.mem_append.mp member with old | new
          · exact walked.own read old parent found
          · cases List.mem_singleton.mp new
            simp only [parentOf,view,found,Option.some_or,Option.join_some]
        · simp only [List.length_append,List.length_singleton]
          rw [← depth]
          exact Nat.not_lt.mp shallow

omit [DecidableEq ι] in
-- A walk to the root is as long as the chain above its start, as far as it read what that chain is made of.
theorem walk_covers {next : ι → Option ι} {start : Option ι} {path : List (ι × Option ι)} {levels : Nat} (leading : leads start path none)
    (agrees : ∀ read ∈ path, ∀ less < levels, start.bind (up next less) = some read.1 → read.2 = next read.1)
    (above : start.bind (up next levels) ≠ none) : levels < path.length := by
  induction path generalizing start levels with
  | nil =>
    rw [leading] at above
    exact absurd rfl above
  | cons read rest ih =>
    obtain ⟨unit,parent⟩ := read
    obtain ⟨rfl,later⟩ := leading
    cases levels with
    | zero => exact Nat.succ_pos _
    | succ levels =>
      have first : parent = next unit := agrees (unit,parent) (List.mem_cons_self ..) 0 (Nat.succ_pos _) rfl
      subst first
      refine Nat.succ_lt_succ (ih later ?_ above)
      intro read member less fewer reached
      exact agrees read (List.mem_cons_of_mem _ member) (less + 1) (Nat.succ_lt_succ fewer) reached

theorem unwritten_parent {rows : ι → Option (Option ι)} {writes : List (Write ι)} {x : ι} (unwritten : written writes x = none) :
    parentOf (view rows writes) x = parentOf rows x := by
  simp [parentOf,view,unwritten]

theorem read_agrees {rows : ι → Option (Option ι)} {earlier later : List (Write ι)} {write : Write ι} {read : ι × Option ι}
    (walked : Walked earlier write.node write.parent write.path none) (member : read ∈ write.path) (apart : ∀ other ∈ later, other.node ≠ read.1)
    (unchanged : ¬Changed rows (earlier ++ write::later) write read) : read.2 = parentOf (view rows (earlier ++ write::later)) read.1 := by
  cases found : written (earlier ++ write::later) read.1 with
  | some parent =>
    have before : written earlier read.1 = some parent := (written_earlier (Ne.symm (walked.elsewhere read member)) apart).symm.trans found
    simp only [parentOf,view,found,Option.some_or,Option.join_some]
    exact walked.own read member parent before
  | none =>
    rw [unwritten_parent found]
    by_contra moved
    exact unchanged ⟨member,found,Ne.symm moved⟩

theorem commit_acyclic {rows : ι → Option (Option ι)} {writes : List (Write ι)} (acyclic : Acyclic (parentOf rows)) (checked : WritesChecked writes)
    (clear : ∀ earlier write later, writes = earlier ++ write::later → (∀ other ∈ later, other.node ≠ write.node) →
      ∀ read, Changed rows writes write read → ∀ levels, up (parentOf (view rows writes)) levels read.1 ≠ some write.node) :
    Acyclic (parentOf (view rows writes)) := by
  intro levels x cycle
  by_cases there : ∃ write ∈ writes, ∃ less, up (parentOf (view rows writes)) less x = some write.node
  · obtain ⟨earlier,write,later,rfl,⟨less,reached⟩,after⟩ := last_write (fun unit => ∃ less, up (parentOf (view rows writes)) less x = some unit) there
    have last : ∀ other ∈ later, other.node ≠ write.node := fun other member same => after other member ⟨less,by rw [same]; exact reached⟩
    have walked := checked earlier write later rfl
    have parent : parentOf (view rows (earlier ++ write::later)) write.node = write.parent := by
      simp [parentOf,view,written_last last]
    have onward : ∀ more, up (parentOf (view rows (earlier ++ write::later))) (less + more) x =
        up (parentOf (view rows (earlier ++ write::later))) more write.node := by
      intro more
      rw [up_add,reached]
      rfl
    -- The way around never ends, and the walk ended.
    have endless : write.parent.bind (up (parentOf (view rows (earlier ++ write::later))) write.path.length) ≠ none := by
      have around := cycle_repeats cycle (less + (write.path.length + 1))
      obtain ⟨between,same,_⟩ := up_below around (Nat.le_mul_of_pos_right _ (Nat.succ_pos levels))
      rw [onward] at same
      simp only [up,parent] at same
      simp [same]
    refine absurd (walk_covers walked.leading ?_ endless) (Nat.lt_irrefl _)
    intro read member more _ found
    have here : up (parentOf (view rows (earlier ++ write::later))) (less + (more + 1)) x = some read.1 := by
      rw [onward]
      simp only [up,parent]
      exact found
    refine read_agrees walked member (fun other there same => after other there ⟨_,by rw [same]; exact here⟩) ?_
    intro changed
    obtain ⟨back,home⟩ := cycle_returns cycle here
    refine clear earlier write later rfl last read changed (back + less) ?_
    rw [up_add,home]
    exact reached
  · refine acyclic levels x ?_
    rw [← cycle]
    refine (up_congr fun less fewer between reached => ?_).symm
    refine unwritten_parent (written_none fun write member same => there ⟨write,member,less,?_⟩)
    rw [same]
    exact reached

theorem commit_bounded {rows : ι → Option (Option ι)} {writes : List (Write ι)} (bounded : Bounded (parentOf rows) 64) (checked : WritesChecked writes)
    (shallow : ∀ earlier write later, writes = earlier ++ write::later → (∀ other ∈ later, other.node ≠ write.node) →
      ∀ levels x, levels ≤ 64 → up (parentOf (view rows writes)) levels x = some write.node →
        (0 < levels ∨ ∃ read, Changed rows writes write read) → up (parentOf (view rows writes)) (65 - levels) write.node = none) :
    Bounded (parentOf (view rows writes)) 64 := by
  intro x
  by_contra deep
  obtain ⟨y,far⟩ := Option.ne_none_iff_exists'.mp deep
  by_cases there : ∃ write ∈ writes, ∃ less ≤ 64, up (parentOf (view rows writes)) less x = some write.node
  · obtain ⟨earlier,write,later,rfl,⟨less,fewer,reached⟩,after⟩ :=
      last_write (fun unit => ∃ less ≤ 64, up (parentOf (view rows writes)) less x = some unit) there
    have last : ∀ other ∈ later, other.node ≠ write.node := fun other member same => after other member ⟨less,fewer,by rw [same]; exact reached⟩
    have walked := checked earlier write later rfl
    by_cases apart : 0 < less ∨ ∃ read, Changed rows (earlier ++ write::later) write read
    · obtain ⟨between,same,rest⟩ := up_below far (Nat.le_succ_of_le fewer)
      cases reached.symm.trans same
      cases (shallow earlier write later rfl last less x fewer reached apart).symm.trans rest
    · -- A unit with nothing below it whose walk read what is there: its chain is the walk.
      simp only [not_or,Nat.not_lt,Nat.le_zero,not_exists] at apart
      obtain ⟨rfl,unchanged⟩ := apart
      cases Option.some.inj reached
      have parent : parentOf (view rows (earlier ++ write::later)) write.node = write.parent := by
        simp [parentOf,view,written_last last]
      have above : write.parent.bind (up (parentOf (view rows (earlier ++ write::later))) 64) = some y := by
        rw [← parent]
        exact far
      refine absurd (walk_covers walked.leading ?_ (Option.ne_none_iff_exists'.mpr ⟨y,above⟩)) (Nat.not_lt.mpr walked.short)
      intro read member more fewer found
      refine read_agrees walked member (fun other there same => after other there ⟨more + 1,fewer,?_⟩) (unchanged read)
      rw [same]
      simp only [up,parent]
      exact found
  · have same : up (parentOf (view rows writes)) 65 x = up (parentOf rows) 65 x := by
      refine up_congr fun less fewer between reached => ?_
      refine unwritten_parent (written_none fun write member same => there ⟨write,member,less,Nat.le_of_lt_succ fewer,?_⟩)
      rw [same]
      exact reached
    cases (bounded x).symm.trans (same.symm.trans far)

def Lists (all : List ι) (rows : ι → Option (Option ι)) : Prop := all.Nodup ∧ ∀ x, x ∈ all ↔ (rows x).isSome = true

structure Sound (state : State τ ι) : Prop where
  bounded : Bounded (parentOf state.rows) 64
  listed : ∃ all, Lists all state.rows
  checked : ∀ tx own, state.txs tx = some own → Checked own

theorem view_listed {rows : ι → Option (Option ι)} (writes : List (Write ι)) (listed : ∃ all, Lists all rows) : ∃ all, Lists all (view rows writes) := by
  obtain ⟨all,_,every⟩ := listed
  refine ⟨(all ++ writes.map Write.node).dedup,List.nodup_dedup _,fun x => ?_⟩
  simp only [List.mem_dedup,List.mem_append,List.mem_map,every,view,Option.isSome_or,Bool.or_eq_true,written_exact]
  exact or_comm

theorem update_checked {txs : τ → Option (Tx ι)} (checked : ∀ tx own, txs tx = some own → Checked own) (tx : τ) {next : Option (Tx ι)}
    (replaced : ∀ own, next = some own → Checked own) : ∀ other own, Function.update txs tx next other = some own → Checked own := by
  intro other own found
  by_cases same : other = tx
  · subst same
    rw [Function.update_self] at found
    exact replaced own found
  · rw [Function.update_of_ne same] at found
    exact checked other own found

theorem own_sound {state : State τ ι} {tx : τ} {next : Option (Tx ι)} (sound : Sound state) (replaced : ∀ own, next = some own → Checked own) :
    Sound {state with txs := Function.update state.txs tx next} :=
  ⟨sound.bounded,sound.listed,update_checked sound.checked tx replaced⟩

theorem one_checked {own : Tx ι} (checked : Checked own) : ∀ other, some own = some other → Checked other := by
  intro other same
  cases Option.some.inj same
  exact checked

theorem commit_sound {state : State τ ι} {tx : τ} {own : Tx ι} (sound : Sound state) (allowed : Permitted state (.commit tx))
    (found : state.txs tx = some own) : Sound ⟨view state.rows own.writes,Function.update state.txs tx none⟩ := by
  have checked := (sound.checked tx own found).writes
  have acyclic : Acyclic (parentOf (view state.rows own.writes)) := commit_acyclic (bounded_acyclic sound.bounded) checked
    fun earlier write later same last => (allowed own found earlier write later same last).1
  refine ⟨?_,view_listed own.writes sound.listed,update_checked sound.checked tx fun _ wrong => (by cases wrong)⟩
  exact commit_bounded sound.bounded checked fun earlier write later same last => (allowed own found earlier write later same last).2 acyclic

theorem sound_preserved : Preserved (step (τ := τ) (ι := ι)) Permitted Sound := by
  intro before action after sound allowed moved
  cases action with
  | begin tx =>
    simp only [step] at moved
    split at moved
    · cases Option.some.inj moved
      refine own_sound sound (one_checked ⟨?_,fun _ wrong => (by cases wrong)⟩)
      intro earlier write later wrong
      simp [Tx.begun] at wrong
    · cases moved
  | insert tx node parent =>
    obtain ⟨own,found,moved⟩ := Option.bind_eq_some_iff.mp moved
    split at moved
    · cases Option.some.inj moved
      exact own_sound sound (one_checked (begun_checked own true node parent (sound.checked tx own found)))
    · cases moved
  | update tx node parent =>
    obtain ⟨own,found,moved⟩ := Option.bind_eq_some_iff.mp moved
    split at moved
    · cases Option.some.inj moved
      exact own_sound sound (one_checked (begun_checked own false node parent (sound.checked tx own found)))
    · cases moved
  | walk tx =>
    obtain ⟨own,found,moved⟩ := Option.bind_eq_some_iff.mp moved
    obtain ⟨walk,walking,moved⟩ := Option.map_eq_some_iff.mp moved
    subst moved
    exact own_sound sound (one_checked (walkOn_checked (sound.checked tx own found) walking))
  | rollbackTo tx kept =>
    obtain ⟨own,found,moved⟩ := Option.bind_eq_some_iff.mp moved
    split at moved
    · cases Option.some.inj moved
      exact own_sound sound (one_checked ⟨writesChecked_take (sound.checked tx own found).writes kept,fun _ wrong => (by cases wrong)⟩)
    · cases moved
  | abort tx =>
    obtain ⟨own,found,moved⟩ := Option.map_eq_some_iff.mp moved
    subst moved
    exact own_sound sound fun _ wrong => (by cases wrong)
  | commit tx =>
    obtain ⟨own,found,moved⟩ := Option.bind_eq_some_iff.mp moved
    split at moved
    · cases Option.some.inj moved
      exact commit_sound sound allowed found
    · cases moved

omit [DecidableEq τ] in
theorem start_sound : Sound (State.start (τ := τ) (ι := ι)) := by
  refine ⟨fun _ => rfl,⟨[],List.nodup_nil,?_⟩,fun _ _ wrong => (by cases wrong)⟩
  simp [State.start]

omit [DecidableEq τ] in
theorem subtree_exact {state : State τ ι} {all : List ι} (sound : Sound state) (lists : Lists all state.rows) (root : ι) :
    (zveltio_tenant_subtree all state.rows root).Nodup ∧ ∀ x, x ∈ zveltio_tenant_subtree all state.rows root ↔
      (state.rows x).isSome = true ∧ (state.rows root).isSome = true ∧ ∃ levels, up (parentOf state.rows) levels x = some root := by
  have rooted : ∀ x, parentOf state.rows x ≠ none → x ∈ all := by
    intro x above
    refine (lists.2 x).mpr ?_
    cases row : state.rows x with
    | none => simp [parentOf,row] at above
    | some parent => rfl
  refine ⟨descendants_nodup rooted (bounded_acyclic sound.bounded) lists.1,fun x => ?_⟩
  rw [← lists.2 x,← lists.2 root]
  exact mem_descendants rooted sound.bounded x

theorem tree_kept {actions : List (Action τ ι)} {state : State τ ι} (path : run step .start actions = some state)
    (guarded : Guarded step Permitted .start actions) :
    Acyclic (parentOf state.rows) ∧ Bounded (parentOf state.rows) 64 ∧ (∃ all, Lists all state.rows) ∧
    ∀ all, Lists all state.rows → ∀ root, (zveltio_tenant_subtree all state.rows root).Nodup ∧
      ∀ x, x ∈ zveltio_tenant_subtree all state.rows root ↔
        (state.rows x).isSome = true ∧ (state.rows root).isSome = true ∧ ∃ levels, up (parentOf state.rows) levels x = some root := by
  have sound : Sound state := run_preserves sound_preserved start_sound guarded path
  exact ⟨bounded_acyclic sound.bounded,sound.bounded,sound.listed,fun _ lists root => subtree_exact sound lists root⟩

def planted : List (Action Nat Nat) := [.begin 0,.insert 0 1 none,.walk 0,.insert 0 2 (some 1),.walk 0,.walk 0,.commit 0]

def plantedWrites : List (Write Nat) := [⟨1,none,[]⟩,⟨2,some 1,[(1,none)]⟩]

theorem planted_view (y : Nat) : view (fun _ => none) plantedWrites y = if y = 2 then some (some 1) else if y = 1 then some none else none := by
  by_cases root : y = 1
  · subst root
    rfl
  · by_cases unit : y = 2
    · subst unit
      rfl
    · simp [view,plantedWrites,written,root,unit,Ne.symm root,Ne.symm unit]

theorem planted_guarded : Guarded step Permitted .start planted := by
  refine guarded_cons trivial rfl (guarded_cons trivial rfl (guarded_cons trivial rfl (guarded_cons trivial rfl (guarded_cons trivial rfl
    (guarded_cons trivial rfl (guarded_cons ?_ rfl trivial))))))
  intro own found earlier write later same last
  cases Option.some.inj found
  have member : write ∈ [⟨1,none,[]⟩,⟨2,some 1,[(1,none)]⟩] := by
    rw [show [⟨1,none,[]⟩,⟨2,some 1,[(1,none)]⟩] = earlier ++ write::later from same]
    simp
  have unchanged : ∀ read, ¬Changed (fun _ => none) [⟨1,none,[]⟩,⟨2,some 1,[(1,none)]⟩] write read := by
    rintro read ⟨came,unwritten,_⟩
    rcases List.mem_cons.mp member with rfl | second
    · cases came
    · cases List.mem_singleton.mp second
      cases List.mem_singleton.mp came
      cases unwritten
  refine ⟨fun read changed => absurd changed (unchanged read),?_⟩
  intro _ levels x shallow reached placed
  rcases List.mem_cons.mp member with rfl | second
  · obtain ⟨more,enough⟩ := Nat.exists_eq_add_of_le' (Nat.sub_pos_of_lt (Nat.lt_succ_of_le shallow))
    rw [enough]
    rfl
  · cases List.mem_singleton.mp second
    rcases placed with deep | ⟨read,changed⟩
    · obtain ⟨more,rfl⟩ := Nat.exists_eq_add_of_le' deep
      rw [up_add] at reached
      obtain ⟨between,_,under⟩ := Option.bind_eq_some_iff.mp reached
      rw [up_one] at under
      change (view (fun _ => none) plantedWrites between).join = some 2 at under
      rw [planted_view] at under
      split at under
      · cases under
      · split at under <;> cases under
    · exact absurd changed (unchanged read)

theorem planted_lists : Lists [1,2] (view (fun _ => none) plantedWrites) := by
  refine ⟨by decide,fun x => ?_⟩
  rw [planted_view]
  by_cases unit : x = 2
  · simp [unit]
  · by_cases root : x = 1 <;> simp [unit,root]

theorem tree_kept_planted : ∃ state : State Nat Nat, run step .start planted = some state ∧ Acyclic (parentOf state.rows) ∧
    2 ∈ zveltio_tenant_subtree [1,2] state.rows 1 :=
  ⟨_,rfl,(tree_kept rfl planted_guarded).1,(((tree_kept rfl planted_guarded).2.2.2 [1,2] planted_lists 1).2 2).mpr ⟨rfl,rfl,1,rfl⟩⟩

-- Two roots, and two transactions that each put one of them under the other.
theorem moves_cross : ∃ state : State Nat Nat, run step .start
    [.begin 0,.insert 0 1 none,.walk 0,.insert 0 2 none,.walk 0,.commit 0,.begin 1,.begin 2,.update 1 1 (some 2),.walk 1,.walk 1,
      .update 2 2 (some 1),.walk 2,.walk 2,.commit 1,.commit 2] = some state ∧ ¬Acyclic (parentOf state.rows) :=
  ⟨_,rfl,fun acyclic => acyclic 1 1 rfl⟩

end
end Zveltio.TenantTree
