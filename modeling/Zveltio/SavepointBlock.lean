import Zveltio.Runs
import Zveltio.Savepoints
namespace Zveltio.SavepointBlock
open Runs Savepoints

-- A block in progress: whether its SAVEPOINT went through, and what it was set on.
structure Block (ν : Type u) (σ : Type v) where
  name : ν
  guarded : Bool
  began : σ

inductive Ending where
  | value | onFailure | rejected
  deriving DecidableEq

section
variable {ν : Type u} {σ : Type v} [DecidableEq ν]

def enter (name : ν) (conn : Connection ν σ) : Block ν σ × Connection ν σ :=
  let set := savepoint name conn
  (⟨name,set.1,conn.now⟩,set.2)

def fallBack (block : Block ν σ) (conn : Connection ν σ) : Ending × Connection ν σ :=
  if block.guarded then
    let back := rollbackTo block.name conn
    (if back.1 then .onFailure else .rejected,back.2)
  else (.onFailure,conn)

-- A RELEASE that fails lands in the same catch as a body that rejects.
def leave (block : Block ν σ) (returned : Bool) (conn : Connection ν σ) : Ending × Connection ν σ :=
  if returned then
    if block.guarded then
      let released := release block.name conn
      if released.1 then (.value,released.2) else fallBack block released.2
    else (.value,conn)
  else fallBack block conn

-- exclusive lets one block at a time through at each level: what reaches the connection is
-- blocks inside blocks, and each statement belongs to the innermost one.
structure State (ν : Type u) (σ : Type v) where
  conn : Connection ν σ
  blocks : List (Block ν σ)

def State.start (now : σ) : State ν σ := ⟨Savepoints.start now,[]⟩

inductive Action (ν : Type u) (σ : Type v) where
  | enter (name : ν)
  | statement (effect : σ → Option σ)
  | leave (returned : Bool)

def step (state : State ν σ) : Action ν σ → Option (State ν σ)
  | .enter name =>
    let entered := enter name state.conn
    some ⟨entered.2,entered.1::state.blocks⟩
  | .statement effect => some { state with conn := (statement effect state.conn).2 }
  | .leave returned => match state.blocks with
    | [] => none
    | block::outer => some ⟨(leave block returned state.conn).2,outer⟩

def nestedStep (nested : Nested σ) : Action ν σ → Option (Nested σ)
  | .enter _ => some nested.open
  | .statement effect => some (nested.statement effect)
  | .leave returned => nested.close returned

-- A block starts on a usable transaction, and when one falls back the newest savepoint of its name was set on what its own was.
def Permitted (state : State ν σ) : Action ν σ → Prop
  | .enter _ => state.conn.aborted = false
  | .statement _ => True
  | .leave returned => returned = true ∧ state.conn.aborted = false ∨
      ∀ block outer, state.blocks = block::outer → (newest block.name state.conn.stack).head?.map Prod.snd = some block.began

-- Under the savepoints of the open blocks only what ended blocks left.
def Carries : List (Block ν σ) → List (ν × σ) → Prop
  | [],_ => True
  | block::outer,stack =>
    if block.guarded then ∃ left below, stack = left ++ (block.name,block.began)::below ∧ Carries outer below else Carries outer stack

omit [DecidableEq ν] in
theorem carries_over {blocks : List (Block ν σ)} {below stack : List (ν × σ)} (carries : Carries blocks below) (suffix : below <:+ stack) : Carries blocks stack := by
  induction blocks with
  | nil => trivial
  | cons block outer ih =>
    unfold Carries at carries ⊢
    split
    · next guarded =>
      rw [if_pos guarded] at carries
      obtain ⟨left,under,shape,later⟩ := carries
      obtain ⟨front,same⟩ := suffix
      exact ⟨front ++ left,under,by rw [← same,shape,List.append_assoc],later⟩
    · next unguarded =>
      rw [if_neg unguarded] at carries
      exact ih carries

-- The transaction is what the nested ones are meant to be.
structure Meant (state : State ν σ) (nested : Nested σ) : Prop where
  carries : Carries state.blocks state.conn.stack
  guards : ∀ block ∈ state.blocks, block.guarded = true
  now : nested.now = state.conn.now
  outer : nested.outer = state.blocks.map Block.began
  aborted : nested.aborted = state.conn.aborted

theorem leave_exact {block : Block ν σ} {outer : List (Block ν σ)} {conn : Connection ν σ} (returned : Bool) (carries : Carries (block::outer) conn.stack)
    (guarded : block.guarded = true) :
    (returned = true ∧ conn.aborted = false →
      (leave block returned conn).1 = .value ∧ (leave block returned conn).2.now = conn.now) ∧
    (¬ (returned = true ∧ conn.aborted = false) → (leave block returned conn).1 = .onFailure ∧
      (newest block.name conn.stack).head?.map Prod.snd = some (leave block returned conn).2.now) ∧
    (leave block returned conn).2.aborted = false ∧ Carries outer (leave block returned conn).2.stack := by
  unfold Carries at carries
  rw [if_pos guarded] at carries
  obtain ⟨left,below,shape,later⟩ := carries
  obtain ⟨entry,rest,found,under⟩ := newest_some block.name left below block.began
  rw [← shape] at found
  have back {other : Connection ν σ} (same : other.stack = conn.stack) :
      fallBack block other = (.onFailure,⟨entry.2,entry::rest,false⟩) := by
    simp only [fallBack,rollbackTo,guarded,same,found,if_true]
  have stacked : Carries outer (entry::rest) := carries_over later (under.trans (List.suffix_cons _ _))
  cases returned with
  | false =>
    have failed : leave block false conn = (.onFailure,⟨entry.2,entry::rest,false⟩) := back rfl
    rw [failed,found]
    exact ⟨fun wrong => absurd wrong.1 (by decide),fun _ => ⟨rfl,rfl⟩,rfl,stacked⟩
  | true =>
    cases aborted : conn.aborted with
    | true =>
      have failed : leave block true conn = (.onFailure,⟨entry.2,entry::rest,false⟩) := by
        simp only [leave,release,guarded,aborted,if_true,Bool.false_eq_true,if_false,back rfl]
      rw [failed,found]
      exact ⟨fun wrong => absurd wrong.2 (by decide),fun _ => ⟨rfl,rfl⟩,rfl,stacked⟩
    | false =>
      have kept : leave block true conn = (.value,{ conn with stack := rest }) := by
        simp only [leave,release,guarded,aborted,found,if_true,Bool.false_eq_true,if_false]
      rw [kept]
      exact ⟨fun _ => ⟨rfl,rfl⟩,fun wrong => absurd ⟨rfl,rfl⟩ wrong,aborted,carries_over later under⟩

omit [DecidableEq ν] in
theorem start_meant (now : σ) : Meant (State.start now : State ν σ) ⟨now,[],false⟩ := ⟨trivial,fun _ member => absurd member List.not_mem_nil,rfl,rfl,rfl⟩

theorem step_meant {state after : State ν σ} {nested : Nested σ} (meant : Meant state nested) (allowed : Permitted state action) (moved : step state action = some after) :
    ∃ next, nestedStep nested action = some next ∧ Meant after next := by
  obtain ⟨carries,guards,now,outer,aborted⟩ := meant
  cases action with
  | enter name =>
    cases Option.some.inj moved
    have usable : state.conn.aborted = false := allowed
    refine ⟨nested.open,rfl,?_,?_,?_,?_,?_⟩
    · simp only [enter,savepoint,usable,Bool.false_eq_true,if_false,Carries,if_true]
      exact ⟨[],state.conn.stack,rfl,carries⟩
    · simp only [enter,savepoint,usable,Bool.false_eq_true,if_false]
      exact List.forall_mem_cons.mpr ⟨rfl,guards⟩
    · simp only [enter,savepoint,usable,Bool.false_eq_true,if_false]
      exact now
    · simp only [enter,Nested.open,List.map_cons,now,outer]
    · simp only [enter,savepoint,usable,Bool.false_eq_true,if_false]
      exact aborted.trans usable
  | statement effect =>
    cases Option.some.inj moved
    refine ⟨nested.statement effect,rfl,?_⟩
    cases broken : state.conn.aborted with
    | true =>
      have still : (statement effect state.conn).2 = state.conn := by simp only [statement,broken,if_true]
      have kept : nested.statement effect = nested := if_pos (aborted.trans broken)
      rw [still,kept]
      exact ⟨carries,guards,now,outer,aborted⟩
    | false =>
      have ready : nested.aborted = false := aborted.trans broken
      cases ran : effect state.conn.now with
      | none =>
        have failed : (statement effect state.conn).2 = { state.conn with aborted := true } := by
          simp only [statement,broken,ran,Bool.false_eq_true,if_false]
        have lost : nested.statement effect = { nested with aborted := true } := by
          simp only [Nested.statement,ready,now,ran,Bool.false_eq_true,if_false]
        rw [failed,lost]
        exact ⟨carries,guards,now,outer,rfl⟩
      | some next =>
        have done : (statement effect state.conn).2 = { state.conn with now := next } := by
          simp only [statement,broken,ran,Bool.false_eq_true,if_false]
        have made : nested.statement effect = { nested with now := next } := by
          simp only [Nested.statement,ready,now,ran,Bool.false_eq_true,if_false]
        rw [done,made]
        exact ⟨carries,guards,rfl,outer,aborted⟩
  | leave returned =>
    simp only [step] at moved
    split at moved
    · cases moved
    · next block rest blocks =>
      cases Option.some.inj moved
      rw [blocks] at carries outer guards
      obtain ⟨own,around⟩ := List.forall_mem_cons.mp guards
      obtain ⟨kept,undone,usable,later⟩ := leave_exact returned carries own
      refine ⟨⟨if returned && !nested.aborted then nested.now else block.began,rest.map Block.began,false⟩,?_,later,around,?_,rfl,usable.symm⟩
      · simp only [nestedStep,Nested.close,outer,List.map_cons]
      · by_cases success : returned = true ∧ state.conn.aborted = false
        · rw [(kept success).2,success.1,aborted,success.2]
          exact now
        · have began := (allowed.resolve_left success) block rest blocks
          rw [(undone success).2] at began
          rw [Option.some.inj began,aborted]
          exact if_neg fun both => success (by simpa using both)

theorem run_meant {state after : State ν σ} {nested : Nested σ} (meant : Meant state nested) (guarded : Guarded step Permitted state actions)
    (path : run step state actions = some after) : ∃ next, run nestedStep nested actions = some next ∧ Meant after next := by
  induction actions generalizing state nested with
  | nil =>
    cases Option.some.inj path
    exact ⟨nested,rfl,meant⟩
  | cons action rest ih =>
    obtain ⟨middle,one,later⟩ := run_cons.mp path
    obtain ⟨next,moved,still⟩ := step_meant meant guarded.1 one
    obtain ⟨last,reached,meant⟩ := ih still (guarded.2 middle one) later
    exact ⟨last,run_cons.mpr ⟨next,moved,reached⟩,meant⟩

-- The blocks are the transactions inside one another they are meant to be, and a block ends right exactly when its step is permitted.
theorem blocks_exact {now : σ} {state : State ν σ} (guarded : Guarded step Permitted (State.start now) actions)
    (path : run step (State.start now) actions = some state) :
    (∃ nested, run nestedStep ⟨now,[],false⟩ actions = some nested ∧ nested.now = state.conn.now ∧ nested.outer = state.blocks.map Block.began ∧
      nested.aborted = state.conn.aborted) ∧
    ∀ block outer returned, state.blocks = block::outer →
      (((leave block returned state.conn).1 = .value ∧ (leave block returned state.conn).2.now = state.conn.now ∨
        (leave block returned state.conn).1 = .onFailure ∧ (leave block returned state.conn).2.now = block.began) ∧
        (leave block returned state.conn).2.aborted = false ↔ Permitted state (.leave returned)) := by
  obtain ⟨nested,reached,meant⟩ := run_meant (start_meant now) guarded path
  refine ⟨⟨nested,reached,meant.now,meant.outer,meant.aborted⟩,fun block outer returned blocks => ?_⟩
  have carries := meant.carries
  rw [blocks] at carries
  obtain ⟨kept,undone,usable,later⟩ := leave_exact returned carries (meant.guards block (by rw [blocks]; exact List.mem_cons_self ..))
  by_cases success : returned = true ∧ state.conn.aborted = false
  · exact iff_of_true ⟨.inl (kept success),usable⟩ (.inl success)
  · obtain ⟨ending,newest⟩ := undone success
    constructor
    · intro right
      refine .inr fun other rest same => ?_
      cases blocks.symm.trans same
      rcases right.1 with wrong | back
      · rw [ending] at wrong
        cases wrong.1
      · rw [newest,back.2]
    · intro allowed
      have began := (allowed.resolve_left success) block outer blocks
      rw [newest] at began
      exact ⟨.inr ⟨ending,Option.some.inj began⟩,usable⟩

end

def apart : List (Action String Nat) :=
  [.enter "outer",.statement fun rows => some (rows + 1),.enter "inner",.statement fun rows => some (rows + 10),.statement fun _ => none,.leave false,
    .statement fun rows => some (rows + 1),.leave true]

theorem blocks_exact_apart : ∃ state nested, run step (State.start 0) apart = some state ∧ run nestedStep ⟨0,[],false⟩ apart = some nested ∧
    state.conn.now = 2 ∧ nested.now = 2 := by
  have guarded : Guarded step Permitted (State.start 0) apart := by
    refine guarded_cons (show Permitted _ (.enter "outer") from rfl) rfl ?_
    refine guarded_cons (show Permitted _ (.statement _) from trivial) rfl ?_
    refine guarded_cons (show Permitted _ (.enter "inner") from rfl) rfl ?_
    refine guarded_cons (show Permitted _ (.statement _) from trivial) rfl ?_
    refine guarded_cons (show Permitted _ (.statement _) from trivial) rfl ?_
    refine guarded_cons (show Permitted _ (.leave false) from .inr fun block outer same => by cases same; rfl) rfl ?_
    refine guarded_cons (show Permitted _ (.statement _) from trivial) rfl ?_
    refine guarded_cons (show Permitted _ (.leave true) from .inl ⟨rfl,rfl⟩) rfl ?_
    trivial
  obtain ⟨nested,reached,now,_⟩ := (blocks_exact guarded rfl).1
  exact ⟨_,nested,rfl,reached,rfl,now⟩

-- A block of another's name fails inside it, then the outer one: its row stays.
theorem same_name_kept : ∃ state block, run step (State.start 0) [.enter "s",.statement fun rows => some (rows + 1),.enter "s",.leave false] = some state ∧
    state.blocks = [block] ∧ block.began = 0 ∧ state.conn.aborted = false ∧
    (leave block false state.conn).1 = .onFailure ∧ (leave block false state.conn).2.now = 1 := ⟨_,_,rfl,rfl,rfl,rfl,rfl,rfl⟩

end Zveltio.SavepointBlock
