import Zveltio.Runs
import Mathlib.Algebra.Ring.Nat
import Mathlib.Data.List.Infix
import Mathlib.Data.Nat.Find
namespace Zveltio.Turns
open Runs

-- A level goes by the scopes around it, the innermost first: its parent is the rest of the list, the root is empty.
abbrev Level := List Nat

inductive Outcome where
  | fulfilled | rejected
  deriving DecidableEq

-- A queued item's way: its callback runs, its promise settles, a scope's finally closes the level, the queued promise settles.
-- A callback that throws before it returns a promise never gets its finally.
inductive Phase where
  | waiting
  | running
  | ended (outcome : Outcome)
  | closed (outcome : Outcome)
  | settled (outcome : Outcome)
  | thrown
  deriving DecidableEq

def Phase.done : Phase → Bool
  | .settled _ | .thrown => true
  | _ => false

def Phase.left : Phase → Bool
  | .closed _ | .settled _ => true
  | _ => false

-- after is the item whose caught promise was the level's tail when this one was queued.
structure Item where
  level : Level
  exclusive : Bool
  after : Option Nat
  phase : Phase
  deriving DecidableEq

-- Items go by their place in the order of issue; awaited pairs a callback with an item it waits for.
structure State where
  items : List Item
  awaited : List (Nat × Nat)
  deriving DecidableEq

def State.empty : State := ⟨[],[]⟩

def State.item (state : State) (number : Nat) : Option Item := state.items[number]?

def State.phase (state : State) (number : Nat) : Option Phase := (state.item number).map Item.phase

def State.done (state : State) (number : Nat) : Bool := (state.phase number).elim false Phase.done

-- The innermost scope still open of the context's.
def State.level (state : State) : Level → Level
  | [] => []
  | scope::outer => if (state.phase scope).elim false Phase.left then state.level outer else scope::outer

def lastAt (level : Level) : Nat → List Item → Option Nat
  | _,[] => none
  | number,item::rest => (lastAt level (number + 1) rest).or (if item.level = level then some number else none)

def State.tail (state : State) (level : Level) : Option Nat := lastAt level 0 state.items

-- A context is the root's or that of a scope whose callback has begun; its code may go on after the callback.
def State.entered (state : State) : Level → Bool
  | [] => true
  | scope::outer => match state.item scope with
    | some item => item.exclusive && item.level = outer && item.phase ≠ .waiting
    | none => false

def State.become (state : State) (item : Nat) (phase : Phase) : State :=
  { state with items := state.items.modify item fun old => { old with phase := phase } }

inductive Action where
  | issue (context : Level) (exclusive : Bool)
  | await (item other : Nat)
  | start (item : Nat)
  | finish (item : Nat) (outcome : Outcome)
  | throw (item : Nat)
  | close (item : Nat)
  | settle (item : Nat)
  deriving DecidableEq

def step (state : State) : Action → Option State
  | .issue context exclusive =>
    if state.entered context then
      let level := state.level context
      some { state with items := state.items ++ [⟨level,exclusive,state.tail level,.waiting⟩] }
    else none
  | .await item other =>
    if state.phase item = some .running && other < state.items.length then some { state with awaited := state.awaited ++ [(item,other)] } else none
  -- tail.then(run): the tail is a caught promise, so it is fulfilled whichever way the item before went.
  | .start item => (state.item item).bind fun it =>
    if it.phase = .waiting && it.after.elim true state.done then some (state.become item .running) else none
  | .finish item outcome => (state.item item).bind fun it =>
    if it.phase = .running && state.awaited.all fun pair => pair.1 ≠ item || state.done pair.2 then some (state.become item (.ended outcome)) else none
  | .throw item => (state.item item).bind fun it =>
    if it.phase = .running && state.awaited.all fun pair => pair.1 ≠ item then some (state.become item .thrown) else none
  | .close item => (state.item item).bind fun it =>
    match it.exclusive,it.phase with
    | true,.ended outcome => some (state.become item (.closed outcome))
    | _,_ => none
  | .settle item => (state.item item).bind fun it =>
    match it.exclusive,it.phase with
    | false,.ended outcome | _,.closed outcome => some (state.become item (.settled outcome))
    | _,_ => none

def Action.internal : Action → Bool
  | .issue _ _ | .await _ _ => false
  | _ => true

-- What is queued at a scope's level is over when its callback is, nothing joins it there before the level closes,
-- and a callback awaits only what is inside every scope around it that was issued before the awaited item.
def Permitted (state : State) : Action → Prop
  | .issue context _ => ∀ scope outer, state.level context = scope::outer → state.phase scope = some .running
  | .await item other => ∀ it awaited, state.item item = some it → state.item other = some awaited →
      ∀ around ∈ item::it.level, around ∈ awaited.level ∨ other < around
  | .finish item _ | .throw item => ∀ it other inner, state.item item = some it → state.item other = some inner →
      inner.level = item::it.level → inner.phase.done = true
  | _ => True

section
variable {state : State} {item : Nat} {it : Item} {level : Level}

theorem phase_some : state.phase item = some phase ↔ ∃ it, state.item item = some it ∧ it.phase = phase := Option.map_eq_some_iff

theorem done_iff : state.done item = true ↔ ∃ it, state.item item = some it ∧ it.phase.done = true := by
  unfold State.done State.phase
  cases state.item item with
  | none => simp
  | some it => simp

theorem item_become (other : Nat) :
    (state.become item phase).item other = (state.item other).map fun old => if item = other then { old with phase := phase } else old := by
  rw [State.item,State.become,List.getElem?_modify]
  rfl

theorem become_self (found : state.item item = some it) : (state.become item phase).item item = some { it with phase := phase } := by
  rw [item_become,found,Option.map_some,if_pos rfl]

theorem become_other (apart : item ≠ other) : (state.become item phase).item other = state.item other := by
  rw [item_become]
  simp only [if_neg apart]
  exact Option.map_id'

theorem become_back (found : (state.become item phase).item other = some it) : ∃ old, state.item other = some old ∧ it.level = old.level ∧
    it.exclusive = old.exclusive ∧ it.after = old.after ∧ (item ≠ other → it = old) ∧ (item = other → it.phase = phase) := by
  rw [item_become] at found
  obtain ⟨old,there,same⟩ := Option.map_eq_some_iff.mp found
  refine ⟨old,there,?_⟩
  subst same
  split
  · next same => exact ⟨rfl,rfl,rfl,fun apart => absurd same apart,fun _ => rfl⟩
  · next apart => exact ⟨rfl,rfl,rfl,fun _ => rfl,fun same => absurd same apart⟩

theorem become_become : (state.become item first).become item second = state.become item second := by
  unfold State.become
  rw [List.modify_modify_eq]
  rfl

theorem start_exact : step state (.start item) = some after ↔
    ∃ it, state.item item = some it ∧ it.phase = .waiting ∧ it.after.elim true state.done = true ∧ after = state.become item .running := by
  simp only [step,Option.bind_eq_some_iff]
  refine exists_congr fun it => and_congr_right fun _ => ?_
  by_cases ready : it.phase = .waiting ∧ it.after.elim true state.done = true
  · rw [if_pos (Bool.and_eq_true_iff.mpr ⟨decide_eq_true ready.1,ready.2⟩),Option.some.injEq,eq_comm]
    exact ⟨fun same => ⟨ready.1,ready.2,same⟩,fun moved => moved.2.2⟩
  · rw [if_neg fun allowed => ready ⟨of_decide_eq_true (Bool.and_eq_true_iff.mp allowed).1,(Bool.and_eq_true_iff.mp allowed).2⟩]
    exact ⟨fun wrong => (by cases wrong),fun moved => absurd ⟨moved.1,moved.2.1⟩ ready⟩

theorem finish_exact (unawaited : state.awaited = []) : step state (.finish item outcome) = some after ↔
    ∃ it, state.item item = some it ∧ it.phase = .running ∧ after = state.become item (.ended outcome) := by
  simp only [step,Option.bind_eq_some_iff,unawaited,List.all_nil,Bool.and_true,decide_eq_true_eq]
  refine exists_congr fun it => and_congr_right fun _ => ?_
  split
  · next running => rw [Option.some.injEq,eq_comm,and_iff_right running]
  · next other => exact ⟨fun wrong => (by cases wrong),fun moved => absurd moved.1 other⟩

theorem settle_exact : step state (.settle item) = some after ↔ ∃ it outcome, state.item item = some it ∧
    (it.phase = .closed outcome ∨ it.exclusive = false ∧ it.phase = .ended outcome) ∧ after = state.become item (.settled outcome) := by
  simp only [step,Option.bind_eq_some_iff]
  refine exists_congr fun it => ?_
  obtain ⟨level,exclusive,last,phase⟩ := it
  cases exclusive <;> cases phase <;> simp [eq_comm]

theorem issue_exact : step state (.issue context exclusive) = some after ↔ state.entered context = true ∧
    after = { state with items := state.items ++ [⟨state.level context,exclusive,state.tail (state.level context),.waiting⟩] } := by
  simp only [step]
  split
  · next entered => rw [Option.some.injEq,eq_comm,and_iff_right entered]
  · next other => exact ⟨fun wrong => (by cases wrong),fun moved => absurd moved.1 other⟩

theorem turn_exact (unawaited : state.awaited = []) :
    ((step state (.start item)).bind fun started => (step started (.finish item outcome)).bind fun ended => step ended (.settle item)) = some after ↔
    ∃ it, state.item item = some it ∧ it.phase = .waiting ∧ it.after.elim true state.done = true ∧ it.exclusive = false ∧
      after = state.become item (.settled outcome) := by
  simp only [Option.bind_eq_some_iff,start_exact]
  constructor
  · rintro ⟨started,⟨it,found,waits,ready,same⟩,ended,finished,settled⟩
    subst same
    obtain ⟨second,there,_,same⟩ := (finish_exact (show (state.become item .running).awaited = [] from unawaited)).mp finished
    subst same
    rw [become_become] at settled
    obtain ⟨third,other,here,phase,same⟩ := settle_exact.mp settled
    rw [become_self found] at here
    cases here
    rcases phase with wrong | ⟨single,phase⟩
    · cases wrong
    · cases phase
      exact ⟨it,found,waits,ready,single,by rw [same,become_become]⟩
  · rintro ⟨it,found,waits,ready,single,same⟩
    refine ⟨_,⟨it,found,waits,ready,rfl⟩,_,(finish_exact (show (state.become item .running).awaited = [] from unawaited)).mpr ⟨_,become_self found,rfl,rfl⟩,?_⟩
    rw [become_become]
    exact settle_exact.mpr ⟨_,outcome,become_self found,.inr ⟨single,rfl⟩,by rw [same,become_become]⟩

theorem leave_exact (unawaited : state.awaited = []) :
    ((step state (.finish item outcome)).bind fun ended => (step ended (.close item)).bind fun closed => step closed (.settle item)) = some after ↔
    ∃ it, state.item item = some it ∧ it.phase = .running ∧ it.exclusive = true ∧ after = state.become item (.settled outcome) := by
  simp only [Option.bind_eq_some_iff,finish_exact unawaited]
  constructor
  · rintro ⟨ended,⟨it,found,running,same⟩,closed,closes,settled⟩
    subst same
    simp only [step,become_self found,Option.bind_some] at closes
    cases exclusive : it.exclusive with
    | false =>
      rw [exclusive] at closes
      cases closes
    | true =>
      rw [exclusive] at closes
      cases Option.some.inj closes
      rw [become_become] at settled
      obtain ⟨third,other,here,phase,same⟩ := settle_exact.mp settled
      rw [become_self found] at here
      cases here
      rcases phase with phase | ⟨_,wrong⟩
      · cases phase
        exact ⟨it,found,running,exclusive,by rw [same,become_become]⟩
      · cases wrong
  · rintro ⟨it,found,running,exclusive,same⟩
    refine ⟨_,⟨it,found,running,rfl⟩,state.become item (.closed outcome),?_,?_⟩
    · simp only [step,become_self found,Option.bind_some,exclusive,become_become]
    · exact settle_exact.mpr ⟨_,outcome,become_self found,.inl rfl,by rw [same,become_become]⟩

structure Sound (state : State) : Prop where
  placed : ∀ item it scope outer, state.item item = some it → it.level = scope::outer → scope < item ∧
    ∃ around, state.item scope = some around ∧ around.level = outer ∧ around.exclusive = true ∧ around.phase ≠ .waiting
  follows : ∀ item it last, state.item item = some it → it.after = some last → last < item ∧ ∃ before, state.item last = some before ∧ before.level = it.level
  latest : ∀ item it other before, state.item item = some it → state.item other = some before → other < item → before.level = it.level →
    ∃ last, it.after = some last ∧ other ≤ last
  ordered : ∀ one two first second, state.item one = some first → state.item two = some second → one < two → first.level = second.level →
    second.phase ≠ .waiting → first.phase.done = true
  within : ∀ item it, state.item item = some it → it.phase.done = false → ∀ around ∈ it.level, state.phase around = some .running
  awaits : ∀ item other, (item,other) ∈ state.awaited → ∃ it awaited, state.item item = some it ∧ state.item other = some awaited ∧
    ∀ around ∈ item::it.level, around ∈ awaited.level ∨ other < around

theorem done_began {phase : Phase} (done : phase.done = true) : phase ≠ .waiting := by
  intro same
  rw [same] at done
  cases done

theorem become_sound (sound : Sound state) (found : state.item item = some it) (undone : it.phase.done = false) (begins : phase ≠ .waiting)
    (turn : it.phase = .waiting → ∀ other before, state.item other = some before → other < item → before.level = it.level → before.phase.done = true)
    (emptied : phase = .running ∨ ∀ other inner, state.item other = some inner → item ∈ inner.level → inner.phase.done = true) :
    Sound (state.become item phase) := by
  have kept {other : Nat} {old : Item} (there : state.item other = some old) : ∃ now, (state.become item phase).item other = some now ∧
      now.level = old.level ∧ now.exclusive = old.exclusive ∧ (old.phase ≠ .waiting → now.phase ≠ .waiting) ∧ (item ≠ other → now = old) := by
    by_cases same : item = other
    · subst same
      exact ⟨_,become_self there,rfl,rfl,fun _ => begins,fun wrong => absurd rfl wrong⟩
    · exact ⟨old,(become_other same).trans there,rfl,rfl,fun began => began,fun _ => rfl⟩
  refine ⟨fun other now scope outer there inside => ?_,fun other now last there equal => ?_,fun other now first before there earlier less same => ?_,
    fun one two first second there next less same began => ?_,fun other now there left around inside => ?_,fun one two member => ?_⟩
  · obtain ⟨old,before,level,_⟩ := become_back there
    obtain ⟨less,around,place,outside,exclusive,started⟩ := sound.placed other old scope outer before (level.symm.trans inside)
    obtain ⟨later,held,level,still,began,_⟩ := kept place
    exact ⟨less,later,held,level.trans outside,still.trans exclusive,began started⟩
  · obtain ⟨old,before,level,_,after,_⟩ := become_back there
    obtain ⟨less,first,place,beside⟩ := sound.follows other old last before (after.symm.trans equal)
    obtain ⟨later,held,same,_⟩ := kept place
    exact ⟨less,later,held,by rw [same,beside,level]⟩
  · obtain ⟨old,place,level,_,after,_⟩ := become_back there
    obtain ⟨older,placed,beside,_⟩ := become_back earlier
    rw [after]
    exact sound.latest other old first older place placed less (by rw [← beside,same,level])
  · obtain ⟨old,place,level,_,_,still,moved⟩ := become_back there
    obtain ⟨older,placed,beside,_,_,rest,changed⟩ := become_back next
    have together : old.level = older.level := by rw [← level,same,beside]
    by_cases mine : item = one
    · subst mine
      have apart : item ≠ two := by omega
      rw [rest apart] at began
      have wrong := sound.ordered item two old older place placed less together began
      cases Option.some.inj (place.symm.trans found)
      rw [undone] at wrong
      cases wrong
    · rw [still mine]
      by_cases yours : item = two
      · subst yours
        cases Option.some.inj (placed.symm.trans found)
        by_cases waits : it.phase = .waiting
        · exact turn waits one old place less together
        · exact sound.ordered one item old it place placed less together waits
      · rw [rest yours] at began
        exact sound.ordered one two old older place placed less together began
  · obtain ⟨old,place,level,_,_,still,moved⟩ := become_back there
    have open_before : old.phase.done = false := by
      by_cases same : item = other
      · subst same
        cases Option.some.inj (place.symm.trans found)
        exact undone
      · rw [← still same]
        exact left
    rw [level] at inside
    have running := sound.within other old place open_before around inside
    by_cases same : item = around
    · subst same
      rcases emptied with goes | finished
      · rw [State.phase,become_self found,goes]
        rfl
      · have wrong := finished other old place inside
        rw [open_before] at wrong
        cases wrong
    · rw [State.phase,become_other same]
      exact running
  · obtain ⟨old,awaited,place,held,condition⟩ := sound.awaits one two member
    obtain ⟨first,here,level,_⟩ := kept place
    obtain ⟨second,there,beside,_⟩ := kept held
    refine ⟨first,second,here,there,?_⟩
    rw [level,beside]
    exact condition

theorem turn_before (sound : Sound state) (found : state.item item = some it) (ready : it.after.elim true state.done = true) (other : Nat) (before : Item)
    (earlier : state.item other = some before) (less : other < item) (same : before.level = it.level) : before.phase.done = true := by
  obtain ⟨last,equal,above⟩ := sound.latest item it other before found earlier less same
  obtain ⟨_,final,place,beside⟩ := sound.follows item it last found equal
  rw [equal] at ready
  obtain ⟨held,there,done⟩ := done_iff.mp ready
  cases Option.some.inj (place.symm.trans there)
  rcases Nat.lt_or_eq_of_le above with less | equal
  · exact sound.ordered other last before final earlier place less (same.trans beside.symm) (done_began done)
  · subst equal
    cases Option.some.inj (place.symm.trans earlier)
    exact done

theorem path_split (sound : Sound state) (found : state.item item = some it) (split : it.level = before ++ scope::outer) :
    scope < item ∧ ∃ around, state.item scope = some around ∧ around.level = outer ∧ around.exclusive = true ∧ around.phase ≠ .waiting := by
  induction before generalizing item it with
  | nil => exact sound.placed item it scope outer found split
  | cons first rest ih =>
    obtain ⟨less,around,place,level,_⟩ := sound.placed item it first _ found split
    obtain ⟨smaller,inside⟩ := ih place level
    exact ⟨smaller.trans less,inside⟩

theorem path_level (sound : Sound state) (found : state.item item = some it) (inside : scope ∈ it.level) (held : state.item scope = some around) :
    scope < item ∧ scope::around.level <:+ it.level := by
  obtain ⟨before,outer,split⟩ := List.append_of_mem inside
  obtain ⟨less,other,place,level,_⟩ := path_split sound found split
  cases Option.some.inj (place.symm.trans held)
  exact ⟨less,before,by rw [split,level]⟩

theorem inside_done (sound : Sound state) (found : state.item item = some it)
    (emptied : ∀ other inner, state.item other = some inner → inner.level = item::it.level → inner.phase.done = true) (other : Nat) (inner : Item)
    (there : state.item other = some inner) (inside : item ∈ inner.level) : inner.phase.done = true := by
  by_contra left
  rw [Bool.not_eq_true] at left
  obtain ⟨_,before,split⟩ := path_level sound there inside found
  rcases List.eq_nil_or_concat before with rfl | ⟨front,last,rfl⟩
  · rw [emptied other inner there split.symm] at left
    cases left
  · have through : inner.level = front ++ last::(item::it.level) := by rw [← split,List.concat_eq_append,List.append_assoc]; rfl
    obtain ⟨_,around,place,level,_⟩ := path_split sound there through
    obtain ⟨running,held,phase⟩ := phase_some.mp (sound.within other inner there left last (by rw [through]; simp))
    cases Option.some.inj (place.symm.trans held)
    have wrong := emptied last around place level
    rw [phase] at wrong
    cases wrong

theorem turn_sound (sound : Sound state) (found : state.item item = some it) (waits : it.phase = .waiting) (ready : it.after.elim true state.done = true)
    (single : it.exclusive = false) (begins : phase ≠ .waiting) : Sound (state.become item phase) := by
  refine become_sound sound found (by rw [waits]; rfl) begins (fun _ => turn_before sound found ready) (.inr fun other inner there inside => ?_)
  obtain ⟨before,outer,split⟩ := List.append_of_mem inside
  obtain ⟨_,around,place,_,exclusive,_⟩ := path_split sound there split
  cases Option.some.inj (place.symm.trans found)
  rw [single] at exclusive
  cases exclusive

theorem entered_cons : state.entered (scope::outer) = true ↔
    ∃ around, state.item scope = some around ∧ around.level = outer ∧ around.exclusive = true ∧ around.phase ≠ .waiting := by
  unfold State.entered
  cases found : state.item scope with
  | none => simp [found]
  | some it => simp [found,and_assoc,and_left_comm]

theorem level_open (sound : Sound state) (entered : state.entered context = true) (level : state.level context = scope::outer) :
    ∃ around, state.item scope = some around ∧ around.level = outer ∧ around.exclusive = true ∧ around.phase ≠ .waiting := by
  induction context with
  | nil => cases level
  | cons first rest ih =>
    unfold State.level at level
    split at level
    · apply ih _ level
      cases rest with
      | nil => rfl
      | cons second later =>
        obtain ⟨it,found,inside,_⟩ := entered_cons.mp entered
        exact entered_cons.mpr (sound.placed first it second later found inside).2
    · cases level
      exact entered_cons.mp entered

theorem lastAt_some (last : lastAt level number items = some place) :
    number ≤ place ∧ ∃ it, items[place - number]? = some it ∧ it.level = level := by
  induction items generalizing number with
  | nil => cases last
  | cons first rest ih =>
    rcases Option.or_eq_some_iff.mp last with later | ⟨_,now⟩
    · obtain ⟨above,it,found,same⟩ := ih later
      refine ⟨by omega,it,?_,same⟩
      rw [show place - number = place - (number + 1) + 1 by omega]
      exact found
    · split at now
      · next same =>
        cases Option.some.inj now
        exact ⟨le_refl _,first,by rw [Nat.sub_self]; rfl,same⟩
      · cases now

theorem lastAt_least (found : items[place]? = some it) (same : it.level = level) : ∃ last, lastAt level number items = some last ∧ number + place ≤ last := by
  induction items generalizing number place with
  | nil => cases found
  | cons first rest ih =>
    unfold lastAt
    cases place with
    | zero =>
      cases Option.some.inj found
      cases later : lastAt level (number + 1) rest with
      | none => exact ⟨number,by simp [same],by omega⟩
      | some last =>
        have above := (lastAt_some later).1
        exact ⟨last,rfl,by omega⟩
    | succ place =>
      obtain ⟨last,later,above⟩ : ∃ last, lastAt level (number + 1) rest = some last ∧ number + 1 + place ≤ last := ih found
      rw [later]
      exact ⟨last,rfl,by omega⟩

theorem append_kept (added : Item) (found : state.item item = some it) : ({ state with items := state.items ++ [added] } : State).item item = some it :=
  (List.getElem?_append_left (List.getElem?_eq_some_iff.mp found).1).trans found

theorem append_back (found : ({ state with items := state.items ++ [added] } : State).item number = some it) :
    (number < state.items.length ∧ state.item number = some it) ∨ (number = state.items.length ∧ it = added) := by
  rcases Nat.lt_or_ge number state.items.length with less | more
  · exact .inl ⟨less,(List.getElem?_append_left less).symm.trans found⟩
  · obtain ⟨inside,same⟩ := List.getElem?_eq_some_iff.mp ((List.getElem?_append_right more).symm.trans found)
    have only : number - state.items.length = 0 := Nat.lt_one_iff.mp inside
    refine .inr ⟨by omega,?_⟩
    rw [← same]
    simp [only]

theorem issue_sound (sound : Sound state) (entered : state.entered context = true)
    (permitted : ∀ scope outer, state.level context = scope::outer → state.phase scope = some .running) (exclusive : Bool) :
    Sound { state with items := state.items ++ [⟨state.level context,exclusive,state.tail (state.level context),.waiting⟩] } := by
  let added : Item := ⟨state.level context,exclusive,state.tail (state.level context),.waiting⟩
  let later : State := { state with items := state.items ++ [added] }
  have kept {number : Nat} {it : Item} (found : state.item number = some it) : later.item number = some it := append_kept added found
  have below {number : Nat} {it : Item} (found : state.item number = some it) : number < state.items.length := (List.getElem?_eq_some_iff.mp found).1
  have back {number : Nat} {it : Item} (found : later.item number = some it) :
      (number < state.items.length ∧ state.item number = some it) ∨ (number = state.items.length ∧ it = added) := append_back found
  refine ⟨fun item it scope outer found inside => ?_,fun item it last found equal => ?_,fun item it other before found earlier less same => ?_,
    fun one two first second found next less same began => ?_,fun item it found left around inside => ?_,fun one two member => ?_⟩
  · rcases back found with ⟨_,old⟩ | ⟨same,new⟩
    · obtain ⟨less,around,place,rest⟩ := sound.placed item it scope outer old inside
      exact ⟨less,around,kept place,rest⟩
    · rw [new] at inside
      obtain ⟨around,place,rest⟩ := level_open sound entered inside
      exact ⟨same ▸ below place,around,kept place,rest⟩
  · rcases back found with ⟨_,old⟩ | ⟨same,new⟩
    · obtain ⟨less,before,place,beside⟩ := sound.follows item it last old equal
      exact ⟨less,before,kept place,beside⟩
    · rw [new] at equal ⊢
      obtain ⟨_,before,place,beside⟩ := lastAt_some equal
      exact ⟨same ▸ below place,before,kept place,beside⟩
  · rcases back found with ⟨_,old⟩ | ⟨same_number,new⟩
    · rcases back earlier with ⟨_,older⟩ | ⟨wrong,_⟩
      · exact sound.latest item it other before old older less same
      · have := below old
        omega
    · rcases back earlier with ⟨_,older⟩ | ⟨wrong,_⟩
      · rw [new] at same ⊢
        obtain ⟨last,equal,above⟩ := lastAt_least older same
        exact ⟨last,equal,by omega⟩
      · omega
  · rcases back next with ⟨_,old⟩ | ⟨_,new⟩
    · rcases back found with ⟨_,older⟩ | ⟨wrong,_⟩
      · exact sound.ordered one two first second older old less same began
      · have := below old
        omega
    · exact absurd (by rw [new]) began
  · rcases back found with ⟨_,old⟩ | ⟨_,new⟩
    · obtain ⟨running,place,phase⟩ := phase_some.mp (sound.within item it old left around inside)
      exact phase_some.mpr ⟨running,kept place,phase⟩
    · rw [new] at inside
      obtain ⟨scope,outer,level⟩ := List.ne_nil_iff_exists_cons.mp (List.ne_nil_of_mem inside)
      have here : state.level context = scope::outer := level
      rw [level] at inside
      obtain ⟨running,place,phase⟩ := phase_some.mp (permitted scope outer here)
      obtain ⟨held,there,beside,_⟩ := level_open sound entered here
      cases Option.some.inj (place.symm.trans there)
      rcases List.mem_cons.mp inside with rfl | further
      · exact phase_some.mpr ⟨running,kept place,phase⟩
      · obtain ⟨outside,here,runs⟩ := phase_some.mp (sound.within scope running place (by rw [phase]; rfl) around (by rw [beside]; exact further))
        exact phase_some.mpr ⟨outside,kept here,runs⟩
  · obtain ⟨it,awaited,place,held,condition⟩ := sound.awaits one two member
    exact ⟨it,awaited,kept place,kept held,condition⟩

def Phase.work : Phase → Nat
  | .waiting => 4
  | .running => 3
  | .ended _ => 2
  | .closed _ => 1
  | .settled _ | .thrown => 0

-- What a step of the promises does: one item goes on to its next phase.
inductive Moves (state : State) (it : Item) : Action → Nat → Phase → Prop where
  | start (number : Nat) : it.phase = .waiting → it.after.elim true state.done = true → Moves state it (.start number) number .running
  | finish (number : Nat) (outcome : Outcome) : it.phase = .running → Moves state it (.finish number outcome) number (.ended outcome)
  | throw (number : Nat) : it.phase = .running → Moves state it (.throw number) number .thrown
  | close (number : Nat) (outcome : Outcome) : it.phase = .ended outcome → Moves state it (.close number) number (.closed outcome)
  | settle (number : Nat) (outcome : Outcome) : it.phase = .ended outcome ∨ it.phase = .closed outcome →
      Moves state it (.settle number) number (.settled outcome)

theorem internal_moves (internal : action.internal = true) (moved : step state action = some after) : ∃ item it phase,
    state.item item = some it ∧ Moves state it action item phase ∧ after = state.become item phase := by
  cases action with
  | issue | await => cases internal
  | start item =>
    obtain ⟨it,found,moved⟩ := Option.bind_eq_some_iff.mp moved
    split at moved <;> cases moved
    next allowed =>
    obtain ⟨waits,fulfilled⟩ := Bool.and_eq_true_iff.mp allowed
    exact ⟨item,it,_,found,.start _ (of_decide_eq_true waits) fulfilled,rfl⟩
  | finish item outcome =>
    obtain ⟨it,found,moved⟩ := Option.bind_eq_some_iff.mp moved
    split at moved <;> cases moved
    next allowed => exact ⟨item,it,_,found,.finish _ _ (of_decide_eq_true (Bool.and_eq_true_iff.mp allowed).1),rfl⟩
  | throw item =>
    obtain ⟨it,found,moved⟩ := Option.bind_eq_some_iff.mp moved
    split at moved <;> cases moved
    next allowed => exact ⟨item,it,_,found,.throw _ (of_decide_eq_true (Bool.and_eq_true_iff.mp allowed).1),rfl⟩
  | close item =>
    obtain ⟨it,found,moved⟩ := Option.bind_eq_some_iff.mp moved
    split at moved <;> cases moved
    next ended => exact ⟨item,it,_,found,.close _ _ ended,rfl⟩
  | settle item =>
    obtain ⟨it,found,moved⟩ := Option.bind_eq_some_iff.mp moved
    split at moved <;> cases moved
    · next ended => exact ⟨item,it,_,found,.settle _ _ (.inl ended),rfl⟩
    · next closed => exact ⟨item,it,_,found,.settle _ _ (.inr closed),rfl⟩

theorem Moves.advances (moves : Moves state it action item phase) : it.phase.done = false ∧ phase ≠ .waiting ∧ phase.work < it.phase.work := by
  cases moves with
  | start _ waiting _ => rw [waiting]; exact ⟨rfl,Phase.noConfusion,by simp [Phase.work]⟩
  | finish _ _ running => rw [running]; exact ⟨rfl,Phase.noConfusion,by simp [Phase.work]⟩
  | throw _ running => rw [running]; exact ⟨rfl,Phase.noConfusion,by simp [Phase.work]⟩
  | close _ _ ended => rw [ended]; exact ⟨rfl,Phase.noConfusion,by simp [Phase.work]⟩
  | settle _ _ gone =>
    rcases gone with ended | closed
    · rw [ended]; exact ⟨rfl,Phase.noConfusion,by simp [Phase.work]⟩
    · rw [closed]; exact ⟨rfl,Phase.noConfusion,by simp [Phase.work]⟩

theorem Moves.starts (moves : Moves state it action item phase) : it.phase = .waiting ↔ action = .start item := by
  cases moves with
  | start _ waiting _ => exact iff_of_true waiting rfl
  | finish _ _ running => rw [running]; exact iff_of_false Phase.noConfusion Action.noConfusion
  | throw _ running => rw [running]; exact iff_of_false Phase.noConfusion Action.noConfusion
  | close _ _ ended => rw [ended]; exact iff_of_false Phase.noConfusion Action.noConfusion
  | settle _ _ gone =>
    rcases gone with ended | closed
    · rw [ended]; exact iff_of_false Phase.noConfusion Action.noConfusion
    · rw [closed]; exact iff_of_false Phase.noConfusion Action.noConfusion

theorem step_sound : Preserved step Permitted Sound := by
  intro state action after sound permitted moved
  -- An item past running has nothing left inside it.
  have past {item : Nat} {it : Item} (found : state.item item = some it) (gone : it.phase ≠ .running) (other : Nat) (inner : Item)
      (there : state.item other = some inner) (inside : item ∈ inner.level) : inner.phase.done = true := by
    by_contra left
    rw [Bool.not_eq_true] at left
    obtain ⟨running,held,phase⟩ := phase_some.mp (sound.within other inner there left item inside)
    cases Option.some.inj (found.symm.trans held)
    exact gone phase
  by_cases internal : action.internal = true
  · obtain ⟨item,it,phase,found,moves,rfl⟩ := internal_moves internal moved
    obtain ⟨undone,begins,_⟩ := moves.advances
    refine become_sound sound found undone begins (fun waits => ?_) ?_
    · obtain rfl := moves.starts.mp waits
      cases moves with
      | start _ _ fulfilled => exact turn_before sound found fulfilled
    · cases moves with
      | start => exact .inl rfl
      | finish | throw => exact .inr (inside_done sound found fun other inner there level => permitted it other inner found there level)
      | close _ _ ended => exact .inr (past found (by rw [ended]; exact Phase.noConfusion))
      | settle _ _ gone =>
        refine .inr (past found ?_)
        rcases gone with ended | closed
        · rw [ended]; exact Phase.noConfusion
        · rw [closed]; exact Phase.noConfusion
  · cases action with
    | issue context exclusive =>
      simp only [step] at moved
      split at moved
      · next entered =>
        cases Option.some.inj moved
        exact issue_sound sound entered permitted exclusive
      · cases moved
    | await item other =>
      simp only [step] at moved
      split at moved
      · next allowed =>
        cases Option.some.inj moved
        obtain ⟨running,listed⟩ := Bool.and_eq_true_iff.mp allowed
        obtain ⟨it,found,_⟩ := phase_some.mp (of_decide_eq_true running)
        obtain ⟨awaited,there⟩ : ∃ awaited, state.item other = some awaited := ⟨_,List.getElem?_eq_getElem (of_decide_eq_true listed)⟩
        refine ⟨sound.placed,sound.follows,sound.latest,sound.ordered,sound.within,fun one two member => ?_⟩
        rcases List.mem_append.mp member with old | new
        · exact sound.awaits one two old
        · cases List.mem_singleton.mp new
          exact ⟨it,awaited,found,there,permitted it awaited found there⟩
      · cases moved
    | _ => exact absurd rfl internal

theorem alone (sound : Sound state) (first : state.item one = some left) (second : state.item two = some right) (same : left.level = right.level)
    (begun : left.phase ≠ .waiting) (undone : left.phase.done = false) (started : right.phase ≠ .waiting) (going : right.phase.done = false) : one = two := by
  rcases Nat.lt_trichotomy one two with less | equal | more
  · have wrong := sound.ordered one two left right first second less same started
    rw [undone] at wrong
    cases wrong
  · exact equal
  · have wrong := sound.ordered two one right left second first more same.symm begun
    rw [going] at wrong
    cases wrong

def Lane (state : State) : List Nat → Prop
  | [] => True
  | item::outer => (∃ it, state.item item = some it ∧ it.level = outer ∧ it.phase = .running) ∧ Lane state outer

theorem lane_level (sound : Sound state) (found : state.item item = some it) (undone : it.phase.done = false) : Lane state it.level := by
  generalize equal : it.level = path
  induction path generalizing item it with
  | nil => trivial
  | cons scope outer ih =>
    obtain ⟨_,around,place,level,_⟩ := sound.placed item it scope outer found equal
    obtain ⟨held,there,running⟩ := phase_some.mp (sound.within item it found undone scope (by rw [equal]; exact List.mem_cons_self ..))
    cases Option.some.inj (place.symm.trans there)
    exact ⟨⟨around,place,level,running⟩,ih place (by rw [running]; rfl) level⟩

theorem lane_suffix (lane : Lane state (front ++ path)) : Lane state path := by
  induction front with
  | nil => exact lane
  | cons _ rest ih => exact ih lane.2

-- What runs at one time is one scope inside another, down to at most one statement.
theorem lanes_nested (sound : Sound state) (one : Lane state first) (two : Lane state second) : first <:+ second ∨ second <:+ first := by
  induction first with
  | nil => exact .inl (List.nil_suffix)
  | cons item outer ih =>
    rcases ih one.2 with inside | around
    · obtain ⟨front,equal⟩ := inside
      rcases List.eq_nil_or_concat front with rfl | ⟨start,last,rfl⟩
      · exact .inr ⟨[item],by rw [← equal]; rfl⟩
      · have split : start ++ last::outer = second := by rw [← equal,List.concat_eq_append,List.append_assoc]; rfl
        rw [← split] at two
        obtain ⟨other,there,level,running⟩ := (lane_suffix two).1
        obtain ⟨it,found,beside,going⟩ := one.1
        have same : item = last := alone sound found there (beside.trans level.symm) (by rw [going]; exact Phase.noConfusion) (by rw [going]; rfl)
          (by rw [running]; exact Phase.noConfusion) (by rw [running]; rfl)
        exact .inl ⟨start,by rw [same]; exact split⟩
    · exact .inr (around.trans (List.suffix_cons ..))

theorem turn_innermost (sound : Sound state) (lane : Lane state path) (found : state.item item = some it) (waits : it.phase = .waiting)
    (ready : it.after.elim true state.done = true) (covered : it.level <:+ path) : it.level = path := by
  obtain ⟨front,split⟩ := covered
  rcases List.eq_nil_or_concat front with rfl | ⟨start,last,rfl⟩
  · exact split
  · exfalso
    rw [List.concat_eq_append,List.append_assoc] at split
    rw [← split] at lane
    obtain ⟨other,there,beside,running⟩ := (lane_suffix lane).1
    have going : other.phase.done = false := by rw [running]; rfl
    have began : other.phase ≠ .waiting := by rw [running]; exact Phase.noConfusion
    rcases Nat.lt_trichotomy last item with earlier | same | later
    · have wrong := turn_before sound found ready last other there earlier beside
      rw [going] at wrong
      cases wrong
    · subst same
      cases Option.some.inj (there.symm.trans found)
      exact began waits
    · have wrong := sound.ordered item last it other found there later beside.symm began
      rw [waits] at wrong
      cases wrong

theorem lane_member (lane : Lane state path) (inside : item ∈ path) : state.phase item = some .running := by
  induction path with
  | nil => cases inside
  | cons scope outer ih =>
    obtain ⟨⟨it,found,_,running⟩,around⟩ := lane
    rcases List.mem_cons.mp inside with same | further
    · exact phase_some.mpr ⟨it,same ▸ found,running⟩
    · exact ih around further

theorem lane_append (lane : Lane state path) : Lane { state with items := state.items ++ [added] } path := by
  induction path with
  | nil => trivial
  | cons scope outer ih =>
    obtain ⟨⟨it,found,rest⟩,around⟩ := lane
    exact ⟨⟨it,append_kept added found,rest⟩,ih around⟩

theorem lane_become (lane : Lane state path) (apart : item ∉ path) : Lane (state.become item phase) path := by
  induction path with
  | nil => trivial
  | cons scope outer ih =>
    obtain ⟨⟨it,found,rest⟩,around⟩ := lane
    have other : item ≠ scope := fun same => apart (same ▸ List.mem_cons_self ..)
    exact ⟨⟨it,(become_other other).trans found,rest⟩,ih around fun member => apart (List.mem_cons_of_mem _ member)⟩

theorem running_nested (sound : Sound state) (first : state.item one = some left) (second : state.item two = some right)
    (runs : left.phase = .running) (goes : right.phase = .running) : one = two ∨ one ∈ right.level ∨ two ∈ left.level := by
  have lane {number : Nat} {it : Item} (found : state.item number = some it) (running : it.phase = .running) : Lane state (number::it.level) :=
    ⟨⟨it,found,rfl,running⟩,lane_level sound found (by rw [running]; rfl)⟩
  have inside {inner outer : Nat} {level path : List Nat} (suffix : outer::path <:+ inner::level) : outer = inner ∨ outer ∈ level := by
    rcases List.suffix_cons_iff.mp suffix with same | within
    · exact .inl (List.cons.inj same).1
    · exact .inr (within.subset (List.mem_cons_self ..))
  rcases lanes_nested sound (lane first runs) (lane second goes) with under | above
  · rcases inside under with same | within
    · exact .inl same
    · exact .inr (.inl within)
  · rcases inside above with same | within
    · exact .inl same.symm
    · exact .inr (.inr within)

-- A path each of whose scopes is the first undone item inside the rest of the path.
def Least (state : State) : List Nat → Prop
  | [] => True
  | scope::outer => (∃ it, state.item scope = some it ∧ it.level = outer ∧ ∀ other inner, state.item other = some inner → inner.phase.done = false →
      outer <:+ inner.level → scope ≤ other) ∧ Least state outer

def bound (state : State) : List Nat → Nat
  | [] => state.items.length
  | scope::_ => state.items.length - (scope + 1)

def Stuck (state : State) : Prop := ∀ action after, action.internal = true → step state action ≠ some after

theorem least_around (sound : Sound state) (least : Least state path) (found : state.item other = some nested) (undone : nested.phase.done = false)
    (near : ∀ around ∈ path, around ∈ nested.level ∨ other < around) : path <:+ nested.level := by
  induction path with
  | nil => exact List.nil_suffix
  | cons scope outer ih =>
    have inside := ih least.2 fun around member => near around (List.mem_cons_of_mem _ member)
    obtain ⟨it,place,level,first⟩ := least.1
    rcases near scope (List.mem_cons_self ..) with within | before
    · rw [← level]
      exact (path_level sound found within place).2
    · have above := first other nested found undone inside
      omega

theorem first_running (sound : Sound state) (stuck : Stuck state) (found : state.item item = some it) (undone : it.phase.done = false) (inside : path <:+ it.level)
    (first : ∀ other inner, state.item other = some inner → inner.phase.done = false → path <:+ inner.level → item ≤ other) :
    it.level = path ∧ it.phase = .running := by
  have level : it.level = path := by
    obtain ⟨front,equal⟩ := inside
    rcases List.eq_nil_or_concat front with rfl | ⟨start,last,rfl⟩
    · exact equal.symm
    · have split : it.level = start ++ last::path := by rw [← equal,List.concat_eq_append,List.append_assoc]; rfl
      obtain ⟨less,around,place,beside,_⟩ := path_split sound found split
      obtain ⟨held,there,running⟩ := phase_some.mp (sound.within item it found undone last (by rw [split]; simp))
      cases Option.some.inj (place.symm.trans there)
      have above := first last around place (by rw [running]; rfl) (by rw [beside])
      omega
  refine ⟨level,?_⟩
  cases phase : it.phase with
  | running => rfl
  | waiting =>
    have ready : it.after.elim true state.done = true := by
      cases equal : it.after with
      | none => rfl
      | some last =>
        obtain ⟨less,before,place,beside⟩ := sound.follows item it last found equal
        refine done_iff.mpr ⟨before,place,?_⟩
        by_contra left
        have above := first last before place (by simpa using left) (by rw [beside,level])
        omega
    refine absurd ?_ (stuck (.start item) (state.become item .running) rfl)
    rw [step,found,Option.bind_some,phase,ready]
    rfl
  | ended outcome =>
    cases exclusive : it.exclusive with
    | true =>
      refine absurd ?_ (stuck (.close item) (state.become item (.closed outcome)) rfl)
      rw [step,found,Option.bind_some,exclusive,phase]
    | false =>
      refine absurd ?_ (stuck (.settle item) (state.become item (.settled outcome)) rfl)
      rw [step,found,Option.bind_some,exclusive,phase]
  | closed outcome =>
    refine absurd ?_ (stuck (.settle item) (state.become item (.settled outcome)) rfl)
    rw [step,found,Option.bind_some,phase]
    cases it.exclusive <;> rfl
  | settled outcome =>
    rw [phase] at undone
    cases undone
  | thrown =>
    rw [phase] at undone
    cases undone

-- By the distance of the path's front to the last item: what is first inside waits for something further inside.
theorem inside_settled (sound : Sound state) (stuck : Stuck state) (least : Least state path) (near : bound state path ≤ steps)
    (found : state.item item = some it) (inside : path <:+ it.level) : it.phase.done = true := by
  induction steps generalizing path item it with
  | zero =>
    have below : item < state.items.length := (List.getElem?_eq_some_iff.mp found).1
    cases path with
    | nil =>
      have : state.items.length ≤ 0 := near
      omega
    | cons scope outer =>
      obtain ⟨around,place,level,_⟩ := least.1
      have less := (path_level sound found (inside.subset (List.mem_cons_self ..)) place).1
      have : state.items.length - (scope + 1) ≤ 0 := near
      omega
  | succ steps ih =>
    by_contra left
    rw [Bool.not_eq_true] at left
    classical
    have exists_undone : ∃ number, ∃ inner, state.item number = some inner ∧ inner.phase.done = false ∧ path <:+ inner.level := ⟨item,it,found,left,inside⟩
    obtain ⟨inner,there,undone,within⟩ := Nat.find_spec exists_undone
    have first : ∀ other later, state.item other = some later → later.phase.done = false → path <:+ later.level → Nat.find exists_undone ≤ other :=
      fun other later here open_still around => Nat.find_min' exists_undone ⟨later,here,open_still,around⟩
    generalize Nat.find exists_undone = number at there first
    obtain ⟨level,running⟩ := first_running sound stuck there undone within first
    have below : number < state.items.length := (List.getElem?_eq_some_iff.mp there).1
    have deeper : Least state (number::path) := ⟨⟨inner,there,level,first⟩,least⟩
    have nearer : bound state (number::path) ≤ steps := by
      show state.items.length - (number + 1) ≤ steps
      cases path with
      | nil =>
        have : state.items.length ≤ steps + 1 := near
        omega
      | cons scope outer =>
        obtain ⟨around,place,beside,_⟩ := least.1
        have less := (path_level sound there (within.subset (List.mem_cons_self ..)) place).1
        have : state.items.length - (scope + 1) ≤ steps + 1 := near
        omega
    -- Its callback is not over, so it awaits an item that is not.
    obtain ⟨other,member,pending⟩ : ∃ other, (number,other) ∈ state.awaited ∧ state.done other = false := by
      by_contra none_pending
      refine absurd ?_ (stuck (.finish number .fulfilled) (state.become number (.ended .fulfilled)) rfl)
      have all : (state.awaited.all fun pair => pair.1 ≠ number || state.done pair.2) = true := by
        refine List.all_eq_true.mpr fun pair member => ?_
        by_cases own : pair.1 = number
        · have over_already : state.done pair.2 = true := by
            by_contra still
            exact none_pending ⟨pair.2,by rw [← own]; exact member,by simpa using still⟩
          simp [over_already]
        · simp [own]
      rw [step,there,Option.bind_some,running,all]
      rfl
    obtain ⟨waiting,awaited,place,held,condition⟩ := sound.awaits number other member
    cases Option.some.inj (there.symm.trans place)
    have unsettled : awaited.phase.done = false := by
      by_contra settled
      rw [done_iff.mpr ⟨awaited,held,by simpa using settled⟩] at pending
      cases pending
    rw [level] at condition
    have around := least_around sound deeper held unsettled condition
    rw [ih deeper nearer held around] at unsettled
    cases unsettled

-- Where no promise has a step left, every queued item is over.
theorem stuck_settled (sound : Sound state) (stuck : Stuck state) (found : state.item item = some it) : it.phase.done = true :=
  have outermost : Least state [] := trivial
  inside_settled sound stuck outermost (le_refl (bound state [])) found List.nil_suffix

def State.work (state : State) : Nat := (state.items.map fun it => it.phase.work).sum

theorem become_work (found : state.item item = some it) (less : phase.work < it.phase.work) : (state.become item phase).work < state.work := by
  unfold State.item at found
  unfold State.work State.become
  generalize state.items = items at found
  induction items generalizing item with
  | nil => cases found
  | cons head rest ih =>
    cases item with
    | zero =>
      cases Option.some.inj found
      simp only [List.modify_zero_cons,List.map_cons,List.sum_cons]
      omega
    | succ item =>
      have later := ih found
      simp only [List.modify_succ_cons,List.map_cons,List.sum_cons] at later ⊢
      omega

theorem internal_work (internal : action.internal = true) (moved : step state action = some after) : after.work < state.work := by
  obtain ⟨item,it,phase,found,moves,rfl⟩ := internal_moves internal moved
  exact become_work found moves.advances.2.2

def State.starts (state : State) (item : Nat) : Nat := if state.phase item = none ∨ state.phase item = some .waiting then 0 else 1

theorem become_starts (found : state.item item = some it) (begins : phase ≠ .waiting) (other : Nat) :
    (state.become item phase).starts other = if item = other then 1 else state.starts other := by
  unfold State.starts State.phase
  by_cases same : item = other
  · rw [if_pos same,← same,become_self found]
    simp [begins]
  · rw [if_neg same,become_other same]

theorem step_starts (moved : step state action = some after) (item : Nat) :
    after.starts item = state.starts item + if action = .start item then 1 else 0 := by
  by_cases internal : action.internal = true
  · obtain ⟨number,it,phase,found,moves,rfl⟩ := internal_moves internal moved
    rw [become_starts found moves.advances.2.1]
    split
    · next same =>
      rw [← same]
      unfold State.starts State.phase
      rw [found,Option.map_some]
      have starts := moves.starts
      by_cases waits : it.phase = .waiting
      · simp [waits,starts.mp waits]
      · simp [waits,mt starts.mpr waits]
    · next apart =>
      have other : action ≠ .start item := by
        intro same
        subst same
        cases moves
        exact apart rfl
      rw [if_neg other,Nat.add_zero]
  · cases action with
    | issue context exclusive =>
      simp only [step] at moved
      split at moved
      · cases Option.some.inj moved
        simp only [reduceCtorEq,if_false,Nat.add_zero]
        unfold State.starts State.phase State.item
        rcases Nat.lt_or_ge item state.items.length with less | more
        · rw [List.getElem?_append_left less]
        · rw [List.getElem?_append_right more,List.getElem?_eq_none more]
          cases item - state.items.length <;> simp
      · cases moved
    | await one other =>
      simp only [step] at moved
      split at moved
      · cases Option.some.inj moved
        simp only [reduceCtorEq,if_false,Nat.add_zero]
        rfl
      · cases moved
    | _ => exact absurd rfl internal

-- A callback is called when its item leaves waiting, so never twice.
theorem run_starts (path : run step state actions = some after) (item : Nat) : after.starts item = state.starts item + actions.count (.start item) := by
  induction actions generalizing state with
  | nil =>
    cases Option.some.inj path
    rfl
  | cons action rest ih =>
    obtain ⟨next,one,later⟩ := run_cons.mp path
    rw [ih later,step_starts one,List.count_cons]
    by_cases same : action = .start item
    · simp [same]
      omega
    · simp [same]

theorem run_work (internal : ∀ action ∈ actions, action.internal = true) (path : run step state actions = some after) : actions.length ≤ state.work := by
  induction actions generalizing state with
  | nil => exact Nat.zero_le _
  | cons action rest ih =>
    obtain ⟨next,one,later⟩ := run_cons.mp path
    have less := internal_work (internal action (List.mem_cons_self ..)) one
    have fewer := ih (fun other member => internal other (List.mem_cons_of_mem _ member)) later
    show rest.length + 1 ≤ state.work
    omega

theorem empty_sound : Sound State.empty := by
  have none {item : Nat} {it : Item} (found : State.empty.item item = some it) : False := by cases found
  exact ⟨fun _ _ _ _ found => (none found).elim,fun _ _ _ found => (none found).elim,fun _ _ _ _ found => (none found).elim,
    fun _ _ _ _ found => (none found).elim,fun _ _ found => (none found).elim,fun _ _ member => by cases member⟩

theorem scopes_whole (guarded : Guarded step Permitted State.empty actions) (path : run step State.empty actions = some state) :
    (∀ one two left right, state.item one = some left → state.item two = some right → left.phase = .running → right.phase = .running →
      one = two ∨ (left.exclusive = true ∧ one ∈ right.level) ∨ (right.exclusive = true ∧ two ∈ left.level)) ∧
    (∀ one two left right, state.item one = some left → state.item two = some right → one < two → left.level = right.level →
      right.phase ≠ .waiting → left.phase.done = true) ∧
    (∀ item it, state.item item = some it → actions.count (.start item) = if it.phase = .waiting then 0 else 1) ∧
    (∀ schedule after, (∀ action ∈ schedule, action.internal = true) → run step state schedule = some after → schedule.length ≤ state.work) ∧
    (Stuck state → ∀ item it, state.item item = some it → it.phase.done = true) := by
  have sound := run_preserves step_sound empty_sound guarded path
  refine ⟨fun one two left right first second runs goes => ?_,sound.ordered,fun item it found => ?_,fun _ _ internal later => run_work internal later,
    fun stuck _ _ found => stuck_settled sound stuck found⟩
  · have scope {inner outer : Nat} {it around : Item} (found : state.item inner = some it) (held : state.item outer = some around)
        (inside : outer ∈ it.level) : around.exclusive = true := by
      obtain ⟨_,_,split⟩ := List.append_of_mem inside
      obtain ⟨_,other,place,_,exclusive,_⟩ := path_split sound found split
      cases Option.some.inj (place.symm.trans held)
      exact exclusive
    rcases running_nested sound first second runs goes with same | within | around
    · exact .inl same
    · exact .inr (.inl ⟨scope second first within,within⟩)
    · exact .inr (.inr ⟨scope first second around,around⟩)
  · have counted := run_starts path item
    rw [show State.empty.starts item = 0 from rfl,Nat.zero_add] at counted
    rw [← counted]
    unfold State.starts State.phase
    rw [found]
    simp

-- A statement the first scope sent and did not await is on the connection while the second scope has it alone.
def leaking : List Action :=
  [.issue [] true,.issue [] true,.start 0,.issue [0] false,.start 2,.finish 0 .fulfilled,.close 0,.settle 0,.start 1]

theorem leaked_inside : ∃ state scope statement, run step State.empty leaking = some state ∧ state.item 1 = some scope ∧ state.item 2 = some statement ∧
    scope.exclusive = true ∧ scope.phase = .running ∧ statement.phase = .running ∧ 1 ∉ statement.level ∧ 2 ∉ scope.level :=
  ⟨_,_,_,rfl,rfl,rfl,rfl,rfl,rfl,by decide,by decide⟩

-- A scope with a rejected statement in it that it awaits, a sibling behind it and a statement sent from its context later.
def awaiting : List Action :=
  [.issue [] true,.issue [] true,.start 0,.issue [0] false,.await 0 2,.start 2,.finish 2 .rejected,.settle 2,.finish 0 .rejected,.close 0,.settle 0,
    .start 1,.issue [0] false,.finish 1 .fulfilled]

theorem finish_permitted (emptied : ∀ it, state.item item = some it → (state.items.all fun inner => inner.level ≠ item::it.level || inner.phase.done) = true) :
    Permitted state (.finish item outcome) := by
  intro it other inner found there level
  rcases Bool.or_eq_true_iff.mp (List.all_eq_true.mp (emptied it found) inner (List.mem_of_getElem? there)) with apart | done
  · exact absurd level (of_decide_eq_true apart)
  · exact done

theorem scopes_whole_awaiting : ∃ state, run step State.empty awaiting = some state ∧
    (∀ one two left right, state.item one = some left → state.item two = some right → left.phase = .running → right.phase = .running →
      one = two ∨ (left.exclusive = true ∧ one ∈ right.level) ∨ (right.exclusive = true ∧ two ∈ left.level)) ∧
    (∀ one two left right, state.item one = some left → state.item two = some right → one < two → left.level = right.level →
      right.phase ≠ .waiting → left.phase.done = true) ∧
    (∀ item it, state.item item = some it → awaiting.count (.start item) = if it.phase = .waiting then 0 else 1) ∧
    (∀ schedule after, (∀ action ∈ schedule, action.internal = true) → run step state schedule = some after → schedule.length ≤ state.work) ∧
    (Stuck state → ∀ item it, state.item item = some it → it.phase.done = true) := by
  have guarded : Guarded step Permitted State.empty awaiting := by
    refine guarded_cons (show Permitted _ (.issue [] true) from fun scope outer wrong => by cases wrong) rfl ?_
    refine guarded_cons (show Permitted _ (.issue [] true) from fun scope outer wrong => by cases wrong) rfl ?_
    refine guarded_cons (show Permitted _ (.start 0) from trivial) rfl ?_
    refine guarded_cons (show Permitted _ (.issue [0] false) from fun scope outer same => by cases same; rfl) rfl ?_
    refine guarded_cons (show Permitted _ (.await 0 2) from fun it awaited found there around member => by
      cases found
      cases there
      exact .inl (show around ∈ [0] from member)) rfl ?_
    refine guarded_cons (show Permitted _ (.start 2) from trivial) rfl ?_
    refine guarded_cons (finish_permitted fun it found => by cases found; rfl) rfl ?_
    refine guarded_cons (show Permitted _ (.settle 2) from trivial) rfl ?_
    refine guarded_cons (finish_permitted fun it found => by cases found; rfl) rfl ?_
    refine guarded_cons (show Permitted _ (.close 0) from trivial) rfl ?_
    refine guarded_cons (show Permitted _ (.settle 0) from trivial) rfl ?_
    refine guarded_cons (show Permitted _ (.start 1) from trivial) rfl ?_
    refine guarded_cons (show Permitted _ (.issue [0] false) from fun scope outer wrong => by cases wrong) rfl ?_
    refine guarded_cons (finish_permitted fun it found => by cases found; rfl) rfl ?_
    trivial
  exact ⟨_,rfl,scopes_whole guarded rfl⟩

end

end Zveltio.Turns
