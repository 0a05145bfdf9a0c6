import Zveltio.Runs
import Zveltio.Listing
import Zveltio.Parties
namespace Zveltio.ReadWindows
open Runs IpText Listing Parties

-- A transaction's entry: the grants its base read found, whether that promise has settled, the collections of the windows open.
structure Entry where
  base : Text
  resolved : Bool
  windows : List Text

-- A call's way: joined, its write issued, its body running, left with the restore still to be issued, issued, over.
inductive Phase where
  | opening | opened | body | closing | restored | settled
  deriving DecidableEq

structure Call where
  entry : Nat
  collection : Text
  phase : Phase

-- Statements execute in the order they are issued, so the setting is the one the next issued statement will see.
structure State where
  setting : Text
  entries : List Entry
  current : Option Nat
  calls : List Call

def State.start (published : Text) : State := ⟨published,[],none,[]⟩

def read (collection : Text) : Text := collection ++ [':','r','e','a','d']

def grants (base : Text) (windows : List Text) : Text :=
  let extra := joined ',' (windows.eraseDups.map read)
  if extra = [] then base else (if base = [] then [','] else base) ++ extra ++ [',']

inductive Action where
  | start (collection : Text)
  | resolve (entry : Nat)
  | write (call : Nat)
  | run (call : Nat)
  | finish (call : Nat)
  | restore (call : Nat)
  | settle (call : Nat)

def State.become (state : State) (call : Nat) (phase : Phase) : State :=
  { state with calls := state.calls.modify call fun old => { old with phase := phase } }

-- A write is computed from the windows open when it is issued.
def State.writeReadWindow (state : State) (entry : Nat) : Option State :=
  (state.entries[entry]?).bind fun w => if w.resolved then some { state with setting := grants w.base w.windows } else none

def step (state : State) : Action → Option State
  | .start collection => match state.current with
    | some entry => some { state with
        entries := state.entries.modify entry fun w => { w with windows := w.windows ++ [collection] }
        calls := state.calls ++ [⟨entry,collection,.opening⟩] }
    | none => some { state with
        entries := state.entries ++ [⟨state.setting,false,[collection]⟩]
        current := some state.entries.length
        calls := state.calls ++ [⟨state.entries.length,collection,.opening⟩] }
  | .resolve entry => some { state with entries := state.entries.modify entry fun w => { w with resolved := true } }
  | .write call => (state.calls[call]?).bind fun c =>
    if c.phase = .opening then (state.writeReadWindow c.entry).map fun written => written.become call .opened else none
  | .run call => (state.calls[call]?).bind fun c => if c.phase = .opened then some (state.become call .body) else none
  | .finish call => (state.calls[call]?).bind fun c =>
    if c.phase = .body then
      some { state.become call .closing with entries := state.entries.modify c.entry fun w => { w with windows := w.windows.erase c.collection } }
    else none
  | .restore call => (state.calls[call]?).bind fun c =>
    if c.phase = .closing then (state.writeReadWindow c.entry).map fun written => written.become call .restored else none
  | .settle call => (state.calls[call]?).bind fun c =>
    if c.phase = .restored then
      let left := (state.entries[c.entry]?).elim false fun w => w.windows = []
      some { state.become call .settled with current := if left && state.current = some c.entry then none else state.current }
    else none

-- A call that finds no entry reads the setting when no restore is still to be issued.
def Permitted (state : State) : Action → Prop
  | .start _ => state.current = none → ∀ call ∈ state.calls, call.phase ≠ .closing
  | _ => True

def Phase.inside : Phase → Bool
  | .opening | .opened | .body => true
  | _ => false

def Phase.active : Phase → Bool
  | .opening | .opened | .body | .closing => true
  | _ => false

def within (entry : Nat) (collection : Text) (call : Call) : Bool := call.entry = entry && call.phase.inside && call.collection = collection

structure Placed (published : Text) (state : State) : Prop where
  bases : ∀ entry ∈ state.entries, entry.base = published
  placed : ∀ call ∈ state.calls, call.entry < state.entries.length
  held : ∀ entry, state.current = some entry → entry < state.entries.length
  counted : ∀ entry w, state.entries[entry]? = some w → ∀ collection, w.windows.count collection = state.calls.countP (within entry collection)
  active : ∀ call ∈ state.calls, call.phase.active = true → state.current = some call.entry ∨ state.current = none ∧ call.phase = .closing

-- The setting is what the windows that are open, or about to be closed, make of the published grants.
def Named (published : Text) (state : State) : Prop := ∃ windows, state.setting = grants published windows ∧
  (∀ collection ∈ windows, ∃ call ∈ state.calls, call.phase.active = true ∧ call.collection = collection) ∧
  ∀ call ∈ state.calls, call.phase = .opened ∨ call.phase = .body → call.collection ∈ windows

def Sound (published : Text) (state : State) : Prop := Placed published state ∧ Named published state

section
variable {published : Text} {state : State} {call : Nat} {c : Call} {phase : Phase}

theorem become_back (member : now ∈ (state.become call phase).calls) :
    ∃ old ∈ state.calls, now = old ∨ state.calls[call]? = some old ∧ now = { old with phase := phase } := mem_modify member

theorem become_forth (call : Nat) (phase : Phase) (member : old ∈ state.calls) :
    ∃ now ∈ (state.become call phase).calls, now.collection = old.collection ∧ (now.phase = old.phase ∨ state.calls[call]? = some old ∧ now.phase = phase) := by
  obtain ⟨here,found⟩ := List.getElem?_of_mem member
  have there : (state.become call phase).calls[here]? = some (if call = here then { old with phase := phase } else old) := by
    show (state.calls.modify call _)[here]? = _
    rw [List.getElem?_modify,found]
    rfl
  refine ⟨_,List.mem_of_getElem? there,?_⟩
  split
  · next same => exact ⟨rfl,.inr ⟨same ▸ found,rfl⟩⟩
  · exact ⟨rfl,.inl rfl⟩

theorem become_placed (phase : Phase) (placed : Placed published state) (found : state.calls[call]? = some c) (inside : phase.inside = c.phase.inside)
    (active : phase.active = true → c.phase.active = true ∧ (c.phase = .closing → phase = .closing)) : Placed published (state.become call phase) := by
  refine ⟨placed.bases,fun now member => ?_,placed.held,fun entry w there collection => ?_,fun now member goes => ?_⟩
  · obtain ⟨old,listed,same | same⟩ := become_back member
    · rw [same]
      exact placed.placed old listed
    · rw [same.2]
      exact placed.placed old listed
  · rw [placed.counted entry w there collection]
    have moved := countP_modify (within entry collection) (fun old => { old with phase := phase }) found
    have same : within entry collection { c with phase := phase } = within entry collection c := by simp only [within,inside]
    rw [same] at moved
    exact (Nat.add_right_cancel moved).symm
  · obtain ⟨old,listed,same | same⟩ := become_back member
    · rw [same] at goes ⊢
      exact placed.active old listed goes
    · cases Option.some.inj (found.symm.trans same.1)
      rw [same.2] at goes ⊢
      obtain ⟨was,closes⟩ := active goes
      exact (placed.active c listed was).imp_right fun both => ⟨both.1,closes both.2⟩

theorem inside_active (inside : phase.inside = true) : phase.active = true := by
  cases phase <;> first | rfl | cases inside

theorem active_inside (active : phase.active = true) (still : phase ≠ .closing) : phase.inside = true := by
  cases phase with
  | closing => exact absurd rfl still
  | restored => cases active
  | settled => cases active
  | opening | opened | body => rfl

theorem written_named (placed : Placed published state) (w : Entry) (there : state.entries[entry]? = some w)
    (calls : List Call)
    (forth : ∀ other ∈ state.calls, other.phase.inside = true → ∃ now ∈ calls, now.phase.active = true ∧ now.collection = other.collection)
    (back : ∀ now ∈ calls, now.phase = .opened ∨ now.phase = .body → ∃ other ∈ state.calls, other.collection = now.collection ∧ other.phase.inside = true ∧ other.entry = entry) :
    Named published { state with setting := grants w.base w.windows, calls := calls } := by
  have base : w.base = published := placed.bases w (List.mem_of_getElem? there)
  refine ⟨w.windows,by rw [base],fun collection listed => ?_,fun now member goes => ?_⟩
  · have some_call : 0 < state.calls.countP (within entry collection) := by
      rw [← placed.counted entry w there collection]
      exact List.count_pos_iff.mpr listed
    obtain ⟨other,member,same⟩ := List.countP_pos_iff.mp some_call
    simp only [within,Bool.and_eq_true,decide_eq_true_eq] at same
    obtain ⟨now,kept,active,collection⟩ := forth other member same.1.2
    exact ⟨now,kept,active,collection.trans same.2⟩
  · obtain ⟨other,member,collection,inside,where_⟩ := back now member goes
    refine List.count_pos_iff.mp ?_
    rw [placed.counted entry w there,List.countP_pos_iff]
    exact ⟨other,member,by simp only [within,Bool.and_eq_true,decide_eq_true_eq]; exact ⟨⟨where_,inside⟩,collection⟩⟩

theorem write_sound (sound : Sound published state) (found : state.calls[call]? = some c) (goes : c.phase.active = true) (keeps : phase.inside = c.phase.inside)
    (ends : phase.active = true → c.phase ≠ .closing) (written : state.writeReadWindow c.entry = some after) : Sound published (after.become call phase) := by
  obtain ⟨placed,_⟩ := sound
  obtain ⟨w,there,ready⟩ := Option.bind_eq_some_iff.mp written
  split at ready
  · cases Option.some.inj ready
    have alone : ∀ other ∈ state.calls, other.phase = .opened ∨ other.phase = .body → other.entry = c.entry := by
      intro other member opened
      have other_active : other.phase.active = true := by rcases opened with same | same <;> rw [same] <;> rfl
      have other_closing : other.phase ≠ .closing := by rcases opened with same | same <;> rw [same] <;> exact Phase.noConfusion
      have current := (placed.active other member other_active).resolve_right fun both => other_closing both.2
      rcases placed.active c (List.mem_of_getElem? found) goes with mine | none_left
      · exact Option.some.inj (current.symm.trans mine)
      · rw [none_left.1] at current
        cases current
    have before : Placed published { state with setting := grants w.base w.windows } := ⟨placed.bases,placed.placed,placed.held,placed.counted,placed.active⟩
    refine ⟨become_placed phase before found keeps fun active => ⟨goes,fun wrong => absurd wrong (ends active)⟩,?_⟩
    refine written_named placed w there _ (fun other member inside => ?_) fun now member opened => ?_
    · obtain ⟨now,kept,collection,same | same⟩ := become_forth call phase member
      · exact ⟨now,kept,by rw [same]; exact inside_active inside,collection⟩
      · cases Option.some.inj (found.symm.trans same.1)
        refine ⟨now,kept,?_,collection⟩
        rw [same.2]
        exact inside_active (keeps.trans inside)
    · obtain ⟨old,listed,same | same⟩ := become_back member
      · rw [same] at opened ⊢
        refine ⟨old,listed,rfl,?_,alone old listed opened⟩
        rcases opened with same | same <;> rw [same] <;> rfl
      · cases Option.some.inj (found.symm.trans same.1)
        rw [same.2] at opened ⊢
        refine ⟨c,listed,rfl,?_,rfl⟩
        rw [← keeps]
        rcases opened with same | same <;> rw [show phase = _ from same] <;> rfl
  · cases ready

theorem become_named (phase : Phase) (named : Named published state) (found : state.calls[call]? = some c) (kept : c.phase.active = true → phase.active = true)
    (opened : phase = .opened ∨ phase = .body → c.phase = .opened ∨ c.phase = .body) : Named published (state.become call phase) := by
  obtain ⟨windows,setting,backed,listed⟩ := named
  refine ⟨windows,setting,fun collection member => ?_,fun now member goes => ?_⟩
  · obtain ⟨old,there,active,same⟩ := backed collection member
    obtain ⟨now,here,equal,phase_same | changed⟩ := become_forth call phase there
    · exact ⟨now,here,by rw [phase_same]; exact active,equal.trans same⟩
    · cases Option.some.inj (found.symm.trans changed.1)
      exact ⟨now,here,by rw [changed.2]; exact kept active,equal.trans same⟩
  · obtain ⟨old,there,same | same⟩ := become_back member
    · rw [same] at goes ⊢
      exact listed old there goes
    · cases Option.some.inj (found.symm.trans same.1)
      rw [same.2] at goes ⊢
      exact listed c there (opened goes)

theorem finish_sound (sound : Sound published state) (found : state.calls[call]? = some c) (body : c.phase = .body) :
    Sound published { state.become call .closing with entries := state.entries.modify c.entry fun w => { w with windows := w.windows.erase c.collection } } := by
  obtain ⟨placed,named⟩ := sound
  have member := List.mem_of_getElem? found
  refine ⟨⟨all_modify (fun _ same => same) placed.bases,fun now listed => ?_,fun entry same => ?_,fun entry w there collection => ?_,fun now listed goes => ?_⟩,?_⟩
  · rw [List.length_modify]
    obtain ⟨old,before,same | same⟩ := become_back listed
    · rw [same]
      exact placed.placed old before
    · rw [same.2]
      exact placed.placed old before
  · rw [List.length_modify]
    exact placed.held entry same
  · rw [List.getElem?_modify] at there
    obtain ⟨old,before,same⟩ := Option.map_eq_some_iff.mp there
    have moved := countP_modify (within entry collection) (fun old => { old with phase := .closing }) found
    have gone : within entry collection { c with phase := .closing } = false := by simp [within,Phase.inside]
    have was : within entry collection c = decide (c.entry = entry ∧ c.collection = collection) := by simp [within,body,Phase.inside]
    rw [gone,was,← placed.counted entry old before collection] at moved
    show w.windows.count collection = (state.calls.modify call _).countP _
    subst same
    by_cases mine : c.entry = entry
    · simp only [if_pos mine,List.count_erase]
      by_cases own : c.collection = collection
      · simp only [mine,own,and_self,decide_true,if_true,Bool.false_eq_true,if_false] at moved
        simp only [own,BEq.rfl,if_true]
        omega
      · simp only [mine,own,and_false,decide_false,Bool.false_eq_true,if_false] at moved
        rw [if_neg (by simpa using own)]
        omega
    · simp only [if_neg mine]
      simp only [mine,false_and,decide_false,Bool.false_eq_true,if_false] at moved
      omega
  · obtain ⟨old,before,same | same⟩ := become_back listed
    · rw [same] at goes ⊢
      exact placed.active old before goes
    · cases Option.some.inj (found.symm.trans same.1)
      rw [same.2]
      have active : c.phase.active = true := by rw [body]; rfl
      exact (placed.active c member active).imp_right fun both => ⟨both.1,rfl⟩
  · exact become_named _ named found (fun _ => rfl) fun wrong => by rcases wrong with wrong | wrong <;> cases wrong

theorem settle_sound (sound : Sound published state) (found : state.calls[call]? = some c) (restored : c.phase = .restored) :
    Sound published { state.become call .settled with
      current := if (state.entries[c.entry]?).elim false (fun w => w.windows = []) && state.current = some c.entry then none else state.current } := by
  obtain ⟨placed,named⟩ := sound
  have gone := become_placed .settled placed found (by rw [restored]; rfl) fun wrong => by cases wrong
  have names := become_named .settled named found (by rw [restored]; exact id) fun wrong => by rcases wrong with wrong | wrong <;> cases wrong
  split
  · next dropped =>
    rw [Bool.and_eq_true,decide_eq_true_eq] at dropped
    refine ⟨⟨gone.bases,gone.placed,fun _ wrong => (by cases wrong),gone.counted,fun now member goes => .inr ⟨rfl,?_⟩⟩,names⟩
    by_contra still
    have inside := active_inside goes still
    have mine : now.entry = c.entry := by
      rcases gone.active now member goes with current | both
      · exact (Option.some.inj (current.symm.trans dropped.2))
      · exact absurd both.2 still
    cases there : state.entries[c.entry]? with
    | none =>
      rw [there] at dropped
      exact absurd dropped.1 Bool.false_ne_true
    | some w =>
      rw [there] at dropped
      have empty : w.windows = [] := of_decide_eq_true dropped.1
      have none_left := gone.counted c.entry w there now.collection
      rw [empty,List.count_nil] at none_left
      refine absurd (List.countP_pos_iff.mpr ⟨now,member,?_⟩) (by rw [← none_left]; exact Nat.lt_irrefl 0)
      simp only [within,Bool.and_eq_true,decide_eq_true_eq]
      exact ⟨⟨mine,inside⟩,trivial⟩
  · exact ⟨⟨gone.bases,gone.placed,gone.held,gone.counted,gone.active⟩,names⟩

theorem countP_snoc (calls : List Call) (test : Call → Bool) (last : Call) : (calls ++ [last]).countP test = calls.countP test + if test last then 1 else 0 := by
  rw [List.countP_append,List.countP_singleton]

theorem snoc_named (named : Named published state) (entry : Nat) (collection : Text) (entries : List Entry) (current : Option Nat) :
    Named published ⟨state.setting,entries,current,state.calls ++ [⟨entry,collection,.opening⟩]⟩ := by
  obtain ⟨windows,setting,backed,listed⟩ := named
  refine ⟨windows,setting,fun other member => ?_,fun now member goes => ?_⟩
  · obtain ⟨old,there,same⟩ := backed other member
    exact ⟨old,List.mem_append_left _ there,same⟩
  · rcases List.mem_append.mp member with before | last
    · exact listed now before goes
    · rw [List.mem_singleton.mp last] at goes
      rcases goes with wrong | wrong <;> cases wrong

theorem join_sound (sound : Sound published state) (current : state.current = some entry) (collection : Text) :
    Sound published { state with
      entries := state.entries.modify entry fun w => { w with windows := w.windows ++ [collection] }
      calls := state.calls ++ [⟨entry,collection,.opening⟩] } := by
  obtain ⟨placed,named⟩ := sound
  refine ⟨⟨all_modify (fun _ same => same) placed.bases,fun now listed => ?_,fun other same => ?_,fun other w there name => ?_,fun now listed goes => ?_⟩,snoc_named named ..⟩
  · rw [List.length_modify]
    rcases List.mem_append.mp listed with before | last
    · exact placed.placed now before
    · rw [List.mem_singleton.mp last]
      exact placed.held entry current
  · rw [List.length_modify]
    exact placed.held other same
  · rw [List.getElem?_modify] at there
    obtain ⟨old,before,same⟩ := Option.map_eq_some_iff.mp there
    show w.windows.count name = (state.calls ++ [_]).countP _
    rw [countP_snoc,← placed.counted other old before name]
    subst same
    by_cases mine : entry = other
    · simp only [mine,if_true,List.count_append,List.count_singleton,within,Phase.inside,decide_true,Bool.true_and,beq_iff_eq,decide_eq_true_eq]
    · simp only [mine,within,decide_false,Bool.false_and,Bool.false_eq_true,if_false,Nat.add_zero]
  · rcases List.mem_append.mp listed with before | last
    · exact placed.active now before goes
    · rw [List.mem_singleton.mp last]
      exact .inl current

theorem first_sound (sound : Sound published state) (none_left : state.current = none) (ended : ∀ call ∈ state.calls, call.phase ≠ .closing) (collection : Text) :
    Sound published { state with
      entries := state.entries ++ [⟨state.setting,false,[collection]⟩]
      current := some state.entries.length
      calls := state.calls ++ [⟨state.entries.length,collection,.opening⟩] } := by
  obtain ⟨placed,named⟩ := sound
  have quiet : ∀ other ∈ state.calls, other.phase.active = false := by
    intro other member
    by_contra goes
    rcases placed.active other member (Bool.not_eq_false _ ▸ goes) with current | both
    · rw [none_left] at current
      cases current
    · exact ended other member both.2
  have outside (entry : Nat) (name : Text) : state.calls.countP (within entry name) = 0 := by
    refine List.countP_eq_zero.mpr fun other member wrong => ?_
    simp only [within,Bool.and_eq_true] at wrong
    have active := inside_active wrong.1.2
    rw [quiet other member] at active
    cases active
  have setting : state.setting = published := by
    obtain ⟨windows,same,backed,_⟩ := named
    cases windows with
    | nil => exact same
    | cons head rest =>
      obtain ⟨other,member,active,_⟩ := backed head (List.mem_cons_self ..)
      rw [quiet other member] at active
      cases active
  refine ⟨⟨fun other listed => ?_,fun now listed => ?_,fun other same => ?_,fun other w there name => ?_,fun now listed goes => ?_⟩,snoc_named named ..⟩
  · rcases List.mem_append.mp listed with before | last
    · exact placed.bases other before
    · rw [List.mem_singleton.mp last]
      exact setting
  · rw [List.length_append]
    rcases List.mem_append.mp listed with before | last
    · exact (placed.placed now before).trans (Nat.lt_succ_self _)
    · rw [List.mem_singleton.mp last]
      exact Nat.lt_succ_self _
  · cases Option.some.inj same
    rw [List.length_append]
    exact Nat.lt_succ_self _
  · show w.windows.count name = (state.calls ++ [_]).countP _
    rw [countP_snoc,outside,Nat.zero_add]
    rcases Nat.lt_trichotomy other state.entries.length with less | same | more
    · rw [List.getElem?_append_left less] at there
      rw [placed.counted other w there name,outside]
      have apart : state.entries.length ≠ other := by omega
      simp only [within,apart,decide_false,Bool.false_and,Bool.false_eq_true,if_false]
    · rw [same,List.getElem?_append_right (Nat.le_refl _),Nat.sub_self] at there
      cases Option.some.inj there
      simp only [same,within,Phase.inside,decide_true,Bool.true_and,List.count_singleton,beq_iff_eq,decide_eq_true_eq]
    · rw [List.getElem?_eq_none (by rw [List.length_append]; exact more)] at there
      cases there
  · rcases List.mem_append.mp listed with before | last
    · rw [quiet now before] at goes
      cases goes
    · rw [List.mem_singleton.mp last]
      exact .inl rfl

theorem resolve_sound (sound : Sound published state) (entry : Nat) :
    Sound published { state with entries := state.entries.modify entry fun w => { w with resolved := true } } := by
  obtain ⟨placed,named⟩ := sound
  refine ⟨⟨all_modify (fun _ same => same) placed.bases,fun now listed => ?_,fun other same => ?_,fun other w there name => ?_,placed.active⟩,named⟩
  · rw [List.length_modify]
    exact placed.placed now listed
  · rw [List.length_modify]
    exact placed.held other same
  · rw [List.getElem?_modify] at there
    obtain ⟨old,before,same⟩ := Option.map_eq_some_iff.mp there
    rw [← placed.counted other old before name,← same]
    split <;> rfl

theorem step_sound : Preserved step Permitted (Sound published) := by
  intro state action after sound allowed moved
  cases action with
  | start collection =>
    simp only [step] at moved
    split at moved
    · next entry current =>
      cases Option.some.inj moved
      exact join_sound sound current collection
    · next none_left =>
      cases Option.some.inj moved
      exact first_sound sound none_left (allowed none_left) collection
  | resolve entry =>
    cases Option.some.inj moved
    exact resolve_sound sound entry
  | write call =>
    obtain ⟨c,found,moved⟩ := Option.bind_eq_some_iff.mp moved
    split at moved
    · next phase =>
      obtain ⟨written,issued,same⟩ := Option.map_eq_some_iff.mp moved
      rw [← same]
      exact write_sound sound found (by rw [phase]; rfl) (by rw [phase]; rfl) (fun _ => by rw [phase]; exact Phase.noConfusion) issued
    · cases moved
  | run call =>
    obtain ⟨c,found,moved⟩ := Option.bind_eq_some_iff.mp moved
    split at moved
    · next phase =>
      cases Option.some.inj moved
      exact ⟨become_placed _ sound.1 found (by rw [phase]; rfl) fun _ => ⟨by rw [phase]; rfl,fun wrong => absurd (phase.symm.trans wrong) Phase.noConfusion⟩,
        become_named _ sound.2 found (fun _ => rfl) fun _ => .inl phase⟩
    · cases moved
  | finish call =>
    obtain ⟨c,found,moved⟩ := Option.bind_eq_some_iff.mp moved
    split at moved
    · next phase =>
      cases Option.some.inj moved
      exact finish_sound sound found phase
    · cases moved
  | restore call =>
    obtain ⟨c,found,moved⟩ := Option.bind_eq_some_iff.mp moved
    split at moved
    · next phase =>
      obtain ⟨written,issued,same⟩ := Option.map_eq_some_iff.mp moved
      rw [← same]
      exact write_sound sound found (by rw [phase]; rfl) (by rw [phase]; rfl) (fun wrong => by cases wrong) issued
    · cases moved
  | settle call =>
    obtain ⟨c,found,moved⟩ := Option.bind_eq_some_iff.mp moved
    split at moved
    · next phase =>
      cases Option.some.inj moved
      exact settle_sound sound found phase
    · cases moved

theorem start_sound (published : Text) : Sound published (State.start published) := by
  have none_left {call : Call} (member : call ∈ (State.start published).calls) : False := List.not_mem_nil member
  refine ⟨⟨fun _ member => absurd member List.not_mem_nil,fun _ member => (none_left member).elim,fun _ wrong => (by cases wrong),
    fun _ _ wrong => (by cases wrong),fun _ member => (none_left member).elim⟩,[],rfl,fun _ member => absurd member List.not_mem_nil,
    fun _ member => (none_left member).elim⟩

-- What the policies look for in the published grants.
def Names (setting collection : Text) : Prop := ','::(read collection ++ [',']) <:+: setting

theorem flatMap_ended {list : List Text} (front : Text) (member : part ∈ list) :
    ','::(part ++ [',']) <:+: (front ++ [',']) ++ list.flatMap fun part => part ++ [','] := by
  induction list generalizing front with
  | nil => cases member
  | cons head rest ih =>
    rcases List.mem_cons.mp member with same | later
    · rw [same]
      exact ⟨front,rest.flatMap fun part => part ++ [','],by simp⟩
    · have inside := ih (front ++ [','] ++ head) later
      simpa using inside

theorem grants_names {published : Text} (ended : published = [] ∨ published.getLast? = some ',') (listed : collection ∈ windows) :
    Names (grants published windows) collection := by
  have member : read collection ∈ windows.eraseDups.map read := List.mem_map_of_mem (List.mem_eraseDups.mpr listed)
  have some_part : windows.eraseDups.map read ≠ [] := List.ne_nil_of_mem member
  have some_char : joined ',' (windows.eraseDups.map read) ≠ [] := by
    intro empty
    have short := congrArg List.length (@joined_ended ',' _ some_part)
    rw [empty] at short
    obtain ⟨front,back,split⟩ := List.append_of_mem member
    rw [split] at short
    simp [read] at short
    omega
  have comma : ∃ front, (if published = [] then [','] else published) = front ++ [','] := by
    rcases ended with empty | last
    · exact ⟨[],by rw [if_pos empty]; rfl⟩
    · have some_text : published ≠ [] := by
        intro empty
        rw [empty] at last
        cases last
      obtain ⟨front,same⟩ := List.getLast?_eq_some_iff.mp last
      exact ⟨front,by rw [if_neg some_text,same]⟩
  obtain ⟨front,same⟩ := comma
  unfold Names grants
  simp only [if_neg some_char]
  rw [same,List.append_assoc,joined_ended some_part]
  exact flatMap_ended front member

end

-- Every body reads under its own window, no window is left beyond the published grants, none was measured from widened ones.
theorem windows_clean {published : Text} {state : State} (ended : published = [] ∨ published.getLast? = some ',')
    (guarded : Guarded step Permitted (State.start published) actions) (path : run step (State.start published) actions = some state) :
    (∀ call ∈ state.calls, call.phase = .body → Names state.setting call.collection) ∧
    (∃ windows, state.setting = grants published windows ∧
      ∀ collection ∈ windows, ∃ call ∈ state.calls, call.phase.active = true ∧ call.collection = collection) ∧
    (∀ entry ∈ state.entries, entry.base = published) ∧
    ((∀ call ∈ state.calls, call.phase = .settled) → state.setting = published) := by
  obtain ⟨placed,windows,setting,backed,listed⟩ := run_preserves step_sound (start_sound published) guarded path
  refine ⟨fun call member body => ?_,⟨windows,setting,backed⟩,placed.bases,fun settled => ?_⟩
  · rw [setting]
    exact grants_names ended (listed call member (.inr body))
  · cases windows with
    | nil => exact setting
    | cons head rest =>
      obtain ⟨call,member,active,_⟩ := backed head (List.mem_cons_self ..)
      rw [settled call member] at active
      cases active

-- Two windows overlap; the second has left when the first one's last step drops the entry, and a third joins before its restore is issued.
def slipped : List Action :=
  [.start ['a'],.resolve 0,.write 0,.run 0,.start ['b'],.write 1,.run 1,.finish 0,.restore 0,.finish 1,.settle 0,.start ['c'],.restore 1,.settle 1,
    .resolve 1,.write 2,.run 2,.finish 2,.restore 2,.settle 2]

theorem grant_left : ∃ state, run step (State.start []) slipped = some state ∧ (∀ call ∈ state.calls, call.phase = .settled) ∧
    state.setting = [',','b',':','r','e','a','d',','] := ⟨_,rfl,by decide,by decide⟩

def overlapping : List Action :=
  [.start ['a'],.resolve 0,.write 0,.run 0,.start ['b'],.write 1,.run 1,.finish 0,.restore 0,.finish 1,.restore 1,.settle 0,.settle 1,
    .start ['a'],.resolve 1,.write 2,.run 2]

theorem windows_clean_overlapping : ∃ state, run step (State.start [',','x',':','*',',']) overlapping = some state ∧ Names state.setting ['a'] := by
  have guarded : Guarded step Permitted (State.start [',','x',':','*',',']) overlapping := by
    refine guarded_cons (show Permitted _ (.start _) from fun _ call member => absurd member List.not_mem_nil) rfl ?_
    refine guarded_cons (show Permitted _ (.resolve 0) from trivial) rfl ?_
    refine guarded_cons (show Permitted _ (.write 0) from trivial) rfl ?_
    refine guarded_cons (show Permitted _ (.run 0) from trivial) rfl ?_
    refine guarded_cons (show Permitted _ (.start _) from fun wrong => by cases wrong) rfl ?_
    refine guarded_cons (show Permitted _ (.write 1) from trivial) rfl ?_
    refine guarded_cons (show Permitted _ (.run 1) from trivial) rfl ?_
    refine guarded_cons (show Permitted _ (.finish 0) from trivial) rfl ?_
    refine guarded_cons (show Permitted _ (.restore 0) from trivial) rfl ?_
    refine guarded_cons (show Permitted _ (.finish 1) from trivial) rfl ?_
    refine guarded_cons (show Permitted _ (.restore 1) from trivial) rfl ?_
    refine guarded_cons (show Permitted _ (.settle 0) from trivial) rfl ?_
    refine guarded_cons (show Permitted _ (.settle 1) from trivial) rfl ?_
    refine guarded_cons (show Permitted _ (.start _) from fun _ => by decide) rfl ?_
    refine guarded_cons (show Permitted _ (.resolve 1) from trivial) rfl ?_
    refine guarded_cons (show Permitted _ (.write 2) from trivial) rfl ?_
    refine guarded_cons (show Permitted _ (.run 2) from trivial) rfl ?_
    trivial
  exact ⟨_,rfl,(windows_clean (.inr rfl) guarded rfl).1 ⟨1,['a'],.body⟩ (List.mem_of_getElem? (i := 2) rfl) rfl⟩

end Zveltio.ReadWindows
