import Zveltio.PolicyMemo
import Zveltio.PolicyTable
namespace Zveltio.PolicyReceive

open Runs PolicyTable

-- A local write that has cleared the caches and awaits its statement (held: the model had
-- the rule), one whose statement is done, and default grants being written row by row.
inductive Call where
  | adding (rule : Rule) (held : Bool)
  | removing (rule : Rule) (held : Bool)
  | added (rule : Rule)
  | removed (rule : Rule)
  | granting (todo : List Grant) (done : List Rule)

-- The change being received: its rows are read, or its rules are compared one by one.
inductive Receive where
  | reading (candidates : List Rule)
  | editing (held rest : List Rule) (touched : Bool)

-- bus holds the messages under way, queue those on _receiveChain; touched logs every
-- rule written to the table or compared with it.
structure State where
  store : Store
  model : List Rule
  memo : PolicyMemo.State
  bus : List Change
  queue : List Change
  active : Option Receive
  calls : List Call
  touched : List Rule

def State.initial (store : Store) (model : List Rule) : State := ⟨store,model,PolicyMemo.State.initial,[],[],none,[],[]⟩

inductive Action where
  | addPolicy (rule : Rule)
  | removePolicy (rule : Rule)
  | materialize (resources : List String) (extension : Bool)
  | advance (call : Nat)
  | remoteAdd (rule : Rule)
  | remoteRemove (rule : Rule)
  | remoteFiltered (sec : Sec) (filter : Filter)
  | publish (change : Change)
  | deliver (message : Nat)
  | receive
  | reader (action : PolicyMemo.Action)

-- The model's version moves when a rule is added or removed.
def moved (memo : PolicyMemo.State) (changed : Bool) : PolicyMemo.State :=
  if changed then {memo with version := memo.version + 1} else memo

def advance (sensitive : List String) (state : State) (index : Nat) : Call → State
  | .adding rule held =>
    {state with
      store := state.store.insert rule
      touched := rule::state.touched
      calls := if held then state.calls.eraseIdx index else state.calls.set index (.added rule)}
  | .removing rule held =>
    {state with
      store := state.store.delete sensitive (· = rule)
      touched := rule::state.touched
      calls := if held then state.calls.set index (.removed rule) else state.calls.eraseIdx index}
  | .added rule =>
    {state with
      model := addPolicy state.model rule
      memo := moved state.memo (rule ∉ state.model)
      calls := state.calls.eraseIdx index}
  | .removed rule =>
    {state with
      model := removePolicy state.model rule
      memo := moved state.memo (rule ∈ state.model)
      calls := state.calls.eraseIdx index}
  | .granting (grant::todo) done => match state.store.grant grant with
    | none => {state with calls := state.calls.set index (.granting todo done)}
    | some store =>
      {state with
        store
        touched := grant.rule::state.touched
        calls := state.calls.set index (.granting todo (done ++ [grant.rule]))}
  | .granting [] done =>
    let added := done.any fun rule => rule ∉ state.model
    {state with
      model := done.foldl addPolicy state.model
      memo := if added then (moved state.memo true).clear else state.memo
      calls := state.calls.eraseIdx index}

-- The next step of the chain: take a change up, read its rows, compare a rule, clear.
def receive (state : State) : Option State := match state.active with
  | none => match state.queue with
    | [] => none
    | change::queue =>
      let named := candidates change state.model
      some {state with queue,active := if named = [] then none else some (.reading named)}
  | some (.reading candidates) =>
    some {state with active := some (.editing (heldRows state.store.rows candidates) candidates false)}
  | some (.editing held (rule::rest) touched) =>
    let want : Bool := rule ∈ held
    let has : Bool := rule ∈ state.model
    some {state with
      model := if want = has then state.model
        else if want then addPolicy state.model rule else removePolicy state.model rule
      memo := moved state.memo (want ≠ has)
      touched := rule::state.touched
      active := some (.editing held rest (touched || want ≠ has))}
  | some (.editing _ [] touched) =>
    some {state with active := none,memo := if touched then state.memo.clear else state.memo}

def step (sensitive : List String) (state : State) : Action → Option State
  | .addPolicy rule =>
    some {state with memo := state.memo.clear,calls := state.calls ++ [.adding rule (rule ∈ state.model)]}
  | .removePolicy rule =>
    some {state with memo := state.memo.clear,calls := state.calls ++ [.removing rule (rule ∈ state.model)]}
  | .materialize resources extension =>
    some {state with calls := state.calls ++ [.granting (defaultGrants sensitive resources extension) []]}
  | .advance index => (state.calls[index]?).map (advance sensitive state index)
  | .remoteAdd rule =>
    some {state with
      store := state.store.insert rule
      touched := rule::state.touched
      bus := state.bus ++ [⟨rule.sec,[rule.values],none⟩]}
  | .remoteRemove rule =>
    some {state with
      store := state.store.delete sensitive (· = rule)
      touched := rule::state.touched
      bus := state.bus ++ [⟨rule.sec,[rule.values],none⟩]}
  | .remoteFiltered sec filter =>
    let change : Change := ⟨sec,[],some filter⟩
    some {state with
      store := state.store.delete sensitive change.filtered
      touched := state.store.rows.filter change.filtered ++ state.touched
      bus := state.bus ++ [change]}
  | .publish change => some {state with bus := state.bus ++ [change]}
  | .deliver index => (state.bus[index]?).map fun change =>
    {state with bus := state.bus.eraseIdx index,queue := state.queue ++ [change]}
  | .receive => receive state
  | .reader action => match action with
    | .start _ | .advance _ | .skip _ | .quit _ | .expire _ _ =>
      (PolicyMemo.step state.memo action).map fun memo => {state with memo}
    | _ => none

def Clearing (state : State) : Prop := ∃ held rest, state.active = some (.editing held rest true)

def OnFile (memo : PolicyMemo.State) (slot : PolicyMemo.Slot) : Prop := memo.lookup memo.gen slot ≠ none

-- A rule of the model changes only to what the table holds then; a write that leaves the
-- model alone still finds it as it was; the rest is about what is filed.
def Permitted (state : State) : Action → Prop
  | .advance index => ∀ call, state.calls[index]? = some call → match call with
    | .adding rule held => held = true → rule ∈ state.model
    | .removing rule held => held = false → rule ∉ state.model
    | .added rule => rule ∉ state.model → rule ∈ state.store.rows ∧ (Clearing state ∨ ∀ slot, ¬OnFile state.memo slot)
    | .removed rule => rule ∈ state.model → rule ∉ state.store.rows ∧ (Clearing state ∨ ∀ slot, ¬OnFile state.memo slot)
    | .granting (_::_) _ => True
    | .granting [] done => ∀ rule ∈ done, rule ∉ state.model → rule ∈ state.store.rows
  | .receive => ∀ held rule rest touched, state.active = some (.editing held (rule::rest) touched) →
      ¬(rule ∈ held ↔ rule ∈ state.model) → (rule ∈ held ↔ rule ∈ state.store.rows)
  | .reader action => Clearing state ∨ PolicyMemo.Permitted state.memo action
  | _ => True

-- No namespace ahead of the generation is in use.
structure Tidy (memo : PolicyMemo.State) : Prop where
  ahead : ∀ space key, memo.gen < space → memo.cache space key = none
  spaces : ∀ reader ∈ memo.readers, ∀ frame ∈ reader.frames, frame.space ≤ memo.gen

def Current (memo : PolicyMemo.State) : Prop := ∀ slot entry, memo.lookup memo.gen slot = some entry → entry = memo.version

theorem clear_tidy {memo : PolicyMemo.State} (tidy : Tidy memo) : Tidy memo.clear :=
  ⟨fun space key far => tidy.ahead space key (Nat.lt_of_succ_lt far),
    fun reader member frame inside => Nat.le_succ_of_le (tidy.spaces reader member frame inside)⟩

theorem clear_current {memo : PolicyMemo.State} (tidy : Tidy memo) : Current memo.clear := by
  intro slot entry found
  cases slot with
  | policyObjects => cases found
  | effective subject => cases found
  | cached key => cases (tidy.ahead _ key (Nat.lt_succ_self _)).symm.trans found

theorem moved_tidy {memo : PolicyMemo.State} (tidy : Tidy memo) (changed : Bool) : Tidy (moved memo changed) := by
  cases changed with
  | false => exact tidy
  | true => exact ⟨tidy.ahead,tidy.spaces⟩

theorem moved_current {memo : PolicyMemo.State} (current : Current memo)
    (empty : changed = true → ∀ slot, ¬OnFile memo slot) : Current (moved memo changed) := by
  cases changed with
  | false => exact current
  | true =>
    intro slot entry found
    have same : memo.lookup memo.gen slot = some entry := by cases slot <;> exact found
    exact absurd (by simp [OnFile,same]) (empty rfl slot)

theorem store_tidy {memo : PolicyMemo.State} (tidy : Tidy memo) (slot : PolicyMemo.Slot)
    (known : ∀ version ∈ entry, space ≤ memo.gen) : Tidy (memo.store space slot entry) := by
  have gen : (memo.store space slot entry).gen = memo.gen := by cases slot <;> rfl
  refine ⟨fun where' key far => ?_,fun reader member frame inside => ?_⟩
  · rw [gen] at far
    cases here : (memo.store space slot entry).cache where' key with
    | none => rfl
    | some found =>
      rcases PolicyMemo.store_cache here with ⟨filed,rfl⟩ | old
      · exact absurd (known found filed) (Nat.not_le.mpr far)
      · cases (tidy.ahead where' key far).symm.trans old
  · rw [gen]
    exact tidy.spaces reader (by cases slot <;> exact member) frame inside

theorem store_current {memo : PolicyMemo.State} (current : Current memo) (slot : PolicyMemo.Slot)
    (fresh : ∀ version ∈ entry, version = memo.version) : Current (memo.store space slot entry) := by
  have gen : (memo.store space slot entry).gen = memo.gen := by cases slot <;> rfl
  have version : (memo.store space slot entry).version = memo.version := by cases slot <;> rfl
  intro other found here
  rw [gen] at here
  rw [version]
  rcases PolicyMemo.store_lookup here with filed | old
  · exact fresh found filed
  · exact current other found old

theorem set_tidy {memo : PolicyMemo.State} (tidy : Tidy memo) (frames : ∀ frame ∈ reader.frames, frame.space ≤ memo.gen)
    (index : Nat) : Tidy {memo with readers := memo.readers.set index reader} := by
  refine ⟨tidy.ahead,fun other member => ?_⟩
  rcases List.mem_or_eq_of_mem_set member with old | rfl
  · exact tidy.spaces other old
  · exact frames

-- What the readers do: they file nothing under a namespace ahead of the generation, and
-- where the filing is permitted only what is as new as the model.
theorem advance_memo {memo : PolicyMemo.State} (tidy : Tidy memo) (here : memo.readers[index]? = some reader) :
    Tidy {(PolicyMemo.advance memo reader.since reader.frames).1 with
        readers := (PolicyMemo.advance memo reader.since reader.frames).1.readers.set index
          {reader with frames := (PolicyMemo.advance memo reader.since reader.frames).2}} ∧
      (Current memo → PolicyMemo.Permitted memo (.advance index) → Current (PolicyMemo.advance memo reader.since reader.frames).1) := by
  have frames := tidy.spaces reader (List.mem_of_getElem? here)
  have moved : Tidy (PolicyMemo.advance memo reader.since reader.frames).1 ∧
      (PolicyMemo.advance memo reader.since reader.frames).1.gen = memo.gen ∧
      (Current memo → PolicyMemo.Permitted memo (.advance index) →
        Current (PolicyMemo.advance memo reader.since reader.frames).1) := by
    generalize (PolicyMemo.advance memo reader.since reader.frames).1 = after,
      PolicyMemo.advance_effect memo reader.since reader.frames = effect
    cases effect with
    | stays => exact ⟨tidy,rfl,fun current _ => current⟩
    | answers inside found => exact ⟨⟨tidy.ahead,tidy.spaces⟩,rfl,fun current _ slot entry found => current slot entry (by cases slot <;> exact found)⟩
    | files frame below slot rest version own body now oldest =>
      have inside : frame ∈ reader.frames := own ▸ List.mem_cons_self ..
      refine ⟨store_tidy tidy slot fun _ _ => frames frame inside,by cases slot <;> rfl,fun current permitted => ?_⟩
      refine store_current current slot fun other found => ?_
      cases Option.some.inj found
      exact permitted reader frame below slot rest version here own body now oldest
  refine ⟨set_tidy moved.1 (fun frame inside => ?_) index,moved.2.2⟩
  rw [moved.2.1]
  rcases PolicyMemo.advance_spaces inside with present | ⟨old,before,same⟩
  · exact Nat.le_of_eq present
  · exact same ▸ frames old before

theorem skipped_spaces {frames : List PolicyMemo.Frame} (frames_ok : ∀ frame ∈ frames, frame.space ≤ gen) :
    ∀ frame ∈ PolicyMemo.skipped frames, frame.space ≤ gen := by
  cases frames with
  | nil => exact frames_ok
  | cons frame below =>
    rw [List.forall_mem_cons] at frames_ok
    dsimp only [PolicyMemo.skipped]
    split <;> exact List.forall_mem_cons.mpr frames_ok

theorem reader_memo {state after : State} (tidy : Tidy state.memo) (one : step sensitive state (.reader action) = some after) :
    ∃ memo, after = {state with memo} ∧ Tidy memo ∧
      (Current state.memo → PolicyMemo.Permitted state.memo action → Current memo) := by
  cases action with
  | start call =>
    cases Option.some.inj one
    refine ⟨_,rfl,⟨tidy.ahead,fun reader member => ?_⟩,
      fun current _ slot entry found => current slot entry (by cases slot <;> exact found)⟩
    rcases List.mem_append.mp member with old | new
    · exact tidy.spaces reader old
    · cases List.mem_singleton.mp new
      intro frame inside
      cases List.mem_singleton.mp inside
      exact Nat.le_refl _
  | advance index =>
    obtain ⟨memo,read,rfl⟩ := Option.map_eq_some_iff.mp one
    obtain ⟨reader,here,rfl⟩ := Option.map_eq_some_iff.mp read
    obtain ⟨kept,filed⟩ := advance_memo tidy here
    exact ⟨_,rfl,kept,fun current permitted slot entry found => filed current permitted slot entry (by cases slot <;> exact found)⟩
  | skip index =>
    obtain ⟨memo,read,rfl⟩ := Option.map_eq_some_iff.mp one
    obtain ⟨reader,here,rfl⟩ := Option.map_eq_some_iff.mp read
    exact ⟨_,rfl,set_tidy tidy (skipped_spaces (tidy.spaces reader (List.mem_of_getElem? here))) index,
      fun current _ slot entry found => current slot entry (by cases slot <;> exact found)⟩
  | quit index =>
    obtain ⟨memo,read,rfl⟩ := Option.map_eq_some_iff.mp one
    obtain ⟨reader,here,rfl⟩ := Option.map_eq_some_iff.mp read
    exact ⟨_,rfl,set_tidy tidy (List.forall_mem_nil _) index,
      fun current _ slot entry found => current slot entry (by cases slot <;> exact found)⟩
  | expire space slot =>
    cases Option.some.inj one
    exact ⟨_,rfl,store_tidy tidy slot nofun,fun current _ => store_current current slot nofun⟩
  | _ => cases one

-- Some call or message still brings the model to the table for the rule.
def covers (state : State) (rule : Rule) (change : Change) : Prop :=
  rule ∈ change.named ∨ change.filtered rule = true ∧ rule ∈ state.model ∧ rule ∉ state.store.rows

def Receiving (state : State) (rule : Rule) : Prop :=
  (∃ named, state.active = some (.reading named) ∧ rule ∈ named) ∨
    ∃ held rest touched, state.active = some (.editing held rest touched) ∧ rule ∈ rest ∧ (rule ∈ held ↔ rule ∈ state.store.rows)

def Calling (state : State) (rule : Rule) : Call → Prop
  | .added own => own = rule ∧ rule ∈ state.store.rows
  | .removed own => own = rule ∧ rule ∉ state.store.rows
  | .granting _ done => rule ∈ done ∧ rule ∈ state.store.rows
  | _ => False

def Covered (state : State) (rule : Rule) : Prop :=
  (rule ∈ state.model ↔ rule ∈ state.store.rows) ∨ (∃ change ∈ state.bus ++ state.queue, covers state rule change) ∨
    Receiving state rule ∨ ∃ call ∈ state.calls, Calling state rule call

structure Settled (state : State) : Prop where
  covered : ∀ rule ∈ state.touched, Covered state rule
  snapshot : ∀ held rest touched, state.active = some (.editing held rest touched) →
    ∀ rule ∈ rest, rule ∈ state.touched ∨ (rule ∈ held ↔ rule ∈ state.store.rows)
  tidy : Tidy state.memo
  current : Clearing state ∨ Current state.memo

theorem receiving_same {before after : State} (rows : rule ∈ before.store.rows ↔ rule ∈ after.store.rows)
    (active : after.active = before.active) (receiving : Receiving before rule) : Receiving after rule := by
  unfold Receiving at receiving ⊢
  rwa [active,← rows]

theorem calling_same {before after : State} (rows : rule ∈ before.store.rows ↔ rule ∈ after.store.rows)
    (calling : Calling before rule call) : Calling after rule call := by
  cases call with
  | added own => exact ⟨calling.1,rows.mp calling.2⟩
  | removed own => exact ⟨calling.1,fun held => calling.2 (rows.mpr held)⟩
  | granting todo done => exact ⟨calling.1,rows.mp calling.2⟩
  | _ => exact calling

theorem covered_kept {before after : State} (covered : Covered before rule) (model : rule ∈ before.model ↔ rule ∈ after.model)
    (rows : rule ∈ before.store.rows ↔ rule ∈ after.store.rows)
    (messages : ∀ change ∈ before.bus ++ before.queue, covers before rule change →
      change ∈ after.bus ++ after.queue ∨ Covered after rule)
    (receiving : Receiving before rule → Covered after rule)
    (calls : ∀ call ∈ before.calls, Calling before rule call → call ∈ after.calls ∨ Covered after rule) :
    Covered after rule := by
  rcases covered with equal | ⟨change,member,covers⟩ | received | ⟨call,member,calling⟩
  · exact .inl (model.symm.trans (equal.trans rows))
  · rcases messages change member covers with kept | done
    · refine .inr (.inl ⟨change,kept,?_⟩)
      unfold PolicyReceive.covers at covers ⊢
      rwa [← model,← rows]
    · exact done
  · exact receiving received
  · rcases calls call member calling with kept | done
    · exact .inr (.inr (.inr ⟨call,kept,calling_same rows calling⟩))
    · exact done

theorem write_settled {before after : State} (settled : Settled before) (written : List Rule)
    (model : after.model = before.model) (active : after.active = before.active) (memo : after.memo = before.memo)
    (touched : after.touched = written ++ before.touched) (queue : after.queue = before.queue)
    (bus : ∀ change ∈ before.bus, change ∈ after.bus)
    (rows : ∀ rule, rule ∉ written → (rule ∈ before.store.rows ↔ rule ∈ after.store.rows))
    (own : ∀ rule ∈ written, Covered after rule)
    (calls : ∀ rule, rule ∉ written → ∀ call ∈ before.calls, Calling before rule call → call ∈ after.calls ∨ Covered after rule) :
    Settled after := by
  refine ⟨fun rule member => ?_,fun held rest flag here rule inside => ?_,memo ▸ settled.tidy,?_⟩
  · by_cases new : rule ∈ written
    · exact own rule new
    · have old : rule ∈ before.touched := (List.mem_append.mp (touched ▸ member)).resolve_left new
      refine covered_kept (settled.covered rule old) (by rw [model]) (rows rule new) (fun change member _ => .inl ?_)
        (fun received => .inr (.inr (.inl (receiving_same (rows rule new) active received)))) (calls rule new)
      rcases List.mem_append.mp member with inBus | queued
      · exact List.mem_append_left _ (bus change inBus)
      · exact List.mem_append_right _ (queue ▸ queued)
  · rw [touched]
    by_cases new : rule ∈ written
    · exact .inl (List.mem_append_left _ new)
    · rcases settled.snapshot held rest flag (active ▸ here) rule inside with old | same
      · exact .inl (List.mem_append_right _ old)
      · exact .inr (same.trans (rows rule new))
  · simpa only [Clearing,active,memo] using settled.current

theorem edit_settled {before after : State} (settled : Settled before) (store : after.store = before.store)
    (active : after.active = before.active) (touched : after.touched = before.touched) (bus : after.bus = before.bus)
    (queue : after.queue = before.queue) (tidy : Tidy after.memo) (current : Clearing before ∨ Current after.memo)
    (model : ∀ rule, (rule ∈ before.model ↔ rule ∈ after.model) ∨ (rule ∈ after.model ↔ rule ∈ after.store.rows))
    (calls : ∀ rule, ∀ call ∈ before.calls, Calling before rule call → call ∈ after.calls ∨ Covered after rule) :
    Settled after := by
  have rows : ∀ rule, rule ∈ before.store.rows ↔ rule ∈ after.store.rows := by simp [store]
  refine ⟨fun rule member => ?_,fun held rest flag here rule inside => ?_,tidy,?_⟩
  · rcases model rule with same | equal
    · exact covered_kept (settled.covered rule (touched ▸ member)) same (rows rule)
        (fun change member _ => .inl (by rwa [bus,queue]))
        (fun received => .inr (.inr (.inl (receiving_same (rows rule) active received)))) (calls rule)
    · exact .inl equal
  · rw [touched,store]
    exact settled.snapshot held rest flag (active ▸ here) rule inside
  · simpa only [Clearing,active] using current

theorem advance_settled {state : State} (settled : Settled state) (here : state.calls[index]? = some call)
    (permitted : Permitted state (.advance index)) : Settled (advance sensitive state index call) := by
  have permitted := permitted call here
  have only : ∀ {rule other}, Calling state rule other → (other ∈ state.calls.eraseIdx index ∨ state.calls[index]? = some other) →
      other ∈ state.calls.eraseIdx index ∨ Calling state rule call := by
    rintro rule other calling (kept | own)
    · exact .inl kept
    · cases here.symm.trans own
      exact .inr calling
  have only' : ∀ {rule other next}, Calling state rule other → (other ∈ state.calls.set index next ∨ state.calls[index]? = some other) →
      other ∈ state.calls.set index next ∨ Calling state rule call := by
    rintro rule other next calling (kept | own)
    · exact .inl kept
    · cases here.symm.trans own
      exact .inr calling
  cases call with
  | adding rule held =>
    have away : ∀ other, other ∉ [rule] → (other ∈ state.store.rows ↔ other ∈ (state.store.insert rule).rows) := by
      intro other new
      simp_all
    refine write_settled settled [rule] rfl rfl rfl rfl rfl (fun _ member => member) away (fun other new => ?_)
      fun other new call member calling => ?_
    · cases List.mem_singleton.mp new
      cases held with
      | true => exact .inl ⟨fun _ => by simp [advance],fun _ => permitted rfl⟩
      | false => exact .inr (.inr (.inr ⟨.added rule,set_member here _,rfl,by simp [advance]⟩))
    · cases held with
      | true => exact .inl ((only calling (kept_or_erased member index)).resolve_right nofun)
      | false => exact .inl ((only' calling (kept_or_set member index _)).resolve_right nofun)
  | removing rule held =>
    have away : ∀ other, other ∉ [rule] → (other ∈ state.store.rows ↔ other ∈ (state.store.delete sensitive (· = rule)).rows) := by
      intro other new
      simp_all
    refine write_settled settled [rule] rfl rfl rfl rfl rfl (fun _ member => member) away (fun other new => ?_)
      fun other new call member calling => ?_
    · cases List.mem_singleton.mp new
      cases held with
      | true => exact .inr (.inr (.inr ⟨.removed rule,set_member here _,rfl,by simp [advance]⟩))
      | false => exact .inl ⟨fun has => absurd has (permitted rfl),fun has => absurd has (by simp [advance])⟩
    · cases held with
      | true => exact .inl ((only' calling (kept_or_set member index _)).resolve_right nofun)
      | false => exact .inl ((only calling (kept_or_erased member index)).resolve_right nofun)
  | added rule =>
    refine edit_settled settled rfl rfl rfl rfl rfl (moved_tidy settled.tidy _) ?_ (fun other => ?_) fun other call member calling => ?_
    · rcases settled.current with clearing | current
      · exact .inl clearing
      by_cases has : rule ∈ state.model
      · exact .inr (moved_current current fun changed => by simp [has] at changed)
      · rcases (permitted has).2 with clearing | empty
        · exact .inl clearing
        · exact .inr (moved_current current fun _ => empty)
    · by_cases own : other = rule
      · subst own
        by_cases has : other ∈ state.model
        · exact .inl (by simp [advance,has])
        · exact .inr ⟨fun _ => (permitted has).1,fun _ => by simp [advance]⟩
      · exact .inl (by simp [advance,own])
    · rcases only calling (kept_or_erased member index) with kept | ⟨rfl,held⟩
      · exact .inl kept
      · exact .inr (.inl ⟨fun _ => held,fun _ => by simp [advance]⟩)
  | removed rule =>
    refine edit_settled settled rfl rfl rfl rfl rfl (moved_tidy settled.tidy _) ?_ (fun other => ?_) fun other call member calling => ?_
    · rcases settled.current with clearing | current
      · exact .inl clearing
      by_cases has : rule ∈ state.model
      · rcases (permitted has).2 with clearing | empty
        · exact .inl clearing
        · exact .inr (moved_current current fun _ => empty)
      · exact .inr (moved_current current fun changed => by simp [has] at changed)
    · by_cases own : other = rule
      · subst own
        by_cases has : other ∈ state.model
        · exact .inr ⟨fun kept => absurd kept (by simp [advance]),fun kept => absurd kept (permitted has).1⟩
        · exact .inl (by simp [advance,has])
      · exact .inl (by simp [advance,own])
    · rcases only calling (kept_or_erased member index) with kept | ⟨rfl,gone⟩
      · exact .inl kept
      · exact .inr (.inl ⟨fun kept => absurd kept (by simp [advance]),fun kept => absurd kept gone⟩)
  | granting todo done =>
    cases todo with
    | nil =>
      have has : ∀ rule, rule ∈ (advance sensitive state index (.granting [] done)).model ↔ rule ∈ state.model ∨ rule ∈ done :=
        fun rule => mem_addPolicies
      refine edit_settled settled rfl rfl rfl rfl rfl ?_ ?_ (fun other => ?_) fun other call member calling => ?_
      · dsimp only [advance]
        split
        · exact clear_tidy (moved_tidy settled.tidy true)
        · exact settled.tidy
      · rcases settled.current with clearing | current
        · exact .inl clearing
        · right
          dsimp only [advance]
          split
          · exact clear_current (moved_tidy settled.tidy true)
          · exact current
      · by_cases inside : other ∈ done
        · by_cases held : other ∈ state.model
          · exact .inl (by simp [has,held])
          · exact .inr ⟨fun _ => permitted other inside held,fun _ => (has other).mpr (.inr inside)⟩
        · exact .inl (by simp [has,inside])
      · rcases only calling (kept_or_erased member index) with kept | ⟨inside,held⟩
        · exact .inl kept
        · exact .inr (.inl ⟨fun _ => held,fun _ => (has other).mpr (.inr inside)⟩)
    | cons grant todo =>
      dsimp only [advance]
      cases granted : state.store.grant grant with
      | none =>
        refine write_settled settled [] rfl rfl rfl rfl rfl (fun _ member => member) (fun _ _ => Iff.rfl) nofun
          fun other new call member calling => ?_
        rcases only' calling (kept_or_set member index _) with kept | own
        · exact .inl kept
        · exact .inr (.inr (.inr (.inr ⟨_,set_member here _,own⟩)))
      | some store =>
        have rows : ∀ other, other ∈ store.rows ↔ other ∈ state.store.rows ∨ other = grant.rule := fun _ => mem_grant granted
        refine write_settled settled [grant.rule] rfl rfl rfl rfl rfl (fun _ member => member) (fun other new => ?_)
          (fun other new => ?_) fun other new call member calling => ?_
        · rw [rows]
          simp_all
        · cases List.mem_singleton.mp new
          exact .inr (.inr (.inr ⟨_,set_member here _,List.mem_append_right _ (List.mem_singleton_self _),(rows _).mpr (.inr rfl)⟩))
        · rcases only' calling (kept_or_set member index _) with kept | ⟨inside,held⟩
          · exact .inl kept
          · exact .inr (.inr (.inr (.inr ⟨_,set_member here _,List.mem_append_left _ inside,(rows _).mpr (.inl held)⟩)))

theorem idle_covered {before after : State} (covered : Covered before rule) (model : before.model = after.model) (store : before.store = after.store)
    (bus : before.bus = after.bus) (queue : before.queue = after.queue) (calls : before.calls = after.calls)
    (receiving : Receiving before rule → Covered after rule) : Covered after rule :=
  covered_kept covered (by rw [model]) (by rw [store]) (fun change member _ => .inl (by rwa [← bus,← queue])) receiving
    fun call member _ => .inl (calls ▸ member)

theorem compared_covered {state : State} (settled : Settled state) (here : state.active = some (.editing held (rule::rest) touched))
    (permitted : Permitted state .receive) (one : receive state = some after) (member : other ∈ after.touched) :
    Covered after other := by
  simp only [receive,here] at one
  cases Option.some.inj one
  have away : other ≠ rule → (other ∈ state.model ↔ other ∈ (if decide (rule ∈ held) = decide (rule ∈ state.model) then state.model
      else if decide (rule ∈ held) = true then addPolicy state.model rule else removePolicy state.model rule)) := by
    intro different
    split
    · exact Iff.rfl
    · split <;> simp [different]
  by_cases same : other = rule
  · subst same
    by_cases agrees : other ∈ held ↔ other ∈ state.model
    · have skipped : decide (other ∈ held) = decide (other ∈ state.model) := decide_eq_decide.mpr agrees
      have covered : (other ∈ held ↔ other ∈ state.store.rows) ∨ Covered state other := by
        rcases settled.snapshot held _ touched here other (List.mem_cons_self ..) with old | fresh
        · exact .inr (settled.covered other old)
        · exact .inl fresh
      rcases covered with fresh | covered
      · exact .inl (by rw [if_pos skipped]; exact agrees.symm.trans fresh)
      · refine covered_kept covered (by rw [if_pos skipped]) Iff.rfl (fun _ member _ => .inl member) (fun receiving => ?_)
          fun _ member _ => .inl member
        rcases receiving with ⟨named,reading,_⟩ | ⟨_,_,_,editing,_,fresh⟩
        · cases here.symm.trans reading
        · cases here.symm.trans editing
          exact .inl (by rw [if_pos skipped]; exact agrees.symm.trans fresh)
    · have changed : decide (other ∈ held) ≠ decide (other ∈ state.model) := fun equal => agrees (decide_eq_decide.mp equal)
      have table := permitted held other rest touched here agrees
      refine .inl ?_
      rw [if_neg changed]
      by_cases want : other ∈ held
      · rw [if_pos (decide_eq_true want)]
        exact ⟨fun _ => table.mp want,fun _ => mem_addPolicy.mpr (.inr rfl)⟩
      · rw [if_neg (by simpa using want)]
        exact ⟨fun kept => absurd rfl (mem_removePolicy.mp kept).2,fun inside => absurd (table.mpr inside) want⟩
  · have old : other ∈ state.touched := (List.mem_cons.mp member).resolve_left same
    refine covered_kept (settled.covered other old) (away same) Iff.rfl (fun _ member _ => .inl member)
      (fun receiving => ?_) fun _ member _ => .inl member
    rcases receiving with ⟨named,reading,_⟩ | ⟨_,_,_,editing,inside,fresh⟩
    · cases here.symm.trans reading
    · cases here.symm.trans editing
      exact .inr (.inr (.inl (.inr ⟨held,rest,_,rfl,(List.mem_cons.mp inside).resolve_left same,fresh⟩)))

theorem receive_settled {state : State} (settled : Settled state) (permitted : Permitted state .receive)
    (one : receive state = some after) : Settled after := by
  have quiet : (∀ held rest, state.active ≠ some (.editing held rest true)) → Current state.memo := by
    intro off
    rcases settled.current with ⟨held,rest,here⟩ | current
    · exact absurd here (off held rest)
    · exact current
  cases here : state.active with
  | none =>
    simp only [receive,here] at one
    cases queue : state.queue with
    | nil => simp [queue] at one
    | cons change rest =>
      simp only [queue] at one
      cases Option.some.inj one
      refine ⟨fun rule member => ?_,?_,settled.tidy,.inr (quiet (by simp [here]))⟩
      · refine covered_kept (settled.covered rule member) Iff.rfl Iff.rfl (fun other member covers => ?_) ?_
          fun _ member _ => .inl member
        · rw [queue] at member
          rcases List.mem_append.mp member with inBus | queued
          · exact .inl (List.mem_append_left _ inBus)
          rcases List.mem_cons.mp queued with rfl | later
          · have named : rule ∈ candidates other state.model := mem_candidates.mpr (covers.imp id fun both => ⟨both.2.1,both.1⟩)
            have some' : candidates other state.model ≠ [] := List.ne_nil_of_mem named
            exact .inr (.inr (.inr (.inl (.inl ⟨_,by rw [if_neg some'],named⟩))))
          · exact .inl (List.mem_append_right _ later)
        · rintro (⟨named,reading,_⟩ | ⟨_,_,_,editing,_⟩)
          · cases here.symm.trans reading
          · cases here.symm.trans editing
      · intro held rest flag editing
        split at editing <;> cases editing
  | some active =>
    cases active with
    | reading named =>
      simp only [receive,here] at one
      cases Option.some.inj one
      refine ⟨fun rule member => ?_,?_,settled.tidy,.inr (quiet (by simp [here]))⟩
      · refine idle_covered (settled.covered rule member) rfl rfl rfl rfl rfl ?_
        rintro (⟨_,reading,inside⟩ | ⟨_,_,_,editing,_⟩)
        · cases here.symm.trans reading
          exact .inr (.inr (.inl (.inr ⟨_,_,_,rfl,inside,mem_heldRows inside⟩)))
        · cases here.symm.trans editing
      · rintro _ _ _ ⟨⟩ rule inside
        exact .inr (mem_heldRows inside)
    | editing held rest touched =>
      cases rest with
      | nil =>
        simp only [receive,here] at one
        cases Option.some.inj one
        refine ⟨fun rule member => ?_,nofun,?_,.inr ?_⟩
        · refine idle_covered (settled.covered rule member) rfl rfl rfl rfl rfl ?_
          rintro (⟨_,reading,_⟩ | ⟨_,_,_,editing,inside,_⟩)
          · cases here.symm.trans reading
          · cases here.symm.trans editing
            cases inside
        · dsimp only
          split
          · exact clear_tidy settled.tidy
          · exact settled.tidy
        · cases touched with
          | true => exact clear_current settled.tidy
          | false => exact quiet (by simp [here])
      | cons rule rest =>
        refine ⟨fun other member => compared_covered settled here permitted one member,?_,?_,?_⟩
        all_goals
          simp only [receive,here] at one
          cases Option.some.inj one
        · rintro _ _ _ ⟨⟩ other inside
          exact (settled.snapshot held _ touched here other (List.mem_cons_of_mem _ inside)).imp (List.mem_cons_of_mem _) id
        · exact moved_tidy settled.tidy _
        · by_cases agrees : decide (rule ∈ held) = decide (rule ∈ state.model)
          · simp only [Clearing,agrees,ne_eq,not_true_eq_false,decide_false,Bool.or_false,moved]
            cases touched with
            | true => exact .inl ⟨held,rest,rfl⟩
            | false => exact .inr (quiet (by simp [here]))
          · exact .inl ⟨held,rest,by simp [agrees]⟩

theorem more_settled {before after : State} (settled : Settled before) (model : after.model = before.model)
    (store : after.store = before.store) (active : after.active = before.active) (touched : after.touched = before.touched)
    (messages : ∀ change ∈ before.bus ++ before.queue, change ∈ after.bus ++ after.queue)
    (calls : ∀ call ∈ before.calls, call ∈ after.calls) (tidy : Tidy after.memo)
    (current : Clearing before ∨ Current before.memo → Clearing before ∨ Current after.memo) : Settled after := by
  refine ⟨fun rule member => ?_,fun held rest flag here rule inside => ?_,tidy,?_⟩
  · refine covered_kept (settled.covered rule (touched ▸ member)) (by rw [model]) (by rw [store])
      (fun change member _ => .inl (messages change member)) (fun received => ?_) fun call member _ => .inl (calls call member)
    exact .inr (.inr (.inl (receiving_same (by rw [store]) active received)))
  · rw [touched,store]
    exact settled.snapshot held rest flag (active ▸ here) rule inside
  · simpa only [Clearing,active] using current settled.current

theorem step_settled (sensitive : List String) : Preserved (step sensitive) Permitted Settled := by
  intro before action after settled permitted one
  cases action with
  | addPolicy rule =>
    cases Option.some.inj one
    exact more_settled settled rfl rfl rfl rfl (fun _ member => member) (fun _ member => List.mem_append_left _ member)
      (clear_tidy settled.tidy) fun _ => .inr (clear_current settled.tidy)
  | removePolicy rule =>
    cases Option.some.inj one
    exact more_settled settled rfl rfl rfl rfl (fun _ member => member) (fun _ member => List.mem_append_left _ member)
      (clear_tidy settled.tidy) fun _ => .inr (clear_current settled.tidy)
  | materialize resources extension =>
    cases Option.some.inj one
    exact more_settled settled rfl rfl rfl rfl (fun _ member => member) (fun _ member => List.mem_append_left _ member)
      settled.tidy id
  | advance index =>
    obtain ⟨call,here,rfl⟩ := Option.map_eq_some_iff.mp one
    exact advance_settled settled here permitted
  | remoteAdd rule =>
    cases Option.some.inj one
    refine write_settled settled [rule] rfl rfl rfl rfl rfl (fun _ member => List.mem_append_left _ member)
      (fun other new => by simp_all) (fun other new => ?_) fun _ _ _ member _ => .inl member
    cases List.mem_singleton.mp new
    exact .inr (.inl ⟨_,List.mem_append_left _ (List.mem_append_right _ (List.mem_singleton_self _)),.inl (List.mem_singleton_self _)⟩)
  | remoteRemove rule =>
    cases Option.some.inj one
    refine write_settled settled [rule] rfl rfl rfl rfl rfl (fun _ member => List.mem_append_left _ member)
      (fun other new => by simp_all) (fun other new => ?_) fun _ _ _ member _ => .inl member
    cases List.mem_singleton.mp new
    exact .inr (.inl ⟨_,List.mem_append_left _ (List.mem_append_right _ (List.mem_singleton_self _)),.inl (List.mem_singleton_self _)⟩)
  | remoteFiltered sec filter =>
    cases Option.some.inj one
    refine write_settled settled _ rfl rfl rfl rfl rfl (fun _ member => List.mem_append_left _ member)
      (fun other kept => ?_) (fun other new => ?_) fun _ _ _ member _ => .inl member
    · simp only [mem_delete,List.mem_filter,not_and,Bool.not_eq_true] at kept ⊢
      exact ⟨fun held => ⟨held,kept held⟩,And.left⟩
    · have gone := (List.mem_filter.mp new).2
      have away : other ∉ (before.store.delete sensitive (Change.filtered ⟨sec,[],some filter⟩)).rows := by
        simp [gone]
      by_cases has : other ∈ before.model
      · exact .inr (.inl ⟨_,List.mem_append_left _ (List.mem_append_right _ (List.mem_singleton_self _)),.inr ⟨gone,has,away⟩⟩)
      · exact .inl ⟨fun held => absurd held has,fun held => absurd held away⟩
  | publish change =>
    cases Option.some.inj one
    refine more_settled settled rfl rfl rfl rfl (fun other member => ?_) (fun _ member => member) settled.tidy id
    rcases List.mem_append.mp member with inBus | queued
    · exact List.mem_append_left _ (List.mem_append_left _ inBus)
    · exact List.mem_append_right _ queued
  | deliver index =>
    obtain ⟨change,here,rfl⟩ := Option.map_eq_some_iff.mp one
    refine more_settled settled rfl rfl rfl rfl (fun other member => ?_) (fun _ member => member) settled.tidy id
    rcases List.mem_append.mp member with inBus | queued
    · rcases kept_or_erased inBus index with kept | same
      · exact List.mem_append_left _ kept
      · cases here.symm.trans same
        exact List.mem_append_right _ (List.mem_append_right _ (List.mem_singleton_self _))
    · exact List.mem_append_right _ (List.mem_append_left _ queued)
  | receive => exact receive_settled settled permitted one
  | reader action =>
    obtain ⟨memo,rfl,tidy,filed⟩ := reader_memo settled.tidy one
    refine more_settled settled rfl rfl rfl rfl (fun _ member => member) (fun _ member => member) tidy ?_
    rintro (clearing | current)
    · exact .inl clearing
    · exact permitted.imp id (filed current)

theorem initial_settled (store : Store) (model : List Rule) : Settled (State.initial store model) :=
  ⟨nofun,nofun,⟨fun _ _ _ => rfl,nofun⟩,.inr fun slot entry found => (by cases slot <;> cases found)⟩

-- No call is under way and no message waits.
structure Finished (state : State) : Prop where
  bus : state.bus = []
  queue : state.queue = []
  active : state.active = none
  calls : state.calls = []

theorem model_follows_table (guarded : Guarded (step sensitive) Permitted (State.initial store model) actions)
    (path : run (step sensitive) (State.initial store model) actions = some state) (finished : Finished state) :
    (∀ rule ∈ state.touched, (rule ∈ state.model ↔ rule ∈ state.store.rows)) ∧ Current state.memo := by
  have settled := run_preserves (step_settled sensitive) (initial_settled store model) guarded path
  constructor
  · intro rule member
    rcases settled.covered rule member with same | ⟨change,waits,_⟩ | receiving | ⟨call,under,_⟩
    · exact same
    · simp [finished.bus,finished.queue] at waits
    · rcases receiving with ⟨_,reading,_⟩ | ⟨_,_,_,editing,_⟩
      · cases finished.active.symm.trans reading
      · cases finished.active.symm.trans editing
    · simp [finished.calls] at under
  · rcases settled.current with ⟨_,_,editing⟩ | current
    · cases finished.active.symm.trans editing
    · exact current

section
def readOrders : Rule := ⟨.p,["editor","*","orders","read"]⟩
def editOrders : Rule := ⟨.p,["editor","*","orders","update"]⟩

-- The receiver reads the row, the revoke runs from start to end, the receiver compares.
def revokedMeanwhile : List Action :=
  [.publish ⟨.p,[readOrders.values],none⟩,.deliver 0,.receive,.receive,.removePolicy readOrders,.advance 0,.advance 0,
    .receive,.receive]

theorem revoke_resurrected : ∃ state, run (step []) (State.initial ⟨[readOrders],[]⟩ [readOrders]) revokedMeanwhile = some state ∧
    (state.bus = [] ∧ state.queue = [] ∧ state.active = none ∧ state.calls = []) ∧ readOrders ∈ state.touched ∧
    readOrders ∈ state.model ∧ readOrders ∉ state.store.rows :=
  ⟨_,rfl,⟨rfl,rfl,rfl,rfl⟩,by decide,by decide,by decide⟩

-- Another instance's grant is heard of, then a grant made here is revoked again.
def oneByOne : List Action :=
  [.remoteAdd readOrders,.deliver 0,.receive,.receive,.receive,.receive,.addPolicy editOrders,.advance 0,.advance 0,
    .removePolicy editOrders,.advance 0,.advance 0]

theorem model_follows_table_oneByOne : ∃ state, run (step []) (State.initial ⟨[],[]⟩ []) oneByOne = some state ∧
    state.model = [readOrders] ∧ editOrders ∈ state.touched ∧
    (∀ rule ∈ state.touched, (rule ∈ state.model ↔ rule ∈ state.store.rows)) ∧ Current state.memo := by
  have guarded : Guarded (step []) Permitted (State.initial ⟨[],[]⟩ []) oneByOne := by
    refine guarded_cons trivial rfl (guarded_cons trivial rfl (guarded_cons ?_ rfl (guarded_cons ?_ rfl (guarded_cons ?_ rfl
      (guarded_cons ?_ rfl (guarded_cons trivial rfl (guarded_cons ?_ rfl (guarded_cons ?_ rfl (guarded_cons trivial rfl
      (guarded_cons ?_ rfl (guarded_cons ?_ rfl trivial)))))))))))
    iterate 2
      rintro _ _ _ _ ⟨⟩
    · rintro _ _ _ _ ⟨⟩
      decide
    · rintro _ _ _ _ ⟨⟩
    · rintro _ ⟨⟩ ⟨⟩
    · rintro _ ⟨⟩ _
      exact ⟨by decide,.inr fun slot filed => filed (by cases slot <;> rfl)⟩
    · rintro _ ⟨⟩ ⟨⟩
    · rintro _ ⟨⟩ _
      exact ⟨by decide,.inr fun slot filed => filed (by cases slot <;> rfl)⟩
  exact ⟨_,rfl,rfl,by decide,model_follows_table guarded rfl ⟨rfl,rfl,rfl,rfl⟩⟩

end

end Zveltio.PolicyReceive
