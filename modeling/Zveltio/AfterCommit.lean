import Zveltio.Parties
import Zveltio.Runs
namespace Zveltio.AfterCommit
open Parties Runs

-- What a TenantStore says here: whether there is a transaction in it, and the queue it carries, named by its call of withTenantIsolation.
structure TenantStore where
  trx : Bool
  afterCommit : Option Nat
  deriving DecidableEq

inductive QueueState where
  | opened | committed | rolledBack
  deriving DecidableEq

-- outer: the context outside the transaction's. A job is named by the place of its call of onAfterCommit.
structure AfterCommitQueue where
  jobs : List Nat
  state : QueueState
  outer : Option TenantStore

-- Where a call of withTenantIsolation is: its transaction open; ended, with what the driver says of the end; going through what it took
-- from the queue; returned or thrown.
inductive Phase where
  | within
  | ended (resolved : Bool)
  | draining (rest : List Nat)
  | left
  deriving DecidableEq

-- durable: whether the database has the transaction's writes, once it has ended.
structure Isolation where
  queue : AfterCommitQueue
  phase : Phase
  durable : Option Bool

-- A call of onAfterCommit: the transaction it is for, and the contexts its job was started in.
structure Call where
  owner : Option Nat
  starts : List (Option TenantStore)

structure State where
  isolations : List Isolation
  calls : List Call

-- A COMMIT may be durable and its answer lost, never the other way.
inductive Action where
  | begins (outer : Option TenantStore)
  | onAfterCommit (current : Option TenantStore)
  | ends (trx : Nat) (durable resolved : Bool)
  | settle (trx : Nat)
  | next (trx : Nat)

def State.start : State := ⟨[],[]⟩

def State.becomes (state : State) (trx : Nat) (isolation : Isolation) : State :=
  {state with isolations := state.isolations.modify trx fun _ => isolation}

def State.called (state : State) (owner : Option Nat) (starts : List (Option TenantStore)) : State :=
  {state with calls := state.calls ++ [⟨owner,starts⟩]}

def State.run (state : State) (job : Nat) (context : Option TenantStore) : State :=
  {state with calls := state.calls.modify job fun call => {call with starts := call.starts ++ [context]}}

-- A store that carries a queue is that of a transaction that has begun.
def State.knows (state : State) (current : Option TenantStore) : Bool :=
  (current.bind TenantStore.afterCommit).all fun trx => trx < state.isolations.length

def queueOf (current : Option TenantStore) : Option Nat := current.bind fun store => if store.trx then store.afterCommit else none

def onAfterCommit (isolation : Isolation) (fn : Nat) : Isolation × List (Option TenantStore) := match isolation.queue.state with
  | .opened => ({isolation with queue := {isolation.queue with jobs := isolation.queue.jobs ++ [fn]}},[])
  | .committed => (isolation,[isolation.queue.outer])
  | .rolledBack => (isolation,[])

def settleAfterCommit (isolation : Isolation) (committed : Bool) : Isolation :=
  {isolation with
    queue := {isolation.queue with state := if committed then .committed else .rolledBack,jobs := []}
    phase := if committed then .draining isolation.queue.jobs else .left}

def step (state : State) : Action → Option State
  | .begins outer => if state.knows outer then some {state with isolations := state.isolations ++ [⟨⟨[],.opened,outer⟩,.within,none⟩]} else none
  | .onAfterCommit current => if state.knows current = false then none else match queueOf current with
    | none => some (state.called none [current])
    | some trx => state.isolations[trx]?.map fun isolation =>
      let (after,starts) := onAfterCommit isolation state.calls.length
      (state.called (some trx) starts).becomes trx after
  | .ends trx durable resolved => state.isolations[trx]?.bind fun isolation =>
    if isolation.phase = .within ∧ (resolved → durable) then some (state.becomes trx {isolation with phase := .ended resolved,durable := some durable})
    else none
  | .settle trx => state.isolations[trx]?.bind fun isolation => match isolation.phase with
    | .ended resolved => some (state.becomes trx (settleAfterCommit isolation resolved))
    | _ => none
  | .next trx => state.isolations[trx]?.bind fun isolation => match isolation.phase with
    | .draining [] => some (state.becomes trx {isolation with phase := .left})
    | .draining (job::rest) => some ((state.becomes trx {isolation with phase := .draining rest}).run job isolation.queue.outer)
    | _ => none

def Isolation.pending (isolation : Isolation) : List Nat := match isolation.phase with
  | .draining rest => isolation.queue.jobs ++ rest
  | _ => isolation.queue.jobs

def Isolation.Coherent (isolation : Isolation) : Prop := match isolation.phase with
  | .within => isolation.queue.state = .opened
  | .ended resolved => isolation.queue.state = .opened ∧ (resolved = true → isolation.durable = some true)
  | .draining _ => isolation.queue.state = .committed ∧ isolation.queue.jobs = [] ∧ isolation.durable = some true
  | .left => isolation.queue.jobs = [] ∧
      ((isolation.queue.state = .committed ∧ isolation.durable = some true) ∨ isolation.queue.state = .rolledBack)

-- Where the job of a call for a transaction is: still held by it, started, or dropped with its writes.
def Isolation.Places (isolation : Isolation) (job : Nat) (starts : List (Option TenantStore)) : Prop :=
  (job ∈ isolation.pending ∧ starts = []) ∨
  (job ∉ isolation.pending ∧ ((isolation.queue.state = .committed ∧ starts = [isolation.queue.outer]) ∨ (isolation.queue.state = .rolledBack ∧ starts = [])))

structure Isolation.Fits (isolation : Isolation) (calls : List Call) (trx : Nat) : Prop where
  coherent : isolation.Coherent
  once : isolation.pending.Nodup
  owned : ∀ job ∈ isolation.pending, calls[job]?.map Call.owner = some (some trx)

structure Sound (state : State) : Prop where
  fits : ∀ (trx : Nat) isolation, state.isolations[trx]? = some isolation → isolation.Fits state.calls trx
  direct : ∀ (job : Nat) starts, state.calls[job]? = some ⟨none,starts⟩ → starts.length = 1
  placed : ∀ (job trx : Nat) starts, state.calls[job]? = some ⟨some trx,starts⟩ →
    ∃ isolation, state.isolations[trx]? = some isolation ∧ isolation.Places job starts

theorem start_sound : Sound State.start where
  fits _ _ found := by cases found
  direct _ _ found := by cases found
  placed _ _ _ found := by cases found

theorem get_called {state : State} (found : (state.called owner starts).calls[job]? = some call) :
    state.calls[job]? = some call ∨ (job = state.calls.length ∧ call = ⟨owner,starts⟩) := by
  change (state.calls ++ [_])[job]? = some call at found
  rw [get_added] at found
  split at found
  · next last => exact Or.inr ⟨last,(Option.some.inj found).symm⟩
  · exact Or.inl found

theorem owner_inside {calls : List Call} {job : Nat} (found : calls[job]?.map Call.owner = some whose) : job < calls.length := by
  obtain ⟨call,there,_⟩ := Option.map_eq_some_iff.mp found
  exact (List.getElem?_eq_some_iff.mp there).1

theorem owner_called {state : State} {job : Nat} (found : state.calls[job]?.map Call.owner = some whose) :
    (state.called owner starts).calls[job]?.map Call.owner = some whose := by
  show (state.calls ++ [_])[job]?.map Call.owner = some whose
  rw [get_added,if_neg (Nat.ne_of_lt (owner_inside found)),found]

theorem get_becomes (state : State) (there : state.isolations[trx]? = some before)
    (found : (state.becomes trx after).isolations[other]? = some isolation) :
    (other = trx ∧ isolation = after) ∨ (other ≠ trx ∧ state.isolations[other]? = some isolation) := by
  change (state.isolations.modify trx fun _ => after)[other]? = some isolation at found
  rw [get_changed there] at found
  split at found
  · next same => exact Or.inl ⟨same.symm,(Option.some.inj found).symm⟩
  · next apart => exact Or.inr ⟨Ne.symm apart,found⟩

theorem places_becomes (state : State) (there : state.isolations[trx]? = some before) (found : state.isolations[other]? = some isolation)
    (own : trx = other → isolation = before → after.Places job starts) (others : trx ≠ other → isolation.Places job starts) :
    ∃ isolation, (state.becomes trx after).isolations[other]? = some isolation ∧ isolation.Places job starts := by
  show ∃ isolation, (state.isolations.modify trx fun _ => after)[other]? = some isolation ∧ isolation.Places job starts
  rw [get_changed there]
  split
  · next same => exact ⟨after,rfl,own same (Option.some.inj (found.symm.trans (same ▸ there)))⟩
  · next apart => exact ⟨isolation,found,others apart⟩

-- What a transaction's own step has to keep: its queue, and the place of each of its jobs.
theorem becomes_sound (sound : Sound state) (there : state.isolations[trx]? = some before) (fits : after.Fits state.calls trx)
    (keeps : ∀ job starts, before.Places job starts → after.Places job starts) : Sound (state.becomes trx after) where
  fits other isolation found := by
    rcases get_becomes state there found with ⟨rfl,rfl⟩ | ⟨_,old⟩
    · exact fits
    · exact sound.fits other isolation old
  direct := sound.direct
  placed job other starts found := by
    obtain ⟨isolation,held,place⟩ := sound.placed job other starts found
    exact places_becomes state there held (fun _ same => keeps job starts (same ▸ place)) fun _ => place

theorem begins_sound (sound : Sound state) (outer : Option TenantStore) :
    Sound {state with isolations := state.isolations ++ [⟨⟨[],.opened,outer⟩,.within,none⟩]} where
  fits other isolation found := by
    rw [get_added] at found
    split at found
    · cases found
      exact ⟨rfl,List.nodup_nil,fun job among => absurd among List.not_mem_nil⟩
    · exact sound.fits other isolation found
  direct := sound.direct
  placed job other starts found := by
    obtain ⟨isolation,held,place⟩ := sound.placed job other starts found
    refine ⟨isolation,?_,place⟩
    rw [get_added,if_neg (Nat.ne_of_lt (List.getElem?_eq_some_iff.mp held).1)]
    exact held

theorem direct_sound (sound : Sound state) (context : Option TenantStore) : Sound (state.called none [context]) where
  fits other isolation found :=
    {sound.fits other isolation found with owned := fun job among => owner_called ((sound.fits other isolation found).owned job among)}
  direct job starts found := by
    rcases get_called found with old | ⟨_,new⟩
    · exact sound.direct job starts old
    · cases new
      rfl
  placed job other starts found := by
    rcases get_called found with old | ⟨_,new⟩
    · exact sound.placed job other starts old
    · cases new

theorem joined_sound (sound : Sound state) (there : state.isolations[trx]? = some before)
    (fits : after.Fits (state.called (some trx) starts).calls trx) (fresh : after.Places state.calls.length starts)
    (keeps : ∀ job starts, job < state.calls.length → before.Places job starts → after.Places job starts) :
    Sound ((state.called (some trx) starts).becomes trx after) where
  fits other isolation found := by
    rcases get_becomes (state.called (some trx) starts) there found with ⟨rfl,rfl⟩ | ⟨_,old⟩
    · exact fits
    · have held := sound.fits other isolation old
      exact {held with owned := fun job among => owner_called (held.owned job among)}
  direct job known found := by
    rcases get_called found with old | ⟨_,new⟩
    · exact sound.direct job known old
    · cases new
  placed job other known found := by
    rcases get_called found with old | ⟨here,new⟩
    · obtain ⟨isolation,held,place⟩ := sound.placed job other known old
      exact places_becomes (state.called (some trx) starts) there held
        (fun _ same => keeps job known (List.getElem?_eq_some_iff.mp old).1 (same ▸ place)) fun _ => place
    · cases new
      exact ⟨after,(get_changed there after trx).trans (if_pos rfl),here ▸ fresh⟩

theorem opened_jobs {isolation : Isolation} (coherent : isolation.Coherent) (opened : isolation.queue.state = .opened) (jobs : List Nat) :
    Isolation.Coherent {isolation with queue := {isolation.queue with jobs := jobs}} ∧
    Isolation.pending {isolation with queue := {isolation.queue with jobs := jobs}} = jobs := by
  obtain ⟨queue,phase,durable⟩ := isolation
  cases phase with
  | within => exact ⟨coherent,rfl⟩
  | ended resolved => exact ⟨coherent,rfl⟩
  | draining rest => cases opened.symm.trans coherent.1
  | left => rcases coherent.2 with ⟨done,_⟩ | lost <;> cases opened.symm.trans ‹_›

-- A call for a transaction joins its queue while that is open, is started at once behind the commit and dropped behind the rollback.
theorem called_sound (sound : Sound state) (there : state.isolations[trx]? = some before) :
    Sound ((state.called (some trx) (onAfterCommit before state.calls.length).2).becomes trx (onAfterCommit before state.calls.length).1) := by
  have fits := sound.fits trx before there
  have fresh : state.calls.length ∉ before.pending := fun among => Nat.lt_irrefl _ (owner_inside (fits.owned _ among))
  unfold onAfterCommit
  split
  · next opened =>
    obtain ⟨coherent,pending⟩ := opened_jobs fits.coherent opened (before.queue.jobs ++ [state.calls.length])
    rw [← (opened_jobs fits.coherent opened before.queue.jobs).2] at coherent pending ⊢
    refine joined_sound sound there ⟨coherent,?_,fun job among => ?_⟩ (Or.inl ⟨?_,rfl⟩) fun job starts _ place => ?_
    · rw [pending]
      exact List.nodup_append.mpr ⟨fits.once,List.nodup_singleton _,fun job among last single same =>
        fresh (List.mem_singleton.mp single ▸ same ▸ among)⟩
    · rw [pending] at among
      rcases List.mem_append.mp among with old | last
      · exact owner_called (fits.owned job old)
      · rw [List.mem_singleton.mp last]
        show (state.calls ++ [_])[state.calls.length]?.map Call.owner = some (some trx)
        rw [get_added,if_pos rfl]
        rfl
    · rw [pending]
      exact List.mem_append_right _ List.mem_cons_self
    · rcases place with ⟨among,unstarted⟩ | ⟨_,⟨done,_⟩ | ⟨lost,_⟩⟩
      · exact Or.inl ⟨by rw [pending]; exact List.mem_append_left _ among,unstarted⟩
      · cases opened.symm.trans done
      · cases opened.symm.trans lost
  · next committed =>
    exact joined_sound sound there {fits with owned := fun job among => owner_called (fits.owned job among)}
      (Or.inr ⟨fresh,Or.inl ⟨committed,rfl⟩⟩) fun _ _ _ place => place
  · next lost =>
    exact joined_sound sound there {fits with owned := fun job among => owner_called (fits.owned job among)}
      (Or.inr ⟨fresh,Or.inr ⟨lost,rfl⟩⟩) fun _ _ _ place => place


theorem owner_run (state : State) (job : Nat) (context : Option TenantStore) (other : Nat) :
    (state.run job context).calls[other]?.map Call.owner = state.calls[other]?.map Call.owner := by
  show (state.calls.modify job _)[other]?.map Call.owner = _
  rw [List.getElem?_modify]
  cases state.calls[other]? with
  | none => rfl
  | some call => by_cases same : job = other <;> simp [same]

theorem get_run {state : State} (found : (state.run job context).calls[other]? = some call) : ∃ old, state.calls[other]? = some old ∧
    call.owner = old.owner ∧ ((other = job ∧ call.starts = old.starts ++ [context]) ∨ (other ≠ job ∧ call.starts = old.starts)) := by
  change (state.calls.modify job _)[other]? = some call at found
  rw [List.getElem?_modify] at found
  obtain ⟨old,there,same⟩ := Option.map_eq_some_iff.mp found
  refine ⟨old,there,?_⟩
  split at same
  · next own => exact same ▸ ⟨rfl,Or.inl ⟨own.symm,rfl⟩⟩
  · next apart => exact same ▸ ⟨rfl,Or.inr ⟨Ne.symm apart,rfl⟩⟩

theorem next_sound (sound : Sound state) (there : state.isolations[trx]? = some before) (draining : before.phase = .draining (job::rest)) :
    Sound ((state.becomes trx {before with phase := .draining rest}).run job before.queue.outer) := by
  have fits := sound.fits trx before there
  have coherent := fits.coherent
  unfold Isolation.Coherent at coherent
  rw [draining] at coherent
  obtain ⟨committed,empty,durable⟩ := coherent
  have pending : before.pending = job::rest := by
    unfold Isolation.pending
    rw [draining,empty]
    rfl
  have left : Isolation.pending {before with phase := .draining rest} = rest := by
    show before.queue.jobs ++ rest = rest
    rw [empty]
    rfl
  obtain ⟨fresh,once⟩ := List.nodup_cons.mp (pending ▸ fits.once)
  constructor
  · intro other isolation found
    rcases get_becomes state there found with ⟨rfl,rfl⟩ | ⟨_,old⟩
    · refine ⟨⟨committed,empty,durable⟩,left.symm ▸ once,fun waiting among => (owner_run _ _ _ _).trans (fits.owned waiting ?_)⟩
      rw [pending]
      exact List.mem_cons_of_mem _ (left ▸ among)
    · have held := sound.fits other isolation old
      exact {held with owned := fun waiting among => (owner_run _ _ _ _).trans (held.owned waiting among)}
  · intro other starts found
    obtain ⟨⟨owner,old⟩,held,rfl,⟨rfl,_⟩ | ⟨_,same⟩⟩ := get_run found
    · have own := fits.owned other (pending ▸ List.mem_cons_self)
      rw [show state.calls[other]? = _ from held] at own
      cases own
    · exact (congrArg List.length same).trans (sound.direct other old held)
  · intro other owner starts found
    obtain ⟨⟨_,old⟩,held,rfl,turn⟩ := get_run found
    obtain ⟨isolation,known,place⟩ := sound.placed other owner old held
    refine places_becomes state there known (fun _ mine => ?_) fun others => ?_
    · subst mine
      unfold Isolation.Places at place ⊢
      rw [left]
      rw [pending] at place
      rcases turn with ⟨rfl,same⟩ | ⟨apart,rfl⟩
      · have unstarted := (place.resolve_right fun gone => gone.1 List.mem_cons_self).2
        exact Or.inr ⟨fresh,Or.inl ⟨committed,same.trans (congrArg (· ++ _) unstarted)⟩⟩
      · exact place.imp (fun waits => ⟨(List.mem_cons.mp waits.1).resolve_left apart,waits.2⟩) fun gone => ⟨fun later => gone.1 (List.mem_cons_of_mem _ later),gone.2⟩
    · rcases turn with ⟨rfl,_⟩ | ⟨_,rfl⟩
      · have own := fits.owned other (pending ▸ List.mem_cons_self)
        rw [show state.calls[other]? = _ from held] at own
        cases own
        exact absurd rfl others
      · exact place

theorem step_sound : Preserved step (fun _ _ => True) Sound := by
  intro state action after sound _ moved
  cases action with
  | begins outer =>
    simp only [step] at moved
    split at moved
    · cases moved
      exact begins_sound sound outer
    · cases moved
  | onAfterCommit current =>
    simp only [step] at moved
    split at moved
    · cases moved
    · split at moved
      · cases moved
        exact direct_sound sound current
      · obtain ⟨isolation,there,rfl⟩ := Option.map_eq_some_iff.mp moved
        exact called_sound sound there
  | ends trx durable resolved =>
    simp only [step] at moved
    obtain ⟨isolation,there,moved⟩ := Option.bind_eq_some_iff.mp moved
    split at moved
    · next allowed =>
      cases moved
      have fits := sound.fits trx isolation there
      obtain ⟨queue,_,_⟩ := isolation
      obtain ⟨rfl,true⟩ := allowed
      exact becomes_sound sound there {fits with coherent := ⟨fits.coherent,fun done => congrArg some (true done)⟩} fun _ _ place => place
    · cases moved
  | settle trx =>
    simp only [step] at moved
    obtain ⟨isolation,there,moved⟩ := Option.bind_eq_some_iff.mp moved
    split at moved
    · next resolved ended =>
      cases moved
      have fits := sound.fits trx isolation there
      obtain ⟨queue,_,known⟩ := isolation
      cases ended
      obtain ⟨opened,durable⟩ := fits.coherent
      have waits : ∀ job starts, Isolation.Places ⟨queue,.ended resolved,known⟩ job starts → job ∈ queue.jobs ∧ starts = [] := by
        intro job starts place
        refine place.resolve_right ?_
        rintro ⟨_,⟨done,_⟩ | ⟨lost,_⟩⟩
        · cases opened.symm.trans done
        · cases opened.symm.trans lost
      cases resolved with
      | true => exact becomes_sound sound there {fits with coherent := ⟨rfl,rfl,durable rfl⟩} fun job starts place => Or.inl (waits job starts place)
      | false => 
        refine becomes_sound sound there ⟨⟨rfl,Or.inr rfl⟩,List.nodup_nil,fun job among => absurd among List.not_mem_nil⟩ fun job starts place => ?_
        exact Or.inr ⟨List.not_mem_nil,Or.inr ⟨rfl,(waits job starts place).2⟩⟩
    · cases moved
  | next trx =>
    simp only [step] at moved
    obtain ⟨isolation,there,moved⟩ := Option.bind_eq_some_iff.mp moved
    split at moved
    · next draining =>
      cases moved
      have fits := sound.fits trx isolation there
      obtain ⟨⟨jobs,queueState,outer⟩,_,_⟩ := isolation
      cases draining
      obtain ⟨committed,rfl,durable⟩ := fits.coherent
      exact becomes_sound sound there {fits with coherent := ⟨rfl,Or.inl ⟨committed,durable⟩⟩} fun _ _ place => place
    · next job rest draining =>
      cases moved
      exact next_sound sound there draining
    · cases moved

end Zveltio.AfterCommit
