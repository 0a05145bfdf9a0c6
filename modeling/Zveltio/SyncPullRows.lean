import Zveltio.SyncPull
namespace Zveltio.SyncPullRows

open Keyset Runs SyncPull

section
variable {ι : Type u} {δ : Type v}

-- Nothing can still be committed before this time.
def Settled (state : State ι δ) (us : Nat) : Prop := us ≤ state.now ∧ ∀ txn ∈ state.active, us ≤ txn.start

theorem settled_of {state next : State ι δ} (settled : Settled state us) (later : state.now ≤ next.now)
    (starts : ∀ txn ∈ next.active, ∃ old ∈ state.active, old.start = txn.start) : Settled next us := by
  refine ⟨le_trans settled.1 later,fun txn member => ?_⟩
  obtain ⟨old,present,same⟩ := starts txn member
  exact same ▸ settled.2 old present

theorem settled_same {state next : State ι δ} (settled : Settled state us) (now : next.now = state.now)
    (active : next.active = state.active) : Settled next us := by
  rw [Settled,now,active]
  exact settled

theorem settled_begin {state : State ι δ} (settled : Settled state us) :
    Settled {state with active := state.active ++ [⟨state.now,[]⟩]} us := by
  refine ⟨settled.1,fun txn member => ?_⟩
  rcases List.mem_append.mp member with old | new
  · exact settled.2 txn old
  · cases List.mem_singleton.mp new
    exact settled.1

theorem least_exact (starts : List Nat) (now us : Nat) :
    us ≤ starts.foldl min now ↔ us ≤ now ∧ ∀ start ∈ starts, us ≤ start := by
  induction starts generalizing now with
  | nil => simp
  | cons first rest ih => simp only [List.foldl_cons,ih,Nat.le_min,List.forall_mem_cons,and_assoc]

theorem watermark_exact (state : State ι δ) (us : Nat) : us ≤ syncWatermarkUs state false ↔ Settled state us := by
  simp [syncWatermarkUs,least_exact,Settled]

theorem settled_watermark (state : State ι δ) (blind : Bool) : Settled state (syncWatermarkUs state blind) := by
  cases blind with
  | true => exact ⟨Nat.zero_le _,fun _ _ => Nat.zero_le _⟩
  | false => exact (watermark_exact state _).mp le_rfl

theorem decideResync_cursor {client : Client ι δ} (resumed : (decideResync client now opens).cursor = some cursor) :
    client.cursor = some cursor ∧ now - retentionUs ≤ cursor.del := by
  cases start : client.cursor with
  | none => simp [decideResync,start] at resumed
  | some old =>
    simp only [decideResync,start] at resumed
    split at resumed
    · cases resumed
    · split at resumed
      · cases resumed
      · next recent =>
        cases Option.some.inj resumed
        exact ⟨rfl,Nat.le_of_not_lt recent⟩

theorem decideResync_none {client : Client ι δ} (restarted : (decideResync client now opens).cursor = none) :
    (decideResync client now opens).resync ∨ client.cursor = none := by
  cases start : client.cursor with
  | none => exact .inr rfl
  | some old =>
    simp only [decideResync,start] at restarted ⊢
    split
    · exact .inl rfl
    · split
      · exact .inl rfl
      · simp_all

theorem erased_starts {active : List (Txn ι δ)} (txn : Txn ι δ) (member : txn ∈ active.eraseIdx index) :
    ∃ old ∈ active, old.start = txn.start := ⟨txn,List.mem_of_mem_eraseIdx member,rfl⟩

end

section
variable {ι : Type u} {δ : Type v} [LinearOrder ι]

-- What a step can do, once for every invariant below.
inductive Moved (state : State ι δ) (action : Action ι δ) : State ι δ → Prop
  | clock (now : Nat) (later : state.now ≤ now) : Moved state action {state with now}
  | opened : Moved state action {state with active := state.active ++ [⟨state.now,[]⟩]}
  | edited (active : List (Txn ι δ)) (starts : ∀ txn ∈ active, ∃ old ∈ state.active, old.start = txn.start) :
      Moved state action {state with active}
  | committed (txn : Txn ι δ) (present : txn ∈ state.active) (active : List (Txn ι δ))
      (starts : ∀ txn ∈ active, ∃ old ∈ state.active, old.start = txn.start) :
      Moved state action {commit state txn with active}
  | purged (began seen : Nat) (named : action = .purge began seen) (past : began ≤ state.now) :
      Moved state action (purge state began seen)
  | pulled (moved : stepPull state action = some next) : Moved state action next

theorem step_moved (moved : step state action = some (next : State ι δ)) : Moved state action next := by
  cases action with
  | tick us =>
    cases Option.some.inj moved
    exact .clock _ (Nat.le_add_right ..)
  | begin =>
    cases Option.some.inj moved
    exact .opened
  | write index change =>
    obtain ⟨txn,found,rfl⟩ := Option.map_eq_some_iff.mp moved
    refine .edited _ fun other member => ?_
    rcases List.mem_or_eq_of_mem_set member with old | rfl
    · exact ⟨other,old,rfl⟩
    · exact ⟨txn,List.mem_of_getElem? found,rfl⟩
  | commit index =>
    obtain ⟨txn,found,rfl⟩ := Option.map_eq_some_iff.mp moved
    exact .committed txn (List.mem_of_getElem? found) _ erased_starts
  | abort index =>
    obtain ⟨txn,found,rfl⟩ := Option.map_eq_some_iff.mp moved
    exact .edited _ erased_starts
  | purge began seen =>
    simp only [step] at moved
    split at moved
    · next past =>
      cases Option.some.inj moved
      exact .purged began seen rfl past
    · exact absurd moved (by simp)
  | startPull | readWatermark | readRows | readStones | receive | lose => exact .pulled moved

-- The tables a transaction leaves, from the rows it found.
structure Written (start seq : Nat) (rows : List (RowVersion ι δ))
    (tables : List (RowVersion ι δ) × List (Tombstone ι)) : Prop where
  distinct : (tables.1.map RowVersion.id).Nodup
  fresh : ∀ row ∈ tables.1, row ∈ rows ∨ row.us = start ∧ row.seq = seq
  stamped : ∀ stone ∈ tables.2, stone.us = start ∧ stone.seq = seq
  later : ∀ stone ∈ tables.2, ∀ row ∈ tables.1, row.id = stone.id → row.seq = seq

theorem filtered_distinct {rows : List (RowVersion ι δ)} (distinct : (rows.map RowVersion.id).Nodup) (id : ι) :
    ((rows.filter fun row => row.id ≠ id).map RowVersion.id).Nodup :=
  distinct.sublist ((List.filter_sublist ..).map _)

theorem applyWrite_written (written : Written start seq rows tables) (change : Write ι (δ : Type v)) :
    Written start seq rows (applyWrite start seq tables change) := by
  cases change with
  | put id data =>
    refine ⟨?_,?_,written.stamped,?_⟩
    · rw [applyWrite,List.map_append,List.map_singleton]
      refine List.nodup_append.mpr ⟨filtered_distinct written.distinct id,List.nodup_singleton _,?_⟩
      intro first old second new
      obtain ⟨row,kept,rfl⟩ := List.mem_map.mp old
      cases List.mem_singleton.mp new
      exact of_decide_eq_true (List.mem_filter.mp kept).2
    · intro row member
      rcases List.mem_append.mp member with old | new
      · exact written.fresh row (List.mem_of_mem_filter old)
      · cases List.mem_singleton.mp new
        exact .inr ⟨rfl,rfl⟩
    · intro stone deleted row member same
      rcases List.mem_append.mp member with old | new
      · exact written.later stone deleted row (List.mem_of_mem_filter old) same
      · cases List.mem_singleton.mp new
        rfl
  | delete id =>
    rw [applyWrite]
    split
    · refine ⟨filtered_distinct written.distinct id,?_,?_,?_⟩
      · exact fun row member => written.fresh row (List.mem_of_mem_filter member)
      · intro stone member
        rcases List.mem_append.mp member with old | new
        · exact written.stamped stone old
        · cases List.mem_singleton.mp new
          exact ⟨rfl,rfl⟩
      · intro stone deleted row member same
        obtain ⟨present,apart⟩ := List.mem_filter.mp member
        rcases List.mem_append.mp deleted with old | new
        · exact written.later stone old row present same
        · cases List.mem_singleton.mp new
          exact absurd same (of_decide_eq_true apart)
    · exact written

theorem commit_written (state : State ι δ) (txn : Txn ι δ) (distinct : (state.rows.map RowVersion.id).Nodup) :
    Written txn.start (state.commits + 1) state.rows
      (txn.writes.foldl (applyWrite txn.start (state.commits + 1)) (state.rows,[])) := by
  have all : ∀ (writes : List (Write ι δ)) tables, Written txn.start (state.commits + 1) state.rows tables →
      Written txn.start (state.commits + 1) state.rows
        (writes.foldl (applyWrite txn.start (state.commits + 1)) tables) := by
    intro writes
    induction writes with
    | nil => exact fun _ written => written
    | cons change rest ih => exact fun tables written => ih _ (applyWrite_written written change)
  exact all _ _ ⟨distinct,fun row member => .inl member,by simp,by simp⟩

inductive Pulled (state : State ι δ) : Action ι δ → State ι δ → Prop
  | started (opens : Bool) (phase : state.pull = .idle) : Pulled state (.startPull opens) {state with
      pull := .started (decideResync state.client state.now opens)
      client := if state.client.cursor.isNone then {state.client with held := nothing} else state.client}
  | watermarked (context : Context ι) (blind : Bool) (phase : state.pull = .started context) :
      Pulled state (.readWatermark blind) {state with pull := .watermarked context (syncWatermarkUs state blind)}
  | rowsRead (context : Context ι) (watermark : Nat) (phase : state.pull = .watermarked context watermark) :
      Pulled state .readRows {state with
        pull := .rowsRead context watermark (fetch Item.position (pullLimit + 1) (matchingRows state context watermark))}
  | stonesRead (context : Context ι) (watermark : Nat) (rows : List (Item ι δ))
      (phase : state.pull = .rowsRead context watermark rows) :
      Pulled state .readStones {state with
        pull := .stonesRead context watermark rows
          (fetch Item.position (pullLimit + 1) (matchingStones state context watermark))}
  | received (context : Context ι) (watermark : Nat) (rows stones : List (Item ι δ))
      (phase : state.pull = .stonesRead context watermark rows stones) :
      Pulled state .receive {state with
        pull := .idle
        client := receive state.client watermark (respond context watermark rows stones)}
  | lost : Pulled state .lose {state with pull := .idle}

theorem stepPull_pulled (moved : stepPull state action = some (next : State ι δ)) : Pulled state action next := by
  cases action with
  | tick us | begin | write index change | commit index | abort index | purge began seen => cases moved
  | lose =>
    cases Option.some.inj moved
    exact .lost
  | startPull opens =>
    cases phase : state.pull <;> simp only [stepPull,phase,reduceCtorEq,Option.some.injEq] at moved
    exact moved ▸ .started opens phase
  | readWatermark blind =>
    cases phase : state.pull <;> simp only [stepPull,phase,reduceCtorEq,Option.some.injEq] at moved
    exact moved ▸ .watermarked _ blind phase
  | readRows =>
    cases phase : state.pull <;> simp only [stepPull,phase,reduceCtorEq,Option.some.injEq] at moved
    exact moved ▸ .rowsRead _ _ phase
  | readStones =>
    cases phase : state.pull <;> simp only [stepPull,phase,reduceCtorEq,Option.some.injEq] at moved
    exact moved ▸ .stonesRead _ _ _ phase
  | receive =>
    cases phase : state.pull <;> simp only [stepPull,phase,reduceCtorEq,Option.some.injEq] at moved
    exact moved ▸ .received _ _ _ _ phase

def Resumes (state : State ι δ) (context : Context ι) : Prop :=
  ∀ cursor, context.cursor = some cursor → state.client.cursor = some cursor

-- The rows read were cut from at least the current rows of the pull's range; the
-- rows behind may have changed since.
def Reads (state : State ι δ) (context : Context ι) (watermark : Nat) (rows : List (Item ι δ)) : Prop :=
  ∃ whole : List (RowVersion ι δ), rows = fetch Item.position (pullLimit + 1) (whole.map rowItem) ∧
    (whole.map RowVersion.id).Nodup ∧ (∀ row ∈ whole, row.us < watermark) ∧
    ∀ row ∈ state.rows, row.us < watermark → after context.cursor row.position → row ∈ whole

def InFlight (state : State ι δ) : Prop :=
  match state.pull with
  | .idle => True
  | .started context => Resumes state context
  | .watermarked context watermark => Resumes state context ∧ Settled state watermark
  | .rowsRead context watermark rows => Resumes state context ∧ Settled state watermark ∧
      Reads state context watermark rows
  | .stonesRead context watermark rows stones => Resumes state context ∧ Settled state watermark ∧
      Reads state context watermark rows ∧ ∀ stone ∈ stones, stone.us < watermark

-- The cursor is behind every transaction still open, and the current rows up to it
-- have been sent.
structure Delivering (state : State ι δ) : Prop where
  distinct : (state.rows.map RowVersion.id).Nodup
  settled : ∀ cursor, state.client.cursor = some cursor → Settled state (cursor.us + 1)
  sent : ∀ cursor, state.client.cursor = some cursor → ∀ row ∈ state.rows, row.position ≤ cursor.position →
    row ∈ state.client.delivered
  flight : InFlight state

theorem delivering_initial : Delivering (State.initial : State ι δ) :=
  ⟨List.nodup_nil,nofun,nofun,trivial⟩

-- Time, transactions and purges leave the client alone and write only rows that
-- are later than everything settled.
theorem delivering_server {state next : State ι δ} (valid : Delivering state)
    (client : next.client = state.client) (pull : next.pull = state.pull)
    (distinct : (next.rows.map RowVersion.id).Nodup)
    (settled : ∀ us, Settled state us → Settled next us)
    (fresh : ∀ row ∈ next.rows, row ∈ state.rows ∨ ∀ us, Settled state us → us ≤ row.us) : Delivering next := by
  have resumes : ∀ context, Resumes state context → Resumes next context := by
    intro context holds
    rwa [Resumes,client]
  have reads : ∀ context watermark rows, Settled state watermark → Reads state context watermark rows →
      Reads next context watermark rows := by
    rintro context watermark rows open' ⟨whole,cut,alone,below,all⟩
    refine ⟨whole,cut,alone,below,fun row member early => ?_⟩
    rcases fresh row member with old | new
    · exact all row old early
    · exact absurd early (Nat.not_lt_of_le (new watermark open'))
  refine ⟨distinct,?_,?_,?_⟩
  · intro cursor here
    exact settled _ (valid.settled cursor (client ▸ here))
  · intro cursor here row member early
    rw [client] at here ⊢
    rcases fresh row member with old | new
    · exact valid.sent cursor here row old early
    · have late := new _ (valid.settled cursor here)
      have order : cursor.position < row.position := Prod.Lex.toLex_lt_toLex.mpr (.inl late)
      exact absurd early (not_le_of_gt order)
  · have flight := valid.flight
    simp only [InFlight,pull]
    cases phase : state.pull with
    | idle => trivial
    | started context =>
      simp only [InFlight,phase] at flight
      exact resumes context flight
    | watermarked context watermark =>
      simp only [InFlight,phase] at flight
      exact ⟨resumes context flight.1,settled _ flight.2⟩
    | rowsRead context watermark rows =>
      simp only [InFlight,phase] at flight
      obtain ⟨from',ahead,read⟩ := flight
      exact ⟨resumes context from',settled _ ahead,reads _ _ _ ahead read⟩
    | stonesRead context watermark rows stones =>
      simp only [InFlight,phase] at flight
      obtain ⟨from',ahead,read,below⟩ := flight
      exact ⟨resumes context from',settled _ ahead,reads _ _ _ ahead read,below⟩

theorem receive_cursor {client : Client ι δ}
    (given : (receive client watermark (respond context watermark rows stones)).cursor = some cursor) :
    let merged := merge Item.position rows stones
    let del := owed context watermark (pullLimit < merged.length)
    (∃ last, (page pullLimit merged).getLast? = some last ∧ cursor = ⟨del,last.us,last.id⟩) ∨
    page pullLimit merged = [] ∧ (∃ old, context.cursor = some old ∧ cursor = ⟨del,old.us,old.id⟩) ∨
    page pullLimit merged = [] ∧ context.cursor = none ∧ client.cursor = some cursor := by
  intro merged del
  simp only [receive,respond] at given
  cases found : (page pullLimit merged).getLast? with
  | some last =>
    rw [found] at given
    exact .inl ⟨last,rfl,(Option.some.inj given).symm⟩
  | none =>
    have empty := List.getLast?_eq_none_iff.mp found
    rw [found] at given
    cases start : context.cursor with
    | none =>
      rw [start] at given
      exact .inr (.inr ⟨empty,rfl,given⟩)
    | some old =>
      rw [start] at given
      exact .inr (.inl ⟨empty,old,rfl,(Option.some.inj given).symm⟩)

theorem page_below {rows stones : List (Item ι δ)} (early : ∀ row ∈ rows, row.us < watermark)
    (deleted : ∀ stone ∈ stones, stone.us < watermark)
    (member : item ∈ page pullLimit (merge Item.position rows stones)) : item.us < watermark := by
  rcases mem_merge.mp (List.mem_of_mem_take member) with row | ⟨stone,_⟩
  · exact early item row
  · exact deleted item stone

theorem row_delivered {whole : List (RowVersion ι δ)} {stones : List (Item ι δ)}
    (alone : (whole.map RowVersion.id).Nodup) (member : row ∈ whole)
    (last : (page pullLimit (merge Item.position (fetch Item.position (pullLimit + 1) (whole.map rowItem)) stones)).getLast?
      = some item) (reached : row.position ≤ item.position) :
    rowItem row ∈ page pullLimit
      (merge Item.position (fetch Item.position (pullLimit + 1) (whole.map rowItem)) stones) := by
  have distinct : ((whole.map rowItem).map Item.position).Nodup := by
    rw [List.map_map]
    refine List.Nodup.of_map (fun position : Position ι => (ofLex position).2) ?_
    rw [List.map_map]
    exact alone
  exact first_covered distinct (List.mem_map_of_mem member) (.inr ⟨item,last,reached⟩)

theorem delivering_receive {state : State ι δ} (valid : Delivering state)
    (phase : state.pull = .stonesRead context watermark rows stones) :
    Delivering {state with
      pull := .idle
      client := receive state.client watermark (respond context watermark rows stones)} := by
  have flight := valid.flight
  simp only [InFlight,phase] at flight
  obtain ⟨resumes,ahead,⟨whole,cut,alone,early,all⟩,below⟩ := flight
  have recent : ∀ row ∈ rows, row.us < watermark := by
    intro row member
    obtain ⟨version,present,rfl⟩ := List.mem_map.mp (mem_fetch (cut ▸ member))
    exact early version present
  refine ⟨valid.distinct,?_,?_,trivial⟩
  · intro cursor given
    rcases receive_cursor given with ⟨last,found,rfl⟩ | ⟨_,old,start,rfl⟩ | ⟨_,_,old⟩
    · have within := page_below recent below (last_mem found)
      exact ⟨le_trans within ahead.1,fun txn member => le_trans within (ahead.2 txn member)⟩
    · exact valid.settled old (resumes old start)
    · exact valid.settled cursor old
  · intro cursor given row member reached
    have before : ∀ old, state.client.cursor = some old → row.position ≤ old.position →
        row ∈ (receive state.client watermark (respond context watermark rows stones)).delivered :=
      fun old here order => List.mem_append_left _ (valid.sent old here row member order)
    rcases receive_cursor given with ⟨last,found,rfl⟩ | ⟨_,old,start,rfl⟩ | ⟨_,_,old⟩
    · have order : row.us ≤ last.us := by
        rcases Prod.Lex.toLex_le_toLex.mp reached with strict | ⟨same,_⟩
        · exact Nat.le_of_lt strict
        · exact Nat.le_of_eq same
      have within : row.us < watermark := lt_of_le_of_lt order (page_below recent below (last_mem found))
      by_cases past : after context.cursor row.position
      · subst cut
        have shown := row_delivered alone (all row member within past) found reached
        exact List.mem_append_right _ (List.mem_filterMap.mpr ⟨rowItem row,shown,rfl⟩)
      · cases start : context.cursor with
        | none => simp [after,start] at past
        | some old =>
          simp only [after,start,decide_eq_true_eq,not_lt] at past
          exact before old (resumes old start) past
    · exact before old (resumes old start) reached
    · exact before cursor old reached

theorem delivering_pull {state next : State ι δ} (valid : Delivering state) (moved : Pulled state action next) :
    Delivering next := by
  have flight := valid.flight
  cases moved with
  | started opens phase =>
    have kept : ∀ client : Client ι δ, client = (if state.client.cursor.isNone then {state.client with held := nothing}
        else state.client) → client.cursor = state.client.cursor ∧ client.delivered = state.client.delivered := by
      rintro client rfl
      split <;> exact ⟨rfl,rfl⟩
    obtain ⟨cursor,delivered⟩ := kept _ rfl
    refine ⟨valid.distinct,?_,?_,?_⟩
    · simp only [cursor]
      exact valid.settled
    · simp only [cursor,delivered]
      exact valid.sent
    · simp only [InFlight,Resumes,cursor]
      exact fun old resumed => (decideResync_cursor resumed).1
  | watermarked context blind phase =>
    simp only [InFlight,phase] at flight
    exact ⟨valid.distinct,valid.settled,valid.sent,flight,settled_watermark state blind⟩
  | rowsRead context watermark phase =>
    simp only [InFlight,phase] at flight
    refine ⟨valid.distinct,valid.settled,valid.sent,flight.1,flight.2,?_⟩
    refine ⟨state.rows.filter fun row => after context.cursor row.position && row.us < watermark,rfl,?_,?_,?_⟩
    · exact valid.distinct.sublist ((List.filter_sublist ..).map _)
    · intro row member
      simp only [List.mem_filter,Bool.and_eq_true,decide_eq_true_eq] at member
      exact member.2.2
    · intro row member early past
      simp [member,early,past]
  | stonesRead context watermark rows phase =>
    simp only [InFlight,phase] at flight
    refine ⟨valid.distinct,valid.settled,valid.sent,flight.1,flight.2.1,flight.2.2,?_⟩
    intro stone member
    have listed := mem_fetch member
    unfold matchingStones at listed
    split at listed
    · cases listed
    · obtain ⟨deleted,kept,rfl⟩ := List.mem_map.mp listed
      simp only [List.mem_filter,Bool.and_eq_true,decide_eq_true_eq] at kept
      exact kept.2.2
  | received context watermark rows stones phase => exact delivering_receive valid phase
  | lost => exact ⟨valid.distinct,valid.settled,valid.sent,trivial⟩

theorem delivering_step {state next : State ι δ} (valid : Delivering state) (moved : step state action = some next) :
    Delivering next := by
  cases step_moved moved with
  | clock now later =>
    exact delivering_server valid rfl rfl valid.distinct
      (fun _ ahead => settled_of ahead later fun txn member => ⟨txn,member,rfl⟩) fun row member => .inl member
  | opened =>
    exact delivering_server valid rfl rfl valid.distinct (fun _ ahead => settled_begin ahead) fun row member => .inl member
  | edited active starts =>
    exact delivering_server valid rfl rfl valid.distinct (fun _ ahead => settled_of ahead le_rfl starts)
      fun row member => .inl member
  | committed txn present active starts =>
    have written := commit_written state txn valid.distinct
    refine delivering_server valid rfl rfl written.distinct (fun _ ahead => settled_of ahead le_rfl starts) ?_
    intro row member
    rcases written.fresh row member with old | ⟨same,_⟩
    · exact .inl old
    · exact .inr fun us ahead => same ▸ ahead.2 txn present
  | purged began seen named past =>
    exact delivering_server valid rfl rfl valid.distinct (fun _ ahead => settled_same ahead rfl rfl)
      fun row member => .inl member
  | pulled moved => exact delivering_pull valid (stepPull_pulled moved)

-- No interleaving makes a pull skip a row that is still current.
theorem pull_delivers (path : run step (State.initial : State ι δ) actions = some state)
    (here : state.client.cursor = some cursor) (member : row ∈ state.rows) (reached : row.position ≤ cursor.position) :
    row ∈ state.client.delivered := by
  have preserved : Preserved (step : State ι δ → _) (fun _ _ => True) Delivering :=
    fun _ _ _ valid _ moved => delivering_step valid moved
  have valid := run_preserves preserved delivering_initial (guarded_of_always fun _ _ => trivial) path
  exact valid.sent cursor here row member reached

end

def pulledOnce : List (SyncPull.Action Nat Bool) := [.tick 1,.begin,.write 0 (.put 7 true),.commit 0,.tick 1,.begin,
  .startPull true,.readWatermark false,.readRows,.readStones,.receive]

theorem pull_delivers_once : ∃ (state : State Nat Bool) (cursor : Cursor Nat) (row : RowVersion Nat Bool),
    run step State.initial pulledOnce = some state ∧ state.client.cursor = some cursor ∧ row ∈ state.rows ∧
    row.position ≤ cursor.position ∧ row ∈ state.client.delivered := by
  let row : RowVersion Nat Bool := ⟨7,1,1,true⟩
  let cursor : Cursor Nat := ⟨2,1,7⟩
  let state : State Nat Bool :=
    ⟨2,1,[⟨2,[]⟩],[row],[],[],.idle,⟨some cursor,Function.update nothing 7 (some row),[row],some 2⟩⟩
  have path : run step State.initial pulledOnce = some state := rfl
  have listed : row ∈ state.rows := List.mem_singleton_self row
  exact ⟨state,cursor,row,path,rfl,listed,le_rfl,pull_delivers path rfl listed le_rfl⟩

end Zveltio.SyncPullRows
