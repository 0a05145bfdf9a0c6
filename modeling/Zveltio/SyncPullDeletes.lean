import Zveltio.SyncPullRows
namespace Zveltio.SyncPullDeletes

open Keyset Runs SyncPull SyncPullRows

section
variable {ι : Type u} {δ : Type v} [LinearOrder ι]

-- The copy holds a version that this delete took away.
def Outdated (held : ι → Option (RowVersion ι δ)) (stone : Tombstone ι) : Prop :=
  ∃ row, held stone.id = some row ∧ row.seq < stone.seq

def Awaits (state : State ι δ) (context : Context ι) : Prop :=
  Resumes state context ∧ (context.cursor = none → context.resync ∨ state.client.cursor = none)

-- Every delete the pull may still have to send has its tombstone.
def Retained (state : State ι δ) (context : Context ι) : Prop :=
  ∀ cursor, context.cursor = some cursor → ∀ stone ∈ state.deletions, cursor.del ≤ stone.us → stone ∈ state.stones

def Bounded (state : State ι δ) (context : Context ι) (watermark : Nat) : Prop :=
  Settled state watermark ∧ (watermark = 0 ∨ ∀ cursor, context.cursor = some cursor → cursor.del ≤ watermark)

def RowsCurrent (state : State ι δ) (watermark : Nat) (rows : List (Item ι δ)) : Prop :=
  ∀ item ∈ rows, item.us < watermark ∧ ∀ row, item.row = some row →
    ∀ stone ∈ state.deletions, stone.id = item.id → row.seq < stone.seq → watermark ≤ stone.us

local instance lawful : LawfulBEq (Position ι) := inferInstance

-- The tombstones read were cut from at least the pull's range, and no row hides
-- two of them if the cut left any out.
def StonesRead (state : State ι δ) (context : Context ι) (watermark : Nat) (rows stones : List (Item ι δ)) : Prop :=
  (∀ item ∈ stones, item.us < watermark ∧ item.row = none) ∧
  ∀ cursor, context.cursor = some cursor → ∃ whole : List (Tombstone ι),
    stones = fetch Item.position (pullLimit + 1) (whole.map stoneItem) ∧
    (stones.length = pullLimit + 1 →
      ((stones.filter fun stone => stone.position ∈ rows.map Item.position).map Item.position).Nodup) ∧
    ∀ stone ∈ state.deletions, cursor.del ≤ stone.us → stone.us < watermark → cursor.position < stone.position →
      stone ∈ whole

def DeletesInFlight (state : State ι δ) : Prop :=
  match state.pull with
  | .idle => True
  | .started context => Awaits state context ∧ Retained state context
  | .watermarked context watermark =>
    Awaits state context ∧ Retained state context ∧ Bounded state context watermark
  | .rowsRead context watermark rows => Awaits state context ∧ Retained state context ∧
      Bounded state context watermark ∧ RowsCurrent state watermark rows
  | .stonesRead context watermark rows stones => Awaits state context ∧ Bounded state context watermark ∧
      RowsCurrent state watermark rows ∧ StonesRead state context watermark rows stones

-- What the copy holds wrongly is still ahead of the cursor, on both of its clocks.
structure Complete (state : State ι δ) : Prop where
  distinct : (state.rows.map RowVersion.id).Nodup
  numbered : ∀ stone ∈ state.deletions, stone.seq ≤ state.commits
  later : ∀ stone ∈ state.deletions, ∀ row ∈ state.rows, row.id = stone.id → stone.seq ≤ row.seq
  kept : ∀ stone ∈ state.deletions, stone ∈ state.stones ∨ stone.us + retentionUs < state.now
  empty : state.client.cursor = none → ∀ id, state.client.held id = none
  settled : ∀ cursor, state.client.cursor = some cursor → Settled state cursor.del ∧ Settled state (cursor.us + 1)
  ahead : ∀ cursor, state.client.cursor = some cursor → ∀ stone ∈ state.deletions,
    Outdated state.client.held stone → cursor.del ≤ stone.us ∧ cursor.position < stone.position
  caughtUp : ∀ watermark, state.client.caughtUp = some watermark → Settled state watermark ∧
    ∀ stone ∈ state.deletions, Outdated state.client.held stone → watermark ≤ stone.us
  flight : DeletesInFlight state

theorem complete_initial : Complete (State.initial : State ι δ) :=
  ⟨List.nodup_nil,nofun,nofun,nofun,fun _ _ => rfl,nofun,nofun,nofun,trivial⟩

theorem complete_server {state next : State ι δ} (valid : Complete state) (client : next.client = state.client)
    (pull : next.pull = state.pull) (distinct : (next.rows.map RowVersion.id).Nodup)
    (numbered : ∀ stone ∈ next.deletions, stone.seq ≤ next.commits)
    (later : ∀ stone ∈ next.deletions, ∀ row ∈ next.rows, row.id = stone.id → stone.seq ≤ row.seq)
    (kept : ∀ stone ∈ next.deletions, stone ∈ next.stones ∨ stone.us + retentionUs < next.now)
    (settled : ∀ us, Settled state us → Settled next us)
    (fresh : ∀ stone ∈ next.deletions, stone ∈ state.deletions ∨ ∀ us, Settled state us → us ≤ stone.us)
    (retained : ∀ context, state.pull.resumed = context.cursor → Retained state context → Retained next context) :
    Complete next := by
  have awaits : ∀ context, Awaits state context → Awaits next context := by
    intro context holds
    rwa [Awaits,Resumes,client]
  have bounded : ∀ context watermark, Bounded state context watermark → Bounded next context watermark :=
    fun context watermark holds => ⟨settled watermark holds.1,holds.2⟩
  have current : ∀ watermark rows, Settled state watermark → RowsCurrent state watermark rows →
      RowsCurrent next watermark rows := by
    intro watermark rows ahead holds item member
    refine ⟨(holds item member).1,fun row found stone deleted same order => ?_⟩
    rcases fresh stone deleted with old | new
    · exact (holds item member).2 row found stone old same order
    · exact new watermark ahead
  have read : ∀ context watermark rows stones, Settled state watermark →
      StonesRead state context watermark rows stones → StonesRead next context watermark rows stones := by
    intro context watermark rows stones ahead holds
    refine ⟨holds.1,fun cursor resumed => ?_⟩
    obtain ⟨whole,cut,once,all⟩ := holds.2 cursor resumed
    refine ⟨whole,cut,once,fun stone deleted owing early => ?_⟩
    rcases fresh stone deleted with old | new
    · exact all stone old owing early
    · exact absurd early (Nat.not_lt_of_le (new watermark ahead))
  refine ⟨distinct,numbered,later,kept,client ▸ valid.empty,?_,?_,?_,?_⟩
  · intro cursor here
    obtain ⟨deletes,rows⟩ := valid.settled cursor (client ▸ here)
    exact ⟨settled _ deletes,settled _ rows⟩
  · intro cursor here stone deleted outdated
    rw [client] at here outdated
    rcases fresh stone deleted with old | new
    · exact valid.ahead cursor here stone old outdated
    · obtain ⟨deletes,rows⟩ := valid.settled cursor here
      exact ⟨new _ deletes,Prod.Lex.toLex_lt_toLex.mpr (.inl (new _ rows))⟩
  · intro watermark done
    rw [client] at done ⊢
    obtain ⟨ahead,clean⟩ := valid.caughtUp watermark done
    refine ⟨settled watermark ahead,fun stone deleted outdated => ?_⟩
    rcases fresh stone deleted with old | new
    · exact clean stone old outdated
    · exact new watermark ahead
  · have flight := valid.flight
    simp only [DeletesInFlight,pull]
    cases phase : state.pull with
    | idle => trivial
    | started context =>
      simp only [DeletesInFlight,phase] at flight
      obtain ⟨awaiting,retaining⟩ := flight
      exact ⟨awaits _ awaiting,retained _ (phase ▸ rfl) retaining⟩
    | watermarked context watermark =>
      simp only [DeletesInFlight,phase] at flight
      obtain ⟨awaiting,retaining,bound⟩ := flight
      exact ⟨awaits _ awaiting,retained _ (phase ▸ rfl) retaining,bounded _ _ bound⟩
    | rowsRead context watermark rows =>
      simp only [DeletesInFlight,phase] at flight
      obtain ⟨awaiting,retaining,bound,rowsNow⟩ := flight
      exact ⟨awaits _ awaiting,retained _ (phase ▸ rfl) retaining,bounded _ _ bound,current _ _ bound.1 rowsNow⟩
    | stonesRead context watermark rows stones =>
      simp only [DeletesInFlight,phase] at flight
      obtain ⟨awaiting,bound,rowsNow,stonesNow⟩ := flight
      exact ⟨awaits _ awaiting,bounded _ _ bound,current _ _ bound.1 rowsNow,read _ _ _ _ bound.1 stonesNow⟩

theorem held_from {changes : List (Item ι δ)} {id : ι} (holds : changes.foldl applyChange held id = some row) :
    (∃ item ∈ changes, item.id = id ∧ item.row = some row) ∨ held id = some row ∧ ∀ item ∈ changes, item.id ≠ id := by
  induction changes generalizing held with
  | nil => exact .inr ⟨holds,by simp⟩
  | cons first rest ih =>
    rcases ih holds with ⟨item,member,found⟩ | ⟨before,silent⟩
    · exact .inl ⟨item,List.mem_cons_of_mem _ member,found⟩
    · by_cases named : first.id = id
      · subst named
        rw [applyChange,Function.update_self] at before
        exact .inl ⟨first,List.mem_cons_self ..,rfl,before⟩
      · rw [applyChange,Function.update_of_ne (Ne.symm named)] at before
        refine .inr ⟨before,fun item member => ?_⟩
        rcases List.mem_cons.mp member with rfl | old
        · exact named
        · exact silent item old

theorem stone_shown {state : State ι δ} (read : StonesRead state context watermark rows stones)
    (resumed : context.cursor = some cursor) (deleted : stone ∈ state.deletions) (owing : cursor.del ≤ stone.us)
    (early : stone.us < watermark) (past : cursor.position < stone.position)
    (covered : Covered Item.position pullLimit (merge Item.position rows stones) stone.position) :
    ∃ item ∈ page pullLimit (merge Item.position rows stones), item.id = stone.id := by
  obtain ⟨whole,rfl,once,all⟩ := read.2 cursor resumed
  have member := List.mem_map_of_mem (f := (stoneItem : Tombstone ι → Item ι δ)) (all stone deleted owing early past)
  obtain ⟨item,shown,same⟩ := second_covered (by convert once) member covered
  exact ⟨item,shown,congrArg (fun position : Position ι => (ofLex position).2) same⟩

-- What is still held wrongly after a page: either a row of the page deleted later
-- than the watermark, or an old one whose delete the page does not reach.
theorem outdated_after {state : State ι δ} (valid : Complete state)
    (phase : state.pull = .stonesRead context watermark rows stones) (deleted : stone ∈ state.deletions)
    (outdated : Outdated (receive state.client watermark (respond context watermark rows stones)).held stone) :
    (∃ item ∈ page pullLimit (merge Item.position rows stones), item.us < watermark) ∧ watermark ≤ stone.us ∨
    ∃ cursor, context.cursor = some cursor ∧ cursor.del ≤ stone.us ∧ cursor.position < stone.position ∧
      (stone.us < watermark →
        ¬Covered Item.position pullLimit (merge Item.position rows stones) stone.position) := by
  have flight := valid.flight
  simp only [DeletesInFlight,phase] at flight
  obtain ⟨awaits,bounded,current,read⟩ := flight
  obtain ⟨row,holds,order⟩ := outdated
  rcases held_from holds with ⟨item,shown,same,found⟩ | ⟨before,silent⟩
  · rcases mem_merge.mp (List.mem_of_mem_take shown) with first | ⟨second,_⟩
    · obtain ⟨early,clean⟩ := current item first
      exact .inl ⟨⟨item,shown,early⟩,clean row found stone deleted same.symm order⟩
    · have none := (read.1 item second).2
      rw [none] at found
      cases found
  · have full : (respond context watermark rows stones).resync = false ∧ state.client.held stone.id = some row := by
      cases restarted : (respond context watermark rows stones).resync with
      | true =>
        rw [restarted] at before
        cases before
      | false =>
        rw [restarted] at before
        exact ⟨rfl,before⟩
    obtain ⟨resumed,held⟩ := full
    have positioned : state.client.cursor ≠ none := by
      intro fresh
      rw [valid.empty fresh] at held
      cases held
    obtain ⟨cursor,start⟩ := Option.ne_none_iff_exists'.mp fun fresh => by
      rcases awaits.2 fresh with restarted | gone
      · exact absurd restarted (Bool.eq_false_iff.mp resumed)
      · exact positioned gone
    obtain ⟨owing,past⟩ := valid.ahead cursor (awaits.1 cursor start) stone deleted ⟨row,held,order⟩
    refine .inr ⟨cursor,start,owing,past,fun early covered => ?_⟩
    obtain ⟨item,shown,same⟩ := stone_shown read start deleted owing early past covered
    exact silent item shown same

theorem receive_none {client : Client ι δ}
    (gone : (receive client watermark (respond context watermark rows stones)).cursor = none) :
    page pullLimit (merge Item.position rows stones) = [] ∧ client.cursor = none := by
  obtain ⟨none',old⟩ := Option.or_eq_none_iff.mp gone
  refine ⟨?_,old⟩
  simp only [respond] at none'
  split at none'
  · cases none'
  · next empty => exact List.getLast?_eq_none_iff.mp empty

theorem complete_receive {state : State ι δ} (valid : Complete state)
    (phase : state.pull = .stonesRead context watermark rows stones) :
    Complete {state with
      pull := .idle
      client := receive state.client watermark (respond context watermark rows stones)} := by
  have flight := valid.flight
  simp only [DeletesInFlight,phase] at flight
  obtain ⟨awaits,bounded,current,read⟩ := flight
  have clean : ∀ stone ∈ state.deletions, (¬pullLimit < (merge Item.position rows stones).length) →
      Outdated (receive state.client watermark (respond context watermark rows stones)).held stone →
      watermark ≤ stone.us := by
    intro stone deleted short outdated
    rcases outdated_after valid phase deleted outdated with ⟨_,late⟩ | ⟨cursor,start,owing,past,missed⟩
    · exact late
    · by_contra early
      exact missed (Nat.lt_of_not_le early) (.inl (Nat.le_of_not_lt short))
  have below : ∀ item ∈ page pullLimit (merge Item.position rows stones), item.us < watermark := fun item member =>
    page_below (fun row here => (current row here).1) (fun stone here => (read.1 stone here).1) member
  have owing : ∀ stone ∈ state.deletions,
      Outdated (receive state.client watermark (respond context watermark rows stones)).held stone →
      owed context watermark (pullLimit < (merge Item.position rows stones).length) ≤ stone.us := by
    intro stone deleted outdated
    unfold owed
    split
    · next full =>
      rcases outdated_after valid phase deleted outdated with ⟨⟨item,_,within⟩,late⟩ | ⟨cursor,start,owing,_⟩
      · cases start : context.cursor with
        | none => exact late
        | some cursor =>
          rcases bounded.2 with zero | bound
          · omega
          · exact le_trans (bound cursor start) late
      · rw [start]
        exact owing
    · next full =>
      simp only [Bool.or_eq_true,decide_eq_true_eq,not_or] at full
      exact clean stone deleted full.1 outdated
  refine ⟨valid.distinct,valid.numbered,valid.later,valid.kept,?_,?_,?_,?_,trivial⟩
  · intro gone id
    have silent := receive_none gone
    simp only [receive,respond,silent.1,List.foldl_nil]
    split
    · rfl
    · exact valid.empty silent.2 id
  · intro cursor given
    have due : Settled state (owed context watermark (pullLimit < (merge Item.position rows stones).length)) := by
      unfold owed
      split
      · cases start : context.cursor with
        | none => exact bounded.1
        | some old => exact (valid.settled old (awaits.1 old start)).1
      · exact bounded.1
    rcases receive_cursor given with ⟨last,found,rfl⟩ | ⟨_,old,start,rfl⟩ | ⟨_,_,old⟩
    · have within := below last (last_mem found)
      exact ⟨due,le_trans within bounded.1.1,fun txn member => le_trans within (bounded.1.2 txn member)⟩
    · exact ⟨due,(valid.settled old (awaits.1 old start)).2⟩
    · exact valid.settled cursor old
  · intro cursor given stone deleted outdated
    have due := owing stone deleted outdated
    have reached := outdated_after valid phase deleted outdated
    rcases receive_cursor given with ⟨last,found,rfl⟩ | ⟨silent,old,start,rfl⟩ | ⟨silent,fresh,old⟩
    · refine ⟨due,?_⟩
      have within := below last (last_mem found)
      rcases reached with ⟨_,late⟩ | ⟨before,start,_,past,missed⟩
      · exact Prod.Lex.toLex_lt_toLex.mpr (.inl (lt_of_lt_of_le within late))
      · by_contra order
        have order : stone.position ≤ last.position := not_lt.mp order
        have early : stone.us < watermark := by
          rcases Prod.Lex.toLex_le_toLex.mp order with strict | ⟨same,_⟩
          · exact lt_trans strict within
          · exact lt_of_eq_of_lt same within
        exact missed early (.inr ⟨last,found,order⟩)
    · refine ⟨due,?_⟩
      rcases reached with ⟨⟨item,shown,_⟩,_⟩ | ⟨before,same,_,past,_⟩
      · rw [silent] at shown
        cases shown
      · cases start.symm.trans same
        exact past
    · rcases reached with ⟨⟨item,shown,_⟩,_⟩ | ⟨before,same,_⟩
      · rw [silent] at shown
        cases shown
      · cases fresh.symm.trans same
  · intro other done
    by_cases full : pullLimit < (merge Item.position rows stones).length
    · simp [receive,respond,full] at done
    · simp only [receive,respond,full,decide_false,Bool.false_eq_true,if_false,Option.some.injEq] at done
      subst done
      exact ⟨bounded.1,fun stone deleted outdated => clean stone deleted full outdated⟩

theorem complete_pull {state next : State ι δ} (valid : Complete state) (allowed : Permitted state action)
    (moved : Pulled state action next) : Complete next := by
  have flight := valid.flight
  cases moved with
  | started opens phase =>
    have restart : ∀ client : Client ι δ, client = (if state.client.cursor.isNone then {state.client with held := nothing}
        else state.client) → client.cursor = state.client.cursor ∧ client.caughtUp = state.client.caughtUp ∧
        ∀ id row, client.held id = some row → state.client.held id = some row := by
      rintro client rfl
      split
      · exact ⟨rfl,rfl,nofun⟩
      · exact ⟨rfl,rfl,fun _ _ holds => holds⟩
    obtain ⟨cursor,caughtUp,held⟩ := restart _ rfl
    have before : ∀ {stone : Tombstone ι}, Outdated _ stone → Outdated state.client.held stone :=
      fun ⟨row,holds,order⟩ => ⟨row,held _ row holds,order⟩
    refine ⟨valid.distinct,valid.numbered,valid.later,valid.kept,?_,?_,?_,?_,⟨?_,?_⟩,?_⟩
    · intro fresh id
      rw [cursor] at fresh
      refine Option.eq_none_iff_forall_ne_some.mpr fun row holds => ?_
      have old := held id row holds
      rw [valid.empty fresh id] at old
      cases old
    · simp only [cursor]
      exact valid.settled
    · simp only [cursor]
      exact fun old here stone deleted outdated => valid.ahead old here stone deleted (before outdated)
    · simp only [caughtUp]
      intro watermark done
      obtain ⟨ahead,clean⟩ := valid.caughtUp watermark done
      exact ⟨ahead,fun stone deleted outdated => clean stone deleted (before outdated)⟩
    · simp only [Resumes,cursor]
      exact fun old resumed => (decideResync_cursor resumed).1
    · simp only [cursor]
      exact decideResync_none
    · intro old resumed stone deleted owing
      have recent := (decideResync_cursor resumed).2
      rcases valid.kept stone deleted with here | gone
      · exact here
      · omega
  | watermarked context blind phase =>
    simp only [DeletesInFlight,phase] at flight
    obtain ⟨awaits,retained⟩ := flight
    refine {valid with flight := ⟨awaits,retained,settled_watermark state blind,?_⟩}
    cases blind with
    | true => exact .inl rfl
    | false =>
      exact .inr fun cursor start =>
        (watermark_exact state _).mpr (valid.settled cursor (awaits.1 cursor start)).1
  | rowsRead context watermark phase =>
    simp only [DeletesInFlight,phase] at flight
    obtain ⟨awaits,retained,bounded⟩ := flight
    refine {valid with flight := ⟨awaits,retained,bounded,?_⟩}
    intro item member
    obtain ⟨row,matching,rfl⟩ := List.mem_map.mp (mem_fetch member)
    simp only [List.mem_filter,Bool.and_eq_true,decide_eq_true_eq] at matching
    refine ⟨matching.2.2,fun found same stone deleted named order => ?_⟩
    cases Option.some.inj same
    have newer := valid.later stone deleted row matching.1 named.symm
    omega
  | stonesRead context watermark rows phase =>
    simp only [DeletesInFlight,phase] at flight
    obtain ⟨awaits,retained,bounded,current⟩ := flight
    refine {valid with flight := ⟨awaits,bounded,current,?_,?_⟩}
    · intro item member
      have listed := mem_fetch member
      unfold matchingStones at listed
      split at listed
      · cases listed
      · obtain ⟨stone,matching,rfl⟩ := List.mem_map.mp listed
        simp only [List.mem_filter,Bool.and_eq_true,decide_eq_true_eq] at matching
        exact ⟨matching.2.2,rfl⟩
    · intro cursor start
      refine ⟨_,by rw [matchingStones,start]; rfl,allowed context watermark rows phase,?_⟩
      intro stone deleted owing early past
      simp [after,retained cursor start stone deleted owing,early,past]
  | received context watermark rows stones phase => exact complete_receive valid phase
  | lost => exact {valid with flight := trivial}

theorem complete_step {state next : State ι δ} (valid : Complete state) (allowed : Permitted state action)
    (moved : step state action = some next) : Complete next := by
  cases step_moved moved with
  | clock now later =>
    refine complete_server valid rfl rfl valid.distinct valid.numbered valid.later ?_
      (fun _ ahead => settled_of ahead later fun txn member => ⟨txn,member,rfl⟩)
      (fun stone deleted => .inl deleted) fun _ _ retained => retained
    exact fun stone deleted => (valid.kept stone deleted).imp_right fun old => lt_of_lt_of_le old later
  | opened =>
    exact complete_server valid rfl rfl valid.distinct valid.numbered valid.later valid.kept
      (fun _ ahead => settled_begin ahead) (fun stone deleted => .inl deleted) fun _ _ retained => retained
  | edited active starts =>
    exact complete_server valid rfl rfl valid.distinct valid.numbered valid.later valid.kept
      (fun _ ahead => settled_of ahead le_rfl starts) (fun stone deleted => .inl deleted) fun _ _ retained => retained
  | committed txn present active starts =>
    have written := commit_written state txn valid.distinct
    refine complete_server valid rfl rfl written.distinct ?_ ?_ ?_
      (fun _ ahead => settled_of ahead le_rfl starts) ?_ ?_
    · intro stone deleted
      rcases List.mem_append.mp deleted with old | new
      · exact Nat.le_succ_of_le (valid.numbered stone old)
      · exact Nat.le_of_eq (written.stamped stone new).2
    · intro stone deleted row member named
      rcases List.mem_append.mp deleted with old | new
      · rcases written.fresh row member with here | ⟨_,seq⟩
        · exact valid.later stone old row here named
        · rw [seq]
          exact Nat.le_succ_of_le (valid.numbered stone old)
      · rw [written.later stone new row member named,(written.stamped stone new).2]
    · intro stone deleted
      rcases List.mem_append.mp deleted with old | new
      · exact (valid.kept stone old).imp_left fun here => List.mem_append_left _ here
      · exact .inl (List.mem_append_right _ new)
    · intro stone deleted
      rcases List.mem_append.mp deleted with old | new
      · exact .inl old
      · exact .inr fun us ahead => (written.stamped stone new).1 ▸ ahead.2 txn present
    · intro context _ retained cursor resumed stone deleted owing
      rcases List.mem_append.mp deleted with old | new
      · exact List.mem_append_left _ (retained cursor resumed stone old owing)
      · exact List.mem_append_right _ new
  | purged began seen named past =>
    subst named
    refine complete_server valid rfl rfl valid.distinct valid.numbered valid.later ?_
      (fun _ ahead => settled_same ahead rfl rfl) (fun stone deleted => .inl deleted) ?_
    · intro stone deleted
      by_cases gone : stone.us + retentionUs < began ∧ stone.seq ≤ seen
      · exact .inr (lt_of_lt_of_le gone.1 past)
      · exact (valid.kept stone deleted).imp_left fun here => List.mem_filter.mpr ⟨here,decide_eq_true gone⟩
    · intro context resumes retained cursor start stone deleted owing
      have here := retained cursor start stone deleted owing
      have spared := mt (allowed cursor (resumes.trans start) stone here) (Nat.not_lt_of_le owing)
      exact List.mem_filter.mpr ⟨here,decide_eq_true spared⟩
  | pulled moved => exact complete_pull valid allowed (stepPull_pulled moved)

-- After a pull that caught up nothing is held that was deleted before its
-- watermark; and a pull that does not restart finds every tombstone it owes.
theorem pull_deletes (guarded : Guarded step Permitted (State.initial : State ι δ) actions)
    (path : run step State.initial actions = some state) :
    (∀ watermark, state.client.caughtUp = some watermark → ∀ stone ∈ state.deletions, stone.us < watermark →
      ¬Outdated state.client.held stone) ∧
    ∀ cursor, state.pull.resumed = some cursor → ∀ stone ∈ state.deletions, Outdated state.client.held stone →
      stone ∈ state.stones := by
  have preserved : Preserved step Permitted (Complete : State ι δ → Prop) :=
    fun _ _ _ valid allowed moved => complete_step valid allowed moved
  have valid := run_preserves preserved complete_initial guarded path
  refine ⟨fun watermark done stone deleted early outdated => ?_,?_⟩
  · exact Nat.not_lt_of_le ((valid.caughtUp watermark done).2 stone deleted outdated) early
  · intro cursor resumed stone deleted outdated
    have flight := valid.flight
    have listed : ∀ context, context.cursor = some cursor → Awaits state context → Retained state context →
        stone ∈ state.stones := fun context start awaits retained =>
      retained cursor start stone deleted (valid.ahead cursor (awaits.1 cursor start) stone deleted outdated).1
    cases phase : state.pull with
    | idle | stonesRead =>
      rw [phase] at resumed
      cases resumed
    | started context =>
      simp only [DeletesInFlight,phase] at flight
      rw [phase] at resumed
      exact listed context resumed flight.1 flight.2
    | watermarked context watermark =>
      simp only [DeletesInFlight,phase] at flight
      rw [phase] at resumed
      exact listed context resumed flight.1 flight.2.1
    | rowsRead context watermark rows =>
      simp only [DeletesInFlight,phase] at flight
      rw [phase] at resumed
      exact listed context resumed flight.1 flight.2.1

end

def pullOnce : List (SyncPull.Action Nat Bool) := [.startPull true,.readWatermark false,.readRows,.readStones,.receive]

def putThenPull : List (SyncPull.Action Nat Bool) := [.tick 10,.begin,.write 0 (.put 7 true),.commit 0,.tick 10] ++ pullOnce

def deleteOnce : List (SyncPull.Action Nat Bool) := [.tick 5,.begin,.write 0 (.delete 7),.commit 0]

def putRow : RowVersion Nat Bool := ⟨7,10,1,true⟩

def putPulled : State Nat Bool :=
  ⟨20,1,[],[putRow],[],[],.idle,⟨some ⟨20,10,7⟩,Function.update nothing 7 (some putRow),[putRow],some 20⟩⟩

def thenDeleted : State Nat Bool := {putPulled with now := 25, commits := 2, rows := [], stones := [⟨7,25,2⟩], deletions := [⟨7,25,2⟩]}

theorem start_resumed {state : State Nat Bool} (idle : state.pull = .idle) (here : state.client.cursor = some cursor)
    (recent : state.now - retentionUs ≤ cursor.del) :
    step state (.startPull true) = some {state with pull := .started ⟨state.now,some cursor,false⟩} := by
  simp [step,stepPull,idle,decideResync,here,Nat.not_lt_of_le recent]

theorem putPulled_path : run step State.initial putThenPull = some putPulled := rfl

theorem thenDeleted_path : run step State.initial (putThenPull ++ deleteOnce) = some thenDeleted :=
  run_append.mpr ⟨putPulled,putPulled_path,rfl⟩

-- The second pull starts where the cursor is just within the retention; before it
-- reads, a collector started a little later removes the tombstone.
def purgeMidPull : List (SyncPull.Action Nat Bool) := [.tick (retentionUs - 5),.startPull true,.tick 10,
  .purge (retentionUs + 30) 2,.readWatermark false,.readRows,.readStones,.receive]

theorem delete_lost : ∃ (state : State Nat Bool) (stone : Tombstone Nat),
    run step State.initial (putThenPull ++ deleteOnce ++ purgeMidPull) = some state ∧
    state.client.caughtUp = some (retentionUs + 30) ∧ stone ∈ state.deletions ∧ stone.us < retentionUs + 30 ∧
    Outdated state.client.held stone := by
  let late : State Nat Bool := {thenDeleted with now := retentionUs + 20}
  let state : State Nat Bool := {thenDeleted with
    now := retentionUs + 30
    stones := []
    client := ⟨some ⟨retentionUs + 30,10,7⟩,Function.update nothing 7 (some putRow),[putRow],some (retentionUs + 30)⟩}
  have recent : late.now - retentionUs ≤ 20 := Nat.le_of_eq (Nat.add_sub_cancel_left ..)
  have path : run step thenDeleted purgeMidPull = some state :=
    run_cons.mpr ⟨late,rfl,run_cons.mpr ⟨_,start_resumed rfl rfl recent,rfl⟩⟩
  exact ⟨state,⟨7,25,2⟩,run_append.mpr ⟨_,thenDeleted_path,path⟩,rfl,List.mem_singleton_self _,by decide,
    putRow,rfl,by decide⟩

theorem pull_deletes_once : ∃ state : State Nat Bool,
    run step State.initial (putThenPull ++ deleteOnce ++ ([.tick 1] ++ pullOnce)) = some state ∧
    state.client.caughtUp = some 26 ∧ ¬Outdated state.client.held ⟨7,25,2⟩ := by
  have few : ∀ stones : List (Item Nat Bool), stones.length < 2 → stones.length ≠ pullLimit + 1 := by
    intro stones short
    unfold pullLimit
    omega
  have first : Guarded step Permitted (State.initial : State Nat Bool) (putThenPull ++ deleteOnce) := by
    refine guarded_cons trivial rfl <| guarded_cons trivial rfl <| guarded_cons trivial rfl <|
      guarded_cons trivial rfl <| guarded_cons trivial rfl <| guarded_cons trivial rfl <| guarded_cons trivial rfl <|
      guarded_cons trivial rfl <| guarded_cons ?_ rfl <| guarded_cons trivial rfl <| guarded_cons trivial rfl <|
      guarded_cons trivial rfl <| guarded_cons trivial rfl <| guarded_cons trivial rfl trivial
    intro context watermark rows phase stones long
    cases phase
    exact absurd long (few _ (by decide))
  let late : State Nat Bool := {thenDeleted with now := 26}
  have recent : late.now - retentionUs ≤ 20 := by decide
  have second : Guarded step Permitted thenDeleted ([.tick 1] ++ pullOnce) := by
    refine guarded_cons trivial (show step thenDeleted (.tick 1) = some late from rfl) <|
      guarded_cons trivial (start_resumed rfl rfl recent) <|
      guarded_cons trivial rfl <| guarded_cons trivial rfl <| guarded_cons ?_ rfl <| guarded_cons trivial rfl trivial
    intro context watermark rows phase stones long
    cases phase
    exact absurd long (few _ (by decide))
  have guarded : Guarded step Permitted (State.initial : State Nat Bool)
      (putThenPull ++ deleteOnce ++ ([.tick 1] ++ pullOnce)) := by
    refine guarded_append.mpr ⟨first,fun middle reached => ?_⟩
    cases Option.some.inj (thenDeleted_path.symm.trans reached)
    exact second
  let state : State Nat Bool := {thenDeleted with
    now := 26
    client := ⟨some ⟨26,25,7⟩,Function.update (Function.update nothing 7 (some putRow)) 7 none,[putRow],some 26⟩}
  have path : run step State.initial (putThenPull ++ deleteOnce ++ ([.tick 1] ++ pullOnce)) = some state :=
    run_append.mpr ⟨_,thenDeleted_path,run_cons.mpr ⟨late,rfl,run_cons.mpr ⟨_,start_resumed rfl rfl recent,rfl⟩⟩⟩
  exact ⟨state,path,rfl,(pull_deletes guarded path).1 26 rfl _ (List.mem_singleton_self _) (by decide)⟩

end Zveltio.SyncPullDeletes
