import Zveltio.GhostRun
namespace Zveltio.GhostSwap
open Runs RowTable GhostRun

section
variable {τ : Type w} {ι : Type u} {α : Type v} {κ : Type x} [DecidableEq τ] [LinearOrder ι] [DecidableEq κ]
  {state : State τ ι α} {moved hidden : Prop} {keys : List (α → Option κ)} {writer : τ} {change : Change ι α}
  {id : ι}

def reached (id : ι) : Phase ι α → Prop
  | .absent | .counting | .copying none => False
  | .copying (some last) => id ≤ last
  | _ => True

def live : Phase ι α → Bool
  | .absent | .violated | .stopped => false
  | _ => true

-- The changelog and the entries still uncommitted: numbered apart, each row's in the order of its row lock.
structure Log (state : State τ ι α) : Prop where
  logs : ∀ write ∈ state.writes, Logged write
  shaped : ∀ entry ∈ state.changelog, Captured entry
  fresh : ∀ entry ∈ state.changelog ++ state.logged, entry.id < state.sequence
  distinct : ((state.changelog ++ state.logged).map Entry.id).Nodup
  sequenced : state.logged.Pairwise fun one two => one.id < two.id
  ordered : (state.rest ++ state.logged).Pairwise fun one two => one.row_id = two.row_id → one.id < two.id
  inside : ∀ pass changes todo, state.phase = .replaying pass changes todo →
    (∀ entry ∈ changes, entry ∈ state.changelog) ∧ todo <:+ changes ∧ todo.Pairwise fun one two => one.id < two.id

-- One row: the ghost with the rest of the changelog over it shows the original's row, but for a row moved to
-- another id, a row the copy could not read, or a row the copy has not come to.
def Close (moved hidden : Prop) (state : State τ ι α) (id : ι) : Prop :=
  Near moved (find state.original id) (latest id (find state.ghost id) state.rest) ∨
    (hidden ∧ latest id (find state.ghost id) state.rest = none) ∨
    (¬ reached id state.phase ∧ ∀ entry ∈ state.rest, entry.row_id ≠ id)

structure Copy (moved hidden : Prop) (state : State τ ι α) : Prop where
  ghosted : Keyed state.ghost
  ahead : ∀ id, ¬ reached id state.phase → find state.ghost id = none
  close : ∀ id, Close moved hidden state id

def Quiet (state : State τ ι α) : Prop :=
  match state.phase with
  | .replaying .third changes _ => ∀ entry ∈ state.changelog, entry.id ∈ changes.map Entry.id
  | .checking | .swapped => state.changelog = []
  | _ => True

structure Held (state : State τ ι α) : Prop where
  still : state.phase.locked = true ∨ state.phase = .swapped → state.writes = [] ∧ state.held = state.original
  quiet : Quiet state
  counted : state.phase = .swapped → state.original.length = state.ghost.length

structure Sound (moved hidden : Prop) (state : State τ ι α) : Prop where
  keyed : Keyed state.original
  apart : ∀ one ∈ state.writes, ∀ two ∈ state.writes, one.writer ≠ two.writer →
    ∀ id ∈ one.change.touched, id ∉ two.change.touched
  untraced : state.phase.traced = false → ∀ write ∈ state.writes, write.entry = none
  log : live state.phase = true → Log state
  copy : live state.phase = true → Copy moved hidden state
  held : live state.phase = true → Held state

omit [DecidableEq τ] [LinearOrder ι] in
theorem rest_changelog (log : Log state) (member : entry ∈ state.rest) : entry ∈ state.changelog := by
  unfold State.rest at member
  split at member
  · next pass changes todo phase =>
    obtain ⟨inside,suffix,_⟩ := log.inside pass changes todo phase
    rcases List.mem_append.mp member with old | new
    · exact inside entry (suffix.subset old)
    · exact (List.mem_filter.mp new).1
  · exact member

omit [LinearOrder ι] in
theorem live_traced {phase : Phase ι α} (alive : live phase = true) : phase.traced = true := by
  cases phase <;> first | rfl | cases alive

omit [LinearOrder ι] in
theorem captured_touched (number : Nat) (change : Change ι α) : (captured number change).row_id ∈ change.touched := by
  cases change <;> simp [captured,Change.touched]

omit [LinearOrder ι] in
theorem captured_id (number : Nat) (change : Change ι α) : (captured number change).id = number := by
  cases change <;> rfl

omit [DecidableEq τ] [LinearOrder ι] in
theorem logged_touched {write : Write τ ι α} {entry : Entry ι α} (log : Logged write) (equal : write.entry = some entry) :
    entry.row_id ∈ write.change.touched := by
  obtain ⟨number,shape⟩ := log
  rw [Option.some.inj (equal.symm.trans shape)]
  exact captured_touched number write.change

omit [DecidableEq τ] [LinearOrder ι] in
theorem mem_logged {entry : Entry ι α} : entry ∈ state.logged ↔ ∃ write ∈ state.writes, write.entry = some entry := by
  simp [State.logged,List.mem_filterMap]

-- An uncommitted write: nothing but the list of writes and the sequence moves.
omit [DecidableEq τ] in
theorem write_sound (sound : Sound moved hidden state) (running : state.phase.ended = false) (open_table : state.phase.locked = false)
    (free : ∀ write ∈ state.writes, write.writer = writer ∨ waits keys change write.change = false) :
    Sound moved hidden (if state.phase.traced then { state with
        writes := state.writes ++ [⟨writer,change,some (captured state.sequence change)⟩]
        sequence := state.sequence + 1 }
      else { state with writes := state.writes ++ [⟨writer,change,none⟩] }) := by
  have disjoint : ∀ write ∈ state.writes, write.writer ≠ writer → ∀ id ∈ change.touched, id ∉ write.change.touched := by
    intro write member other id there wrong
    rcases free write member with same | quiet
    · exact other same
    · rw [waits,Bool.or_eq_false_iff] at quiet
      have both := List.any_eq_false.mp quiet.1 id there
      exact both (by simpa using wrong)
  have locks (entry : Option (Entry ι α)) : ∀ one ∈ state.writes ++ [(⟨writer,change,entry⟩ : Write τ ι α)],
      ∀ two ∈ state.writes ++ [(⟨writer,change,entry⟩ : Write τ ι α)], one.writer ≠ two.writer →
        ∀ id ∈ one.change.touched, id ∉ two.change.touched := by
    intro one first two second other id there wrong
    rcases List.mem_append.mp first with old | new <;> rcases List.mem_append.mp second with older | newer
    · exact sound.apart one old two older other id there wrong
    · cases List.mem_singleton.mp newer
      exact disjoint one old other id wrong there
    · cases List.mem_singleton.mp new
      exact disjoint two older (Ne.symm other) id there wrong
    · cases List.mem_singleton.mp new
      cases List.mem_singleton.mp newer
      exact other rfl
  split
  · next traced =>
    refine ⟨sound.keyed,locks _,fun wrong => ?_,fun alive => ?_,fun alive => ?_,fun alive => ?_⟩
    · cases traced.symm.trans wrong
    · have log := sound.log alive
      have logged : State.logged { state with
          writes := state.writes ++ [⟨writer,change,some (captured state.sequence change)⟩]
          sequence := state.sequence + 1 } = state.logged ++ [captured state.sequence change] := by
        simp [State.logged,List.filterMap_append]
      refine ⟨fun write member => ?_,log.shaped,?_,?_,?_,?_,log.inside⟩
      · rcases List.mem_append.mp member with old | new
        · exact log.logs write old
        · exact ⟨state.sequence,by rw [List.mem_singleton.mp new]⟩
      · rw [logged,← List.append_assoc]
        intro entry member
        rcases List.mem_append.mp member with old | new
        · exact Nat.lt_succ_of_lt (log.fresh entry old)
        · rw [List.mem_singleton.mp new]
          cases change <;> exact Nat.lt_succ_self _
      · rw [logged,← List.append_assoc,List.map_append]
        refine List.nodup_append.mpr ⟨log.distinct,by simp,fun one first two second same => ?_⟩
        obtain ⟨entry,member,rfl⟩ := List.mem_map.mp first
        have below := log.fresh entry member
        have last : two = state.sequence := by
          rw [List.mem_singleton.mp second]
          cases change <;> rfl
        omega
      · rw [logged]
        refine List.pairwise_append.mpr ⟨log.sequenced,by simp,fun one first two second => ?_⟩
        have below := log.fresh one (List.mem_append_right _ first)
        rw [List.mem_singleton.mp second]
        cases change <;> exact below
      · rw [logged]
        show (state.rest ++ (state.logged ++ [captured state.sequence change])).Pairwise _
        rw [← List.append_assoc]
        refine List.pairwise_append.mpr ⟨log.ordered,by simp,fun one first two second _ => ?_⟩
        have below : one.id < state.sequence := by
          rcases List.mem_append.mp first with old | new
          · exact log.fresh one (List.mem_append_left _ (rest_changelog log old))
          · exact log.fresh one (List.mem_append_right _ new)
        rw [List.mem_singleton.mp second]
        cases change <;> exact below
    · have copy := sound.copy alive
      exact ⟨copy.ghosted,copy.ahead,copy.close⟩
    · have held := sound.held alive
      refine ⟨fun wrong => ?_,held.quiet,held.counted⟩
      rcases wrong with (wrong : state.phase.locked = true) | (wrong : state.phase = .swapped)
      · rw [wrong] at open_table
        cases open_table
      · rw [wrong] at running
        cases running
  · next traced =>
    have still : live state.phase = false := by
      cases phase : live state.phase with
      | false => rfl
      | true => exact absurd (live_traced phase) traced
    refine ⟨sound.keyed,locks _,fun quiet write member => ?_,fun alive => ?_,fun alive => ?_,fun alive => ?_⟩
    · rcases List.mem_append.mp member with old | new
      · exact sound.untraced quiet write old
      · rw [List.mem_singleton.mp new]
    all_goals cases still.symm.trans alive

omit [DecidableEq τ] [LinearOrder ι] in
theorem rest_committed (log : Log state) (own : List (Entry ι α)) (inside : ∀ entry ∈ own, entry ∈ state.logged)
    (original : List (Row ι α)) (writes : List (Write τ ι α)) :
    State.rest { state with original := original, changelog := state.changelog ++ own, writes := writes } = state.rest ++ own := by
  unfold State.rest
  cases phase : state.phase with
  | replaying pass changes todo =>
    have kept : own.filter (fun entry => entry.id ∉ changes.map Entry.id) = own := by
      refine List.filter_eq_self.mpr fun entry member => decide_eq_true fun wrong => ?_
      obtain ⟨read,there,same⟩ := List.mem_map.mp wrong
      have distinct := log.distinct
      rw [List.map_append] at distinct
      exact (List.nodup_append.mp distinct).2.2 read.id (List.mem_map_of_mem ((log.inside pass changes todo phase).1 read there)) entry.id
        (List.mem_map_of_mem (inside entry member)) same
    simp only [List.filter_append,kept,List.append_assoc]
  | _ => rfl

def others (state : State τ ι α) (writer : τ) : List (Write τ ι α) := state.writes.filter fun write => write.writer ≠ writer

def committed (state : State τ ι α) (writer : τ) : State τ ι α := { state with
  original := state.view writer
  changelog := state.changelog ++ (state.own writer).filterMap Write.entry
  writes := others state writer }

omit [LinearOrder ι] in
theorem mem_own {write : Write τ ι α} : write ∈ state.own writer ↔ write ∈ state.writes ∧ write.writer = writer := by
  simp [State.own]

omit [LinearOrder ι] in
theorem mem_others {write : Write τ ι α} : write ∈ others state writer ↔ write ∈ state.writes ∧ write.writer ≠ writer := by
  simp [others]

omit [LinearOrder ι] in
theorem own_logged (member : entry ∈ (state.own writer).filterMap Write.entry) : entry ∈ state.logged := by
  obtain ⟨write,there,equal⟩ := List.mem_filterMap.mp member
  exact mem_logged.mpr ⟨write,(mem_own.mp there).1,equal⟩

omit [LinearOrder ι] in
theorem own_others : ((state.own writer).filterMap Write.entry ++ (others state writer).filterMap Write.entry).Perm state.logged := by
  rw [← List.filterMap_append]
  refine List.Perm.filterMap _ ?_
  have perm := List.filter_append_perm (fun write : Write τ ι α => decide (write.writer = writer)) state.writes
  simpa [State.own,others] using perm

-- A commit takes away the id of a row that the copy has come to, or that an entry is about.
def Moving (moved : Prop) (state : State τ ι α) (writer : τ) : Prop :=
  ∀ write ∈ state.own writer, ∀ id, write.change.leaves id →
    (reached id state.phase ∨ ∃ entry ∈ state.changelog ++ (state.own writer).filterMap Write.entry, entry.row_id = id) → moved

theorem commit_log (sound : Sound moved hidden state) (alive : live state.phase = true) : Log (committed state writer) := by
  have log := sound.log alive
  have rest : (committed state writer).rest = state.rest ++ (state.own writer).filterMap Write.entry :=
    rest_committed log _ (fun entry member => own_logged member) _ _
  have logged : (committed state writer).logged = (others state writer).filterMap Write.entry := rfl
  have changelog : (committed state writer).changelog = state.changelog ++ (state.own writer).filterMap Write.entry := rfl
  have perm : ((state.own writer).filterMap Write.entry ++ (others state writer).filterMap Write.entry).Perm state.logged := own_others
  refine ⟨fun write member => log.logs write (mem_others.mp member).1,fun entry member => ?_,?_,?_,?_,?_,fun pass changes todo phase => ?_⟩
  · rcases List.mem_append.mp member with old | new
    · exact log.shaped entry old
    · obtain ⟨write,there,equal⟩ := List.mem_filterMap.mp new
      obtain ⟨number,shape⟩ := log.logs write (mem_own.mp there).1
      refine ⟨write.change,?_⟩
      cases Option.some.inj (equal.symm.trans shape)
      rw [captured_id]
  · rw [changelog,logged,List.append_assoc]
    exact fun entry member => log.fresh entry ((perm.append_left _).mem_iff.mp member)
  · rw [changelog,logged,List.append_assoc]
    exact ((perm.append_left _).map _).nodup_iff.mpr log.distinct
  · exact log.sequenced.sublist (List.filter_sublist.filterMap _)
  · rw [rest,logged,List.append_assoc]
    obtain ⟨early,late,between⟩ := List.pairwise_append.mp log.ordered
    refine List.pairwise_append.mpr ⟨early,List.pairwise_append.mpr ⟨?_,?_,fun one first two second same => ?_⟩,fun one first two second => ?_⟩
    · exact late.sublist (List.filter_sublist.filterMap _)
    · exact late.sublist (List.filter_sublist.filterMap _)
    · obtain ⟨write,there,equal⟩ := List.mem_filterMap.mp first
      obtain ⟨other,behind,also⟩ := List.mem_filterMap.mp second
      obtain ⟨mine,own⟩ := mem_own.mp there
      obtain ⟨theirs,apart⟩ := mem_others.mp behind
      have touch : one.row_id ∈ write.change.touched := logged_touched (log.logs write mine) equal
      have touched : two.row_id ∈ other.change.touched := logged_touched (log.logs other theirs) also
      exact absurd (same ▸ touched) (sound.apart write mine other theirs (fun wrong => apart (wrong ▸ own)) _ touch)
    · exact between one first two (perm.mem_iff.mp second)
  · obtain ⟨inside,later⟩ := log.inside pass changes todo phase
    exact ⟨fun entry member => List.mem_append_left _ (inside entry member),later⟩

theorem commit_close (log : Log state) (stays : Moving moved state writer) (close : Close moved hidden state id) :
    Close moved hidden (committed state writer) id := by
  have rest : (committed state writer).rest = state.rest ++ (state.own writer).filterMap Write.entry :=
    rest_committed log _ (fun entry member => own_logged member) _ _
  have logs : ∀ write ∈ state.own writer, Logged write := fun write member => log.logs write (mem_own.mp member).1
  unfold Close
  rw [rest,latest_append]
  by_cases watched : reached id state.phase ∨ ∃ entry ∈ state.rest ++ (state.own writer).filterMap Write.entry, entry.row_id = id
  · have stay : ∀ write ∈ state.own writer, write.change.leaves id → moved := by
      refine fun write member leaves => stays write member id leaves (watched.imp_right fun ⟨entry,listed,named⟩ => ⟨entry,?_,named⟩)
      rcases List.mem_append.mp listed with old | new
      · exact List.mem_append_left _ (rest_changelog log old)
      · exact List.mem_append_right _ new
    by_cases written : ∃ entry ∈ (state.own writer).filterMap Write.entry, entry.row_id = id
    · exact .inl (near_written logs stay written)
    · have absent : ∀ entry ∈ (state.own writer).filterMap Write.entry, entry.row_id ≠ id := fun entry member same => written ⟨entry,member,same⟩
      rcases close with near | ⟨hides,none_left⟩ | ⟨ahead,unlogged⟩
      · exact .inl (near_applied logs stay near)
      · refine .inr (.inl ⟨hides,?_⟩)
        show latest id (latest id (find state.ghost id) state.rest) _ = none
        rw [latest_absent absent]
        exact none_left
      · refine .inr (.inr ⟨ahead,fun entry member => ?_⟩)
        rcases List.mem_append.mp member with old | new
        · exact unlogged entry old
        · exact absent entry new
  · exact .inr (.inr ⟨fun reach => watched (.inl reach),fun entry member named => watched (.inr ⟨entry,member,named⟩)⟩)

theorem commit_held (held : Held state) (running : state.phase.ended = false) : Held (committed state writer) := by
  have idle (still : state.writes = []) : state.view writer = state.original ∧ (state.own writer).filterMap Write.entry = [] := by
    simp [State.view,State.own,still,applied]
  have locked (there : state.phase.locked = true) : state.writes = [] := (held.still (.inl there)).1
  refine ⟨fun there => ?_,?_,fun wrong => ?_⟩
  · obtain ⟨still,same⟩ := held.still there
    refine ⟨?_,same.trans (idle still).1.symm⟩
    show others state writer = []
    simp [others,still]
  · have quiet := held.quiet
    unfold Quiet at quiet ⊢
    show match state.phase with
      | .replaying .third changes _ => ∀ entry ∈ state.changelog ++ (state.own writer).filterMap Write.entry, entry.id ∈ changes.map Entry.id
      | .checking | .swapped => state.changelog ++ (state.own writer).filterMap Write.entry = []
      | _ => True
    cases phase : state.phase with
    | replaying pass changes todo =>
      cases pass with
      | third =>
        rw [phase] at quiet
        rw [(idle (locked (by rw [phase]; rfl))).2,List.append_nil]
        exact quiet
      | _ => trivial
    | checking =>
      rw [phase] at quiet
      rw [(idle (locked (by rw [phase]; rfl))).2,List.append_nil]
      exact quiet
    | swapped =>
      rw [phase] at running
      cases running
    | _ => trivial
  · rw [show state.phase = .swapped from wrong] at running
    cases running

theorem commit_sound (sound : Sound moved hidden state) (running : state.phase.ended = false)
    (stays : state.phase.traced = true → Moving moved state writer) : Sound moved hidden (committed state writer) := by
  refine ⟨keyed_applied sound.keyed,fun one first two second => sound.apart one (mem_others.mp first).1 two (mem_others.mp second).1,
    fun quiet write member => sound.untraced quiet write (mem_others.mp member).1,commit_log sound,fun alive => ?_,
    fun alive => commit_held (sound.held alive) running⟩
  have copy := sound.copy alive
  exact ⟨copy.ghosted,copy.ahead,fun id => commit_close (sound.log alive) (stays (live_traced alive)) (copy.close id)⟩

omit [DecidableEq τ] in
theorem stopped_sound (sound : Sound moved hidden state) (phase : Phase ι α) (ended : live phase = false) (traced : phase.traced = true)
    (ghost copied : List (Row ι α)) : Sound moved hidden { state with ghost := ghost, copied := copied, phase := phase } := by
  refine ⟨sound.keyed,sound.apart,fun wrong => ?_,fun wrong => ?_,fun wrong => ?_,fun wrong => ?_⟩
  · cases traced.symm.trans wrong
  all_goals cases ended.symm.trans wrong

omit [DecidableEq τ] in
theorem rollback_sound (sound : Sound moved hidden state) (kept : writes.Sublist state.writes) :
    Sound moved hidden { state with writes := writes } := by
  have fewer : (writes.filterMap Write.entry).Sublist state.logged := kept.filterMap _
  refine ⟨sound.keyed,fun one first two second => sound.apart one (kept.subset first) two (kept.subset second),
    fun quiet write member => sound.untraced quiet write (kept.subset member),fun alive => ?_,fun alive => ?_,fun alive => ?_⟩
  · have log := sound.log alive
    refine ⟨fun write member => log.logs write (kept.subset member),log.shaped,fun entry member => ?_,?_,log.sequenced.sublist fewer,?_,log.inside⟩
    · exact log.fresh entry (((List.Sublist.refl _).append fewer).subset member)
    · exact log.distinct.sublist (((List.Sublist.refl _).append fewer).map _)
    · exact log.ordered.sublist ((List.Sublist.refl _).append fewer)
  · have copy := sound.copy alive
    exact ⟨copy.ghosted,copy.ahead,copy.close⟩
  · have held := sound.held alive
    refine ⟨fun there => ?_,held.quiet,held.counted⟩
    obtain ⟨still,same⟩ := held.still there
    exact ⟨List.sublist_nil.mp (still ▸ kept),same⟩

omit [DecidableEq τ] in
theorem create_sound (sound : Sound moved hidden state) (quiet : state.writes = []) :
    Sound moved hidden { state with changelog := [], ghost := [], copied := [], phase := .counting } := by
  have logged : state.logged = [] := by simp [State.logged,quiet]
  refine ⟨sound.keyed,sound.apart,nofun,fun _ => ?_,fun _ => ?_,fun _ => ?_⟩
  · refine ⟨fun write member => ?_,nofun,?_,?_,?_,?_,nofun⟩
    · rw [show state.writes = [] from quiet] at member
      cases member
    all_goals simp [State.logged,State.rest,quiet]
  · exact ⟨List.nodup_nil,fun _ _ => rfl,fun id => .inr (.inr ⟨nofun,nofun⟩)⟩
  · exact ⟨nofun,trivial,nofun⟩

def plain : Phase ι α → Bool
  | .replaying _ _ _ => false
  | _ => true

omit [DecidableEq τ] [LinearOrder ι] in
theorem rest_plain (quiet : plain state.phase = true) : state.rest = state.changelog := by
  unfold State.rest
  split
  · next phase =>
    rw [phase] at quiet
    cases quiet
  · rfl

omit [DecidableEq τ] [LinearOrder ι] in
theorem log_plain (log : Log state) (before : plain state.phase = true) {phase : Phase ι α} (after : plain phase = true)
    (ghost copied held : List (Row ι α)) : Log { state with ghost := ghost, copied := copied, held := held, phase := phase } := by
  have ordered := log.ordered
  rw [rest_plain before] at ordered
  refine ⟨log.logs,log.shaped,log.fresh,log.distinct,log.sequenced,?_,fun pass changes todo wrong => ?_⟩
  · rw [rest_plain after]
    exact ordered
  · rw [show phase = _ from wrong] at after
    cases after

theorem latest_written {entries : List (Entry ι α)} (written : ∃ entry ∈ entries, entry.row_id = id) (first second : Option α) :
    latest id first entries = latest id second entries := by
  induction entries generalizing first second with
  | nil =>
    obtain ⟨entry,member,_⟩ := written
    cases member
  | cons entry later ih =>
    show latest id (settle id first entry) later = latest id (settle id second entry) later
    by_cases own : entry.row_id = id
    · rw [settle_own own,settle_own own]
    · obtain ⟨other,member,named⟩ := written
      rcases List.mem_cons.mp member with rfl | behind
      · exact absurd named own
      · exact ih ⟨other,behind,named⟩ _ _

-- The count or a batch passes over a row that it was to read and that no entry is about.
def Blind (state : State τ ι α) (reads : Row ι α → Bool) : Prop :=
  ∃ row ∈ state.original, ¬ reached row.id state.phase ∧ (∀ entry ∈ state.changelog, entry.row_id ≠ row.id) ∧ reads row = false

omit [DecidableEq τ] in
theorem count_sound (sound : Sound moved hidden state) (phase : state.phase = .counting)
    (sees : Blind state reads → hidden) :
    Sound moved hidden { state with phase := if (state.original.filter reads).length = 0 then .reading .first else .copying none } := by
  have alive : live state.phase = true := by rw [phase]; rfl
  have log := sound.log alive
  have copy := sound.copy alive
  have before : plain state.phase = true := by rw [phase]; rfl
  have unreached (id : ι) : ¬ reached id state.phase := by rw [phase]; exact nofun
  split
  · next empty =>
    refine ⟨sound.keyed,sound.apart,nofun,fun _ => log_plain log before rfl _ _ _,fun _ => ⟨copy.ghosted,fun id wrong => absurd trivial wrong,
      fun id => ?_⟩,fun _ => ⟨nofun,trivial,nofun⟩⟩
    unfold Close
    rw [rest_plain rfl]
    have close := copy.close id
    unfold Close at close
    rw [rest_plain before] at close
    rcases close with near | lost | ⟨_,unlogged⟩
    · exact .inl near
    · exact .inr (.inl lost)
    · have value : latest id (find state.ghost id) state.changelog = none := by
        rw [latest_absent unlogged]
        exact copy.ahead id (unreached id)
      cases held : find state.original id with
      | none => exact .inl (.inl value.symm)
      | some columns =>
        refine .inr (.inl ⟨sees ⟨_,find_mem held,unreached id,unlogged,?_⟩,value⟩)
        have unread := List.filter_eq_nil_iff.mp (List.length_eq_zero_iff.mp empty) _ (find_mem held)
        simpa using unread
  · refine ⟨sound.keyed,sound.apart,nofun,fun _ => log_plain log before rfl _ _ _,fun _ => ⟨copy.ghosted,fun id _ => copy.ahead id (unreached id),
      fun id => ?_⟩,fun _ => ⟨nofun,trivial,nofun⟩⟩
    have close := copy.close id
    unfold Close at close ⊢
    rw [rest_plain before] at close
    rw [rest_plain rfl]
    exact close.imp_right fun later => later.imp_right fun ⟨_,unlogged⟩ => ⟨nofun,unlogged⟩

theorem mem_batch {original : List (Row ι α)} (member : row ∈ batch size reads lastId original) :
    row ∈ original ∧ reads row = true ∧ ∀ last, lastId = some last → last < row.id := by
  obtain ⟨listed,kept⟩ := List.mem_filter.mp (mem_page Row.id member)
  rw [Bool.and_eq_true] at kept
  refine ⟨listed,kept.1,fun last equal => ?_⟩
  rw [equal] at kept
  exact of_decide_eq_true kept.2

theorem batch_left {original : List (Row ι α)} (listed : row ∈ original) (read : reads row = true)
    (beyond : ∀ last, lastId = some last → last < row.id) (absent : row ∉ batch size reads lastId original) :
    (batch size reads lastId original).length = size ∧ ∀ taken ∈ batch size reads lastId original, taken.id ≤ row.id := by
  refine page_left Row.id (List.mem_filter.mpr ⟨listed,?_⟩) absent
  rw [Bool.and_eq_true]
  refine ⟨read,?_⟩
  cases lastId with
  | none => rfl
  | some last => exact decide_eq_true (beyond last rfl)

theorem keyed_batch {original : List (Row ι α)} (keyed : Keyed original) : Keyed (batch size reads lastId original) :=
  keyed_sublist (((inOrder_perm Row.id).map _).nodup_iff.mpr (keyed_sublist keyed List.filter_sublist)) (List.take_sublist _ _)

omit [DecidableEq τ] in
theorem batch_new (copy : Copy moved hidden state) (phase : state.phase = .copying lastId) (member : row ∈ batch size reads lastId state.original) :
    find state.ghost row.id = none := by
  refine copy.ahead row.id fun wrong => ?_
  rw [phase] at wrong
  cases lastId with
  | none => exact wrong
  | some last => exact absurd wrong (not_le_of_gt ((mem_batch member).2.2 last rfl))

def cursor (size : Nat) (rows ghost : List (Row ι α)) : Phase ι α :=
  if rows.length < size then .reading .first else .copying (lastOf Row.id ghost)

theorem cursor_full {ghost : List (Row ι α)} (unreached : ¬ reached id (cursor size rows ghost)) : ¬ rows.length < size := by
  intro short
  rw [cursor,if_pos short] at unreached
  exact unreached trivial

theorem cursor_beyond {ghost : List (Row ι α)} (unreached : ¬ reached id (cursor size rows ghost)) : ∀ row ∈ ghost, row.id < id := by
  have full := cursor_full unreached
  rw [cursor,if_neg full] at unreached
  intro row member
  cases last : lastOf Row.id ghost with
  | none =>
    rw [lastOf_none Row.id last] at member
    cases member
  | some top =>
    rw [last] at unreached
    exact lt_of_le_of_lt ((lastOf_some Row.id last).2 row member) (not_le.mp unreached)

theorem cursor_unreached {ghost : List (Row ι α)} (full : ¬ rows.length < size) (below : ∀ row ∈ ghost, row.id < id) :
    ¬ reached id (cursor size rows ghost) := by
  rw [cursor,if_neg full]
  cases last : lastOf Row.id ghost with
  | none => exact nofun
  | some top =>
    obtain ⟨row,member,rfl⟩ := (lastOf_some Row.id last).1
    exact not_le_of_gt (below row member)

omit [DecidableEq τ] in
theorem copy_sound (sound : Sound moved hidden state) (phase : state.phase = .copying lastId)
    (sees : Blind state reads → hidden) (copied : List (Row ι α)) :
    Sound moved hidden { state with
      ghost := state.ghost ++ batch size reads lastId state.original
      copied := copied
      phase := cursor size (batch size reads lastId state.original) (state.ghost ++ batch size reads lastId state.original) } := by
  have alive : live state.phase = true := by rw [phase]; rfl
  have log := sound.log alive
  have copy := sound.copy alive
  have before : plain state.phase = true := by rw [phase]; rfl
  let rows := batch size reads lastId state.original
  have keyed_rows : Keyed rows := keyed_batch sound.keyed
  have new_rows : ∀ row ∈ rows, find state.ghost row.id = none := fun row member => batch_new copy phase member
  have after : plain (cursor size rows (state.ghost ++ rows)) = true ∧ (cursor size rows (state.ghost ++ rows)).traced = true ∧
      (cursor size rows (state.ghost ++ rows)).locked = false ∧ cursor size rows (state.ghost ++ rows) ≠ .swapped := by
    unfold cursor
    split <;> exact ⟨rfl,rfl,rfl,nofun⟩
  have quiet : Quiet { state with ghost := state.ghost ++ rows, copied := copied, phase := cursor size rows (state.ghost ++ rows) } := by
    unfold cursor
    split <;> trivial
  refine ⟨sound.keyed,sound.apart,fun wrong => ?_,fun _ => log_plain log before after.1 _ _ _,fun _ => ⟨?_,fun id unreached => ?_,fun id => ?_⟩,
    fun _ => ⟨fun wrong => ?_,quiet,fun wrong => absurd wrong after.2.2.2⟩⟩
  · cases after.2.1.symm.trans wrong
  · exact keyed_append copy.ghosted keyed_rows new_rows
  · exact find_none.mpr fun row member => ne_of_lt (cursor_beyond unreached row member)
  · have close := copy.close id
    unfold Close at close ⊢
    rw [rest_plain before] at close
    rw [rest_plain after.1]
    show Near moved (find state.original id) (latest id (find (state.ghost ++ rows) id) state.changelog) ∨
      (hidden ∧ latest id (find (state.ghost ++ rows) id) state.changelog = none) ∨
      (¬ reached id (cursor size rows (state.ghost ++ rows)) ∧ ∀ entry ∈ state.changelog, entry.row_id ≠ id)
    by_cases written : ∃ entry ∈ state.changelog, entry.row_id = id
    · rw [latest_written written (find (state.ghost ++ rows) id) (find state.ghost id)]
      refine close.imp_right fun later => later.imp_right fun ⟨_,unlogged⟩ => ?_
      obtain ⟨entry,member,named⟩ := written
      exact absurd named (unlogged entry member)
    · have unlogged : ∀ entry ∈ state.changelog, entry.row_id ≠ id := fun entry member same => written ⟨entry,member,same⟩
      rw [latest_absent unlogged] at close ⊢
      rw [find_append]
      cases new : find rows id with
      | some columns =>
        have member : (⟨id,columns⟩ : Row ι α) ∈ rows := find_mem new
        rw [show find state.ghost id = none from new_rows _ member]
        exact .inl (.inl ((mem_find sound.keyed).mp (mem_batch member).1))
      | none =>
        rw [Option.or_none]
        have absent : ∀ row ∈ rows, row.id ≠ id := find_none.mp new
        rcases close with near | lost | ⟨unreached,_⟩
        · exact .inl near
        · exact .inr (.inl lost)
        · cases held : find state.original id with
          | none => exact .inl (.inl (copy.ahead id unreached).symm)
          | some columns =>
            cases read : reads ⟨id,columns⟩ with
            | false => exact .inr (.inl ⟨sees ⟨_,find_mem held,unreached,unlogged,read⟩,copy.ahead id unreached⟩)
            | true =>
            refine .inr (.inr ⟨?_,unlogged⟩)
            have beyond : ∀ last, lastId = some last → last < id := by
              rintro last rfl
              rw [phase] at unreached
              exact not_le.mp unreached
            have listed : (⟨id,columns⟩ : Row ι α) ∈ state.original := find_mem held
            have left_out : (⟨id,columns⟩ : Row ι α) ∉ rows := fun wrong => absent _ wrong rfl
            obtain ⟨full,below⟩ := batch_left listed read beyond left_out
            refine cursor_unreached (not_lt_of_ge full.ge) fun row member => ?_
            rcases List.mem_append.mp member with old | taken
            · by_contra reach
              have there : find state.ghost row.id ≠ none := fun wrong => find_none.mp wrong row old rfl
              refine there (copy.ahead row.id fun wrong => ?_)
              rw [phase] at wrong unreached
              cases lastId with
              | none => exact wrong
              | some last => exact unreached (le_trans (not_lt.mp reach) wrong)
            · exact lt_of_le_of_ne (below row taken) (absent row taken)
  · rcases wrong with wrong | wrong
    · cases after.2.2.1.symm.trans wrong
    · exact absurd wrong after.2.2.2

omit [DecidableEq τ] in
theorem read_sound {pass : Pass} (sound : Sound moved hidden state) (phase : state.phase = .reading pass) :
    Sound moved hidden { state with phase := .replaying pass (inOrder Entry.id state.changelog) (inOrder Entry.id state.changelog) } := by
  have alive : live state.phase = true := by rw [phase]; rfl
  have log := sound.log alive
  have copy := sound.copy alive
  have held := sound.held alive
  have before : state.rest = state.changelog := rest_plain (by rw [phase]; rfl)
  have distinct : (state.changelog.map Entry.id).Nodup := by
    have both := log.distinct
    rw [List.map_append] at both
    exact (List.nodup_append.mp both).1
  have rest : State.rest { state with phase := .replaying pass (inOrder Entry.id state.changelog) (inOrder Entry.id state.changelog) } =
      inOrder Entry.id state.changelog := by
    have none_left : state.changelog.filter (fun entry => entry.id ∉ (inOrder Entry.id state.changelog).map Entry.id) = [] := by
      refine List.filter_eq_nil_iff.mpr fun entry member => ?_
      simpa using ⟨entry,(mem_inOrder Entry.id).mpr member,rfl⟩
    show inOrder Entry.id state.changelog ++ _ = _
    rw [none_left,List.append_nil]
  obtain ⟨early,late,between⟩ := List.pairwise_append.mp log.ordered
  rw [before] at early between
  refine ⟨sound.keyed,sound.apart,nofun,fun _ => ⟨log.logs,log.shaped,log.fresh,log.distinct,log.sequenced,?_,?_⟩,
    fun _ => ⟨copy.ghosted,fun id wrong => absurd trivial wrong,fun id => ?_⟩,fun _ => ⟨fun wrong => ?_,?_,nofun⟩⟩
  · rw [rest]
    refine List.pairwise_append.mpr ⟨?_,late,fun one first two second => between one ((mem_inOrder Entry.id).mp first) two second⟩
    exact (inOrder_strict Entry.id distinct).imp fun {one two} first (_ : one.row_id = two.row_id) => first
  · rintro _ _ _ equal
    cases equal
    exact ⟨fun entry member => (mem_inOrder Entry.id).mp member,List.suffix_refl _,inOrder_strict Entry.id distinct⟩
  · have close := copy.close id
    unfold Close at close ⊢
    rw [rest]
    rw [before] at close
    rw [latest_inOrder early distinct]
    refine close.imp_right fun later => later.imp_right fun ⟨unreached,_⟩ => ?_
    rw [phase] at unreached
    exact absurd trivial unreached
  · refine held.still (wrong.imp (fun locked => ?_) nofun)
    rw [phase]
    cases pass <;> first | rfl | cases locked
  · cases pass with
    | third => exact fun entry member => List.mem_map_of_mem ((mem_inOrder Entry.id).mpr member)
    | _ => trivial

omit [DecidableEq τ] in
theorem replay_sound {pass : Pass} (sound : Sound moved hidden state) (phase : state.phase = .replaying pass changes (entry::todo)) :
    Sound moved hidden { state with ghost := entry.replay state.ghost, phase := .replaying pass changes todo } := by
  have alive : live state.phase = true := by rw [phase]; rfl
  have log := sound.log alive
  have copy := sound.copy alive
  have held := sound.held alive
  obtain ⟨inside,suffix,sorted⟩ := log.inside pass changes (entry::todo) phase
  have rest : state.rest =
      entry::State.rest { state with ghost := entry.replay state.ghost, phase := .replaying pass changes todo } := by
    unfold State.rest
    rw [phase]
    rfl
  refine ⟨sound.keyed,sound.apart,nofun,fun _ => ⟨log.logs,log.shaped,log.fresh,log.distinct,log.sequenced,?_,?_⟩,
    fun _ => ⟨keyed_replay copy.ghosted,fun id wrong => absurd trivial wrong,fun id => ?_⟩,fun _ => ⟨fun wrong => ?_,?_,nofun⟩⟩
  · have ordered := log.ordered
    rw [rest] at ordered
    exact (List.pairwise_cons.mp ordered).2
  · rintro _ _ _ equal
    cases equal
    exact ⟨inside,(List.suffix_cons entry todo).trans suffix,(List.pairwise_cons.mp sorted).2⟩
  · have close := copy.close id
    unfold Close at close ⊢
    have shaped : Captured entry := log.shaped entry (inside entry (suffix.subset (List.mem_cons_self ..)))
    have same : latest id (find state.ghost id) state.rest = latest id (find (entry.replay state.ghost) id)
        (State.rest { state with ghost := entry.replay state.ghost, phase := .replaying pass changes todo }) := by
      rw [rest,find_replay shaped]
      rfl
    rw [same] at close
    refine close.imp_right fun later => later.imp_right fun ⟨unreached,_⟩ => ?_
    rw [phase] at unreached
    exact absurd trivial unreached
  · refine held.still (wrong.imp (fun locked => ?_) nofun)
    rw [phase]
    cases pass <;> first | rfl | cases locked
  · have quiet := held.quiet
    unfold Quiet at quiet ⊢
    rw [phase] at quiet
    cases pass with
    | third => exact quiet
    | _ => trivial

omit [DecidableEq τ] in
theorem clear_sound {pass : Pass} (sound : Sound moved hidden state) (phase : state.phase = .replaying pass changes []) :
    Sound moved hidden { state with
      changelog := state.changelog.filter (fun entry => entry.id ∉ changes.map Entry.id), phase := pass.next } := by
  have alive : live state.phase = true := by rw [phase]; rfl
  have log := sound.log alive
  have copy := sound.copy alive
  have held := sound.held alive
  have after : plain (pass.next : Phase ι α) = true ∧ (pass.next : Phase ι α).traced = true ∧ (pass.next : Phase ι α) ≠ .swapped ∧
      ∀ id : ι, reached id (pass.next : Phase ι α) := by
    cases pass <;> exact ⟨rfl,rfl,nofun,fun _ => trivial⟩
  have fewer : (state.changelog.filter fun entry => entry.id ∉ changes.map Entry.id).Sublist state.changelog := List.filter_sublist
  have rest : state.rest = state.changelog.filter fun entry => entry.id ∉ changes.map Entry.id := by
    unfold State.rest
    rw [phase]
    rfl
  refine ⟨sound.keyed,sound.apart,fun wrong => ?_,fun _ => ⟨log.logs,fun entry member => log.shaped entry (fewer.subset member),?_,?_,
    log.sequenced,?_,fun _ _ _ wrong => ?_⟩,fun _ => ⟨copy.ghosted,fun id wrong => absurd (after.2.2.2 id) wrong,fun id => ?_⟩,
    fun _ => ⟨fun wrong => ?_,?_,fun wrong => absurd wrong after.2.2.1⟩⟩
  · cases after.2.1.symm.trans wrong
  · exact fun entry member => log.fresh entry ((fewer.append (List.Sublist.refl _)).subset member)
  · exact log.distinct.sublist ((fewer.append (List.Sublist.refl _)).map _)
  · have ordered := log.ordered
    rw [rest] at ordered
    rw [rest_plain after.1]
    exact ordered
  · rw [show pass.next = _ from wrong] at after
    cases after.1
  · have close := copy.close id
    unfold Close at close ⊢
    rw [rest] at close
    rw [rest_plain after.1]
    refine close.imp_right fun later => later.imp_right fun ⟨unreached,_⟩ => ?_
    rw [phase] at unreached
    exact absurd trivial unreached
  · refine held.still (.inl ?_)
    rw [phase]
    cases pass with
    | third => rfl
    | _ => rcases wrong with wrong | wrong <;> cases wrong
  · have quiet := held.quiet
    unfold Quiet at quiet
    rw [phase] at quiet
    cases pass with
    | third => exact List.filter_eq_nil_iff.mpr fun entry member => by simpa using quiet entry member
    | _ => trivial

omit [DecidableEq τ] in
theorem lock_sound (sound : Sound moved hidden state) (phase : state.phase = .waiting) (quiet : state.writes = []) :
    Sound moved hidden { state with held := state.original, phase := .reading .third } := by
  have alive : live state.phase = true := by rw [phase]; rfl
  have copy := sound.copy alive
  have before : plain state.phase = true := by rw [phase]; rfl
  refine ⟨sound.keyed,sound.apart,nofun,fun _ => log_plain (sound.log alive) before rfl _ _ _,fun _ => ⟨copy.ghosted,fun id wrong => absurd trivial wrong,
    fun id => ?_⟩,fun _ => ⟨fun _ => ⟨quiet,rfl⟩,trivial,nofun⟩⟩
  have close := copy.close id
  unfold Close at close ⊢
  rw [rest_plain before] at close
  rw [rest_plain rfl]
  refine close.imp_right fun later => later.imp_right fun ⟨unreached,_⟩ => ?_
  rw [phase] at unreached
  exact absurd trivial unreached

omit [DecidableEq τ] in
theorem swap_sound (sound : Sound moved hidden state) (phase : state.phase = .checking) (counted : state.original.length = state.ghost.length) :
    Sound moved hidden { state with phase := .swapped } := by
  have alive : live state.phase = true := by rw [phase]; rfl
  have copy := sound.copy alive
  have held := sound.held alive
  have before : plain state.phase = true := by rw [phase]; rfl
  have quiet := held.quiet
  unfold Quiet at quiet
  rw [phase] at quiet
  refine ⟨sound.keyed,sound.apart,nofun,fun _ => log_plain (sound.log alive) before rfl _ _ _,fun _ => ⟨copy.ghosted,fun id wrong => absurd trivial wrong,
    fun id => ?_⟩,fun _ => ⟨fun _ => held.still (.inl (by rw [phase]; rfl)),quiet,fun _ => counted⟩⟩
  have close := copy.close id
  unfold Close at close ⊢
  rw [rest_plain before] at close
  rw [rest_plain rfl]
  refine close.imp_right fun later => later.imp_right fun ⟨unreached,_⟩ => ?_
  rw [phase] at unreached
  exact absurd trivial unreached

-- The condition: no commit is Moving, or no count and no batch is Blind.
def stays (state : State τ ι α) : Action τ ι α → Prop
  | .commit writer => state.phase.traced = true → Moving False state writer
  | _ => True

def sees (state : State τ ι α) : Action τ ι α → Prop
  | .count reads | .copyBatch reads => ¬ Blind state reads
  | _ => True

def allowed (moved hidden : Prop) (state : State τ ι α) : Action τ ι α → Prop
  | .commit writer => state.phase.traced = true → Moving moved state writer
  | .count reads | .copyBatch reads => Blind state reads → hidden
  | _ => True

theorem step_sound (size : Nat) : Preserved (step keys size) (allowed moved hidden) (Sound moved hidden : State τ ι α → Prop) := by
  intro state action after sound permitted moves
  cases action with
  | write writer change =>
    simp only [step] at moves
    split at moves
    · next allowed =>
      simp only [Bool.and_eq_true,Bool.not_eq_true',List.all_eq_true,Bool.or_eq_true,decide_eq_true_eq] at allowed
      obtain ⟨⟨⟨running,open_table⟩,_⟩,free⟩ := allowed
      have kept := write_sound sound running open_table free
      split at moves
      · next traced =>
        rw [if_pos traced] at kept
        cases Option.some.inj moves
        exact kept
      · next untraced =>
        rw [if_neg untraced] at kept
        cases Option.some.inj moves
        exact kept
    · cases moves
  | commit writer =>
    simp only [step] at moves
    split at moves
    · cases moves
    · next running =>
      cases Option.some.inj moves
      exact commit_sound sound (by simpa using running) permitted
  | rollback writer mark =>
    simp only [step] at moves
    split at moves
    · cases moves
    · cases Option.some.inj moves
      refine rollback_sound sound ?_
      exact ((List.Sublist.refl _).append List.filter_sublist).trans (by rw [List.take_append_drop])
  | createGhost =>
    simp only [step] at moves
    split at moves
    · next quiet =>
      cases Option.some.inj moves
      exact create_sound sound quiet
    · cases moves
  | count reads =>
    simp only [step] at moves
    split at moves
    · next phase =>
      cases Option.some.inj moves
      exact count_sound sound phase permitted
    · cases moves
  | copyBatch reads =>
    simp only [step] at moves
    split at moves
    · next lastId phase =>
      have copy := sound.copy (by rw [phase]; rfl)
      have returned : (batch size reads lastId state.original).filter (fun row => (find state.ghost row.id).isNone) =
          batch size reads lastId state.original :=
        List.filter_eq_self.mpr fun row member => by rw [batch_new copy phase member]; rfl
      rw [returned] at moves
      split at moves
      · cases Option.some.inj moves
        exact stopped_sound sound .violated rfl rfl _ _
      · cases Option.some.inj moves
        exact copy_sound sound phase permitted _
    · cases moves
  | readChanges =>
    simp only [step] at moves
    split at moves
    · next pass phase =>
      cases Option.some.inj moves
      exact read_sound sound phase
    · cases moves
  | replay =>
    simp only [step] at moves
    split at moves
    · next pass changes entry todo phase =>
      split at moves
      · cases Option.some.inj moves
        exact stopped_sound sound .violated rfl rfl _ _
      · cases Option.some.inj moves
        exact replay_sound sound phase
    · cases moves
  | clear =>
    simp only [step] at moves
    split at moves
    · next pass changes phase =>
      cases Option.some.inj moves
      exact clear_sound sound phase
    · cases moves
  | lock =>
    simp only [step] at moves
    split at moves
    · next phase quiet =>
      cases Option.some.inj moves
      exact lock_sound sound phase quiet
    · cases moves
  | swap =>
    simp only [step] at moves
    split at moves
    · next phase =>
      cases Option.some.inj moves
      split
      · next counted => exact swap_sound sound phase counted
      · exact stopped_sound sound .stopped rfl rfl _ _
    · cases moves
  | stop =>
    simp only [step] at moves
    split at moves
    · cases moves
    · cases Option.some.inj moves
      exact stopped_sound sound .stopped rfl rfl _ _

omit [DecidableEq τ] in
theorem begun_sound (keyed : Keyed rows) : Sound moved hidden (begun rows : State τ ι α) :=
  ⟨keyed,nofun,nofun,nofun,nofun,nofun⟩

omit [DecidableEq τ] in
theorem swapped_covers (sound : Sound moved hidden state) (swapped : state.phase = .swapped) (id : ι) :
    Near moved (find state.original id) (find state.ghost id) ∨ (hidden ∧ find state.ghost id = none) := by
  have alive : live state.phase = true := by rw [swapped]; rfl
  have quiet := (sound.held alive).quiet
  unfold Quiet at quiet
  rw [swapped] at quiet
  have close := (sound.copy alive).close id
  unfold Close at close
  rw [rest_plain (by rw [swapped]; rfl),quiet] at close
  rcases close with near | lost | ⟨unreached,_⟩
  · exact .inl near
  · exact .inr lost
  · rw [swapped] at unreached
    exact absurd trivial unreached

-- Any writers, any order of their writes, commits and rollbacks with the statements of the run.
theorem swap_exact {actions : List (Action τ ι α)} (keyed : Keyed rows)
    (condition : Guarded (step keys size) stays (begun rows) actions ∨ Guarded (step keys size) sees (begun rows) actions)
    (path : run (step keys size) (begun rows) actions = some state) (swapped : state.phase = .swapped) : state.ghost.Perm state.held := by
  have exact_rows {moved hidden : Prop} (sound : Sound moved hidden state)
      (covered : (∀ id columns, find state.ghost id = some columns → find state.original id = some columns) ∨
        ∀ id columns, find state.original id = some columns → find state.ghost id = some columns) : state.ghost.Perm state.held := by
    have alive : live state.phase = true := by rw [swapped]; rfl
    have held := sound.held alive
    have ghosted := (sound.copy alive).ghosted
    rw [(held.still (.inr swapped)).2]
    rcases covered with inside | outside
    · exact perm_covered ghosted sound.keyed inside (held.counted swapped).symm
    · exact (perm_covered sound.keyed ghosted outside (held.counted swapped)).symm
  rcases condition with unmoved | seen
  · have weaker : ∀ (state : State τ ι α) action, stays state action → allowed False True state action := by
      intro state action stay
      cases action with
      | commit writer => exact stay
      | count reads => exact fun _ => trivial
      | copyBatch reads => exact fun _ => trivial
      | _ => trivial
    have sound := run_preserves (step_sound size) (begun_sound keyed) (guarded_imp weaker unmoved) path
    refine exact_rows sound (.inl fun id columns found => ?_)
    rcases swapped_covers sound swapped id with (same | ⟨wrong,_⟩) | ⟨_,lost⟩
    · exact same.trans found
    · exact wrong.elim
    · cases found.symm.trans lost
  · have weaker : ∀ (state : State τ ι α) action, sees state action → allowed True False state action := by
      intro state action see
      cases action with
      | commit writer => exact fun _ _ _ _ _ _ => trivial
      | count reads => exact see
      | copyBatch reads => exact see
      | _ => trivial
    have sound := run_preserves (step_sound size) (begun_sound keyed) (guarded_imp weaker seen) path
    refine exact_rows sound (.inr fun id columns found => ?_)
    rcases swapped_covers sound swapped id with (same | ⟨_,gone⟩) | ⟨wrong,_⟩
    · exact same.symm.trans found
    · cases found.symm.trans gone
    · exact wrong.elim

end

-- Two rows, the second of a tenant that names no zv_tenants row; a writer gives the first another id behind the copy.
def office : List (Row Nat String) := [⟨1,"Ana"⟩,⟨2,"Bo"⟩]

def renumbering : List (Action Nat Nat String) :=
  let reads : Row Nat String → Bool := fun row => row.id ≠ 2
  [.createGhost,.count reads,.copyBatch reads,.write 7 (.update 1 ⟨3,"Ana"⟩),.commit 7,.readChanges,.replay,.clear,.readChanges,.clear,
    .lock,.readChanges,.clear,.swap]

-- The counts agree, the swap commits: row 1 is stale, row 2 is gone.
theorem renumbered_row_stays : ¬ ∀ (actions : List (Action Nat Nat String)) (state : State Nat Nat String),
    run (step ([] : List (String → Option String)) 10000) (begun office) actions = some state →
      state.phase = .swapped → state.ghost.Perm state.held := by
  intro claim
  have outcome : (run (step ([] : List (String → Option String)) 10000) (begun office) renumbering).map
      (fun state => (state.phase,state.ghost,state.held)) = some (.swapped,[⟨3,"Ana"⟩,⟨1,"Ana"⟩],[⟨3,"Ana"⟩,⟨2,"Bo"⟩]) := by decide +kernel
  obtain ⟨state,path,equal⟩ := Option.map_eq_some_iff.mp outcome
  obtain ⟨swapped,rows⟩ := Prod.mk.inj equal
  obtain ⟨ghost,held⟩ := Prod.mk.inj rows
  have perm := claim renumbering state path swapped
  rw [ghost,held] at perm
  have lost : (⟨2,"Bo"⟩ : Row Nat String) ∉ ([⟨3,"Ana"⟩,⟨1,"Ana"⟩] : List (Row Nat String)) := by decide
  exact lost (perm.mem_iff.mpr (by simp))

-- Every row is read; one writer moves an id, one deletes and inserts it again, one is rolled back, batches of one row.
def migrating : List (Action Nat Nat String) :=
  let reads : Row Nat String → Bool := fun _ => true
  [.createGhost,.count reads,.copyBatch reads,.write 7 (.update 2 ⟨3,"Bo"⟩),.write 8 (.delete 1),.write 8 (.insert ⟨1,"Ann"⟩),.commit 8,
    .write 9 (.delete 1),.rollback 9 0,.commit 7,.copyBatch reads,.copyBatch reads,.readChanges,.replay,.replay,.replay,.write 7 (.delete 3),
    .commit 7,.clear,.readChanges,.replay,.clear,.lock,.readChanges,.clear,.swap]

theorem swap_exact_migrating : ∃ state : State Nat Nat String,
    run (step ([] : List (String → Option String)) 1) (begun office) migrating = some state ∧ state.phase = .swapped ∧
      state.ghost.Perm state.held := by
  have outcome : (run (step ([] : List (String → Option String)) 1) (begun office) migrating).map (fun state => state.phase) =
      some .swapped := by decide +kernel
  obtain ⟨state,path,swapped⟩ := Option.map_eq_some_iff.mp outcome
  have seen : Guarded (step ([] : List (String → Option String)) 1) sees (begun office) migrating := by
    refine guarded_of_each fun action member state => ?_
    cases action with
    | count reads | copyBatch reads =>
      have all : reads = fun _ => true := by simpa [migrating] using member
      rintro ⟨row,_,_,_,unread⟩
      rw [all] at unread
      cases unread
    | _ => trivial
  exact ⟨state,path,swapped,swap_exact (show Keyed office from by unfold Keyed; decide) (.inr seen) path swapped⟩

end Zveltio.GhostSwap
