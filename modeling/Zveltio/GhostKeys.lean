import Zveltio.GhostSwap
namespace Zveltio.GhostKeys
open Runs RowTable GhostRun GhostSwap

-- Where an entry waits: read by the pass under way, committed and unread, or uncommitted.
inductive Stage (τ : Type w) where
  | todo
  | fresh
  | held (writer : τ)

section
variable {τ : Type w} {ι : Type u} {α : Type v} {κ : Type x} [LinearOrder ι] [DecidableEq κ]
  {state : State τ ι α} {keys : List (α → Option κ)} {writer : τ} {change : Change ι α} {id : ι}

-- The first entry may reach the ghost before the second.
def Precedes : Stage τ → Nat → Stage τ → Nat → Prop
  | .todo,one,.todo,two => one < two
  | .todo,_,_,_ => True
  | .fresh,_,.todo,_ => False
  | .fresh,one,.fresh,two => one < two
  | .fresh,_,.held _,_ => True
  | .held _,_,.todo,_ => False
  | .held _,one,.fresh,two => one < two
  | .held writer,one,.held other,two => writer ≠ other ∨ one < two

def Within : Stage τ → Stage τ → Prop
  | .todo,_ => True
  | .fresh,.todo => False
  | .fresh,_ => True
  | .held writer,.held other => writer = other
  | .held _,_ => False

def todo (state : State τ ι α) : List (Entry ι α) :=
  match state.phase with
  | .replaying _ _ todo => todo
  | _ => []

def unread (state : State τ ι α) : List (Entry ι α) :=
  match state.phase with
  | .replaying _ changes _ => state.changelog.filter fun entry => entry.id ∉ changes.map Entry.id
  | _ => state.changelog

omit [LinearOrder ι] in
theorem rest_split : state.rest = todo state ++ unread state := by
  unfold State.rest todo unread
  cases state.phase <;> rfl

omit [LinearOrder ι] in
theorem todo_plain (quiet : plain state.phase = true) : todo state = [] := by
  unfold todo
  split
  · next phase =>
    rw [phase] at quiet
    cases quiet
  · rfl

omit [LinearOrder ι] in
theorem unread_plain (quiet : plain state.phase = true) : unread state = state.changelog := by
  unfold unread
  split
  · next phase =>
    rw [phase] at quiet
    cases quiet
  · rfl

def Carries (keys : List (α → Option κ)) (entry : Entry ι α) (columns : α) : Prop :=
  ∃ row, entry.row_data = some row ∧ shares keys columns row.columns = true

def Unique (keys : List (α → Option κ)) (table : List (Row ι α)) : Prop :=
  ∀ one two first second, find table one = some first → find table two = some second → one ≠ two → shares keys first second = false

omit [LinearOrder ι] in
theorem shares_symm (keys : List (α → Option κ)) (one two : α) : shares keys one two = shares keys two one := by
  unfold shares
  congr 1
  funext key
  by_cases same : key one = key two
  · rw [same]
  · have other : ¬ key two = key one := fun wrong => same wrong.symm
    simp [same,other]

theorem latest_from {value : Option α} {entries : List (Entry ι α)} {columns : α} (found : latest id value entries = some columns) :
    (∃ before entry after, entries = before ++ entry::after ∧ entry.row_id = id ∧ entry.row_data.map Row.columns = some columns ∧
      ∀ other ∈ after, other.row_id ≠ id) ∨ (value = some columns ∧ ∀ entry ∈ entries, entry.row_id ≠ id) := by
  induction entries generalizing value with
  | nil => exact .inr ⟨found,fun _ wrong => absurd wrong List.not_mem_nil⟩
  | cons entry later ih =>
    rcases ih (show latest id (settle id value entry) later = some columns from found) with
      ⟨before,last,after,equal,named,data,behind⟩ | ⟨first,absent⟩
    · exact .inl ⟨entry::before,last,after,by rw [equal]; rfl,named,data,behind⟩
    · by_cases own : entry.row_id = id
      · rw [settle_own own] at first
        exact .inl ⟨[],entry,later,rfl,own,first,absent⟩
      · rw [settle_other own] at first
        refine .inr ⟨first,fun other member => ?_⟩
        rcases List.mem_cons.mp member with rfl | behind
        · exact own
        · exact absent other behind

theorem latest_last {entries : List (Entry ι α)} {entry : Entry ι α}
    (ordered : entries.Pairwise fun one two => one.row_id = two.row_id → one.id < two.id) (member : entry ∈ entries) (named : entry.row_id = id)
    (last : ∀ other ∈ entries, other.row_id = id → ¬ entry.id < other.id) (value : Option α) :
    latest id value entries = entry.row_data.map Row.columns := by
  obtain ⟨before,after,rfl⟩ := List.append_of_mem member
  have behind : ∀ other ∈ after, other.row_id ≠ id := by
    intro other there same
    have order := (List.pairwise_cons.mp (List.pairwise_append.mp ordered).2.1).1 other there (named.trans same.symm)
    exact last other (by simp [there]) same order
  rw [latest_append]
  show latest id (settle id _ entry) after = _
  rw [settle_own named,latest_absent behind]

theorem applied_latest {writes : List (Write τ ι α)} {table : List (Row ι α)} {columns : α} (logs : ∀ write ∈ writes, Logged write)
    (found : find (applied table writes) id = some columns) :
    latest id (find table id) (writes.filterMap Write.entry) = some columns := by
  rcases near_applied logs (fun _ _ _ => trivial) (.inl rfl : Near True (find table id) (find table id)) with same | ⟨_,gone⟩
  · exact same.symm.trans found
  · cases found.symm.trans gone

omit [DecidableEq κ] in
theorem change_touched {table other : List (Row ι α)} (touched : id ∈ change.touched) :
    find (change.apply table) id = find (change.apply other) id ∧
      ∀ columns, find (change.apply table) id = some columns → change.row = some ⟨id,columns⟩ := by
  cases change with
  | insert row =>
    have own : row.id = id := by simpa [Change.touched,eq_comm] using touched
    rw [Change.apply,Change.apply,find_put,find_put,if_pos own,if_pos own]
    refine ⟨rfl,fun columns found => ?_⟩
    rw [← own,← Option.some.inj found]
    rfl
  | delete gone =>
    have own : gone = id := by simpa [Change.touched,eq_comm] using touched
    rw [Change.apply,Change.apply,find_erase,find_erase,if_pos own,if_pos own]
    exact ⟨rfl,fun _ wrong => absurd wrong (Option.some_ne_none _).symm⟩
  | update old row =>
    rw [Change.apply,Change.apply,find_put,find_put,find_erase,find_erase]
    by_cases own : row.id = id
    · rw [if_pos own,if_pos own]
      refine ⟨rfl,fun columns found => ?_⟩
      rw [← own,← Option.some.inj found]
      rfl
    · have left : old = id := by
        rcases List.mem_cons.mp touched with same | same
        · exact same.symm
        · exact absurd (List.mem_singleton.mp same).symm own
      rw [if_neg own,if_neg own,if_pos left,if_pos left]
      exact ⟨rfl,fun _ wrong => absurd wrong (Option.some_ne_none _).symm⟩

omit [DecidableEq κ] in
theorem change_untouched {table : List (Row ι α)} (untouched : id ∉ change.touched) : find (change.apply table) id = find table id := by
  cases change with
  | insert row =>
    rw [Change.apply,find_put,if_neg fun own => untouched (by simp [Change.touched,own])]
  | delete gone =>
    rw [Change.apply,find_erase,if_neg fun own => untouched (by simp [Change.touched,own])]
  | update old row =>
    rw [Change.apply,find_put,find_erase,if_neg fun own => untouched (by simp [Change.touched,own]),
      if_neg fun own => untouched (by simp [Change.touched,own])]

omit [DecidableEq κ] in
theorem applied_untouched {writes : List (Write τ ι α)} {table : List (Row ι α)} (untouched : ∀ write ∈ writes, id ∉ write.change.touched) :
    find (applied table writes) id = find table id := by
  induction writes generalizing table with
  | nil => rfl
  | cons write later ih =>
    exact (ih fun other member => untouched other (List.mem_cons_of_mem _ member)).trans
      (change_untouched (untouched write (List.mem_cons_self ..)))

omit [DecidableEq κ] in
theorem applied_touched {writes : List (Write τ ι α)} (touched : ∃ write ∈ writes, id ∈ write.change.touched) (table other : List (Row ι α)) :
    find (applied table writes) id = find (applied other writes) id ∧
      ∀ columns, find (applied table writes) id = some columns → ∃ write ∈ writes, write.change.row = some ⟨id,columns⟩ := by
  induction writes generalizing table other with
  | nil =>
    obtain ⟨write,member,_⟩ := touched
    cases member
  | cons write later ih =>
    by_cases again : ∃ write ∈ later, id ∈ write.change.touched
    · obtain ⟨same,row⟩ := ih again (write.change.apply table) (write.change.apply other)
      exact ⟨same,fun columns found => (row columns found).imp fun _ ⟨member,there⟩ => ⟨List.mem_cons_of_mem _ member,there⟩⟩
    · have after : ∀ write ∈ later, id ∉ write.change.touched := fun other member wrong => again ⟨other,member,wrong⟩
      have own : id ∈ write.change.touched := by
        obtain ⟨other,member,there⟩ := touched
        rcases List.mem_cons.mp member with rfl | behind
        · exact there
        · exact absurd there (after other behind)
      have pair : find (write.change.apply table) id = find (write.change.apply other) id ∧
          ∀ columns, find (write.change.apply table) id = some columns → write.change.row = some ⟨id,columns⟩ := change_touched own
      obtain ⟨same,row⟩ := pair
      have first : find (applied table (write::later)) id = find (write.change.apply table) id := applied_untouched after
      have second : find (applied other (write::later)) id = find (write.change.apply other) id := applied_untouched after
      rw [first,second]
      exact ⟨same,fun columns found => ⟨write,List.mem_cons_self ..,row columns found⟩⟩

theorem accepted_unique {table : List (Row ι α)} (unique : Unique keys table) (checked : accepted keys table change = true) :
    Unique keys (change.apply table) := by
  have put_unique {table : List (Row ι α)} {row : Row ι α} (unique : Unique keys table) (free : (!clashes keys table row) = true) :
      Unique keys (put table row) := by
    have clear {id : ι} {columns : α} (found : find table id = some columns) (other : id ≠ row.id) : shares keys row.columns columns = false := by
      rw [Bool.not_eq_true',clashes,List.any_eq_false] at free
      have kept := free ⟨id,columns⟩ (find_mem found)
      simpa [other] using kept
    intro one two first second found_one found_two apart_rows
    rw [find_put] at found_one found_two
    split at found_one <;> split at found_two
    · next same also => exact absurd (same.symm.trans also) apart_rows
    · next same also =>
      rw [← Option.some.inj found_one]
      exact clear found_two (Ne.symm also)
    · next same also =>
      rw [← Option.some.inj found_two,shares_symm]
      exact clear found_one (Ne.symm same)
    · exact unique one two first second found_one found_two apart_rows
  have erase_unique (gone : ι) : Unique keys (erase table gone) := by
    intro one two first second found_one found_two apart_rows
    rw [find_erase] at found_one found_two
    split at found_one
    · cases found_one
    · split at found_two
      · cases found_two
      · exact unique one two first second found_one found_two apart_rows
  cases change with
  | insert row =>
    rw [accepted,Bool.and_eq_true] at checked
    exact put_unique unique checked.2
  | update old row =>
    rw [accepted,Bool.and_eq_true] at checked
    exact put_unique (erase_unique old) checked.2
  | delete gone => exact erase_unique gone

section
variable [DecidableEq τ]

def placed (state : State τ ι α) : Stage τ → List (Entry ι α)
  | .todo => todo state
  | .fresh => unread state
  | .held writer => (state.own writer).filterMap Write.entry

-- The writer itself took the row's id away, at the latest with this entry.
def Left (state : State τ ι α) (id : ι) (number : Nat) : Stage τ → Prop
  | .held writer => ∃ write ∈ state.own writer, write.change.leaves id ∧ ∃ entry, write.entry = some entry ∧ entry.id ≤ number
  | _ => False

-- Some entry of the row comes before this number, no later than the stage.
def Settled (state : State τ ι α) (id : ι) (after : Nat → Prop) (number : Nat) (stage : Stage τ) : Prop :=
  (∃ place entry, entry ∈ placed state place ∧ Within place stage ∧ entry.row_id = id ∧ after entry.id ∧ entry.id < number) ∨
    Left state id number stage

structure Apart (keys : List (α → Option κ)) (state : State τ ι α) : Prop where
  unique : Unique keys state.original
  views : ∀ writer kept, kept <+: state.own writer → Unique keys (applied state.original kept)
  locks : ∀ one ∈ state.writes, ∀ two ∈ state.writes, one.writer ≠ two.writer →
    ∀ first second, one.change.row = some first → two.change.row = some second → shares keys first.columns second.columns = false
  copied : ∀ lastId, state.phase = .copying lastId → ∀ row ∈ state.ghost, row ∈ state.copied
  between : live state.phase = true → ∀ place early stage late, early ∈ placed state place → late ∈ placed state stage →
    Precedes place early.id stage late.id → early.row_id ≠ late.row_id → ∀ row, early.row_data = some row → Carries keys late row.columns →
      early.id < late.id ∧ Settled state early.row_id (early.id < ·) late.id stage
  ghosts : live state.phase = true → ∀ stage late id columns, late ∈ placed state stage → id ≠ late.row_id →
    find state.ghost id = some columns → Carries keys late columns → Settled state id (fun _ => True) late.id stage
  base : live state.phase = true → ∀ writer late id columns, late ∈ placed state (.held writer) → id ≠ late.row_id →
    find state.original id = some columns → Carries keys late columns →
      (∃ entry ∈ placed state (.held writer), entry.row_id = id ∧ entry.id < late.id) ∨ Left state id late.id (.held writer)

omit [DecidableEq τ] in
theorem accepted_apart {table : List (Row ι α)} {row : Row ι α} {columns : α} (checked : accepted keys table change = true)
    (new : change.row = some row) (found : find table id = some columns) (other : id ≠ row.id) (stays : ¬ change.leaves id) :
    shares keys columns row.columns = false := by
  have clear {table : List (Row ι α)} (free : (!clashes keys table row) = true) (found : find table id = some columns) :
      shares keys columns row.columns = false := by
    rw [Bool.not_eq_true',clashes,List.any_eq_false] at free
    have kept := free ⟨id,columns⟩ (find_mem found)
    rw [shares_symm]
    simpa [other] using kept
  cases change with
  | insert row =>
    cases Option.some.inj new
    rw [accepted,Bool.and_eq_true] at checked
    exact clear checked.2 found
  | update old row =>
    cases Option.some.inj new
    rw [accepted,Bool.and_eq_true] at checked
    refine clear checked.2 ?_
    rw [find_erase,if_neg fun same => stays ⟨same,Ne.symm other⟩]
    exact found
  | delete gone => cases new

def reaching (state : State τ ι α) (writer : τ) : List (Entry ι α) := state.rest ++ (state.own writer).filterMap Write.entry

omit [LinearOrder ι] in
theorem reaching_placed {entry : Entry ι α} : entry ∈ reaching state writer ↔ ∃ place, entry ∈ placed state place ∧ Within place (.held writer) := by
  unfold reaching
  rw [rest_split,List.mem_append,List.mem_append]
  constructor
  · rintro ((read | unread) | own)
    · exact ⟨.todo,read,trivial⟩
    · exact ⟨.fresh,unread,trivial⟩
    · exact ⟨.held writer,own,rfl⟩
  · rintro ⟨place,member,within⟩
    cases place with
    | todo => exact .inl (.inl member)
    | fresh => exact .inl (.inr member)
    | held other =>
      cases (show other = writer from within)
      exact .inr member

omit [LinearOrder ι] in
theorem own_sublist : ((state.own writer).filterMap Write.entry).Sublist state.logged := List.filter_sublist.filterMap _

omit [LinearOrder ι] in
theorem reaching_ordered (log : Log state) : (reaching state writer).Pairwise fun one two => one.row_id = two.row_id → one.id < two.id :=
  log.ordered.sublist ((List.Sublist.refl _).append own_sublist)

omit [LinearOrder ι] in
theorem own_logs (log : Log state) : ∀ write ∈ state.own writer, Logged write := fun write member => log.logs write (mem_own.mp member).1

theorem view_last {entry : Entry ι α} {row : Row ι α} (sound : Sound False True state) (alive : live state.phase = true)
    (kept : ∀ write ∈ state.own writer, ¬ write.change.leaves id) (member : entry ∈ reaching state writer) (named : entry.row_id = id)
    (last : ∀ other ∈ reaching state writer, other.row_id = id → ¬ entry.id < other.id) (data : entry.row_data = some row) :
    find (state.view writer) id = some row.columns := by
  have log := sound.log alive
  have logs : ∀ write ∈ state.own writer, Logged write := own_logs log
  have whole := latest_last (reaching_ordered log) member named last (find state.ghost id)
  rw [data] at whole
  unfold reaching at whole
  rw [latest_append] at whole
  by_cases written : ∃ entry ∈ (state.own writer).filterMap Write.entry, entry.row_id = id
  · rcases near_written logs kept written with same | ⟨wrong,_⟩
    · exact same.trans whole
    · exact wrong.elim
  · have absent : ∀ entry ∈ (state.own writer).filterMap Write.entry, entry.row_id ≠ id := fun entry member same => written ⟨entry,member,same⟩
    rw [latest_absent absent] at whole
    have base : find state.original id = some row.columns := by
      rcases (sound.copy alive).close id with (same | ⟨wrong,_⟩) | ⟨_,lost⟩ | ⟨_,unlogged⟩
      · exact same.trans whole
      · exact wrong.elim
      · cases lost.symm.trans whole
      · rcases List.mem_append.mp member with old | new
        · exact absurd named (unlogged entry old)
        · exact absurd named (absent entry new)
    rcases near_applied logs kept (.inl base : Near False (find state.original id) (some row.columns)) with same | ⟨wrong,_⟩
    · rw [latest_absent absent] at same
      exact same
    · exact wrong.elim

theorem view_original (log : Log state) (kept : ∀ write ∈ state.own writer, ¬ write.change.leaves id)
    (absent : ∀ entry ∈ (state.own writer).filterMap Write.entry, entry.row_id ≠ id) : find (state.view writer) id = find state.original id := by
  rcases near_applied (own_logs log) kept (.inl rfl : Near False (find state.original id) (find state.original id)) with same | ⟨wrong,_⟩
  · rw [latest_absent absent] at same
    exact same
  · exact wrong.elim

theorem view_ghost {columns : α} (sound : Sound False True state) (alive : live state.phase = true)
    (kept : ∀ write ∈ state.own writer, ¬ write.change.leaves id) (absent : ∀ entry ∈ reaching state writer, entry.row_id ≠ id)
    (found : find state.ghost id = some columns) : find (state.view writer) id = some columns := by
  have unlogged : ∀ entry ∈ state.rest, entry.row_id ≠ id := fun entry member => absent entry (List.mem_append_left _ member)
  rw [view_original (sound.log alive) kept fun entry member => absent entry (List.mem_append_right _ member)]
  rcases (sound.copy alive).close id with (same | ⟨wrong,_⟩) | ⟨_,lost⟩ | ⟨unreached,_⟩
  · rw [latest_absent unlogged] at same
    exact same.trans found
  · exact wrong.elim
  · rw [latest_absent unlogged] at lost
    cases lost.symm.trans found
  · cases ((sound.copy alive).ahead id unreached).symm.trans found

omit [LinearOrder ι] [DecidableEq τ] in
theorem captured_row (number : Nat) (change : Change ι α) : (captured number change).row_data = change.row := by
  cases change <;> rfl

omit [LinearOrder ι] [DecidableEq τ] in
theorem captured_row_id {row : Row ι α} (number : Nat) (new : change.row = some row) : (captured number change).row_id = row.id := by
  cases change with
  | delete gone => cases new
  | _ => cases new; rfl

def written (state : State τ ι α) (writer : τ) (change : Change ι α) : State τ ι α := { state with
  writes := state.writes ++ [⟨writer,change,some (captured state.sequence change)⟩]
  sequence := state.sequence + 1 }

omit [LinearOrder ι] in
theorem own_written (other : τ) : (written state writer change).own other =
    state.own other ++ if writer = other then [⟨writer,change,some (captured state.sequence change)⟩] else [] := by
  unfold State.own written
  rw [List.filter_append]
  by_cases same : writer = other <;> simp [same]

omit [LinearOrder ι] in
theorem placed_written {entry : Entry ι α} {stage : Stage τ} : entry ∈ placed (written state writer change) stage ↔
    entry ∈ placed state stage ∨ (stage = .held writer ∧ entry = captured state.sequence change) := by
  cases stage with
  | todo => exact (or_iff_left nofun).symm
  | fresh => exact (or_iff_left nofun).symm
  | held other =>
    show entry ∈ ((written state writer change).own other).filterMap Write.entry ↔ entry ∈ (state.own other).filterMap Write.entry ∨ _
    rw [own_written,List.filterMap_append,List.mem_append]
    by_cases same : writer = other
    · rw [if_pos same,same]
      simp
    · rw [if_neg same]
      simp [Ne.symm same]

omit [LinearOrder ι] in
theorem left_written {stage : Stage τ} (left : Left state id number stage) : Left (written state writer change) id number stage := by
  cases stage with
  | held other =>
    obtain ⟨write,member,leaves⟩ := left
    exact ⟨write,by rw [own_written]; exact List.mem_append_left _ member,leaves⟩
  | _ => exact left

omit [LinearOrder ι] in
theorem settled_written {after : Nat → Prop} {stage : Stage τ} (settled : Settled state id after number stage) :
    Settled (written state writer change) id after number stage :=
  settled.imp (fun ⟨place,entry,member,later⟩ => ⟨place,entry,placed_written.mpr (.inl member),later⟩) left_written

omit [LinearOrder ι] in
theorem placed_fresh {entry : Entry ι α} {stage : Stage τ} (log : Log state) (member : entry ∈ placed state stage) : entry.id < state.sequence := by
  cases stage with
  | todo => exact log.fresh entry (List.mem_append_left _ (rest_changelog log (by rw [rest_split]; exact List.mem_append_left _ member)))
  | fresh => exact log.fresh entry (List.mem_append_left _ (rest_changelog log (by rw [rest_split]; exact List.mem_append_right _ member)))
  | held other => exact log.fresh entry (List.mem_append_right _ (own_logged member))

theorem written_locked {entry : Entry ι α} {row : Row ι α} (log : Log state) (other : writer ≠ late)
    (free : ∀ write ∈ state.writes, write.writer = writer ∨ waits keys change write.change = false)
    (member : entry ∈ placed state (.held late)) (data : entry.row_data = some row) (new : change.row = some fresh) :
    shares keys fresh.columns row.columns = false := by
  obtain ⟨write,there,equal⟩ := List.mem_filterMap.mp member
  obtain ⟨listed,own⟩ := mem_own.mp there
  obtain ⟨number,shape⟩ := log.logs write listed
  have same : write.change.row = some row := by
    rw [← captured_row number,← Option.some.inj (equal.symm.trans shape)]
    exact data
  have quiet := (free write listed).resolve_left fun wrong => other (wrong.symm.trans own)
  rw [waits,Bool.or_eq_false_iff,new,same] at quiet
  exact quiet.2

-- The heart: an accepted row takes no key value from a row the writer still sees.
theorem written_left {row : Row ι α} {columns : α} (log : Log state) (checked : accepted keys (state.view writer) change = true)
    (new : change.row = some row) (other : id ≠ row.id) (share : shares keys columns row.columns = true)
    (seen : (∀ write ∈ state.own writer, ¬ write.change.leaves id) → find (state.view writer) id = some columns) :
    Left (written state writer change) id state.sequence (.held writer) := by
  by_cases kept : ∀ write ∈ state.own writer, ¬ write.change.leaves id
  · by_cases own : change.leaves id
    · refine ⟨⟨writer,change,some (captured state.sequence change)⟩,?_,own,_,rfl,le_of_eq (captured_id _ _)⟩
      rw [own_written,if_pos rfl]
      exact List.mem_append_right _ (List.mem_singleton_self _)
    · cases share.symm.trans (accepted_apart checked new (seen kept) other own)
  · simp only [not_forall,not_not] at kept
    obtain ⟨write,member,leaves⟩ := kept
    obtain ⟨number,shape⟩ := own_logs log write member
    have below := log.fresh (captured number write.change)
      (List.mem_append_right _ (own_logged (List.mem_filterMap.mpr ⟨write,member,shape⟩)))
    refine ⟨write,?_,leaves,_,shape,below.le⟩
    rw [own_written]
    exact List.mem_append_left _ member

theorem write_views (apart : Apart keys state) (checked : accepted keys (state.view writer) change = true) (entry : Option (Entry ι α))
    (sequence : Nat) : ∀ owner kept, kept <+: State.own { state with writes := state.writes ++ [⟨writer,change,entry⟩], sequence := sequence } owner →
      Unique keys (applied state.original kept) := by
  intro owner kept sub
  have own : State.own { state with writes := state.writes ++ [⟨writer,change,entry⟩], sequence := sequence } owner =
      state.own owner ++ if writer = owner then [⟨writer,change,entry⟩] else [] := by
    unfold State.own
    rw [List.filter_append]
    by_cases same : writer = owner <;> simp [same]
  rw [own] at sub
  split at sub
  · next same =>
    rcases List.prefix_concat_iff.mp sub with rfl | shorter
    · have whole : applied state.original (state.own owner ++ [⟨writer,change,entry⟩]) = change.apply (state.view writer) := by
        rw [same]
        exact List.foldl_append
      rw [whole]
      exact accepted_unique (apart.views writer _ (List.prefix_refl _)) checked
    · exact apart.views owner kept shorter
  · rw [List.append_nil] at sub
    exact apart.views owner kept sub

theorem write_locks (apart : Apart keys state) (free : ∀ write ∈ state.writes, write.writer = writer ∨ waits keys change write.change = false)
    (entry : Option (Entry ι α)) : ∀ one ∈ state.writes ++ [(⟨writer,change,entry⟩ : Write τ ι α)],
      ∀ two ∈ state.writes ++ [(⟨writer,change,entry⟩ : Write τ ι α)], one.writer ≠ two.writer →
        ∀ first second, one.change.row = some first → two.change.row = some second → shares keys first.columns second.columns = false := by
  intro one first two second other first_row second_row new_first new_second
  have quiet (write : Write τ ι α) (member : write ∈ state.writes) (apart_writers : write.writer ≠ writer) (row : Row ι α)
      (data : write.change.row = some row) (fresh : Row ι α) (new : change.row = some fresh) : shares keys fresh.columns row.columns = false := by
    have free_write := (free write member).resolve_left apart_writers
    rw [waits,Bool.or_eq_false_iff,new,data] at free_write
    exact free_write.2
  rcases List.mem_append.mp first with old | new <;> rcases List.mem_append.mp second with older | newer
  · exact apart.locks one old two older other first_row second_row new_first new_second
  · cases List.mem_singleton.mp newer
    rw [shares_symm]
    exact quiet one old other first_row new_first second_row new_second
  · cases List.mem_singleton.mp new
    exact quiet two older (Ne.symm other) second_row new_second first_row new_first
  · cases List.mem_singleton.mp new
    cases List.mem_singleton.mp newer
    exact absurd rfl other

theorem written_apart (sound : Sound False True state) (apart : Apart keys state) (alive : live state.phase = true)
    (checked : accepted keys (state.view writer) change = true)
    (free : ∀ write ∈ state.writes, write.writer = writer ∨ waits keys change write.change = false) :
    Apart keys (written state writer change) := by
  have log := sound.log alive
  have number : (captured state.sequence change).id = state.sequence := captured_id _ _
  have carried {columns : α} (carries : Carries keys (captured state.sequence change) columns) :
      ∃ row, change.row = some row ∧ shares keys columns row.columns = true ∧ (captured state.sequence change).row_id = row.id := by
    obtain ⟨row,data,share⟩ := carries
    rw [captured_row] at data
    exact ⟨row,data,share,captured_row_id _ data⟩
  refine ⟨apart.unique,write_views apart checked _ _,write_locks apart free _,apart.copied,fun _ place early stage late first second before other row data carries => ?_,
    fun _ stage late id columns member other found carries => ?_,fun _ owner late id columns member other found carries => ?_⟩
  · rcases placed_written.mp second with old | ⟨rfl,rfl⟩ <;> rcases placed_written.mp first with older | ⟨rfl,rfl⟩
    · obtain ⟨order,settled⟩ := apart.between alive place early stage late older old before other row data carries
      exact ⟨order,settled_written settled⟩
    · -- The new entry comes before none but another writer's, which shares nothing with it.
      have below := placed_fresh log old
      obtain ⟨own,held,share⟩ := carries
      rw [captured_row] at data
      cases stage with
      | todo => exact before.elim
      | fresh =>
        have after : (captured state.sequence change).id < late.id := before
        omega
      | held writer_late =>
        rcases (show writer ≠ writer_late ∨ (captured state.sequence change).id < late.id from before) with apart_writers | after
        · cases share.symm.trans (written_locked log apart_writers free old held data)
        · omega
    · have below := placed_fresh log older
      refine ⟨by omega,?_⟩
      obtain ⟨fresh,new,share,named⟩ := carried carries
      rw [named] at other
      by_cases reach : early ∈ reaching state writer
      · by_cases gap : ∃ entry ∈ reaching state writer, entry.row_id = early.row_id ∧ early.id < entry.id
        · obtain ⟨entry,member,same,later⟩ := gap
          obtain ⟨place,there,within⟩ := reaching_placed.mp member
          exact .inl ⟨place,entry,placed_written.mpr (.inl there),within,same,later,by rw [number]; exact placed_fresh log there⟩
        · have last : ∀ entry ∈ reaching state writer, entry.row_id = early.row_id → ¬ early.id < entry.id :=
            fun entry member same later => gap ⟨entry,member,same,later⟩
          rw [number]
          exact .inr (written_left log checked new other share fun kept => view_last sound alive kept reach rfl last data)
      · cases place with
        | todo => exact absurd (reaching_placed.mpr ⟨.todo,older,trivial⟩) reach
        | fresh => exact absurd (reaching_placed.mpr ⟨.fresh,older,trivial⟩) reach
        | held writer_early =>
          have apart_writers : writer ≠ writer_early := fun same => reach (reaching_placed.mpr ⟨.held writer_early,older,same.symm⟩)
          have locked := written_locked log apart_writers free older data new
          rw [shares_symm] at locked
          cases share.symm.trans locked
    · exact absurd rfl other
  · rcases placed_written.mp member with old | ⟨rfl,rfl⟩
    · exact settled_written (apart.ghosts alive stage late id columns old other found carries)
    · obtain ⟨fresh,new,share,named⟩ := carried carries
      rw [named] at other
      rw [number]
      by_cases reach : ∃ entry ∈ reaching state writer, entry.row_id = id
      · obtain ⟨entry,there,same⟩ := reach
        obtain ⟨place,held,within⟩ := reaching_placed.mp there
        exact .inl ⟨place,entry,placed_written.mpr (.inl held),within,same,trivial,placed_fresh log held⟩
      · have absent : ∀ entry ∈ reaching state writer, entry.row_id ≠ id := fun entry there same => reach ⟨entry,there,same⟩
        exact .inr (written_left log checked new other share fun kept => view_ghost sound alive kept absent found)
  · rcases placed_written.mp member with old | ⟨same,rfl⟩
    · exact (apart.base alive owner late id columns old other found carries).imp
        (fun ⟨entry,there,later⟩ => ⟨entry,placed_written.mpr (.inl there),later⟩) left_written
    · cases same
      obtain ⟨fresh,new,share,named⟩ := carried carries
      rw [named] at other
      rw [number]
      by_cases reach : ∃ entry ∈ placed state (.held writer), entry.row_id = id
      · obtain ⟨entry,there,same⟩ := reach
        exact .inl ⟨entry,placed_written.mpr (.inl there),same,placed_fresh log there⟩
      · have absent : ∀ entry ∈ (state.own writer).filterMap Write.entry, entry.row_id ≠ id := fun entry there same => reach ⟨entry,there,same⟩
        exact .inr (written_left log checked new other share fun kept => (view_original log kept absent).trans found)

-- A commit makes the writer's entries fresh ones.
def moved (writer : τ) : Stage τ → Stage τ
  | .held other => if other = writer then .fresh else .held other
  | stage => stage

theorem precedes_moved {first second : Stage τ} (before : Precedes (moved writer first) one (moved writer second) two) :
    Precedes first one second two := by
  cases first with
  | todo => cases second <;> first | exact before | trivial
  | fresh =>
    cases second with
    | held other => trivial
    | _ => exact before
  | held owner =>
    cases second with
    | todo =>
      simp only [moved] at before
      split at before <;> exact before
    | fresh =>
      simp only [moved] at before
      split at before <;> exact before
    | held other =>
      simp only [moved] at before
      by_cases own : owner = writer <;> by_cases also : other = writer <;> simp only [own,also,if_true,if_false] at before ⊢
      · exact .inr before
      · exact .inl (Ne.symm also)
      · exact .inl own
      · exact before

theorem within_moved {first second : Stage τ} (within : Within first second) : Within (moved writer first) (moved writer second) := by
  cases first with
  | todo => trivial
  | fresh =>
    cases second with
    | todo => exact within
    | fresh => trivial
    | held other =>
      simp only [moved]
      split <;> trivial
  | held owner =>
    cases second with
    | held other =>
      cases (show owner = other from within)
      simp only [moved]
      split
      · trivial
      · rfl
    | _ => exact within.elim

theorem own_committed (other : τ) : (committed state writer).own other = if other = writer then [] else state.own other := by
  unfold State.own committed others
  rw [List.filter_filter]
  split
  · next same =>
    rw [same]
    exact List.filter_eq_nil_iff.mpr fun write _ => by simp
  · next apart =>
    refine List.filter_congr fun write _ => ?_
    by_cases own : write.writer = other
    · simp [own,apart]
    · simp [own]

theorem unread_committed (log : Log state) : unread (committed state writer) = unread state ++ (state.own writer).filterMap Write.entry := by
  have whole : (committed state writer).rest = state.rest ++ (state.own writer).filterMap Write.entry :=
    rest_committed log _ (fun entry member => own_logged member) _ _
  rw [rest_split,rest_split,List.append_assoc] at whole
  exact List.append_cancel_left whole

theorem placed_committed {entry : Entry ι α} {stage : Stage τ} (log : Log state) : entry ∈ placed (committed state writer) stage ↔
    ∃ old, entry ∈ placed state old ∧ stage = moved writer old := by
  cases stage with
  | todo =>
    constructor
    · exact fun member => ⟨.todo,member,rfl⟩
    · rintro ⟨old,member,same⟩
      cases old with
      | todo => exact member
      | fresh => cases same
      | held other =>
        simp only [moved] at same
        split at same <;> cases same
  | fresh =>
    show entry ∈ unread (committed state writer) ↔ _
    rw [unread_committed log,List.mem_append]
    constructor
    · rintro (old | own)
      · exact ⟨.fresh,old,rfl⟩
      · exact ⟨.held writer,own,(if_pos rfl).symm⟩
    · rintro ⟨old,member,same⟩
      cases old with
      | todo => cases same
      | fresh => exact .inl member
      | held other =>
        simp only [moved] at same
        split at same
        · next own => exact .inr (own ▸ member)
        · cases same
  | held other =>
    show entry ∈ ((committed state writer).own other).filterMap Write.entry ↔ _
    rw [own_committed]
    constructor
    · intro member
      split at member
      · cases member
      · next apart => exact ⟨.held other,member,(if_neg apart).symm⟩
    · rintro ⟨old,member,same⟩
      cases old with
      | held owner =>
        simp only [moved] at same
        split at same
        · cases same
        · next apart =>
          cases same
          rw [if_neg apart]
          exact member
      | _ => cases same

theorem settled_committed {after : Nat → Prop} {stage : Stage τ} (log : Log state)
    (stays : stage = .held writer → ¬ Left state id number stage) (settled : Settled state id after number stage) :
    Settled (committed state writer) id after number (moved writer stage) := by
  rcases settled with ⟨place,entry,member,within,later⟩ | left
  · exact .inl ⟨moved writer place,entry,(placed_committed log).mpr ⟨place,member,rfl⟩,within_moved within,later⟩
  · cases stage with
    | held owner =>
      by_cases own : owner = writer
      · exact absurd left (stays (own ▸ rfl))
      · refine .inr ?_
        simp only [moved,if_neg own]
        obtain ⟨write,member,leaves⟩ := left
        exact ⟨write,by rw [own_committed,if_neg own]; exact member,leaves⟩
    | _ => exact left.elim

omit [LinearOrder ι] in
theorem own_entry {entry : Entry ι α} {row : Row ι α} (log : Log state) (member : entry ∈ placed state (.held writer))
    (data : entry.row_data = some row) : ∃ write ∈ state.writes, write.writer = writer ∧ write.change.row = some row ∧
      entry.row_id ∈ write.change.touched := by
  obtain ⟨write,there,equal⟩ := List.mem_filterMap.mp member
  obtain ⟨listed,own⟩ := mem_own.mp there
  obtain ⟨number,shape⟩ := log.logs write listed
  refine ⟨write,listed,own,?_,logged_touched ⟨number,shape⟩ equal⟩
  rw [← captured_row number,← Option.some.inj (equal.symm.trans shape)]
  exact data

theorem commit_views (apart : Apart keys state) : ∀ owner kept,
    kept <+: (committed state writer).own owner → Unique keys (applied (state.view writer) kept) := by
  intro owner kept sub
  rw [own_committed] at sub
  split at sub
  · rw [List.prefix_nil.mp sub]
    exact apart.views writer _ (List.prefix_refl _)
  · next other =>
    have mine := apart.views owner kept sub
    have theirs : Unique keys (state.view writer) := apart.views writer _ (List.prefix_refl _)
    have cross {one two : ι} {first second : α} (touched : ∃ write ∈ kept, one ∈ write.change.touched)
        (untouched : ∀ write ∈ kept, two ∉ write.change.touched) (found_one : find (applied (state.view writer) kept) one = some first)
        (found_two : find (applied (state.view writer) kept) two = some second) (apart_rows : one ≠ two) : shares keys first second = false := by
      obtain ⟨same,row⟩ := applied_touched touched (state.view writer) state.original
      rw [applied_untouched untouched] at found_two
      by_cases written : ∃ write ∈ state.own writer, two ∈ write.change.touched
      · obtain ⟨write,member,made⟩ := row first found_one
        obtain ⟨late,there,also⟩ := (applied_touched written state.original state.original).2 second found_two
        obtain ⟨listed,named⟩ := mem_own.mp (sub.subset member)
        obtain ⟨held,called⟩ := mem_own.mp there
        exact apart.locks write listed late held (by rw [named,called]; exact other) _ _ made also
      · have base : find (state.view writer) two = find state.original two := applied_untouched fun write member wrong => written ⟨write,member,wrong⟩
        rw [base] at found_two
        exact mine one two first second (same.symm.trans found_one) ((applied_untouched untouched).trans found_two) apart_rows
    intro one two first second found_one found_two apart_rows
    by_cases touch_one : ∃ write ∈ kept, one ∈ write.change.touched <;> by_cases touch_two : ∃ write ∈ kept, two ∈ write.change.touched
    · have same_one := (applied_touched touch_one (state.view writer) state.original).1
      have same_two := (applied_touched touch_two (state.view writer) state.original).1
      exact mine one two first second (same_one.symm.trans found_one) (same_two.symm.trans found_two) apart_rows
    · exact cross touch_one (fun write member wrong => touch_two ⟨write,member,wrong⟩) found_one found_two apart_rows
    · rw [shares_symm]
      exact cross touch_two (fun write member wrong => touch_one ⟨write,member,wrong⟩) found_two found_one (Ne.symm apart_rows)
    · rw [applied_untouched fun write member wrong => touch_one ⟨write,member,wrong⟩] at found_one
      rw [applied_untouched fun write member wrong => touch_two ⟨write,member,wrong⟩] at found_two
      exact theirs one two first second found_one found_two apart_rows

theorem commit_apart (sound : Sound False True state) (apart : Apart keys state) (alive : live state.phase = true)
    (stays : Moving False state writer) : Apart keys (committed state writer) := by
  have log := sound.log alive
  have unlocked {one : Write τ ι α} (member : one ∈ (committed state writer).writes) : one ∈ state.writes := (mem_others.mp member).1
  refine ⟨apart.views writer _ (List.prefix_refl _),commit_views apart,fun one first two second => apart.locks one (unlocked first) two (unlocked second),
    apart.copied,fun _ place early stage late first second before other row data carries => ?_,
    fun _ stage late id columns member other found carries => ?_,fun _ owner late id columns member other found carries => ?_⟩
  · obtain ⟨old_place,early_there,rfl⟩ := (placed_committed log).mp first
    obtain ⟨old_stage,late_there,rfl⟩ := (placed_committed log).mp second
    obtain ⟨order,settled⟩ := apart.between alive old_place early old_stage late early_there late_there (precedes_moved before) other row data carries
    refine ⟨order,settled_committed log ?_ settled⟩
    rintro rfl ⟨write,listed,leaves,_⟩
    have logged (reach : early ∈ state.changelog ++ (state.own writer).filterMap Write.entry) : False :=
      stays write listed _ leaves (.inr ⟨early,reach,rfl⟩)
    have rest (member : early ∈ state.rest) : False := logged (List.mem_append_left _ (rest_changelog log member))
    cases old_place with
    | todo => exact rest (by rw [rest_split]; exact List.mem_append_left _ early_there)
    | fresh => exact rest (by rw [rest_split]; exact List.mem_append_right _ early_there)
    | held owner =>
      by_cases own : owner = writer
      · rw [own] at early_there
        exact logged (List.mem_append_right _ early_there)
      · obtain ⟨theirs,member,named,_,touched⟩ := own_entry log early_there data
        obtain ⟨mine,called⟩ := mem_own.mp listed
        refine sound.apart theirs member write mine (by rw [named,called]; exact own) _ touched ?_
        cases change : write.change with
        | update old row => rw [change] at leaves; simp [Change.touched,leaves.1]
        | _ => rw [change] at leaves; exact leaves.elim
  · obtain ⟨old_stage,late_there,rfl⟩ := (placed_committed log).mp member
    refine settled_committed log ?_ (apart.ghosts alive old_stage late id columns late_there other found carries)
    rintro rfl ⟨write,listed,leaves,_⟩
    refine stays write listed id leaves (.inl ?_)
    by_contra unreached
    cases ((sound.copy alive).ahead id unreached).symm.trans found
  · obtain ⟨old_stage,late_there,same⟩ := (placed_committed log).mp member
    have apart_writers : owner ≠ writer ∧ old_stage = .held owner := by
      cases old_stage with
      | held old =>
        simp only [moved] at same
        split at same
        · cases same
        · next unmoved =>
          cases same
          exact ⟨unmoved,rfl⟩
      | _ => cases same
    obtain ⟨unmoved,rfl⟩ := apart_writers
    have kept : ∀ entry, entry ∈ placed (committed state writer) (.held owner) ↔ entry ∈ placed state (.held owner) := by
      intro entry
      show entry ∈ ((committed state writer).own owner).filterMap Write.entry ↔ _
      rw [own_committed,if_neg unmoved]
      rfl
    obtain ⟨fresh,new,share⟩ := carries
    rcases latest_from (applied_latest (own_logs log) found) with ⟨before,entry,after,equal,_,data,_⟩ | ⟨base,_⟩
    · obtain ⟨row,there,rfl⟩ := Option.map_eq_some_iff.mp data
      have held : entry ∈ placed state (.held writer) := by
        show entry ∈ (state.own writer).filterMap Write.entry
        rw [equal]
        simp
      obtain ⟨one,first,named,row_one,_⟩ := own_entry log held there
      obtain ⟨two,second,called,row_two,_⟩ := own_entry log late_there new
      have locked := apart.locks one first two second (by rw [named,called]; exact Ne.symm unmoved) row fresh row_one row_two
      cases share.symm.trans locked
    · rcases apart.base alive owner late id columns late_there other base ⟨fresh,new,share⟩ with written | gone
      · obtain ⟨entry,there,later⟩ := written
        exact .inl ⟨entry,(kept entry).mpr there,later⟩
      · obtain ⟨write,listed,leaves⟩ := gone
        refine .inr ⟨write,?_,leaves⟩
        rw [own_committed,if_neg unmoved]
        exact listed

theorem rollback_apart (apart : Apart keys state) {kept : List (Write τ ι α)} (sub : kept.Sublist state.writes)
    (first_part : ∀ owner, State.own { state with writes := kept } owner <+: state.own owner)
    (earlier : ∀ write ∈ kept, ∀ other ∈ state.writes, other.writer = write.writer → ∀ entry first, write.entry = some entry →
      other.entry = some first → first.id ≤ entry.id → other ∈ kept) : Apart keys { state with writes := kept } := by
  have fewer {stage : Stage τ} {entry : Entry ι α} (member : entry ∈ placed { state with writes := kept } stage) : entry ∈ placed state stage := by
    cases stage with
    | held owner =>
      obtain ⟨write,there,equal⟩ := List.mem_filterMap.mp member
      obtain ⟨listed,own⟩ := mem_own.mp there
      exact List.mem_filterMap.mpr ⟨write,mem_own.mpr ⟨sub.subset listed,own⟩,equal⟩
    | _ => exact member
  have own_kept {owner : τ} {late first : Entry ι α} {other : Write τ ι α} (member : late ∈ placed { state with writes := kept } (.held owner))
      (listed : other ∈ state.own owner) (equal : other.entry = some first) (order : first.id ≤ late.id) :
      other ∈ State.own { state with writes := kept } owner := by
    obtain ⟨write,there,same⟩ := List.mem_filterMap.mp member
    obtain ⟨mine,own⟩ := mem_own.mp there
    obtain ⟨theirs,called⟩ := mem_own.mp listed
    exact mem_own.mpr ⟨earlier write mine other theirs (called.trans own.symm) late first same equal order,called⟩
  have left {owner : τ} {late : Entry ι α} {id : ι} (member : late ∈ placed { state with writes := kept } (.held owner))
      (gone : Left state id late.id (.held owner)) : Left { state with writes := kept } id late.id (.held owner) := by
    obtain ⟨write,listed,leaves,entry,equal,order⟩ := gone
    exact ⟨write,own_kept member listed equal order,leaves,entry,equal,order⟩
  have settled {stage : Stage τ} {late : Entry ι α} {id : ι} {after : Nat → Prop} (member : late ∈ placed { state with writes := kept } stage)
      (before : Settled state id after late.id stage) : Settled { state with writes := kept } id after late.id stage := by
    rcases before with ⟨place,entry,there,within,named,later,order⟩ | gone
    · refine .inl ⟨place,entry,?_,within,named,later,order⟩
      cases place with
      | held owner =>
        cases stage with
        | held other =>
          cases (show owner = other from within)
          obtain ⟨write,listed,equal⟩ := List.mem_filterMap.mp there
          exact List.mem_filterMap.mpr ⟨write,own_kept member listed equal order.le,equal⟩
        | _ => exact within.elim
      | _ => exact there
    · cases stage with
      | held owner => exact .inr (left member gone)
      | _ => exact gone.elim
  refine ⟨apart.unique,fun owner list part => apart.views owner list (part.trans (first_part owner)),
    fun one first two second => apart.locks one (sub.subset first) two (sub.subset second),apart.copied,
    fun alive place early stage late first second before other row data carries => ?_,
    fun alive stage late id columns member other found carries => settled member (apart.ghosts alive stage late id columns (fewer member) other found carries),
    fun alive owner late id columns member other found carries => ?_⟩
  · obtain ⟨order,gap⟩ := apart.between alive place early stage late (fewer first) (fewer second) before other row data carries
    exact ⟨order,settled second gap⟩
  · rcases apart.base alive owner late id columns (fewer member) other found carries with ⟨entry,there,named,order⟩ | gone
    · obtain ⟨write,listed,equal⟩ := List.mem_filterMap.mp there
      exact .inl ⟨entry,List.mem_filterMap.mpr ⟨write,own_kept member listed equal order.le,equal⟩,named,order⟩
    · exact .inr (left member gone)

theorem apart_still (apart : Apart keys state) (alive : live state.phase = true) (changelog : List (Entry ι α)) (held : List (Row ι α))
    (phase : Phase ι α) (same_todo : todo { state with changelog := changelog, held := held, phase := phase } = todo state)
    (same_unread : unread { state with changelog := changelog, held := held, phase := phase } = unread state)
    (copying : ∀ lastId, phase = .copying lastId → ∀ row ∈ state.ghost, row ∈ state.copied) :
    Apart keys { state with changelog := changelog, held := held, phase := phase } := by
  have same : ∀ stage, placed { state with changelog := changelog, held := held, phase := phase } stage = placed state stage := by
    intro stage
    cases stage with
    | todo => exact same_todo
    | fresh => exact same_unread
    | held owner => rfl
  have settled {id : ι} {after : Nat → Prop} {number : Nat} {stage : Stage τ} (before : Settled state id after number stage) :
      Settled { state with changelog := changelog, held := held, phase := phase } id after number stage := by
    rcases before with written | gone
    · obtain ⟨place,entry,member,later⟩ := written
      exact .inl ⟨place,entry,by rw [same]; exact member,later⟩
    · exact .inr (by cases stage <;> exact gone)
  refine ⟨apart.unique,apart.views,apart.locks,copying,fun _ place early stage late first second before other row data carries => ?_,
    fun _ stage late id columns member other found carries => ?_,fun _ owner late id columns member other found carries => ?_⟩
  · rw [same] at first second
    obtain ⟨order,gap⟩ := apart.between alive place early stage late first second before other row data carries
    exact ⟨order,settled gap⟩
  · rw [same] at member
    exact settled (apart.ghosts alive stage late id columns member other found carries)
  · exact apart.base alive owner late id columns member other found carries

theorem ended_apart (apart : Apart keys state) (phase : Phase ι α) (ended : live phase = false) (ghost copied : List (Row ι α)) :
    Apart keys { state with ghost := ghost, copied := copied, phase := phase } := by
  refine ⟨apart.unique,apart.views,apart.locks,fun lastId wrong => ?_,fun wrong => ?_,fun wrong => ?_,fun wrong => ?_⟩
  · rw [show phase = .copying lastId from wrong] at ended
    cases ended
  all_goals cases ended.symm.trans wrong

theorem create_apart (apart : Apart keys state) (quiet : state.writes = []) :
    Apart keys { state with changelog := [], ghost := [], copied := [], phase := .counting } := by
  have empty : ∀ stage, placed { state with changelog := [], ghost := [], copied := [], phase := .counting } stage = [] := by
    intro stage
    cases stage with
    | held owner => simp [placed,State.own,quiet]
    | _ => rfl
  refine ⟨apart.unique,apart.views,apart.locks,(fun _ wrong => by cases wrong),fun _ _ _ stage late _ member => ?_,fun _ stage late _ _ member => ?_,fun _ owner late _ _ member => ?_⟩
  all_goals
    rw [empty] at member
    cases member

theorem read_apart {pass : Pass} (apart : Apart keys state) (phase : state.phase = .reading pass) :
    Apart keys { state with phase := .replaying pass (inOrder Entry.id state.changelog) (inOrder Entry.id state.changelog) } := by
  have alive : live state.phase = true := by rw [phase]; rfl
  have before : plain state.phase = true := by rw [phase]; rfl
  have old_todo : placed state .todo = [] := todo_plain before
  have old_fresh : placed state .fresh = state.changelog := unread_plain before
  let later : State τ ι α := { state with phase := .replaying pass (inOrder Entry.id state.changelog) (inOrder Entry.id state.changelog) }
  have new_fresh : placed later .fresh = [] := by
    refine List.filter_eq_nil_iff.mpr fun entry member => ?_
    simpa using ⟨entry,(mem_inOrder Entry.id).mpr member,rfl⟩
  -- Where an entry was before the read.
  have back {stage : Stage τ} {entry : Entry ι α} (member : entry ∈ placed later stage) :
      ∃ old, entry ∈ placed state old ∧ (stage = .todo ∧ old = .fresh ∨ ∃ owner, stage = .held owner ∧ old = .held owner) := by
    cases stage with
    | todo => exact ⟨.fresh,by rw [old_fresh]; exact (mem_inOrder Entry.id).mp member,.inl ⟨rfl,rfl⟩⟩
    | fresh =>
      rw [new_fresh] at member
      cases member
    | held owner => exact ⟨.held owner,member,.inr ⟨owner,rfl,rfl⟩⟩
  have settled {id : ι} {after : Nat → Prop} {number : Nat} {stage old : Stage τ}
      (moved : stage = .todo ∧ old = .fresh ∨ ∃ owner, stage = .held owner ∧ old = .held owner) (before : Settled state id after number old) :
      Settled later id after number stage := by
    rcases before with ⟨place,entry,member,within,rest⟩ | gone
    · cases place with
      | todo =>
        rw [old_todo] at member
        cases member
      | fresh => exact .inl ⟨.todo,entry,(mem_inOrder Entry.id).mpr (old_fresh ▸ member),trivial,rest⟩
      | held owner =>
        rcases moved with ⟨_,rfl⟩ | ⟨other,rfl,rfl⟩
        · exact within.elim
        · exact .inl ⟨.held owner,entry,member,within,rest⟩
    · rcases moved with ⟨_,rfl⟩ | ⟨other,rfl,rfl⟩
      · exact gone.elim
      · exact .inr gone
  refine ⟨apart.unique,apart.views,apart.locks,(fun _ wrong => by cases wrong),fun _ place early stage late first second before other row data carries => ?_,
    fun _ stage late id columns member other found carries => ?_,fun _ owner late id columns member other found carries => ?_⟩
  · obtain ⟨old_place,early_there,from_place⟩ := back first
    obtain ⟨old_stage,late_there,from_stage⟩ := back second
    have order : Precedes old_place early.id old_stage late.id := by
      rcases from_place with ⟨rfl,rfl⟩ | ⟨_,rfl,rfl⟩ <;> rcases from_stage with ⟨rfl,rfl⟩ | ⟨_,rfl,rfl⟩
      · exact before
      · trivial
      · exact before.elim
      · exact before
    obtain ⟨lower,gap⟩ := apart.between alive old_place early old_stage late early_there late_there order other row data carries
    exact ⟨lower,settled from_stage gap⟩
  · obtain ⟨old,late_there,moved⟩ := back member
    exact settled moved (apart.ghosts alive old late id columns late_there other found carries)
  · exact apart.base alive owner late id columns member other found carries

theorem replay_apart {pass : Pass} (sound : Sound False True state) (apart : Apart keys state) (phase : state.phase = .replaying pass changes (entry::rest)) :
    Apart keys { state with ghost := entry.replay state.ghost, phase := .replaying pass changes rest } := by
  have alive : live state.phase = true := by rw [phase]; rfl
  have log := sound.log alive
  obtain ⟨inside,suffix,sorted⟩ := log.inside pass changes (entry::rest) phase
  have head := (List.pairwise_cons.mp sorted).1
  let later : State τ ι α := { state with ghost := entry.replay state.ghost, phase := .replaying pass changes rest }
  have read : placed state .todo = entry::rest := by
    show todo state = _
    unfold todo
    rw [phase]
  have unread_same : placed later .fresh = placed state .fresh := by
    show unread later = unread state
    unfold unread
    rw [phase]
  have back {stage : Stage τ} {one : Entry ι α} (member : one ∈ placed later stage) : one ∈ placed state stage := by
    cases stage with
    | todo => rw [read]; exact List.mem_cons_of_mem _ member
    | fresh => exact unread_same ▸ member
    | held owner => exact member
  have on {stage : Stage τ} {one : Entry ι α} (member : one ∈ placed state stage) (apart_entries : one ≠ entry) : one ∈ placed later stage := by
    cases stage with
    | todo =>
      rw [read] at member
      exact (List.mem_cons.mp member).resolve_left apart_entries
    | fresh => exact unread_same ▸ member
    | held owner => exact member
  have there : entry ∈ placed state .todo := by rw [read]; exact List.mem_cons_self ..
  -- Every entry still to come for the head's row has a greater number.
  have behind {stage : Stage τ} {one : Entry ι α} (member : one ∈ placed later stage) (named : one.row_id = entry.row_id) : entry.id < one.id := by
    have ordered := log.ordered
    rw [rest_split,show todo state = entry::rest from read] at ordered
    rw [List.cons_append,List.cons_append] at ordered
    refine (List.pairwise_cons.mp ordered).1 one ?_ named.symm
    cases stage with
    | todo => exact List.mem_append_left _ (List.mem_append_left _ member)
    | fresh => exact List.mem_append_left _ (List.mem_append_right _ (show one ∈ placed state .fresh from unread_same ▸ member))
    | held owner => exact List.mem_append_right _ (own_logged member)
  have settled {id : ι} {after : Nat → Prop} {number : Nat} {stage : Stage τ} (before : Settled state id after number stage)
      (stays : id = entry.row_id → ¬ after entry.id) : Settled later id after number stage := by
    refine before.imp (fun ⟨place,one,member,within,named,past,order⟩ => ⟨place,one,on member ?_,within,named,past,order⟩) fun gone => ?_
    · cases stage <;> exact gone
    · rintro rfl
      exact stays named.symm past
  refine ⟨apart.unique,apart.views,apart.locks,(fun _ wrong => by cases wrong),fun _ place early stage late first second before other row data carries => ?_,
    fun _ stage late id columns member other found carries => ?_,fun _ owner late id columns member other found carries => ?_⟩
  · obtain ⟨lower,gap⟩ := apart.between alive place early stage late (back first) (back second) before other row data carries
    exact ⟨lower,settled gap fun same past => Nat.lt_asymm past (behind first same)⟩
  · have shaped : Captured entry := log.shaped entry (inside entry (suffix.subset (List.mem_cons_self ..)))
    have value := (find_replay shaped state.ghost id).symm.trans found
    by_cases own : entry.row_id = id
    · rw [settle_own own] at value
      obtain ⟨row,data,same⟩ := Option.map_eq_some_iff.mp value
      have before : Precedes .todo entry.id stage late.id := by
        cases stage with
        | todo => exact head late member
        | _ => trivial
      obtain ⟨lower,gap⟩ := apart.between alive .todo entry stage late there (back member) before (by rw [own]; exact other) row data (same ▸ carries)
      rw [own] at gap
      rcases settled gap fun _ past => Nat.lt_irrefl _ past with ⟨place,one,listed,within,named,_,order⟩ | gone
      · exact .inl ⟨place,one,listed,within,named,trivial,order⟩
      · exact .inr gone
    · rw [settle_other own] at value
      rcases apart.ghosts alive stage late id columns (back member) other value carries with ⟨place,one,listed,within,named,_,order⟩ | gone
      · refine .inl ⟨place,one,on listed ?_,within,named,trivial,order⟩
        rintro rfl
        exact own named
      · refine .inr ?_
        cases stage <;> exact gone
  · exact apart.base alive owner late id columns member other found carries

-- The condition: no commit is Moving, and no batch reads a key value that came to its row from another one, either
-- from a row an earlier batch read with it or from one written with it before the row's own first entry.
def fits (keys : List (α → Option κ)) (size : Nat) (state : State τ ι α) : Action τ ι α → Prop
  | .commit writer => state.phase.traced = true → Moving False state writer
  | .copyBatch reads => ∀ lastId, state.phase = .copying lastId → ∀ row ∈ batch size reads lastId state.original,
      (∀ other ∈ state.copied, other.id ≠ row.id → shares keys row.columns other.columns = false) ∧
      ∀ entry ∈ state.changelog, entry.row_id ≠ row.id → Carries keys entry row.columns →
        ∃ first ∈ state.changelog, first.row_id = row.id ∧ first.id < entry.id
  | _ => True

theorem copy_apart (sound : Sound False True state) (apart : Apart keys state) (phase : state.phase = .copying lastId)
    (fit : fits keys size state (.copyBatch reads)) :
    Apart keys { state with
      ghost := state.ghost ++ batch size reads lastId state.original
      copied := state.copied ++ batch size reads lastId state.original
      phase := cursor size (batch size reads lastId state.original) (state.ghost ++ batch size reads lastId state.original) } := by
  have alive : live state.phase = true := by rw [phase]; rfl
  have copy := sound.copy alive
  let rows := batch size reads lastId state.original
  let later : State τ ι α := { state with ghost := state.ghost ++ rows, copied := state.copied ++ rows, phase := cursor size rows (state.ghost ++ rows) }
  have before : plain state.phase = true := by rw [phase]; rfl
  have after : plain later.phase = true := by
    simp only [later,cursor]
    split <;> rfl
  have same : ∀ stage, placed later stage = placed state stage := by
    intro stage
    cases stage with
    | todo => exact (todo_plain after).trans (todo_plain before).symm
    | fresh => exact (unread_plain after).trans (unread_plain before).symm
    | held owner => rfl
  have settled {id : ι} {after : Nat → Prop} {number : Nat} {stage : Stage τ} (before : Settled state id after number stage) :
      Settled later id after number stage := by
    rcases before with written | gone
    · obtain ⟨place,entry,member,rest⟩ := written
      exact .inl ⟨place,entry,by rw [same]; exact member,rest⟩
    · exact .inr (by cases stage <;> exact gone)
  refine ⟨apart.unique,apart.views,apart.locks,fun _ _ row member => ?_,fun _ place early stage late first second before other row data carries => ?_,
    fun _ stage late id columns member other found carries => ?_,fun _ owner late id columns member other found carries => ?_⟩
  · rcases List.mem_append.mp member with old | new
    · exact List.mem_append_left _ (apart.copied lastId phase row old)
    · exact List.mem_append_right _ new
  · rw [same] at first second
    obtain ⟨order,gap⟩ := apart.between alive place early stage late first second before other row data carries
    exact ⟨order,settled gap⟩
  · rw [same] at member
    refine settled ?_
    rw [show find later.ghost id = (find state.ghost id).or (find rows id) from find_append _ _] at found
    rcases Option.or_eq_some_iff.mp found with old | ⟨_,new⟩
    · exact apart.ghosts alive stage late id columns member other old carries
    · have listed : (⟨id,columns⟩ : Row ι α) ∈ rows := find_mem new
      have original : find state.original id = some columns := (mem_find sound.keyed).mp (mem_batch listed).1
      cases stage with
      | todo =>
        rw [show placed state .todo = [] from todo_plain before] at member
        cases member
      | fresh =>
        have unread_same : placed state .fresh = state.changelog := unread_plain before
        rw [unread_same] at member
        obtain ⟨first,there,named,order⟩ := (fit lastId phase _ listed).2 late member (Ne.symm other) carries
        exact .inl ⟨.fresh,first,unread_same ▸ there,trivial,named,trivial,order⟩
      | held owner =>
        rcases apart.base alive owner late id columns member other original carries with ⟨entry,there,named,order⟩ | gone
        · exact .inl ⟨.held owner,entry,there,rfl,named,trivial,order⟩
        · exact .inr gone
  · exact apart.base alive owner late id columns member other found carries

theorem batch_clear (sound : Sound False True state) (apart : Apart keys state) (phase : state.phase = .copying lastId)
    (fit : fits keys size state (.copyBatch reads)) :
    (batch size reads lastId state.original).any (clashes keys (state.ghost ++ batch size reads lastId state.original)) = false := by
  refine List.any_eq_false.mpr fun row member => ?_
  rw [clashes,List.any_eq_true]
  rintro ⟨other,listed,clash⟩
  rw [Bool.and_eq_true] at clash
  have named : other.id ≠ row.id := of_decide_eq_true clash.1
  have original {row : Row ι α} (member : row ∈ batch size reads lastId state.original) : find state.original row.id = some row.columns :=
    (mem_find sound.keyed).mp (mem_batch member).1
  rcases List.mem_append.mp listed with old | new
  · cases clash.2.symm.trans ((fit lastId phase row member).1 other (apart.copied lastId phase other old) named)
  · cases clash.2.symm.trans (apart.unique row.id other.id _ _ (original member) (original new) (Ne.symm named))

theorem replay_clear {pass : Pass} (sound : Sound False True state) (apart : Apart keys state) (phase : state.phase = .replaying pass changes (entry::rest)) :
    entry.violates keys state.ghost = false := by
  have alive : live state.phase = true := by rw [phase]; rfl
  have log := sound.log alive
  obtain ⟨inside,suffix,sorted⟩ := log.inside pass changes (entry::rest) phase
  have read : placed state .todo = entry::rest := by
    show todo state = _
    unfold todo
    rw [phase]
  unfold Entry.violates
  split
  · rfl
  · rfl
  · next row data _ =>
    by_contra clash
    rw [Bool.not_eq_false,clashes,List.any_eq_true] at clash
    obtain ⟨other,listed,meets⟩ := clash
    rw [Bool.and_eq_true] at meets
    have shaped : Captured entry := log.shaped entry (inside entry (suffix.subset (List.mem_cons_self ..)))
    have named : entry.row_id = row.id := by
      obtain ⟨change,equal⟩ := shaped
      rw [equal,captured_row] at data
      rw [equal]
      exact captured_row_id _ data
    have found : find state.ghost other.id = some other.columns := (mem_find (sound.copy alive).ghosted).mp listed
    have apart_rows : other.id ≠ entry.row_id := by rw [named]; exact of_decide_eq_true meets.1
    rcases apart.ghosts alive .todo entry other.id other.columns (by rw [read]; exact List.mem_cons_self ..) apart_rows found
        ⟨row,data,by rw [shares_symm]; exact meets.2⟩ with ⟨place,first,member,within,same,_,order⟩ | gone
    · cases place with
      | todo =>
        rw [read] at member
        rcases List.mem_cons.mp member with rfl | later
        · exact Nat.lt_irrefl _ order
        · exact Nat.lt_asymm order ((List.pairwise_cons.mp sorted).1 first later)
      | _ => exact within.elim
    · exact gone.elim

theorem fits_allowed {action : Action τ ι α} (fit : fits keys size state action) : allowed False True state action := by
  cases action with
  | commit writer => exact fit
  | count reads | copyBatch reads => exact fun _ => trivial
  | _ => trivial

-- The condition at work: what holds of every state, and that none of them is one where a key was violated.
def Kept (keys : List (α → Option κ)) (state : State τ ι α) : Prop :=
  Sound False True state ∧ Apart keys state ∧ state.phase ≠ .violated

omit [LinearOrder ι] [DecidableEq τ] in
theorem running_live (running : state.phase.ended = false) (traced : state.phase.traced = true) : live state.phase = true := by
  cases phase : state.phase with
  | absent => rw [phase] at traced; cases traced
  | violated => rw [phase] at running; cases running
  | stopped => rw [phase] at running; cases running
  | _ => rfl

omit [LinearOrder ι] [DecidableEq τ] in
theorem untraced_live (quiet : state.phase.traced = false) : live state.phase = false := by
  cases phase : live state.phase with
  | false => rfl
  | true => cases quiet.symm.trans (live_traced phase)

theorem write_step (kept : Kept keys state) (moves : step keys size state (.write writer change) = some later) :
    Apart keys later ∧ later.phase ≠ .violated := by
  obtain ⟨sound,apart,clear⟩ := kept
  simp only [step] at moves
  split at moves
  · next allowed =>
    simp only [Bool.and_eq_true,Bool.not_eq_true',List.all_eq_true,Bool.or_eq_true,decide_eq_true_eq] at allowed
    obtain ⟨⟨⟨running,_⟩,checked⟩,free⟩ := allowed
    split at moves
    · next traced =>
      cases Option.some.inj moves
      exact ⟨written_apart sound apart (running_live running traced) checked free,clear⟩
    · next untraced =>
      cases Option.some.inj moves
      have quiet := untraced_live (Bool.not_eq_true _ ▸ untraced)
      refine ⟨⟨apart.unique,write_views apart checked _ _,write_locks apart free _,apart.copied,fun alive => ?_,fun alive => ?_,fun alive => ?_⟩,clear⟩
      all_goals cases quiet.symm.trans alive
  · cases moves

theorem commit_step (kept : Kept keys state) (fit : fits keys size state (.commit writer)) :
    Apart keys (committed state writer) := by
  obtain ⟨sound,apart,_⟩ := kept
  cases alive : live state.phase with
  | true => exact commit_apart sound apart alive (fit (live_traced alive))
  | false =>
    refine ⟨apart.views writer _ (List.prefix_refl _),commit_views apart,fun one first two second =>
      apart.locks one (mem_others.mp first).1 two (mem_others.mp second).1,apart.copied,fun wrong => ?_,fun wrong => ?_,fun wrong => ?_⟩
    all_goals cases alive.symm.trans wrong

theorem rollback_step (kept : Kept keys state) (running : state.phase.ended = false) (mark : Nat) : Apart keys { state with
    writes := state.writes.take mark ++ (state.writes.drop mark).filter fun write => write.writer ≠ writer } := by
  obtain ⟨sound,apart,_⟩ := kept
  have whole : state.writes.take mark ++ state.writes.drop mark = state.writes := List.take_append_drop ..
  refine rollback_apart apart (((List.Sublist.refl _).append List.filter_sublist).trans (by rw [whole])) (fun owner => ?_)
    fun write member other listed same entry first equal also order => ?_
  · have own : state.own owner = (state.writes.take mark).filter (fun write => write.writer = owner) ++
        (state.writes.drop mark).filter fun write => write.writer = owner := by
      rw [← List.filter_append,whole]
      rfl
    rw [own]
    unfold State.own
    rw [List.filter_append,List.filter_filter]
    by_cases rolled : owner = writer
    · have none_left : (state.writes.drop mark).filter (fun write => decide (write.writer = owner) && decide (write.writer ≠ writer)) = [] :=
        List.filter_eq_nil_iff.mpr fun write _ => by simp [rolled]
      rw [none_left,List.append_nil]
      exact List.prefix_append _ _
    · have all_left : (state.writes.drop mark).filter (fun write => decide (write.writer = owner) && decide (write.writer ≠ writer)) =
          (state.writes.drop mark).filter fun write => write.writer = owner := by
        refine List.filter_congr fun write _ => ?_
        by_cases own : write.writer = owner
        · simp [own,rolled]
        · simp [own]
      simp only [all_left,List.prefix_refl]
  · cases traced : state.phase.traced with
    | false =>
      rw [sound.untraced traced other listed] at also
      cases also
    | true =>
      have log := sound.log (running_live running traced)
      rw [← whole] at listed
      rcases List.mem_append.mp listed with front | back
      · exact List.mem_append_left _ front
      · by_cases rolled : other.writer = writer
        · have kept_front : write ∈ state.writes.take mark := by
            rcases List.mem_append.mp member with there | behind
            · exact there
            · exact absurd (same.symm.trans rolled) (by simpa using (List.mem_filter.mp behind).2)
          have sequenced := log.sequenced
          unfold State.logged at sequenced
          rw [← whole,List.filterMap_append] at sequenced
          have before := (List.pairwise_append.mp sequenced).2.2 entry (List.mem_filterMap.mpr ⟨write,kept_front,equal⟩) first
            (List.mem_filterMap.mpr ⟨other,back,also⟩)
          omega
        · exact List.mem_append_right _ (List.mem_filter.mpr ⟨back,by simpa using rolled⟩)

theorem step_kept (size : Nat) : Preserved (step keys size) (fits keys size) (Kept keys : State τ ι α → Prop) := by
  intro state action after kept fit moves
  have sound : Sound False True after := step_sound size state action after kept.1 (fits_allowed fit) moves
  suffices Apart keys after ∧ after.phase ≠ .violated from ⟨sound,this⟩
  have clear := kept.2.2
  cases action with
  | write writer change => exact write_step kept moves
  | commit writer =>
    simp only [step] at moves
    split at moves
    · cases moves
    · cases Option.some.inj moves
      exact ⟨commit_step kept fit,clear⟩
  | rollback writer mark =>
    simp only [step] at moves
    split at moves
    · cases moves
    · next running =>
      cases Option.some.inj moves
      exact ⟨rollback_step kept (by simpa using running) mark,clear⟩
  | createGhost =>
    simp only [step] at moves
    split at moves
    · next quiet =>
      cases Option.some.inj moves
      exact ⟨create_apart kept.2.1 quiet,fun wrong => by cases wrong⟩
    · cases moves
  | count reads =>
    simp only [step] at moves
    split at moves
    · next phase =>
      cases Option.some.inj moves
      have alive : live state.phase = true := by rw [phase]; rfl
      have before : plain state.phase = true := by rw [phase]; rfl
      have empty : ∀ row ∈ state.ghost, row ∈ state.copied := by
        intro row member
        have unreached : ¬ reached row.id state.phase := by rw [phase]; exact fun wrong => wrong.elim
        exact absurd rfl (find_none.mp ((kept.1.copy alive).ahead row.id unreached) row member)
      split
      · exact ⟨apart_still kept.2.1 alive _ _ _ (todo_plain before).symm (unread_plain before).symm (fun _ wrong => by cases wrong),fun wrong => by cases wrong⟩
      · exact ⟨apart_still kept.2.1 alive _ _ _ (todo_plain before).symm (unread_plain before).symm (fun _ _ => empty),fun wrong => by cases wrong⟩
    · cases moves
  | copyBatch reads =>
    simp only [step] at moves
    split at moves
    · next lastId phase =>
      have copy := kept.1.copy (by rw [phase]; rfl)
      have returned : (batch size reads lastId state.original).filter (fun row => (find state.ghost row.id).isNone) =
          batch size reads lastId state.original :=
        List.filter_eq_self.mpr fun row member => by rw [batch_new copy phase member]; rfl
      rw [returned,if_neg (by rw [batch_clear kept.1 kept.2.1 phase fit]; exact Bool.false_ne_true)] at moves
      cases Option.some.inj moves
      refine ⟨copy_apart kept.1 kept.2.1 phase fit,?_⟩
      simp only
      split <;> exact fun wrong => by cases wrong
    · cases moves
  | readChanges =>
    simp only [step] at moves
    split at moves
    · next pass phase =>
      cases Option.some.inj moves
      exact ⟨read_apart kept.2.1 phase,fun wrong => by cases wrong⟩
    · cases moves
  | replay =>
    simp only [step] at moves
    split at moves
    · next pass changes entry todo phase =>
      rw [if_neg (by rw [replay_clear kept.1 kept.2.1 phase]; exact Bool.false_ne_true)] at moves
      cases Option.some.inj moves
      exact ⟨replay_apart kept.1 kept.2.1 phase,fun wrong => by cases wrong⟩
    · cases moves
  | clear =>
    simp only [step] at moves
    split at moves
    · next pass changes phase =>
      cases Option.some.inj moves
      have alive : live state.phase = true := by rw [phase]; rfl
      have after : plain (pass.next : Phase ι α) = true ∧ (∀ lastId : Option ι, (pass.next : Phase ι α) ≠ .copying lastId) ∧
          (pass.next : Phase ι α) ≠ .violated := by
        cases pass <;> exact ⟨rfl,(fun _ wrong => by cases wrong),fun wrong => by cases wrong⟩
      have no_todo : todo state = [] := by
        unfold todo
        rw [phase]
      have same_unread : unread state = state.changelog.filter fun entry => entry.id ∉ changes.map Entry.id := by
        unfold unread
        rw [phase]
      exact ⟨apart_still kept.2.1 alive _ _ _ ((todo_plain after.1).trans no_todo.symm) ((unread_plain after.1).trans same_unread.symm)
        fun lastId wrong => absurd wrong (after.2.1 lastId),after.2.2⟩
    · cases moves
  | lock =>
    simp only [step] at moves
    split at moves
    · next phase quiet =>
      cases Option.some.inj moves
      have alive : live state.phase = true := by rw [phase]; rfl
      have before : plain state.phase = true := by rw [phase]; rfl
      exact ⟨apart_still kept.2.1 alive _ _ _ (todo_plain before).symm (unread_plain before).symm (fun _ wrong => by cases wrong),fun wrong => by cases wrong⟩
    · cases moves
  | swap =>
    simp only [step] at moves
    split at moves
    · next phase =>
      cases Option.some.inj moves
      have alive : live state.phase = true := by rw [phase]; rfl
      have before : plain state.phase = true := by rw [phase]; rfl
      split
      · exact ⟨apart_still kept.2.1 alive _ _ _ (todo_plain before).symm (unread_plain before).symm (fun _ wrong => by cases wrong),fun wrong => by cases wrong⟩
      · exact ⟨ended_apart kept.2.1 .stopped rfl _ _,fun wrong => by cases wrong⟩
    · cases moves
  | stop =>
    simp only [step] at moves
    split at moves
    · cases moves
    · cases Option.some.inj moves
      exact ⟨ended_apart kept.2.1 .stopped rfl _ _,fun wrong => by cases wrong⟩

theorem begun_apart (unique : ∀ one ∈ rows, ∀ two ∈ rows, one.id ≠ two.id → shares keys one.columns two.columns = false) :
    Apart keys (begun rows : State τ ι α) := by
  have original : Unique keys rows := fun one two first second found_one found_two apart_rows =>
    unique _ (find_mem found_one) _ (find_mem found_two) apart_rows
  refine ⟨original,fun writer kept sub => ?_,nofun,nofun,nofun,nofun,nofun⟩
  rw [show kept = [] from List.prefix_nil.mp sub]
  exact original

-- No INSERT of the copy and no upsert of the replay ends the run on a key of the ghost.
theorem keys_hold {actions : List (Action τ ι α)} (keyed : Keyed rows)
    (unique : ∀ one ∈ rows, ∀ two ∈ rows, one.id ≠ two.id → shares keys one.columns two.columns = false)
    (guarded : Guarded (step keys size) (fits keys size) (begun rows) actions)
    (path : run (step keys size) (begun rows) actions = some state) : state.phase ≠ .violated :=
  (run_preserves (step_kept size) ⟨begun_sound keyed,begun_apart unique,nofun⟩ guarded path).2.2

end

end

-- A unique number on two rows; the copy takes one row a batch.
def seats : List (Row Nat Nat) := [⟨1,10⟩,⟨2,20⟩]

def seatKeys : List (Nat → Option Nat) := [some]

-- Row 1 gives its number to row 2 between their batches.
def handedOver : List (Action Nat Nat Nat) :=
  [.createGhost,.count fun _ => true,.copyBatch fun _ => true,.write 7 (.update 1 ⟨1,30⟩),.write 7 (.update 2 ⟨2,10⟩),.commit 7,
    .copyBatch fun _ => true]

theorem moved_value_violates : ¬ ∀ (actions : List (Action Nat Nat Nat)) (state : State Nat Nat Nat),
    run (step seatKeys 1) (begun seats) actions = some state → state.phase ≠ .violated :=
  fun claim => claim handedOver _ rfl rfl

-- The number moves between two rows both copied before.
def handedOverLater : List (Action Nat Nat Nat) :=
  [.createGhost,.count fun _ => true,.copyBatch fun _ => true,.write 7 (.update 1 ⟨1,30⟩),.write 7 (.update 2 ⟨2,10⟩),.commit 7,
    .readChanges,.replay,.replay,.clear,.readChanges,.clear,.lock,.readChanges,.clear,.swap]

theorem keys_hold_later : ∃ state : State Nat Nat Nat, run (step seatKeys 10) (begun seats) handedOverLater = some state ∧
    state.ghost = [⟨2,10⟩,⟨1,30⟩] ∧ state.phase ≠ .violated := by
  have guarded : Guarded (step seatKeys 10) (fits seatKeys 10) (begun seats : State Nat Nat Nat) handedOverLater := by
    refine guarded_cons trivial rfl (guarded_cons trivial rfl (guarded_cons (fun _ _ _ _ => ⟨nofun,nofun⟩) rfl (guarded_cons trivial rfl
      (guarded_cons trivial rfl (guarded_cons ?_ rfl (guarded_of_each ?_))))))
    · intro _ write member id leaves _
      have listed : write ∈ [(⟨7,.update 1 ⟨1,30⟩,some (captured 1 (.update 1 ⟨1,30⟩))⟩ : Write Nat Nat Nat),
          ⟨7,.update 2 ⟨2,10⟩,some (captured 2 (.update 2 ⟨2,10⟩))⟩] := (List.mem_filter.mp member).1
      have named : write.change = .update 1 ⟨1,30⟩ ∨ write.change = .update 2 ⟨2,10⟩ := by
        rcases List.mem_cons.mp listed with rfl | second
        · exact .inl rfl
        · rw [List.mem_singleton.mp second]
          exact .inr rfl
      rcases named with same | same <;> rw [same] at leaves <;> exact leaves.2 leaves.1
    · intro action member state
      cases action with
      | commit writer => simp at member
      | copyBatch reads => simp at member
      | _ => trivial
  exact ⟨_,rfl,rfl,keys_hold (show (seats.map Row.id).Nodup by decide) (by decide) guarded rfl⟩

end Zveltio.GhostKeys
