import Zveltio.Runs
import Mathlib.Data.List.Infix
import Mathlib.Data.List.Nodup
namespace Zveltio.ExtensionMigrations
open Runs

structure Migration (ν : Type u) (σ : Type v) where
  name : ν
  up : List σ
  down : Option String
  transactional : Bool
  deriving DecidableEq

-- One extension's migrations, each file under a name of its own.
structure Chain (ν : Type u) (σ : Type v) where
  migrations : List (Migration ν σ)
  distinct : (migrations.map Migration.name).Nodup

structure Row (ν : Type u) where
  name : ν
  down : Option String

structure Segment (ν : Type u) (σ : Type v) where
  transactional : Bool
  items : List (Migration ν σ)

-- What one replica is doing in runExtensionMigrations.
inductive Phase (ν : Type u) (σ : Type v) where
  | idle
  | reading (todo pending : List (Migration ν σ))
  | waiting (rest : List (Segment ν σ))
  | locked (items : List (Migration ν σ)) (rest : List (Segment ν σ))
  | transaction (todo : List (Migration ν σ)) (left : Option (List σ)) (done : List ν) (rows : List (Row ν)) (log : List (ν × σ))
      (rest : List (Segment ν σ))
  | pinned (migration : Migration ν σ) (items : List (Migration ν σ)) (rest : List (Segment ν σ))
  | session (migration : Migration ν σ) (left : List σ) (items : List (Migration ν σ)) (rest : List (Segment ν σ))

-- rows is zv_migrations; effects is every statement that took effect, in order.
structure State (ρ : Type w) (ν : Type u) (σ : Type v) where
  rows : List (Row ν)
  effects : List (ν × σ)
  lock : Option ρ
  phase : ρ → Phase ν σ

-- A replica takes its next step, or ends: a failing statement, a lock timeout, a refusal, a crash.
inductive Move where
  | advance
  | stop

section
variable {ρ : Type w} {ν : Type u} {σ : Type v} [DecidableEq ρ] [DecidableEq ν]

def Migration.row (migration : Migration ν σ) : Row ν := ⟨migration.name,migration.down⟩

def Migration.ran (migration : Migration ν σ) : List (ν × σ) := migration.up.map fun statement => (migration.name,statement)

def State.names (state : State ρ ν σ) : List ν := state.rows.map Row.name

-- Consecutive transactional migrations share a segment.
def addToSegments (segments : List (Segment ν σ)) (migration : Migration ν σ) : List (Segment ν σ) :=
  match segments.getLast? with
  | some last =>
    if last.transactional && migration.transactional then segments.dropLast ++ [⟨last.transactional,last.items ++ [migration]⟩]
    else segments ++ [⟨migration.transactional,[migration]⟩]
  | none => segments ++ [⟨migration.transactional,[migration]⟩]

def toSegments (pending : List (Migration ν σ)) : List (Segment ν σ) := pending.foldl addToSegments []

def State.put (state : State ρ ν σ) (replica : ρ) (phase : Phase ν σ) : State ρ ν σ :=
  { state with phase := Function.update state.phase replica phase }

def State.take (state : State ρ ν σ) (replica : ρ) (phase : Phase ν σ) : Option (State ρ ν σ) :=
  if state.lock = none then some { state.put replica phase with lock := some replica } else none

def State.release (state : State ρ ν σ) (replica : ρ) (phase : Phase ν σ) : State ρ ν σ := { state.put replica phase with lock := none }

-- The step from each phase: pendingExtensionMigrations reads one name after another without the lock, runSegments takes
-- the lock for each segment and reads the names again under it.
def advance (chain : Chain ν σ) (state : State ρ ν σ) (replica : ρ) : Option (State ρ ν σ) := match state.phase replica with
  | .idle => some (state.put replica (.reading chain.migrations []))
  | .reading [] pending => some (state.put replica (.waiting (toSegments pending)))
  | .reading (migration::todo) pending =>
    some (state.put replica (.reading todo (if migration.name ∈ state.names then pending else pending ++ [migration])))
  | .waiting [] => some (state.put replica .idle)
  | .waiting (⟨_,[]⟩::rest) => some (state.put replica (.waiting rest))
  | .waiting (⟨true,migration::items⟩::rest) => state.take replica (.locked (migration::items) rest)
  | .waiting (⟨false,migration::items⟩::rest) => state.take replica (.pinned migration items rest)
  | .locked items rest =>
    some (state.put replica (.transaction items none ((items.map Migration.name).filter (· ∈ state.names)) [] [] rest))
  | .transaction [] _ _ rows log rest =>
    some { state.release replica (.waiting rest) with rows := state.rows ++ rows, effects := state.effects ++ log }
  | .transaction (migration::todo) none done rows log rest =>
    some (state.put replica (if migration.name ∈ done then .transaction todo none done rows log rest
      else .transaction (migration::todo) (some migration.up) done rows log rest))
  | .transaction (migration::todo) (some (statement::left)) done rows log rest =>
    some (state.put replica (.transaction (migration::todo) (some left) done rows (log ++ [(migration.name,statement)]) rest))
  | .transaction (migration::todo) (some []) done rows log rest =>
    if migration.name ∈ state.names ++ rows.map Row.name then none
    else some (state.put replica (.transaction todo none done (rows ++ [migration.row]) log rest))
  | .pinned migration items rest =>
    if migration.name ∈ state.names then some (state.release replica (.waiting (⟨false,items⟩::rest)))
    else some (state.put replica (.session migration migration.up items rest))
  | .session migration (statement::left) items rest =>
    some { state.put replica (.session migration left items rest) with effects := state.effects ++ [(migration.name,statement)] }
  | .session migration [] items rest =>
    if migration.name ∈ state.names then none
    else some { state.release replica (.waiting (⟨false,items⟩::rest)) with rows := state.rows ++ [migration.row] }

-- What a transaction had written goes with it; what a session ran stays.
def stop (state : State ρ ν σ) (replica : ρ) : State ρ ν σ :=
  if state.lock = some replica then state.release replica .idle else state.put replica .idle

def step (chain : Chain ν σ) (state : State ρ ν σ) : ρ × Move → Option (State ρ ν σ)
  | (replica,.advance) => advance chain state replica
  | (replica,.stop) => some (stop state replica)

-- A database on which a first part of the chain was installed, and no replica at work.
def begun (made : List (Migration ν σ)) : State ρ ν σ := ⟨made.map Migration.row,made.flatMap Migration.ran,none,fun _ => .idle⟩

end

section
variable {ν : Type u} {σ : Type v}

def flat (rest : List (Segment ν σ)) : List (Migration ν σ) := rest.flatMap Segment.items

-- A segment holds migrations of one kind.
def WellCut (rest : List (Segment ν σ)) : Prop := ∀ segment ∈ rest, ∀ migration ∈ segment.items, migration.transactional = segment.transactional

theorem flat_added (segments : List (Segment ν σ)) (migration : Migration ν σ) :
    flat (addToSegments segments migration) = flat segments ++ [migration] := by
  unfold addToSegments
  cases last : segments.getLast? with
  | none => simp [flat]
  | some segment =>
    dsimp only
    split
    · have whole := List.dropLast_append_getLast? segment last
      rw [← whole]
      simp [flat]
    · simp [flat]

theorem wellCut_added {segments : List (Segment ν σ)} (cut : WellCut segments) (migration : Migration ν σ) :
    WellCut (addToSegments segments migration) := by
  have alone : WellCut (segments ++ [⟨migration.transactional,[migration]⟩]) := by
    intro segment member other inside
    rcases List.mem_append.mp member with old | new
    · exact cut segment old other inside
    · cases List.mem_singleton.mp new
      cases List.mem_singleton.mp inside
      rfl
  unfold addToSegments
  cases last : segments.getLast? with
  | none => exact alone
  | some segment =>
    dsimp only
    split
    · next both =>
      obtain ⟨first,second⟩ := (Bool.and_eq_true ..).mp both
      intro other member one inside
      rcases List.mem_append.mp member with old | new
      · exact cut other (List.mem_of_mem_dropLast old) one inside
      · cases List.mem_singleton.mp new
        rcases List.mem_append.mp inside with held | added
        · exact cut segment (List.mem_of_getLast? last) one held
        · cases List.mem_singleton.mp added
          exact second.trans first.symm
    · exact alone

theorem toSegments_cut (pending : List (Migration ν σ)) : flat (toSegments pending) = pending ∧ WellCut (toSegments pending) := by
  have each : ∀ (pending : List (Migration ν σ)) (segments : List (Segment ν σ)), WellCut segments →
      flat (pending.foldl addToSegments segments) = flat segments ++ pending ∧ WellCut (pending.foldl addToSegments segments) := by
    intro pending
    induction pending with
    | nil => exact fun segments cut => ⟨(List.append_nil _).symm,cut⟩
    | cons migration rest ih =>
      intro segments cut
      obtain ⟨items,later⟩ := ih _ (wellCut_added cut migration)
      refine ⟨?_,later⟩
      rw [List.foldl_cons,items,flat_added,List.append_assoc]
      rfl
  exact each pending [] fun segment member => nomatch member

-- What is left of the chain, in its order, once made is on record.
def Ahead (chain : Chain ν σ) (made left : List (Migration ν σ)) : Prop :=
  List.Sublist left chain.migrations ∧ ∀ migration ∈ chain.migrations, migration ∉ left → migration ∈ made

theorem Chain.nodup (chain : Chain ν σ) : chain.migrations.Nodup := List.Nodup.of_map _ chain.distinct

theorem Chain.same {chain : Chain ν σ} {one two : Migration ν σ} (left : one ∈ chain.migrations) (right : two ∈ chain.migrations)
    (named : one.name = two.name) : one = two := List.inj_on_of_nodup_map chain.distinct left right named

theorem mem_names {chain : Chain ν σ} {made : List (Migration ν σ)} {migration : Migration ν σ} (inside : ∀ one ∈ made, one ∈ chain.migrations)
    (listed : migration ∈ chain.migrations) : migration.name ∈ (made.map Migration.row).map Row.name ↔ migration ∈ made := by
  rw [List.map_map,List.mem_map]
  constructor
  · intro found
    obtain ⟨one,member,named⟩ := found
    exact Chain.same (inside one member) listed named ▸ member
  · exact fun member => ⟨migration,member,rfl⟩

theorem ahead_head {chain : Chain ν σ} (ahead : Ahead chain made (migration::left)) :
    ∃ pre post, chain.migrations = pre ++ migration::post ∧ ∀ earlier ∈ pre, earlier ∈ made := by
  obtain ⟨pre,post,equal⟩ := List.append_of_mem (ahead.1.subset (List.mem_cons_self ..))
  refine ⟨pre,post,equal,fun earlier member => ahead.2 earlier (equal ▸ List.mem_append_left _ member) fun again => ?_⟩
  have nodup := chain.nodup
  rw [equal,List.nodup_append] at nodup
  obtain ⟨one,two,parts,first,second⟩ := List.sublist_append_iff.mp (equal ▸ ahead.1)
  cases one with
  | nil =>
    rw [List.nil_append] at parts
    exact nodup.2.2 earlier member earlier (second.subset (parts ▸ again)) rfl
  | cons head rest =>
    cases (List.cons.inj parts).1
    exact nodup.2.2 _ (first.subset (List.mem_cons_self ..)) _ (List.mem_cons_self ..) rfl

theorem ahead_unmade {chain : Chain ν σ} (ahead : Ahead chain made (migration::left)) (other : earlier ∈ left) : earlier ≠ migration := by
  have nodup := chain.nodup.sublist ahead.1
  intro same
  exact (List.nodup_cons.mp nodup).1 (same ▸ other)

theorem prefix_extended {chain : Chain ν σ} (before : made <+: chain.migrations) (ahead : Ahead chain made (migration::left))
    (fresh : migration ∉ made) : made ++ [migration] <+: chain.migrations := by
  obtain ⟨pre,post,equal,earlier⟩ := ahead_head ahead
  have nodup := chain.nodup
  have same : made = pre := by
    rcases List.prefix_or_prefix_of_prefix before ⟨migration::post,equal.symm⟩ with inner | outer
    · obtain ⟨more,whole⟩ := inner
      cases more with
      | nil => rw [← whole,List.append_nil]
      | cons next more =>
        have again := earlier next (by rw [← whole]; simp)
        rw [equal,← whole,List.append_assoc,List.nodup_append] at nodup
        exact absurd rfl (nodup.2.2 next again next (by simp))
    · obtain ⟨more,whole⟩ := outer
      cases more with
      | nil => rw [← whole,List.append_nil]
      | cons next more =>
        obtain ⟨tail,long⟩ := before
        have heads : migration = next := by
          rw [equal,← whole,List.append_assoc] at long
          exact (List.cons.inj (List.append_cancel_left long)).1.symm
        exact absurd (by rw [← whole,heads]; simp) fresh
  rw [same,equal]
  exact ⟨post,by simp⟩

theorem ahead_made {chain : Chain ν σ} (ahead : Ahead chain made (migration::left)) (inside : ∀ one, one ∈ made ∨ one = migration → one ∈ after) :
    Ahead chain after left := by
  refine ⟨(List.sublist_cons_self ..).trans ahead.1,fun one listed absent => inside one ?_⟩
  by_cases same : one = migration
  · exact .inr same
  · exact .inl (ahead.2 one listed (by simp [same,absent]))

theorem ahead_grown {chain : Chain ν σ} (ahead : Ahead chain made left) (grown : ∀ one ∈ made, one ∈ after) : Ahead chain after left :=
  ⟨ahead.1,fun one listed absent => grown one (ahead.2 one listed absent)⟩

theorem ran_named {one : Migration ν σ} (member : effect ∈ one.ran) : effect.1 = one.name := by
  obtain ⟨statement,_,rfl⟩ := List.mem_map.mp member
  rfl

end

section
variable {ρ : Type w} {ν : Type u} {σ : Type v} [DecidableEq ρ] [DecidableEq ν]

def executed (effects : List (ν × σ)) (name : ν) : List (ν × σ) := effects.filter fun effect => effect.1 = name

-- The statements of the first migration left that ran so far.
def Partway (todo : List (Migration ν σ)) (left : Option (List σ)) (made : List (Migration ν σ)) (part : List (ν × σ)) : Prop :=
  match left with
  | none => part = []
  | some left => ∃ migration rest before, todo = migration::rest ∧ migration ∉ made ∧ migration.up = before ++ left ∧
    part = before.map fun statement => (migration.name,statement)

-- What a replica knows, made being the migrations on record.
def Sound (chain : Chain ν σ) (made : List (Migration ν σ)) (effects : List (ν × σ)) : Phase ν σ → Prop
  | .idle => True
  | .reading todo pending => ∃ seen, chain.migrations = seen ++ todo ∧ List.Sublist pending seen ∧ ∀ one ∈ seen, one ∉ pending → one ∈ made
  | .waiting rest => Ahead chain made (flat rest) ∧ WellCut rest
  | .locked items rest => Ahead chain made (items ++ flat rest) ∧ WellCut (⟨true,items⟩::rest)
  | .transaction todo left done rows log rest => ∃ fresh part, rows = fresh.map Migration.row ∧ log = fresh.flatMap Migration.ran ++ part ∧
    Ahead chain (made ++ fresh) (todo ++ flat rest) ∧ WellCut (⟨true,todo⟩::rest) ∧ made ++ fresh <+: chain.migrations ∧
    (∀ one ∈ fresh, one.transactional = true) ∧ (∀ one ∈ todo, one ∉ fresh ∧ (one.name ∈ done ↔ one ∈ made)) ∧ Partway todo left made part
  | .pinned migration items rest => Ahead chain made (migration::(items ++ flat rest)) ∧ WellCut (⟨false,migration::items⟩::rest)
  | .session migration left items rest => Ahead chain made (migration::(items ++ flat rest)) ∧ WellCut (⟨false,migration::items⟩::rest) ∧
    migration ∉ made ∧ ∃ before, migration.up = before ++ left ∧
      (before.map fun statement => (migration.name,statement)) <:+ executed effects migration.name

def Phase.holds : Phase ν σ → Bool
  | .locked .. | .transaction .. | .pinned .. | .session .. => true
  | _ => false

-- Which migrations are on record, and what took effect because of it.
structure Records (chain : Chain ν σ) (made : List (Migration ν σ)) (rows : List (Row ν)) (effects : List (ν × σ)) : Prop where
  recorded : rows = made.map Migration.row
  ordered : made <+: chain.migrations
  whole : ∀ one ∈ made, one.transactional = true → executed effects one.name = one.ran
  nothing : ∀ one ∈ chain.migrations, one.transactional = true → one ∉ made → executed effects one.name = []
  complete : ∀ one ∈ made, one.transactional = false → one.ran <:+ executed effects one.name
  earlier : ∀ effect ∈ effects, ∃ pre one post, chain.migrations = pre ++ one::post ∧ effect.1 = one.name ∧ ∀ first ∈ pre, first ∈ made

structure Holds (chain : Chain ν σ) (made : List (Migration ν σ)) (state : State ρ ν σ) : Prop where
  records : Records chain made state.rows state.effects
  alone : ∀ replica, (state.phase replica).holds = true → state.lock = some replica
  sound : ∀ replica, Sound chain made state.effects (state.phase replica)

theorem sound_grown {chain : Chain ν σ} {phase : Phase ν σ} (sound : Sound chain made effects phase) (free : phase.holds = false)
    (grown : ∀ one ∈ made, one ∈ after) : Sound chain after later phase := by
  cases phase with
  | idle => trivial
  | reading todo pending =>
    obtain ⟨seen,equal,sub,covered⟩ := sound
    exact ⟨seen,equal,sub,fun one member absent => grown one (covered one member absent)⟩
  | waiting rest => exact ⟨ahead_grown sound.1 grown,sound.2⟩
  | _ => cases free

omit [DecidableEq ν] in
theorem put_phase (state : State ρ ν σ) (replica other : ρ) (phase : Phase ν σ) :
    (state.put replica phase).phase other = if other = replica then phase else state.phase other := by
  unfold State.put
  by_cases same : other = replica
  · subst same
    simp
  · simp [same]

theorem put_holds {chain : Chain ν σ} {state : State ρ ν σ} (holds : Holds chain made state) (sound : Sound chain made state.effects phase)
    (alone : phase.holds = true → state.lock = some replica) : Holds chain made (state.put replica phase) := by
  refine ⟨holds.records,fun other held => ?_,fun other => ?_⟩
  · rw [put_phase] at held
    split at held
    · next same => rw [same]; exact alone held
    · exact holds.alone other held
  · rw [put_phase]
    split
    · exact sound
    · exact holds.sound other

omit [DecidableEq ρ] in
theorem not_held {chain : Chain ν σ} {state : State ρ ν σ} (holds : Holds chain made state) (other : ρ) (apart : state.lock ≠ some other) :
    (state.phase other).holds = false := by
  cases held : (state.phase other).holds with
  | false => rfl
  | true => exact absurd (holds.alone other held) apart

theorem release_holds {chain : Chain ν σ} {state : State ρ ν σ} (holds : Holds chain made state) (mine : state.lock = some replica)
    (records : Records chain after rows effects) (grown : ∀ one ∈ made, one ∈ after) (sound : Sound chain after effects phase)
    (free : phase.holds = false) :
    Holds chain after { state.release replica phase with rows := rows, effects := effects } := by
  have kept (other : ρ) (apart : other ≠ replica) : (state.phase other).holds = false :=
    not_held holds other fun wrong => apart (Option.some.inj (mine.symm.trans wrong)).symm
  refine ⟨records,fun other held => ?_,fun other => ?_⟩
  · have here : ((state.put replica phase).phase other).holds = true := held
    rw [put_phase] at here
    split at here
    · rw [free] at here
      cases here
    · next apart => rw [kept other apart] at here; cases here
  · show Sound chain after effects ((state.put replica phase).phase other)
    rw [put_phase]
    split
    · exact sound
    · next apart => exact sound_grown (holds.sound other) (kept other apart) grown

theorem take_holds {chain : Chain ν σ} {state next : State ρ ν σ} (holds : Holds chain made state) (sound : Sound chain made state.effects phase)
    (taken : state.take replica phase = some next) : Holds chain made next := by
  unfold State.take at taken
  split at taken
  · next free =>
    cases Option.some.inj taken
    refine ⟨holds.records,fun other held => ?_,fun other => ?_⟩
    · have here : ((state.put replica phase).phase other).holds = true := held
      rw [put_phase] at here
      split at here
      · next same => rw [same]
      · rw [not_held holds other (by rw [free]; exact nofun)] at here
        cases here
    · show Sound chain made state.effects ((state.put replica phase).phase other)
      rw [put_phase]
      split
      · exact sound
      · exact holds.sound other
  · cases taken

theorem executed_append (first second : List (ν × σ)) (name : ν) :
    executed (first ++ second) name = executed first name ++ executed second name := List.filter_append ..

theorem executed_none {effects : List (ν × σ)} (apart : ∀ effect ∈ effects, effect.1 ≠ name) : executed effects name = [] :=
  List.filter_eq_nil_iff.mpr fun effect member => by simpa using apart effect member

theorem executed_own (name : ν) (statements : List σ) :
    executed (statements.map fun statement => (name,statement)) name = statements.map fun statement => (name,statement) :=
  List.filter_eq_self.mpr fun effect member => by
    obtain ⟨statement,_,rfl⟩ := List.mem_map.mp member
    exact decide_eq_true rfl

theorem executed_fresh {chain : Chain ν σ} {fresh : List (Migration ν σ)} (inside : ∀ one ∈ fresh, one ∈ chain.migrations) (nodup : fresh.Nodup)
    (listed : one ∈ chain.migrations) :
    (one ∈ fresh → executed (fresh.flatMap Migration.ran) one.name = one.ran) ∧
      (one ∉ fresh → executed (fresh.flatMap Migration.ran) one.name = []) := by
  have others (rest : List (Migration ν σ)) (held : ∀ other ∈ rest, other ∈ chain.migrations) (absent : one ∉ rest) :
      executed (rest.flatMap Migration.ran) one.name = [] := by
    refine executed_none fun effect member named => ?_
    obtain ⟨other,other_listed,ran⟩ := List.mem_flatMap.mp member
    have same := Chain.same (held other other_listed) listed ((ran_named ran).symm.trans named)
    exact absent (same ▸ other_listed)
  refine ⟨fun member => ?_,others fresh inside⟩
  obtain ⟨before,after,equal⟩ := List.append_of_mem member
  rw [equal,List.nodup_append] at nodup
  have first : one ∉ before := fun wrong => nodup.2.2 one wrong one (List.mem_cons_self ..) rfl
  have second : one ∉ after := (List.nodup_cons.mp nodup.2.1).1
  have held (other : Migration ν σ) (there : other ∈ before ∨ other ∈ after) : other ∈ chain.migrations :=
    inside other (by rw [equal]; rcases there with there | there <;> simp [there])
  rw [equal,List.flatMap_append,List.flatMap_cons,executed_append,executed_append,others before (fun other there => held other (.inl there)) first,
    others after (fun other there => held other (.inr there)) second,List.nil_append,List.append_nil]
  exact executed_own one.name one.up

theorem records_commit {chain : Chain ν σ} (records : Records chain made rows effects) (ordered : made ++ fresh <+: chain.migrations)
    (transactional : ∀ one ∈ fresh, one.transactional = true) :
    Records chain (made ++ fresh) (rows ++ fresh.map Migration.row) (effects ++ fresh.flatMap Migration.ran) := by
  have nodup := chain.nodup.sublist ordered.sublist
  have inside (one : Migration ν σ) (member : one ∈ made ++ fresh) : one ∈ chain.migrations := ordered.subset member
  have apart {one : Migration ν σ} (first : one ∈ made) : one ∉ fresh := fun second =>
    (List.nodup_append.mp nodup).2.2 one first one second rfl
  have own_fresh : ∀ one ∈ fresh, one ∈ chain.migrations := fun one member => inside one (List.mem_append_right _ member)
  have added (one : Migration ν σ) (listed : one ∈ chain.migrations) :=
    executed_fresh own_fresh (List.nodup_append.mp nodup).2.1 listed
  refine ⟨?_,ordered,fun one member own => ?_,fun one listed own absent => ?_,fun one member own => ?_,fun effect member => ?_⟩
  · rw [records.recorded,List.map_append]
  · rw [executed_append]
    rcases List.mem_append.mp member with old | new
    · rw [records.whole one old own,(added one (inside one member)).2 (apart old),List.append_nil]
    · rw [records.nothing one (inside one member) own fun wrong => apart wrong new,(added one (inside one member)).1 new,List.nil_append]
  · have absent_fresh : one ∉ fresh := fun wrong => absent (List.mem_append_right _ wrong)
    rw [executed_append,records.nothing one listed own fun wrong => absent (List.mem_append_left _ wrong),(added one listed).2 absent_fresh]
    rfl
  · rcases List.mem_append.mp member with old | new
    · rw [executed_append,(added one (inside one member)).2 (apart old),List.append_nil]
      exact records.complete one old own
    · rw [transactional one new] at own
      cases own
  · rcases List.mem_append.mp member with old | new
    · obtain ⟨pre,one,post,equal,named,first⟩ := records.earlier effect old
      exact ⟨pre,one,post,equal,named,fun other there => List.mem_append_left _ (first other there)⟩
    · obtain ⟨one,listed,ran⟩ := List.mem_flatMap.mp new
      obtain ⟨pre,post,equal⟩ := List.append_of_mem (List.mem_append_right made listed)
      obtain ⟨tail,whole⟩ := ordered
      refine ⟨pre,one,post ++ tail,by rw [← whole,equal]; simp,ran_named ran,fun other there => ?_⟩
      rw [equal]
      exact List.mem_append_left _ there

theorem records_ran {chain : Chain ν σ} (records : Records chain made rows effects) (ahead : Ahead chain made (migration::left))
    (fresh : migration ∉ made) (own : migration.transactional = false) (statement : σ) :
    Records chain made rows (effects ++ [(migration.name,statement)]) := by
  have listed : migration ∈ chain.migrations := ahead.1.subset (List.mem_cons_self ..)
  have other {one : Migration ν σ} (member : one ∈ chain.migrations) (apart : one ≠ migration) :
      executed (effects ++ [(migration.name,statement)]) one.name = executed effects one.name := by
    have none_added : executed [(migration.name,statement)] one.name = [] := executed_none fun effect there named => by
      rw [List.mem_singleton.mp there] at named
      exact apart (Chain.same member listed named.symm)
    rw [executed_append,none_added,List.append_nil]
  have apart {one : Migration ν σ} (member : one ∈ made) : one ≠ migration := fun same => fresh (same ▸ member)
  have inside {one : Migration ν σ} (member : one ∈ made) : one ∈ chain.migrations := records.ordered.subset member
  refine ⟨records.recorded,records.ordered,fun one member kind => ?_,fun one member kind absent => ?_,fun one member kind => ?_,
    fun effect member => ?_⟩
  · rw [other (inside member) (apart member)]
    exact records.whole one member kind
  · rw [other member fun same => by rw [same,own] at kind; cases kind]
    exact records.nothing one member kind absent
  · rw [other (inside member) (apart member)]
    exact records.complete one member kind
  · rcases List.mem_append.mp member with old | new
    · exact records.earlier effect old
    · obtain ⟨pre,post,equal,first⟩ := ahead_head ahead
      rw [List.mem_singleton.mp new]
      exact ⟨pre,migration,post,equal,rfl,first⟩

theorem records_marked {chain : Chain ν σ} (records : Records chain made rows effects) (ahead : Ahead chain made (migration::left))
    (fresh : migration ∉ made) (own : migration.transactional = false) (all : migration.ran <:+ executed effects migration.name) :
    Records chain (made ++ [migration]) (rows ++ [migration.row]) effects := by
  refine ⟨?_,prefix_extended records.ordered ahead fresh,fun one member kind => ?_,fun one listed kind absent => ?_,fun one member kind => ?_,
    fun effect member => ?_⟩
  · rw [records.recorded,List.map_append]
    rfl
  · rcases List.mem_append.mp member with old | new
    · exact records.whole one old kind
    · rw [List.mem_singleton.mp new,own] at kind
      cases kind
  · exact records.nothing one listed kind fun wrong => absent (List.mem_append_left _ wrong)
  · rcases List.mem_append.mp member with old | new
    · exact records.complete one old kind
    · rw [List.mem_singleton.mp new]
      exact all
  · obtain ⟨pre,one,post,equal,named,first⟩ := records.earlier effect member
    exact ⟨pre,one,post,equal,named,fun other there => List.mem_append_left _ (first other there)⟩

omit [DecidableEq ρ] in
theorem holds_names {chain : Chain ν σ} {state : State ρ ν σ} (holds : Holds chain made state) (listed : migration ∈ chain.migrations) :
    migration.name ∈ state.names ↔ migration ∈ made := by
  unfold State.names
  rw [holds.records.recorded]
  exact mem_names (fun one member => holds.records.ordered.subset member) listed

theorem reading_holds {chain : Chain ν σ} {state : State ρ ν σ} (holds : Holds chain made state)
    (phase : state.phase replica = .reading (migration::todo) pending) :
    Holds chain made (state.put replica (.reading todo (if migration.name ∈ state.names then pending else pending ++ [migration]))) := by
  have sound := holds.sound replica
  rw [phase] at sound
  obtain ⟨seen,equal,sub,covered⟩ := sound
  have listed : migration ∈ chain.migrations := by rw [equal]; simp
  have names := holds_names holds listed
  have longer : chain.migrations = (seen ++ [migration]) ++ todo := by rw [equal]; simp
  refine put_holds holds ⟨seen ++ [migration],longer,?_,fun one member absent => ?_⟩ nofun
  · split
    · exact sub.trans (List.sublist_append_left ..)
    · exact sub.append (List.Sublist.refl _)
  · rcases List.mem_append.mp member with old | new
    · refine covered one old fun wrong => absent ?_
      split
      · exact wrong
      · exact List.mem_append_left _ wrong
    · cases List.mem_singleton.mp new
      by_cases recorded : migration.name ∈ state.names
      · exact names.mp recorded
      · rw [if_neg recorded] at absent
        exact absurd (List.mem_append_right pending (List.mem_cons_self ..)) absent

omit [DecidableEq ν] in
theorem wellCut_tail {segment : Segment ν σ} (cut : WellCut (segment::rest)) : WellCut rest :=
  fun other member => cut other (List.mem_cons_of_mem _ member)

omit [DecidableEq ν] in
theorem wellCut_items {migration : Migration ν σ} (cut : WellCut (⟨kind,migration::items⟩::rest)) :
    WellCut (⟨kind,items⟩::rest) ∧ migration.transactional = kind := by
  refine ⟨fun segment member one inside => ?_,cut _ (List.mem_cons_self ..) migration (List.mem_cons_self ..)⟩
  rcases List.mem_cons.mp member with rfl | other
  · exact cut _ (List.mem_cons_self ..) one (List.mem_cons_of_mem _ inside)
  · exact cut segment (List.mem_cons_of_mem _ other) one inside

theorem transaction_holds {chain : Chain ν σ} {state next : State ρ ν σ} (holds : Holds chain made state)
    (phase : state.phase replica = .transaction todo left done rows log rest) (moved : advance chain state replica = some next) :
    ∃ after, (∀ one ∈ made, one ∈ after) ∧ Holds chain after next := by
  have sound := holds.sound replica
  have alone := holds.alone replica
  unfold advance at moved
  rw [phase] at moved sound alone
  obtain ⟨fresh,part,rows_there,log_there,ahead,cut,ordered,kind,named,partway⟩ := sound
  match todo,left with
  | [],left =>
    cases Option.some.inj moved
    have none_left : part = [] := by
      cases left with
      | none => exact partway
      | some left =>
        obtain ⟨migration,more,_,wrong,_⟩ := partway
        cases wrong
    rw [none_left,List.append_nil] at log_there
    refine ⟨made ++ fresh,fun _ member => List.mem_append_left _ member,?_⟩
    rw [rows_there,log_there]
    exact release_holds holds (alone rfl) (records_commit holds.records ordered kind) (fun _ member => List.mem_append_left _ member)
      ⟨ahead,wellCut_tail cut⟩ rfl
  | migration::todo,none =>
    cases Option.some.inj moved
    refine ⟨made,fun _ member => member,put_holds holds ?_ fun _ => alone rfl⟩
    obtain ⟨absent,recorded⟩ := named migration (List.mem_cons_self ..)
    split
    · next skipped =>
      have made_there := recorded.mp skipped
      refine ⟨fresh,part,rows_there,log_there,ahead_made ahead fun one there => ?_,(wellCut_items cut).1,ordered,kind,
        fun one member => named one (List.mem_cons_of_mem _ member),partway⟩
      rcases there with old | rfl
      · exact old
      · exact List.mem_append_left _ made_there
    · next unrecorded =>
      refine ⟨fresh,part,rows_there,log_there,ahead,cut,ordered,kind,named,migration,todo,[],rfl,?_,rfl,partway⟩
      exact fun wrong => unrecorded (recorded.mpr wrong)
  | migration::todo,some (statement::left) =>
    cases Option.some.inj moved
    refine ⟨made,fun _ member => member,put_holds holds ?_ fun _ => alone rfl⟩
    obtain ⟨one,more,before,same,absent,up,ran⟩ := partway
    cases same
    refine ⟨fresh,part ++ [(migration.name,statement)],rows_there,by rw [log_there,List.append_assoc],ahead,cut,ordered,kind,named,
      migration,todo,before ++ [statement],rfl,absent,by rw [up]; simp,?_⟩
    rw [ran,List.map_append]
    rfl
  | migration::todo,some [] =>
    dsimp only at moved
    split at moved
    · cases moved
    · cases Option.some.inj moved
      refine ⟨made,fun _ member => member,put_holds holds ?_ fun _ => alone rfl⟩
      obtain ⟨one,more,before,same,absent,up,ran⟩ := partway
      cases same
      obtain ⟨absent_fresh,_⟩ := named migration (List.mem_cons_self ..)
      have unmade : migration ∉ made ++ fresh := by
        rw [List.mem_append]
        exact fun wrong => wrong.elim absent absent_fresh
      refine ⟨fresh ++ [migration],[],?_,?_,?_,(wellCut_items cut).1,?_,fun other member => ?_,fun other member => ?_,rfl⟩
      · rw [rows_there,List.map_append]
        rfl
      · rw [log_there,ran,List.flatMap_append,List.flatMap_singleton,Migration.ran,up]
        simp
      · rw [← List.append_assoc]
        exact ahead_made ahead fun one there => by simpa only [List.mem_append,List.mem_singleton] using there
      · rw [← List.append_assoc]
        exact prefix_extended ordered ahead unmade
      · rcases List.mem_append.mp member with old | new
        · exact kind other old
        · rw [List.mem_singleton.mp new]
          exact (wellCut_items cut).2
      · have apart : other ≠ migration := ahead_unmade ahead (List.mem_append_left _ member)
        obtain ⟨first,second⟩ := named other (List.mem_cons_of_mem _ member)
        exact ⟨by simp [first,apart],second⟩

theorem session_holds {chain : Chain ν σ} {state next : State ρ ν σ} (holds : Holds chain made state)
    (phase : state.phase replica = .session migration left items rest) (moved : advance chain state replica = some next) :
    ∃ after, (∀ one ∈ made, one ∈ after) ∧ Holds chain after next := by
  have sound := holds.sound replica
  have alone := holds.alone replica
  unfold advance at moved
  rw [phase] at moved sound alone
  obtain ⟨ahead,cut,unmade,before,up,ran⟩ := sound
  have own := (wellCut_items cut).2
  cases left with
  | nil =>
    dsimp only at moved
    split at moved
    · cases moved
    · cases Option.some.inj moved
      refine ⟨made ++ [migration],fun _ member => List.mem_append_left _ member,?_⟩
      rw [List.append_nil] at up
      have all : migration.ran <:+ executed state.effects migration.name := by
        rw [Migration.ran,up]
        exact ran
      refine release_holds holds (alone rfl) (records_marked holds.records ahead unmade own all) (fun _ member => List.mem_append_left _ member)
        ⟨ahead_made ahead fun one there => ?_,(wellCut_items cut).1⟩ rfl
      simpa using there
  | cons statement left =>
    cases Option.some.inj moved
    refine ⟨made,fun _ member => member,records_ran holds.records ahead unmade own statement,fun other held => ?_,fun other => ?_⟩
    · have here : ((state.put replica (.session migration left items rest)).phase other).holds = true := held
      rw [put_phase] at here
      split at here
      · next same => rw [same]; exact alone rfl
      · exact holds.alone other here
    · show Sound chain made (state.effects ++ [(migration.name,statement)]) ((state.put replica _).phase other)
      rw [put_phase]
      split
      · refine ⟨ahead,cut,unmade,before ++ [statement],by rw [up]; simp,?_⟩
        rw [executed_append,List.map_append]
        have last : executed [(migration.name,statement)] migration.name = [(migration.name,statement)] := executed_own _ [statement]
        rw [last]
        obtain ⟨more,whole⟩ := ran
        exact ⟨more,by rw [← whole]; simp⟩
      · next apart =>
        refine sound_grown (holds.sound other) (not_held holds other fun wrong => apart ?_) fun _ member => member
        exact (Option.some.inj ((alone rfl).symm.trans wrong)).symm

theorem advance_holds {chain : Chain ν σ} {state next : State ρ ν σ} (holds : Holds chain made state)
    (moved : advance chain state replica = some next) : ∃ after, (∀ one ∈ made, one ∈ after) ∧ Holds chain after next := by
  have sound := holds.sound replica
  have alone := holds.alone replica
  have step := moved
  unfold advance at moved
  cases phase : state.phase replica with
  | idle =>
    rw [phase] at moved
    cases Option.some.inj moved
    exact ⟨made,fun _ member => member,put_holds holds ⟨[],rfl,List.Sublist.refl _,nofun⟩ nofun⟩
  | reading todo pending =>
    rw [phase] at moved sound
    cases todo with
    | nil =>
      cases Option.some.inj moved
      obtain ⟨seen,equal,sub,covered⟩ := sound
      rw [List.append_nil] at equal
      obtain ⟨items,cut⟩ := toSegments_cut pending
      have ahead : Ahead chain made pending := ⟨equal ▸ sub,fun one listed absent => covered one (equal ▸ listed) absent⟩
      exact ⟨made,fun _ member => member,put_holds holds ⟨items.symm ▸ ahead,cut⟩ nofun⟩
    | cons migration todo =>
      cases Option.some.inj moved
      exact ⟨made,fun _ member => member,reading_holds holds phase⟩
  | waiting rest =>
    rw [phase] at moved sound
    refine ⟨made,fun _ member => member,?_⟩
    match rest with
    | [] =>
      cases Option.some.inj moved
      exact put_holds holds trivial nofun
    | ⟨_,[]⟩::rest =>
      cases Option.some.inj moved
      exact put_holds holds ⟨sound.1,wellCut_tail sound.2⟩ nofun
    | ⟨true,migration::items⟩::rest =>
      exact take_holds holds (show Sound chain made state.effects (.locked (migration::items) rest) from sound) moved
    | ⟨false,migration::items⟩::rest =>
      exact take_holds holds (show Sound chain made state.effects (.pinned migration items rest) from sound) moved
  | locked items rest =>
    rw [phase] at moved sound alone
    cases Option.some.inj moved
    refine ⟨made,fun _ member => member,put_holds holds ⟨[],[],rfl,rfl,?_,sound.2,?_,nofun,fun one member => ⟨nofun,?_⟩,rfl⟩ fun _ => alone rfl⟩
    · rw [List.append_nil]
      exact sound.1
    · rw [List.append_nil]
      exact holds.records.ordered
    · rw [List.mem_filter,decide_eq_true_eq,holds_names holds (sound.1.1.subset (List.mem_append_left _ member))]
      exact ⟨And.right,fun recorded => ⟨List.mem_map_of_mem member,recorded⟩⟩
  | transaction todo left done rows log rest => exact transaction_holds holds phase step
  | pinned migration items rest =>
    rw [phase] at moved sound alone
    obtain ⟨ahead,cut⟩ := sound
    have names := holds_names holds (ahead.1.subset (List.mem_cons_self ..))
    refine ⟨made,fun _ member => member,?_⟩
    dsimp only at moved
    split at moved
    · next recorded =>
      cases Option.some.inj moved
      refine release_holds holds (alone rfl) holds.records (fun _ member => member) ⟨ahead_made ahead fun one there => ?_,(wellCut_items cut).1⟩ rfl
      rcases there with old | rfl
      · exact old
      · exact names.mp recorded
    · next unrecorded =>
      cases Option.some.inj moved
      exact put_holds holds ⟨ahead,cut,fun wrong => unrecorded (names.mpr wrong),[],rfl,⟨_,List.append_nil _⟩⟩ fun _ => alone rfl
  | session migration left items rest => exact session_holds holds phase step

theorem stop_holds {chain : Chain ν σ} {state : State ρ ν σ} (holds : Holds chain made state) (replica : ρ) :
    Holds chain made (stop state replica) := by
  unfold stop
  split
  · next mine => exact release_holds holds mine holds.records (fun _ member => member) trivial rfl
  · exact put_holds holds trivial nofun

theorem step_holds {chain : Chain ν σ} {state next : State ρ ν σ} (holds : Holds chain made state) (action : ρ × Move)
    (moved : step chain state action = some next) : ∃ after, (∀ one ∈ made, one ∈ after) ∧ Holds chain after next := by
  obtain ⟨replica,move⟩ := action
  cases move with
  | advance => exact advance_holds holds moved
  | stop =>
    cases Option.some.inj moved
    exact ⟨made,fun _ member => member,stop_holds holds replica⟩

omit [DecidableEq ρ] in
theorem begun_holds {chain : Chain ν σ} (ordered : made <+: chain.migrations) : Holds chain made (begun made : State ρ ν σ) := by
  have nodup := chain.nodup.sublist ordered.sublist
  have inside (one : Migration ν σ) (member : one ∈ made) : one ∈ chain.migrations := ordered.subset member
  refine ⟨⟨rfl,ordered,fun one member _ => (executed_fresh inside nodup (inside one member)).1 member,
    fun one listed _ absent => (executed_fresh inside nodup listed).2 absent,fun one member _ => ?_,fun effect member => ?_⟩,nofun,
    fun _ => trivial⟩
  · exact (executed_fresh inside nodup (inside one member)).1 member ▸ List.suffix_refl _
  · obtain ⟨one,listed,ran⟩ := List.mem_flatMap.mp member
    obtain ⟨pre,post,equal⟩ := List.append_of_mem listed
    obtain ⟨tail,whole⟩ := ordered
    refine ⟨pre,one,post ++ tail,by rw [← whole,equal]; simp,ran_named ran,fun other there => ?_⟩
    rw [equal]
    exact List.mem_append_left _ there

def Kept (chain : Chain ν σ) (state : State ρ ν σ) : Prop := ∃ made, Holds chain made state

theorem step_kept {chain : Chain ν σ} : Preserved (step chain) (fun _ _ => True) (fun state : State ρ ν σ => Kept chain state) := by
  intro before action next held _ moved
  obtain ⟨made,holds⟩ := held
  obtain ⟨later,_,holds⟩ := step_holds holds action moved
  exact ⟨later,holds⟩

-- The migration a replica is running, and the names its session sees on record.
def Phase.working : Phase ν σ → Option (Migration ν σ)
  | .transaction (migration::_) (some _) _ _ _ _ => some migration
  | .session migration _ _ _ => some migration
  | _ => none

def Phase.written : Phase ν σ → List ν
  | .transaction _ _ _ rows _ _ => rows.map Row.name
  | _ => []

def Chain.before (chain : Chain ν σ) (one two : Migration ν σ) : Prop := ∃ pre post, chain.migrations = pre ++ two::post ∧ one ∈ pre

structure Orderly (chain : Chain ν σ) (state : State ρ ν σ) : Prop where
  ordered : state.names <+: chain.migrations.map Migration.name
  atomic : ∀ one ∈ chain.migrations, one.transactional = true →
    executed state.effects one.name = if one.name ∈ state.names then one.ran else []
  complete : ∀ one ∈ chain.migrations, one.transactional = false → one.name ∈ state.names → one.ran <:+ executed state.effects one.name
  started : ∀ replica two, (state.phase replica).working = some two → ∀ one, chain.before one two →
    one.name ∈ state.names ++ (state.phase replica).written
  settled : ∀ two ∈ chain.migrations, executed state.effects two.name ≠ [] → ∀ one, chain.before one two → one.name ∈ state.names

omit [DecidableEq ν] in
theorem before_made {chain : Chain ν σ} (first : chain.before one two) (equal : chain.migrations = pre ++ two::post) : one ∈ pre := by
  obtain ⟨front,back,parts,member⟩ := first
  have nodup := chain.nodup
  rw [equal] at nodup parts
  have outside : two ∉ front ∧ two ∉ pre := by
    have other := chain.nodup
    rw [equal,parts,List.nodup_append] at other
    rw [List.nodup_append] at nodup
    exact ⟨fun wrong => other.2.2 two wrong two (List.mem_cons_self ..) rfl,fun wrong => nodup.2.2 two wrong two (List.mem_cons_self ..) rfl⟩
  rcases List.append_eq_append_iff.mp parts with ⟨more,whole,rest⟩ | ⟨more,whole,rest⟩
  · cases more with
    | nil => rw [← List.append_nil pre,← whole]; exact member
    | cons head tail =>
      cases (List.cons.inj rest).1
      exact absurd (by rw [whole]; simp) outside.1
  · rw [whole]
    exact List.mem_append_left _ member

omit [DecidableEq ρ] in
theorem holds_orderly {chain : Chain ν σ} {state : State ρ ν σ} (holds : Holds chain made state) : Orderly chain state := by
  have names (one : Migration ν σ) (listed : one ∈ chain.migrations) := holds_names holds listed
  have inside {one two : Migration ν σ} (first : chain.before one two) : one ∈ chain.migrations := by
    obtain ⟨front,back,parts,member⟩ := first
    rw [parts]
    exact List.mem_append_left _ member
  refine ⟨?_,fun one listed kind => ?_,fun one listed kind recorded => ?_,fun replica two working one first => ?_,fun two listed some_ran one first => ?_⟩
  · unfold State.names
    rw [holds.records.recorded,List.map_map]
    exact holds.records.ordered.map _
  · split
    · next recorded => exact holds.records.whole one ((names one listed).mp recorded) kind
    · next unrecorded => exact holds.records.nothing one listed kind fun wrong => unrecorded ((names one listed).mpr wrong)
  · exact holds.records.complete one ((names one listed).mp recorded) kind
  · have sound := holds.sound replica
    cases phase : state.phase replica with
    | transaction todo left done rows log rest =>
      rw [phase] at working sound
      obtain ⟨fresh,part,rows_there,_,ahead,_⟩ := sound
      match todo,left with
      | migration::todo,some left =>
        cases Option.some.inj working
        obtain ⟨pre,post,equal,earlier⟩ := ahead_head ahead
        have made_there := earlier one (before_made first equal)
        rcases List.mem_append.mp made_there with old | new
        · exact List.mem_append_left _ ((names one (inside first)).mpr old)
        · refine List.mem_append_right _ ?_
          rw [Phase.written,rows_there,List.map_map]
          exact List.mem_map_of_mem new
    | session migration left items rest =>
      rw [phase] at working sound
      cases Option.some.inj working
      obtain ⟨pre,post,equal,earlier⟩ := ahead_head sound.1
      exact List.mem_append_left _ ((names one (inside first)).mpr (earlier one (before_made first equal)))
    | _ => rw [phase] at working; cases working
  · obtain ⟨effect,member⟩ := List.exists_mem_of_ne_nil _ some_ran
    obtain ⟨there,named⟩ := List.mem_filter.mp member
    obtain ⟨pre,three,post,equal,name,earlier⟩ := holds.records.earlier effect there
    have same : three = two := Chain.same (by rw [equal]; simp) listed (name.symm.trans (of_decide_eq_true named))
    exact (names one (inside first)).mpr (earlier one (before_made first (same ▸ equal)))

-- Any number of replicas, any order of their steps, any of them ending at any step.
theorem chain_orderly {chain : Chain ν σ} {actions : List (ρ × Move)} {state : State ρ ν σ} (ordered : made <+: chain.migrations)
    (path : run (step chain) (begun made) actions = some state) : Orderly chain state := by
  obtain ⟨made,holds⟩ := run_preserves step_kept ⟨made,begun_holds ordered⟩ (guarded_of_always fun _ _ => trivial) path
  exact holds_orderly holds

end

-- Two replicas of one chain: a transactional migration, an index built outside, a transactional one.
def crm : Chain Nat String :=
  ⟨[⟨1,["CREATE TABLE","ALTER TABLE"],none,true⟩,⟨2,["CREATE INDEX CONCURRENTLY"],none,false⟩,⟨3,["ALTER TABLE"],none,true⟩],by decide⟩

-- The first replica ends inside the first migration, the second one behind the index, and the first one comes again.
def boots : List (Bool × Move) :=
  List.replicate 8 (true,.advance) ++ [(true,.stop)] ++ List.replicate 17 (false,.advance) ++ [(false,.stop)] ++ List.replicate 12 (true,.advance)

theorem boots_orderly : ∃ state, run (step crm) (begun []) boots = some state ∧ state.names = [1,2,3] ∧ Orderly crm state := by
  obtain ⟨state,path⟩ := Option.isSome_iff_exists.mp (show (run (step crm) (begun []) boots).isSome = true by decide +kernel)
  have names : (run (step crm) (begun []) boots).map State.names = some [1,2,3] := by decide +kernel
  rw [path] at names
  exact ⟨state,path,Option.some.inj names,chain_orderly List.nil_prefix path⟩

end Zveltio.ExtensionMigrations
