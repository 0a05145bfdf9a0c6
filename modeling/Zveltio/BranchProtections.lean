import Zveltio.Protections
namespace Zveltio.BranchProtections
open Runs Protections

-- What the one query of a mirror read of a table: the version of public's, and the copy in the branch.
structure Snapshot (ν π γ ρ κ δ : Type) where
  version : Nat
  branch : Protection ν π γ ρ κ δ

-- A refresh is owed by a change, has listed the previewing branches with the table, and mirrors them one by one; a preview mirrors every table
-- of its branch and then enables it.
inductive Stage (β τ ν π γ ρ κ δ : Type) where
  | owed (table : τ)
  | listed (table : τ) (left : List β)
  | read (table : τ) (branch : β) (left : List β) (snapshot : Snapshot ν π γ ρ κ δ)
  | asked (branch : β)
  | readAll (branch : β) (snapshots : τ → Snapshot ν π γ ρ κ δ)
  | mirroredAll (branch : β) (snapshots : τ → Snapshot ν π γ ρ κ δ)

-- was has every state public's tables were in, version the last. recorded and missed are the failures that are recorded, of a table of a branch
-- and of the query for the branches. installed is the version a copy was last given, mark the one the mirror of its branch's preview read.
structure State (χ β τ ν π γ ρ κ δ : Type) where
  was : τ → Nat → Protection ν π γ ρ κ δ
  version : τ → Nat
  branch : β → τ → Protection ν π γ ρ κ δ
  enabled : β → Bool
  flight : χ → Option (Stage β τ ν π γ ρ κ δ)
  recorded : β → τ → Bool
  missed : List τ
  installed : β → τ → Option Nat
  mark : β → τ → Nat

def State.start {χ β τ ν π γ ρ κ δ : Type} (here : τ → Protection ν π γ ρ κ δ) (branch : β → τ → Protection ν π γ ρ κ δ) :
    State χ β τ ν π γ ρ κ δ :=
  ⟨fun table _ => here table,fun _ => 0,branch,fun _ => false,fun _ => none,fun _ _ => false,[],fun _ _ => none,fun _ _ => 0⟩

inductive Action (χ β τ ν π γ ρ κ δ : Type) where
  | change (c : χ) (table : τ) (protection : Protection ν π γ ρ κ δ)
  | list (c : χ) (ok : Bool)
  | read (c : χ)
  | mirror (c : χ) (ok : Bool)
  | preview (c : χ) (branch : β)
  | readAll (c : χ)
  | mirrorAll (c : χ) (ok : Bool)
  | enable (c : χ) (ok : Bool)

-- The branches there are, the tables of each that public has too, and the columns a copy shares.
structure Setting (β τ κ : Type) where
  branches : List β
  tables : β → List τ
  shared : β → τ → κ → Bool

section
variable {χ β τ ν π γ ρ κ δ : Type} [DecidableEq χ] [DecidableEq β] [DecidableEq τ] [DecidableEq ν] [DecidableEq γ]

def State.becomes (state : State χ β τ ν π γ ρ κ δ) (c : χ) (flight : Option (Stage β τ ν π γ ρ κ δ)) : State χ β τ ν π γ ρ κ δ :=
  {state with flight := Function.update state.flight c flight}

def set {α : Type} (values : β → τ → α) (branch : β) (table : τ) (value : α) (b : β) (t : τ) : α :=
  if b = branch ∧ t = table then value else values b t

def goOn (table : τ) : List β → Option (Stage β τ ν π γ ρ κ δ)
  | [] => none
  | left => some (.listed table left)

-- Every mirror runs its statements on what is there by then, all of them or none; a failed one is recorded, and a recorded failure goes with the next success.
def step (setting : Setting β τ κ) (state : State χ β τ ν π γ ρ κ δ) : Action χ β τ ν π γ ρ κ δ → Option (State χ β τ ν π γ ρ κ δ)
  | .change c table protection =>
    if (state.flight c).isNone then
      some ({state with
        was := Function.update state.was table (Function.update (state.was table) (state.version table + 1) protection)
        version := Function.update state.version table (state.version table + 1)}.becomes c (some (.owed table)))
    else none
  | .list c ok => (state.flight c).bind fun stage => match stage with
    | .owed table =>
      if ok then
        some ({state with missed := []}.becomes c (goOn table (setting.branches.filter fun b => state.enabled b && table ∈ setting.tables b)))
      else some ({state with missed := state.missed ++ [table]}.becomes c none)
    | _ => none
  | .read c => (state.flight c).bind fun stage => match stage with
    | .listed table (b::left) => some (state.becomes c (some (.read table b left ⟨state.version table,state.branch b table⟩)))
    | _ => none
  | .mirror c ok => (state.flight c).bind fun stage => match stage with
    | .read table b left snapshot =>
      if ok then
        (mirrored (setting.shared b table) (state.was table snapshot.version) snapshot.branch (state.branch b table)).map fun after =>
          {state with
            branch := set state.branch b table after
            recorded := set state.recorded b table false
            installed := set state.installed b table (some snapshot.version)}.becomes c (goOn table left)
      else some ({state with recorded := set state.recorded b table true}.becomes c (goOn table left))
    | _ => none
  | .preview c b => if (state.flight c).isNone && b ∈ setting.branches then some (state.becomes c (some (.asked b))) else none
  | .readAll c => (state.flight c).bind fun stage => match stage with
    | .asked b => some (state.becomes c (some (.readAll b fun table => ⟨state.version table,state.branch b table⟩)))
    | _ => none
  | .mirrorAll c ok => (state.flight c).bind fun stage => match stage with
    | .readAll b snapshots =>
      let after := fun table => mirrored (setting.shared b table) (state.was table (snapshots table).version) (snapshots table).branch (state.branch b table)
      if ok then
        if (setting.tables b).all fun table => (after table).isSome then
          some ({state with
            branch := fun other table => if other = b ∧ table ∈ setting.tables b then (after table).getD (state.branch b table) else state.branch other table
            installed := fun other table =>
              if other = b ∧ table ∈ setting.tables b then some (snapshots table).version else state.installed other table}.becomes c
                (some (.mirroredAll b snapshots)))
        else none
      else some (state.becomes c none)
    | _ => none
  | .enable c ok => (state.flight c).bind fun stage => match stage with
    | .mirroredAll b snapshots =>
      if ok then
        some ({state with
          enabled := Function.update state.enabled b true
          mark := if state.enabled b then state.mark else Function.update state.mark b fun table => (snapshots table).version}.becomes c none)
      else some (state.becomes c none)
    | _ => none

-- The claim on the previews: when all is done and no failure recorded, and at every moment before.
structure Protected {ω : Type} (setting : Setting β τ κ) (member : γ → γ → Prop) (passes : List (ν × π) → Access γ ρ κ ω → Prop)
    (admits : δ → Access γ ρ κ ω → Prop) (state : State χ β τ ν π γ ρ κ δ) : Prop where
  settled : (∀ c, state.flight c = none) → state.missed = [] → (∀ b table, state.recorded b table = false) →
    ∀ b, state.enabled b = true → ∀ table ∈ setting.tables b, Mirrors (setting.shared b table) (state.was table (state.version table)) (state.branch b table)
  between : ∀ b, state.enabled b = true → ∀ table ∈ setting.tables b, ∀ access, Allows member passes admits (state.branch b table) access →
    ∃ version, state.mark b table ≤ version ∧ version ≤ state.version table ∧ Allows member passes admits (state.was table version) access

-- A refresh that is still to give the copy what public's table has now.
def Stage.covers (state : State χ β τ ν π γ ρ κ δ) (b : β) (t : τ) : Stage β τ ν π γ ρ κ δ → Prop
  | .owed table => table = t
  | .listed table left => table = t ∧ b ∈ left
  | .read table branch left snapshot => table = t ∧ (b ∈ left ∨ branch = b ∧ snapshot.version = state.version t)
  | _ => False

def Pending (state : State χ β τ ν π γ ρ κ δ) (c : χ) (b : β) (t : τ) : Prop :=
  ∃ other stage, other ≠ c ∧ state.flight other = some stage ∧ stage.covers state b t

-- Statements run on a copy that has nothing their query did not read, and give a previewing branch what public's table has now, or another refresh
-- will, and nothing older than its preview's mirror read. A branch comes to be previewed with what its own mirror read, which public's tables
-- still have, or a refresh will list it. A query for the branches that answers clears no failure of another table's.
def Permitted (setting : Setting β τ κ) (state : State χ β τ ν π γ ρ κ δ) : Action χ β τ ν π γ ρ κ δ → Prop
  | .list c ok => ok = true → ∀ table, state.flight c = some (.owed table) → ∀ other ∈ state.missed, other = table
  | .mirror c ok => ok = true → ∀ table b left snapshot, state.flight c = some (.read table b left snapshot) →
      Covers snapshot.branch (state.branch b table) ∧ (snapshot.version = state.version table ∨ Pending state c b table)
  | .mirrorAll c ok => ok = true → ∀ b snapshots, state.flight c = some (.readAll b snapshots) → ∀ table ∈ setting.tables b,
      Covers (snapshots table).branch (state.branch b table) ∧ (state.enabled b = true → state.mark b table ≤ (snapshots table).version ∧
        ((snapshots table).version = state.version table ∨ Pending state c b table))
  | .enable c ok => ok = true → ∀ b snapshots, state.flight c = some (.mirroredAll b snapshots) → state.enabled b = false → ∀ table ∈ setting.tables b,
      state.installed b table = some (snapshots table).version ∧
        ((snapshots table).version = state.version table ∨ ∃ other, state.flight other = some (.owed table))
  | _ => True

end

section
variable {χ β τ ν π γ ρ κ δ : Type}

def Covered (state : State χ β τ ν π γ ρ κ δ) (b : β) (t : τ) : Prop :=
  state.recorded b t = true ∨ t ∈ state.missed ∨ ∃ c stage, state.flight c = some stage ∧ stage.covers state b t

def Stage.Sound (setting : Setting β τ κ) (state : State χ β τ ν π γ ρ κ δ) : Stage β τ ν π γ ρ κ δ → Prop
  | .owed _ => True
  | .listed table left => ∀ b ∈ left, state.enabled b = true ∧ table ∈ setting.tables b
  | .read table b left snapshot => (∀ other ∈ b::left, state.enabled other = true ∧ table ∈ setting.tables other) ∧
      state.mark b table ≤ snapshot.version ∧ snapshot.version ≤ state.version table
  | .asked b => b ∈ setting.branches
  | .readAll b snapshots => b ∈ setting.branches ∧ ∀ table, (snapshots table).version ≤ state.version table
  | .mirroredAll b snapshots => b ∈ setting.branches ∧ ∀ table, (snapshots table).version ≤ state.version table

structure Sound (setting : Setting β τ κ) (state : State χ β τ ν π γ ρ κ δ) : Prop where
  faithful : ∀ b, ∀ table ∈ setting.tables b, ∀ version, state.installed b table = some version →
    version ≤ state.version table ∧ Mirrors (setting.shared b table) (state.was table version) (state.branch b table)
  known : ∀ b, state.enabled b = true → b ∈ setting.branches
  kept : ∀ b, state.enabled b = true → ∀ table ∈ setting.tables b, ∃ version, state.installed b table = some version ∧ state.mark b table ≤ version ∧
    (version = state.version table ∨ Covered state b table)
  stages : ∀ c stage, state.flight c = some stage → stage.Sound setting state

theorem Sound.protected {ω : Type} {member : γ → γ → Prop} {passes : List (ν × π) → Access γ ρ κ ω → Prop} {admits : δ → Access γ ρ κ ω → Prop}
    (sound : Sound setting (state : State χ β τ ν π γ ρ κ δ)) : Protected setting member passes admits state where
  settled finished missed recorded b enabled table there := by
    obtain ⟨version,installed,-,current | covered⟩ := sound.kept b enabled table there
    · rw [← current]
      exact (sound.faithful b table there version installed).2
    · obtain failed | failed | ⟨c,stage,flight,-⟩ := covered
      · rw [recorded b table] at failed
        cases failed
      · rw [missed] at failed
        cases failed
      · rw [finished c] at flight
        cases flight
  between b enabled table there access allowed := by
    obtain ⟨version,installed,since,-⟩ := sound.kept b enabled table there
    obtain ⟨bound,mirrors⟩ := sound.faithful b table there version installed
    exact ⟨version,since,bound,mirrors_allows mirrors allowed⟩

theorem start_sound (here : τ → Protection ν π γ ρ κ δ) (branch : β → τ → Protection ν π γ ρ κ δ) :
    Sound setting (State.start here branch : State χ β τ ν π γ ρ κ δ) where
  faithful _ _ _ _ wrong := by cases wrong
  known _ wrong := by cases wrong
  kept _ wrong := by cases wrong
  stages _ _ wrong := by cases wrong

theorem Stage.Sound.congr {state after : State χ β τ ν π γ ρ κ δ} {stage : Stage β τ ν π γ ρ κ δ} (sound : stage.Sound setting state)
    (version : ∀ table, state.version table ≤ after.version table) (enabled : ∀ b, state.enabled b = true → after.enabled b = true ∧ after.mark b = state.mark b) :
    stage.Sound setting after := by
  cases stage with
  | owed table => trivial
  | listed table left => exact fun b member => ⟨(enabled b (sound b member).1).1,(sound b member).2⟩
  | read table b left snapshot =>
    obtain ⟨members,since,bound⟩ := sound
    refine ⟨fun other member => ⟨(enabled other (members other member).1).1,(members other member).2⟩,?_,Nat.le_trans bound (version table)⟩
    rw [(enabled b (members b (List.mem_cons_self ..)).1).2]
    exact since
  | asked b => exact sound
  | readAll b snapshots => exact ⟨sound.1,fun table => Nat.le_trans (sound.2 table) (version table)⟩
  | mirroredAll b snapshots => exact ⟨sound.1,fun table => Nat.le_trans (sound.2 table) (version table)⟩

theorem covers_congr {state after : State χ β τ ν π γ ρ κ δ} {stage : Stage β τ ν π γ ρ κ δ} (version : after.version t = state.version t)
    (covers : stage.covers state b t) : stage.covers after b t := by
  cases stage with
  | read table branch left snapshot =>
    obtain ⟨same,member | ⟨here,current⟩⟩ := covers
    · exact ⟨same,.inl member⟩
    · exact ⟨same,.inr ⟨here,current.trans version.symm⟩⟩
  | owed table => exact covers
  | listed table left => exact covers
  | asked b => exact covers
  | readAll b snapshots => exact covers
  | mirroredAll b snapshots => exact covers

theorem Covered.carry {state after : State χ β τ ν π γ ρ κ δ} (covered : Covered state b t) (version : after.version t = state.version t)
    (recorded : state.recorded b t = true → Covered after b t) (missed : t ∈ state.missed → Covered after b t)
    (others : ∀ other, other ≠ c → after.flight other = state.flight other)
    (own : ∀ stage, state.flight c = some stage → stage.covers state b t → Covered after b t) : Covered after b t := by
  obtain failed | failed | ⟨other,stage,flight,covers⟩ := covered
  · exact recorded failed
  · exact missed failed
  · by_cases stepped : other = c
    · subst stepped
      exact own stage flight covers
    · exact .inr (.inr ⟨other,stage,(others other stepped).trans flight,covers_congr version covers⟩)

theorem Pending.covered {state after : State χ β τ ν π γ ρ κ δ} (pending : Pending state c b t) (version : after.version t = state.version t)
    (others : ∀ other, other ≠ c → after.flight other = state.flight other) : Covered after b t := by
  obtain ⟨other,stage,apart,flight,covers⟩ := pending
  exact .inr (.inr ⟨other,stage,(others other apart).trans flight,covers_congr version covers⟩)

theorem goOn_covers (state : State χ β τ ν π γ ρ κ δ) (table : τ) (member : b ∈ left) :
    ∃ stage, goOn table left = some stage ∧ stage.covers state b table := by
  cases left with
  | nil => cases member
  | cons head rest => exact ⟨_,rfl,rfl,member⟩

theorem goOn_sound {state : State χ β τ ν π γ ρ κ δ} (left : ∀ b ∈ branches, state.enabled b = true ∧ table ∈ setting.tables b) (stage : Stage β τ ν π γ ρ κ δ)
    (next : goOn table branches = some stage) : stage.Sound setting state := by
  cases branches with
  | nil => cases next
  | cons head rest =>
    cases next
    exact left

end

section
variable {χ β τ ν π γ ρ κ δ : Type} [DecidableEq χ]

theorem becomes_others {state : State χ β τ ν π γ ρ κ δ} {next : Option (Stage β τ ν π γ ρ κ δ)} (other : χ) (apart : other ≠ c) :
    (state.becomes c next).flight other = state.flight other := Function.update_of_ne apart ..

theorem becomes_own {state : State χ β τ ν π γ ρ κ δ} {next : Option (Stage β τ ν π γ ρ κ δ)} : (state.becomes c next).flight c = next :=
  Function.update_self ..

theorem stages_becomes {state before : State χ β τ ν π γ ρ κ δ} (sound : Sound setting state) (flight : before.flight = state.flight)
    (version : ∀ table, state.version table ≤ before.version table)
    (enabled : ∀ b, state.enabled b = true → before.enabled b = true ∧ before.mark b = state.mark b)
    (own : ∀ stage, next = some stage → stage.Sound setting before) : ∀ other stage, (before.becomes c next).flight other = some stage →
      stage.Sound setting (before.becomes c next) := by
  intro other stage found
  by_cases stepped : other = c
  · subst stepped
    rw [becomes_own] at found
    exact (own stage found).congr (fun _ => Nat.le_refl _) fun _ is => ⟨is,rfl⟩
  · rw [becomes_others other stepped,flight] at found
    exact (sound.stages other stage found).congr version enabled

theorem becomes_sound {state before : State χ β τ ν π γ ρ κ δ} (sound : Sound setting state) (flight : before.flight = state.flight)
    (was : before.was = state.was) (version : before.version = state.version) (branch : before.branch = state.branch) (enabled : before.enabled = state.enabled)
    (installed : before.installed = state.installed) (mark : before.mark = state.mark) (own : ∀ stage, next = some stage → stage.Sound setting before)
    (covered : ∀ b t, state.enabled b = true → t ∈ setting.tables b → Covered state b t → Covered (before.becomes c next) b t) :
    Sound setting (before.becomes c next) := by
  refine ⟨?_,?_,?_,stages_becomes sound flight (fun table => Nat.le_of_eq (congrFun version.symm table)) (fun b is => ⟨enabled ▸ is,congrFun mark b⟩) own⟩
  · intro b table there i found
    simp only [State.becomes,installed,version,was,branch] at found ⊢
    exact sound.faithful b table there i found
  · intro b is
    simp only [State.becomes,enabled] at is
    exact sound.known b is
  · intro b is table there
    simp only [State.becomes,enabled] at is
    obtain ⟨i,found,since,kept⟩ := sound.kept b is table there
    refine ⟨i,?_,?_,?_⟩
    · simpa only [State.becomes,installed] using found
    · simpa only [State.becomes,mark] using since
    · obtain current | owed := kept
      · left
        simpa only [State.becomes,version] using current
      · exact .inr (covered b table is there owed)

theorem list_failed {state : State χ β τ ν π γ ρ κ δ} (sound : Sound setting state) (there : state.flight c = some (.owed table)) :
    Sound setting ({state with missed := state.missed ++ [table]}.becomes c none) := by
  refine becomes_sound sound rfl rfl rfl rfl rfl rfl rfl (fun _ wrong => by cases wrong) ?_
  intro b t _ _ covered
  refine covered.carry rfl .inl (fun missed => .inr (.inl (List.mem_append_left _ missed))) (fun other apart => becomes_others other apart) ?_
  intro stage found covers
  cases there.symm.trans found
  have same : table = t := covers
  subst same
  exact .inr (.inl (List.mem_append_right _ (List.mem_singleton_self _)))

omit [DecidableEq χ] in
theorem uncovering {state : State χ β τ ν π γ ρ κ δ} (there : state.flight c = some stage) (none : ∀ b t, ¬stage.covers state b t) :
    ∀ found b t, state.flight c = some found → ¬found.covers state b t := by
  intro found b t same
  cases there.symm.trans same
  exact none b t

theorem idle_sound {state : State χ β τ ν π γ ρ κ δ} (sound : Sound setting state) (none : ∀ stage b t, state.flight c = some stage → ¬stage.covers state b t)
    (own : ∀ stage, next = some stage → stage.Sound setting state) : Sound setting (state.becomes c next) := by
  refine becomes_sound sound rfl rfl rfl rfl rfl rfl rfl own ?_
  intro b t _ _ covered
  refine covered.carry rfl .inl (fun missed => .inr (.inl missed)) (fun other apart => becomes_others other apart) ?_
  intro stage found covers
  exact absurd covers (none stage b t found)

theorem read_sound {state : State χ β τ ν π γ ρ κ δ} (sound : Sound setting state) (there : state.flight c = some (.listed table (b::left))) :
    Sound setting (state.becomes c (some (.read table b left ⟨state.version table,state.branch b table⟩))) := by
  have listed : ∀ other ∈ b::left, state.enabled other = true ∧ table ∈ setting.tables other := sound.stages c _ there
  refine becomes_sound sound rfl rfl rfl rfl rfl rfl rfl ?_ ?_
  · intro stage next
    cases next
    obtain ⟨enabled,shared⟩ := listed b (List.mem_cons_self ..)
    obtain ⟨version,installed,since,-⟩ := sound.kept b enabled table shared
    exact ⟨listed,Nat.le_trans since (sound.faithful b table shared version installed).1,Nat.le_refl _⟩
  · intro other t _ _ covered
    refine covered.carry rfl .inl (fun missed => .inr (.inl missed)) (fun other apart => becomes_others other apart) ?_
    intro stage found covers
    cases there.symm.trans found
    obtain ⟨rfl,member⟩ := covers
    refine .inr (.inr ⟨c,_,becomes_own,rfl,?_⟩)
    obtain same | rest := List.mem_cons.mp member
    · exact .inr ⟨same.symm,rfl⟩
    · exact .inl rest

theorem enable_sound {state : State χ β τ ν π γ ρ κ δ} [DecidableEq β] (sound : Sound setting state) (there : state.flight c = some (.mirroredAll b snapshots))
    (current : state.enabled b = false → ∀ table ∈ setting.tables b, state.installed b table = some (snapshots table).version ∧
      ((snapshots table).version = state.version table ∨ ∃ other, state.flight other = some (.owed table))) :
    Sound setting ({state with
      enabled := Function.update state.enabled b true
      mark := if state.enabled b then state.mark else Function.update state.mark b fun table => (snapshots table).version}.becomes c none) := by
  obtain ⟨known,bounds⟩ : b ∈ setting.branches ∧ ∀ table, (snapshots table).version ≤ state.version table := sound.stages c _ there
  have marks : ∀ other, state.enabled other = true →
      (if state.enabled b then state.mark else Function.update state.mark b fun table => (snapshots table).version) other = state.mark other := by
    intro other enabled
    split
    · rfl
    · next disabled =>
      have apart : other ≠ b := fun same => disabled (same ▸ enabled)
      exact Function.update_of_ne apart ..
  have carried : ∀ other t, Covered state other t → Covered ({state with
      enabled := Function.update state.enabled b true
      mark := if state.enabled b then state.mark else Function.update state.mark b fun table => (snapshots table).version}.becomes c none) other t := by
    intro other t covered
    refine covered.carry rfl .inl (fun missed => .inr (.inl missed)) (fun other apart => becomes_others other apart) ?_
    exact fun found same covers => absurd covers (uncovering there (fun _ _ => id) found other t same)
  refine ⟨sound.faithful,?_,?_,stages_becomes sound rfl (fun _ => Nat.le_refl _) ?_ (fun _ wrong => by cases wrong)⟩
  · intro other enabled
    by_cases same : other = b
    · subst same
      exact known
    · simp only [State.becomes,Function.update_of_ne same] at enabled
      exact sound.known other enabled
  · intro other enabled table shared
    by_cases before : state.enabled other = true
    · obtain ⟨version,installed,since,held⟩ := sound.kept other before table shared
      refine ⟨version,installed,?_,?_⟩
      · simp only [State.becomes]
        rw [marks other before]
        exact since
      · exact held.imp_right (carried other table)
    · have same : other = b := by
        apply Classical.byContradiction
        intro apart
        simp only [State.becomes,Function.update_of_ne apart] at enabled
        exact before enabled
      subst same
      have disabled : state.enabled other = false := by simpa using before
      obtain ⟨installed,held⟩ := current disabled table shared
      refine ⟨_,installed,?_,?_⟩
      · simp [State.becomes,disabled]
      · obtain now | ⟨request,owed⟩ := held
        · exact .inl now
        · exact .inr (carried other table (.inr (.inr ⟨request,_,owed,rfl⟩)))
  · intro other enabled
    refine ⟨?_,marks other enabled⟩
    by_cases same : other = b
    · subst same
      exact Function.update_self ..
    · simp only [Function.update_of_ne same]
      exact enabled

variable [DecidableEq τ]

theorem change_sound {state : State χ β τ ν π γ ρ κ δ} (sound : Sound setting state) (idle : state.flight c = none) :
    Sound setting ({state with
      was := Function.update state.was table (Function.update (state.was table) (state.version table + 1) protection)
      version := Function.update state.version table (state.version table + 1)}.becomes c (some (.owed table))) := by
  have grows : ∀ other, state.version other ≤ Function.update state.version table (state.version table + 1) other := by
    intro other
    by_cases same : other = table
    · subst same
      rw [Function.update_self]
      exact Nat.le_succ _
    · exact Nat.le_of_eq (Function.update_of_ne same ..).symm
  have kept : ∀ other version, version ≤ state.version other →
      Function.update state.was table (Function.update (state.was table) (state.version table + 1) protection) other version = state.was other version := by
    intro other version bound
    by_cases same : other = table
    · subst same
      rw [Function.update_self,Function.update_of_ne (Nat.ne_of_lt (Nat.lt_succ_of_le bound))]
    · rw [Function.update_of_ne same]
  refine ⟨?_,sound.known,?_,stages_becomes sound rfl grows (fun _ is => ⟨is,rfl⟩) ?_⟩
  · intro b other there version installed
    obtain ⟨bound,mirrors⟩ := sound.faithful b other there version installed
    refine ⟨Nat.le_trans bound (grows other),?_⟩
    simp only [State.becomes,kept other version bound]
    exact mirrors
  · intro b enabled other there
    obtain ⟨version,installed,since,held⟩ := sound.kept b enabled other there
    refine ⟨version,installed,since,?_⟩
    by_cases same : other = table
    · exact .inr (.inr (.inr ⟨c,_,becomes_own,same.symm⟩))
    · have still : Function.update state.version table (state.version table + 1) other = state.version other := Function.update_of_ne same ..
      obtain current | covered := held
      · exact .inl (current.trans still.symm)
      · refine .inr (covered.carry still .inl (fun missed => .inr (.inl missed)) (fun other apart => becomes_others other apart) ?_)
        intro stage found
        rw [idle] at found
        cases found
  · intro stage next
    cases next
    trivial

theorem list_sound {state : State χ β τ ν π γ ρ κ δ} (sound : Sound setting state) (there : state.flight c = some (.owed table))
    (cleared : ∀ other ∈ state.missed, other = table) :
    Sound setting ({state with missed := []}.becomes c (goOn table (setting.branches.filter fun b => state.enabled b && table ∈ setting.tables b))) := by
  refine becomes_sound sound rfl rfl rfl rfl rfl rfl rfl (goOn_sound ?_) ?_
  · intro b member
    simpa using (List.mem_filter.mp member).2
  · intro b t enabled shared covered
    have listed : t = table → Covered ({state with missed := []}.becomes c
        (goOn table (setting.branches.filter fun b => state.enabled b && table ∈ setting.tables b))) b t := by
      intro same
      subst same
      have member : b ∈ setting.branches.filter fun b => state.enabled b && t ∈ setting.tables b :=
        List.mem_filter.mpr ⟨sound.known b enabled,by simpa using ⟨enabled,shared⟩⟩
      obtain ⟨stage,next,covers⟩ := goOn_covers ({state with missed := []}.becomes c (goOn t _)) t member
      exact .inr (.inr ⟨c,stage,becomes_own.trans next,covers⟩)
    refine covered.carry rfl .inl (fun missed => listed (cleared t missed)) (fun other apart => becomes_others other apart) ?_
    intro stage found covers
    cases there.symm.trans found
    exact listed covers.symm

variable [DecidableEq β]

omit [DecidableEq χ] in
theorem set_other {values : β → τ → α} (apart : ¬(b = branch ∧ t = table)) : set values branch table value b t = values b t := if_neg apart

omit [DecidableEq χ] in
theorem set_own {values : β → τ → α} : set values branch table value branch table = value := if_pos ⟨rfl,rfl⟩

theorem mirror_failed {state : State χ β τ ν π γ ρ κ δ} (sound : Sound setting state) (there : state.flight c = some (.read table b left snapshot)) :
    Sound setting ({state with recorded := set state.recorded b table true}.becomes c (goOn table left)) := by
  obtain ⟨members,-⟩ : (∀ other ∈ b::left, state.enabled other = true ∧ table ∈ setting.tables other) ∧ _ := sound.stages c _ there
  refine becomes_sound sound rfl rfl rfl rfl rfl rfl rfl (goOn_sound fun other member => members other (List.mem_cons_of_mem _ member)) ?_
  intro other t _ _ covered
  by_cases own : other = b ∧ t = table
  · obtain ⟨rfl,rfl⟩ := own
    exact .inl set_own
  · refine covered.carry rfl (fun failed => .inl ((set_other own).trans failed)) (fun missed => .inr (.inl missed)) (fun other apart => becomes_others other apart) ?_
    intro stage found covers
    cases there.symm.trans found
    obtain ⟨rfl,member | ⟨rfl,-⟩⟩ := covers
    · obtain ⟨stage,next,covers⟩ := goOn_covers ({state with recorded := set state.recorded b table true}.becomes c (goOn table left)) table member
      exact .inr (.inr ⟨c,stage,becomes_own.trans next,covers⟩)
    · exact absurd ⟨rfl,rfl⟩ own

variable [DecidableEq ν] [DecidableEq γ]

theorem mirror_sound {state : State χ β τ ν π γ ρ κ δ} (sound : Sound setting state) (there : state.flight c = some (.read table b left snapshot))
    (covers : Covers snapshot.branch (state.branch b table)) (last : snapshot.version = state.version table ∨ Pending state c b table)
    (done : mirrored (setting.shared b table) (state.was table snapshot.version) snapshot.branch (state.branch b table) = some mirror) :
    Sound setting ({state with
      branch := set state.branch b table mirror
      recorded := set state.recorded b table false
      installed := set state.installed b table (some snapshot.version)}.becomes c (goOn table left)) := by
  obtain ⟨members,since,bound⟩ : (∀ other ∈ b::left, state.enabled other = true ∧ table ∈ setting.tables other) ∧
    state.mark b table ≤ snapshot.version ∧ snapshot.version ≤ state.version table := sound.stages c _ there
  refine ⟨?_,sound.known,?_,stages_becomes sound rfl (fun _ => Nat.le_refl _) (fun _ is => ⟨is,rfl⟩)
    (goOn_sound fun other member => members other (List.mem_cons_of_mem _ member))⟩
  · intro other t shared version installed
    by_cases own : other = b ∧ t = table
    · obtain ⟨rfl,rfl⟩ := own
      simp only [State.becomes,set_own] at installed ⊢
      cases installed
      exact ⟨bound,mirrored_exact covers done⟩
    · simp only [State.becomes,set_other own] at installed ⊢
      exact sound.faithful other t shared version installed
  · intro other enabled t shared
    by_cases own : other = b ∧ t = table
    · obtain ⟨rfl,rfl⟩ := own
      refine ⟨snapshot.version,set_own,since,?_⟩
      exact last.imp_right fun pending => pending.covered rfl fun other apart => becomes_others other apart
    · obtain ⟨version,installed,since,held⟩ := sound.kept other enabled t shared
      refine ⟨version,(set_other own).trans installed,since,held.imp_right ?_⟩
      intro covered
      refine covered.carry rfl (fun failed => .inl ((set_other own).trans failed)) (fun missed => .inr (.inl missed)) (fun other apart => becomes_others other apart) ?_
      intro stage found covers
      cases there.symm.trans found
      obtain ⟨rfl,member | ⟨rfl,-⟩⟩ := covers
      · obtain ⟨stage,next,covers⟩ := goOn_covers ({state with
          branch := set state.branch b table mirror
          recorded := set state.recorded b table false
          installed := set state.installed b table (some snapshot.version)}.becomes c (goOn table left)) table member
        exact .inr (.inr ⟨c,stage,becomes_own.trans next,covers⟩)
      · exact absurd ⟨rfl,rfl⟩ own

theorem mirrorAll_sound {state : State χ β τ ν π γ ρ κ δ} {after : τ → Option (Protection ν π γ ρ κ δ)} (sound : Sound setting state)
    (there : state.flight c = some (.readAll b snapshots))
    (permitted : ∀ table ∈ setting.tables b, Covers (snapshots table).branch (state.branch b table) ∧ (state.enabled b = true →
      state.mark b table ≤ (snapshots table).version ∧ ((snapshots table).version = state.version table ∨ Pending state c b table)))
    (done : ∀ table, after table = mirrored (setting.shared b table) (state.was table (snapshots table).version) (snapshots table).branch (state.branch b table))
    (all : ∀ table ∈ setting.tables b, (after table).isSome = true) :
    Sound setting ({state with
      branch := fun other table => if other = b ∧ table ∈ setting.tables b then (after table).getD (state.branch b table) else state.branch other table
      installed := fun other table =>
        if other = b ∧ table ∈ setting.tables b then some (snapshots table).version else state.installed other table}.becomes c
          (some (.mirroredAll b snapshots))) := by
  obtain ⟨known,bounds⟩ : b ∈ setting.branches ∧ ∀ table, (snapshots table).version ≤ state.version table := sound.stages c _ there
  refine ⟨?_,sound.known,?_,stages_becomes sound rfl (fun _ => Nat.le_refl _) (fun _ is => ⟨is,rfl⟩) ?_⟩
  · intro other table shared version installed
    by_cases own : other = b
    · subst own
      simp only [State.becomes,shared,and_self,if_true] at installed ⊢
      cases installed
      obtain ⟨mirror,is⟩ := Option.isSome_iff_exists.mp (all table shared)
      rw [is,Option.getD_some]
      exact ⟨bounds table,mirrored_exact (permitted table shared).1 ((done table).symm.trans is)⟩
    · simp only [State.becomes,own,false_and,if_false] at installed ⊢
      exact sound.faithful other table shared version installed
  · intro other enabled table shared
    by_cases own : other = b
    · subst own
      obtain ⟨since,last⟩ := (permitted table shared).2 enabled
      refine ⟨(snapshots table).version,by simp [State.becomes,shared],since,?_⟩
      exact last.imp_right fun pending => pending.covered rfl fun other apart => becomes_others other apart
    · obtain ⟨version,installed,since,held⟩ := sound.kept other enabled table shared
      refine ⟨version,by simpa [State.becomes,own] using installed,since,held.imp_right ?_⟩
      intro covered
      refine covered.carry rfl .inl (fun missed => .inr (.inl missed)) (fun other apart => becomes_others other apart) ?_
      exact fun found same covers => absurd covers (uncovering there (fun _ _ => id) found other table same)
  · intro stage next
    cases next
    exact ⟨known,bounds⟩

theorem step_sound {state : State χ β τ ν π γ ρ κ δ} (action : Action χ β τ ν π γ ρ κ δ) (sound : Sound setting state) (permitted : Permitted setting state action)
    (done : step setting state action = some after) : Sound setting after := by
  cases action with
  | change c table protection =>
    simp only [step] at done
    split at done
    · next idle =>
      cases done
      exact change_sound sound (by simpa using idle)
    · cases done
  | list c ok =>
    obtain ⟨stage,there,done⟩ := Option.bind_eq_some_iff.mp done
    cases stage with
    | owed table =>
      cases ok with
      | true =>
        cases done
        exact list_sound sound there (permitted rfl table there)
      | false =>
        cases done
        exact list_failed sound there
    | _ => cases done
  | read c =>
    obtain ⟨stage,there,done⟩ := Option.bind_eq_some_iff.mp done
    cases stage with
    | listed table left =>
      cases left with
      | nil => cases done
      | cons b left =>
        cases done
        exact read_sound sound there
    | _ => cases done
  | mirror c ok =>
    obtain ⟨stage,there,done⟩ := Option.bind_eq_some_iff.mp done
    cases stage with
    | read table b left snapshot =>
      cases ok with
      | true =>
        obtain ⟨mirror,made,rfl⟩ := Option.map_eq_some_iff.mp done
        obtain ⟨covers,last⟩ := permitted rfl table b left snapshot there
        exact mirror_sound sound there covers last made
      | false =>
        cases done
        exact mirror_failed sound there
    | _ => cases done
  | preview c b =>
    simp only [step] at done
    split at done
    · next asked =>
      cases done
      obtain ⟨idle,known⟩ := Bool.and_eq_true_iff.mp asked
      have idle : state.flight c = none := by simpa using idle
      refine idle_sound sound ?_ ?_
      · intro stage b t found
        rw [idle] at found
        cases found
      · intro stage next
        cases next
        exact (of_decide_eq_true known : b ∈ setting.branches)
    · cases done
  | readAll c =>
    obtain ⟨stage,there,done⟩ := Option.bind_eq_some_iff.mp done
    cases stage with
    | asked b =>
      cases done
      refine idle_sound sound (uncovering there fun _ _ => id) ?_
      intro stage next
      cases next
      exact ⟨sound.stages c _ there,fun _ => Nat.le_refl _⟩
    | _ => cases done
  | mirrorAll c ok =>
    obtain ⟨stage,there,done⟩ := Option.bind_eq_some_iff.mp done
    cases stage with
    | readAll b snapshots =>
      cases ok with
      | true =>
        simp only [if_true] at done
        split at done
        · next all =>
          cases done
          exact mirrorAll_sound sound there (permitted rfl b snapshots there) (fun _ => rfl) (List.all_eq_true.mp all)
        · cases done
      | false =>
        cases done
        exact idle_sound sound (uncovering there fun _ _ => id) (fun _ wrong => by cases wrong)
    | _ => cases done
  | enable c ok =>
    obtain ⟨stage,there,done⟩ := Option.bind_eq_some_iff.mp done
    cases stage with
    | mirroredAll b snapshots =>
      cases ok with
      | true =>
        cases done
        exact enable_sound sound there (permitted rfl b snapshots there)
      | false =>
        cases done
        exact idle_sound sound (uncovering there fun _ _ => id) (fun _ wrong => by cases wrong)
    | _ => cases done

theorem previews_protected {ω : Type} {setting : Setting β τ κ} {member : γ → γ → Prop} {passes : List (ν × π) → Access γ ρ κ ω → Prop}
    {admits : δ → Access γ ρ κ ω → Prop} {here : τ → Protection ν π γ ρ κ δ} {branch : β → τ → Protection ν π γ ρ κ δ}
    {actions : List (Action χ β τ ν π γ ρ κ δ)} {state : State χ β τ ν π γ ρ κ δ} (path : run (step setting) (.start here branch) actions = some state)
    (guarded : Guarded (step setting) (Permitted setting) (.start here branch) actions) : Protected setting member passes admits state := by
  have preserved : Preserved (step setting) (Permitted setting) (Sound setting : State χ β τ ν π γ ρ κ δ → Prop) :=
    fun _ action _ sound permitted done => step_sound action sound permitted done
  exact (run_preserves preserved (start_sound here branch) guarded path).protected

end
-- One branch with one table, whose row rules change from one to another.
def oneTable : Setting Nat Nat Nat := ⟨[0],fun _ => [0],fun _ _ _ => true⟩

def ruled (rule : Nat) : Protection Nat Nat Nat Unit Nat Unit := ⟨[(rule,rule)],none,true,false,[⟨9,(),false⟩],[]⟩

def refreshed : List (Action Bool Nat Nat Nat Nat Nat Unit Nat Unit) := [.preview true 0,.readAll true,.mirrorAll true true,.enable true true,
  .change false 0 (ruled 2),.list false true,.read false,.mirror false true]

theorem refreshed_guarded : Guarded (step oneTable) (Permitted oneTable) (.start (fun _ => ruled 1) fun _ _ => ruled 0) refreshed := by
  refine guarded_cons trivial rfl (guarded_cons trivial rfl (guarded_cons ?_ rfl (guarded_cons ?_ rfl ?_)))
  · intro _ b snapshots there table _
    cases there
    exact ⟨covers_refl _,fun wrong => (by cases wrong)⟩
  · intro _ b snapshots there _ table shared
    cases there
    cases List.mem_singleton.mp shared
    exact ⟨rfl,.inl rfl⟩
  refine guarded_cons trivial rfl (guarded_cons ?_ rfl (guarded_cons trivial rfl (guarded_cons ?_ rfl trivial)))
  · intro _ table _ other missed
    cases missed
  · intro _ table b left snapshot there
    cases there
    exact ⟨covers_refl _,.inl rfl⟩

theorem previews_protected_refreshed : ∃ state, run (step oneTable) (.start (fun _ => ruled 1) fun _ _ => ruled 0) refreshed = some state ∧
    state.enabled 0 = true ∧ (state.branch 0 0).policies = [(2,2)] ∧
      @Protected Bool Nat Nat Nat Nat Nat Unit Nat Unit Unit oneTable (· = ·) (fun _ _ => True) (fun _ _ => True) state :=
  ⟨_,rfl,rfl,rfl,previews_protected rfl refreshed_guarded⟩

-- A rule changes after the preview's mirror, and its refresh lists the branches before the preview is enabled.
theorem missed_change : ∃ state : State Bool Nat Nat Nat Nat Nat Unit Nat Unit, run (step oneTable) (.start (fun _ => ruled 1) fun _ _ => ruled 0)
    [.preview true 0,.readAll true,.mirrorAll true true,.change false 0 (ruled 2),.list false true,.enable true true] = some state ∧
    (∀ c, state.flight c = none) ∧ state.enabled 0 = true ∧ (state.branch 0 0).policies = [(1,1)] ∧ (state.was 0 (state.version 0)).policies = [(2,2)] ∧
      ¬@Protected Bool Nat Nat Nat Nat Nat Unit Nat Unit Unit oneTable (· = ·) (fun _ _ => True) (fun _ _ => True) state := by
  refine ⟨_,rfl,fun c => (by cases c <;> rfl),rfl,rfl,rfl,?_⟩
  intro safe
  have mirrors := safe.settled (fun c => (by cases c <;> rfl)) rfl (fun _ _ => rfl) 0 rfl 0 (List.mem_singleton_self 0)
  cases mirrors.policies

end Zveltio.BranchProtections
