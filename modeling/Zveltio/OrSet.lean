import Zveltio.Runs
import Zveltio.Tables
import Mathlib.Data.List.Perm.Basic
namespace Zveltio.OrSet
open Runs Tables

section
variable {α υ : Type} [DecidableEq υ]

-- uid is the tag of one add operation.
structure ORSetElement (α υ : Type) where
  value : α
  uid : υ
  removed : Bool
  deriving DecidableEq

abbrev ORSet (α υ : Type) := List (ORSetElement α υ)

-- The uid is the one generateUUID has just made.
def orSetAdd (set : ORSet α υ) (value : α) (uid : υ) : ORSet α υ := set ++ [⟨value,uid,false⟩]

def orSetRemove (set : ORSet α υ) (uid : υ) : ORSet α υ := set.map fun el => if el.uid = uid then {el with removed := true} else el

def mergeOne (merged : Table υ (ORSetElement α υ)) (el : ORSetElement α υ) : Table υ (ORSetElement α υ) :=
  if (merged.get el.uid).isNone || el.removed then merged.set el.uid el else merged

def orSetMerge (here there : ORSet α υ) : ORSet α υ := ((here ++ there).foldl mergeOne []).map Prod.snd

def orSetValues (set : ORSet α υ) : List α := (set.filter fun el => !el.removed).map ORSetElement.value

def uids (set : ORSet α υ) : List υ := set.map ORSetElement.uid

-- Some entry of the uid is a tombstone.
def Removed (set : ORSet α υ) (uid : υ) : Prop := ∃ el ∈ set, el.uid = uid ∧ el.removed = true

-- Entries of one uid come from one add.
def Tagged (set : ORSet α υ) : Prop := ∀ one ∈ set, ∀ two ∈ set, one.uid = two.uid → one.value = two.value

-- What the table of a merge has after the entries so far.
structure Merged (entries : ORSet α υ) (table : Table υ (ORSetElement α υ)) : Prop where
  distinct : table.keys.Nodup
  held : ∀ el ∈ entries, table.get el.uid ≠ none
  found : ∀ uid el, table.get uid = some el → el ∈ entries ∧ el.uid = uid ∧ (Removed entries uid → el.removed = true)

omit [DecidableEq υ] in
theorem removed_append {first second : ORSet α υ} : Removed (first ++ second) uid ↔ Removed first uid ∨ Removed second uid := by
  simp only [Removed,List.mem_append,or_and_right,exists_or]

theorem merged_set {entries : ORSet α υ} (merged : Merged entries table)
    (allowed : table.get el.uid = none ∨ el.removed = true) : Merged (entries ++ [el]) (table.set el.uid el) := by
  refine ⟨nodup_set merged.distinct,?_,?_⟩
  · intro other member
    rw [get_set]
    split
    · exact Option.some_ne_none _
    · next apart =>
      rcases List.mem_append.mp member with before | last
      · exact merged.held other before
      · exact absurd (congrArg _ (List.mem_singleton.mp last)) apart
  · intro uid other there
    rw [get_set] at there
    split at there
    · next same =>
      cases Option.some.inj there
      refine ⟨List.mem_append_right _ (List.mem_singleton_self _),same.symm,fun gone => ?_⟩
      rcases allowed with absent | removed
      · rcases removed_append.mp gone with ⟨old,inside,tag,_⟩ | ⟨last,inside,_,removed⟩
        · exact absurd absent (same ▸ tag ▸ merged.held old inside)
        · exact List.mem_singleton.mp inside ▸ removed
      · exact removed
    · next apart =>
      obtain ⟨inside,tag,tombstone⟩ := merged.found uid other there
      refine ⟨List.mem_append_left _ inside,tag,fun gone => ?_⟩
      rcases removed_append.mp gone with before | ⟨last,member,named,_⟩
      · exact tombstone before
      · exact absurd (List.mem_singleton.mp member ▸ named).symm apart

theorem merged_kept {entries : ORSet α υ} (merged : Merged entries table) (there : table.get el.uid ≠ none)
    (live : el.removed = false) : Merged (entries ++ [el]) table := by
  refine ⟨merged.distinct,?_,?_⟩
  · intro other member
    rcases List.mem_append.mp member with before | last
    · exact merged.held other before
    · exact List.mem_singleton.mp last ▸ there
  · intro uid other found
    obtain ⟨inside,tag,tombstone⟩ := merged.found uid other found
    refine ⟨List.mem_append_left _ inside,tag,fun gone => ?_⟩
    rcases removed_append.mp gone with before | ⟨last,member,_,removed⟩
    · exact tombstone before
    · cases List.mem_singleton.mp member
      exact absurd removed (by simp [live])

theorem merged_one {entries : ORSet α υ} (merged : Merged entries table) (el : ORSetElement α υ) :
    Merged (entries ++ [el]) (mergeOne table el) := by
  unfold mergeOne
  split
  · next allowed =>
    refine merged_set merged ?_
    exact (Bool.or_eq_true_iff.mp allowed).imp_left Option.isNone_iff_eq_none.mp
  · next refused =>
    obtain ⟨there,live⟩ := Bool.or_eq_false_iff.mp (Bool.eq_false_iff.mpr refused)
    refine merged_kept merged (fun absent => ?_) live
    exact absurd (Option.isNone_iff_eq_none.mpr absent) (by simp [there])

theorem merged_foldl {entries : ORSet α υ} (merged : Merged entries table) (later : ORSet α υ) :
    Merged (entries ++ later) (later.foldl mergeOne table) := by
  induction later generalizing entries table with
  | nil => simpa using merged
  | cons el rest ih => simpa using ih (merged_one merged el)

theorem merged_nil : Merged ([] : ORSet α υ) [] where
  distinct := List.nodup_nil
  held := fun _ wrong => absurd wrong List.not_mem_nil
  found := fun _ _ wrong => (by cases wrong)

theorem merged_all (entries : ORSet α υ) : Merged entries (entries.foldl mergeOne []) :=
  merged_foldl merged_nil entries

theorem mem_table {entries : ORSet α υ} : el ∈ (entries.foldl mergeOne []).map Prod.snd ↔ (entries.foldl mergeOne []).get el.uid = some el := by
  have merged := merged_all entries
  constructor
  · intro member
    obtain ⟨⟨uid,other⟩,inside,rfl⟩ := List.mem_map.mp member
    have found := get_of_mem merged.distinct inside
    rw [(merged.found uid other found).2.1]
    exact found
  · intro found
    exact List.mem_map.mpr ⟨_,get_mem found,rfl⟩

-- What a merge has of these entries: one for each uid, removed where one of them is.
def Joined (entries : ORSet α υ) (el : ORSetElement α υ) : Prop :=
  (∃ other ∈ entries, other.uid = el.uid ∧ other.value = el.value) ∧ (el.removed = true ↔ Removed entries el.uid)

theorem mem_merge {here there : ORSet α υ} (tagged : Tagged (here ++ there)) : el ∈ orSetMerge here there ↔ Joined (here ++ there) el := by
  have merged := merged_all (here ++ there)
  rw [orSetMerge,mem_table]
  constructor
  · intro found
    obtain ⟨inside,_,tombstone⟩ := merged.found el.uid el found
    exact ⟨⟨el,inside,rfl,rfl⟩,fun removed => ⟨el,inside,rfl,removed⟩,tombstone⟩
  · rintro ⟨⟨other,inside,tag,value⟩,removed⟩
    obtain ⟨held,found⟩ := Option.ne_none_iff_exists'.mp (merged.held other inside)
    rw [tag] at found
    obtain ⟨member,named,tombstone⟩ := merged.found el.uid held found
    have same : held = el := by
      have values : held.value = el.value := (tagged held member other inside (named.trans tag.symm)).trans value
      have flags : held.removed = el.removed :=
        Bool.eq_iff_iff.mpr ⟨fun gone => removed.mpr ⟨held,member,named,gone⟩,fun gone => tombstone (removed.mp gone)⟩
      cases held
      cases el
      simp_all
    exact same ▸ found

def Alike (one two : ORSet α υ) : Prop :=
  (∀ uid value, (∃ el ∈ one, el.uid = uid ∧ el.value = value) ↔ ∃ el ∈ two, el.uid = uid ∧ el.value = value) ∧
    ∀ uid, Removed one uid ↔ Removed two uid

omit [DecidableEq υ] in
theorem Alike.back {one two : ORSet α υ} (alike : Alike one two) : Alike two one :=
  ⟨fun uid value => (alike.1 uid value).symm,fun uid => (alike.2 uid).symm⟩

-- The replicas, every set one of them has sent, and the uids there are.
structure State (ι α υ : Type) where
  sets : ι → ORSet α υ
  sent : List (ORSet α υ)
  used : List υ

def State.start (set : ORSet α υ) : State ι α υ := ⟨fun _ => set,[],uids set⟩

inductive Action (ι α υ : Type) where
  | add (i : ι) (value : α) (uid : υ)
  | remove (i : ι) (uid : υ)
  | send (i : ι)
  | merge (i : ι) (message : Nat) (first : Bool)

-- A message is merged whenever it comes, as the first argument or the second, and as often as it comes.
def step [DecidableEq ι] (state : State ι α υ) : Action ι α υ → Option (State ι α υ)
  | .add i value uid => if uid ∈ state.used then none
    else some {state with sets := Function.update state.sets i (orSetAdd (state.sets i) value uid),used := uid::state.used}
  | .remove i uid => some {state with sets := Function.update state.sets i (orSetRemove (state.sets i) uid)}
  | .send i => some {state with sent := state.sent ++ [state.sets i]}
  | .merge i message first => state.sent[message]?.map fun set =>
    {state with sets := Function.update state.sets i (if first then orSetMerge set (state.sets i) else orSetMerge (state.sets i) set)}

def State.Holds (state : State ι α υ) (set : ORSet α υ) : Prop := (∃ i, state.sets i = set) ∨ set ∈ state.sent

structure Sound (state : State ι α υ) : Prop where
  used : ∀ set, state.Holds set → ∀ el ∈ set, el.uid ∈ state.used
  tagged : ∀ one two, state.Holds one → state.Holds two → ∀ el ∈ one, ∀ other ∈ two, el.uid = other.uid → el.value = other.value

omit [DecidableEq υ] in
theorem Sound.append {state : State ι α υ} (sound : Sound state) (held : state.Holds one) (other : state.Holds two) : Tagged (one ++ two) := by
  intro el member next inside
  rcases List.mem_append.mp member with first | first <;> rcases List.mem_append.mp inside with second | second
  · exact sound.tagged one one held held el first next second
  · exact sound.tagged one two held other el first next second
  · exact sound.tagged two one other held el first next second
  · exact sound.tagged two two other other el first next second

def Drawn (state : State ι α υ) (set : ORSet α υ) : Prop := ∀ el ∈ set, ∃ old, state.Holds old ∧ ∃ other ∈ old, other.uid = el.uid ∧ other.value = el.value

omit [DecidableEq υ] in
theorem drawn_sound {state after : State ι α υ} (sound : Sound state) (kept : ∀ uid ∈ state.used, uid ∈ after.used)
    (drawn : ∀ set, after.Holds set → Drawn state set) : Sound after := by
  refine ⟨fun set held el member => ?_,fun one two held other el member next inside same => ?_⟩
  · obtain ⟨old,there,source,inside,tag,_⟩ := drawn set held el member
    exact kept _ (tag ▸ sound.used old there source inside)
  · obtain ⟨first,holds,source,here,tag,value⟩ := drawn one held el member
    obtain ⟨second,keeps,origin,there,label,given⟩ := drawn two other next inside
    rw [← value,← given]
    exact sound.tagged first second holds keeps source here origin there (tag.trans (same.trans label.symm))

omit [DecidableEq υ] in
theorem drawn_held {state : State ι α υ} {set : ORSet α υ} (held : state.Holds set) : Drawn state set := fun el member => ⟨set,held,el,member,rfl,rfl⟩

theorem drawn_merge {state : State ι α υ} (one : Drawn state first) (two : Drawn state second) (tagged : Tagged (first ++ second)) :
    Drawn state (orSetMerge first second) := by
  intro el member
  obtain ⟨⟨other,inside,tag,value⟩,_⟩ := (mem_merge tagged).mp member
  rw [← tag,← value]
  exact (List.mem_append.mp inside).elim (one other) (two other)

theorem drawn_remove {state : State ι α υ} {set : ORSet α υ} (drawn : Drawn state set) : Drawn state (orSetRemove set uid) := by
  intro el member
  obtain ⟨other,inside,rfl⟩ := List.mem_map.mp member
  obtain ⟨old,held,source,there,tag,value⟩ := drawn other inside
  refine ⟨old,held,source,there,?_,?_⟩
  · rw [tag]
    split <;> rfl
  · rw [value]
    split <;> rfl

section
variable [DecidableEq ι]

omit [DecidableEq υ] in
theorem holds_update {state : State ι α υ} {set next : ORSet α υ} (held : State.Holds ⟨Function.update state.sets i next,state.sent,used⟩ set) :
    set = next ∨ state.Holds set := by
  rcases held with ⟨j,here⟩ | sent
  · by_cases own : j = i
    · subst own
      simp only [Function.update_self] at here
      exact .inl here.symm
    · simp only [Function.update_of_ne own] at here
      exact .inr (.inl ⟨j,here⟩)
  · exact .inr (.inr sent)

omit [DecidableEq υ] in
theorem update_sound {state : State ι α υ} (sound : Sound state) (drawn : Drawn state next) :
    Sound {state with sets := Function.update state.sets i next} := by
  refine drawn_sound sound (fun _ => id) ?_
  intro set held
  rcases holds_update held with rfl | before
  · exact drawn
  · exact drawn_held before

omit [DecidableEq υ] in
theorem add_sound {state : State ι α υ} (sound : Sound state) (fresh : uid ∉ state.used) :
    Sound {state with sets := Function.update state.sets i (orSetAdd (state.sets i) value uid),used := uid::state.used} := by
  -- An entry is the new one, or is held already.
  have origin : ∀ set, State.Holds ⟨Function.update state.sets i (orSetAdd (state.sets i) value uid),state.sent,uid::state.used⟩ set →
      ∀ el ∈ set, el = ⟨value,uid,false⟩ ∨ ∃ old, state.Holds old ∧ el ∈ old := by
    intro set held el member
    rcases holds_update held with rfl | before
    · rcases List.mem_append.mp member with old | last
      · exact .inr ⟨_,.inl ⟨i,rfl⟩,old⟩
      · exact .inl (List.mem_singleton.mp last)
    · exact .inr ⟨set,before,member⟩
  refine ⟨fun set held el member => ?_,fun one two held other el member next inside same => ?_⟩
  · rcases origin set held el member with rfl | ⟨old,there,within⟩
    · exact List.mem_cons_self ..
    · exact List.mem_cons_of_mem _ (sound.used old there el within)
  · rcases origin one held el member with rfl | ⟨old,there,within⟩ <;> rcases origin two other next inside with rfl | ⟨last,holds,among⟩
    · rfl
    · have used := sound.used last holds next among
      rw [← same] at used
      exact absurd used fresh
    · have used := sound.used old there el within
      rw [same] at used
      exact absurd used fresh
    · exact sound.tagged old last there holds el within next among same

omit [DecidableEq υ] [DecidableEq ι] in
theorem send_sound {state : State ι α υ} (sound : Sound state) (i : ι) : Sound {state with sent := state.sent ++ [state.sets i]} := by
  refine drawn_sound sound (fun _ => id) ?_
  rintro other (⟨j,here⟩ | sent)
  · exact drawn_held (.inl ⟨j,here⟩)
  · rcases List.mem_append.mp sent with before | last
    · exact drawn_held (.inr before)
    · exact drawn_held (.inl ⟨i,(List.mem_singleton.mp last).symm⟩)

theorem merge_sound {state : State ι α υ} {message : ORSet α υ} (sound : Sound state) (there : message ∈ state.sent) (first : Bool) :
    Sound {state with sets := Function.update state.sets i (if first then orSetMerge message (state.sets i) else orSetMerge (state.sets i) message)} := by
  have own : state.Holds (state.sets i) := .inl ⟨i,rfl⟩
  have sent : state.Holds message := .inr there
  refine update_sound sound ?_
  cases first with
  | true => exact drawn_merge (drawn_held sent) (drawn_held own) (sound.append sent own)
  | false => exact drawn_merge (drawn_held own) (drawn_held sent) (sound.append own sent)

theorem sound_preserved : Preserved (step : State ι α υ → _) (fun _ _ => True) Sound := by
  intro before action after sound _ moved
  cases action with
  | add i value uid =>
    simp only [step] at moved
    split at moved
    · cases moved
    · next fresh =>
      cases moved
      exact add_sound sound fresh
  | remove i uid =>
    cases moved
    exact update_sound sound (drawn_remove (drawn_held (.inl ⟨i,rfl⟩)))
  | send i =>
    cases moved
    exact send_sound sound i
  | merge i message first =>
    obtain ⟨other,there,rfl⟩ := Option.map_eq_some_iff.mp moved
    exact merge_sound sound (List.mem_of_getElem? there) first

-- Every entry of the uid that the set has is a tombstone, and there is one.
def Gone (set : ORSet α υ) (uid : υ) : Prop := uid ∈ uids set ∧ ∀ el ∈ set, el.uid = uid → el.removed = true

omit [DecidableEq υ] in
theorem Gone.removed {set : ORSet α υ} (gone : Gone set uid) : Removed set uid := by
  obtain ⟨el,member,rfl⟩ := List.mem_map.mp gone.1
  exact ⟨el,member,rfl,gone.2 el member rfl⟩

-- Merged they have the uids of both, each once, and what is live in both.
structure Exact (here there : ORSet α υ) : Prop where
  once : (uids (orSetMerge here there)).Nodup
  union : ∀ uid, uid ∈ uids (orSetMerge here there) ↔ uid ∈ uids here ∨ uid ∈ uids there
  live : ∀ uid, uid ∈ uids here ∨ uid ∈ uids there →
    ((∃ el ∈ orSetMerge here there, el.uid = uid ∧ el.removed = false) ↔ ¬Removed here uid ∧ ¬Removed there uid)
  values : ∀ value, value ∈ orSetValues (orSetMerge here there) ↔
    ∃ el ∈ here ++ there, el.value = value ∧ ¬Removed here el.uid ∧ ¬Removed there el.uid

end

end
end Zveltio.OrSet
