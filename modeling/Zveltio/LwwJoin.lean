import Zveltio.Crdt
import Zveltio.Runs
import Mathlib.Data.Prod.Lex
import Mathlib.Data.Set.Basic
import Mathlib.Tactic.Order
namespace Zveltio.LwwJoin
open Fields Crdt Runs

section
variable {ν : Type u} {ι : Type v} {ρ : Type w} [LinearOrder ι]

def pick : Option (LWWField ν ι) → Option (LWWField ν ι) → Option (LWWField ν ι)
  | none,there => there
  | some here,none => some here
  | some here,some there => some (if here.older there then there else here)

def Alike (one two : LWWDocument ν ι) : Prop := ∀ key, one.lookup key = two.lookup key

-- Over every document there is, a stamp at a key has one value.
def Consistent (docs : ρ → LWWDocument ν ι) : Prop := ∀ i j key one two, (docs i).lookup key = some one → (docs j).lookup key = some two →
  one.lamport = two.lamport → one.clientId = two.clientId → one.value = two.value

-- A name that every object answers is a key of all of them or of none.
def Even (docs : ρ → LWWDocument ν ι) : Prop := ∀ key, inherited key = true → ∀ i j, ((docs i).lookup key).isSome = ((docs j).lookup key).isSome

theorem older_stamp {one two : LWWField ν ι} : one.older two ↔ toLex (one.lamport,one.clientId) < toLex (two.lamport,two.clientId) := by
  rw [Prod.Lex.toLex_lt_toLex,LWWField.older]
  exact or_congr Iff.rfl (and_congr_left fun _ => eq_comm)

theorem lookup_pick {one two : LWWDocument ν ι} (even : inherited key = true → (one.lookup key).isSome = (two.lookup key).isSome) :
    (mergeLWW one two).lookup key = pick (one.lookup key) (two.lookup key) := by
  cases here : one.lookup key with
  | none =>
    cases there : two.lookup key with
    | none => rw [mergeLWW_local there,here]; rfl
    | some field =>
      rw [mergeLWW_remote here there,pick]
      cases name : inherited key with
      | false => rfl
      | true =>
        rw [here,there] at even
        cases even name
  | some field =>
    cases there : two.lookup key with
    | none => rw [mergeLWW_local there,here]; rfl
    | some other => rw [mergeLWW_own here there]; rfl

theorem older_trans {first second third : LWWField ν ι} (one : first.older second) (two : second.older third) : first.older third :=
  older_stamp.mpr (lt_trans (older_stamp.mp one) (older_stamp.mp two))

theorem latest_trans {first second third : LWWField ν ι} (one : ¬first.older second) (two : ¬second.older third) : ¬first.older third := by
  rw [older_stamp,not_lt] at *
  exact le_trans two one

theorem stamp_eq {one two : LWWField ν ι} (left : ¬one.older two) (right : ¬two.older one) : one.lamport = two.lamport ∧ one.clientId = two.clientId := by
  rw [older_stamp,not_lt] at left right
  have same := toLex_inj.mp (le_antisymm right left)
  exact Prod.mk.injEq .. ▸ same

-- What a document has at a key once it has taken in these documents: the latest of their fields, where there is one.
def Best (docs : ρ → LWWDocument ν ι) (origins : Set ρ) (key : FieldName) (here : Option (LWWField ν ι)) : Prop :=
  (∀ field, here = some field → (∃ i ∈ origins, (docs i).lookup key = some field)) ∧
    ∀ i ∈ origins, ∀ other, (docs i).lookup key = some other → ∃ field, here = some field ∧ ¬field.older other

theorem best_own (docs : ρ → LWWDocument ν ι) (i : ρ) (key : FieldName) : Best docs {i} key ((docs i).lookup key) := by
  refine ⟨fun field found => ⟨i,rfl,found⟩,?_⟩
  rintro j rfl other found
  refine ⟨other,found,?_⟩
  rw [older_stamp]
  exact lt_irrefl _

theorem best_pick {docs : ρ → LWWDocument ν ι} (one : Best docs first key here) (two : Best docs second key there) :
    Best docs (first ∪ second) key (pick here there) := by
  constructor
  · intro field found
    have chosen : here = some field ∨ there = some field := by
      cases here with
      | none => exact .inr found
      | some left =>
        cases there with
        | none => exact .inl found
        | some right =>
          simp only [pick] at found
          split at found
          · exact .inr found
          · exact .inl found
    rcases chosen with left | right
    · obtain ⟨i,inside,same⟩ := one.1 field left
      exact ⟨i,.inl inside,same⟩
    · obtain ⟨i,inside,same⟩ := two.1 field right
      exact ⟨i,.inr inside,same⟩
  · rintro i (inside | inside) other found
    · obtain ⟨field,same,latest⟩ := one.2 i inside other found
      subst same
      cases there with
      | none => exact ⟨field,rfl,latest⟩
      | some right =>
        by_cases older : field.older right
        · exact ⟨right,by simp [pick,older],fun wrong => latest (older_trans older wrong)⟩
        · exact ⟨field,by simp [pick,older],latest⟩
    · obtain ⟨field,same,latest⟩ := two.2 i inside other found
      subst same
      cases here with
      | none => exact ⟨field,rfl,latest⟩
      | some left =>
        by_cases older : left.older field
        · exact ⟨field,by simp [pick,older],latest⟩
        · exact ⟨left,by simp [pick,older],latest_trans older latest⟩

theorem best_unique {docs : ρ → LWWDocument ν ι} (consistent : Consistent docs) (one : Best docs origins key here) (two : Best docs origins key there) :
    here = there := by
  cases here with
  | none =>
    cases there with
    | none => rfl
    | some field =>
      obtain ⟨i,inside,found⟩ := two.1 field rfl
      obtain ⟨_,wrong,_⟩ := one.2 i inside field found
      cases wrong
  | some left =>
    obtain ⟨i,inside,found⟩ := one.1 left rfl
    obtain ⟨right,same,latest⟩ := two.2 i inside left found
    obtain ⟨j,within,there_found⟩ := two.1 right same
    obtain ⟨field,own,later⟩ := one.2 j within right there_found
    cases Option.some.inj own
    obtain ⟨lamport,clientId⟩ := stamp_eq later latest
    have value := consistent i j key left right found there_found lamport clientId
    rw [same]
    cases left
    cases right
    simp_all

-- Replicas that send one another what they hold. heard is whose documents have come to it, straight or through others.
structure State (ν : Type u) (ι : Type v) (ρ : Type w) where
  docs : ρ → LWWDocument ν ι
  heard : ρ → Set ρ
  sent : List (LWWDocument ν ι × Set ρ)

def State.start (docs : ρ → LWWDocument ν ι) : State ν ι ρ := ⟨docs,fun i => {i},[]⟩

inductive Action (ρ : Type w) where
  | send (i : ρ)
  | receive (i : ρ) (message : Nat)

-- Whenever it comes, and as often as it comes.
def step [DecidableEq ρ] (state : State ν ι ρ) : Action ρ → Option (State ν ι ρ)
  | .send i => some {state with sent := state.sent ++ [(state.docs i,state.heard i)]}
  | .receive i message => state.sent[message]?.map fun sent => {state with
      docs := Function.update state.docs i (mergeLWW (state.docs i) sent.1)
      heard := Function.update state.heard i (state.heard i ∪ sent.2)}

def Settled (state : State ν ι ρ) : Prop := ∀ i j, state.heard i = state.heard j → Alike (state.docs i) (state.docs j)

structure Join [DecidableEq ρ] (docs : ρ → LWWDocument ν ι) : Prop where
  idempotent : ∀ i, Alike (mergeLWW (docs i) (docs i)) (docs i)
  commutative : ∀ i j, Alike (mergeLWW (docs i) (docs j)) (mergeLWW (docs j) (docs i))
  associative : ∀ i j k, Alike (mergeLWW (mergeLWW (docs i) (docs j)) (docs k)) (mergeLWW (docs i) (mergeLWW (docs j) (docs k)))
  converges : ∀ actions state, run step (.start docs) actions = some state → Settled state

-- A document that the origins went into.
def Made (docs : ρ → LWWDocument ν ι) (doc : LWWDocument ν ι) (origins : Set ρ) : Prop := (∃ i, i ∈ origins) ∧ ∀ key, Best docs origins key (doc.lookup key)

theorem made_isSome {docs : ρ → LWWDocument ν ι} (even : Even docs) (made : Made docs doc origins) (name : inherited key = true) (i : ρ) :
    (doc.lookup key).isSome = ((docs i).lookup key).isSome := by
  obtain ⟨⟨j,inside⟩,best⟩ := made
  rw [even key name i j]
  cases found : (docs j).lookup key with
  | some other =>
    obtain ⟨field,same,_⟩ := (best key).2 j inside other found
    rw [same]
    rfl
  | none =>
    cases here : doc.lookup key with
    | none => rfl
    | some field =>
      obtain ⟨k,_,there⟩ := (best key).1 field here
      have same := even key name j k
      rw [found,there] at same
      cases same

theorem made_merge {docs : ρ → LWWDocument ν ι} (even : Even docs) (one : Made docs here first) (two : Made docs there second) :
    Made docs (mergeLWW here there) (first ∪ second) := by
  obtain ⟨i,inside⟩ := one.1
  refine ⟨⟨i,.inl inside⟩,fun key => ?_⟩
  rw [lookup_pick fun name => (made_isSome even one name i).trans (made_isSome even two name i).symm]
  exact best_pick (one.2 key) (two.2 key)

theorem made_own (docs : ρ → LWWDocument ν ι) (i : ρ) : Made docs (docs i) {i} := ⟨⟨i,rfl⟩,fun key => best_own docs i key⟩

theorem made_unique {docs : ρ → LWWDocument ν ι} (consistent : Consistent docs) (one : Made docs here origins) (two : Made docs there origins) : Alike here there :=
  fun key => best_unique consistent (one.2 key) (two.2 key)

def Sound (docs : ρ → LWWDocument ν ι) (state : State ν ι ρ) : Prop :=
  (∀ i, Made docs (state.docs i) (state.heard i)) ∧ ∀ sent ∈ state.sent, Made docs sent.1 sent.2

theorem sound_preserved [DecidableEq ρ] {docs : ρ → LWWDocument ν ι} (even : Even docs) : Preserved step (fun _ _ => True) (Sound docs) := by
  intro before action after sound _ moved
  obtain ⟨own,sent⟩ := sound
  cases action with
  | send i =>
    cases moved
    refine ⟨own,fun message member => ?_⟩
    rcases List.mem_append.mp member with old | last
    · exact sent message old
    · cases List.mem_singleton.mp last
      exact own i
  | receive i message =>
    obtain ⟨there,found,rfl⟩ := Option.map_eq_some_iff.mp moved
    refine ⟨fun j => ?_,sent⟩
    by_cases same : j = i
    · subst same
      simp only [Function.update_self]
      exact made_merge even (own j) (sent there (List.mem_of_getElem? found))
    · simp only [Function.update_of_ne same]
      exact own j

theorem merge_join [DecidableEq ρ] {docs : ρ → LWWDocument ν ι} (consistent : Consistent docs) : Join docs ↔ Even docs := by
  constructor
  · intro join key name i j
    -- Where only one has the name, the merge has it or not as that one comes first.
    cases here : (docs i).lookup key with
    | none =>
      cases there : (docs j).lookup key with
      | none => rfl
      | some field =>
        have same := join.commutative i j key
        rw [mergeLWW_remote here there,mergeLWW_local here,there,if_pos name] at same
        cases same
    | some field =>
      cases there : (docs j).lookup key with
      | some other => rfl
      | none =>
        have same := join.commutative i j key
        rw [mergeLWW_local there,mergeLWW_remote there here,here,if_pos name] at same
        cases same
  · intro even
    have merged {one two : LWWDocument ν ι} {first second : Set ρ} (one_made : Made docs one first) (two_made : Made docs two second) :=
      made_merge even one_made two_made
    refine ⟨fun i => ?_,fun i j => ?_,fun i j k => ?_,?_⟩
    · refine made_unique consistent (merged (made_own docs i) (made_own docs i)) ?_
      rw [Set.union_self]
      exact made_own docs i
    · refine made_unique consistent (merged (made_own docs i) (made_own docs j)) ?_
      rw [Set.union_comm]
      exact merged (made_own docs j) (made_own docs i)
    · refine made_unique consistent (merged (merged (made_own docs i) (made_own docs j)) (made_own docs k)) ?_
      rw [Set.union_assoc]
      exact merged (made_own docs i) (merged (made_own docs j) (made_own docs k))
    · intro actions state path i j same
      have started : Sound docs (.start docs) := ⟨made_own docs,fun _ wrong => absurd wrong List.not_mem_nil⟩
      have sound := run_preserves (sound_preserved even) started (guarded_of_always fun _ _ => trivial) path
      exact made_unique consistent (sound.1 i) (same ▸ sound.1 j)

end

def single (name : FieldName) (lamport clientId : Nat) : LWWDocument Nat Nat := AList.singleton name ⟨lamport,lamport,clientId⟩

-- The document of one replica has only this name, the other's nothing.
def lone (name : FieldName) : Bool → LWWDocument Nat Nat
  | true => single name 1 1
  | false => ∅

theorem lone_true (name key : FieldName) : (lone name true).lookup key = if key = name then some ⟨1,1,1⟩ else none := lookup_singleton name key _

theorem lone_found {name key : FieldName} (found : (lone name i).lookup key = some field) : field = ⟨1,1,1⟩ := by
  cases i with
  | false => cases found
  | true =>
    rw [lone_true] at found
    split at found
    · exact (Option.some.inj found).symm
    · cases found

theorem lone_consistent (name : FieldName) : Consistent (lone name) := by
  intro i j key one two here there _ _
  rw [lone_found here,lone_found there]

def heading : FieldName := ⟨"heading",by decide⟩

def method : FieldName := ⟨"constructor",by decide⟩

theorem merge_join_title : Join (lone heading) := by
  refine (merge_join (lone_consistent heading)).mpr ?_
  intro key name i j
  have apart : key ≠ heading := by
    rintro rfl
    cases name
  have absent (i : Bool) : (lone heading i).lookup key = none := by
    cases i with
    | false => rfl
    | true => rw [lone_true,if_neg apart]
  rw [absent i,absent j]

-- A field of this name is lost where the other document comes first.
theorem constructor_lost : Consistent (lone method) ∧
    ¬Alike (mergeLWW (lone method true) (lone method false))
      (mergeLWW (lone method false) (lone method true)) := by
  refine ⟨lone_consistent _,fun alike => ?_⟩
  have here := lone_true method method
  rw [if_pos rfl] at here
  have kept := (alike method).symm.trans ((mergeLWW_local rfl).trans here)
  have lost := mergeLWW_remote (rfl : (lone method false).lookup method = none) here
  rw [if_pos (by decide)] at lost
  cases lost.symm.trans kept

end Zveltio.LwwJoin
