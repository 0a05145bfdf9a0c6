import Mathlib.Data.List.AList
namespace Zveltio.Fields

-- The one key an ordinary assignment does not store as an entry is excluded.
def FieldName := {name : String // name ≠ "__proto__"}
  deriving DecidableEq

-- A plain object: one entry for each own key.
abbrev Record (κ : Type u) (ν : Type v) := AList fun _ : κ => ν

section
variable {κ : Type u} {ν : Type v} {μ : Type w} [DecidableEq κ]

-- {...under, ...above}
def spread (under above : Record κ ν) : Record κ ν := above ∪ under

@[simp] theorem lookup_spread (under above : Record κ ν) (key : κ) :
    (spread under above).lookup key = (above.lookup key).or (under.lookup key) := by
  by_cases member : key ∈ above
  · obtain ⟨value,found⟩ := Option.isSome_iff_exists.mp (AList.lookup_isSome.mpr member)
    rw [spread,AList.lookup_union_left member,found]
    rfl
  · rw [spread,AList.lookup_union_right member,AList.lookup_eq_none.mpr member]
    rfl

@[simp] theorem lookup_singleton (key other : κ) (value : ν) :
    (AList.singleton key value : Record κ ν).lookup other = if other = key then some value else none := by
  rw [← AList.insert_empty]
  by_cases equal : other = key
  · subst equal
    rw [AList.lookup_insert,if_pos rfl]
  · rw [AList.lookup_insert_ne equal,AList.lookup_empty,if_neg equal]

def assign (rule : κ → ν → Option μ) (target : Record κ μ) (key : κ) (value : ν) : Record κ μ :=
  match rule key value with
  | some next => target.insert key next
  | none => target

def assignEach (rule : κ → ν → Option μ) (target : Record κ μ) (source : Record κ ν) : Record κ μ :=
  source.foldl (assign rule) target

theorem lookup_assign (rule : κ → ν → Option μ) (target : Record κ μ) (key other : κ) (value : ν) :
    (assign rule target key value).lookup other =
      if other = key then (rule key value).or (target.lookup other) else target.lookup other := by
  unfold assign
  by_cases equal : other = key
  · subst equal
    cases rule other value <;> simp
  · cases rule key value <;> simp [AList.lookup_insert_ne,equal]

theorem lookup_assignEach (rule : κ → ν → Option μ) (target : Record κ μ) (source : Record κ ν) (key : κ) :
    (assignEach rule target source).lookup key = ((source.lookup key).bind (rule key)).or (target.lookup key) := by
  obtain ⟨entries,nodup⟩ := source
  change AList.lookup key (entries.foldl (fun acc entry => assign rule acc entry.1 entry.2) target) =
    ((entries.dlookup key).bind (rule key)).or (target.lookup key)
  induction entries generalizing target with
  | nil => simp
  | cons entry rest ih =>
    obtain ⟨here,value⟩ := entry
    obtain ⟨fresh,distinct⟩ := List.nodupKeys_cons.mp nodup
    rw [List.foldl_cons,ih _ distinct,lookup_assign]
    by_cases equal : key = here
    · subst equal
      have absent : rest.dlookup key = none := List.dlookup_eq_none.mpr fresh
      simp [absent]
    · have later : (⟨here,value⟩ :: rest : List (Sigma fun _ : κ => ν)).dlookup key = rest.dlookup key :=
        List.dlookup_cons_ne rest ⟨here,value⟩ equal
      rw [later,if_neg equal]

end

end Zveltio.Fields
