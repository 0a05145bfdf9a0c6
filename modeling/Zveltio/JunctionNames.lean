import Mathlib.Data.List.Basic
namespace Zveltio.JunctionNames

-- The names are of ASCII letters, so a character is a byte.
abbrev Name := List Char

def word (char : Char) : Bool := char.isLower || char.isDigit || char == '_'

-- /^[a-z][a-z0-9_]*$/
def SAFE_NAME_RE : Name → Bool
  | [] => false
  | first::rest => first.isLower && rest.all word

-- What Postgres keeps of an identifier.
def truncated (name : Name) : Name := name.take 63

-- hash: Bun.hash(name).toString(36)
def pgIdentifier (hash : Name → Name) (name : Name) : Name :=
  if name.length ≤ 63 then name else name.take 54 ++ '_'::(hash name).take 8

def getTableName (name : Name) : Name := ['z','v','d','_'] ++ name

def joined (source target : Name) : Name := ['z','v','d','_','j','n','c','_'] ++ (source ++ '_'::target)

def junctionTable (hash : Name → Name) (source target : Name) : Name := pgIdentifier hash (joined source target)

-- /^zvd_jnc_[a-z][a-z0-9_]*$/
def isEngineJunction (name : Name) : Bool := name.take 8 = ['z','v','d','_','j','n','c','_'] && SAFE_NAME_RE (name.drop 8)

-- /^zvd_[a-z][a-z0-9_]*$/
def safeTable (name : Name) : Bool := name.take 4 = ['z','v','d','_'] && SAFE_NAME_RE (name.drop 4)

def column (name : Name) : Name := truncated (name ++ ['_','i','d'])

def rowId : Name := ['i','d']
def created_at : Name := ['c','r','e','a','t','e','d','_','a','t']
def tenant : Name := ['t','e','n','a','n','t']
def tenant_id : Name := ['t','e','n','a','n','t','_','i','d']

section
variable {source target one other : Name} {hash : Name → Name}

theorem joined_length : (joined source target).length = source.length + target.length + 9 := by
  simp only [joined,List.length_cons,List.length_append,List.length_nil]
  omega

theorem joined_left (same : joined source target = joined other target) : source = other := by
  exact List.append_cancel_right (List.append_cancel_left same)

theorem identifier_length (name : Name) : (pgIdentifier hash name).length ≤ 63 := by
  unfold pgIdentifier
  split
  · assumption
  · simp only [List.length_append,List.length_cons,List.length_take]
    omega

theorem identifier_short (short : one.length ≤ 63) (brief : other.length ≤ 63) (same : pgIdentifier hash one = pgIdentifier hash other) : one = other := by
  unfold pgIdentifier at same
  rwa [if_pos short,if_pos brief] at same

theorem identifier_long (long : 63 < one.length) (wide : 63 < other.length) (same : pgIdentifier hash one = pgIdentifier hash other) :
    (hash one).take 8 = (hash other).take 8 := by
  unfold pgIdentifier at same
  rw [if_neg (Nat.not_le.mpr long),if_neg (Nat.not_le.mpr wide)] at same
  have cuts : (one.take 54).length = (other.take 54).length := by
    rw [List.length_take,List.length_take]
    omega
  exact (List.cons.inj (List.append_inj same cuts).2).2

theorem column_length : (column source).length = min 63 (source.length + 3) := by
  simp only [column,truncated,List.length_take,List.length_append]
  rfl

theorem column_short (short : source.length ≤ 60) : column source = source ++ ['_','i','d'] := by
  unfold column truncated
  refine List.take_of_length_le ?_
  rw [List.length_append]
  exact Nat.add_le_add_right short 3

theorem column_injective (short : source.length ≤ 59) (same : column source = column other) : source = other := by
  have lengths := congrArg List.length same
  rw [column_length,column_length] at lengths
  have brief : other.length ≤ 60 := by omega
  rw [column_short (by omega),column_short brief] at same
  exact List.append_cancel_right same

theorem column_last (short : source.length ≤ 60) : (column source).getLast? = some 'd' := by
  rw [column_short short]
  simp

theorem column_common (side : source ≠ tenant) : column source ∉ [rowId,created_at,tenant_id] := by
  have length : (column source).length = min 63 (source.length + 3) := column_length
  intro member
  rcases List.mem_cons.mp member with same | member
  · rw [same] at length
    change 2 = _ at length
    omega
  rcases List.mem_cons.mp member with same | member
  · have last : (column source).getLast? = some 'd' := column_last (by rw [same] at length; change 10 = _ at length; omega)
    rw [same] at last
    cases last
  · have same := List.mem_singleton.mp member
    rw [same] at length
    change 9 = _ at length
    rw [column_short (by omega)] at same
    change source ++ ['_','i','d'] = tenant ++ ['_','i','d'] at same
    exact side (List.append_cancel_right same)

-- The same two names, or the two the other way round where that is read the same.
def Alike (source target one other : Name) : Prop :=
  (source = one ∧ target = other) ∨ (source = other ∧ target = one ∧ joined source target = joined target source)

theorem alike_trans {first second : Name} (left : Alike source target first second) (right : Alike one other first second) : Alike source target one other := by
  rcases left with ⟨rfl,rfl⟩ | ⟨rfl,rfl,same⟩
  · rcases right with ⟨rfl,rfl⟩ | ⟨rfl,rfl,same⟩
    · exact .inl ⟨rfl,rfl⟩
    · exact .inr ⟨rfl,rfl,same.symm⟩
  · rcases right with ⟨rfl,rfl⟩ | ⟨rfl,rfl,_⟩
    · exact .inr ⟨rfl,rfl,same⟩
    · exact .inl ⟨rfl,rfl⟩

theorem table_alike (short : target.length ≤ 59) (brief : other.length ≤ 59) (sides : source ≠ target)
    (injects : 63 < (joined source target).length → 63 < (joined one other).length →
      (hash (joined source target)).take 8 = (hash (joined one other)).take 8 → joined source target = joined one other)
    (table : junctionTable hash source target = junctionTable hash one other)
    (left : column source = column one ∨ column source = column other) (right : column target = column one ∨ column target = column other) :
    Alike source target one other := by
  have apart : column target ≠ column source := fun same => sides (column_injective short same).symm
  rcases right with same | same
  · cases column_injective short same
    rcases left with never | back
    · exact absurd never.symm apart
    · cases column_injective brief back.symm
      refine .inr ⟨rfl,rfl,?_⟩
      by_cases limit : (joined source target).length ≤ 63
      · refine identifier_short limit ?_ table
        rw [joined_length] at limit ⊢
        omega
      · have wide : 63 < (joined target source).length := by
          rw [joined_length] at limit ⊢
          omega
        exact injects (Nat.not_le.mp limit) wide (identifier_long (Nat.not_le.mp limit) wide table)
  · cases column_injective short same
    rcases left with back | never
    · refine .inl ⟨?_,rfl⟩
      by_cases limit : one.length ≤ 59
      · exact (column_injective limit back.symm).symm
      · have lengths := congrArg List.length back
        rw [column_length,column_length] at lengths
        have wide : 63 < (joined source target).length := by
          rw [joined_length]
          omega
        have long : 63 < (joined one target).length := by
          rw [joined_length]
          omega
        exact joined_left (injects wide long (identifier_long wide long table))
    · exact absurd never.symm apart

end

end Zveltio.JunctionNames
