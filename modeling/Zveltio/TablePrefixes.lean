import Mathlib.Data.List.Infix
import Mathlib.Data.Bool.AllAny
namespace Zveltio.TablePrefixes

-- Longest match over any finite set of fronts: a text belongs to the front that begins it and that no longer one refines.
section
variable {α : Type}

def Longest (fronts : List (List α)) (front text : List α) : Prop :=
  front <+: text ∧ ∀ longer ∈ fronts, front.length < longer.length → front <+: longer → ¬ longer <+: text

theorem Longest.unique {fronts : List (List α)} (here : first ∈ fronts) (there : second ∈ fronts)
    (one : Longest fronts first text) (other : Longest fronts second text) : first = second := by
  rcases Nat.lt_trichotomy first.length second.length with less | same | more
  · exact absurd other.1 (one.2 second there less (List.prefix_of_prefix_length_le one.1 other.1 less.le))
  · exact (List.prefix_of_prefix_length_le one.1 other.1 same.le).eq_of_length same
  · exact absurd one.1 (other.2 first here more (List.prefix_of_prefix_length_le other.1 one.1 more.le))

theorem Longest.itself (fronts : List (List α)) (front : List α) : Longest fronts front front :=
  ⟨List.prefix_refl front,fun _ _ longer _ whole => absurd whole.length_le (by omega)⟩

end

-- Code units, as the program's strings have them.
abbrev Text := List UInt16

def text (ascii : String) : Text := ascii.toList.map fun char => UInt16.ofNat char.toNat

def capital (unit : UInt16) : Bool := 65 ≤ unit && unit ≤ 90

def alphanumeric (unit : UInt16) : Bool := (48 ≤ unit && unit ≤ 57) || capital unit || (97 ≤ unit && unit ≤ 122)

def lowerUnit (unit : UInt16) : UInt16 := if capital unit then unit + 32 else unit

section
-- What a unit that is not ASCII becomes, by the units before it, itself and those after it.
variable (wide : Text → UInt16 → Text → Text)

def lowerFrom (before : Text) : Text → Text
  | [] => []
  | unit::rest => (if unit < 128 then [lowerUnit unit] else wide before unit rest) ++ lowerFrom (before ++ [unit]) rest

def toLowerCase (units : Text) : Text := lowerFrom wide [] units

-- 95 is the underscore.
def fold (unit : UInt16) : UInt16 := if alphanumeric unit then unit else 95

def ownedPrefixFor (extName : Text) : Text := text "zv_" ++ extName.map fold ++ text "_"

-- A Map keeps the place of a key that is set again.
def set (known : List (Text × Text)) (name value : Text) : List (Text × Text) :=
  match known with
  | [] => [(name,value)]
  | entry::rest => if entry.1 = name then (name,value)::rest else entry::set rest name value

def noteExtensionNames (known : List (Text × Text)) (names : List Text) : List (Text × Text) :=
  names.foldl (fun known name => set known name (toLowerCase wide (ownedPrefixFor name))) known

def longerOwnedPrefixes (known : List (Text × Text)) (extName : Text) : List Text :=
  let mine := toLowerCase wide (ownedPrefixFor extName)
  (known.map Prod.snd).filter fun owned => mine.length < owned.length && mine.isPrefixOf owned

def ownsByPrefix (known : List (Text × Text)) (extName table : Text) : Bool :=
  let t := toLowerCase wide table
  if (toLowerCase wide (ownedPrefixFor extName)).isPrefixOf t then
    !(longerOwnedPrefixes wide known extName).any fun owned => owned.isPrefixOf t
  else false

-- What the prefixes are for: a table has one owner, and each extension the tables of its own prefix.
structure Partition (names : List Text) : Prop where
  alone : ∀ table, ∀ one ∈ names, ∀ other ∈ names, ownsByPrefix wide (noteExtensionNames wide [] names) one table = true →
    ownsByPrefix wide (noteExtensionNames wide [] names) other table = true → one = other
  own : ∀ name ∈ names, ∀ rest, (∀ longer ∈ longerOwnedPrefixes wide (noteExtensionNames wide [] names) name,
      ¬ longer <+: toLowerCase wide (ownedPrefixFor name ++ rest)) →
    ownsByPrefix wide (noteExtensionNames wide [] names) name (ownedPrefixFor name ++ rest) = true

-- Names alike but for case and for what stands at their signs.
def foldName (name : Text) : Text := name.map fun unit => lowerUnit (fold unit)

end

theorem fold_ascii (unit : UInt16) : fold unit < 128 := by
  unfold fold
  split
  · rename_i word
    simp only [alphanumeric,capital,Bool.or_eq_true,Bool.and_eq_true,decide_eq_true_eq,UInt16.le_iff_toNat_le,UInt16.lt_iff_toNat_lt] at *
    have bounds : (57 : UInt16).toNat = 57 ∧ (90 : UInt16).toNat = 90 ∧ (122 : UInt16).toNat = 122 ∧ (128 : UInt16).toNat = 128 := by decide
    omega
  · decide

theorem prefix_ascii (name : Text) : ∀ unit ∈ ownedPrefixFor name, unit < 128 := by
  intro unit member
  simp only [ownedPrefixFor,List.mem_append,List.mem_map] at member
  rcases member with (head | ⟨inner,_,rfl⟩) | last
  · have front : ∀ unit ∈ text "zv_", unit < 128 := List.all_iff_forall_prop.mp (by decide)
    exact front unit head
  · exact fold_ascii inner
  · have back : ∀ unit ∈ text "_", unit < 128 := List.all_iff_forall_prop.mp (by decide)
    exact back unit last

section
variable {wide : Text → UInt16 → Text → Text}

theorem lowerFrom_ascii (before : Text) (ascii : ∀ unit ∈ front, unit < 128) (rest : Text) :
    lowerFrom wide before (front ++ rest) = front.map lowerUnit ++ lowerFrom wide (before ++ front) rest := by
  induction front generalizing before with
  | nil => simp
  | cons unit front ih =>
    have later := ih (before ++ [unit]) fun other member => ascii other (List.mem_cons_of_mem _ member)
    simp [lowerFrom,ascii unit (List.mem_cons_self ..),later]

theorem lower_ascii (ascii : ∀ unit ∈ front, unit < 128) : toLowerCase wide front = front.map lowerUnit := by
  have whole : lowerFrom wide [] (front ++ []) = _ := lowerFrom_ascii [] ascii []
  simpa [lowerFrom,toLowerCase] using whole

theorem lower_front (ascii : ∀ unit ∈ front, unit < 128) (rest : Text) : toLowerCase wide front <+: toLowerCase wide (front ++ rest) := by
  rw [lower_ascii ascii,toLowerCase,lowerFrom_ascii [] ascii]
  exact List.prefix_append ..

theorem lower_same (one other : Text) :
    toLowerCase wide (ownedPrefixFor one) = toLowerCase wide (ownedPrefixFor other) ↔ foldName one = foldName other := by
  rw [lower_ascii (prefix_ascii one),lower_ascii (prefix_ascii other)]
  simp [ownedPrefixFor,foldName,Function.comp_def]

theorem mem_set {known : List (Text × Text)} {name value : Text} {entry : Text × Text} (member : entry ∈ set known name value) :
    entry = (name,value) ∨ entry ∈ known := by
  induction known with
  | nil => exact .inl (List.mem_singleton.mp member)
  | cons head rest ih =>
    unfold set at member
    split at member
    · rcases List.mem_cons.mp member with rfl | old
      · exact .inl rfl
      · exact .inr (List.mem_cons_of_mem _ old)
    · rcases List.mem_cons.mp member with rfl | old
      · exact .inr (List.mem_cons_self ..)
      · exact (ih old).imp_right (List.mem_cons_of_mem _)

theorem set_mem (known : List (Text × Text)) (name value : Text) : (name,value) ∈ set known name value := by
  induction known with
  | nil => exact List.mem_singleton_self _
  | cons head rest ih =>
    unfold set
    split
    · exact List.mem_cons_self ..
    · exact List.mem_cons_of_mem _ ih

theorem set_kept {known : List (Text × Text)} {entry : Text × Text} (member : entry ∈ known) (apart : entry.1 ≠ name) (value : Text) :
    entry ∈ set known name value := by
  induction known with
  | nil => cases member
  | cons head rest ih =>
    unfold set
    rcases List.mem_cons.mp member with rfl | old
    · rw [if_neg apart]
      exact List.mem_cons_self ..
    · split
      · exact List.mem_cons_of_mem _ old
      · exact List.mem_cons_of_mem _ (ih old)

theorem noted_iff (known : List (Text × Text)) (own : ∀ entry ∈ known, entry.2 = toLowerCase wide (ownedPrefixFor entry.1)) (names : List Text)
    (entry : Text × Text) : entry ∈ noteExtensionNames wide known names ↔
      entry ∈ known ∨ ∃ name ∈ names, entry = (name,toLowerCase wide (ownedPrefixFor name)) := by
  induction names generalizing known with
  | nil => simp [noteExtensionNames]
  | cons name names ih =>
    have later := ih (set known name (toLowerCase wide (ownedPrefixFor name))) (by
      intro one member
      rcases mem_set member with rfl | old
      · rfl
      · exact own one old)
    rw [noteExtensionNames,List.foldl_cons,← noteExtensionNames,later]
    constructor
    · rintro (there | ⟨other,member,rfl⟩)
      · rcases mem_set there with rfl | old
        · exact .inr ⟨name,List.mem_cons_self ..,rfl⟩
        · exact .inl old
      · exact .inr ⟨other,List.mem_cons_of_mem _ member,rfl⟩
    · rintro (old | ⟨other,member,rfl⟩)
      · by_cases same : entry.1 = name
        · left
          have whole : entry = (name,toLowerCase wide (ownedPrefixFor name)) := Prod.ext same (by rw [own entry old,same])
          rw [whole]
          exact set_mem ..
        · exact .inl (set_kept old same _)
      · rcases List.mem_cons.mp member with rfl | later
        · exact .inl (set_mem ..)
        · exact .inr ⟨other,later,rfl⟩

theorem known_iff (names : List Text) (owned : Text) :
    owned ∈ (noteExtensionNames wide [] names).map Prod.snd ↔ ∃ name ∈ names, owned = toLowerCase wide (ownedPrefixFor name) := by
  simp only [List.mem_map,noted_iff [] (by simp) names,List.not_mem_nil,false_or]
  constructor
  · rintro ⟨_,⟨name,member,rfl⟩,rfl⟩
    exact ⟨name,member,rfl⟩
  · rintro ⟨name,member,rfl⟩
    exact ⟨_,⟨name,member,rfl⟩,rfl⟩

theorem owns_longest (known : List (Text × Text)) (extName table : Text) : ownsByPrefix wide known extName table = true ↔
    Longest (known.map Prod.snd) (toLowerCase wide (ownedPrefixFor extName)) (toLowerCase wide table) := by
  unfold ownsByPrefix Longest longerOwnedPrefixes
  simp only [List.any_filter,Bool.if_false_right,Bool.and_eq_true,decide_eq_true_eq,List.isPrefixOf_iff_prefix,Bool.not_eq_true',
    List.any_eq_false,not_and,Bool.and_eq_true,and_imp]

theorem own_holds (names : List Text) (name rest : Text)
    (clear : ∀ longer ∈ longerOwnedPrefixes wide (noteExtensionNames wide [] names) name,
      ¬ longer <+: toLowerCase wide (ownedPrefixFor name ++ rest)) :
    ownsByPrefix wide (noteExtensionNames wide [] names) name (ownedPrefixFor name ++ rest) = true := by
  refine (owns_longest _ _ _).mpr ⟨lower_front (prefix_ascii name) rest,fun longer member more refines => clear longer ?_⟩
  exact List.mem_filter.mpr ⟨member,by simp [more,refines]⟩

theorem owners_alone (names : List Text) :
    Partition wide names ↔ ∀ one ∈ names, ∀ other ∈ names, foldName one = foldName other → one = other := by
  constructor
  · intro partition one here other there same
    have prefixes : toLowerCase wide (ownedPrefixFor one) = _ := (lower_same one other).mpr same
    have itself := Longest.itself ((noteExtensionNames wide [] names).map Prod.snd) (toLowerCase wide (ownedPrefixFor one))
    refine partition.alone (ownedPrefixFor one) one here other there ((owns_longest _ _ _).mpr itself) ((owns_longest _ _ _).mpr ?_)
    rw [← prefixes]
    exact itself
  · intro apart
    refine ⟨?_,fun name _ rest clear => own_holds names name rest clear⟩
    intro table one here other there first second
    have same := Longest.unique ((known_iff names _).mpr ⟨one,here,rfl⟩) ((known_iff names _).mpr ⟨other,there,rfl⟩)
      ((owns_longest _ _ _).mp first) ((owns_longest _ _ _).mp second)
    exact apart one here other there ((lower_same one other).mp same)

-- Two names of the catalog's form own one table together.
theorem dash_and_slash : ¬ ∀ (wide : Text → UInt16 → Text → Text) (names : List Text), names.Nodup → (∀ name ∈ names, name ≠ []) →
    Partition wide names := by
  intro always
  have partition := always (fun _ _ _ => []) [text "crm/leads",text "crm-leads"] (by decide) (by decide)
  have same := partition.alone (text "zv_crm_leads_notes") (text "crm/leads") (by decide) (text "crm-leads") (by decide) (by decide) (by decide)
  revert same
  decide

end

end Zveltio.TablePrefixes
