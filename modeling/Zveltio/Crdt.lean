import Zveltio.Fields
import Mathlib.Order.Lattice
namespace Zveltio.Crdt

open Fields

-- Names that an object without such an entry still answers, by its prototype.
def prototypeNames : List String :=
  ["constructor","toString","toLocaleString","valueOf","hasOwnProperty","isPrototypeOf","propertyIsEnumerable",
    "__defineGetter__","__defineSetter__","__lookupGetter__","__lookupSetter__"]

def inherited (name : FieldName) : Bool := prototypeNames.contains name.val

-- clientId is any linearly ordered type; the source orders strings.
structure LWWField (ν : Type u) (ι : Type v) where
  value : ν
  lamport : Nat
  clientId : ι
  deriving DecidableEq

abbrev LWWDocument (ν : Type u) (ι : Type v) := Record FieldName (LWWField ν ι)

section
variable {ν : Type u} {ι : Type v}

-- What localDoc[key] finds: an entry, a method of the prototype, or undefined.
inductive Found (μ : Type w) where
  | own (value : μ)
  | inherited
  | absent

def index (object : Record FieldName μ) (key : FieldName) : Found μ :=
  match object.lookup key with
  | some value => .own value
  | none => if inherited key then .inherited else .absent

def toDocument (data : Record FieldName ν) (lamport : Nat) (clientId : ι) : LWWDocument ν ι :=
  assignEach (fun _ value => some ⟨value,lamport,clientId⟩) ∅ data

def fromDocument (doc : LWWDocument ν ι) : Record FieldName ν :=
  assignEach (fun _ field => some field.value) ∅ doc

@[simp] theorem lookup_toDocument (data : Record FieldName ν) (lamport : Nat) (clientId : ι) (key : FieldName) :
    (toDocument data lamport clientId).lookup key = (data.lookup key).map fun value => ⟨value,lamport,clientId⟩ := by
  rw [toDocument,lookup_assignEach,AList.lookup_empty,Option.or_none]
  cases data.lookup key <;> rfl

@[simp] theorem lookup_fromDocument (doc : LWWDocument ν ι) (key : FieldName) :
    (fromDocument doc).lookup key = (doc.lookup key).map LWWField.value := by
  rw [fromDocument,lookup_assignEach,AList.lookup_empty,Option.or_none]
  cases doc.lookup key <;> rfl

variable [LinearOrder ι]

def LWWField.older (field other : LWWField ν ι) : Prop :=
  field.lamport < other.lamport ∨ (other.lamport = field.lamport ∧ field.clientId < other.clientId)

instance (field other : LWWField ν ι) : Decidable (field.older other) :=
  inferInstanceAs (Decidable (_ ∨ _))

-- One key of the remote document against the local one. A prototype method is
-- truthy and carries no lamport, so every comparison with it is false.
def takeRemote (localDoc : LWWDocument ν ι) (key : FieldName) (remoteField : LWWField ν ι) :
    Option (LWWField ν ι) :=
  match index localDoc key with
  | .absent => some remoteField
  | .inherited => none
  | .own localField =>
    if localField.lamport < remoteField.lamport then some remoteField
    else if remoteField.lamport = localField.lamport ∧ localField.clientId < remoteField.clientId then some remoteField
    else none

def mergeLWW (localDoc remoteDoc : LWWDocument ν ι) : LWWDocument ν ι :=
  assignEach (takeRemote localDoc) localDoc remoteDoc

theorem lookup_mergeLWW (localDoc remoteDoc : LWWDocument ν ι) (key : FieldName) :
    (mergeLWW localDoc remoteDoc).lookup key =
      ((remoteDoc.lookup key).bind (takeRemote localDoc key)).or (localDoc.lookup key) :=
  lookup_assignEach _ _ _ _

theorem mergeLWW_own (here : localDoc.lookup key = some (localField : LWWField ν ι))
    (there : remoteDoc.lookup key = some remoteField) :
    (mergeLWW localDoc remoteDoc).lookup key =
      some (if localField.older remoteField then remoteField else localField) := by
  rw [lookup_mergeLWW,here,there]
  simp only [Option.bind_some,takeRemote,index,here,LWWField.older]
  split
  · simp [*]
  · split <;> simp [*]

theorem mergeLWW_local (there : remoteDoc.lookup key = none) :
    (mergeLWW (localDoc : LWWDocument ν ι) remoteDoc).lookup key = localDoc.lookup key := by
  rw [lookup_mergeLWW,there]
  rfl

theorem mergeLWW_remote (here : localDoc.lookup key = none) (there : remoteDoc.lookup key = some remoteField) :
    (mergeLWW (localDoc : LWWDocument ν ι) remoteDoc).lookup key =
      if inherited key then none else some remoteField := by
  rw [lookup_mergeLWW,here,there]
  simp only [Option.bind_some,takeRemote,index,here]
  cases inherited key <;> rfl

theorem older_asymm (older : (field : LWWField ν ι).older other) : ¬other.older field := by
  unfold LWWField.older at *
  rintro (less | ⟨equal,less⟩)
  · rcases older with first | ⟨same,_⟩ <;> omega
  · rcases older with first | ⟨_,first⟩
    · omega
    · exact absurd (lt_trans less first) (lt_irrefl _)

end

-- The in-memory Lamport clock of one client.
structure LamportClock (ι : Type v) where
  value : Nat
  clientId : ι
  deriving DecidableEq

def LamportClock.tick (clock : LamportClock ι) : LamportClock ι := {clock with value := clock.value + 1}

def LamportClock.update (clock : LamportClock ι) (received : Nat) : LamportClock ι :=
  {clock with value := max clock.value received + 1}

end Zveltio.Crdt
