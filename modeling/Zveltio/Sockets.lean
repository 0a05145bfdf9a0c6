import Zveltio.Tables
import Zveltio.IpText
namespace Zveltio.Sockets
open Tables
open IpText (Text)

-- channel.split(':')[0]
def base (channel : Text) : Text := channel.takeWhile (· ≠ ':')

def SCHEMA_CHANNEL : Text := "$schema".toList

structure WSConnection (User : Type u) (Scope : Type v) where
  user : User
  tenantId : Option Text
  subscriptions : List Text
  access : Table Text Scope

-- connections: connectionId -> WSConnection; subscriptionIndex: channel -> Set<connectionId>.
structure Registry (User : Type u) (Scope : Type v) where
  connections : Table Text (WSConnection User Scope)
  subscriptionIndex : Table Text (List Text)

section
variable {User : Type u} {Scope : Type v}

local instance lawfulText : LawfulBEq Text := inferInstance

-- Set.add and Set.delete
def add (items : List Text) (item : Text) : List Text := if item ∈ items then items else items ++ [item]

def remove (items : List Text) (item : Text) : List Text := items.filter (· ≠ item)

def indexSubscription (index : Table Text (List Text)) (channel connId : Text) : Table Text (List Text) :=
  index.set channel (add ((index.get channel).getD []) connId)

def unindexSubscription (index : Table Text (List Text)) (channel connId : Text) : Table Text (List Text) :=
  match index.get channel with
  | none => index
  | some ids => if remove ids connId = [] then index.delete channel else index.set channel (remove ids connId)

def unindexAllSubscriptions (index : Table Text (List Text)) (connId : Text) (subscriptions : List Text) : Table Text (List Text) :=
  subscriptions.foldl (fun index channel => unindexSubscription index channel connId) index

-- websocketHandler.open
def Registry.opened (registry : Registry User Scope) (connId : Text) (user : User) (tenantId : Option Text) : Registry User Scope :=
  {registry with connections := registry.connections.set connId ⟨user,tenantId,[],[]⟩}

def cleanupSocket (registry : Registry User Scope) (connId : Text) : Registry User Scope :=
  match registry.connections.get connId with
  | none => registry
  | some conn => ⟨registry.connections.delete connId,unindexAllSubscriptions registry.subscriptionIndex connId conn.subscriptions⟩

def Listed (index : Table Text (List Text)) (channel connId : Text) : Prop := connId ∈ (index.get channel).getD []

@[simp] theorem mem_add (items : List Text) (item other : Text) : other ∈ add items item ↔ other = item ∨ other ∈ items := by
  unfold add
  split
  · next held =>
    refine ⟨.inr,fun member => ?_⟩
    rcases member with rfl | member
    · exact held
    · exact member
  · rw [List.mem_append,List.mem_singleton,or_comm]

@[simp] theorem mem_remove (items : List Text) (item other : Text) : other ∈ remove items item ↔ other ∈ items ∧ other ≠ item := by
  rw [remove,List.mem_filter,decide_eq_true_eq]

theorem listed_index (index : Table Text (List Text)) (channel connId other id : Text) :
    Listed (indexSubscription index channel connId) other id ↔ (other = channel ∧ id = connId) ∨ Listed index other id := by
  unfold Listed indexSubscription
  rw [get_set]
  split
  · next same => rw [same,Option.getD_some,mem_add,and_iff_right rfl]
  · next apart => rw [or_iff_right fun both => apart both.1]

theorem listed_unindex (index : Table Text (List Text)) (channel connId other id : Text) :
    Listed (unindexSubscription index channel connId) other id ↔ Listed index other id ∧ ¬(other = channel ∧ id = connId) := by
  unfold Listed unindexSubscription
  split
  · next absent =>
    refine ⟨fun member => ⟨member,fun both => ?_⟩,And.left⟩
    rw [both.1,absent] at member
    exact absurd member List.not_mem_nil
  · next ids found =>
    have kept : id ∈ remove ids connId ↔ id ∈ (index.get channel).getD [] ∧ ¬id = connId := by rw [found,mem_remove,Option.getD_some]
    split
    · next none =>
      rw [get_delete]
      split
      · next same =>
        rw [none] at kept
        rw [same,and_iff_right rfl,← kept]
        rfl
      · next apart => exact (and_iff_left fun both => apart both.1).symm
    · rw [get_set]
      split
      · next same => rw [same,and_iff_right rfl,← kept,Option.getD_some]
      · next apart => exact (and_iff_left fun both => apart both.1).symm

theorem listed_unindexAll (index : Table Text (List Text)) (connId : Text) (subscriptions : List Text) (other id : Text) :
    Listed (unindexAllSubscriptions index connId subscriptions) other id ↔ Listed index other id ∧ ¬(other ∈ subscriptions ∧ id = connId) := by
  unfold unindexAllSubscriptions
  induction subscriptions generalizing index with
  | nil => exact (and_iff_left fun both => absurd both.1 List.not_mem_nil).symm
  | cons channel rest ih =>
    rw [List.foldl_cons,ih,listed_unindex,List.mem_cons]
    tauto

end

end Zveltio.Sockets
