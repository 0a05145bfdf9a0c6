import Mathlib.Data.List.Infix
namespace Zveltio.Savepoints

-- A transaction's connection as PostgreSQL keeps it: savepoints newest first, each with what it was set on.
structure Connection (ν : Type u) (σ : Type v) where
  now : σ
  stack : List (ν × σ)
  aborted : Bool

section
variable {ν : Type u} {σ : Type v} [DecidableEq ν]

def start (now : σ) : Connection ν σ := ⟨now,[],false⟩

-- A failed statement aborts the transaction, an aborted one refuses everything but a rollback.
def statement (effect : σ → Option σ) (conn : Connection ν σ) : Bool × Connection ν σ :=
  if conn.aborted then (false,conn) else
  match effect conn.now with
  | some next => (true,{ conn with now := next })
  | none => (false,{ conn with aborted := true })

omit [DecidableEq ν] in
theorem statement_failed {effect : σ → Option σ} {conn : Connection ν σ} (failed : (statement effect conn).1 = false) :
    (statement effect conn).2.aborted = true := by
  unfold statement at failed ⊢
  split
  · assumption
  · split
    · simp_all
    · rfl

omit [DecidableEq ν] in
theorem statement_done {effect : σ → Option σ} {conn : Connection ν σ} (done : (statement effect conn).1 = true) :
    (statement effect conn).2.aborted = false := by
  unfold statement at done ⊢
  split at done
  · cases done
  · next usable =>
    rw [if_neg usable]
    split at done
    · simpa using usable
    · cases done

def savepoint (name : ν) (conn : Connection ν σ) : Bool × Connection ν σ :=
  if conn.aborted then (false,conn) else (true,{ conn with stack := (name,conn.now)::conn.stack })

-- The most recent savepoint of the name and those set before it.
def newest (name : ν) : List (ν × σ) → List (ν × σ)
  | [] => []
  | entry::rest => if entry.1 = name then entry::rest else newest name rest

def release (name : ν) (conn : Connection ν σ) : Bool × Connection ν σ :=
  if conn.aborted then (false,conn) else
  match newest name conn.stack with
  | _::rest => (true,{ conn with stack := rest })
  | [] => (false,{ conn with aborted := true })

-- The savepoint rolled back to stays.
def rollbackTo (name : ν) (conn : Connection ν σ) : Bool × Connection ν σ :=
  match newest name conn.stack with
  | entry::rest => (true,⟨entry.2,entry::rest,false⟩)
  | [] => (false,{ conn with aborted := true })

theorem newest_above (name : ν) (left below : List (ν × σ)) (saved : σ) :
    ∃ front, newest name (left ++ (name,saved)::below) = front ++ (name,saved)::below := by
  induction left with
  | nil => exact ⟨[],if_pos rfl⟩
  | cons head rest ih =>
    rw [List.cons_append,newest]
    split
    · exact ⟨head::rest,rfl⟩
    · exact ih

theorem newest_some (name : ν) (left below : List (ν × σ)) (saved : σ) :
    ∃ entry rest, newest name (left ++ (name,saved)::below) = entry::rest ∧ below <:+ rest := by
  obtain ⟨front,shape⟩ := newest_above name left below saved
  cases front with
  | nil => exact ⟨_,_,shape,List.suffix_rfl⟩
  | cons head front => exact ⟨_,_,shape,⟨front ++ [(name,saved)],by simp⟩⟩

end

-- Savepoints named by how many there are, the oldest 1.
section
variable {σ : Type v}

def Numbered : List (Nat × σ) → Prop
  | [] => True
  | (name,_)::rest => name = rest.length + 1 ∧ Numbered rest

theorem newest_numbered {stack : List (Nat × σ)} (numbered : Numbered stack) (below : Nat) :
    newest (below + 1) stack = if below < stack.length then stack.drop (stack.length - (below + 1)) else [] := by
  induction stack with
  | nil => rfl
  | cons head rest ih =>
    obtain ⟨name,saved⟩ := head
    obtain ⟨same,later⟩ := numbered
    simp only [newest,same,Nat.add_right_cancel_iff,List.length_cons]
    by_cases here : rest.length = below
    · simp [here]
    · rw [if_neg here,ih later]
      by_cases deep : below < rest.length
      · rw [if_pos deep,if_pos (Nat.lt_succ_of_lt deep),show rest.length + 1 - (below + 1) = (rest.length - (below + 1)) + 1 by omega,
          List.drop_succ_cons]
      · rw [if_neg deep,if_neg (by omega)]

theorem numbered_drop {stack : List (Nat × σ)} (numbered : Numbered stack) (count : Nat) : Numbered (stack.drop count) := by
  induction stack generalizing count with
  | nil =>
    rw [List.drop_nil]
    trivial
  | cons head rest ih =>
    cases count with
    | zero => exact numbered
    | succ count => exact ih numbered.2 count

end

-- Transactions inside one another, as they are meant: an inner one works on what the outer one has,
-- hands over what it made when it succeeds, and is forgotten when it does not.
structure Nested (σ : Type v) where
  now : σ
  outer : List σ
  aborted : Bool

section
variable {σ : Type v}

def Nested.statement (effect : σ → Option σ) (nested : Nested σ) : Nested σ :=
  if nested.aborted then nested else
  match effect nested.now with
  | some next => { nested with now := next }
  | none => { nested with aborted := true }

def Nested.open (nested : Nested σ) : Nested σ := { nested with outer := nested.now::nested.outer }

def Nested.close (kept : Bool) (nested : Nested σ) : Option (Nested σ) :=
  match nested.outer with
  | [] => none
  | before::outer => some ⟨if kept && !nested.aborted then nested.now else before,outer,false⟩

end

end Zveltio.Savepoints
