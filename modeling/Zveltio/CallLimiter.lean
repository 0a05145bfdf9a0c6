import Zveltio.Runs
import Zveltio.Parties
namespace Zveltio.CallLimiter
open Runs Parties

-- woken: on its way to the loop's test, the first time or because its resolver was called.
inductive Phase where
  | refused | waiting | woken | running
  | finished (failed : Bool)
  deriving DecidableEq

-- A call is its place in calls. started watches the calls of fn.
structure State where
  total : Nat
  active : Nat
  waiting : List Nat
  calls : List Phase
  started : List Nat
  deriving DecidableEq

def State.start : State := ⟨0,0,[],[],[]⟩

inductive Action where
  | call
  | resume (call : Nat)
  | finish (call : Nat) (failed : Bool)

def State.become (state : State) (call : Nat) (phase : Phase) : State := {state with calls := state.calls.modify call fun _ => phase}

section
variable (max : Option Nat) (inFlight : Nat)

-- No bound is Number.POSITIVE_INFINITY.
def exceeds (total : Nat) : Bool := max.any (· < total)

-- The loop's test, and what it leads to.
def enter (state : State) (call : Nat) : State :=
  if inFlight ≤ state.active then {state.become call .waiting with waiting := state.waiting ++ [call]}
  else {state.become call .running with active := state.active + 1,started := state.started ++ [call]}

-- finally, whether fn's promise fulfilled or rejected
def leave (state : State) (call : Nat) (failed : Bool) : State :=
  let left := {state.become call (.finished failed) with active := state.active - 1}
  match state.waiting with
  | [] => left
  | first::rest => {left.become first .woken with waiting := rest}

def step (state : State) : Action → Option State
  | .call =>
    if exceeds max (state.total + 1) then some {state with total := state.total + 1,calls := state.calls ++ [.refused]}
    else some (enter inFlight {state with total := state.total + 1,calls := state.calls ++ [.woken]} state.calls.length)
  | .resume call => if state.calls[call]? = some .woken then some (enter inFlight state call) else none
  | .finish call failed => if state.calls[call]? = some .running then some (leave state call failed) else none

end

def running (phase : Phase) : Bool := phase = .running

def woken (phase : Phase) : Bool := phase = .woken

def waits (phase : Phase) : Bool := phase = .waiting

def ran : Phase → Bool
  | .running => true
  | .finished _ => true
  | _ => false

section
variable {max : Option Nat} {inFlight : Nat} {state after : State}

end

-- Two slots and three calls in all: the third waits, is woken and runs, the fourth is one too many.
def four : State := ⟨4,2,[],[.finished true,.running,.running,.refused],[0,1,2]⟩

end Zveltio.CallLimiter
