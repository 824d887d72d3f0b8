import Moore.Error
import Moore.State

/-
# Stores

A store owns states and transitions and hands out handles to them.  It only grows, so a
handle keeps referring to the same entity.
-/

namespace Moore

structure Store where
  states : List State := []
  transitions : List Transition := []
  deriving DecidableEq, Inhabited

namespace Store

def state? (s : Store) (id : StateId) : Option State :=
  s.states[id.index]?

def transition? (s : Store) (id : TransitionId) : Option Transition :=
  s.transitions[id.index]?

/-- Refuses the handle of a state that is not stored. -/
def checkState (s : Store) (id : StateId) : Except ModelError Unit :=
  if id.index < s.states.length then .ok () else .error (.unknownState id)

/-- Refuses the handle of a transition that is not stored. -/
def checkTransition (s : Store) (id : TransitionId) : Except ModelError Unit :=
  if id.index < s.transitions.length then .ok () else .error (.unknownTransition id)

/-- The handle of the state stored next. -/
def nextState (s : Store) : StateId :=
  ⟨s.states.length⟩

/-- The handle of the transition stored next. -/
def nextTransition (s : Store) : TransitionId :=
  ⟨s.transitions.length⟩

/-- Stores a state. -/
def addState (s : Store) (state : State) : Store :=
  { s with states := s.states ++ [state] }

/-- Stores a transition between stored states. -/
def addTransition (s : Store) (t : Transition) : Except ModelError Store := do
  s.checkState t.source
  s.checkState t.destination
  return { s with transitions := s.transitions ++ [t] }

/-- Changes a stored state. -/
def modifyState (s : Store) (id : StateId) (f : State → State) : Except ModelError Store := do
  s.checkState id
  return { s with states := s.states.modify id.index f }

/-- Changes a stored transition. -/
def modifyTransition (s : Store) (id : TransitionId) (f : Transition → Transition) :
    Except ModelError Store := do
  s.checkTransition id
  return { s with transitions := s.transitions.modify id.index f }

end Store

end Moore
