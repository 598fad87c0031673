import PlanningGame.Binary
import PlanningGame.Automaton.Basic

/-!
# Explicit automata over fluents

A deterministic automaton given by a table. It reads sets of fluents: a letter is the number whose
bit `i` says whether the fluent `i` of the alphabet holds. Its symbolic form has binary codes for
states and letters.
-/
namespace PlanningGame

/-- A table of successors, with the accepting states. -/
structure Dfa where
  /-- Fluents that are read, in bit order of the letters. -/
  alphabet : List String
  initial : Nat
  accepting : Std.TreeSet Nat
  /-- The successors of each state, by letter. -/
  successors : List (List Nat)

namespace Dfa

/-- The largest alphabet. Every state has `2 ^ k` successors. -/
def maxAlphabet : Nat := 20

/-- The first fault of a row of successors. -/
def rowFault? (states letters state : Nat) (row : List Nat) : Option Malformation :=
  if row.length ≠ letters then some (.rowLength state row.length letters)
  else (row.find? (states ≤ ·)).map (.successorOutOfRange · state)

/-- The first fault of a table. -/
def fault? (dfa : Dfa) : Option Malformation :=
  let states := dfa.successors.length
  if states = 0 then some .noStates
  else if states ≤ dfa.initial then some (.initialOutOfRange dfa.initial)
  else
    match dfa.accepting.toList.find? (states ≤ ·) with
    | some state => some (.acceptingOutOfRange state)
    | none =>
      if maxAlphabet < dfa.alphabet.length then
        some (.tooManyLetters dfa.alphabet.length maxAlphabet)
      else
        match firstRepeat dfa.alphabet with
        | some name => some (.repeatedLetter name)
        | none =>
          dfa.successors.zipIdx.findSome? fun (row, state) =>
            rowFault? states (Binary.codes dfa.alphabet.length) state row

/-- The table itself if it has no fault. -/
def checked (dfa : Dfa) : Except Error Dfa :=
  match dfa.fault? with
  | some fault => .error (.malformedAutomaton fault)
  | none => .ok dfa

/-- Accepts once the fluent has held. -/
def eventually (fluent : String) : Dfa :=
  { alphabet := [fluent], initial := 0, accepting := (∅ : Std.TreeSet Nat).insert 1
    successors := [[0, 1], [1, 1]] }

/-- Accepts once all fluents have held at the same time. -/
def eventuallyAll (fluents : List String) : Except Error Dfa :=
  if maxAlphabet < fluents.length then
    .error (.malformedAutomaton (.tooManyLetters fluents.length maxAlphabet))
  else
    let last := Binary.codes fluents.length - 1
    checked
      { alphabet := fluents, initial := 0, accepting := (∅ : Std.TreeSet Nat).insert 1
        successors :=
          [(List.range (last + 1)).map fun letter => if letter = last then 1 else 0,
            List.replicate (last + 1) 1] }

/-- Number of states. -/
def size (dfa : Dfa) : Nat :=
  dfa.successors.length

/-- Whether a state accepts. -/
def accepts (dfa : Dfa) (state : Nat) : Bool :=
  dfa.accepting.contains state

/-- The successor of a state, if both state and letter are in range. -/
def successor? (dfa : Dfa) (state letter : Nat) : Option Nat := do
  let row ← dfa.successors[state]?
  row[letter]?

/-- The state after a word, if all its letters are in range. -/
def run? (dfa : Dfa) (word : List Nat) : Option Nat :=
  word.foldlM dfa.successor? dfa.initial

/-- Add an edge to the next value of each bit that is set in a code. -/
def addEdge (edge : Edge) : List Bool → List Edge → DiagramM (List Edge)
  | bit :: bits, next :: rest => do
    let next ← if bit then Diagram.disj next edge else pure next
    return next :: (← addEdge edge bits rest)
  | _, rest => pure rest

/-- Add the edges of one state, given by its cube, for the letters from `letter` on. A successor
whose code has no bit set adds nothing. -/
def addRow (letterVars : List Var) (width : Nat) (source : Edge) (letter : Nat) :
    List Nat → List Edge → DiagramM (List Edge)
  | [], next => pure next
  | successor :: rest, next => do
    let code := Binary.encode successor width
    let next ←
      if code.contains true then do
        let letterCube ←
          Manager.assignmentCube letterVars (Binary.encode letter letterVars.length)
        addEdge (← Diagram.conj source letterCube) code next
      else pure next
    addRow letterVars width source (letter + 1) rest next

/-- The cube of a state. -/
def stateCube (id : BlockId) (width state : Nat) : ManagerM Edge :=
  Manager.stateCube id (Binary.encode state width)

/-- Add the edges of all states from `state` on. -/
def addRows (id : BlockId) (letterVars : List Var) (width state : Nat) :
    List (List Nat) → List Edge → ManagerM (List Edge)
  | [], next => pure next
  | row :: rest, next => do
    let source ← stateCube id width state
    let next ← addRow letterVars width source 0 row next
    addRows id letterVars width (state + 1) rest next

/-- The automaton in binary code, over new state variables. -/
def symbolic (dfa : Dfa) : ManagerM Automaton := do
  let width := Binary.width (dfa.size - 1)
  let id ← Manager.newStateVars width
  let letterVars ← Manager.claimVars .alphabet dfa.alphabet
  let next ← addRows id letterVars width 0 dfa.successors (List.replicate width .zero)
  let accepting ← dfa.accepting.toList.mapM (stateCube id width)
  let finals ← Diagram.disjAll accepting
  Manager.note .debug fun _ =>
    s!"Encoded DFA with {dfa.size} states over {Text.quotedList dfa.alphabet} on {width} state bits"
  Automaton.create id (Binary.encode dfa.initial width) next finals

end Dfa

end PlanningGame
