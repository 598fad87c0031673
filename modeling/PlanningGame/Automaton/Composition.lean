import PlanningGame.Automaton.Basic

/-!
# Composition

A domain automaton is composed with an automaton that reads its fluents. The letters of the second
are replaced by the next values of the first, so the second reads the state that the first moves
to. Since it has then not read the initial state yet, its own initial state is moved by one step.
-/
namespace PlanningGame.Automaton

/-- A fluent that is shared: the variable it is read through, its next and its initial value. -/
structure SharedFluent where
  letter : Var
  next : Edge
  initial : Bool

/-- Find a shared fluent among the state variables of the first automaton and among the named
variables. -/
def sharedFluent (first : Automaton) (fluent : String) : ManagerM SharedFluent := do
  match (← Manager.block first.block).place? fluent with
  | none => Manager.refuse (.unknownFluent fluent)
  | some place =>
    match ← Manager.named? fluent with
    | none => Manager.refuse (.unknownFluent fluent)
    | some edge =>
      let letter := ((← Manager.diagrams).node edge.index).var
      Manager.note .debug fun _ =>
        s!"Fluent '{fluent}' is state bit {place} of the domain, read through variable {letter.toNat}"
      match first.next[place]?, first.initial[place]? with
      | some next, some initial => return ⟨letter, next, initial⟩
      | _, _ => Manager.reject .outOfBounds

/-- The next value of the second automaton, reading the next state of the first. No letter may be
left over. -/
def rewire (images : Substitution) (next : Edge) : ManagerM Edge := do
  let wired ← Diagram.substitute next images
  let manager ← get
  match (manager.alphabetSupport wired).head? with
  | some v => Manager.refuse (.unknownFluent (manager.displayName v))
  | none => return wired

/-- The first automaton together with the second, which reads the shared fluents of the first.
Every state of the result is final. -/
def compose (first second : Automaton) (shared : List String) : ManagerM Automaton := do
  let fluents ← shared.mapM first.sharedFluent
  let images : Substitution :=
    Std.TreeMap.ofList (fluents.map fun fluent => (fluent.letter, fluent.next))
  let id ← Manager.newProductBlock [first.block, second.block]
  let letters := Valuation.assign (fun _ => false) (fluents.map (·.letter))
    (fluents.map (·.initial))
  let store ← Manager.diagrams
  let moved ← Manager.ofExcept
    (second.step store second.initial (first.valuation first.initial letters))
  let wired ← second.next.mapM (rewire images)
  let next := first.next ++ wired
  Manager.note .info fun _ =>
    s!"Composed game arena {id.text} with {next.length} state bits over {shared.length} shared fluents"
  let composed ← create id (first.initial ++ moved) next .one
  return { composed with
    inputs := first.inputs ++ second.inputs.filter (· ∉ first.inputs)
    outputs := first.outputs ++ second.outputs.filter (· ∉ first.outputs) }

end PlanningGame.Automaton
