import PlanningGame.Pairing
import PlanningGame.Binary
import PlanningGame.Names
import PlanningGame.Journal
import PlanningGame.Role
import PlanningGame.Failure
import PlanningGame.Settings
import PlanningGame.Text.Invisible
import PlanningGame.Text.Quoted
import PlanningGame.UniqueTable
import PlanningGame.ComputedTable
import PlanningGame.Diagram.Edge
import PlanningGame.Diagram.Node
import PlanningGame.Diagram.Store
import PlanningGame.Diagram.Ite
import PlanningGame.Diagram.Evaluation
import PlanningGame.Diagram.Substitution
import PlanningGame.Diagram.Quantifier
import PlanningGame.Diagram.Reachable
import PlanningGame.Diagram.Models
import PlanningGame.Diagram.Listing
import PlanningGame.Diagram.Graphviz
import PlanningGame.Registry
import PlanningGame.Manager
import PlanningGame.Domain.Action
import PlanningGame.Domain.Basic
import PlanningGame.Automaton.Basic
import PlanningGame.Automaton.Dfa
import PlanningGame.Automaton.Composition
import PlanningGame.Encoding
import PlanningGame.Game.Basic
import PlanningGame.Game.Strategy
import PlanningGame.Game.Solution
import PlanningGame.Game.BestEffort
import PlanningGame.Stepper
import PlanningGame.Proofs.Yields
import PlanningGame.Proofs.Binary
import PlanningGame.Proofs.Pairing
import PlanningGame.Proofs.UniqueTable
import PlanningGame.Proofs.UniqueTable.Chains
import PlanningGame.Proofs.UniqueTable.Numbering
import PlanningGame.Proofs.ComputedTable
import PlanningGame.Proofs.ComputedTable.History
import PlanningGame.Proofs.Diagram.Canonicity
import PlanningGame.Proofs.Diagram.Operation
import PlanningGame.Proofs.Diagram.Ite
import PlanningGame.Proofs.Diagram.Substitution
import PlanningGame.Proofs.Diagram.Quantifier
import PlanningGame.Proofs.Diagram.Cube
import PlanningGame.Proofs.Diagram.Session
import PlanningGame.Proofs.Diagram.Replay
import PlanningGame.Proofs.Diagram.Twins
import PlanningGame.Proofs.Diagram.Sizes
import PlanningGame.Proofs.Diagram.Support
import PlanningGame.Proofs.Game.Arena
import PlanningGame.Proofs.Game.Attractor
import PlanningGame.Proofs.Game.Extraction
import PlanningGame.Proofs.Game.Search
import PlanningGame.Proofs.Game.Solving
import PlanningGame.Proofs.Game.Termination
import PlanningGame.Proofs.Game.Layers
import PlanningGame.Proofs.Game.Play
import PlanningGame.Proofs.Game.Legality
import PlanningGame.Proofs.Game.Choice
import PlanningGame.Proofs.Game.Cooperation
import PlanningGame.Proofs.Game.Shortest
import PlanningGame.Proofs.Names
import PlanningGame.Proofs.Registry
import PlanningGame.Proofs.Manager
import PlanningGame.Proofs.Registrations
import PlanningGame.Proofs.Diagram.Kept
import PlanningGame.Proofs.Diagram.Within
import PlanningGame.Proofs.Diagram.Exposure
import PlanningGame.Proofs.Automaton.Basic
import PlanningGame.Proofs.Automaton.Dfa
import PlanningGame.Proofs.Automaton.Composition
import PlanningGame.Proofs.Domain.Winning
import PlanningGame.Proofs.Domain.Plan
import PlanningGame.Proofs.Domain.EncodedNames
import PlanningGame.Proofs.Encoding.Codes
import PlanningGame.Proofs.Encoding.Numbering
import PlanningGame.Proofs.Encoding.Conditions
import PlanningGame.Proofs.Encoding.Assembly
import PlanningGame.Proofs.Encoding.OwnVariables
import PlanningGame.Proofs.Encoding.Step
import PlanningGame.Proofs.Encoding.Refinement
import PlanningGame.Proofs.Encoding.Transition
import PlanningGame.Proofs.Encoding.Canonical
import PlanningGame.Proofs.Encoding.Plan
import PlanningGame.Proofs.Encoding.Strategy
import PlanningGame.Proofs.Encoding.BestEffort
import PlanningGame.Proofs.Encoding.Tracking
import PlanningGame.Proofs.Encoding.Temporal
import PlanningGame.Proofs.Domain.Reaching
import PlanningGame.Proofs.Automaton.Eventually
import PlanningGame.Proofs.Encoding.Agreement
import PlanningGame.Proofs.Encoding.Waiting
import PlanningGame.Proofs.Lockstep
import PlanningGame.Proofs.Diagram.Copies
import PlanningGame.Proofs.Diagram.Covers
import PlanningGame.Proofs.Diagram.Lockstep
import PlanningGame.Proofs.Diagram.Ascending
import PlanningGame.Proofs.Diagram.Conjunction
import PlanningGame.Proofs.Reached
import PlanningGame.Proofs.Diagram.Dependence
import PlanningGame.Proofs.Diagram.Counting
import PlanningGame.Proofs.Diagram.Path
import PlanningGame.Proofs.Diagram.Replacement
import PlanningGame.Proofs.Encoding.Report
import PlanningGame.Proofs.Encoding.Invariants
import PlanningGame.Proofs.Game.Lockstep
import PlanningGame.Proofs.Encoding.Lockstep
import PlanningGame.Proofs.Encoding.Copies
import PlanningGame.Proofs.Encoding.Cleared
import PlanningGame.Proofs.Encoding.Completion
import PlanningGame.Proofs.Encoding.Contest
import PlanningGame.Proofs.Encoding.Matching
import PlanningGame.Proofs.Automaton.Wiring
import PlanningGame.Proofs.Automaton.Words
import PlanningGame.Proofs.Automaton.Product
import PlanningGame.Proofs.Automaton.Carrying
import PlanningGame.Proofs.Game.Unseen
import PlanningGame.Proofs.Encoding.Following
import PlanningGame.Proofs.Encoding.Calls
import PlanningGame.Proofs.Encoding.Clashes
import PlanningGame.Proofs.Encoding.Sharing
import PlanningGame.Proofs.Game.Comparison
import PlanningGame.Proofs.Game.Lexicographic
