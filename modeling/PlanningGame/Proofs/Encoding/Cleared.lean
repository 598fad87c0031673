import Mathlib
import PlanningGame.Proofs.Diagram.Ascending
import PlanningGame.Proofs.Encoding.Assembly
import PlanningGame.Proofs.Encoding.Copies
import PlanningGame.Proofs.Encoding.Step

/-!
# Compilation without the diagrams of others

What a manager holds apart from its registry does not matter: with its diagrams forgotten, it
compiles the same domains to copies of the same encodings, and there everything is solved alike. As
a store without diagrams is ordered, what is proved of ordered stores holds in all managers.
-/
namespace PlanningGame

open Diagram

namespace Manager

/-- The manager with its diagrams forgotten. -/
def cleared (manager : Manager) : Manager :=
  ⟨.blank, manager.registry⟩

theorem paired_cleared {manager : Manager} (h : manager.store.Replayable) :
    manager.Paired manager.cleared :=
  ⟨h.paired_blank, rfl⟩

/-- The diagrams of the manager, with the registry of a later one. -/
def withRegistry (manager later : Manager) : Manager :=
  ⟨manager.store, later.registry⟩

/-- At any later time the first manager still has all nodes of the second. -/
theorem Paired.withRegistry {m n current : Manager} (h : m.Paired n)
    (hcurrent : current.store.Replayable) (hle : m ≤ current) :
    current.Paired (n.withRegistry current) :=
  ⟨⟨hcurrent, h.store.right, h.store.covers.mono hle.1⟩, rfl⟩

theorem Paired.le_withRegistry {m n current : Manager} (h : m.Paired n) (hle : m ≤ current) :
    n ≤ n.withRegistry current :=
  ⟨le_rfl, h.registry_eq ▸ hle.2⟩

end Manager

namespace Encoding

variable {domain : Domain} {mode : AgentErrorMode} {manager compiled : Manager}
  {encoding : Encoding}

/-- Compilation keeps the nodes that lead to computed results. -/
theorem replayable_of_compiled (hs : manager.store.Replayable)
    (hcompile : (ofDomain domain mode).run.run manager = (.ok encoding, compiled)) :
    compiled.store.Replayable := by
  obtain ⟨_, _, _, hpaired, _⟩ :=
    (paced_ofDomain (Manager.paired_cleared hs) domain mode).exists_answer hcompile
  exact hpaired.store.left

/-- With its diagrams forgotten, the manager compiles the domain to copies, in an ordered store. -/
theorem exists_compiled_cleared (hs : manager.store.Replayable)
    (hsize : manager.registry.size < UInt32.size) (hconsistent : Consistent domain)
    (hcompile : (ofDomain domain mode).run.run manager = (.ok encoding, compiled)) :
    ∃ encoding' compiled', (ofDomain domain mode).run.run manager.cleared =
        (.ok encoding', compiled') ∧ compiled'.store.Sound ∧ compiled.Paired compiled' ∧
      Encoding.Copies compiled.store compiled'.store encoding encoding' := by
  obtain ⟨encoding', compiled', hrun, hpaired, -, hcopies⟩ :=
    (paced_ofDomain (Manager.paired_cleared hs) domain mode).exists_answer hcompile
  have hsize' : manager.cleared.registry.size < UInt32.size := hsize
  obtain ⟨hsound, -, -⟩ :=
    yields_ofDomain Store.sound_blank hsize' hconsistent encoding' compiled' hrun
  exact ⟨encoding', compiled', hrun, hsound, hpaired, hcopies⟩

/-- At any later time the encoding has a copy in an ordered store, which is faithful there. -/
theorem exists_faithful_copy (hs : manager.store.Replayable)
    (hsize : manager.registry.size < UInt32.size) (hconsistent : Consistent domain)
    (hcompile : (ofDomain domain mode).run.run manager = (.ok encoding, compiled))
    {current : Manager} (hcurrent : current.store.Replayable) (hle : compiled ≤ current) :
    ∃ encoding' ordered, Manager.Stands current.registry ordered ∧ current.Paired ordered ∧
      Faithful current.registry ordered.store domain mode encoding' ∧
      Encoding.Copies current.store ordered.store encoding encoding' := by
  obtain ⟨encoding', compiled', hrun, hsound, hpaired, hcopies⟩ :=
    exists_compiled_cleared hs hsize hconsistent hcompile
  have hsize' : manager.cleared.registry.size < UInt32.size := hsize
  obtain ⟨-, -, hfaithful⟩ :=
    yields_ofDomain Store.sound_blank hsize' hconsistent encoding' compiled' hrun
  have hle' := hpaired.le_withRegistry hle
  exact ⟨encoding', compiled'.withRegistry current, ⟨hsound, rfl⟩,
    hpaired.withRegistry hcurrent hle, hfaithful.mono hsound.toReduced hle'.1 hle'.2,
    hcopies.mono hle.1 le_rfl⟩

end Encoding

end PlanningGame
