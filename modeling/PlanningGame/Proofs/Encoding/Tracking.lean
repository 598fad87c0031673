import Mathlib
import PlanningGame.Proofs.Diagram.Sizes
import PlanningGame.Proofs.Automaton.Dfa
import PlanningGame.Proofs.Automaton.Composition
import PlanningGame.Proofs.Encoding.OwnVariables
import PlanningGame.Proofs.Encoding.Step

/-!
# An automaton that follows a domain

The state of the composition of an encoding with an automaton over its fluents is the state of the
encoding followed by the code of the state of the automaton. The automaton has always read the
current state of the encoding: its initial state is one step ahead, and in every step it reads the
state that the encoding moves to. By induction on the word, its state after any play is the one
after the letters of all states of the play, the first one included.
-/
namespace PlanningGame

/-- The letter of a state whose bits have the given names. -/
def Dfa.letter (dfa : Dfa) (names : List String) (s : List Bool) : Nat :=
  Binary.decode (dfa.alphabet.map fun fluent => ((names.idxOf? fluent).bind (s[·]?)).getD false)

theorem Dfa.letter_lt (dfa : Dfa) (names : List String) (s : List Bool) :
    dfa.letter names s < 2 ^ dfa.alphabet.length := by
  have h := Binary.decode_lt
    (dfa.alphabet.map fun fluent => ((names.idxOf? fluent).bind (s[·]?)).getD false)
  rwa [List.length_map] at h

namespace Encoding

open Manager Store.Soundness Diagram Automaton

variable {registry : Registry} {store later : Store} {manager : Manager} {domain : Domain}
  {mode : AgentErrorMode} {encoding : Encoding} {dfa : Dfa} {letterVars : List Var}
  {monitor arena : Automaton} {fluents : List SharedFluent} {sound : Store → Prop}
  [Store.Soundness sound]

/-- The arena runs the encoding and keeps the state of the automaton on further variables. -/
structure Tracks (registry : Registry) (store : Store) (domain : Domain) (mode : AgentErrorMode)
    (encoding : Encoding) (dfa : Dfa) (codeVars : List Var) (arena : Automaton) : Prop where
  faithful : Faithful registry store domain mode encoding
  wellFormed : dfa.WellFormed
  size_le : dfa.size ≤ 2 ^ codeVars.length
  stateVars_eq : arena.stateVars = encoding.automaton.stateVars ++ codeVars
  inputs_eq : arena.inputs = encoding.automaton.inputs
  outputs_eq : arena.outputs = encoding.automaton.outputs
  nodup : (encoding.automaton.vars ++ codeVars).Nodup
  role : ∀ v ∈ encoding.automaton.vars ++ codeVars, registry.role? v ≠ some .alphabet
  initial_eq : arena.initial = encoding.automaton.initial ++ Binary.encode
    (dfa.move dfa.initial (dfa.letter (stateNames domain mode) encoding.automaton.initial))
    codeVars.length
  next_length : arena.next.length = arena.stateVars.length
  has : ∀ e ∈ arena.next, store.Has e
  next_eval : ∀ a : Valuation, arena.next.map (store.eval · a) =
    encoding.automaton.next.map (store.eval · a) ++ Binary.encode
      (dfa.move (Binary.decode (codeVars.map a)) (dfa.letter (stateNames domain mode)
        (encoding.automaton.next.map (store.eval · a)))) codeVars.length
  support : ∀ e ∈ arena.next,
    e ∈ encoding.automaton.next ∨ ∀ v ∈ store.support e, registry.role? v ≠ some .alphabet

section Composition

/-- What is read for the shared fluents is the letter of a state. -/
theorem decode_eq_letter {names : List String} {s : List Bool} {value : SharedFluent → Bool}
    (h : List.Forall₂ (fun name fluent => ∃ place, names.idxOf? name = some place ∧
      s[place]? = some (value fluent)) dfa.alphabet fluents) :
    Binary.decode (fluents.map value) = dfa.letter names s := by
  unfold Dfa.letter
  congr 1
  generalize dfa.alphabet = alphabet at h
  induction h with
  | nil => rfl
  | cons hhead _ ih =>
    obtain ⟨place, hplace, hvalue⟩ := hhead
    rw [List.map_cons, List.map_cons, ih, hplace, Option.bind_some, hvalue, Option.getD_some]

/-- The fluents are read through the letters of the automaton. -/
theorem map_letter_eq {block : Block} {first : Automaton} {names : List String}
    (h : List.Forall₂ (Shares registry block first) names fluents)
    (hletters : List.Forall₂ (fun name v => registry.shared? name = some (v, .alphabet)) names
      letterVars) : fluents.map (·.letter) = letterVars := by
  induction h generalizing letterVars with
  | nil => exact (List.forall₂_nil_left_iff.1 hletters).symm
  | cons hhead _ ih =>
    obtain ⟨v, rest, hv, hrest, rfl⟩ := List.forall₂_cons_left_iff.1 hletters
    have hlookup := hhead.lookup
    rw [Registry.lookup?, hv, Option.map_some] at hlookup
    rw [List.map_cons, ih hrest, ← Option.some.inj hlookup]

section Roles

variable {registry' : Registry} {v : Var}

theorem Faithful.exists_role (h : Faithful registry store domain mode encoding)
    (hsize : registry.size < UInt32.size) (hle : registry ≤ registry')
    (hv : v ∈ encoding.automaton.vars) : ∃ role, registry'.role? v = some role ∧
      (role = .state encoding.automaton.block ∨ role = .input ∨ role = .output) := by
  obtain ⟨d, hd, hrole⟩ := h.placed.declares v hv
  exact ⟨d.role, hd.role?_eq hsize hle, hrole⟩

end Roles

section Letters

variable {vars : List Var} {labels : List (String × Nat)} {first : Automaton}

/-- The values that the next states of the fluents replace the letters by. -/
theorem map_replaced_letterImages (hnodup : (fluents.map (·.letter)).Nodup) (a : Valuation) :
    (fluents.map (·.letter)).map (replaced store (letterImages fluents) a) =
      fluents.map fun fluent => store.eval fluent.next a := by
  rw [List.map_map]
  refine List.map_congr_left fun fluent hfluent => ?_
  have himage : (letterImages fluents)[fluent.letter]? = some fluent.next := by
    refine Std.TreeMap.getElem?_ofList_of_mem Std.ReflCmp.compare_self ?_
      (List.mem_map.2 ⟨fluent, hfluent, rfl⟩)
    rw [List.pairwise_map]
    exact (List.pairwise_map.1 hnodup).imp fun hne heq => hne (Std.LawfulEqOrd.eq_of_compare heq)
  rw [Function.comp_apply, replaced, himage]

/-- Variables that are no letters are not replaced. -/
theorem replaced_letterImages_of_not_mem {v : Var} (hv : v ∉ fluents.map (·.letter))
    (a : Valuation) : replaced store (letterImages fluents) a v = a v := by
  unfold replaced
  split
  · next image himage =>
    obtain ⟨fluent, hfluent, rfl, -⟩ := exists_of_letterImages himage
    exact absurd (List.mem_map_of_mem hfluent) hv
  · rfl

variable {names : List String}
  (hshares : List.Forall₂ (Shares registry ⟨vars, names.zipIdx⟩ first) dfa.alphabet fluents)
include hshares

theorem letter_next (a : Valuation) :
    Binary.decode (fluents.map fun fluent => store.eval fluent.next a) =
      dfa.letter names (first.next.map (store.eval · a)) := by
  refine decode_eq_letter (hshares.imp fun name fluent h => ?_)
  obtain ⟨place, hplace, hnext, -⟩ := h.place
  rw [Block.place?, lookup_zipIdx] at hplace
  refine ⟨place, by simpa using hplace, ?_⟩
  rw [List.getElem?_map, hnext, Option.map_some]

theorem letter_initial :
    Binary.decode (fluents.map (·.initial)) = dfa.letter names first.initial := by
  refine decode_eq_letter (hshares.imp fun name fluent h => ?_)
  obtain ⟨place, hplace, -, hinitial⟩ := h.place
  rw [Block.place?, lookup_zipIdx] at hplace
  exact ⟨place, by simpa using hplace, hinitial⟩

end Letters

/-- The variables of the encoding, the states of the automaton and its letters are different. -/
structure Apart (registry : Registry) (encoding : Encoding) (letterVars codeVars : List Var) :
    Prop where
  letters_nodup : letterVars.Nodup
  nodup : (encoding.automaton.vars ++ codeVars).Nodup
  letters : ∀ v ∈ letterVars, v ∉ encoding.automaton.vars ++ codeVars
  role : ∀ v ∈ encoding.automaton.vars ++ codeVars, registry.role? v ≠ some .alphabet

theorem Faithful.apart {registry' : Registry} (h : Faithful registry store domain mode encoding)
    (hsymbolic : Dfa.Symbolic registry store dfa letterVars monitor) (hdfa : dfa.WellFormed)
    (hsize : registry.size < UInt32.size) (hblock : encoding.automaton.block ≠ monitor.block)
    (hle : registry ≤ registry') : Apart registry' encoding letterVars monitor.stateVars := by
  have hmonitor : ∀ v ∈ monitor.stateVars, registry'.role? v = some (.state monitor.block) :=
    fun v => hsymbolic.role_of_mem_stateVars hsize hle
  have hrole : ∀ v ∈ encoding.automaton.vars ++ monitor.stateVars,
      registry'.role? v ≠ some .alphabet := by
    intro v hv
    rcases List.mem_append.1 hv with hv | hv
    · obtain ⟨role, hrole, hcases⟩ := h.exists_role hsize hle hv
      rcases hcases with rfl | rfl | rfl <;> simp [hrole]
    · simp [hmonitor v hv]
  refine ⟨hsymbolic.letterVars_nodup hsize hdfa, ?_, fun v hv hmem => ?_, hrole⟩
  · refine List.Nodup.append h.closed.nodup hsymbolic.nodup fun v hv hmem => ?_
    obtain ⟨role, hrole, hcases⟩ := h.exists_role hsize hle hv
    rw [hmonitor v hmem, Option.some.injEq] at hrole
    subst hrole
    simp [hblock.symm] at hcases
  · exact hrole v hmem (hsymbolic.role_of_mem_letterVars hsize hle hv)

section Tracks

variable {wired : List Edge} {names : List String}
  (hsymbolic : Dfa.Symbolic registry store dfa letterVars monitor)
  (hapart : Apart registry encoding letterVars monitor.stateVars)
  (hletters : fluents.map (·.letter) = letterVars)
  (hshares : List.Forall₂ (Shares registry ⟨encoding.automaton.stateVars, names.zipIdx⟩
    encoding.automaton) dfa.alphabet fluents)
include hsymbolic hapart hletters hshares

/-- The initial state is moved on by the letter of the initial state of the encoding. -/
theorem map_eval_initial (hdfa : dfa.WellFormed) :
    monitor.next.map (store.eval · (monitor.valuation monitor.initial
      (encoding.automaton.valuation encoding.automaton.initial (initialLetters fluents)))) =
      Binary.encode (dfa.move dfa.initial (dfa.letter names encoding.automaton.initial))
        monitor.stateVars.length := by
  have hstate : Binary.decode (monitor.stateOf (monitor.valuation monitor.initial
      (encoding.automaton.valuation encoding.automaton.initial (initialLetters fluents)))) =
      dfa.initial := by
    rw [Automaton.stateOf, Automaton.valuation, Valuation.map_assign _ hsymbolic.nodup
      (by rw [hsymbolic.initial_eq, Binary.length_encode]), hsymbolic.initial_eq,
      Binary.decode_encode (hdfa.initial_lt.trans_le hsymbolic.size_le)]
  have hread : letterVars.map (monitor.valuation monitor.initial
      (encoding.automaton.valuation encoding.automaton.initial (initialLetters fluents))) =
      fluents.map (·.initial) := by
    have hkept : ∀ v ∈ letterVars, monitor.valuation monitor.initial
        (encoding.automaton.valuation encoding.automaton.initial (initialLetters fluents)) v =
          initialLetters fluents v := by
      intro v hv
      have hnot := hapart.letters v hv
      simp only [Automaton.vars, List.mem_append, not_or] at hnot
      rw [Automaton.valuation, Valuation.assign_of_not_mem hnot.2, Automaton.valuation,
        Valuation.assign_of_not_mem hnot.1.1]
    rw [List.map_congr_left hkept, ← hletters]
    exact Valuation.map_assign _ (hletters ▸ hapart.letters_nodup) (by simp)
  rw [hsymbolic.map_eval, hstate, hread, letter_initial hshares]

/-- In every step the automaton reads the letter of the next state of the encoding. -/
theorem map_eval_replaced (a : Valuation) :
    monitor.next.map (store.eval · (replaced store (letterImages fluents) a)) = Binary.encode
      (dfa.move (Binary.decode (monitor.stateOf a))
        (dfa.letter names (encoding.automaton.next.map (store.eval · a))))
      monitor.stateVars.length := by
  have hstate : monitor.stateOf (replaced store (letterImages fluents) a) = monitor.stateOf a := by
    refine stateOf_congr fun v hv => replaced_letterImages_of_not_mem (fun hmem => ?_) a
    exact hapart.letters v (hletters ▸ hmem) (List.mem_append_right _ hv)
  have hread : letterVars.map (replaced store (letterImages fluents) a) =
      fluents.map fun fluent => store.eval fluent.next a := by
    rw [← hletters]
    exact map_replaced_letterImages (hletters ▸ hapart.letters_nodup) a
  rw [hsymbolic.map_eval, hstate, hread, letter_next hshares]

end Tracks

/-- A composition with the symbolic form of an automaton follows the encoding. -/
theorem Faithful.yields_compose (hs : sound manager.store)
    (h : Faithful manager.registry manager.store domain mode encoding)
    (hsymbolic : Dfa.Symbolic manager.registry manager.store dfa letterVars monitor)
    (hdfa : dfa.WellFormed)
    (hsize : (∀ v ∈ letterVars, v ≠ 0) → manager.registry.size < UInt32.size)
    (hblock : encoding.automaton.block ≠ monitor.block) :
    PlanningGame.Yields (fun m : Manager => sound m.store)
      (encoding.automaton.compose monitor dfa.alphabet) manager fun arena later =>
        Tracks later.registry later.store domain mode encoding dfa monitor.stateVars arena := by
  refine (Automaton.yields_compose hs h.placed.block hsymbolic.block h.next.has hsymbolic.next.has
    dfa.alphabet).weaken fun arena later hs' hle hcomposition => ?_
  obtain ⟨fluents, wired, hshares, hcomposed, hsupport⟩ := hcomposition
  have hletters := map_letter_eq hshares hsymbolic.letters
  have hsize : manager.registry.size < UInt32.size := by
    refine hsize fun v hv => ?_
    rw [← hletters] at hv
    obtain ⟨fluent, hfluent, rfl⟩ := List.mem_map.1 hv
    obtain ⟨name, -, hshare⟩ := Store.exists_of_forall₂ hshares fluent hfluent
    exact hshare.ne_zero
  have hapart := h.apart hsymbolic hdfa hsize hblock le_rfl
  have hsymbolic' := hsymbolic.mono (founded hs) hle.1 le_rfl
  have hwired : ∀ a : Valuation, wired.map (later.store.eval · a) =
      monitor.next.map (later.store.eval · (replaced later.store (letterImages fluents) a)) := by
    intro a
    rw [hcomposed.wired.map_eval]
    simp
  obtain ⟨moved, hstep, hinitial⟩ := hcomposed.initial
  rw [Automaton.step, if_pos rfl, map_eval_initial hsymbolic' hapart hletters hshares hdfa]
    at hstep
  obtain rfl := Except.ok.inj hstep
  refine {
    faithful := h.mono (founded hs) hle.1 hle.2
    wellFormed := hdfa
    size_le := hsymbolic.size_le
    stateVars_eq := hcomposed.stateVars_eq
    inputs_eq := by rw [hcomposed.inputs_eq, hsymbolic.inputs_eq]; simp
    outputs_eq := by rw [hcomposed.outputs_eq, hsymbolic.outputs_eq]; simp
    nodup := hapart.nodup
    role := (h.apart hsymbolic hdfa hsize hblock hle.2).role
    initial_eq := hinitial
    next_length := hcomposed.next_length
    has := ?_
    next_eval := fun a => ?_
    support := ?_ }
  · rw [hcomposed.next_eq]
    exact List.forall_mem_append.2 ⟨fun e he => (h.next.has e he).mono hle.1, hcomposed.wired.has⟩
  · rw [hcomposed.next_eq, List.map_append, hwired,
      map_eval_replaced hsymbolic' hapart hletters hshares]
    rfl
  · rw [hcomposed.next_eq]
    exact List.forall_mem_append.2 ⟨fun e he => .inl he,
      fun e he => .inr (alphabetSupport_eq_nil_iff.1 (hsupport e he))⟩

end Composition

/-- Through the word the arena runs as the first automaton does. At each step the rest of its state
is the code of the state after the letters of all states of the first automaton up to this one. -/
def Follows (store : Store) (first : Automaton) (names : List String) (dfa : Dfa)
    (codeVars : List Var) (arena : Automaton) (word : List Valuation) : Prop :=
  ∃ states path, first.run store first.initial word = .ok states ∧
    arena.run store arena.initial word = .ok path ∧
    ∀ k ≤ word.length, ∃ s code,
      (first.initial :: states)[k]? = some s ∧ s.length = first.stateVars.length ∧
      (arena.initial :: path)[k]? = some (s ++ code) ∧ code.length = codeVars.length ∧
      dfa.run? (((first.initial :: states).take (k + 1)).map (dfa.letter names)) =
        some (Binary.decode code)

section Runs

variable {codeVars : List Var} {s : List Bool} {q : Nat}

theorem Tracks.mono (h : Tracks registry store domain mode encoding dfa codeVars arena)
    (hr : store.Founded) (hle : store ≤ later) :
    Tracks registry later domain mode encoding dfa codeVars arena := by
  have heval : ∀ a : Valuation, ∀ edges : List Edge, (∀ e ∈ edges, store.Has e) →
      edges.map (later.eval · a) = edges.map (store.eval · a) := fun a edges hedges =>
    List.map_congr_left fun e he => hr.eval_mono hle (hedges e he) a
  exact { h with
    faithful := h.faithful.mono hr hle le_rfl
    has := fun e he => (h.has e he).mono hle
    next_eval := fun a => by
      rw [heval a _ h.has, heval a _ h.faithful.next.has, h.next_eval]
    support := fun e he => (h.support e he).imp_right fun hsupport v hv =>
      hsupport v ((hr.mem_support_iff_of_le hle (h.has e he)).1 hv) }

variable (h : Tracks registry store domain mode encoding dfa codeVars arena)
include h

theorem Tracks.perm_vars : arena.vars.Perm (encoding.automaton.vars ++ codeVars) := by
  unfold Automaton.vars
  rw [h.stateVars_eq, h.inputs_eq, h.outputs_eq, List.append_assoc, List.append_assoc]
  exact List.perm_append_comm.append_left _

/-- The next values of the arena read its own variables only. -/
theorem Tracks.closed : arena.Closed store := by
  refine ⟨?_, h.next_length, h.perm_vars.nodup_iff.2 h.nodup, fun e he => ⟨h.has e he, ?_⟩⟩
  · rw [h.initial_eq, h.stateVars_eq, List.length_append, List.length_append,
      h.faithful.initial_length, Binary.length_encode]
  · intro a b hab
    have hab : ∀ v ∈ encoding.automaton.vars ++ codeVars, a v = b v := fun v hv =>
      hab v (h.perm_vars.mem_iff.2 hv)
    have hnext : encoding.automaton.next.map (store.eval · a) =
        encoding.automaton.next.map (store.eval · b) := List.map_congr_left fun e he =>
      (h.faithful.closed.next_over e he).eval_eq a b fun v hv => hab v (List.mem_append_left _ hv)
    have hcode : codeVars.map a = codeVars.map b := List.map_congr_left fun v hv =>
      hab v (List.mem_append_right _ hv)
    have heval : arena.next.map (store.eval · a) = arena.next.map (store.eval · b) := by
      rw [h.next_eval, h.next_eval, hnext, hcode]
    exact List.map_inj_left.1 heval e he

/-- One step of the arena is a step of the encoding, after which the automaton reads the new
state. -/
theorem Tracks.map_eval_valuation (hs : s.length = encoding.automaton.stateVars.length)
    (hq : q < dfa.size) (letters : Valuation) :
    let next := encoding.automaton.next.map
      (store.eval · (encoding.automaton.valuation s letters))
    arena.next.map
        (store.eval · (arena.valuation (s ++ Binary.encode q codeVars.length) letters)) =
      next ++ Binary.encode (dfa.move q (dfa.letter (stateNames domain mode) next))
        codeVars.length := by
  intro next
  have hvaluation : arena.valuation (s ++ Binary.encode q codeVars.length) letters =
      (encoding.automaton.valuation s letters).assign codeVars
        (Binary.encode q codeVars.length) := by
    rw [Automaton.valuation, h.stateVars_eq, Valuation.assign_append _ hs]
    rfl
  have hcode : Binary.decode (codeVars.map (arena.valuation
      (s ++ Binary.encode q codeVars.length) letters)) = q := by
    rw [hvaluation, Valuation.map_assign _ h.nodup.of_append_right (Binary.length_encode _ _),
      Binary.decode_encode (hq.trans_le h.size_le)]
  have hnext : encoding.automaton.next.map
      (store.eval · (arena.valuation (s ++ Binary.encode q codeVars.length) letters)) = next := by
    refine List.map_congr_left fun e he =>
      (h.faithful.closed.next_over e he).eval_eq _ _ fun v hv => ?_
    rw [hvaluation, Valuation.assign_of_not_mem fun hmem => ?_]
    exact List.disjoint_of_nodup_append h.nodup hv hmem
  rw [h.next_eval, hcode, hnext]

theorem Tracks.step_eq (hs : s.length = encoding.automaton.stateVars.length) (hq : q < dfa.size)
    (letters : Valuation) :
    ∃ next, encoding.automaton.step store s letters = .ok next ∧
      next.length = encoding.automaton.stateVars.length ∧
      arena.step store (s ++ Binary.encode q codeVars.length) letters =
        .ok (next ++ Binary.encode (dfa.move q (dfa.letter (stateNames domain mode) next))
          codeVars.length) := by
  have hinitial := h.faithful.initial_length
  have hlength : (s ++ Binary.encode q codeVars.length).length = arena.initial.length := by
    simp [h.initial_eq, hinitial, hs]
  refine ⟨encoding.automaton.next.map
    (store.eval · (encoding.automaton.valuation s letters)), ?_, ?_, ?_⟩
  · rw [Automaton.step, if_pos (hs.trans hinitial.symm)]
  · rw [List.length_map, h.faithful.next_length]
  · rw [Automaton.step, if_pos hlength]
    exact congrArg Except.ok (h.map_eval_valuation hs hq letters)

/-- The arena runs as the encoding does, with the state of the automaton after the letters of the
states that were moved to. -/
theorem Tracks.exists_runs (hs : s.length = encoding.automaton.stateVars.length)
    (hq : q < dfa.size) (word : List Valuation) :
    ∃ states path, encoding.automaton.run store s word = .ok states ∧
      arena.run store (s ++ Binary.encode q codeVars.length) word = .ok path ∧
      states.length = word.length ∧ ∀ k t, (s :: states)[k]? = some t →
        t.length = encoding.automaton.stateVars.length ∧ ∃ r < dfa.size,
          ((s ++ Binary.encode q codeVars.length) :: path)[k]? =
            some (t ++ Binary.encode r codeVars.length) ∧
          ((states.take k).map (dfa.letter (stateNames domain mode))).foldlM dfa.successor? q =
            some r := by
  induction word generalizing s q with
  | nil =>
    refine ⟨[], [], rfl, rfl, rfl, fun k t ht => ?_⟩
    obtain ⟨rfl, rfl⟩ : k = 0 ∧ s = t := by
      cases k with
      | zero => exact ⟨rfl, Option.some.inj ht⟩
      | succ k => exact absurd ht (by simp)
    exact ⟨hs, q, hq, rfl, rfl⟩
  | cons letters rest ih =>
    obtain ⟨next, hstep, hlength, hstep'⟩ := h.step_eq hs hq letters
    obtain ⟨hsuccessor, hmove⟩ := h.wellFormed.successor?_eq hq
      (dfa.letter_lt (stateNames domain mode) next)
    obtain ⟨states, path, hrun, hrun', hcount, hall⟩ := ih hlength hmove
    refine ⟨next :: states, _, run_cons hstep hrun, run_cons hstep' hrun',
      congrArg (· + 1) hcount, fun k t ht => ?_⟩
    cases k with
    | zero =>
      obtain rfl := Option.some.inj ht
      exact ⟨hs, q, hq, rfl, rfl⟩
    | succ k =>
      obtain ⟨ht, r, hr, hpath, hfold⟩ := hall k t ht
      refine ⟨ht, r, hr, hpath, ?_⟩
      rw [List.take_succ_cons, List.map_cons, List.foldlM_cons, hsuccessor]
      exact hfold

theorem Tracks.follows (word : List Valuation) :
    Follows store encoding.automaton (stateNames domain mode) dfa codeVars arena word := by
  obtain ⟨hsuccessor, hmove⟩ := h.wellFormed.successor?_eq h.wellFormed.initial_lt
    (dfa.letter_lt (stateNames domain mode) encoding.automaton.initial)
  obtain ⟨states, path, hrun, hrun', hcount, hall⟩ :=
    h.exists_runs h.faithful.initial_length hmove word
  rw [← h.initial_eq] at hrun' hall
  refine ⟨states, path, hrun, hrun', fun k hk => ?_⟩
  have hlt : k < (encoding.automaton.initial :: states).length := by
    rw [List.length_cons, hcount]
    omega
  have ht := List.getElem?_eq_getElem hlt
  obtain ⟨hlength, r, hr, hpath, hfold⟩ := hall k _ ht
  refine ⟨_, _, ht, hlength, hpath, Binary.length_encode _ _, ?_⟩
  rw [Binary.decode_encode (hr.trans_le h.size_le), List.take_succ_cons, List.map_cons,
    Dfa.run?, List.foldlM_cons, hsuccessor]
  exact hfold

/-- No alphabet variable occurs in the next values of the arena, if those of the encoding use its
own variables only. -/
theorem Tracks.role_ne_of_mem_support {e : Edge} {v : Var} (hf : store.Founded)
    (hown : OnVariables store {v | v ∈ encoding.automaton.vars} encoding) (he : e ∈ arena.next)
    (hv : v ∈ store.support e) : registry.role? v ≠ some .alphabet := by
  rcases h.support e he with hmem | hsupport
  · exact h.role v (List.mem_append_left _ ((hown.next e hmem).mem_of_mem_support hf hv))
  · exact hsupport v hv

end Runs

/-- Compiled over any manager that has not run out of numbers for variables, and composed later with
an automaton over its state variables, a domain is followed by the automaton through every play. At
each step the state of the composition is the state of the domain's automaton, followed by the code
of the state after the letters of all states up to this one. No alphabet variable occurs in the next
values of the composition. -/
theorem follows_of_compose {given : Dfa} {compiled current later : Manager} {last : Store}
    (hs : manager.store.Replayable) (hsize : manager.registry.size < UInt32.size)
    (hcompile : (ofDomain domain mode).run.run manager = (.ok encoding, compiled))
    (hcurrent : current.store.Regular) (hcurrentSize : current.registry.size < UInt32.size)
    (hle : compiled ≤ current) (hdfa : given.checked = .ok dfa)
    (hcompose : (dfa.symbolic >>= fun monitor =>
      encoding.automaton.compose monitor dfa.alphabet).run.run current = (.ok arena, later))
    (hlast : later.store ≤ last) :
    ∃ codeVars, arena.stateVars = encoding.automaton.stateVars ++ codeVars ∧
      (∀ word, Follows last encoding.automaton (stateNames domain mode) dfa codeVars arena word) ∧
      ∀ e ∈ arena.next, later.alphabetSupport e = [] := by
  obtain ⟨hsound, -, hfaithful⟩ :=
    yieldsIn_ofDomain hs.regular hsize False.elim encoding compiled hcompile
  obtain ⟨-, -, hown⟩ := yields_ofDomain_onVariables hs hsize encoding compiled hcompile
  have hfaithful := hfaithful.mono hsound.toFounded hle.1 hle.2
  have hdfa := Dfa.wellFormed_of_checked hdfa
  have hcomposed : PlanningGame.Yields (fun m : Manager => m.store.Regular)
      (dfa.symbolic >>= fun monitor => encoding.automaton.compose monitor dfa.alphabet) current
      fun arena later => ∃ codeVars,
        Tracks later.registry later.store domain mode encoding dfa codeVars arena := by
    refine (Dfa.yields_symbolic hcurrent hdfa hcurrentSize).bind
      fun monitor m₁ hs₁ hle₁ ⟨letterVars, hsymbolic, hid, hsize₁⟩ => ?_
    have hblock : encoding.automaton.block ≠ monitor.block :=
      hid ▸ Registry.ne_nextBlock hfaithful.placed.block
    exact ((hfaithful.mono hcurrent.toFounded hle₁.1 hle₁.2).yields_compose hs₁ hsymbolic hdfa
      hsize₁ hblock).weaken fun _ _ _ _ h => ⟨_, h⟩
  obtain ⟨hregular, hgrows, codeVars, htracks⟩ := hcomposed arena later hcompose
  have hown := hown.mono (hle.trans hgrows).1
  refine ⟨codeVars, htracks.stateVars_eq, (htracks.mono hregular.toFounded hlast).follows,
    fun e he => alphabetSupport_eq_nil_iff.2 fun v hv => ?_⟩
  exact htracks.role_ne_of_mem_support hregular.toFounded hown he hv

/-- A light that can be turned on and off. -/
def light : Domain where
  fluents := ["on"]
  initial := [false]
  actions := Domain.actionsByName
    [{ name := "a", agent := "off", reaction := "r", deletes := .ofList [0] },
      { name := "b", agent := "on", reaction := "r", adds := .ofList [0] }]
  goal := .ofList [0]
  goalForbidden := ∅
  invariants := []

/-- In a new manager the light is composed with the automaton that waits for it. -/
theorem light_follows :
    ∃ (manager compiled later : Manager) (encoding : Encoding) (arena : Automaton),
      Manager.create ⟨1, 1⟩ {} = .ok manager ∧ manager.store.Replayable ∧
      manager.registry.size < UInt32.size ∧
      (ofDomain light .errorBit).run.run manager = (.ok encoding, compiled) ∧
      compiled.store.Regular ∧ compiled.registry.size < UInt32.size ∧
      (Dfa.eventually "on").checked = .ok (Dfa.eventually "on") ∧
      ((Dfa.eventually "on").symbolic >>= fun monitor => encoding.automaton.compose monitor
        (Dfa.eventually "on").alphabet).run.run compiled = (.ok arena, later) ∧
      (∃ codeVars, arena.stateVars = encoding.automaton.stateVars ++ codeVars ∧
        ∀ word, Follows later.store encoding.automaton (stateNames light .errorBit)
          (Dfa.eventually "on") codeVars arena word) ∧
      ∀ e ∈ arena.next, later.alphabetSupport e = [] := by
  let manager : Manager :=
    { store := ⟨⟨#[.terminal], #[[], []]⟩, { slots := #[none, none] }, {}⟩ }
  have hcreate : Store.create ⟨1, 1⟩ {} = .ok manager.store := rfl
  have hs : manager.store.Replayable := Store.replayable_of_create hcreate
  have hsize : manager.registry.size < UInt32.size := by decide
  have hdfa : (Dfa.eventually "on").checked = .ok (Dfa.eventually "on") := by cbv
  have hok : answersWith (ofDomain light .errorBit) manager (fun encoding compiled =>
      answersWith ((Dfa.eventually "on").symbolic >>= fun monitor => encoding.automaton.compose
        monitor (Dfa.eventually "on").alphabet) compiled fun _ _ =>
          compiled.registry.size.ble 10) = true := by cbv
  obtain ⟨encoding, compiled, hcompile, hok⟩ := exists_run_of_answersWith hok
  obtain ⟨arena, later, hcompose, hok⟩ := exists_run_of_answersWith hok
  have hcompiledSize : compiled.registry.size < UInt32.size :=
    (Nat.le_of_ble_eq_true hok).trans_lt (by decide)
  obtain ⟨hregular, -, -⟩ :=
    yieldsIn_ofDomain hs.regular hsize False.elim encoding compiled hcompile
  obtain ⟨codeVars, hvars, hruns, halphabet⟩ := follows_of_compose hs hsize hcompile hregular
    hcompiledSize le_rfl hdfa hcompose le_rfl
  exact ⟨manager, compiled, later, encoding, arena, rfl, hs, hsize, hcompile, hregular,
    hcompiledSize, hdfa, hcompose, ⟨codeVars, hvars, hruns⟩, halphabet⟩

end Encoding

end PlanningGame
