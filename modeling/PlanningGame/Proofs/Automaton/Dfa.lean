import Mathlib
import PlanningGame.Automaton.Dfa
import PlanningGame.Proofs.Binary
import PlanningGame.Proofs.Automaton.Basic

/-!
# Symbolic form of explicit automata

States and letters are written in binary. Each entry of the table adds one conjunction to the next
value of every bit that is set in its successor, so a bit is set next exactly if it is set in the
successor of the state and the letter that are read off the variables. Codes beyond the last state
have no entries and lead to zero.
-/
namespace PlanningGame.Dfa

open Manager Store.Soundness

variable {dfa given : Dfa} {q letter : Nat}

/-- What the checks of a table ensure. -/
structure WellFormed (dfa : Dfa) : Prop where
  initial_lt : dfa.initial < dfa.size
  accepting_lt : ∀ q ∈ dfa.accepting, q < dfa.size
  alphabet_nodup : dfa.alphabet.Nodup
  row_length : ∀ row ∈ dfa.successors, row.length = 2 ^ dfa.alphabet.length
  successor_lt : ∀ row ∈ dfa.successors, ∀ q ∈ row, q < dfa.size

theorem of_rowFault?_eq_none {states letters state : Nat} {row : List Nat}
    (h : rowFault? states letters state row = none) :
    row.length = letters ∧ ∀ q ∈ row, q < states := by
  unfold rowFault? at h
  split at h
  · exact absurd h (by simp)
  · next hlength =>
    refine ⟨not_not.1 hlength, fun q hq => ?_⟩
    rw [Option.map_eq_none_iff, List.find?_eq_none] at h
    simpa using h q hq

theorem wellFormed_of_checked (h : given.checked = .ok dfa) : dfa.WellFormed := by
  unfold checked at h
  split at h
  · exact absurd h (by simp)
  next hfault =>
  obtain rfl := Except.ok.inj h
  unfold fault? at hfault
  dsimp only at hfault
  split_ifs at hfault with hstates hinitial hletters
  · split at hfault <;> exact absurd hfault (by simp)
  split at hfault
  · exact absurd hfault (by simp)
  next haccepting =>
  split at hfault
  · exact absurd hfault (by simp)
  next halphabet =>
  have hrow : ∀ row ∈ given.successors,
      row.length = 2 ^ given.alphabet.length ∧ ∀ q ∈ row, q < given.size := by
    intro row hrow
    obtain ⟨state, hstate⟩ := List.mem_iff_getElem?.1 hrow
    exact of_rowFault?_eq_none
      (List.findSome?_eq_none_iff.1 hfault (row, state) (List.mem_zipIdx_iff_getElem?.2 hstate))
  refine ⟨not_le.1 hinitial, fun q hq => ?_, nodup_of_firstRepeat_eq_none halphabet,
    fun row hmem => (hrow row hmem).1, fun row hmem => (hrow row hmem).2⟩
  have := List.find?_eq_none.1 haccepting q (Std.TreeSet.mem_toList.2 hq)
  exact not_le.1 fun hle => this (decide_eq_true hle)

/-- The successor of a state, and zero if there is none. -/
def move (dfa : Dfa) (state letter : Nat) : Nat :=
  (dfa.successor? state letter).getD 0

theorem WellFormed.successor?_eq (h : dfa.WellFormed) (hq : q < dfa.size)
    (hletter : letter < 2 ^ dfa.alphabet.length) :
    dfa.successor? q letter = some (dfa.move q letter) ∧ dfa.move q letter < dfa.size := by
  have hrow : dfa.successors[q]? = some dfa.successors[q] := List.getElem?_eq_getElem hq
  have hmem := List.getElem_mem hq
  have hlt : letter < dfa.successors[q].length := (h.row_length _ hmem).symm ▸ hletter
  have hsuccessor : dfa.successor? q letter = some dfa.successors[q][letter] := by
    unfold successor?
    rw [hrow, Option.bind_eq_bind, Option.bind_some, List.getElem?_eq_getElem hlt]
  have hmove : dfa.move q letter = dfa.successors[q][letter] := by
    rw [move, hsuccessor, Option.getD_some]
  exact ⟨hmove ▸ hsuccessor, hmove ▸ h.successor_lt _ hmem _ (List.getElem_mem hlt)⟩

/-- A bit of the next state is set by an entry of the table, or not at all. -/
theorem testBit_move_iff {i : Nat} :
    (dfa.move q letter).testBit i = true ↔
      ∃ row next, dfa.successors[q]? = some row ∧ row[letter]? = some next ∧
        next.testBit i = true := by
  unfold move successor?
  cases hrow : dfa.successors[q]? with
  | none => simp
  | some row => cases hnext : row[letter]? <;> simp [hnext]

section Symbolic

variable {sound : Store → Prop} [Store.Soundness sound] {store : Store} {registry : Registry}
  {manager : Manager} {id : BlockId} {vars letterVars : List Var} {width : Nat}
  {P : Nat → Valuation → Prop} {next : List Edge}

/-- An edge is added to the bits that are set in a number. -/
theorem ensures_addEdge (hs : sound store) {edge : Edge} {Q : Valuation → Prop}
    (hedge : store.Denotes edge Q) (n : Nat) {places : List Nat}
    (hnext : store.DenotesEach P places next) :
    Diagram.EnsuresIn sound (addEdge edge (places.map n.testBit) next) store fun edges later =>
      later.DenotesEach (fun i a => P i a ∨ (Q a ∧ n.testBit i = true)) places edges := by
  induction places generalizing store next with
  | nil =>
    obtain rfl := List.forall₂_nil_left_iff.1 hnext
    exact Diagram.ensures_pure hs .nil
  | cons i places ih =>
    obtain ⟨e, next, he, hrest, rfl⟩ := List.forall₂_cons_left_iff.1 hnext
    rw [List.map_cons, addEdge]
    have hcons : ∀ r later, sound later → store ≤ later →
        later.Denotes r (fun a => P i a ∨ (Q a ∧ n.testBit i = true)) →
        Diagram.EnsuresIn sound
          (addEdge edge (places.map n.testBit) next >>= fun rs => pure (r :: rs)) later
          fun edges last => last.DenotesEach (fun i a => P i a ∨ (Q a ∧ n.testBit i = true))
            (i :: places) edges := by
      intro r later hs' hle hr
      have hrest := Store.DenotesEach.mono hrest (founded hs) hle
      apply (ih hs' (hedge.mono (founded hs) hle) hrest).bind
      intro rs last hs'' hle' hrs
      exact Diagram.ensures_pure hs'' (.cons (hr.mono (founded hs') hle') hrs)
    split
    · next hbit =>
      refine (Diagram.ensures_disj hs he hedge).bind fun r later hs' hle hr =>
        hcons r later hs' hle (hr.congr fun a => ?_)
      rw [hbit]
      simp
    · next hbit =>
      rw [pure_bind]
      exact hcons e store hs le_rfl (he.congr fun a => by simp [hbit])

/-- An entry of a list with a first element is the first one or one of the others. -/
theorem exists_getElem?_cons {α : Type} {R : Nat → α → Prop} (x : α) (rest : List α) :
    (∃ j y, (x :: rest)[j]? = some y ∧ R j y) ↔ R 0 x ∨ ∃ j y, rest[j]? = some y ∧ R (j + 1) y := by
  constructor
  · rintro ⟨_ | j, y, hy, hR⟩
    · exact .inl (Option.some.inj hy ▸ hR)
    · exact .inr ⟨j, y, hy, hR⟩
  · rintro (hR | ⟨j, y, hy, hR⟩)
    · exact ⟨0, x, rfl, hR⟩
    · exact ⟨j + 1, y, hy, hR⟩

theorem needs_letterCube (letterVars : List Var) (letter : Nat) :
    Diagram.Needs (Manager.assignmentCube letterVars (Binary.encode letter letterVars.length))
      (∀ v ∈ letterVars, v ≠ 0) :=
  Diagram.needs_assignmentCube (Binary.length_encode letter letterVars.length)

/-- A row adds the entries of one state. Nothing is added for a successor without bits, so the
variables of the letters are needed for the others only. -/
theorem yields_addRow (hs : sound store)
    (hnodup : (∀ v ∈ letterVars, v ≠ 0) → letterVars.Nodup) {source : Edge} {Q : Valuation → Prop}
    (hsource : store.Denotes source Q) (hnext : store.DenotesEach P (List.range width) next)
    {row : List Nat} (hrow : letter + row.length ≤ 2 ^ letterVars.length) :
    PlanningGame.Yields sound (addRow letterVars width source letter row next) store
      fun edges later => later.DenotesEach (fun i a => P i a ∨ (Q a ∧ ∃ j successor,
        row[j]? = some successor ∧ Binary.decode (letterVars.map a) = letter + j ∧
          successor.testBit i = true)) (List.range width) edges := by
  induction row generalizing store letter P next with
  | nil => exact yields_pure hs (hnext.congr fun i _ a => by simp)
  | cons successor rest ih =>
    rw [addRow]
    rw [List.length_cons] at hrow
    have hcons : ∀ edges later, sound later → store ≤ later →
        later.DenotesEach (fun i a => P i a ∨ ((Q a ∧ Binary.decode (letterVars.map a) = letter) ∧
          successor.testBit i = true)) (List.range width) edges →
        PlanningGame.Yields sound (addRow letterVars width source (letter + 1) rest edges) later
          fun edges last => last.DenotesEach (fun i a => P i a ∨ (Q a ∧ ∃ j next,
            (successor :: rest)[j]? = some next ∧
              Binary.decode (letterVars.map a) = letter + j ∧ next.testBit i = true))
            (List.range width) edges := by
      intro edges later hs' hle hedges
      refine (ih hs' (hsource.mono (founded hs) hle) hedges (by omega)).weaken
        fun rs last _ _ hrs => hrs.congr fun i _ a => ?_
      rw [exists_getElem?_cons, and_or_left, ← or_assoc, and_assoc]
      simp only [Nat.add_zero, Nat.add_assoc, Nat.add_comm 1]
    dsimp only
    split
    · next hbits =>
      refine Yields.of_needs (needs_letterCube letterVars letter) trivial fun hzero => ?_
      apply (Diagram.ensures_assignmentCube hs (hnodup hzero) hzero
        (Binary.length_encode letter letterVars.length)).yields.bind
      intro letterCube s₁ hs₁ hle₁ hletter
      apply (Diagram.ensures_conj hs₁ (hsource.mono (founded hs) hle₁) hletter).yields.bind
      intro edge s₂ hs₂ hle₂ hedge
      have hnext := hnext.mono (founded hs) (hle₁.trans hle₂)
      apply (ensures_addEdge hs₂ hedge successor hnext).yields.bind
      intro edges s₃ hs₃ hle₃ hedges
      refine hcons edges s₃ hs₃ ((hle₁.trans hle₂).trans hle₃) (hedges.congr fun i _ a => ?_)
      have hcode : Binary.decode (letterVars.map a) = letter ↔
          letterVars.map a = Binary.encode letter (letterVars.map a).length :=
        Binary.decode_eq_iff (by rw [List.length_map]; omega)
      rw [hcode, List.length_map]
    · next hbits =>
      rw [pure_bind]
      refine hcons next store hs le_rfl (hnext.congr fun i hi a => ?_)
      have hbit : ¬ successor.testBit i = true := fun hbit =>
        hbits (List.contains_iff_mem.2 (List.mem_map.2 ⟨i, hi, hbit⟩))
      simp [hbit]

/-- The cube of a state, if there are bits enough for its number. -/
theorem yields_stateCube (hm : StandsIn sound registry manager) (hid : Owns registry id vars)
    (hq : q < 2 ^ vars.length) :
    YieldsIn sound registry (stateCube id vars.length q) manager fun e later =>
      later.store.Denotes e fun a => Binary.decode (vars.map a) = q := by
  unfold stateCube
  refine (Manager.yields_stateCube hm hid _).weaken fun e later _ _ he => he.congr fun a => ?_
  rw [Binary.decode_eq_iff (by rwa [List.length_map]), List.length_map]

/-- The rows of the table from a state on add the entries of these states. -/
theorem yields_addRows (hm : StandsIn sound registry manager) (hid : Owns registry id vars)
    (hnodup : (∀ v ∈ letterVars, v ≠ 0) → letterVars.Nodup)
    (hnext : manager.store.DenotesEach P (List.range vars.length) next) {rows : List (List Nat)}
    (hrows : ∀ row ∈ rows, row.length = 2 ^ letterVars.length)
    (hstates : q + rows.length ≤ 2 ^ vars.length) :
    YieldsIn sound registry (addRows id letterVars vars.length q rows next) manager
      fun edges later => later.store.DenotesEach (fun i a => P i a ∨ ∃ j row, rows[j]? = some row ∧
        Binary.decode (vars.map a) = q + j ∧ ∃ successor,
          row[Binary.decode (letterVars.map a)]? = some successor ∧ successor.testBit i = true)
        (List.range vars.length) edges := by
  induction rows generalizing manager q P next with
  | nil => exact yields_pure hm (hnext.congr fun i _ a => by simp)
  | cons row rest ih =>
    obtain ⟨hrow, hrest⟩ := List.forall_mem_cons.1 hrows
    rw [List.length_cons] at hstates
    rw [addRows]
    apply (yields_stateCube hm hid (by omega)).bind
    intro source m₁ hm₁ hle₁ hsource
    have hfits : 0 + row.length ≤ 2 ^ letterVars.length := by rw [hrow, Nat.zero_add]
    have hentries := yields_addRow hm₁.sound hnodup hsource (hnext.mono (founded hm.sound) hle₁.1)
      hfits
    apply (yields_lift hm₁ hentries).bind
    intro edges m₂ hm₂ hle₂ hedges
    refine (ih hm₂ hedges hrest (by omega)).weaken
      fun rs last _ _ hrs => hrs.congr fun i _ a => ?_
    rw [exists_getElem?_cons, ← or_assoc]
    simp only [Nat.zero_add, Nat.add_zero, Nat.add_assoc, Nat.add_comm 1]
    refine or_congr_left (or_congr_right (and_congr_right fun _ => ?_))
    constructor
    · rintro ⟨j, successor, hsuccessor, rfl, hbit⟩
      exact ⟨successor, hsuccessor, hbit⟩
    · rintro ⟨successor, hsuccessor, hbit⟩
      exact ⟨_, successor, hsuccessor, rfl, hbit⟩

/-- An entry of a row that has a bit set needs the variables of the letters. -/
theorem needs_addRow (source : Edge) (letter : Nat) (row : List Nat) (next : List Edge) :
    Diagram.Needs (addRow letterVars width source letter row next)
      ((∃ successor ∈ row, true ∈ Binary.encode successor width) → ∀ v ∈ letterVars, v ≠ 0) := by
  induction row generalizing letter next with
  | nil => exact needs_pure _ (by simp)
  | cons successor rest ih =>
    rw [addRow]
    dsimp only
    split
    · next hbits =>
      refine (needs_letterCube letterVars letter).bind fun cube hzero => ?_
      refine (Diagram.needs_true _).bind fun edge _ => (Diagram.needs_true _).bind fun edges _ => ?_
      exact (ih _ edges).weaken fun _ _ => hzero
    · next hbits =>
      rw [pure_bind]
      refine (ih _ next).weaken fun hrest h => hrest ?_
      obtain ⟨entry, hentry, hmem⟩ := h
      rcases List.mem_cons.1 hentry with rfl | hentry
      · exact absurd (List.contains_iff_mem.2 hmem) hbits
      · exact ⟨entry, hentry, hmem⟩

/-- The states of a table have cubes of variables other than zero, and so do its letters if some
successor has a bit set. -/
theorem needs_addRows {block : Block} (hblock : registry.block? id = some block) (q : Nat)
    (rows : List (List Nat)) (next : List Edge) :
    Manager.Needs registry (addRows id letterVars width q rows next)
      ((rows ≠ [] → ∀ v ∈ block.vars, v ≠ 0) ∧
        ((∃ row ∈ rows, ∃ successor ∈ row, true ∈ Binary.encode successor width) →
          ∀ v ∈ letterVars, v ≠ 0)) := by
  induction rows generalizing q next with
  | nil => exact needs_pure _ (by simp)
  | cons row rest ih =>
    rw [addRows]
    unfold stateCube
    apply (needs_stateCube hblock _).bind
    intro source hzero
    apply (needs_lift (needs_addRow source 0 row next)).bind
    intro edges hrow
    refine (ih (q + 1) edges).weaken fun hrest => ⟨fun _ => hzero, ?_⟩
    rintro ⟨entry, hentry, hbits⟩
    rcases List.mem_cons.1 hentry with rfl | hentry
    · exact hrow hbits
    · exact hrest.2 ⟨entry, hentry, hbits⟩

/-- A successor other than zero is an entry of the table with a bit that is set. -/
theorem WellFormed.exists_bits (h : dfa.WellFormed) (hsize : dfa.size ≤ 2 ^ width)
    (hmove : dfa.move q letter ≠ 0) :
    ∃ row ∈ dfa.successors, ∃ successor ∈ row, true ∈ Binary.encode successor width := by
  obtain ⟨i, hbit⟩ := Nat.exists_testBit_of_ne_zero hmove
  obtain ⟨row, successor, hrow, hsuccessor, hbit⟩ := testBit_move_iff.1 hbit
  have hrow := List.mem_of_getElem? hrow
  have hsuccessor := List.mem_of_getElem? hsuccessor
  refine ⟨row, hrow, successor, hsuccessor, List.mem_map.2 ⟨i, List.mem_range.2 ?_, hbit⟩⟩
  by_contra hi
  have hlt := (h.successor_lt row hrow successor hsuccessor).trans_le
    (hsize.trans (Nat.pow_le_pow_right Nat.two_pos (not_lt.1 hi)))
  rw [Nat.testBit_lt_two_pow hlt] at hbit
  exact absurd hbit (by simp)

/-- An automaton with the states of a table in binary code. It reads letters off variables that are
found under the names of the alphabet. -/
structure Symbolic (registry : Registry) (store : Store) (dfa : Dfa) (letterVars : List Var)
    (monitor : Automaton) : Prop where
  block : registry.block? monitor.block = some ⟨monitor.stateVars, []⟩
  nodup : monitor.stateVars.Nodup
  declares : ∀ v ∈ monitor.stateVars, ∃ d, registry.Declares d v ∧ d.role = .state monitor.block
  letters : List.Forall₂ (fun name v => registry.shared? name = some (v, .alphabet)) dfa.alphabet
    letterVars
  letters_ne_zero : ∀ q letter, dfa.move q letter ≠ 0 → ∀ v ∈ letterVars, v ≠ 0
  size_le : dfa.size ≤ 2 ^ monitor.stateVars.length
  inputs_eq : monitor.inputs = []
  outputs_eq : monitor.outputs = []
  initial_eq : monitor.initial = Binary.encode dfa.initial monitor.stateVars.length
  next : store.DenotesEach (fun i a => (dfa.move (Binary.decode (monitor.stateOf a))
    (Binary.decode (letterVars.map a))).testBit i = true) (List.range monitor.stateVars.length)
    monitor.next
  finals : store.Denotes monitor.finals fun a =>
    dfa.accepts (Binary.decode (monitor.stateOf a)) = true

theorem Symbolic.mono {registry' : Registry} {later : Store} {monitor : Automaton}
    (h : Symbolic registry store dfa letterVars monitor) (hr : store.Founded) (hle : store ≤ later)
    (hregistry : registry ≤ registry') : Symbolic registry' later dfa letterVars monitor :=
  { h with
    block := hregistry.2 _ _ h.block
    declares := fun v hv => (h.declares v hv).imp fun _ hd => ⟨hd.1.mono hregistry, hd.2⟩
    letters := h.letters.imp fun _ _ => Registry.shared?_mono hregistry
    next := h.next.mono hr hle
    finals := h.finals.mono hr hle }

theorem Symbolic.map_eval {monitor : Automaton} (h : Symbolic registry store dfa letterVars monitor)
    (a : Valuation) :
    monitor.next.map (store.eval · a) = Binary.encode (dfa.move (Binary.decode (monitor.stateOf a))
      (Binary.decode (letterVars.map a))) monitor.stateVars.length := by
  rw [h.next.map_eval, Binary.encode]
  simp

section Roles

variable {registry' : Registry} {v : Var} {monitor : Automaton}
  (h : Symbolic registry store dfa letterVars monitor) (hsize : registry.size < UInt32.size)
include h hsize

theorem Symbolic.role_of_mem_stateVars (hle : registry ≤ registry') (hv : v ∈ monitor.stateVars) :
    registry'.role? v = some (.state monitor.block) := by
  obtain ⟨d, hd, hrole⟩ := h.declares v hv
  rw [hd.role?_eq hsize hle, hrole]

theorem Symbolic.role_of_mem_letterVars (hle : registry ≤ registry') (hv : v ∈ letterVars) :
    registry'.role? v = some .alphabet := by
  obtain ⟨name, -, hname⟩ := Store.exists_of_forall₂ h.letters v hv
  exact (Registry.declares_of_shared? hname).role?_eq hsize hle

theorem Symbolic.letterVars_nodup (hdfa : dfa.WellFormed) : letterVars.Nodup := by
  refine Registry.nodup_of_declares hsize (List.forall₂_map_left_iff.2 (h.letters.imp
    fun _ _ => Registry.declares_of_shared?)) (Registry.nodup_map_declaration .alphabet ?_)
  exact hdfa.alphabet_nodup

end Roles

theorem denotesEach_replicate_zero (h : store.Founded) (count : Nat) :
    store.DenotesEach (fun _ _ => False) (List.range count) (List.replicate count .zero) := by
  refine List.forall₂_iff_get.2 ⟨by simp, fun i _ hi => ?_⟩
  simpa using h.denotes_zero

theorem yields_symbolic (hs : sound manager.store) (hdfa : dfa.WellFormed)
    (hsize : manager.registry.size < UInt32.size) :
    PlanningGame.Yields (fun m : Manager => sound m.store) dfa.symbolic manager
      fun monitor later => ∃ letterVars,
        Symbolic later.registry later.store dfa letterVars monitor ∧
          manager.registry.nextBlock = monitor.block ∧
          ((∀ v ∈ letterVars, v ≠ 0) → later.registry.size < UInt32.size) := by
  have hpos : 0 < dfa.size := Nat.zero_lt_of_lt hdfa.initial_lt
  unfold symbolic
  dsimp only
  refine (yields_newStateVars hs _).bind fun id m₁ hs₁ _ ⟨names, vars, hlength, hopens⟩ => ?_
  apply (yields_claimVars hs₁ .alphabet dfa.alphabet).bind
  intro letterVars m₂ hs₂ _ hclaim
  have hclaims := Registry.claims_claimAll hclaim
  have hfound := Registry.shared?_of_claimAll rfl hclaim
  have hm₂ : StandsIn sound m₂.registry m₂ := ⟨hs₂, rfl⟩
  have hblock := hclaims.grows.2 _ _ hopens.block
  have hletters : letterVars.length = dfa.alphabet.length := hclaims.length_eq
  rw [← hlength]
  have hsizes : dfa.size ≤ 2 ^ vars.length := by
    have := Binary.lt_two_pow_width (dfa.size - 1)
    rw [hlength]
    omega
  refine Yields.of_needs (needs_addRows hblock 0 dfa.successors _) rfl
    fun ⟨hnonzero, hlettersZero⟩ => ?_
  have hzero : ∀ v ∈ vars, v ≠ 0 := hnonzero (List.length_pos_iff.1 hpos)
  have hopened := hopens.size_lt hsize hzero
  have hid : Owns m₂.registry id vars := by
    refine ⟨⟨_, hblock⟩, ?_, hzero⟩
    exact Registry.nodup_of_declares hopened hopens.declares
      (Registry.nodup_map_declaration _ hopens.nodup)
  have hnodup : (∀ v ∈ letterVars, v ≠ 0) → letterVars.Nodup := fun hletterZero =>
    Registry.nodup_of_declares (hclaims.size_lt hopened hletterZero) hclaims.declares
      (Registry.nodup_map_declaration _ hdfa.alphabet_nodup)
  suffices key : YieldsIn sound m₂.registry _ m₂ fun monitor later =>
      Symbolic m₂.registry later.store dfa letterVars monitor ∧ id = monitor.block from
    yields_of_stands key fun monitor later hlater _ h =>
      ⟨letterVars, hlater.registry_eq ▸ h.1, hopens.id_eq.symm.trans h.2,
        fun hletterZero => hlater.registry_eq ▸ hclaims.size_lt hopened hletterZero⟩
  have hrows : ∀ row ∈ dfa.successors, row.length = 2 ^ letterVars.length := by
    rw [hletters]
    exact hdfa.row_length
  apply (yields_addRows hm₂ hid hnodup (denotesEach_replicate_zero (founded hs₂) _) hrows
    (by rw [Nat.zero_add]; exact hsizes)).bind
  intro next m₃ hm₃ hle₃ hnext
  apply (yields_mapM hm₃ (fun q e now later hnow hle he => he.mono (founded hnow.sound) hle.1)
    fun q hq now hnow _ => yields_stateCube hnow hid
      ((hdfa.accepting_lt q (Std.TreeSet.mem_toList.1 hq)).trans_le hsizes)).bind
  intro cubes m₄ hm₄ hle₄ hcubes
  apply (yields_lift hm₄ (Diagram.ensures_disjAll_each hm₄.sound hcubes).yields).bind
  intro finals m₅ hm₅ hle₅ hfinals
  refine yields_note_bind hm₅ _ _ fun m₆ hm₆ hle₆ => ?_
  refine (Automaton.yields_create hm₆ hblock _ _ _).weaken
    fun monitor last _ hle₇ ⟨hmonitor, _, _⟩ => ?_
  subst hmonitor
  refine ⟨?_, rfl⟩
  have hlast := hle₆.trans hle₇
  exact {
    block := hblock
    nodup := hid.nodup
    declares := fun v hv => by
      obtain ⟨d, hd, hdeclares⟩ := Registry.exists_declares_of_mem hopens.declares hv
      obtain ⟨_, _, rfl⟩ := List.mem_map.1 hd
      exact ⟨_, hdeclares.mono hclaims.grows, rfl⟩
    letters := hfound
    letters_ne_zero := fun _ _ hmove => hlettersZero (hdfa.exists_bits hsizes hmove)
    size_le := hsizes
    inputs_eq := rfl
    outputs_eq := rfl
    initial_eq := rfl
    next := by
      refine (hnext.mono (founded hm₃.sound)
        ((hle₄.trans hle₅).trans hlast).1).congr fun i _ a => ?_
      simp only [false_or, Nat.zero_add]
      rw [testBit_move_iff]
      constructor
      · rintro ⟨_, row, hrow, rfl, successor, hsuccessor, hbit⟩
        exact ⟨row, successor, hrow, hsuccessor, hbit⟩
      · rintro ⟨row, successor, hrow, hsuccessor, hbit⟩
        exact ⟨_, row, hrow, rfl, successor, hsuccessor, hbit⟩
    finals := by
      refine (hfinals.mono (founded hm₅.sound) hlast.1).congr fun a => ?_
      simp [accepts, Automaton.stateOf] }

end Symbolic

end PlanningGame.Dfa
