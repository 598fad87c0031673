import PlanningGame.Proofs.Domain.Winning

/-!
# Encoded names

A name that is put together from an action and a reaction is taken apart again at the first marker.
No end of the marker is also a beginning of it, so that no marker lies across the border between the
two parts. Different pairs therefore have different names, and a domain keeps all of them.
-/
namespace PlanningGame

namespace Action

variable {word text before after : List Char}

/-! ### The first occurrence of a word -/

/-- A text is taken apart where a word occurs first. -/
structure Splits (word text before after : List Char) : Prop where
  append_eq : before ++ after = text
  starts : word <+: after
  first : ∀ earlier later, earlier ++ later = text → word <+: later →
    before.length ≤ earlier.length

theorem splits_of_splitAtWord (h : splitAtWord word text = some (before, after)) :
    Splits word text before after := by
  induction text generalizing before with
  | nil =>
    unfold splitAtWord at h
    split at h
    case isTrue hword =>
      obtain ⟨rfl, rfl⟩ := Prod.mk.inj (Option.some.inj h)
      obtain rfl := List.isEmpty_iff.1 hword
      exact ⟨rfl, List.prefix_rfl, fun _ _ _ _ => Nat.zero_le _⟩
    case isFalse => exact absurd h (by simp)
  | cons c rest ih =>
    unfold splitAtWord at h
    split at h
    case isTrue hword =>
      obtain ⟨rfl, rfl⟩ := Prod.mk.inj (Option.some.inj h)
      exact ⟨rfl, List.isPrefixOf_iff_prefix.1 hword, fun _ _ _ _ => Nat.zero_le _⟩
    case isFalse hword =>
      obtain ⟨⟨before, later⟩, hrest, heq⟩ := Option.map_eq_some_iff.1 h
      obtain ⟨rfl, rfl⟩ := Prod.mk.inj heq
      obtain ⟨rfl, hstarts, hfirst⟩ := ih hrest
      refine ⟨rfl, hstarts, fun earlier later hsplit hlater => ?_⟩
      cases earlier with
      | nil =>
        rw [List.nil_append] at hsplit
        exact absurd (List.isPrefixOf_iff_prefix.2 (hsplit ▸ hlater)) hword
      | cons d earlier =>
        exact Nat.succ_le_succ (hfirst earlier later (List.cons.inj hsplit).2 hlater)

theorem not_infix_of_splitAtWord (h : splitAtWord word text = none) : ¬ word <:+: text := by
  induction text with
  | nil =>
    unfold splitAtWord at h
    split at h
    case isTrue => exact absurd h (by simp)
    case isFalse hword => exact fun hin => hword (List.isEmpty_iff.2 (List.infix_nil.1 hin))
  | cons c rest ih =>
    unfold splitAtWord at h
    split at h
    case isTrue => exact absurd h (by simp)
    case isFalse hword =>
      rw [List.infix_cons_iff, ← List.isPrefixOf_iff_prefix]
      exact not_or.2 ⟨hword, ih (Option.map_eq_none_iff.1 h)⟩

namespace Splits

theorem isInfix (h : Splits word text before after) : word <:+: text :=
  h.append_eq ▸ h.starts.isInfix.trans (List.suffix_append before after).isInfix

/-- There is only one first occurrence. -/
theorem splitAtWord_eq (h : Splits word text before after) :
    splitAtWord word text = some (before, after) := by
  cases hfound : splitAtWord word text with
  | none => exact absurd h.isInfix (not_infix_of_splitAtWord hfound)
  | some parts =>
    have hparts := splits_of_splitAtWord hfound
    have hlength : parts.1.length = before.length :=
      (hparts.first before after h.append_eq h.starts).antisymm
        (h.first parts.1 parts.2 hparts.append_eq hparts.starts)
    obtain ⟨rfl, rfl⟩ := List.append_inj (hparts.append_eq.trans h.append_eq.symm) hlength
    rfl

theorem not_infix_before (h : Splits word text before after) (hword : word ≠ []) :
    ¬ word <:+: before := by
  rintro ⟨earlier, later, rfl⟩
  have hle := h.first earlier (word ++ later ++ after) (by simpa using h.append_eq)
    (by simp)
  have hpos := List.length_pos_iff.2 hword
  simp only [List.length_append] at hle
  omega

end Splits

/-- No end of the word is also a beginning of it, except for the whole word. -/
def Borderless (word : List Char) : Prop :=
  ∀ k < word.length, 0 < k → ¬ word.drop k <+: word

/-- Before a text that starts with a borderless word, no further occurrence of the word begins. -/
theorem splits_append (hword : Borderless word) (hbefore : ¬ word <:+: before)
    (hafter : word <+: after) : Splits word (before ++ after) before after := by
  refine ⟨rfl, hafter, fun earlier later hsplit hlater => ?_⟩
  by_contra hlt
  obtain ⟨middle, rfl, rfl⟩ | ⟨middle, rfl, rfl⟩ := List.append_eq_append_iff.1 hsplit
  · -- the occurrence would begin in `middle`, which is the end of the first text
    have hmiddle : 0 < middle.length := by
      rw [List.length_append] at hlt
      omega
    by_cases hle : word.length ≤ middle.length
    · have hin : word <+: middle := (List.isPrefix_append_of_length hle).1 hlater
      exact hbefore (hin.isInfix.trans (List.suffix_append earlier middle).isInfix)
    · have hdrop : word.drop middle.length <+: after := by
        simpa using hlater.drop middle.length
      exact hword middle.length (by omega) hmiddle
        (List.prefix_of_prefix_length_le hdrop hafter (by simp))
  · exact hlt (by simp)

theorem borderless_marker : Borderless marker.toList := by
  unfold Borderless
  decide

/-! ### Names of pairs -/

/-- An action without a marker and a reaction that starts with one. -/
structure Marked (agent reaction : String) : Prop where
  unmarked : ¬ marker.toList <:+: agent.toList
  starts : marker.toList <+: reaction.toList

theorem Marked.ofEncodedName_append {agent reaction : String} (h : Marked agent reaction) :
    ofEncodedName (agent ++ reaction) = ofParts agent reaction := by
  rw [ofEncodedName, String.toList_append,
    (splits_append borderless_marker h.unmarked h.starts).splitAtWord_eq]
  simp only [String.ofList_toList]

theorem injOn_name : Set.InjOn (fun parts : String × String => (ofParts parts.1 parts.2).name)
    {parts | Marked parts.1 parts.2} := by
  rintro ⟨agent, reaction⟩ h ⟨agent', reaction'⟩ h' hname
  have hparts := (Marked.ofEncodedName_append h).symm.trans
    ((congrArg ofEncodedName hname).trans (Marked.ofEncodedName_append h'))
  exact Prod.ext (congrArg Action.agent hparts) (congrArg Action.reaction hparts)

theorem ofEncodedName_parts (name : String) :
    (ofEncodedName name).agent ++ (ofEncodedName name).reaction = (ofEncodedName name).name ∧
      ¬ marker.toList <:+: (ofEncodedName name).agent.toList ∧
      (marker.toList <:+: name.toList → (ofEncodedName name).name = name) := by
  unfold ofEncodedName
  split
  case h_1 agent reaction hfound =>
    have h := splits_of_splitAtWord hfound
    refine ⟨rfl, ?_, fun _ => ?_⟩
    · simpa [ofParts] using h.not_infix_before (by decide)
    · rw [ofParts, ← String.ofList_append, h.append_eq, String.ofList_toList]
  case h_2 hnone =>
    have h := not_infix_of_splitAtWord hnone
    exact ⟨rfl, h, fun hin => absurd hin h⟩

/-- The name of an action in a domain is put together from its two parts. -/
structure Encoded (action : Action) : Prop where
  name_eq : action.name = action.agent ++ action.reaction
  marked : Marked action.agent action.reaction

theorem Encoded.name_eq_iff {action other : Action} (h : action.Encoded) (h' : other.Encoded) :
    action.name = other.name ↔ action.agent = other.agent ∧ action.reaction = other.reaction := by
  rw [h.name_eq, h'.name_eq]
  constructor
  · intro hname
    exact Prod.mk.inj (injOn_name h.marked h'.marked hname)
  · rintro ⟨hagent, hreaction⟩
    rw [hagent, hreaction]

end Action

namespace Domain

variable {parts : DomainParts} {domain : Domain} {actions : List Action}

/-! ### Pairs by name -/

theorem nodup_values_actionsByName (actions : List Action) :
    (actionsByName actions).values.Nodup := by
  have hkeys : (actionsByName actions).values.map Action.name = (actionsByName actions).keys := by
    rw [values_eq_map_toList, List.map_map, ← Std.TreeMap.map_fst_toList_eq_keys]
    refine List.map_congr_left fun entry hentry => ?_
    have hfound := Std.TreeMap.mem_toList_iff_getElem?_eq_some.1 hentry
    rw [getElem?_actionsByName] at hfound
    simpa using List.find?_some hfound
  exact List.Nodup.of_map Action.name (hkeys ▸ Std.TreeMap.nodup_keys)

/-- A pair is found under its name if no other one has this name. -/
theorem find?_name_eq_some_iff (h : (actions.map Action.name).Nodup) {name : String}
    {action : Action} :
    actions.find? (·.name = name) = some action ↔ action ∈ actions ∧ action.name = name := by
  constructor
  · intro hfound
    exact ⟨List.mem_of_find?_eq_some hfound, by simpa using List.find?_some hfound⟩
  · rintro ⟨hmem, rfl⟩
    have hsome : (actions.find? (·.name = action.name)).isSome :=
      List.find?_isSome.2 ⟨action, hmem, by simp⟩
    obtain ⟨found, hfound⟩ := Option.isSome_iff_exists.1 hsome
    have hname : found.name = action.name := by simpa using List.find?_some hfound
    rw [hfound, List.inj_on_of_nodup_map h (List.mem_of_find?_eq_some hfound) hmem hname]

/-- Pairs with different names are all kept. -/
theorem perm_values_actionsByName (h : (actions.map Action.name).Nodup) :
    (actionsByName actions).values.Perm actions := by
  refine (List.perm_ext_iff_of_nodup (nodup_values_actionsByName actions) (h.of_map _)).2
    fun action => ?_
  simp only [mem_values_iff, getElem?_actionsByName, find?_name_eq_some_iff h, exists_and_left,
    exists_eq', and_true]

/-- A domain keeps the first of the pairs with the same parts, and each of them if all differ. -/
theorem keeps_of_encoded (hencoded : ∀ action ∈ parts.actions, action.Encoded)
    (h : ofParts parts = .ok domain) :
    (∀ action ∈ parts.actions, domain.action? action.name =
      parts.actions.find? fun other =>
        other.agent = action.agent ∧ other.reaction = action.reaction) ∧
    ((parts.actions.map fun action => (action.agent, action.reaction)).Nodup →
      domain.actionList.Perm parts.actions) := by
  obtain ⟨-, rfl⟩ := ofParts_eq_ok_iff.1 h
  constructor
  · intro action hmem
    rw [action?, getElem?_actionsByName]
    refine List.find?_congr fun other hother => ?_
    exact decide_eq_decide.2 ((hencoded other hother).name_eq_iff (hencoded action hmem))
  · intro hnodup
    refine perm_values_actionsByName (List.pairwise_map.2 ?_)
    refine (List.pairwise_map.1 hnodup).imp_of_mem fun hmem hmem' hparts hname => hparts ?_
    exact Prod.ext_iff.2 (((hencoded _ hmem).name_eq_iff (hencoded _ hmem')).1 hname)

end Domain

namespace Action

theorem Marked.encoded {agent reaction : String} (h : Marked agent reaction) :
    (ofParts agent reaction).Encoded :=
  ⟨rfl, h⟩

/-- A pair whose action has no marker and whose reaction starts with one is read back from its name.
So the names tell such pairs apart, and a domain of such pairs keeps the first one with each action
and reaction. Whatever name is read, its action has no marker, and its parts make up the name, which
only changes if it has no marker. -/
theorem encodedNames_exact :
    (∀ agent reaction, Marked agent reaction →
      ofEncodedName (ofParts agent reaction).name = ofParts agent reaction) ∧
    Set.InjOn (fun parts : String × String => (ofParts parts.1 parts.2).name)
      {parts | Marked parts.1 parts.2} ∧
    (∀ parts : DomainParts, (∀ action ∈ parts.actions, action.Encoded) →
      ((∃ domain, Domain.ofParts parts = .ok domain) ↔ Domain.Checked parts) ∧
      ∀ domain, Domain.ofParts parts = .ok domain →
        (∀ action ∈ parts.actions, domain.action? action.name =
          parts.actions.find? fun other =>
            other.agent = action.agent ∧ other.reaction = action.reaction) ∧
        ((parts.actions.map fun action => (action.agent, action.reaction)).Nodup →
          domain.actionList.Perm parts.actions)) ∧
    ∀ name,
      (ofEncodedName name).agent ++ (ofEncodedName name).reaction = (ofEncodedName name).name ∧
      ¬ marker.toList <:+: (ofEncodedName name).agent.toList ∧
      (marker.toList <:+: name.toList → (ofEncodedName name).name = name) := by
  refine ⟨fun agent reaction h => h.ofEncodedName_append, injOn_name, fun parts hencoded => ?_,
    ofEncodedName_parts⟩
  refine ⟨⟨?_, fun h => ⟨_, Domain.ofParts_eq_ok_iff.2 ⟨h, rfl⟩⟩⟩,
    fun domain h => Domain.keeps_of_encoded hencoded h⟩
  rintro ⟨domain, h⟩
  exact (Domain.ofParts_eq_ok_iff.1 h).1

/-- An action that ends with a part of the marker, and a reaction that is the marker twice. -/
def bordering : List Action :=
  [ofParts "go_REA" "_REACT", ofParts "go" "_REACT_REACT"]

/-- Parts of the marker on both sides of the border do no harm. -/
theorem encodedNames_bordering :
    Marked "go_REA" "_REACT" ∧ Marked "go" "_REACT_REACT" ∧
      ofEncodedName "go_REA_REACT" = ofParts "go_REA" "_REACT" ∧
      ofEncodedName "go_REACT_REACT" = ofParts "go" "_REACT_REACT" ∧
      ∃ domain, Domain.ofParts { actions := bordering } = .ok domain ∧
        domain.actionList.Perm bordering := by
  have hend : Marked "go_REA" "_REACT" := ⟨by decide, by decide⟩
  have hgo : Marked "go" "_REACT_REACT" := ⟨by decide, by decide⟩
  obtain ⟨hread, -, hkeeps, -⟩ := encodedNames_exact
  refine ⟨hend, hgo, hread _ _ hend, hread _ _ hgo, ?_⟩
  obtain ⟨hok, hkept⟩ := hkeeps { actions := bordering }
    (by simp [bordering, hend.encoded, hgo.encoded])
  have hchecked : Domain.Checked { actions := bordering } := by
    refine ⟨rfl, List.nodup_nil, ?_, List.cons_ne_nil _ _⟩
    simp [DomainParts.mentions, mentions, bordering, ofParts]
  obtain ⟨domain, hdomain⟩ := hok.2 hchecked
  exact ⟨domain, hdomain, (hkept domain hdomain).2 (by simp [bordering, ofParts])⟩

end Action

end PlanningGame
