import RowRecipe.Grammar.State

/-!
# Regions of the grammar

The states of the grammar fall into regions: the arguments of a directive, properties in braces, and
pragmas. A region is left by few terminals.
-/

namespace RowRecipe.Grammar

namespace State

/-- Whether the state is within braces. -/
def inProperties : State → Bool
  | firstKey | nextKey | equal | value | valueEnd => true
  | _ => false

end State

namespace Terminal

/-- Whether commas join the terminal to lists. -/
def isListed : Terminal → Bool
  | column | text | number => true
  | _ => false

end Terminal

namespace State

variable {s s' : State} {t : Terminal}

/-- Whether the state is among the arguments of a directive. -/
def inArguments : State → Bool
  | arguments list => list.all Terminal.isListed
  | item kind => kind.isListed
  | _ => false

/-- Whether lists in the state are lists of columns, texts or numbers. No other state is ever reached. -/
def isRegular : State → Bool
  | arguments list => list.all Terminal.isListed
  | item kind => kind.isListed
  | _ => true

/-- Whether the state is within a pragma. -/
def inPragma : State → Bool
  | pragma | version | versionEnd | loadName | loadEnd => true
  | _ => false

theorem next?_inArguments (hs : s.inArguments = true) (h : s.next? t = some s') (hsep : t ≠ .separator)
    (hopen : t ≠ .opening) : s'.inArguments = true := by
  cases s with
  | «arguments» list =>
    cases t with
    | separator => exact absurd rfl hsep
    | opening => exact absurd rfl hopen
    | comma =>
      obtain ⟨kind, rfl, rfl⟩ := Option.map_eq_some_iff.mp h
      exact hs
    | column | text | number | byteSize | duration | malformedUnit | name =>
      cases h
      rfl
    | _ => cases h
  | item kind =>
    have h : (if t = kind then some (State.arguments (some kind)) else none) = some s' := h
    split at h
    next =>
      cases h
      exact hs
    next => cases h
  | _ => cases hs

/-- Among the arguments of a directive, a terminal starts a list or stands alone. -/
theorem next?_arguments {list : Option Terminal} (h : (State.arguments list).next? t = some s') (hsep : t ≠ .separator)
    (hcomma : t ≠ .comma) (hopen : t ≠ .opening) : s' = .arguments (if t.isListed then some t else none) := by
  cases t with
  | separator => exact absurd rfl hsep
  | comma => exact absurd rfl hcomma
  | opening => exact absurd rfl hopen
  | column | text | number | byteSize | duration | malformedUnit | name =>
    cases h
    rfl
  | _ => cases h

/-- An opening starts properties. -/
theorem next?_opening (hs : s.inArguments = true) (h : s.next? .opening = some s') : s' = .firstKey := by
  cases s with
  | «arguments» list =>
    cases h
    rfl
  | item kind =>
    have h : (if .opening = kind then some (State.arguments (some kind)) else none) = some s' := h
    split at h
    next hk =>
      subst hk
      cases hs
    next => cases h
  | _ => cases hs

theorem isRegular_of_inArguments (h : s.inArguments = true) : s.isRegular = true := by
  cases s <;> first | exact h | rfl

theorem next?_isRegular (hs : s.isRegular = true) (h : s.next? t = some s') : s'.isRegular = true := by
  by_cases hargs : s.inArguments = true
  · by_cases hsep : t = .separator
    · subst hsep
      cases s with
      | «arguments» list =>
        cases h
        rfl
      | item kind =>
        have h : (if .separator = kind then some (State.arguments (some kind)) else none) = some s' := h
        split at h
        next hk =>
          subst hk
          cases hs
        next => cases h
      | _ => cases hargs
    · by_cases hopen : t = .opening
      · subst hopen
        rw [next?_opening hargs h]
        rfl
      · exact isRegular_of_inArguments (next?_inArguments hargs h hsep hopen)
  · cases s with
    | «arguments» list => exact absurd hs hargs
    | item kind => exact absurd hs hargs
    | _ => cases t <;> first | cases h; done | (cases h; rfl)

theorem next?_inPragma (hs : s.inPragma = true) (h : s.next? t = some s') (hsep : t ≠ .separator) :
    s'.inPragma = true := by
  cases s with
  | pragma | version | versionEnd | loadName | loadEnd =>
    cases t with
    | separator => exact absurd rfl hsep
    | pragmaWord | versionWord | loadWord | version | name | comma =>
      first
      | cases h; done
      | cases h; rfl
    | _ => cases h
  | _ => cases hs

/-- A pragma is entered by its first word only, and versions stand in pragmas only. -/
theorem next?_outside (hs : s.isRegular = true) (hpragma : s ≠ .pragma) (hversion : s ≠ .version)
    (h : s.next? t = some s') (ht : t ≠ .pragmaWord) : t ≠ .version ∧ s' ≠ .pragma ∧ s' ≠ .version := by
  cases s with
  | item kind =>
    have h : (if t = kind then some (State.arguments (some kind)) else none) = some s' := h
    split at h
    next hk =>
      cases h
      refine ⟨?_, by simp, by simp⟩
      rintro rfl
      subst hk
      cases hs
    next => cases h
  | «arguments» list =>
    cases t with
    | comma =>
      obtain ⟨kind, -, rfl⟩ := Option.map_eq_some_iff.mp h
      simp
    | separator | opening | column | text | number | byteSize | duration | malformedUnit | name =>
      cases h
      simp
    | _ => cases h
  | pragma => exact absurd rfl hpragma
  | version => exact absurd rfl hversion
  | statement =>
    cases t with
    | pragmaWord => exact absurd rfl ht
    | separator | name =>
      cases h
      simp
    | _ => cases h
  | _ =>
    cases t <;> first
      | (cases h; done)
      | (cases h; simp)

/-- Properties go on until their closing brace. -/
theorem next?_inProperties (hs : s.inProperties = true) (h : s.next? t = some s') :
    t ≠ .separator ∧ (t ≠ .closing → s'.inProperties = true) ∧ (t = .closing → s' = .arguments none) := by
  cases s with
  | firstKey | nextKey | equal | value | valueEnd =>
    cases t with
    | closing =>
      refine ⟨by decide, fun hc => absurd rfl hc, fun _ => ?_⟩
      first
      | cases h; done
      | cases h; rfl
    | name | text | equal | number | comma =>
      refine ⟨by decide, fun _ => ?_, fun hc => by cases hc⟩
      first
      | cases h; done
      | cases h; rfl
    | _ => cases h
  | _ => cases hs

/-- A separator ends a statement. -/
theorem next?_separator (hs : s ≠ .item .separator) (h : s.next? .separator = some s') : s' = .statement := by
  cases s with
  | item kind =>
    have h : (if .separator = kind then some (State.arguments (some kind)) else none) = some s' := h
    split at h
    next hk => exact absurd (by rw [← hk]) hs
    next => cases h
  | statement | versionEnd | loadEnd | «arguments» =>
    cases h
    rfl
  | _ => cases h

end State

end RowRecipe.Grammar
