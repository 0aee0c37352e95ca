import Mathlib.Data.List.Forall2
import RowRecipe.Proofs.Grammar.Promotion
import RowRecipe.Proofs.Grammar.States
import RowRecipe.Recipe

/-!
# Scripts with promoted names

Where names are promoted to columns, a script keeps its statements and their lines. Words become columns
of one item, and every other argument stays as it is.
-/

namespace RowRecipe.Script

open Grammar

variable {Q : Place → List Char → Prop} {s s' : State} {ls ls' : List Lexeme}

/-- The same lexeme on the same line; its column may differ. -/
structure Lexeme.Same (l l' : Lexeme) : Prop where
  terminal : l'.terminal = l.terminal
  text : l'.text = l.text
  line : l'.start.line = l.start.line

/-- The lexemes of a statement, read from the state on, with some names promoted to columns. `Q` holds of
the place and the text of each such name. -/
inductive Carried (Q : Place → List Char → Prop) : State → List Lexeme → List Lexeme → Prop
  | nil {s : State} (h : s.isFinal = true) : Carried Q s [] []
  | same {s s' : State} {l l' : Lexeme} {ls ls' : List Lexeme} (hl : l.Same l') (hsep : l.terminal ≠ .separator)
      (hnext : s.next? l.terminal = some s') (h : Carried Q s' ls ls') : Carried Q s (l :: ls) (l' :: ls')
  | column {list : Option Terminal} {l l' : Lexeme} {ls ls' : List Lexeme} (ht : l.terminal = .name)
      (ht' : l'.terminal = .column) (htext : l'.text.toList = ':' :: l.text.toList)
      (hQ : Q l.start l.text.toList) (h : Carried Q (.arguments none) ls ls') :
      Carried Q (.arguments list) (l :: ls) (l' :: ls')

/-! ## Statements apart -/

theorem Place.after_line (p : Place) (cs : List Char) : (p.after cs).line = p.line + cs.count '\n' := by
  induction cs generalizing p with
  | nil => rfl
  | cons c cs ih =>
    rw [Place.after, List.foldl_cons, ← Place.after, ih, List.count_cons]
    unfold Place.next
    by_cases hc : c = '\n'
    · subst hc
      simp only [if_true, beq_self_eq_true]
      omega
    · simp [hc]

theorem Place.after_line_eq {p q : Place} (h : q.line = p.line) (cs : List Char) :
    (q.after cs).line = (p.after cs).line := by
  rw [after_line, after_line, h]

theorem next?_separator_isFinal (hs : s.isRegular = true) (h : s.next? .separator = some s') : s.isFinal = true := by
  cases s with
  | item kind =>
    have h : (if .separator = kind then some (State.arguments (some kind)) else none) = some s' := h
    split at h
    next hk =>
      subst hk
      cases hs
    next => cases h
  | statement | versionEnd | loadEnd | «arguments» => rfl
  | _ => cases h

/-- Promoted pieces have the same separators, and between these the lexemes carry over. -/
theorem carried_of_promoted {place place' : Place} {b : Bool} {cs : List Char} {ps qs : List Piece}
    (h : Promoted Q place b s ps qs) (hs : Scanned s cs ps) (hregular : s.isRegular = true)
    (hline : place'.line = place.line) :
    ∃ first more first' more',
      (locate place ps).splitOnP (·.terminal == .separator) = first :: more ∧
      (locate place' qs).splitOnP (·.terminal == .separator) = first' :: more' ∧
      Carried Q s first first' ∧ List.Forall₂ (Carried Q .statement) more more' := by
  induction h generalizing cs place' with
  | nil =>
    cases hs with
    | done hf => exact ⟨[], [], [], [], rfl, rfl, .nil hf, .nil⟩
  | @keep place b s p ps qs h ih =>
    have hu := hs.uncons
    have hline' := Place.after_line_eq hline p.text
    obtain ⟨t?, w⟩ := p
    rcases State.step?_cases hu.step with ⟨t, ht, hnext, _⟩ | ⟨ht, hafter, _⟩
    · obtain rfl : t? = some t := ht
      obtain ⟨first, more, first', more', hfirst, hfirst', hcarried, hmore⟩ :=
        ih hu.rest (State.next?_isRegular hregular hnext) hline'
      have hsame : Lexeme.Same ⟨t, String.ofList w, place⟩ ⟨t, String.ofList w, place'⟩ := ⟨rfl, rfl, hline⟩
      by_cases hsep : t = .separator
      · subst hsep
        have hstatement : s.after ⟨some .separator, w⟩ = .statement := by
          refine State.next?_separator ?_ hnext
          rintro rfl
          cases hregular
        rw [hstatement] at hcarried
        refine ⟨[], first :: more, [], first' :: more', ?_, ?_,
          .nil (next?_separator_isFinal hregular hnext), .cons hcarried hmore⟩
        · simp [locate, List.splitOnP_cons_eq_if_modifyHead, hfirst]
        · simp [locate, List.splitOnP_cons_eq_if_modifyHead, hfirst']
      · refine ⟨⟨t, String.ofList w, place⟩ :: first, more, ⟨t, String.ofList w, place'⟩ :: first', more', ?_, ?_,
          .same hsame hsep hnext hcarried, hmore⟩
        · simp [locate, List.splitOnP_cons_eq_if_modifyHead, hfirst, hsep]
        · simp [locate, List.splitOnP_cons_eq_if_modifyHead, hfirst', hsep]
    · obtain rfl : t? = none := ht
      rw [hafter] at ih
      have hrest := hu.rest
      rw [hafter] at hrest
      exact ih hrest hregular hline'
  | @comment place b s u v ps qs hu hv h ih =>
    have hun := hs.uncons
    have hafter : s.after ⟨none, '/' :: '/' :: u⟩ = s := rfl
    have hrest := hun.rest
    rw [hafter] at hrest
    refine ih hrest hregular ?_
    have hu : '\n' ∉ '/' :: '/' :: u := by simpa using hu
    have hv : '\n' ∉ '/' :: '/' :: v := by simpa using hv
    rw [Place.after_line, Place.after_line, List.count_eq_zero.mpr hu, List.count_eq_zero.mpr hv, hline]
  | @promote place list w ps qs hn hw h ih =>
    have hu := hs.uncons
    have hcolumn : '\n' ∉ ':' :: w := by simpa using hn
    have hline' : (place'.after (':' :: w)).line = (place.after w).line := by
      rw [Place.after_line, Place.after_line, List.count_eq_zero.mpr hn, List.count_eq_zero.mpr hcolumn, hline]
    have hafter : (State.arguments list).after ⟨some .name, w⟩ = .arguments none := rfl
    have hrest := hu.rest
    rw [hafter] at hrest
    obtain ⟨first, more, first', more', hfirst, hfirst', hcarried, hmore⟩ := ih hrest rfl hline'
    refine ⟨⟨.name, String.ofList w, place⟩ :: first, more, ⟨.column, String.ofList (':' :: w), place'⟩ :: first',
      more', ?_, ?_, .column rfl rfl ?_ ?_ hcarried, hmore⟩
    · simp [locate, List.splitOnP_cons_eq_if_modifyHead, hfirst]
    · simp [locate, List.splitOnP_cons_eq_if_modifyHead, hfirst']
    · simp
    · simpa using hw

/-! ## Lists and properties -/

theorem joined_of_head (h : ∀ l ∈ ls.head?, l.terminal ≠ .comma) : joined ls = ([], ls) := by
  match ls with
  | [] => rfl
  | [_] => rfl
  | l :: k :: ls => rw [joined, if_neg (h l rfl)]

theorem joined_comma {comma l : Lexeme} (h : comma.terminal = .comma) :
    joined (comma :: l :: ls) = (l :: (joined ls).1, (joined ls).2) := by
  rw [joined, if_pos h]

theorem propertiesOf_closing {l : Lexeme} (h : l.terminal = .closing) :
    propertiesOf (l :: ls) = ([], l :: ls) := by
  rw [propertiesOf.eq_def]
  simp [h]

theorem propertiesOf_comma {l : Lexeme} (h : l.terminal = .comma) : propertiesOf (l :: ls) = propertiesOf ls := by
  rw [propertiesOf.eq_def]
  simp [h]

theorem propertiesOf_entry {l e value : Lexeme} (h : l.terminal ≠ .closing) (h' : l.terminal ≠ .comma) :
    propertiesOf (l :: e :: value :: ls) = (⟨l, value⟩ :: (propertiesOf ls).1, (propertiesOf ls).2) := by
  rw [propertiesOf.eq_def]
  simp [h, h']

/-- The same property, with its parts on the same lines. -/
structure Property.Same (p p' : Property) : Prop where
  key : p.key.Same p'.key
  value : p.value.Same p'.value

namespace Carried

theorem head?_ne_comma (h : Carried Q (.arguments none) ls ls') : ∀ l ∈ ls.head?, l.terminal ≠ .comma := by
  intro l hl hcomma
  cases h with
  | nil => cases hl
  | same _ _ hnext _ =>
    cases hl
    rw [hcomma] at hnext
    cases hnext
  | column ht =>
    cases hl
    rw [hcomma] at ht
    cases ht

/-- No comma comes first where none came first before. -/
theorem head?_ne_comma_of (h : Carried Q s ls ls') (hl : ∀ l ∈ ls.head?, l.terminal ≠ .comma) :
    ∀ l ∈ ls'.head?, l.terminal ≠ .comma := by
  cases h with
  | nil => exact hl
  | same hsame =>
    rintro _ ⟨⟩
    rw [hsame.terminal]
    exact hl _ rfl
  | column _ ht' =>
    rintro _ ⟨⟩
    rw [ht']
    simp

/-- What commas join to a list carries over, and so does the rest. -/
theorem joined {kind : Terminal} (hk : kind.isListed = true) (h : Carried Q (.arguments (some kind)) ls ls') :
    List.Forall₂ Lexeme.Same (joined ls).1 (joined ls').1 ∧
      (∃ list, list.all Terminal.isListed = true ∧ Carried Q (.arguments list) (joined ls).2 (joined ls').2) ∧
      ∀ l ∈ (joined ls).2.head?, l.terminal ≠ .comma := by
  have stop {ls ls' : List Lexeme} (h : Carried Q (.arguments (some kind)) ls ls')
      (hl : ∀ l ∈ ls.head?, l.terminal ≠ .comma) :
      List.Forall₂ Lexeme.Same (Script.joined ls).1 (Script.joined ls').1 ∧
        (∃ list, list.all Terminal.isListed = true ∧
          Carried Q (.arguments list) (Script.joined ls).2 (Script.joined ls').2) ∧
        ∀ l ∈ (Script.joined ls).2.head?, l.terminal ≠ .comma := by
    rw [joined_of_head hl, joined_of_head (h.head?_ne_comma_of hl)]
    exact ⟨.nil, ⟨some kind, hk, h⟩, hl⟩
  induction ls using joined.induct generalizing ls' with
  | case1 comma l ls hcomma ih =>
    cases h with
    | @same _ s₁ _ comma' _ _ hl hsep hnext h =>
      rw [hcomma] at hnext
      cases hnext
      cases h with
      | @same _ s₂ _ l' _ ls' hl' hsep' hnext h =>
        have hnext : (if l.terminal = kind then some (State.arguments (some kind)) else none) = some s₂ := hnext
        split at hnext
        next =>
          cases hnext
          obtain ⟨hsame, hrest, hhead⟩ := ih h
          rw [joined_comma hcomma, joined_comma (hl.terminal.trans hcomma)]
          exact ⟨.cons hl' hsame, hrest, hhead⟩
        next => cases hnext
    | column ht =>
      rw [hcomma] at ht
      cases ht
  | case2 comma l ls hcomma =>
    exact stop h (by rintro _ ⟨⟩; exact hcomma)
  | case3 ls hshort =>
    have hhead : ∀ l ∈ ls.head?, l.terminal ≠ .comma := by
      intro l hl hcomma
      cases h with
      | nil => cases hl
      | @same _ _ _ l' ls _ _ _ hnext h =>
        cases hl
        cases ls with
        | nil =>
          rw [hcomma] at hnext
          cases hnext
          cases h with
          | nil hf => cases hf
        | cons k ls => exact hshort _ _ _ rfl
      | column ht =>
        cases hl
        rw [hcomma] at ht
        cases ht
    exact stop h hhead

/-- Where a key may stand, an equals sign follows whatever closes nothing and separates nothing. -/
theorem key_next? {t : Terminal} (hs : s = .firstKey ∨ s = .nextKey ∨ s = .valueEnd) (hnext : s.next? t = some s')
    (hclose : t ≠ .closing) (hcomma : t ≠ .comma) : s' = .equal := by
  rcases hs with rfl | rfl | rfl <;> cases t <;>
    first | cases hnext; done | (cases hnext; rfl) | exact absurd rfl hclose | exact absurd rfl hcomma

/-- Properties carry over up to the first closing brace. -/
theorem propertiesOf (hs : s = .firstKey ∨ s = .nextKey ∨ s = .valueEnd) (h : Carried Q s ls ls') :
    List.Forall₂ Property.Same (propertiesOf ls).1 (propertiesOf ls').1 ∧
      (propertiesOf ls).2 = ls.dropWhile (·.terminal != .closing) ∧
      ∃ l l' rest rest', (propertiesOf ls).2 = l :: rest ∧ (propertiesOf ls').2 = l' :: rest' ∧ l.Same l' ∧
        Carried Q (.arguments none) rest rest' := by
  induction ls using propertiesOf.induct generalizing s ls' with
  | case1 =>
    cases h with
    | nil hf => rcases hs with rfl | rfl | rfl <;> cases hf
  | case2 l ls hclose =>
    cases h with
    | @same _ s₁ _ l' _ ls' hl _ hnext h =>
      rw [hclose] at hnext
      have hs₁ : s₁ = .arguments none := by
        rcases hs with rfl | rfl | rfl <;> cases hnext <;> rfl
      subst hs₁
      rw [propertiesOf_closing hclose, propertiesOf_closing (hl.terminal.trans hclose)]
      exact ⟨.nil, by rw [List.dropWhile_cons_of_neg (by simp [hclose])], l, l', ls, ls', rfl, rfl, hl, h⟩
    | column ht => rcases hs with h | h | h <;> cases h
  | case3 l ls hclose hcomma ih =>
    cases h with
    | @same _ s₁ _ l' _ ls' hl _ hnext h =>
      rw [hcomma] at hnext
      have hs₁ : s₁ = .nextKey := by
        rcases hs with rfl | rfl | rfl <;> cases hnext
        rfl
      rw [propertiesOf_comma hcomma, propertiesOf_comma (hl.terminal.trans hcomma),
        List.dropWhile_cons_of_pos (by simp [hcomma])]
      exact ih (.inr (.inl hs₁)) h
    | column ht => rcases hs with h | h | h <;> cases h
  | case4 key hclose hcomma e value ls ih =>
    cases h with
    | @same _ s₁ _ key' _ ls' hkey _ hnext h =>
      have hs₁ := key_next? hs hnext hclose hcomma
      subst hs₁
      cases h with
      | @same _ s₂ _ e' _ ls' _ _ hnext h =>
        obtain ⟨hs₂, heclose⟩ : s₂ = .value ∧ e.terminal ≠ .closing := by
          cases ht : e.terminal <;> rw [ht] at hnext <;> cases hnext
          exact ⟨rfl, nofun⟩
        subst hs₂
        cases h with
        | @same _ s₃ _ value' _ ls' hvalue _ hnext h =>
          obtain ⟨hs₃, hvclose⟩ : s₃ = .valueEnd ∧ value.terminal ≠ .closing := by
            cases ht : value.terminal <;> rw [ht] at hnext <;> cases hnext <;> exact ⟨rfl, nofun⟩
          obtain ⟨hprops, hdrop, l, l', rest, rest', hrest, hrest', hl, hcarried⟩ := ih (.inr (.inr hs₃)) h
          rw [propertiesOf_entry hclose hcomma,
            propertiesOf_entry (by rwa [hkey.terminal]) (by rwa [hkey.terminal]),
            List.dropWhile_cons_of_pos (by simpa using hclose), List.dropWhile_cons_of_pos (by simpa using heclose),
            List.dropWhile_cons_of_pos (by simpa using hvclose)]
          exact ⟨.cons ⟨hkey, hvalue⟩ hprops, hdrop, l, l', rest, rest', hrest, hrest', hl, hcarried⟩
    | column ht => rcases hs with h | h | h <;> cases h
  | case5 key hclose hcomma ls hshort =>
    -- a key is followed by an equals sign and a value
    cases h with
    | @same _ s₁ _ key' _ ls' _ _ hnext h =>
      have hs₁ := key_next? hs hnext hclose hcomma
      subst hs₁
      cases h with
      | nil hf => cases hf
      | @same _ s₂ e e' _ ls' _ _ hnext h =>
        have hs₂ : s₂ = .value := by
          cases ht : e.terminal <;> rw [ht] at hnext <;> cases hnext
          rfl
        subst hs₂
        cases h with
        | nil hf => cases hf
        | same => exact (hshort _ _ _ rfl).elim
    | column ht => rcases hs with h | h | h <;> cases h

end Carried

/-! ## Arguments -/

/-- What promotion makes of an argument. -/
inductive Argument.Carried (Q : Place → List Char → Prop) : Argument → Argument → Prop
  | columns {l l' : Lexeme} {ls ls' : List Lexeme} (h : l.Same l') (hs : List.Forall₂ Lexeme.Same ls ls') :
      Carried Q (.columns l ls) (.columns l' ls')
  | texts {l l' : Lexeme} {ls ls' : List Lexeme} (h : l.Same l') (hs : List.Forall₂ Lexeme.Same ls ls') :
      Carried Q (.texts l ls) (.texts l' ls')
  | numbers {l l' : Lexeme} {ls ls' : List Lexeme} (h : l.Same l') (hs : List.Forall₂ Lexeme.Same ls ls') :
      Carried Q (.numbers l ls) (.numbers l' ls')
  | quantity {kind : UnitKind} {l l' : Lexeme} (h : l.Same l') : Carried Q (.quantity kind l) (.quantity kind l')
  | malformed {l l' : Lexeme} (h : l.Same l') : Carried Q (.malformed l) (.malformed l')
  | word {l l' : Lexeme} (h : l.Same l') : Carried Q (.word l) (.word l')
  | properties {l l' r r' : Lexeme} {es es' : List Property} (h : l.Same l')
      (hs : List.Forall₂ Property.Same es es') (hr : r.Same r') : Carried Q (.properties l es r) (.properties l' es' r')
  | promoted {l l' : Lexeme} (htext : l'.text.toList = ':' :: l.text.toList) (hQ : Q l.start l.text.toList) :
      Carried Q (.word l) (.columns l' [])

section Equations

variable {l : Lexeme}

/-- The argument that a lexeme starts, with the lexemes that commas join to it. -/
def Argument.starting (l : Lexeme) (more : List Lexeme) : Argument :=
  match l.terminal with
  | .column => .columns l more
  | .text => .texts l more
  | .number => .numbers l more
  | .byteSize => .quantity .size l
  | .duration => .quantity .time l
  | .malformedUnit => .malformed l
  | _ => .word l

theorem argumentsOf_nil : argumentsOf [] = [] := by
  rw [argumentsOf]

theorem argumentsOf_listed (h : l.terminal.isListed = true) :
    argumentsOf (l :: ls) = .starting l (joined ls).1 :: argumentsOf (joined ls).2 := by
  cases ht : l.terminal with
  | column | text | number => rw [argumentsOf, Argument.starting, ht]
  | _ =>
    rw [ht] at h
    cases h

theorem argumentsOf_single (h : l.terminal.isListed = false) (hopen : l.terminal ≠ .opening) :
    argumentsOf (l :: ls) = .starting l [] :: argumentsOf ls := by
  cases ht : l.terminal with
  | opening => exact absurd ht hopen
  | column | text | number =>
    rw [ht] at h
    cases h
  | _ => rw [argumentsOf, Argument.starting, ht]

theorem argumentsOf_opening {closing : Lexeme} {rest : List Lexeme} (h : l.terminal = .opening)
    (hrest : (propertiesOf ls).2 = closing :: rest) :
    argumentsOf (l :: ls) = .properties l (propertiesOf ls).1 closing :: argumentsOf rest := by
  rw [argumentsOf.eq_def]
  simp only [h]
  split
  next hnil =>
    rw [hrest] at hnil
    cases hnil
  next hcons =>
    rw [hrest] at hcons
    cases hcons
    rfl

end Equations

theorem Argument.carried_starting {l l' : Lexeme} (h : l.Same l') (hs : List.Forall₂ Lexeme.Same ls ls') :
    Argument.Carried Q (.starting l ls) (.starting l' ls') := by
  rw [Argument.starting, Argument.starting, h.terminal]
  cases l.terminal with
  | column => exact .columns h hs
  | text => exact .texts h hs
  | number => exact .numbers h hs
  | byteSize => exact .quantity h
  | duration => exact .quantity h
  | malformedUnit => exact .malformed h
  | _ => exact .word h

namespace Carried

/-- The arguments of a directive carry over. -/
theorem argumentsOf {list : Option Terminal} (h : Carried Q (.arguments list) ls ls')
    (hcomma : ∀ l ∈ ls.head?, l.terminal ≠ .comma) :
    List.Forall₂ (Argument.Carried Q) (argumentsOf ls) (argumentsOf ls') := by
  induction hn : ls.length using Nat.strong_induction_on generalizing list ls ls' with
  | _ n ih =>
    subst hn
    cases h with
    | nil =>
      rw [argumentsOf_nil]
      exact .nil
    | @same _ s₁ l l' ls ls' hl hsep hnext h =>
      by_cases hopen : l.terminal = .opening
      · rw [hopen] at hnext
        cases hnext
        obtain ⟨hsame, -, r, r', rest, rest', hrest, hrest', hr, hcarried⟩ := h.propertiesOf (.inl rfl)
        have hlen := propertiesOf_length ls
        rw [hrest] at hlen
        rw [argumentsOf_opening hopen hrest, argumentsOf_opening (hl.terminal.trans hopen) hrest']
        exact .cons (.properties hl hsame hr)
          (ih _ (Nat.lt_of_lt_of_le (Nat.lt_succ_self _) (Nat.le_succ_of_le hlen)) hcarried
            hcarried.head?_ne_comma rfl)
      have hs₁ := State.next?_arguments hnext hsep (hcomma l rfl) hopen
      cases hlisted : l.terminal.isListed with
      | true =>
        rw [hlisted] at hs₁
        subst hs₁
        obtain ⟨hsame, ⟨list, _, hrest⟩, hhead⟩ := h.joined hlisted
        rw [argumentsOf_listed hlisted, argumentsOf_listed (by rwa [hl.terminal])]
        exact .cons (Argument.carried_starting hl hsame) (ih _ (Nat.lt_succ_of_le (joined_length ls)) hrest hhead rfl)
      | false =>
        rw [hlisted] at hs₁
        subst hs₁
        rw [argumentsOf_single hlisted hopen, argumentsOf_single (by rwa [hl.terminal]) (by rwa [hl.terminal])]
        exact .cons (Argument.carried_starting hl .nil) (ih _ (Nat.lt_succ_self _) h h.head?_ne_comma rfl)
    | @column _ l l' ls ls' ht ht' htext hQ h =>
      have hmore := ih _ (Nat.lt_succ_self _) h h.head?_ne_comma rfl
      -- no comma followed the name, so none follows the column
      have hhead := h.head?_ne_comma_of h.head?_ne_comma
      have hword : Argument.starting l [] = .word l := by
        rw [Argument.starting, ht]
      have hcolumn : Argument.starting l' [] = .columns l' [] := by
        rw [Argument.starting, ht']
      rw [argumentsOf_single (by rw [ht]; rfl) (by rw [ht]; simp), argumentsOf_listed (by rw [ht']; rfl),
        joined_of_head hhead, hword, hcolumn]
      exact .cons (.promoted htext hQ) hmore

end Carried

/-! ## Statements -/

/-- What promotion makes of a statement: a directive keeps its name and its line. -/
inductive Statement.Carried (Q : Place → List Char → Prop) : Statement → Statement → Prop
  | version {l l' : Lexeme} (h : l.Same l') : Carried Q (.version l) (.version l')
  | load {ls ls' : List Lexeme} (h : List.Forall₂ Lexeme.Same ls ls') : Carried Q (.load ls) (.load ls')
  | directive {l l' : Lexeme} {args args' : List Argument} (h : l.Same l')
      (hargs : List.Forall₂ (Argument.Carried Q) args args') :
      Carried Q (.directive l args) (.directive l' args')

/-- Nothing is promoted within a pragma. -/
theorem Carried.pragma (hs : s.inPragma = true) (h : Carried Q s ls ls') : List.Forall₂ Lexeme.Same ls ls' := by
  induction h with
  | nil => exact .nil
  | same hl hsep hnext _ ih => exact .cons hl (ih (State.next?_inPragma hs hnext hsep))
  | column => cases hs

theorem Lexeme.Same.find? {f : Lexeme → Bool} (hf : ∀ l l', Lexeme.Same l l' → f l = f l')
    (h : List.Forall₂ Lexeme.Same ls ls') :
    (ls.find? f = none ∧ ls'.find? f = none) ∨ ∃ l l', ls.find? f = some l ∧ ls'.find? f = some l' ∧ l.Same l' := by
  induction h with
  | nil => exact .inl ⟨rfl, rfl⟩
  | @cons l l' ls ls' hl _ ih =>
    have heq := hf l l' hl
    cases hfl : f l with
    | true => exact .inr ⟨l, l', List.find?_cons_of_pos hfl, List.find?_cons_of_pos (heq ▸ hfl), hl⟩
    | false =>
      rw [List.find?_cons_of_neg (by simp [hfl]), List.find?_cons_of_neg (by simp [← heq, hfl])]
      exact ih

theorem Lexeme.Same.filter {f : Lexeme → Bool} (hf : ∀ l l', Lexeme.Same l l' → f l = f l')
    (h : List.Forall₂ Lexeme.Same ls ls') : List.Forall₂ Lexeme.Same (ls.filter f) (ls'.filter f) := by
  induction h with
  | nil => exact .nil
  | @cons l l' ls ls' hl _ ih =>
    have heq := hf l l' hl
    cases hfl : f l with
    | true =>
      rw [List.filter_cons_of_pos hfl, List.filter_cons_of_pos (heq ▸ hfl)]
      exact .cons hl ih
    | false =>
      rw [List.filter_cons_of_neg (by simp [hfl]), List.filter_cons_of_neg (by simp [← heq, hfl])]
      exact ih

/-- The lexemes of a statement make up a statement before and after promotion, or none at all. -/
theorem Carried.statement (h : Carried Q .statement ls ls') :
    (Statement.ofLexemes? ls = none ∧ Statement.ofLexemes? ls' = none) ∨
      ∃ st st', Statement.ofLexemes? ls = some st ∧ Statement.ofLexemes? ls' = some st' ∧ st.Carried Q st' := by
  cases h with
  | nil => exact .inl ⟨rfl, rfl⟩
  | @same _ s₁ l l' ls ls' hl hsep hnext h =>
    right
    by_cases ht : l.terminal = .pragmaWord
    · rw [ht] at hnext
      cases hnext
      have hsame := h.pragma rfl
      have hterminal (t : Terminal) (l l' : Lexeme) (hl : l.Same l') : (l.terminal == t) = (l'.terminal == t) := by
        rw [hl.terminal]
      rw [Statement.ofLexemes?, Statement.ofLexemes?, if_pos ht, if_pos (hl.terminal.trans ht)]
      rcases Lexeme.Same.find? (hterminal .version) hsame with ⟨hv, hv'⟩ | ⟨v, v', hv, hv', hsamev⟩
      · rw [hv, hv']
        exact ⟨_, _, rfl, rfl, .load (Lexeme.Same.filter (hterminal .name) hsame)⟩
      · rw [hv, hv']
        exact ⟨_, _, rfl, rfl, .version hsamev⟩
    · have hname : l.terminal = .name := by
        cases hl : l.terminal with
        | name => rfl
        | pragmaWord => exact absurd hl ht
        | separator => exact absurd hl hsep
        | _ =>
          rw [hl] at hnext
          cases hnext
      rw [hname] at hnext
      cases hnext
      rw [Statement.ofLexemes?, Statement.ofLexemes?, if_neg ht, if_neg (by rwa [hl.terminal])]
      exact ⟨_, _, rfl, rfl, .directive hl (Carried.argumentsOf h h.head?_ne_comma)⟩

theorem Carried.statements {lss lss' : List (List Lexeme)} (h : List.Forall₂ (Carried Q .statement) lss lss') :
    List.Forall₂ (Statement.Carried Q) (lss.filterMap Statement.ofLexemes?)
      (lss'.filterMap Statement.ofLexemes?) := by
  induction h with
  | nil => exact .nil
  | cons hls _ ih =>
    rcases hls.statement with ⟨hnone, hnone'⟩ | ⟨st, st', hst, hst', hcarried⟩
    · rw [List.filterMap_cons_none hnone, List.filterMap_cons_none hnone']
      exact ih
    · rw [List.filterMap_cons_some hst, List.filterMap_cons_some hst']
      exact .cons hcarried ih

/-- Where names are promoted, a script keeps its statements. -/
theorem ofLexemes_of_promoted {place place' : Place} {cs : List Char} {ps qs : List Piece}
    (h : Promoted Q place false .statement ps qs) (hs : Scanned .statement cs ps)
    (hline : place'.line = place.line) :
    List.Forall₂ (Statement.Carried Q) (ofLexemes (locate place ps)).statements
      (ofLexemes (locate place' qs)).statements := by
  obtain ⟨first, more, first', more', hfirst, hfirst', hcarried, hmore⟩ := carried_of_promoted h hs rfl hline
  rw [ofLexemes, ofLexemes, hfirst, hfirst']
  exact Carried.statements (.cons hcarried hmore)

end RowRecipe.Script
