import RowRecipe.Proofs.Script.Promotion
import RowRecipe.Proofs.Script.Reading

/-!
# Meanings of promoted arguments

The value of a lexeme depends on its text alone. So where names are promoted to columns, an argument keeps its
meaning, or it is a word that has become a column.
-/

namespace RowRecipe.Script

open Grammar

variable {Q : Place → List Char → Prop} {source : String} {l l' : Lexeme} {ls ls' : List Lexeme}

theorem Lexeme.Same.columnName (h : l.Same l') : l'.columnName = l.columnName := by
  rw [Lexeme.columnName, Lexeme.columnName, h.text]

theorem Lexeme.Same.unquoted (h : l.Same l') : l'.unquoted = l.unquoted := by
  rw [Lexeme.unquoted, Lexeme.unquoted, h.text]

theorem Lexeme.Same.numeric (h : l.Same l') : l'.numeric = l.numeric := by
  rw [Lexeme.numeric, Lexeme.numeric, h.text]

theorem Lexeme.Same.truth? (h : l.Same l') : l'.truth? = l.truth? := by
  rw [Lexeme.truth?, Lexeme.truth?, h.text]

theorem Property.Same.entry {p p' : Property} (h : p.Same p') : p'.entry = p.entry := by
  rw [Property.entry, Property.entry, h.key.terminal, h.key.unquoted, h.key.text, h.value.terminal,
    h.value.unquoted, h.value.numeric, h.value.truth?, h.value.text]

/-- A function of the lexeme alone takes equal values on lists of the same lexemes. -/
theorem map_of_same {α : Type} {f : Lexeme → α} (hf : ∀ {l l' : Lexeme}, l.Same l' → f l' = f l)
    (h : List.Forall₂ Lexeme.Same ls ls') : ls'.map f = ls.map f := by
  induction h with
  | nil => rfl
  | cons hl _ ih => rw [List.map_cons, List.map_cons, hf hl, ih]

theorem ofItems_of_same {α : Type} {one : α → Meaning} {several : List α → Meaning} {value : Lexeme → α}
    (hvalue : ∀ {l l' : Lexeme}, l.Same l' → value l' = value l) (h : l.Same l')
    (hs : List.Forall₂ Lexeme.Same ls ls') :
    Token.ofItems one several value l' ls' = Token.ofItems one several value l ls := by
  have hempty : ls'.isEmpty = ls.isEmpty := by
    cases hs <;> rfl
  rw [Token.ofItems, Token.ofItems, hempty, hvalue h, h.text, map_of_same hvalue (.cons h hs),
    map_of_same Lexeme.Same.text (.cons h hs)]

/-- Promotion of an argument keeps its meaning, or it makes a column of a word. -/
theorem Argument.Carried.token (source' : String) {arg arg' : Argument} {t : Token} (h : arg.Carried Q arg')
    (ht : arg.token source = .ok t) :
    (∃ t', arg'.token source' = .ok t' ∧ t'.meaning = t.meaning) ∨
      ∃ l l', arg = .word l ∧ arg' = .columns l' [] ∧ l'.text.toList = ':' :: l.text.toList ∧
        Q l.start l.text.toList := by
  cases h with
  | columns h hs =>
    cases ht
    exact .inl ⟨_, rfl, congrArg Token.meaning (ofItems_of_same Lexeme.Same.columnName h hs)⟩
  | texts h hs =>
    cases ht
    exact .inl ⟨_, rfl, congrArg Token.meaning (ofItems_of_same Lexeme.Same.unquoted h hs)⟩
  | numbers h hs =>
    cases ht
    exact .inl ⟨_, rfl, congrArg Token.meaning (ofItems_of_same Lexeme.Same.numeric h hs)⟩
  | @quantity kind l l' h =>
    rw [token_quantity] at ht
    obtain ⟨q, hq, rfl⟩ := ht
    exact .inl ⟨_, token_quantity.mpr ⟨q, by rw [h.text, hq], rfl⟩, rfl⟩
  | malformed h => cases ht
  | @word l l' h =>
    refine .inl ⟨t, ?_, rfl⟩
    rw [token.eq_def] at ht ⊢
    dsimp only at ht ⊢
    rwa [h.truth?, h.text]
  | @properties l l' r r' es es' h hs hr =>
    cases ht
    have hentries : es'.map Property.entry = es.map Property.entry := by
      induction hs with
      | nil => rfl
      | cons he _ ih => rw [List.map_cons, List.map_cons, he.entry, ih]
    exact .inl ⟨_, rfl, congrArg (Meaning.properties ∘ Mapping.ofEntries) hentries⟩
  | @promoted l l' htext hQ => exact .inr ⟨l, l', rfl, rfl, htext, hQ⟩

/-- Where nothing is promoted, the tokens keep their meanings. -/
theorem meanings_of_carried (source' : String) {args args' : List Argument} {ts : List Token}
    (h : List.Forall₂ (Argument.Carried fun _ _ => False) args args')
    (ht : args.mapM (Argument.token source) = .ok ts) :
    ∃ ts', args'.mapM (Argument.token source') = .ok ts' ∧ ts'.map (·.meaning) = ts.map (·.meaning) := by
  induction h generalizing ts with
  | nil =>
    cases ht
    exact ⟨[], rfl, rfl⟩
  | cons h _ ih =>
    obtain ⟨t, us, hfirst, hmore, rfl⟩ := Argument.mapM_token_cons.mp ht
    obtain ⟨us', hus', hsames⟩ := ih hmore
    rcases h.token source' hfirst with ⟨t', ht', hsame⟩ | ⟨l, l', -, -, -, hnone⟩
    · refine ⟨t' :: us', Argument.mapM_token_cons.mpr ⟨t', us', ht', hus', rfl⟩, ?_⟩
      rw [List.map_cons, List.map_cons, hsame, hsames]
    · exact hnone.elim

end RowRecipe.Script
