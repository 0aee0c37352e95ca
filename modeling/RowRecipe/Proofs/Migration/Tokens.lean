import RowRecipe.Proofs.Migration.Walk
import RowRecipe.Proofs.Script.Meanings

/-!
# Tokens of promoted scripts

Where names are promoted to columns, a recipe keeps its groups. A promoted word becomes the name of a
column, and every other token means what it meant before.
-/

namespace RowRecipe.Migration

open Grammar Script

variable {P : Sighting → Prop} {source : String}

/-! ## Arguments -/

/-- The tokens of an argument before and after migration. A word becomes a column only where migration sees
it as an argument that may be one. -/
inductive SameToken (P : Sighting → Prop) : Argument → Token → Token → Prop
  | same {arg : Argument} {t t' : Token} (h : t'.meaning = t.meaning) : SameToken P arg t t'
  | column {l : Lexeme} {x : Sighting} (hx : P x) (hstart : x.start = l.start) (htext : x.text = l.text.toList)
      (hcolumn : TakesColumn x.accepts) :
      SameToken P (.word l) ⟨.text l.text, l.text⟩ ⟨.columnName l.text, ":" ++ l.text⟩

/-- The tokens of several arguments before and after migration. -/
inductive SameTokens (P : Sighting → Prop) : List Argument → List Token → List Token → Prop
  | nil : SameTokens P [] [] []
  | cons {arg : Argument} {args : List Argument} {t t' : Token} {ts ts' : List Token} (h : SameToken P arg t t')
      (hs : SameTokens P args ts ts') : SameTokens P (arg :: args) (t :: ts) (t' :: ts')

theorem truth?_of_isTruth {l : Lexeme} (h : isTruth l.text.toList = false) : l.truth? = none := by
  simp only [isTruth, String.ofList_toList, Bool.or_eq_false_iff, beq_eq_false_iff_ne] at h
  rw [Lexeme.truth?, if_neg h.1, if_neg h.2]

/-- Promotion of an argument keeps its meaning, or it makes a column of a word. -/
theorem token_of_carried (source' : String) {arg arg' : Argument} {t : Token} (h : arg.Carried (Promotable P) arg')
    (ht : arg.token source = .ok t) : ∃ t', arg'.token source' = .ok t' ∧ SameToken P arg t t' := by
  rcases h.token source' ht with ⟨t', ht', hmeaning⟩ | ⟨l, l', rfl, rfl, htext, hQ⟩
  · exact ⟨t', ht', .same hmeaning⟩
  · obtain ⟨x, hx, hstart, hsight, hcolumn, htruth⟩ := hQ
    rw [Argument.token_word (truth?_of_isTruth htruth)] at ht
    cases ht
    have hname : l'.columnName = l.text := by
      rw [Lexeme.columnName, htext, List.drop_one, List.tail_cons, String.ofList_toList]
    have hliteral : l'.text = ":" ++ l.text := by
      rw [← String.toList_inj, htext, String.toList_append]
      rfl
    refine ⟨_, rfl, ?_⟩
    have hitems : Token.ofItems .columnName .columnNameList Lexeme.columnName l' [] =
        ⟨.columnName l'.columnName, l'.text⟩ := rfl
    rw [hitems, hname, hliteral]
    exact .column hx hstart hsight hcolumn

theorem tokens_of_carried (source' : String) {args args' : List Argument} {ts : List Token}
    (h : List.Forall₂ (Argument.Carried (Promotable P)) args args') (ht : args.mapM (Argument.token source) = .ok ts) :
    ∃ ts', args'.mapM (Argument.token source') = .ok ts' ∧ SameTokens P args ts ts' := by
  induction h generalizing ts with
  | nil =>
    cases ht
    exact ⟨[], rfl, .nil⟩
  | @cons arg arg' args args' h _ ih =>
    obtain ⟨t, us, hfirst, hmore, rfl⟩ := Argument.mapM_token_cons.mp ht
    obtain ⟨t', ht', hsame⟩ := token_of_carried source' h hfirst
    obtain ⟨us', hus', hsames⟩ := ih hmore
    exact ⟨t' :: us', Argument.mapM_token_cons.mpr ⟨t', us', ht', hus', rfl⟩, .cons hsame hsames⟩

/-! ## Groups -/

/-- The groups of statements before and after migration. -/
inductive SameGroups (P : Sighting → Prop) : List Statement → List TokenGroup → List TokenGroup → Prop
  | nil : SameGroups P [] [] []
  | version {number : Lexeme} {sts : List Statement} {gs gs' : List TokenGroup} (h : SameGroups P sts gs gs') :
      SameGroups P (.version number :: sts) gs gs'
  | load {names : List Lexeme} {sts : List Statement} {gs gs' : List TokenGroup} (h : SameGroups P sts gs gs') :
      SameGroups P (.load names :: sts) gs gs'
  | directive {name : Lexeme} {args : List Argument} {sts : List Statement} {g g' : TokenGroup}
      {gs gs' : List TokenGroup} (hname : g.name = name.text ∧ g'.name = name.text)
      (hline : g.line = name.start.line ∧ g'.line = name.start.line)
      (hargs : SameTokens P args g.arguments g'.arguments) (h : SameGroups P sts gs gs') :
      SameGroups P (.directive name args :: sts) (g :: gs) (g' :: gs')

/-- A script whose names are promoted has a meaning if the script has one, and the groups are the same. -/
theorem groups_of_carried (source' : String) (r' : Recipe) {sts sts' : List Statement} {r out : Recipe}
    (h : List.Forall₂ (Statement.Carried (Promotable P)) sts sts')
    (hout : sts.foldlM (Recipe.extend source) r = .ok out) :
    ∃ out' gs gs', sts'.foldlM (Recipe.extend source') r' = .ok out' ∧ out.groups = r.groups ++ gs ∧
      out'.groups = r'.groups ++ gs' ∧ SameGroups P sts gs gs' := by
  induction h generalizing r r' with
  | nil =>
    cases hout
    exact ⟨r', [], [], rfl, (List.append_nil _).symm, (List.append_nil _).symm, .nil⟩
  | cons h _ ih =>
    obtain ⟨r₁, hst, hout⟩ := Recipe.foldlM_cons_eq_ok.mp hout
    cases h with
    | version =>
      cases hst
      obtain ⟨out', gs, gs', hout', hgs, hgs', hsame⟩ := ih _ hout
      exact ⟨out', gs, gs', hout', hgs, hgs', .version hsame⟩
    | @load ls ls' =>
      cases hst
      obtain ⟨out', gs, gs', hout', hgs, hgs', hsame⟩ := ih _ hout
      rw [Recipe.foldl_declare_groups] at hgs hgs'
      exact ⟨out', gs, gs', hout', hgs, hgs', .load hsame⟩
    | @directive l l' args args' hl hargs =>
      obtain ⟨ts, ht, rfl⟩ := Recipe.extend_directive_eq_ok hst
      obtain ⟨ts', ht', hsames⟩ := tokens_of_carried source' hargs ht
      have hst' := Recipe.extend_directive r' l' ht'
      obtain ⟨out', gs, gs', hout', hgs, hgs', hsame⟩ :=
        ih { r' with groups := r'.groups ++ [Recipe.groupOf source' l' args' ts'] } hout
      rw [List.append_assoc] at hgs hgs'
      refine ⟨out', _ :: gs, _ :: gs', Recipe.foldlM_cons_eq_ok.mpr ⟨_, hst', hout'⟩, hgs, hgs', ?_⟩
      exact .directive ⟨rfl, hl.text⟩ ⟨rfl, congrArg Nat.cast hl.line⟩ hsames hsame

end RowRecipe.Migration
