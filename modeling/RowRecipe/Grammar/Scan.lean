import RowRecipe.Grammar.State

/-!
# Scanning

A recipe is cut into pieces from left to right. Only terminals that the grammar can take next are
tried, so the same characters can be different terminals in different places. The pieces together are
the text again.
-/

namespace RowRecipe.Grammar

/-- A piece of a recipe: a terminal, or a gap. -/
structure Piece where
  terminal? : Option Terminal
  text : List Char

namespace State

variable (s : State)

/-- The next piece with the state after it, and the rest of the text. -/
def step? (cs : List Char) : Option (Piece × State × List Char) :=
  let cut (t : Terminal) : Option (Piece × State × List Char) :=
    match s.next? t, t.cut? cs with
    | some s, some r => some (⟨some t, r.1⟩, s, r.2)
    | _, _ => none
  s.offers.findSome? cut <|> (gapCut? cs).map fun r => (⟨none, r.1⟩, s, r.2)

/-- A step cuts its piece from the text. -/
theorem step?_of {cs : List Char} {p : Piece} {s' : State} {rest : List Char}
    (h : s.step? cs = some (p, s', rest)) : Cut.Of (p.text, rest) cs := by
  unfold step? at h
  simp only [Option.orElse_eq_orElse, Option.orElse_eq_or, Option.or_eq_some_iff] at h
  rcases h with h | ⟨_, h⟩
  · obtain ⟨t, _, ht⟩ := List.exists_of_findSome?_eq_some h
    split at ht
    next hr => cases ht; exact Terminal.cut?_of hr
    next => cases ht
  · obtain ⟨r, hr, he⟩ := Option.map_eq_some_iff.1 h
    cases he
    exact gapCut?_of hr

end State

/-- Where scanning stopped: the state, and the text that it could not go on with. -/
structure Stop where
  state : State
  rest : List Char

/-- Cuts a text into pieces, starting in a state. -/
def scan (s : State) (cs : List Char) : Except Stop (List Piece) :=
  match cs with
  | [] => if s.isFinal then pure [] else throw ⟨s, []⟩
  | c :: cs =>
    match _h : s.step? (c :: cs) with
    | none => throw ⟨s, c :: cs⟩
    | some (p, s', rest) =>
      match scan s' rest with
      | .ok ps => pure (p :: ps)
      | .error e => throw e
termination_by cs.length
decreasing_by exact (s.step?_of _h).length_lt

/-- The text of pieces. -/
def Piece.textOf (ps : List Piece) : List Char :=
  ps.flatMap (·.text)

theorem scan_text {s : State} {cs : List Char} {ps : List Piece} (h : scan s cs = .ok ps) :
    Piece.textOf ps = cs := by
  fun_induction scan s cs generalizing ps with
  | case1 => cases h; rfl
  | case2 => cases h
  | case3 => cases h
  | case4 s c cs p s' rest hstep ps' hps ih =>
    cases h
    have := (s.step?_of hstep).2
    rw [Piece.textOf, List.flatMap_cons, ← this]
    exact congrArg _ (ih hps)
  | case5 => cases h

end RowRecipe.Grammar
