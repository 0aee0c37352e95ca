import RowRecipe.Proofs.Script.Apart
import RowRecipe.Proofs.Script.Items

/-!
# Texts in quotes

Every text can be written as a literal, in quotes of either kind: a backslash goes in front of each backslash and of
each such quote. The literal ends at its last quote, and its escapes give the text back, so a directive has the text
for its argument. Literals that commas join are one list of the texts.
-/

namespace RowRecipe

open Grammar Script

/-! ## Writing a text -/

/-- The quotes that a text may stand in. -/
inductive Quote
  | single
  | double

namespace Quote

variable (q : Quote) {c : Char}

def char : Quote → Char
  | single => '\''
  | double => '"'

/-- A character within the quotes. -/
def written (c : Char) : List Char :=
  if c = q.char ∨ c = '\\' then ['\\', c] else [c]

/-- A text within the quotes. -/
def body (cs : List Char) : List Char :=
  cs.flatMap q.written

theorem body_cons_escaped (h : c = q.char ∨ c = '\\') (cs : List Char) :
    q.body (c :: cs) = '\\' :: c :: q.body cs := by
  rw [body, List.flatMap_cons, written, if_pos h]
  rfl

theorem body_cons_plain (h : ¬(c = q.char ∨ c = '\\')) (cs : List Char) : q.body (c :: cs) = c :: q.body cs := by
  rw [body, List.flatMap_cons, written, if_neg h]
  rfl

/-- A quote and a backslash stand for themselves behind a backslash, and neither ends a line. -/
theorem unescaped_of_escaped (h : c = q.char ∨ c = '\\') : unescaped c = c ∧ c ≠ '\n' := by
  rcases h with rfl | rfl
  · cases q <;> decide
  · decide

theorem char_ne_backslash : q.char ≠ '\\' := by
  cases q <;> decide

end Quote

/-- A text with the quotes it is written in. -/
structure Quoted where
  quote : Quote
  value : String

namespace Quoted

variable (t : Quoted)

def chars : List Char :=
  t.quote.char :: (t.quote.body t.value.toList ++ [t.quote.char])

/-- The text as a literal. -/
def literal : String :=
  String.ofList t.chars

end Quoted

/-! ## Reading it back -/

namespace Quote

variable (q : Quote)

/-- Escapes give back what was escaped. -/
theorem unescape_body (cs : List Char) : unescape (q.body cs) = cs := by
  induction cs with
  | nil => rfl
  | cons c cs ih =>
    by_cases hc : c = q.char ∨ c = '\\'
    · rw [q.body_cons_escaped hc, unescape, ih, (q.unescaped_of_escaped hc).1]
    · have hback : c ≠ '\\' := fun h => hc (.inr h)
      rw [q.body_cons_plain hc, unescape, ih]
      simp [hback]

/-- The first quote that no backslash stands in front of is the closing one. -/
theorem closingCut?_body (cs rest : List Char) :
    closingCut? q.char (q.body cs ++ q.char :: rest) = some (q.body cs ++ [q.char], rest) := by
  induction cs with
  | nil =>
    change closingCut? q.char (q.char :: rest) = _
    rw [closingCut?, if_pos rfl]
    · rfl
    · simp [q.char_ne_backslash]
  | cons c cs ih =>
    by_cases hc : c = q.char ∨ c = '\\'
    · rw [q.body_cons_escaped hc, List.cons_append, List.cons_append, closingCut?,
        if_neg (q.unescaped_of_escaped hc).2, ih]
      rfl
    · obtain ⟨hquote, hback⟩ := not_or.mp hc
      rw [q.body_cons_plain hc, List.cons_append, closingCut?, if_neg hquote, if_neg hback, ih]
      · rfl
      · simp [hback]

end Quote

namespace Quoted

theorem textCut?_chars (t : Quoted) (rest : List Char) : textCut? (t.chars ++ rest) = some (t.chars, rest) := by
  have hquote : t.quote.char = '\'' ∨ t.quote.char = '"' := by
    cases t.quote
    · exact .inl rfl
    · exact .inr rfl
  rw [chars, List.cons_append, List.append_assoc, List.singleton_append, textCut?, if_pos hquote,
    t.quote.closingCut?_body]
  rfl

/-- A literal is read as a text, whatever stands behind it. -/
theorem readAs_chars (t : Quoted) : ReadAs .text t.chars := by
  intro s s' more hnext _
  have hcut : Terminal.text.cut? t.chars = some (t.chars, []) := by
    have hcut := t.textCut?_chars []
    rwa [List.append_nil] at hcut
  exact State.step?_closed rfl hnext hcut more

/-- A literal means the text that it was written for. -/
theorem unquoted_of_text {l : Lexeme} {t : Quoted} (h : l.text = t.literal) : l.unquoted = t.value := by
  have hbody : (t.chars.drop 1).dropLast = t.quote.body t.value.toList := by
    rw [chars, List.drop_one, List.tail_cons, List.dropLast_concat]
  rw [Lexeme.unquoted, h, literal, String.toList_ofList, hbody, t.quote.unescape_body, String.ofList_toList]

end Quoted

/-! ## Directives with texts -/

namespace Script

variable {name : List Char} (t : Quoted) (ts : List Quoted)

/-- A blank, and literals behind it that commas join. -/
def spacedTexts : List Piece :=
  ⟨none, [' ']⟩ :: itemPieces .text ((t :: ts).map Quoted.chars)

theorem textOf_spacedTexts :
    Piece.textOf (spacedTexts t ts) = ' ' :: [','].intercalate ((t :: ts).map Quoted.chars) := by
  rw [spacedTexts, Piece.textOf_cons, List.map_cons, textOf_itemPieces]
  rfl

/-- A name with literals behind it is a directive alone. -/
theorem alone_texts (hname : nameCut? name = some (name, [])) : Alone name (spacedTexts t ts) := by
  have hread : ∀ v ∈ (t :: ts).map Quoted.chars, ReadAs .text v := by
    rw [List.forall_mem_map]
    exact fun t _ => t.readAs_chars
  have hscanned : Scanned (.arguments none) (Piece.textOf (itemPieces .text ((t :: ts).map Quoted.chars)) ++ [])
      (itemPieces .text ((t :: ts).map Quoted.chars) ++ []) :=
    scanned_itemPieces rfl hread (by simp [Delimits]) (.done rfl)
  rw [List.append_nil, List.append_nil] at hscanned
  have hterminal : ∀ p ∈ itemPieces .text ((t :: ts).map Quoted.chars),
      p.terminal? = some .text ∨ p.terminal? = some .comma := fun _ => terminal?_of_mem_itemPieces
  refine alone_spaced hname hscanned ?_ ?_ ?_
  · rw [List.map_cons, itemPieces, Piece.textOf_cons, Quoted.chars]
    rintro _ ⟨⟩
    cases t.quote <;> rfl
  · intro p hp
    rcases hterminal p hp with h | h <;> simp [h]
  · intro p hp
    rcases hterminal p (List.mem_of_getLast? hp) with h | h <;> simp [h]

/-- The token of literals that commas join: a single text, or the list of the texts. -/
def tokenOfTexts : Token :=
  if ts.isEmpty then ⟨.text t.value, t.literal⟩
  else ⟨.textList ((t :: ts).map (·.value)), ",".intercalate ((t :: ts).map Quoted.literal)⟩

theorem toList_literal_tokenOfTexts :
    (tokenOfTexts t ts).literal.toList = [','].intercalate ((t :: ts).map Quoted.chars) := by
  rw [tokenOfTexts]
  cases ts with
  | nil => simp [Quoted.literal]
  | cons u ts =>
    have hchars : (t :: u :: ts).map (String.toList ∘ Quoted.literal) = (t :: u :: ts).map Quoted.chars :=
      List.map_congr_left fun _ _ => String.toList_ofList
    rw [if_neg (by simp), String.toList_intercalate, List.map_map, hchars]
    rfl

theorem tokens_texts (source : String) :
    (argumentsBehind name (spacedTexts t ts)).mapM (Argument.token source) = .ok [tokenOfTexts t ts] := by
  obtain ⟨first, items, harguments, hfirst, htexts⟩ := argumentsOf_itemPieces .text rfl [] nofun
    t.chars (ts.map Quoted.chars) ((Place.origin.after name).after [' '])
  have hlocate : argumentsBehind name (spacedTexts t ts) = [.texts first items] := by
    have hstarting : Argument.starting first items = .texts first items := by rw [Argument.starting, hfirst]
    rw [List.append_nil, hstarting, argumentsOf_nil] at harguments
    exact harguments
  have hliterals : (first :: items).map (·.text) = (t :: ts).map Quoted.literal := by
    rw [htexts, ← List.map_cons, List.map_map]
    rfl
  have hvalues : (first :: items).map Lexeme.unquoted = (t :: ts).map (·.value) :=
    map_of_map_text (fun l t => Quoted.unquoted_of_text) hliterals
  have htoken : Token.ofItems .text .textList Lexeme.unquoted first items = tokenOfTexts t ts := by
    have hempty : items.isEmpty = ts.isEmpty := by
      have hlength := congrArg List.length hliterals
      simp only [List.length_map, List.length_cons, Nat.add_right_cancel_iff] at hlength
      rw [Bool.eq_iff_iff, List.isEmpty_iff_length_eq_zero, List.isEmpty_iff_length_eq_zero, hlength]
    rw [Token.ofItems, tokenOfTexts, hempty, hvalues, hliterals]
    rw [List.map_cons, List.map_cons, List.cons.injEq] at hliterals hvalues
    rw [hliterals.1, hvalues.1]
  rw [hlocate, Argument.mapM_token_cons]
  exact ⟨_, [], Argument.token_texts first items, rfl, by rw [htoken]⟩

end Script

namespace Recipe

variable {name : String}

/-- The recipe of a directive with one argument. -/
def ofToken (name : String) (token : Token) : Recipe :=
  { groups := [⟨name, [token], 1, name ++ " " ++ token.literal⟩], version := none, loadable := [] }

theorem ofText_texts (hname : nameCut? name.toList = some (name.toList, [])) (t : Quoted) (ts : List Quoted) :
    Recipe.ofText (name ++ " " ++ (tokenOfTexts t ts).literal) = .ok (ofToken name (tokenOfTexts t ts)) := by
  have hrecipe := (alone_texts t ts hname).ofText (tokens_texts t ts _)
  have hsource : String.ofList (name.toList ++ Piece.textOf (spacedTexts t ts)) =
      name ++ " " ++ (tokenOfTexts t ts).literal := by
    rw [textOf_spacedTexts, ← String.toList_inj]
    simp [toList_literal_tokenOfTexts]
  rwa [hsource, String.ofList_toList] at hrecipe

/-- A literal behind a name is read as the text that it was written for, and literals that commas join are read as
the list of their texts. -/
theorem ofText_quoted (hname : nameCut? name.toList = some (name.toList, [])) :
    (∀ t : Quoted, Recipe.ofText (name ++ " " ++ t.literal) = .ok (ofToken name ⟨.text t.value, t.literal⟩)) ∧
      ∀ ts : List Quoted, 2 ≤ ts.length →
        Recipe.ofText (name ++ " " ++ ",".intercalate (ts.map Quoted.literal)) =
          .ok (ofToken name ⟨.textList (ts.map Quoted.value), ",".intercalate (ts.map Quoted.literal)⟩) := by
  constructor
  · intro t
    exact ofText_texts hname t []
  · intro ts hts
    match ts, hts with
    | t :: u :: ts, _ => exact ofText_texts hname t (u :: ts)

/-- A text with everything in it that could end a literal, a line or a statement. -/
def teasing : String :=
  "it's\n\"a\\n\"; // #\\"

theorem ofText_quoted_teasing :
    nameCut? "x".toList = some ("x".toList, []) ∧
      (Quoted.mk .single teasing).literal = "'it\\'s\n\"a\\\\n\"; // #\\\\'" ∧
      (Quoted.mk .double teasing).literal = "\"it's\n\\\"a\\\\n\\\"; // #\\\\\"" ∧
      Recipe.ofText ("x" ++ " " ++ (Quoted.mk .single teasing).literal) =
        .ok (ofToken "x" ⟨.text teasing, (Quoted.mk .single teasing).literal⟩) ∧
      2 ≤ [Quoted.mk .double teasing, ⟨.single, ""⟩].length ∧
      Recipe.ofText ("x" ++ " " ++ ",".intercalate ([⟨.double, teasing⟩, ⟨.single, ""⟩].map Quoted.literal)) =
        .ok (ofToken "x" ⟨.textList [teasing, ""],
          ",".intercalate ([⟨.double, teasing⟩, ⟨.single, ""⟩].map Quoted.literal)⟩) := by
  have hname : nameCut? "x".toList = some ("x".toList, []) := by decide +kernel
  obtain ⟨htext, htexts⟩ := ofText_quoted hname
  exact ⟨hname, by decide +kernel, by decide +kernel, htext _, by decide, htexts _ (by decide)⟩

end Recipe

end RowRecipe
