import RowRecipe.Proofs.Grammar.Excerpt
import RowRecipe.Proofs.Script.Promotion

/-!
# Lists of items

Columns, texts and numbers are joined to lists by commas. Items that are read one by one are read in a list as well,
and the list is one argument.
-/

namespace RowRecipe.Script

open Grammar

variable {kind : Terminal} {w more : List Char} {ws : List (List Char)} {ps : List Piece}

/-- The pieces of items behind a first one, each behind its comma. -/
def moreItems (kind : Terminal) (ws : List (List Char)) : List Piece :=
  ws.flatMap fun w => [⟨some .comma, [',']⟩, ⟨some kind, w⟩]

/-- The pieces of items that commas join. -/
def itemPieces (kind : Terminal) : List (List Char) → List Piece
  | [] => []
  | w :: ws => ⟨some kind, w⟩ :: moreItems kind ws

theorem textOf_moreItems_cons (kind : Terminal) (w : List Char) (ws : List (List Char)) :
    Piece.textOf (moreItems kind (w :: ws)) = ',' :: (w ++ Piece.textOf (moreItems kind ws)) :=
  rfl

theorem textOf_itemPieces (kind : Terminal) (w : List Char) (ws : List (List Char)) :
    Piece.textOf (itemPieces kind (w :: ws)) = [','].intercalate (w :: ws) := by
  rw [itemPieces, Piece.textOf_cons]
  induction ws generalizing w with
  | nil =>
    rw [List.intercalate_singleton]
    exact List.append_nil _
  | cons v ws ih =>
    rw [textOf_moreItems_cons, ih v, List.intercalate_cons_cons, List.append_assoc]
    rfl

theorem terminal?_of_mem_itemPieces {p : Piece} (h : p ∈ itemPieces kind ws) :
    p.terminal? = some kind ∨ p.terminal? = some .comma := by
  cases ws with
  | nil => cases h
  | cons w ws =>
    simp only [itemPieces, moreItems, List.mem_cons, List.mem_flatMap, List.not_mem_nil, or_false] at h
    rcases h with rfl | ⟨v, -, rfl | rfl⟩
    · exact .inl rfl
    · exact .inr rfl
    · exact .inl rfl

/-! ## Reading items -/

/-- The text is read as the terminal wherever the grammar offers it, in front of a delimiter. -/
def ReadAs (kind : Terminal) (w : List Char) : Prop :=
  ∀ {s s' : State} {more : List Char}, s.next? kind = some s' → Delimits more →
    s.step? (w ++ more) = some (⟨some kind, w⟩, s', more)

theorem scanned_moreItems (hws : ∀ w ∈ ws, ReadAs kind w) (hd : Delimits more)
    (h : Scanned (.arguments (some kind)) more ps) :
    Delimits (Piece.textOf (moreItems kind ws) ++ more) ∧
      Scanned (.arguments (some kind)) (Piece.textOf (moreItems kind ws) ++ more) (moreItems kind ws ++ ps) := by
  induction ws with
  | nil => exact ⟨hd, h⟩
  | cons w ws ih =>
    rw [List.forall_mem_cons] at hws
    obtain ⟨hbehind, hrest⟩ := ih hws.2
    have hcut : Terminal.comma.cut? [','] = some ([','], []) := rfl
    have hitem : (State.item kind).next? kind = some (.arguments (some kind)) := if_pos rfl
    rw [textOf_moreItems_cons, List.cons_append, List.append_assoc]
    constructor
    · rintro _ ⟨⟩
      exact isLexical_mark (by decide)
    · exact .step (State.step?_closed rfl rfl hcut _) (.step (hws.1 hitem hbehind) hrest)

/-- Items that commas join are read one by one. -/
theorem scanned_itemPieces {list : Option Terminal}
    (hkind : (State.arguments list).next? kind = some (.arguments (some kind))) (hws : ∀ v ∈ w :: ws, ReadAs kind v)
    (hd : Delimits more) (h : Scanned (.arguments (some kind)) more ps) :
    Scanned (.arguments list) (Piece.textOf (itemPieces kind (w :: ws)) ++ more) (itemPieces kind (w :: ws) ++ ps) := by
  rw [List.forall_mem_cons] at hws
  obtain ⟨hbehind, hrest⟩ := scanned_moreItems hws.2 hd h
  rw [itemPieces, Piece.textOf_cons, List.append_assoc]
  exact .step (hws.1 hkind hbehind) hrest

/-! ## The argument of items -/

/-- Commas join the items behind the first one to it. -/
theorem joined_moreItems {ls : List Lexeme} (hls : ∀ l ∈ ls.head?, l.terminal ≠ .comma) (kind : Terminal)
    (ws : List (List Char)) (place : Place) : ∃ items, joined (locate place (moreItems kind ws) ++ ls) = (items, ls) ∧
      items.map (·.text) = ws.map String.ofList := by
  induction ws generalizing place with
  | nil => exact ⟨[], joined_of_head hls, rfl⟩
  | cons w ws ih =>
    obtain ⟨items, hjoined, hitems⟩ := ih ((place.after [',']).after w)
    have hlocate : locate place (moreItems kind (w :: ws)) ++ ls =
        ⟨.comma, String.ofList [','], place⟩ :: ⟨kind, String.ofList w, place.after [',']⟩ ::
          (locate ((place.after [',']).after w) (moreItems kind ws) ++ ls) := rfl
    rw [hlocate, joined_comma rfl, hjoined]
    exact ⟨_, rfl, by rw [List.map_cons, hitems, List.map_cons]⟩

/-- Items that commas join are one argument. -/
theorem argumentsOf_itemPieces (kind : Terminal) (hk : kind.isListed = true) (ls : List Lexeme)
    (hls : ∀ l ∈ ls.head?, l.terminal ≠ .comma) (w : List Char) (ws : List (List Char)) (place : Place) :
    ∃ first items, argumentsOf (locate place (itemPieces kind (w :: ws)) ++ ls) =
        .starting first items :: argumentsOf ls ∧ first.terminal = kind ∧
      (first :: items).map (·.text) = (w :: ws).map String.ofList := by
  obtain ⟨items, hjoined, hitems⟩ := joined_moreItems hls kind ws (place.after w)
  have hlocate : locate place (itemPieces kind (w :: ws)) ++ ls =
      ⟨kind, String.ofList w, place⟩ :: (locate (place.after w) (moreItems kind ws) ++ ls) := rfl
  refine ⟨⟨kind, String.ofList w, place⟩, items, ?_, rfl, ?_⟩
  · rw [hlocate, argumentsOf_listed hk, hjoined]
  · rw [List.map_cons, hitems, List.map_cons]

/-- What can be told from the texts of items can be told from what they were written for. -/
theorem map_of_map_text {α β : Type} {ls : List Lexeme} {xs : List α} {text : α → String} {value : Lexeme → β}
    {meaning : α → β} (hvalue : ∀ l x, l.text = text x → value l = meaning x) (h : ls.map (·.text) = xs.map text) :
    ls.map value = xs.map meaning := by
  have hpairs : List.Forall₂ (fun l x => l.text = text x) ls xs := by
    rwa [← List.forall₂_eq_eq_eq, List.forall₂_map_left_iff, List.forall₂_map_right_iff] at h
  have hvalues : List.Forall₂ (fun l x => value l = meaning x) ls xs := hpairs.imp hvalue
  rwa [← List.forall₂_eq_eq_eq, List.forall₂_map_left_iff, List.forall₂_map_right_iff]

end RowRecipe.Script
