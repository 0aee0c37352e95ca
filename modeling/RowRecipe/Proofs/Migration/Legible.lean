import RowRecipe.Proofs.Grammar.States
import RowRecipe.Proofs.Migration.Update

/-!
# Legible recipes

The grammar reads a whole text, migration reads the pieces of single lines. The two agree about a recipe
if no terminal goes over the end of a line and no piece of properties holds a closing brace.
-/

namespace RowRecipe.Grammar

/-- The pieces of a text, each with the state in which it is read. -/
def readings (s : State) : List Piece → List (State × Piece)
  | [] => []
  | p :: ps => (s, p) :: readings (s.after p) ps

/-- A piece in its state keeps within its line, and within properties it holds no closing brace. -/
structure Legible (x : State × Piece) : Prop where
  line : x.2.terminal? ≠ some .separator → '\n' ∉ x.2.text
  braces : x.1.inProperties = true → x.2.terminal? ≠ some .closing → '\x7d' ∉ x.2.text

/-- The properties of a legible text are closed on their line. -/
theorem Scanned.closed {s : State} {cs : List Char} {ps : List Piece} (h : Scanned s cs ps)
    (hs : s.inProperties = true) (hl : ∀ x ∈ readings s ps, Legible x) :
    ∃ v rest, cs = v ++ '\x7d' :: rest ∧ '\x7d' ∉ v ∧ '\n' ∉ v := by
  induction h with
  | @done s hf => cases s <;> first | cases hs; done | cases hf
  | @step s s' cs rest p ps hstep hps ih =>
    obtain ⟨hne, hcs⟩ := s.step?_of hstep
    have hafter := State.after_of_step? hstep
    rw [readings, hafter, List.forall_mem_cons] at hl
    have keep (hs' : s'.inProperties = true) (hsep : p.terminal? ≠ some .separator)
        (hclose : p.terminal? ≠ some .closing) : ∃ v rest, cs = v ++ '\x7d' :: rest ∧ '\x7d' ∉ v ∧ '\n' ∉ v := by
      obtain ⟨v, rest', rfl, hv, hn⟩ := ih hs' hl.2
      refine ⟨p.text ++ v, rest', by rw [← hcs, List.append_assoc], ?_, ?_⟩
      · exact List.not_mem_append (hl.1.braces hs hclose) hv
      · exact List.not_mem_append (hl.1.line hsep) hn
    rcases State.step?_cases hstep with ⟨t, ht, hnext, hcut⟩ | ⟨ht, rfl, _⟩
    · obtain ⟨hsep, hin, _⟩ := State.next?_inProperties hs hnext
      by_cases hc : t = .closing
      · subst hc
        refine ⟨[], rest, ?_, by simp, by simp⟩
        cases cs with
        | nil => cases hcut
        | cons c cs =>
          have hc : c = '\x7d' := beq_iff_eq.mp (Terminal.starts_of_cut? hcut)
          subst hc
          have hword : wordCut? ['\x7d'] ('\x7d' :: cs) = some (p.text, rest) := hcut
          simp only [wordCut?] at hword
          split at hword
          next =>
            rw [← hcs, ← congrArg Prod.fst (Option.some.inj hword)]
            rfl
          next => cases hword
      · refine keep (hin hc) ?_ ?_
        · rw [ht]
          exact fun he => hsep (Option.some.inj he)
        · rw [ht]
          exact fun he => hc (Option.some.inj he)
    · refine keep hs ?_ ?_ <;> rw [ht] <;> simp

end RowRecipe.Grammar

namespace RowRecipe.Migration

open Grammar

/-! ## What migration changes -/

variable {accepts : List TokenType} {w : List Char}

/-- A list of bare words starts with a bare word and a comma. -/
theorem of_columnList? {columns : List Char} (h : columnList? w = some columns) :
    ∃ first tail, w = first ++ ',' :: tail ∧ isBareWord first = true := by
  have hsplit : [','].intercalate (w.splitOn ',') = w := List.intercalate_splitOn ','
  simp only [columnList?] at h
  split at h
  next hwords =>
    simp only [Bool.and_eq_true, decide_eq_true_eq, List.all_eq_true] at hwords
    cases hws : w.splitOn ',' with
    | nil =>
      rw [hws] at hwords
      cases hwords.1
    | cons first more =>
      cases more with
      | nil =>
        rw [hws] at hwords
        exact absurd hwords.1 (by simp)
      | cons second more =>
        rw [hws] at hsplit hwords
        refine ⟨first, [','].intercalate (second :: more), ?_, hwords.2 first List.mem_cons_self⟩
        rw [← hsplit]
        simp [List.intercalate]
  next => cases h

/-- Migration leaves an argument as it is, or it makes columns of bare words, or it quotes a mark. -/
theorem currentForm_cases (accepts : List TokenType) (w : List Char) :
    currentForm accepts w = w ∨
    (isBareWord w = true ∧ isTruth w = false ∧ currentForm accepts w = asColumn w ∧
      (.columnName ∈ accepts ∨ .columnNameList ∈ accepts)) ∨
    (∃ first tail, w = first ++ ',' :: tail ∧ isBareWord first = true) ∨ isPunctuation w = true := by
  unfold currentForm
  simp only
  split
  next h =>
    simp only [Bool.and_eq_true, Bool.or_eq_true, List.contains_iff_mem, Bool.not_eq_true'] at h
    exact .inr (.inl ⟨h.1.2, h.2, rfl, h.1.1.symm⟩)
  next =>
    split
    next columns hcolumns =>
      split at hcolumns
      next => exact .inr (.inr (.inl (of_columnList? hcolumns)))
      next => cases hcolumns
    next =>
      split
      next h => exact .inr (.inr (.inr h))
      next => exact .inl rfl

/-- What does not start as a name does, and is no mark, stays as it is. -/
theorem currentForm_of_not_isNameStart {c : Char} (hc : isNameStart c = false)
    (hmark : isPunctuation (c :: w) = false) : currentForm accepts (c :: w) = c :: w := by
  have hword (ds : List Char) : isBareWord (c :: ds) = false := by
    simp [isBareWord, hc]
  rcases currentForm_cases accepts (c :: w) with h | ⟨h, _⟩ | ⟨first, tail, hw, h⟩ | h
  · exact h
  · rw [hword] at h
    cases h
  · cases first with
    | nil => cases h
    | cons d first =>
      cases hw
      rw [hword] at h
      cases h
  · rw [hmark] at h
    cases h

/-- A quoted text or a text in braces stays as it is. -/
theorem currentForm_of_head {c : Char} (hc : c = '\'' ∨ c = '"' ∨ c = '\x7b') :
    currentForm accepts (c :: w) = c :: w := by
  apply currentForm_of_not_isNameStart
  · rcases hc with rfl | rfl | rfl <;> decide
  · cases w with
    | nil => rcases hc with rfl | rfl | rfl <;> decide +kernel
    | cons => rfl

/-- So does the word of an opening with its colon. -/
theorem currentForm_prop : currentForm accepts "prop:".toList = "prop:".toList := by
  rcases currentForm_cases accepts "prop:".toList with h | ⟨h, _⟩ | ⟨first, tail, hw, _⟩ | h
  · exact h
  · exact absurd h (by decide +kernel)
  · have hmem : ',' ∈ "prop:".toList := by
      rw [hw]
      simp
    exact absurd hmem (by decide)
  · exact absurd h (by decide)

end RowRecipe.Migration
