import RowRecipe.Proofs.Number.Rounding
import RowRecipe.Number.Decimal.Text

/-!
# Positional texts

The text of a decimal without an exponent shows its digits, padded with zeros, around the point. Read as digits it
gives the coefficient back, and the number of digits behind the point is what the exponent said.
-/

namespace RowRecipe

namespace Text

theorem digitValue?_of_isDigit {c : Char} (h : c.isDigit = true) : digitValue? c = some (c.toNat - 48) := by
  simp only [Char.isDigit, Bool.and_eq_true, decide_eq_true_eq] at h
  have hlow : 48 ≤ c.toNat := UInt32.le_iff_toNat_le.mp h.1
  have hhigh : c.toNat ≤ 57 := UInt32.le_iff_toNat_le.mp h.2
  unfold digitValue? digitZeros
  rw [List.find?_cons_of_pos (by simp [hlow, hhigh])]
  rfl

theorem isDigit_of_isDigit {c : Char} (h : c.isDigit = true) : isDigit c = true := by
  simp [isDigit, digitValue?_of_isDigit h]

theorem digitsValue_eq_ofDigitChars {cs : List Char} (h : ∀ c ∈ cs, c.isDigit = true) :
    digitsValue cs = Nat.ofDigitChars 10 cs 0 := by
  have run : ∀ n, cs.foldl (fun n c => 10 * n + (digitValue? c).getD 0) n = Nat.ofDigitChars 10 cs n := by
    induction cs with
    | nil => intro n; rfl
    | cons c cs ih =>
      rw [List.forall_mem_cons] at h
      intro n
      simp [digitValue?_of_isDigit h.1, ih h.2, Nat.ofDigitChars]
  exact run 0

theorem toList_toString (n : Nat) : (toString n).toList = Nat.toDigits 10 n := by
  rw [Nat.toString_eq_ofList_toDigits, String.toList_ofList]

theorem isDigit_of_mem_toDigits {n : Nat} {c : Char} (h : c ∈ Nat.toDigits 10 n) : c.isDigit = true :=
  Nat.isDigit_of_mem_toDigits (by decide) (by decide) h

theorem digitsValue_toDigits (n : Nat) : digitsValue (Nat.toDigits 10 n) = n := by
  rw [digitsValue_eq_ofDigitChars fun c => isDigit_of_mem_toDigits, Nat.ofDigitChars_ten_toDigits]

/-- Zeros in front do not count. -/
theorem digitsValue_replicate_append (k : Nat) (cs : List Char) :
    digitsValue (List.replicate k '0' ++ cs) = digitsValue cs := by
  induction k with
  | zero => rfl
  | succ k ih =>
    rw [← ih, List.replicate_succ, List.cons_append]
    rfl

theorem toList_pushn (s : String) (c : Char) (n : Nat) : (s.pushn c n).toList = s.toList ++ List.replicate n c := by
  induction n with
  | zero => simp [String.pushn, Nat.repeat]
  | succ n ih =>
    rw [String.pushn_eq_repeat_push] at ih ⊢
    rw [Nat.repeat, String.toList_push, ih, List.replicate_succ', List.append_assoc]

end Text

namespace Decimal

/-- The digits in front of the point and behind it, with zeros where there were none. -/
theorem exists_pointed (n : Nat) {places : Nat} (h : 0 < places) : ∃ whole fraction : List Char,
    (pointed (toString n) places).toList = whole ++ '.' :: fraction ∧ whole ≠ [] ∧ fraction.length = places ∧
      (∀ c ∈ whole ++ fraction, c.isDigit = true) ∧ Text.digitsValue (whole ++ fraction) = n := by
  have hpadded : ("".pushn '0' (places + 1 - (toString n).length) ++ toString n).toList =
      List.replicate (places + 1 - (toString n).length) '0' ++ Nat.toDigits 10 n := by
    rw [String.toList_append, Text.toList_pushn, Text.toList_toString]
    rfl
  have hlength : (toString n).length = (Nat.toDigits 10 n).length := by
    rw [← String.length_toList, Text.toList_toString]
  unfold pointed
  rw [if_neg h.ne']
  dsimp only
  rw [hpadded, hlength]
  generalize hcs : List.replicate (places + 1 - (Nat.toDigits 10 n).length) '0' ++ Nat.toDigits 10 n = cs
  have hlong : places < cs.length := by
    rw [← hcs, List.length_append, List.length_replicate]
    omega
  refine ⟨cs.take (cs.length - places), cs.drop (cs.length - places), ?_, ?_, ?_, ?_, ?_⟩
  · simp
  · exact List.ne_nil_of_length_pos (by rw [List.length_take]; omega)
  · rw [List.length_drop]
    omega
  · rw [List.take_append_drop, ← hcs]
    intro c hc
    rcases List.mem_append.mp hc with hzero | hdigit
    · rw [List.eq_of_mem_replicate hzero]
      rfl
    · exact Text.isDigit_of_mem_toDigits hdigit
  · rw [List.take_append_drop, ← hcs, Text.digitsValue_replicate_append, Text.digitsValue_toDigits]

end Decimal

end RowRecipe
