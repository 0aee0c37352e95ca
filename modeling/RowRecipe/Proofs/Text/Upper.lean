import Mathlib.Data.List.Basic
import Mathlib.Data.Nat.Bitwise
import RowRecipe.Text.Blank
import RowRecipe.Text.Case

/-!
# Upper forms

What stands in an upper form has no other upper form, and case has nothing to do with blanks. So a text in upper case
stays as it is in upper case, and the blanks at its ends may be dropped before or after.
-/

namespace RowRecipe.Text

/-! ## Sets of code points -/

/-- The set of the given numbers, which are the bits of one number. -/
def bitSet (ns : List Nat) : Nat :=
  ns.foldr (fun n set => 2 ^ n ||| set) 0

theorem testBit_bitSet (ns : List Nat) (n : Nat) : (bitSet ns).testBit n = decide (n ∈ ns) := by
  induction ns with
  | nil => simp [bitSet]
  | cons m ns ih =>
    have hcons : bitSet (m :: ns) = 2 ^ m ||| bitSet ns := rfl
    rw [hcons, Nat.testBit_or, Nat.testBit_two_pow, ih]
    by_cases h : m = n
    · simp [h]
    · simp [h, Ne.symm h]

/-- Two sets without a common bit have no common member. -/
theorem not_mem_of_bitSet {ms ns : List Nat} (h : bitSet ms &&& bitSet ns = 0) {n : Nat} (hn : n ∈ ms) : n ∉ ns := by
  intro hmem
  have hbit := congrArg (Nat.testBit · n) h
  simp [testBit_bitSet, hn, hmem] at hbit

/-! ## What the tables change -/

/-- The code points that runs hold, each with the code point of its other case. -/
def CaseRuns.entries (runs : CaseRuns) : List (Nat × Nat) :=
  runs.flatMap fun r =>
    (List.range' r.1 ((r.2.1 - r.1) / r.2.2.1 + 1) r.2.2.1).map fun c => (c, ((c : Int) + r.2.2.2).toNat)

theorem CaseRuns.mem_entries {runs : CaseRuns} {c n : Nat} (h : runs.find? c = some n) : (c, n) ∈ runs.entries := by
  obtain ⟨r, hfind, rfl⟩ := Option.map_eq_some_iff.mp h
  have hr := List.find?_some hfind
  simp only [Bool.and_eq_true, decide_eq_true_eq, beq_iff_eq] at hr
  obtain ⟨⟨hlow, hhigh⟩, hstep⟩ := hr
  have hindex : (c - r.1) / r.2.2.1 < (r.2.1 - r.1) / r.2.2.1 + 1 :=
    Nat.lt_succ_of_le (Nat.div_le_div_right (Nat.sub_le_sub_right hhigh r.1))
  have hdiv := Nat.div_add_mod (c - r.1) r.2.2.1
  have hcode : c = r.1 + r.2.2.1 * ((c - r.1) / r.2.2.1) := by omega
  refine List.mem_flatMap.mpr ⟨r, List.mem_of_find?_eq_some hfind, List.mem_map.mpr ⟨c, ?_, rfl⟩⟩
  exact List.mem_range'.mpr ⟨_, hindex, hcode⟩

/-- The characters with an upper form of their own, each with that form, as code points. -/
def upperEntries : List (Nat × List Nat) :=
  longUpperForms ++ upperRuns.entries.map fun e => (e.1, [e.2])

def upperSources : List Nat :=
  upperEntries.map (·.1)

/-- The code points that stand in upper forms. -/
def upperTargets : List Nat :=
  upperEntries.flatMap fun e => e.2.map fun n => (Char.ofNat n).toNat

def blankCodes : List Nat :=
  blankRanges.flatMap fun r => List.range' r.1 (r.2 - r.1 + 1)

variable {c d : Char}

theorem upperChar_cases (c : Char) :
    upperChar c = [c] ∨ ∃ ns, (c.toNat, ns) ∈ upperEntries ∧ upperChar c = ns.map Char.ofNat := by
  unfold upperChar
  split
  next ns hlong =>
    have hentry : (c.toNat, ns) ∈ longUpperForms := by
      obtain ⟨front, back, hsplit, -⟩ := List.lookup_eq_some_iff.mp hlong
      rw [hsplit]
      exact List.mem_append_right front List.mem_cons_self
    exact .inr ⟨ns, List.mem_append_left _ hentry, rfl⟩
  next =>
    split
    next n hrun =>
      have hentry : (c.toNat, [n]) ∈ upperRuns.entries.map fun e => (e.1, [e.2]) :=
        List.mem_map.mpr ⟨_, CaseRuns.mem_entries hrun, rfl⟩
      exact .inr ⟨[n], List.mem_append_right _ hentry, rfl⟩
    next => exact .inl rfl

theorem upperChar_of_not_mem (h : c.toNat ∉ upperSources) : upperChar c = [c] := by
  rcases upperChar_cases c with hsame | ⟨ns, hentry, -⟩
  · exact hsame
  · exact absurd (List.mem_map_of_mem hentry) h

/-- What stands in the upper form of another character is a target. -/
theorem mem_upperTargets (h : d ∈ upperChar c) : d = c ∧ upperChar c = [c] ∨ d.toNat ∈ upperTargets := by
  rcases upperChar_cases c with hsame | ⟨ns, hentry, hform⟩
  · rw [hsame] at h
    exact .inl ⟨List.mem_singleton.mp h, hsame⟩
  · rw [hform] at h
    obtain ⟨n, hn, rfl⟩ := List.mem_map.mp h
    exact .inr (List.mem_flatMap.mpr ⟨_, hentry, List.mem_map_of_mem hn⟩)

theorem isBlank_iff_mem : isBlank c = true ↔ c.toNat ∈ blankCodes := by
  simp only [isBlank, inRanges, List.any_eq_true, Bool.and_eq_true, decide_eq_true_eq, blankCodes, List.mem_flatMap,
    List.mem_range'_1]
  constructor
  · rintro ⟨r, hr, hlow, hhigh⟩
    exact ⟨r, hr, hlow, by omega⟩
  · rintro ⟨r, hr, hlow, hhigh⟩
    have hordered : ∀ r ∈ blankRanges, r.1 ≤ r.2 := by decide
    have := hordered r hr
    exact ⟨r, hr, hlow, by omega⟩

/-- What stands in an upper form is its own upper form. -/
theorem upperChar_of_mem (h : d ∈ upperChar c) : upperChar d = [d] := by
  have hapart : bitSet upperTargets &&& bitSet upperSources = 0 := by decide +kernel
  rcases mem_upperTargets h with ⟨rfl, hsame⟩ | htarget
  · exact hsame
  · exact upperChar_of_not_mem (not_mem_of_bitSet hapart htarget)

theorem upperChar_of_isBlank (h : isBlank c = true) : upperChar c = [c] := by
  have hapart : bitSet blankCodes &&& bitSet upperSources = 0 := by decide +kernel
  exact upperChar_of_not_mem (not_mem_of_bitSet hapart (isBlank_iff_mem.mp h))

theorem not_isBlank_of_mem_upperChar (hc : isBlank c = false) (h : d ∈ upperChar c) : isBlank d = false := by
  have hapart : bitSet upperTargets &&& bitSet blankCodes = 0 := by decide +kernel
  rcases mem_upperTargets h with ⟨rfl, -⟩ | htarget
  · exact hc
  · rw [← Bool.not_eq_true, isBlank_iff_mem]
    exact not_mem_of_bitSet hapart htarget

theorem upperChar_ne_nil (c : Char) : upperChar c ≠ [] := by
  have hlong : ∀ e ∈ longUpperForms, e.2 ≠ [] := by decide +kernel
  rcases upperChar_cases c with hsame | ⟨ns, hentry, hform⟩
  · simp [hsame]
  · rw [hform, Ne, List.map_eq_nil_iff]
    rcases List.mem_append.mp hentry with hentry | hentry
    · exact hlong _ hentry
    · obtain ⟨e, -, he⟩ := List.mem_map.mp hentry
      rw [← (Prod.mk.inj he).2]
      exact List.cons_ne_nil _ _

/-! ## Texts -/

theorem isEmpty_upper (s : String) : (upper s).isEmpty = s.isEmpty := by
  have hnil (cs : List Char) : cs.flatMap upperChar = [] ↔ cs = [] := by
    cases cs with
    | nil => simp
    | cons c cs => simp [upperChar_ne_nil]
  rw [Bool.eq_iff_iff, String.isEmpty_iff, String.isEmpty_iff, ← String.toList_eq_nil_iff, upper,
    String.toList_ofList, hnil, String.toList_eq_nil_iff]

/-- A text in upper case is in upper case. -/
theorem upper_upper (s : String) : upper (upper s) = upper s := by
  have hchars (cs : List Char) : (cs.flatMap upperChar).flatMap upperChar = cs.flatMap upperChar := by
    have hsame (ds : List Char) (hds : ∀ d ∈ ds, upperChar d = [d]) : ds.flatMap upperChar = ds := by
      rw [List.flatMap_congr hds, List.flatMap_singleton']
    apply hsame
    intro d hd
    obtain ⟨c, -, hc⟩ := List.mem_flatMap.mp hd
    exact upperChar_of_mem hc
  rw [upper, upper, String.toList_ofList, hchars]

/-- Blanks stay as they are, and everything else becomes something without blanks. -/
structure KeepsBlanks (f : Char → List Char) : Prop where
  blank : ∀ c, isBlank c = true → f c = [c]
  ne_nil : ∀ c, f c ≠ []
  other : ∀ c, isBlank c = false → ∀ d ∈ f c, isBlank d = false

namespace KeepsBlanks

variable {f : Char → List Char}

theorem upperChar : KeepsBlanks upperChar where
  blank _ := upperChar_of_isBlank
  ne_nil := upperChar_ne_nil
  other _ hc _ := not_isBlank_of_mem_upperChar hc

theorem reverse (hf : KeepsBlanks f) : KeepsBlanks fun c => (f c).reverse where
  blank c hc := by rw [hf.blank c hc, List.reverse_singleton]
  ne_nil c := by simpa using hf.ne_nil c
  other c hc d hd := hf.other c hc d (List.mem_reverse.mp hd)

theorem trimLeft_flatMap (hf : KeepsBlanks f) (cs : List Char) :
    trimLeft (cs.flatMap f) = (trimLeft cs).flatMap f := by
  unfold trimLeft
  induction cs with
  | nil => rfl
  | cons c cs ih =>
    cases hc : isBlank c with
    | true =>
      rw [List.flatMap_cons, hf.blank c hc, List.singleton_append, List.dropWhile_cons_of_pos hc,
        List.dropWhile_cons_of_pos hc, ih]
    | false =>
      have hkept : (c :: cs).dropWhile isBlank = c :: cs := List.dropWhile_cons_of_neg (by simp [hc])
      obtain ⟨d, ds, hd⟩ := List.exists_cons_of_ne_nil (hf.ne_nil c)
      have hfirst : isBlank d = false := hf.other c hc d (by simp [hd])
      rw [hkept, List.flatMap_cons, hd, List.cons_append, List.dropWhile_cons_of_neg (by simp [hfirst])]

theorem trimRight_flatMap (hf : KeepsBlanks f) (cs : List Char) :
    trimRight (cs.flatMap f) = (trimRight cs).flatMap f := by
  have hleft := hf.reverse.trimLeft_flatMap cs.reverse
  unfold trimLeft at hleft
  unfold trimRight
  rw [List.reverse_flatMap, Function.comp_def, hleft, List.reverse_flatMap]
  simp [Function.comp_def]

end KeepsBlanks

/-- It does not matter whether a text is trimmed before or after it is put into upper case. -/
theorem trimmed_upper (s : String) : trimmed (upper s) = upper (trimmed s) := by
  simp only [trimmed, upper, trim, String.toList_ofList, KeepsBlanks.upperChar.trimLeft_flatMap,
    KeepsBlanks.upperChar.trimRight_flatMap]

end RowRecipe.Text
