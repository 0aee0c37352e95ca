import RowRecipe.Proofs.Migration.Lines
import RowRecipe.Proofs.Script.Heading
import RowRecipe.Proofs.Script.Versions

/-!
# Migration behind a heading

A pragma in front of the first line that declares names is no version pragma, and migration leaves it as it is. So a
recipe is migrated alike behind it, and a version pragma is put in front of both.
-/

namespace RowRecipe

open Grammar Script Migration Recipe

variable {u v w rest cs : List Char} {ns ms : List (List Char)} {n : List Char}

/-! ## The version -/

namespace Dialect

theorem startsWithin_append : startsWithin rest (u ++ v) = (startsWithin (v ++ rest) u || startsWithin rest v) := by
  induction u with
  | nil => rfl
  | cons c u ih => rw [List.cons_append, startsWithin, startsWithin, ih, List.append_assoc, Bool.or_assoc]

/-- Where no version pragma starts, nothing is replaced. -/
theorem retarget_append (h : startsWithin rest w = false) : retarget (w ++ rest) = w ++ retarget rest := by
  induction w with
  | nil => rfl
  | cons c w ih =>
    rw [startsWithin, Bool.or_eq_false_iff, Option.isSome_eq_false_iff, Option.isNone_iff_eq_none] at h
    rw [List.cons_append, retarget_cons h.1, ih h.2]
    rfl

/-- No version pragma starts in a pragma that declares names. -/
theorem startsWithin_loadPragma (hns : ∀ n ∈ ns, isName n = true) : startsWithin rest (loadPragma ns) = false := by
  have hnames : '#' ∉ ' ' :: (joinedNames ns ++ [';']) := by
    intro hmem
    rcases List.mem_cons.mp hmem with h | h
    · cases h
    rcases List.mem_append.mp h with h | h
    · rcases of_mem_joinedNames hns h with h | h | h
      · cases h
      · cases h
      · exact absurd h (by decide +kernel)
    · exact absurd h (by decide)
  have hwords (more : List Char) :
      startsWithin more ("#pragma".toList ++ ([' '] ++ "load-directives".toList)) = false :=
    startsWithin_load (List.forall_mem_singleton.mpr (by decide))
  have hassoc (a b x : List Char) : a ++ ' ' :: (b ++ x) = a ++ ([' '] ++ b) ++ x := by simp
  have htext : loadPragma ns =
      "#pragma".toList ++ ([' '] ++ "load-directives".toList) ++ ' ' :: (joinedNames ns ++ [';']) := hassoc _ _ _
  rw [htext, startsWithin_append, hwords, Bool.false_or, startsWithin_eq_false hnames]

theorem versionIn?_loadPragma (hns : ∀ n ∈ ns, isName n = true) :
    versionIn? (loadPragma ns ++ ' ' :: cs) = versionIn? cs := by
  rw [versionIn?_append (startsWithin_loadPragma hns)]
  exact versionIn?_append (w := [' ']) rfl

theorem retarget_loadPragma (hns : ∀ n ∈ ns, isName n = true) :
    retarget (loadPragma ns ++ ' ' :: cs) = loadPragma ns ++ ' ' :: retarget cs := by
  rw [retarget_append (startsWithin_loadPragma hns), retarget_cons rfl]

end Dialect

/-! ## The updated first line -/

namespace Migration

variable {known : Option Registry}

/-- The words of a pragma stay as they are. -/
theorem update_pragmaWord (hne : w ≠ []) (hw : ∀ c ∈ w, c = ',' ∨ isLexical c = true)
    (hcs : ∀ c ∈ cs.head?, isBare c = false) : update known .pragma (w ++ cs) = w ++ update known .pragma cs := by
  have hbare : ∀ c ∈ w, isBare c = true := by
    intro c hc
    rcases hw c hc with rfl | h
    · decide
    · exact isBare_of_isLexical h
  have hslash : '/' ∉ w := by
    intro hmem
    rcases hw _ hmem with h | h
    · cases h
    · exact absurd h (by decide +kernel)
  have hsemi : w ≠ [';'] := by
    rintro rfl
    exact absurd (hbare ';' List.mem_cons_self) (by decide)
  rw [update_word hne hbare hslash hcs, Standing.next, if_neg hsemi]
  rfl

theorem update_blank {standing : Standing} : update known standing (' ' :: cs) = ' ' :: update known standing cs :=
  update_gap (u := [' ']) (List.forall_mem_singleton.mpr rfl)

theorem update_joinedNames (hn : isName n = true) (hms : ∀ m ∈ ms, isName m = true) :
    update known .pragma (joinedNames (n :: ms) ++ ';' :: cs) =
      joinedNames (n :: ms) ++ ';' :: update known .name cs := by
  have hlexical {n : List Char} (hn : isName n = true) : ∀ c ∈ n, c = ',' ∨ isLexical c = true :=
    fun c hc => .inr (isLexical_of_isBareWord (isBareWord_of_isName hn) c hc)
  have hne {n : List Char} (hn : isName n = true) : n ≠ [] := by
    rintro rfl
    cases hn
  induction ms generalizing n with
  | nil =>
    rw [joinedNames_singleton, update_pragmaWord (hne hn) (hlexical hn) (by rintro _ ⟨⟩; decide), update_semicolon]
  | cons m ms ih =>
    rw [List.forall_mem_cons] at hms
    have hword : ∀ c ∈ n ++ [','], c = ',' ∨ isLexical c = true := by
      rw [List.forall_mem_append]
      exact ⟨hlexical hn, by simp⟩
    have htext : joinedNames (n :: m :: ms) ++ ';' :: cs =
        (n ++ [',']) ++ ' ' :: (joinedNames (m :: ms) ++ ';' :: cs) := by
      rw [joinedNames_cons_cons]
      simp
    rw [htext, update_pragmaWord (by simp) hword (by rintro _ ⟨⟩; decide), update_blank, ih hms.1 hms.2,
      joinedNames_cons_cons]
    simp

/-- The pragma stays as it is, and what stands behind it is updated as it is updated alone. -/
theorem update_loadPragma (hne : ns ≠ []) (hns : ∀ n ∈ ns, isName n = true) :
    update known .name (loadPragma ns ++ cs) = loadPragma ns ++ update known .name cs := by
  obtain ⟨n, ms, rfl⟩ := List.exists_cons_of_ne_nil hne
  rw [List.forall_mem_cons] at hns
  have hpragma : ∀ c ∈ "#pragma".toList, isBare c = true := List.all_eq_true.mp (by decide)
  have hload : ∀ c ∈ "load-directives".toList, isLexical c = true := List.all_eq_true.mp (by decide +kernel)
  have hblank {ds : List Char} : ∀ c ∈ (' ' :: ds).head?, isBare c = false := by
    rintro _ ⟨⟩
    decide
  have hnext : Standing.next known .name "#pragma".toList = .pragma := rfl
  rw [loadPragma_append, loadPragma_append, update_word (by decide) hpragma (by decide) hblank, hnext, update_blank,
    update_pragmaWord (by decide) (fun c hc => .inr (hload c hc)) hblank, update_blank, update_joinedNames hns.1 hns.2]
  rfl

/-! ## The migrated recipe -/

/-- A migrated text behind the pragma says what it says alone, with the names declared in front of its own. -/
theorem ofText_declaring_loadPragma (hne : ns ≠ []) (hns : ∀ n ∈ ns, isName n = true) {out : Recipe} :
    ofText (declaring (loadPragma ns ++ ' ' :: cs)) = .ok out ↔
      ∃ q, ofText (declaring cs) = .ok q ∧ out = q.declaredBefore (ns.map String.ofList) := by
  have hload := heading_load hne hns
  have hbehind (m : List Char) : Dialect.versionPragma Dialect.target ++ "; " ++ String.ofList m =
      String.ofList ("#pragma version 2.0;".toList ++ ' ' :: m) := by
    apply String.toList_inj.mp
    simp [Dialect.versionPragma, Dialect.target]
  rw [declaring, declaring, Dialect.versionIn?_loadPragma hns]
  split
  next =>
    rw [Dialect.retarget_loadPragma hns, hload.ofText_blank_eq_ok]
    simp only [followedBy_names]
  next =>
    simp only [hbehind, heading_version.ofText_blank_eq_ok, hload.ofText_blank_eq_ok, followedBy_names]
    constructor
    · rintro ⟨_, ⟨q, hq, rfl⟩, rfl⟩
      exact ⟨_, ⟨q, hq, rfl⟩, followedBy_version _ (nodup_of_ofText hq) _⟩
    · rintro ⟨_, ⟨q, hq, rfl⟩, rfl⟩
      exact ⟨_, ⟨q, hq, rfl⟩, (followedBy_version _ (nodup_of_ofText hq) _).symm⟩

end Migration

end RowRecipe
