import RowRecipe.Proofs.Registry.Coherence

/-!
# Refused registrations

A registration that is refused leaves the registry as it is, unless it was to replace a class: the old class is removed
before the new one is looked at, so it is lost if the new one is refused. The other classes stay as they are.
-/

namespace RowRecipe

namespace Registry

variable {r : Registry} {c : DirectiveClass} {replace : Bool} {e : Failure} {name : String}

/-! ## What a refusal leaves -/

theorem unregister_of_not_has (h : r.has name = false) : r.unregister name = r := by
  rw [unregister, h]
  rfl

/-- No class has the empty name. -/
theorem not_has_empty_after (calls : List Call) : (after calls).has "" = false := by
  induction calls using List.reverseRecOn with
  | nil => rfl
  | append_singleton calls call ih =>
    rw [after_concat]
    cases call with
    | register c replace =>
      have h := registers (after calls) c replace
      rw [Call.run]
      generalize (after calls).register c replace = answer at h
      cases h with
      | unnamed => exact ih
      | known => exact ih
      | undefined => rw [has_unregister, ih, Bool.false_and]
      | foreign => rw [has_unregister, ih, Bool.false_and]
      | accepted hname =>
        rw [has_enter, has_unregister, ih, beq_false_of_ne (Ne.symm hname)]
        rfl
    | unregister name => rw [Call.run, has_unregister, ih, Bool.false_and]
    | clear => rfl

/-- A refused registration leaves a class out that it was to replace, and it changes nothing else. -/
theorem register_refused (hempty : r.has "" = false) (h : (r.register c replace).1 = .error e) :
    (r.register c replace).2 = if replace = true ∧ r.has c.name = true then r.unregister c.name else r := by
  have hleft (hfree : r.has c.name = true → replace = true) :
      r.unregister c.name = if replace = true ∧ r.has c.name = true then r.unregister c.name else r := by
    split
    next => rfl
    next hkept =>
      apply unregister_of_not_has
      rw [← Bool.not_eq_true]
      exact fun hhas => hkept ⟨hfree hhas, hhas⟩
  have hregisters := registers r c replace
  generalize r.register c replace = answer at h hregisters
  cases hregisters with
  | unnamed hname => rw [hname, hempty, if_neg (by simp)]
  | known hold hreplace => rw [hreplace, if_neg (by simp)]
  | undefined _ hfree => exact hleft hfree
  | foreign _ hfree => exact hleft hfree
  | accepted => cases h

/-! ## A class that is left out -/

/-- What a host sees of the second registry is what it sees of the first one, without the class of a name. -/
structure LeavesOut (name : String) (r r' : Registry) : Prop where
  names : r'.names = r.names.filter (· != name)
  class? : ∀ other, r'.class? other = if other = name then none else r.class? other
  usage : ∀ other, r'.usage other = if other = name then throw (.unknownDirective name) else r.usage other
  byCategory : ∀ category, r'.byCategory category = (r.byCategory category).filter (·.name != name)

theorem mergeSort_filter (names : List String) (p : String → Bool) :
    (names.filter p).mergeSort = names.mergeSort.filter p := by
  have htrans (a b c : String) (hab : decide (a ≤ b) = true) (hbc : decide (b ≤ c) = true) : decide (a ≤ c) = true :=
    decide_eq_true (String.le_trans (of_decide_eq_true hab) (of_decide_eq_true hbc))
  have htotal (a b : String) : (decide (a ≤ b) || decide (b ≤ a)) = true := by simp [String.le_total]
  have hantisymm (a b : String) (hab : decide (a ≤ b) = true) (hba : decide (b ≤ a) = true) : a = b :=
    String.le_antisymm (of_decide_eq_true hab) (of_decide_eq_true hba)
  have hsorted (names : List String) : names.mergeSort.Pairwise fun a b => decide (a ≤ b) = true :=
    List.pairwise_mergeSort htrans htotal names
  refine List.Perm.eq_of_pairwise (fun a b _ _ => hantisymm a b) (hsorted _) ((hsorted names).filter p) ?_
  exact (List.mergeSort_perm _ _).trans ((List.mergeSort_perm names _).filter p).symm

/-- A registered class stands under its own name. -/
theorem Reachable.name_of_mem (h : r.Reachable) (hnodup : r.classes.keys.Nodup) {entry : String × DirectiveClass}
    (hentry : entry ∈ r.classes) : entry.2.name = entry.1 := by
  have hclass : r.class? entry.1 = some entry.2 := (Mapping.get?_eq_some_iff hnodup).mpr hentry
  rcases h.keeps entry.1 with ⟨c, _, hc, -, hname, -⟩ | ⟨hnone, -⟩
  · rw [hclass] at hc
    cases hc
    exact hname
  · rw [hclass] at hnone
    cases hnone

theorem leavesOut_unregister (hreachable : r.Reachable) (hagrees : r.Agrees) (hhas : r.has name = true) :
    LeavesOut name r (r.unregister name) := by
  have hclasses := classes_unregister r name
  have husages : (r.unregister name).usages = r.usages.remove name := by rw [unregister, if_pos hhas]
  constructor
  · rw [names, keys_unregister, mergeSort_filter]
    rfl
  · intro other
    rw [Registry.class?, hclasses, Mapping.get?_remove]
    rfl
  · intro other
    rw [Registry.usage, husages, Mapping.get?_remove]
    by_cases hother : other = name
    · rw [if_pos hother, if_pos hother, hother]
    · rw [if_neg hother, if_neg hother]
      rfl
  · intro category
    have hother : r.classes.filter (fun entry => entry.1 != name) =
        r.classes.filter fun entry => entry.2.name != name := by
      apply List.filter_congr
      intro entry hentry
      rw [hreachable.name_of_mem hagrees.classes_nodup hentry]
    rw [(hagrees.unregister name).byCategory, hagrees.byCategory, hclasses, Mapping.remove, hother, List.filter_filter,
      List.filter_map, List.filter_map, List.filter_filter]
    congr 1
    apply List.filter_congr
    intro entry _
    exact Bool.and_comm _ _

/-- A refused registration changes nothing if and only if it was not to replace a class. If it was, the old class is
left out, and nothing else changes. -/
theorem unchanged_iff_of_refused (calls : List Call) (c : DirectiveClass) (replace : Bool) (e : Failure)
    (h : ((after calls).register c replace).1 = .error e) :
    (((after calls).register c replace).2 = after calls ↔ ¬(replace = true ∧ (after calls).has c.name = true)) ∧
      (replace = true → (after calls).has c.name = true →
        LeavesOut c.name (after calls) ((after calls).register c replace).2) := by
  have hleft := register_refused (not_has_empty_after calls) h
  constructor
  · constructor
    · rintro hsame ⟨hreplace, hhas⟩
      rw [if_pos ⟨hreplace, hhas⟩, hsame] at hleft
      have hgone := has_unregister (after calls) c.name c.name
      rw [← hleft, hhas] at hgone
      simp at hgone
    · intro hkept
      rw [hleft, if_neg hkept]
  · intro hreplace hhas
    rw [hleft, if_pos ⟨hreplace, hhas⟩]
    exact leavesOut_unregister (reachable_after calls) (agrees_after calls) hhas

/-- A class for renaming with the usage of another directive. -/
def misnamed : DirectiveClass :=
  { Rename.directiveClass with label := "BadUsage", define := .ok (.empty "other") }

/-- The refusal of that class. -/
def misnaming : Failure :=
  .recipe (.compile (.foreignUsage "BadUsage" "other" "rename"))

def builtinCalls : List Call :=
  builtinClasses.map (.register · false)

theorem unchanged_iff_of_refused_misnamed :
    ((after builtinCalls).register misnamed false).1 =
        .error (.recipe (.compile (.alreadyRegistered "rename" "Rename"))) ∧
      ((after builtinCalls).register misnamed false).2 = after builtinCalls ∧
      ((after builtinCalls).register misnamed true).1 = .error misnaming ∧
      LeavesOut "rename" (after builtinCalls) ((after builtinCalls).register misnamed true).2 := by
  have hhas : (after builtinCalls).has "rename" = true := by decide +kernel
  have hknown : ((after builtinCalls).register misnamed false).1 =
      .error (.recipe (.compile (.alreadyRegistered "rename" "Rename"))) := by
    rfl
  have hforeign : ((after builtinCalls).register misnamed true).1 = .error misnaming := by
    rfl
  exact ⟨hknown, (unchanged_iff_of_refused builtinCalls misnamed false _ hknown).1.mpr (by simp), hforeign,
    (unchanged_iff_of_refused builtinCalls misnamed true _ hforeign).2 rfl hhas⟩

/-- The class is refused in place of the built-in one, which is lost: its name leads nowhere, and its category does not
list it. -/
theorem rename_lost :
    (Registry.builtin.register misnamed true).1 = .error misnaming ∧
      Registry.builtin.classes.keys =
        ["aggregate-stats", "rename", "drop", "keep", "parse-as-size", "parse-as-duration"] ∧
      (Registry.builtin.register misnamed true).2.classes.keys =
        ["aggregate-stats", "drop", "keep", "parse-as-size", "parse-as-duration"] ∧
      (Registry.builtin.byCategory "columns").map (·.name) = ["rename", "drop", "keep"] ∧
      ((Registry.builtin.register misnamed true).2.byCategory "columns").map (·.name) = ["drop", "keep"] := by
  refine ⟨rfl, ?_⟩
  decide +kernel

end Registry

end RowRecipe
