import Mathlib.Data.List.Induction
import RowRecipe.Proofs.Mapping
import RowRecipe.Proofs.Registry.Reachable

/-!
# Registries stay coherent

A host registers classes, unregisters them and clears the registry, and some of its registrations are refused.
Which classes are registered then, and in which order, is said from the calls alone. Whatever the host does, the
registry stores these classes with their usages, and its categories list the classes that are in them.
-/

namespace RowRecipe

/-- The class defines a usage for its own name. -/
def DirectiveClass.ownsUsage (c : DirectiveClass) : Bool :=
  match c.define with
  | .ok usage => usage.directive == c.name
  | .error _ => false

theorem DirectiveClass.ownsUsage_iff {c : DirectiveClass} :
    c.ownsUsage = true ↔ ∃ usage, c.define = .ok usage ∧ usage.directive = c.name := by
  unfold ownsUsage
  cases c.define <;> simp

namespace Registry

/-! ## Calls -/

/-- A call that may change a registry. -/
inductive Call
  | register (c : DirectiveClass) (replace : Bool)
  | unregister (name : String)
  | clear

/-- What a call leaves of the registry, also where it is refused. -/
def Call.run (r : Registry) : Call → Registry
  | register c replace => (r.register c replace).2
  | unregister name => r.unregister name
  | clear => r.clear

/-- The registry that calls make of the empty one. -/
def after (calls : List Call) : Registry :=
  calls.foldl Call.run .empty

theorem after_concat (calls : List Call) (call : Call) : after (calls ++ [call]) = call.run (after calls) := by
  simp [after]

/-- Calls make reachable registries only. -/
theorem reachable_after (calls : List Call) : (after calls).Reachable := by
  induction calls using List.reverseRecOn with
  | nil => exact .empty
  | append_singleton calls call ih =>
    rw [after_concat]
    cases call with
    | register c replace => exact .register ih c replace
    | unregister name => exact .unregister ih name
    | clear => exact .empty

/-! ## The roster -/

/-- A class may not be registered: it has no name, or its name is taken and it does not replace. -/
def Blocked (classes : List DirectiveClass) (c : DirectiveClass) (replace : Bool) : Prop :=
  c.name = "" ∨ c.name ∈ classes.map (·.name) ∧ replace = false

instance (classes : List DirectiveClass) (c : DirectiveClass) (replace : Bool) : Decidable (Blocked classes c replace) :=
  inferInstanceAs (Decidable (_ ∨ _))

/-- The classes without those of a name. -/
def without (classes : List DirectiveClass) (name : String) : List DirectiveClass :=
  classes.filter (·.name != name)

/-- A registration succeeds: the class may be registered and owns its usage. -/
def Accepts (classes : List DirectiveClass) (c : DirectiveClass) (replace : Bool) : Prop :=
  ¬Blocked classes c replace ∧ c.ownsUsage = true

/-- The registered classes after a call. A class goes to the end if it may be registered and owns its usage. If it
does not, a class of the same name is gone all the same. -/
def Call.enroll (classes : List DirectiveClass) : Call → List DirectiveClass
  | register c replace =>
    if Blocked classes c replace then classes
    else if c.ownsUsage then without classes c.name ++ [c]
    else without classes c.name
  | unregister name => without classes name
  | clear => []

/-- The classes that calls register and do not remove, in the order of their latest registration. -/
def roster (calls : List Call) : List DirectiveClass :=
  calls.foldl Call.enroll []

theorem roster_concat (calls : List Call) (call : Call) : roster (calls ++ [call]) = call.enroll (roster calls) := by
  simp [roster]

variable {r : Registry} {c : DirectiveClass} {usage : UsageDefinition} {name category : String}

/-! ## Classes that are removed or added -/

theorem classes_unregister (r : Registry) (name : String) : (r.unregister name).classes = r.classes.remove name := by
  unfold unregister
  split
  · rfl
  · next h =>
    rw [has, Mapping.has, Mapping.get?_isSome_iff] at h
    refine (List.filter_eq_self.mpr fun entry hentry => ?_).symm
    rw [bne_iff_ne]
    rintro rfl
    exact h (List.mem_map_of_mem hentry)

theorem keys_unregister (r : Registry) (name : String) :
    (r.unregister name).classes.keys = r.classes.keys.filter (· != name) := by
  rw [classes_unregister, Mapping.keys_remove]

theorem not_mem_keys_unregister (r : Registry) (name : String) : name ∉ (r.unregister name).classes.keys := by
  simp [keys_unregister]

theorem has_unregister (r : Registry) (name other : String) :
    (r.unregister name).has other = (r.has other && other != name) := by
  rw [has, Mapping.has, classes_unregister, Mapping.get?_remove, has, Mapping.has]
  by_cases hother : other = name <;> simp [hother]

theorem has_enter (r : Registry) (c : DirectiveClass) (usage : UsageDefinition) (name : String) :
    (r.enter c usage).has name = (r.has name || name == c.name) := by
  unfold has Mapping.has enter
  rw [Mapping.get?_put]
  by_cases hname : name = c.name <;> simp [hname]

/-! ## The index of categories -/

/-- The names that an index has in a category. -/
def namesIn (index : Mapping (List String)) (category : String) : List String :=
  (index.get? category).getD []

theorem namesIn_index (m : Mapping (List String)) (name category other : String) :
    namesIn (index name m category) other =
      if other = category ∧ name ∉ namesIn m other then namesIn m other ++ [name] else namesIn m other := by
  unfold index namesIn
  rw [Mapping.get?_put]
  by_cases hother : other = category
  · subst hother
    by_cases hname : name ∈ (Mapping.get? m other).getD [] <;> simp [hname]
  · simp [hother]

/-- A class is listed at the end of each of its categories, once. -/
theorem namesIn_foldl_index (m : Mapping (List String)) (name : String) (categories : List String)
    (h : name ∉ namesIn m category) : namesIn (categories.foldl (index name) m) category =
      if category ∈ categories then namesIn m category ++ [name] else namesIn m category := by
  -- once the name is there, it stays the only one
  have settled (categories : List String) (m : Mapping (List String)) (h : name ∈ namesIn m category) :
      namesIn (categories.foldl (index name) m) category = namesIn m category := by
    induction categories generalizing m with
    | nil => rfl
    | cons first categories ih =>
      have hfirst : namesIn (index name m first) category = namesIn m category := by
        simp [namesIn_index, h]
      rw [List.foldl_cons, ih _ (hfirst ▸ h), hfirst]
  induction categories generalizing m with
  | nil => rfl
  | cons first categories ih =>
    rw [List.foldl_cons]
    by_cases hfirst : category = first
    · have hindex : namesIn (index name m first) category = namesIn m category ++ [name] := by
        simp [namesIn_index, hfirst, hfirst ▸ h]
      rw [settled _ _ (by simp [hindex]), hindex, if_pos (by simp [hfirst])]
    · have hindex : namesIn (index name m first) category = namesIn m category := by
        simp [namesIn_index, hfirst]
      rw [ih _ (hindex ▸ h), hindex]
      simp [hfirst]

theorem nodup_keys_foldl_index {m : Mapping (List String)} (h : m.keys.Nodup) (name : String)
    (categories : List String) : (categories.foldl (index name) m).keys.Nodup := by
  induction categories generalizing m with
  | nil => exact h
  | cons first categories ih => exact ih (Mapping.nodup_keys_put h first _)

/-! ## The invariant -/

/-- The parts of a registry agree. -/
structure Agrees (r : Registry) : Prop where
  usages : r.usages.keys = r.classes.keys
  classes_nodup : r.classes.keys.Nodup
  categories_nodup : r.categoryNames.keys.Nodup
  listed : ∀ category, namesIn r.categoryNames category =
    (r.classes.filter (·.2.categories.contains category)).map (·.1)

namespace Agrees

theorem empty : Agrees .empty := by
  constructor <;> simp [Registry.empty, Mapping.keys, namesIn]

theorem unregister (h : r.Agrees) (name : String) : (r.unregister name).Agrees := by
  unfold Registry.unregister
  split
  · have hkeys : Mapping.keys (r.categoryNames.map fun c => (c.1, c.2.erase name)) = r.categoryNames.keys := by
      simp [Mapping.keys]
    constructor
    · rw [Mapping.keys_remove, Mapping.keys_remove, h.usages]
    · rw [Mapping.keys_remove]
      exact h.classes_nodup.filter _
    · rw [hkeys]
      exact h.categories_nodup
    · intro category
      have herase : namesIn (r.categoryNames.map fun c => (c.1, c.2.erase name)) category =
          (namesIn r.categoryNames category).erase name := by
        rw [namesIn, namesIn, Mapping.get?_mapValues r.categoryNames (·.erase name)]
        cases Mapping.get? r.categoryNames category <;> rfl
      have hnodup : (namesIn r.categoryNames category).Nodup := by
        rw [h.listed]
        exact h.classes_nodup.sublist (List.filter_sublist.map _)
      rw [herase, hnodup.erase_eq_filter, h.listed, List.filter_map, Mapping.remove, List.filter_filter,
        List.filter_filter]
      simp [Bool.and_comm]
  · exact h

theorem enter (h : r.Agrees) (hc : c.name ∉ r.classes.keys) (usage : UsageDefinition) : (r.enter c usage).Agrees := by
  have hclasses : (r.enter c usage).classes = r.classes ++ [(c.name, c)] := Mapping.put_of_not_mem hc c
  have hkeys : (r.enter c usage).classes.keys = r.classes.keys ++ [c.name] := by
    rw [hclasses, Mapping.keys, List.map_append]
    rfl
  constructor
  · rw [hkeys]
    change (r.usages.put c.name usage).keys = _
    rw [Mapping.keys_put, h.usages, if_neg hc]
  · rw [hkeys]
    exact h.classes_nodup.append (List.nodup_singleton _) (by simpa using hc)
  · exact nodup_keys_foldl_index h.categories_nodup _ _
  · intro category
    have hfresh : c.name ∉ namesIn r.categoryNames category := by
      rw [h.listed]
      intro hmem
      exact hc ((List.filter_sublist.map _).subset hmem)
    change namesIn (c.categories.foldl (index c.name) r.categoryNames) category = _
    rw [namesIn_foldl_index _ _ _ hfresh, h.listed, hclasses, List.filter_append, List.map_append]
    by_cases hcategory : category ∈ c.categories <;> simp [hcategory]

end Agrees

theorem Agrees.run (h : r.Agrees) (call : Call) : (call.run r).Agrees := by
  cases call with
  | register c replace =>
    have hregisters := registers r c replace
    rw [Call.run]
    generalize r.register c replace = answer at hregisters
    cases hregisters with
    | unnamed => exact h
    | known => exact h
    | undefined => exact h.unregister c.name
    | foreign => exact h.unregister c.name
    | accepted => exact (h.unregister c.name).enter (not_mem_keys_unregister r c.name) _
  | unregister name => exact h.unregister name
  | clear => exact .empty

/-- All calls keep the parts of a registry in agreement. -/
theorem agrees_after (calls : List Call) : (after calls).Agrees := by
  induction calls using List.reverseRecOn with
  | nil => exact .empty
  | append_singleton calls call ih =>
    rw [after_concat]
    exact ih.run call

/-! ## What is stored -/

/-- Classes as they are stored, under their names. -/
def filed (classes : List DirectiveClass) : Mapping DirectiveClass :=
  classes.map fun c => (c.name, c)

theorem keys_filed (classes : List DirectiveClass) : (filed classes).keys = classes.map (·.name) := by
  simp [filed, Mapping.keys]

theorem remove_filed (classes : List DirectiveClass) (name : String) :
    (filed classes).remove name = filed (without classes name) := by
  simp [filed, without, Mapping.remove, List.filter_map, Function.comp_def]

variable {classes : List DirectiveClass} {replace : Bool}

theorem unregister_filed (h : r.classes = filed classes) (name : String) :
    (r.unregister name).classes = filed (without classes name) := by
  rw [classes_unregister, h, remove_filed]

theorem enter_filed (h : r.classes = filed classes) (hc : c.name ∉ r.classes.keys) (usage : UsageDefinition) :
    (r.enter c usage).classes = filed (classes ++ [c]) := by
  rw [enter, Mapping.put_of_not_mem hc, h, filed, filed, List.map_append]
  rfl

theorem has_iff_mem (h : r.classes = filed classes) (name : String) :
    r.has name = true ↔ name ∈ classes.map (·.name) := by
  rw [has, Mapping.has, Mapping.get?_isSome_iff, h, keys_filed]

/-- A class with a name that it may take is not blocked. -/
theorem not_blocked (h : r.classes = filed classes) (hname : c.name ≠ "")
    (hfree : r.has c.name = true → replace = true) : ¬Blocked classes c replace := by
  rintro (hunnamed | ⟨htaken, hkept⟩)
  · exact hname hunnamed
  · rw [hfree ((has_iff_mem h c.name).mpr htaken)] at hkept
    cases hkept

/-- What a registration leaves stored, and what it answers. -/
theorem register_filed (h : r.classes = filed classes) (c : DirectiveClass) (replace : Bool) :
    (r.register c replace).2.classes = filed ((Call.register c replace).enroll classes) ∧
      ((r.register c replace).1.isOk = true ↔ Accepts classes c replace) := by
  have hrefused {e : Failure} (hnot : ¬Accepts classes c replace) :
      ((Except.error e : Except Failure Unit).isOk = true ↔ Accepts classes c replace) :=
    ⟨fun hok => Bool.noConfusion hok, fun haccepts => absurd haccepts hnot⟩
  have hregisters := registers r c replace
  rw [Call.enroll]
  generalize r.register c replace = answer at hregisters
  cases hregisters with
  | unnamed hname =>
    have hb : Blocked classes c replace := .inl hname
    rw [if_pos hb]
    exact ⟨h, hrefused fun haccepts => haccepts.1 hb⟩
  | known hold hreplace =>
    have hb : Blocked classes c replace :=
      .inr ⟨(has_iff_mem h c.name).mp (Option.isSome_of_eq_some hold), hreplace⟩
    rw [if_pos hb]
    exact ⟨h, hrefused fun haccepts => haccepts.1 hb⟩
  | undefined hname hfree hdefine =>
    have howns : ¬c.ownsUsage = true := by simp [DirectiveClass.ownsUsage_iff, hdefine]
    rw [if_neg (not_blocked h hname hfree), if_neg howns]
    exact ⟨unregister_filed h c.name, hrefused fun haccepts => howns haccepts.2⟩
  | foreign hname hfree hdefine hforeign =>
    have howns : ¬c.ownsUsage = true := by simp [DirectiveClass.ownsUsage_iff, hdefine, hforeign]
    rw [if_neg (not_blocked h hname hfree), if_neg howns]
    exact ⟨unregister_filed h c.name, hrefused fun haccepts => howns haccepts.2⟩
  | accepted hname hfree hdefine hown =>
    have howns : c.ownsUsage = true := DirectiveClass.ownsUsage_iff.mpr ⟨_, hdefine, hown⟩
    have hb := not_blocked h hname hfree
    rw [if_neg hb, if_pos howns]
    exact ⟨enter_filed (unregister_filed h c.name) (not_mem_keys_unregister r c.name) _, fun _ => ⟨hb, howns⟩,
      fun _ => rfl⟩

/-- What a call leaves stored. -/
theorem run_filed (h : r.classes = filed classes) (call : Call) :
    (call.run r).classes = filed (call.enroll classes) := by
  cases call with
  | register c replace => exact (register_filed h c replace).1
  | unregister name => exact unregister_filed h name
  | clear => rfl

/-- The registry stores the classes of the roster, in their order. -/
theorem classes_after (calls : List Call) : (after calls).classes = filed (roster calls) := by
  induction calls using List.reverseRecOn with
  | nil => rfl
  | append_singleton calls call ih =>
    rw [after_concat, roster_concat]
    exact run_filed ih call

/-! ## What a host sees -/

/-- What a host can rely on if `classes` are the classes that are registered, in the order of their latest
registration. -/
structure Coherent (classes : List DirectiveClass) (r : Registry) : Prop where
  /-- Classes and usages stand under the names of these classes, each once. -/
  keys : r.classes.keys = classes.map (·.name) ∧ r.usages.keys = classes.map (·.name) ∧
    (classes.map (·.name)).Nodup
  /-- A name leads to its class and to the usage that the class defines for this name. -/
  named : ∀ c ∈ classes, r.class? c.name = some c ∧
    ∃ usage, r.usage c.name = .ok usage ∧ c.define = .ok usage ∧ usage.directive = c.name
  /-- Other names lead nowhere. -/
  unnamed : ∀ name, name ∉ classes.map (·.name) →
    r.class? name = none ∧ r.usage name = throw (.unknownDirective name)
  /-- A category has the classes that are in it, in the order of registration. -/
  byCategory : ∀ category, r.byCategory category = classes.filter (·.categories.contains category)
  /-- The categories are those of the classes. -/
  categories : r.categories.Nodup ∧ ∀ category, category ∈ r.categories ↔ ∃ c ∈ classes, category ∈ c.categories
  /-- Whether the next registration succeeds depends on these classes. -/
  answers : ∀ c replace, (r.register c replace).1.isOk = true ↔ Accepts classes c replace

theorem Agrees.byCategory (h : r.Agrees) (category : String) :
    r.byCategory category = (r.classes.map (·.2)).filter (·.categories.contains category) := by
  have hclass : ∀ e ∈ r.classes.filter (·.2.categories.contains category),
      (r.class? ∘ (·.1)) e = some e.2 := by
    intro e he
    exact (Mapping.get?_eq_some_iff h.classes_nodup).mpr (List.mem_filter.mp he).1
  change (namesIn r.categoryNames category).filterMap r.class? = _
  rw [h.listed, List.filterMap_map, List.filterMap_congr hclass, List.filter_map]
  exact congrFun List.filterMap_eq_map _

theorem Agrees.mem_categories (h : r.Agrees) (category : String) :
    category ∈ r.categories ↔ ∃ c ∈ r.classes.map (·.2), category ∈ c.categories := by
  have hlisted : category ∈ r.categories ↔ namesIn r.categoryNames category ≠ [] := by
    rw [categories, List.mem_mergeSort, List.mem_map]
    constructor
    · rintro ⟨⟨_, names⟩, hmem, rfl⟩
      obtain ⟨hmem, hnames⟩ := List.mem_filter.mp hmem
      rw [namesIn, (Mapping.get?_eq_some_iff h.categories_nodup).mpr hmem]
      simpa using hnames
    · intro hne
      cases hget : r.categoryNames.get? category with
      | none => simp [namesIn, hget] at hne
      | some names =>
        refine ⟨(category, names), List.mem_filter.mpr ⟨Mapping.mem_of_get? hget, ?_⟩, rfl⟩
        simpa [namesIn, hget] using hne
  have hsome : (r.classes.filter (·.2.categories.contains category)).map (·.1) ≠ [] ↔
      ∃ e ∈ r.classes, category ∈ e.2.categories := by
    rw [Ne, List.map_eq_nil_iff, List.filter_eq_nil_iff]
    simp
  rw [hlisted, h.listed, hsome]
  constructor
  · rintro ⟨e, he, hcategory⟩
    exact ⟨e.2, List.mem_map_of_mem he, hcategory⟩
  · rintro ⟨c, hc, hcategory⟩
    obtain ⟨e, he, rfl⟩ := List.mem_map.mp hc
    exact ⟨e, he, hcategory⟩

/-- Registries stay coherent, whatever calls are made and refused. -/
theorem coherent_after (calls : List Call) : Coherent (roster calls) (after calls) := by
  have hagrees := agrees_after calls
  have hfiled := classes_after calls
  have hkeys : (after calls).classes.keys = (roster calls).map (·.name) := by rw [hfiled, keys_filed]
  have hclasses : (after calls).classes.map (·.2) = roster calls := by
    rw [hfiled, filed, List.map_map]
    exact List.map_id _
  have husages : (after calls).usages.keys = (roster calls).map (·.name) := hagrees.usages.trans hkeys
  have hclass (c : DirectiveClass) (hc : c ∈ roster calls) : (after calls).class? c.name = some c := by
    apply (Mapping.get?_eq_some_iff hagrees.classes_nodup).mpr
    rw [hfiled]
    exact List.mem_map_of_mem hc
  refine ⟨⟨hkeys, husages, hkeys ▸ hagrees.classes_nodup⟩, ?_, ?_, ?_, ⟨?_, ?_⟩, ?_⟩
  · intro c hc
    refine ⟨hclass c hc, ?_⟩
    rcases (reachable_after calls).keeps c.name with ⟨c', usage, hc', husage, -, hdefine, hown⟩ | ⟨hnone, -⟩
    · rw [hclass c hc] at hc'
      cases hc'
      refine ⟨usage, ?_, hdefine, hown⟩
      rw [Registry.usage, husage]
      rfl
    · rw [hclass c hc] at hnone
      cases hnone
  · intro name hname
    have hnoclass : (after calls).class? name = none := by
      rw [class?, ← Option.not_isSome_iff_eq_none, Mapping.get?_isSome_iff, hkeys]
      exact hname
    have hnousage : (after calls).usages.get? name = none := by
      rw [← Option.not_isSome_iff_eq_none, Mapping.get?_isSome_iff, husages]
      exact hname
    refine ⟨hnoclass, ?_⟩
    rw [Registry.usage, hnousage]
  · intro category
    rw [hagrees.byCategory, hclasses]
  · rw [categories, List.Perm.nodup_iff (List.mergeSort_perm _ _)]
    exact hagrees.categories_nodup.sublist (List.filter_sublist.map _)
  · intro category
    rw [hagrees.mem_categories, hclasses]
  · intro c replace
    exact (register_filed hfiled c replace).2

end Registry

end RowRecipe
