import Mathlib.Logic.Relation
import RowRecipe.Proofs.Macro.Settling

/-!
# References in any order

Expansion replaces all references of a text at once, pass after pass. If no value holds a dollar sign, it makes no
difference to replace them one by one instead, in any order: two references never overlap, so what is replaced in one
place can still be replaced in the other, and every replacement takes a dollar sign away. An expansion therefore has
the one text in which no reference is left.
-/

namespace RowRecipe.Macros

open Relation

variable (m : Macros)

variable {cs ds us name rest : List Char}

/-! ## References -/

/-- A name that holds no reference, nor anything that a reference is written with. -/
def IsInner (name : List Char) : Prop :=
  ∀ c ∈ name, c ≠ '$' ∧ c ≠ '\x7b' ∧ c ≠ '\x7d'

theorem isInner_nil : IsInner [] := nofun

theorem IsInner.dollar_not_mem (h : IsInner name) : '$' ∉ name :=
  fun hmem => (h '$' hmem).1 rfl

theorem nameCut?_eq_some_iff : nameCut? cs = some (name, rest) ↔ cs = name ++ '\x7d' :: rest ∧ IsInner name := by
  fun_induction nameCut? cs generalizing name with
  | case1 => simp
  | case2 cs =>
    constructor
    · intro h
      cases h
      exact ⟨rfl, isInner_nil⟩
    · rintro ⟨h, hinner⟩
      cases name with
      | nil =>
        cases h
        rfl
      | cons d name =>
        cases h
        exact absurd rfl (hinner _ List.mem_cons_self).2.2
  | case3 c cs hclose hopen =>
    simp only [reduceCtorEq, false_iff]
    rintro ⟨h, hinner⟩
    cases name with
    | nil => exact hclose (List.cons.inj h).1
    | cons d name =>
      cases h
      have hd := hinner c List.mem_cons_self
      exact hopen.elim hd.1 hd.2.1
  | case4 c cs hclose hopen ih =>
    rw [not_or] at hopen
    constructor
    · intro h
      obtain ⟨⟨name', rest'⟩, hcut, heq⟩ := Option.map_eq_some_iff.mp h
      cases heq
      obtain ⟨rfl, hinner⟩ := ih.mp hcut
      exact ⟨rfl, List.forall_mem_cons.mpr ⟨⟨hopen.1, hopen.2, hclose⟩, hinner⟩⟩
    · rintro ⟨h, hinner⟩
      cases name with
      | nil => exact absurd (List.cons.inj h).1 hclose
      | cons d name =>
        cases h
        rw [ih.mpr ⟨rfl, (List.forall_mem_cons.mp hinner).2⟩]
        rfl

theorem reference?_eq_some_iff : reference? cs = some (name, rest) ↔ cs = written name ++ rest ∧ IsInner name := by
  have hwritten : written name ++ rest = '$' :: '\x7b' :: (name ++ '\x7d' :: rest) := by simp [written]
  rw [hwritten]
  unfold reference?
  split
  · simp [nameCut?_eq_some_iff]
  · next hcs =>
    simp only [reduceCtorEq, false_iff]
    rintro ⟨h, -⟩
    exact hcs _ h

theorem count_written (h : IsInner name) : (written name).count '$' = 1 := by
  simp [written, List.count_eq_zero.mpr h.dollar_not_mem]

/-- Two references in a text are the same one, or one of them stands in front of the other. -/
theorem written_apart {us us' name name' rest rest' : List Char} (hn : IsInner name) (hn' : IsInner name')
    (h : us ++ (written name ++ rest) = us' ++ (written name' ++ rest')) :
    (us = us' ∧ name = name' ∧ rest = rest') ∨
      (∃ mid, us' = us ++ (written name ++ mid) ∧ rest = mid ++ (written name' ++ rest')) ∨
      ∃ mid, us = us' ++ (written name' ++ mid) ∧ rest' = mid ++ (written name ++ rest) := by
  -- behind the first dollar sign, the second reference starts not before the first one ends
  have behind {vs name name' rest rest' : List Char} (hn : IsInner name) (hn' : IsInner name')
      (h : written name ++ rest = vs ++ (written name' ++ rest')) :
      (vs = [] ∧ name = name' ∧ rest = rest') ∨
        ∃ mid, vs = written name ++ mid ∧ rest = mid ++ (written name' ++ rest') := by
    rcases List.append_eq_append_iff.mp h with ⟨mid, rfl, hrest⟩ | ⟨tail, hwritten, htail⟩
    · exact .inr ⟨mid, rfl, hrest⟩
    · cases vs with
      | nil =>
        have hboth : reference? (written name ++ rest) = some (name', rest') :=
          reference?_eq_some_iff.mpr ⟨h, hn'⟩
        rw [reference?_eq_some_iff.mpr ⟨rfl, hn⟩] at hboth
        cases hboth
        exact .inl ⟨rfl, rfl, rfl⟩
      | cons v vs =>
        cases tail with
        | nil =>
          rw [List.append_nil] at hwritten
          exact .inr ⟨[], by rw [hwritten, List.append_nil], htail.symm⟩
        | cons t tail =>
          obtain rfl : '$' = t := (List.cons.inj htail).1
          have hmem : '$' ∈ '\x7b' :: (name ++ ['\x7d']) := by
            rw [(List.cons.inj hwritten).2]
            exact List.mem_append_right vs List.mem_cons_self
          simp [hn.dollar_not_mem] at hmem
  rcases List.append_eq_append_iff.mp h with ⟨vs, rfl, hvs⟩ | ⟨vs, rfl, hvs⟩
  · rcases behind hn hn' hvs with ⟨rfl, rfl, rfl⟩ | ⟨mid, rfl, rfl⟩
    · exact .inl ⟨(List.append_nil us).symm, rfl, rfl⟩
    · exact .inr (.inl ⟨mid, rfl, rfl⟩)
  · rcases behind hn' hn hvs with ⟨rfl, rfl, rfl⟩ | ⟨mid, rfl, rfl⟩
    · exact .inl ⟨List.append_nil us', rfl, rfl⟩
    · exact .inr (.inr ⟨mid, rfl, rfl⟩)

/-! ## Single replacements -/

/-- Replaces one reference that holds no other. -/
inductive Replaces : List Char → List Char → Prop
  | reference (us : List Char) {name : List Char} (rest : List Char) (h : IsInner name) :
      Replaces (us ++ (written name ++ rest)) (us ++ (m.replacement name ++ rest))

variable {m}

theorem Replaces.append_left (us : List Char) (h : m.Replaces cs ds) : m.Replaces (us ++ cs) (us ++ ds) := by
  obtain ⟨vs, rest, hname⟩ := h
  simpa only [List.append_assoc] using Replaces.reference (m := m) (us ++ vs) rest hname

theorem replaces_append_left (us : List Char) (h : ReflTransGen m.Replaces cs ds) :
    ReflTransGen m.Replaces (us ++ cs) (us ++ ds) := by
  induction h with
  | refl => exact .refl
  | tail _ hlast ih => exact ih.tail (hlast.append_left us)

/-- What is replaced in one place can still be replaced in another. -/
theorem Replaces.diamond {ds' : List Char} (h : m.Replaces cs ds) (h' : m.Replaces cs ds') :
    ds = ds' ∨ ∃ es, m.Replaces ds es ∧ m.Replaces ds' es := by
  -- the reference that stands behind can be replaced before or after the one in front of it
  have swap {us name mid name' rest : List Char} (hn : IsInner name) (hn' : IsInner name') :
      m.Replaces (us ++ (m.replacement name ++ (mid ++ (written name' ++ rest))))
          (us ++ (m.replacement name ++ (mid ++ (m.replacement name' ++ rest)))) ∧
        m.Replaces (us ++ (written name ++ mid) ++ (m.replacement name' ++ rest))
          (us ++ (m.replacement name ++ (mid ++ (m.replacement name' ++ rest)))) := by
    constructor
    · simpa only [List.append_assoc] using Replaces.reference (m := m) (us ++ (m.replacement name ++ mid)) rest hn'
    · simpa only [List.append_assoc] using Replaces.reference (m := m) us (mid ++ (m.replacement name' ++ rest)) hn
  obtain ⟨us, rest, hn⟩ := h
  generalize hcs : us ++ (written _ ++ rest) = cs at h'
  obtain ⟨us', rest', hn'⟩ := h'
  rcases written_apart hn hn' hcs with ⟨rfl, rfl, rfl⟩ | ⟨mid, rfl, rfl⟩ | ⟨mid, rfl, rfl⟩
  · exact .inl rfl
  · exact .inr ⟨_, swap hn hn'⟩
  · exact .inr ⟨_, (swap hn' hn).symm⟩

/-- Replacing references in different orders can always come together again. -/
theorem replaces_join {ds' : List Char} (h : ReflTransGen m.Replaces cs ds) (h' : ReflTransGen m.Replaces cs ds') :
    Join (ReflTransGen m.Replaces) ds ds' := by
  refine church_rosser (fun cs ds ds' h h' => ?_) h h'
  rcases h.diamond h' with rfl | ⟨es, hds, hds'⟩
  · exact ⟨ds, .refl, .refl⟩
  · exact ⟨es, .single hds, .single hds'⟩

/-- Where no reference is left, nothing is replaced. -/
theorem eq_of_replaces (hcs : ∀ us, ¬m.Replaces cs us) (h : ReflTransGen m.Replaces cs ds) : ds = cs := by
  rcases h.cases_head with rfl | ⟨us, hfirst, -⟩
  · rfl
  · exact absurd hfirst (hcs us)

/-- A reference starts with a dollar sign and a brace. -/
theorem infix_of_replaces (h : m.Replaces cs ds) : ['$', '\x7b'] <:+: cs := by
  obtain @⟨us, name, rest, -⟩ := h
  exact ⟨us, name ++ '\x7d' :: rest, by simp [written]⟩

/-! ## Values without dollar signs -/

/-- No value brings a dollar sign into a text. -/
def IsPlain (m : Macros) : Prop := ∀ e ∈ m, '$' ∉ e.2.plain.toList

instance (m : Macros) : Decidable m.IsPlain := inferInstanceAs (Decidable (∀ e ∈ m, _))

theorem IsPlain.dollar_not_mem (hm : m.IsPlain) (name : List Char) : '$' ∉ m.replacement name := by
  unfold replacement
  split
  · exact List.not_mem_nil
  · exact List.not_mem_nil
  · next v hv => exact hm _ (Mapping.mem_of_get? hv)

/-- Every replacement takes a dollar sign away. -/
theorem Replaces.count_lt (hm : m.IsPlain) (h : m.Replaces cs ds) : ds.count '$' < cs.count '$' := by
  obtain ⟨us, rest, hname⟩ := h
  simp only [List.count_append, count_written hname, List.count_eq_zero.mpr (hm.dollar_not_mem _)]
  omega

theorem replaces_ends (hm : m.IsPlain) (f : ℕ → List Char) : ¬∀ n, m.Replaces (f n) (f (n + 1)) := by
  intro h
  have hcount (n : ℕ) : (f n).count '$' + n ≤ (f 0).count '$' := by
    induction n with
    | zero => exact Nat.le_refl _
    | succ n ih =>
      have := (h n).count_lt hm
      omega
  have := hcount ((f 0).count '$' + 1)
  omega

/-! ## Passes -/

/-- A pass replaces references one by one. -/
theorem replaces_pass (m : Macros) (cs : List Char) : ReflTransGen m.Replaces cs (m.pass cs) := by
  fun_induction pass m cs with
  | case1 cs name rest h ih =>
    obtain ⟨rfl, hname⟩ := reference?_eq_some_iff.mp h
    exact .head (.reference [] rest hname) (replaces_append_left (m.replacement name) ih)
  | case2 => exact .refl
  | case3 c cs _ ih => exact replaces_append_left [c] ih

theorem replaces_iterate (m : Macros) (n : ℕ) (cs : List Char) : ReflTransGen m.Replaces cs (m.pass^[n] cs) := by
  induction n with
  | zero => exact .refl
  | succ n ih =>
    rw [Function.iterate_succ_apply']
    exact ih.trans (m.replaces_pass _)

theorem count_le_of_replaces (hm : m.IsPlain) (h : ReflTransGen m.Replaces cs ds) : ds.count '$' ≤ cs.count '$' := by
  induction h with
  | refl => exact Nat.le_refl _
  | tail _ hlast ih => exact Nat.le_trans (Nat.le_of_lt (hlast.count_lt hm)) ih

/-- A pass replaces a reference, if there is one. -/
theorem count_pass_lt (hm : m.IsPlain) (h : m.Replaces cs ds) : (m.pass cs).count '$' < cs.count '$' := by
  fun_induction pass m cs generalizing ds with
  | case1 cs name rest hreference ih =>
    obtain ⟨rfl, hname⟩ := reference?_eq_some_iff.mp hreference
    have hrest := count_le_of_replaces hm (m.replaces_pass rest)
    simp only [List.count_append, count_written hname, List.count_eq_zero.mpr (hm.dollar_not_mem name)]
    omega
  | case2 =>
    generalize hcs : [] = cs at h
    obtain ⟨us, rest, -⟩ := h
    simp [written] at hcs
  | case3 c cs hreference ih =>
    generalize hcs : c :: cs = cs' at h
    obtain ⟨us, rest, hname⟩ := h
    cases us with
    | nil =>
      rw [hcs, reference?_eq_some_iff.mpr ⟨List.nil_append _, hname⟩] at hreference
      cases hreference
    | cons u us =>
      rw [List.cons_append] at hcs ⊢
      obtain ⟨rfl, rfl⟩ := List.cons.inj hcs
      have hrest := ih (.reference us rest hname)
      rw [List.count_cons, List.count_cons]
      omega

theorem settled_iff (hm : m.IsPlain) : m.Settled cs ↔ ∀ ds, ¬m.Replaces cs ds := by
  constructor
  · intro hsettled ds h
    have := count_pass_lt hm h
    rw [hsettled] at this
    exact Nat.lt_irrefl _ this
  · exact fun hcs => eq_of_replaces hcs (m.replaces_pass cs)

/-- Some pass over a text changes nothing. -/
theorem exists_settled_of_isPlain (hm : m.IsPlain) (cs : List Char) : ∃ n, m.Settled (m.pass^[n] cs) := by
  induction hn : cs.count '$' using Nat.strongRecOn generalizing cs with
  | ind n ih =>
    subst hn
    by_cases h : ∃ ds, m.Replaces cs ds
    · obtain ⟨ds, hds⟩ := h
      obtain ⟨n, hsettled⟩ := ih _ (count_pass_lt hm hds) (m.pass cs) rfl
      exact ⟨n + 1, hsettled⟩
    · exact ⟨0, (settled_iff hm).mpr (not_exists.mp h)⟩

/-! ## Expansion -/

/-- The text that replacing references one by one comes to, in whichever order. -/
structure IsNormalForm (m : Macros) (cs ds : List Char) : Prop where
  reached : ReflTransGen m.Replaces cs ds
  /-- No reference is left. -/
  settled : ∀ us name rest, IsInner name → ds ≠ us ++ (written name ++ rest)
  /-- Whatever has been replaced, going on leads here. -/
  confluent : ∀ es, ReflTransGen m.Replaces cs es → ReflTransGen m.Replaces es ds
  unique : ∀ es, ReflTransGen m.Replaces cs es → (∀ us, ¬m.Replaces es us) → es = ds
  /-- Replacing one reference after the other comes to an end. -/
  ends : ∀ f : ℕ → List Char, f 0 = cs → ¬∀ n, m.Replaces (f n) (f (n + 1))

theorem isNormalForm_of_settled (hm : m.IsPlain) (hreached : ReflTransGen m.Replaces cs ds)
    (hsettled : ∀ us, ¬m.Replaces ds us) : m.IsNormalForm cs ds := by
  have hconfluent : ∀ es, ReflTransGen m.Replaces cs es → ReflTransGen m.Replaces es ds := by
    intro es hes
    obtain ⟨fs, hds, hes⟩ := replaces_join hreached hes
    rwa [eq_of_replaces hsettled hds] at hes
  refine ⟨hreached, ?_, hconfluent, ?_, fun f _ => replaces_ends hm f⟩
  · rintro us name rest hname rfl
    exact hsettled _ (.reference us rest hname)
  · intro es hes hend
    exact (eq_of_replaces hend (hconfluent es hes)).symm

/-- If no value holds a dollar sign, every text has an expansion: the one text that replacing references one by one
comes to, in whichever order. A text without the start of a reference is its own expansion. -/
theorem expand_isNormalForm (hm : m.IsPlain) (text : String) :
    ∃ s, m.expand text = .ok s ∧ m.IsNormalForm text.toList s.toList ∧
      (¬['$', '\x7b'] <:+: text.toList → s = text) := by
  obtain ⟨n, hsettled⟩ := exists_settled_of_isPlain hm text.toList
  have hs : (String.ofList (m.pass^[n] text.toList)).toList = m.pass^[n] text.toList := String.toList_ofList
  refine ⟨String.ofList (m.pass^[n] text.toList), ?_, ?_, ?_⟩
  · rw [expand_eq_ok_iff, hs]
    exact ⟨⟨n, rfl⟩, hsettled⟩
  · rw [hs]
    exact isNormalForm_of_settled hm (m.replaces_iterate n _) ((settled_iff hm).mp hsettled)
  · intro hplain
    have hnone : ∀ us, ¬m.Replaces text.toList us := fun us h => hplain (infix_of_replaces h)
    rw [eq_of_replaces hnone (m.replaces_iterate n _), String.ofList_toList]

/-- Macros of which one has a value that is empty, and another one a value with a brace. -/
def joining : Macros := [("none", .text ""), ("open", .text "\x7bname"), ("name", .int 7), ("7", .null)]

/-- References that only appear when other ones are replaced. -/
def joiningText : String :=
  "a $$\x7bnone\x7d\x7bname\x7d $\x7b$\x7b name \x7d\x7d $$\x7bopen\x7d\x7d $\x7bother\x7d \x7d$"

theorem expand_isNormalForm_joining : joining.IsPlain ∧
    ∃ s, joining.expand joiningText = .ok s ∧ joining.IsNormalForm joiningText.toList s.toList ∧
      (¬['$', '\x7b'] <:+: joiningText.toList → s = joiningText) := by
  have hplain : joining.IsPlain := by decide +kernel
  exact ⟨hplain, expand_isNormalForm hplain joiningText⟩

example : joining.pass^[2] joiningText.toList = "a 7  7  \x7d$".toList := by
  decide +kernel

end RowRecipe.Macros
