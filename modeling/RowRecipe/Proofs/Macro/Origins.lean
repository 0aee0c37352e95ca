import Mathlib.Algebra.BigOperators.Group.List.Basic
import Mathlib.Algebra.Order.BigOperators.Group.List
import Mathlib.Data.List.Perm.Subperm
import Mathlib.Tactic.Linarith
import RowRecipe.Proofs.Macro.Settling

/-!
# Where references come from

Every character of an expansion is traced to the macros whose values it came out of. Passes settle unless
a reference leads back to a macro that it came out of: the origins of the dollar signs are then lists of
different macros, and a weight by the length of these lists falls with every pass that changes something.
Macros that stand for each other have no expansion.
-/

namespace RowRecipe.Macros

/-- A character, and the macros whose values it came out of, the latest first. -/
structure Traced where
  char : Char
  origin : List String
  deriving DecidableEq

variable (m : Macros)

/-- The characters without their origins. -/
def chars (ts : List Traced) : List Char := ts.map (·.char)

/-- Characters of one origin. -/
def traced (origin : List String) (cs : List Char) : List Traced :=
  cs.map fun c => ⟨c, origin⟩

/-- The macro that a reference names. -/
def macroName (name : List Char) : String := Text.trimmed (String.ofList name)

/-- The name in the reference at the start of a text, unless the reference stands for itself. -/
def moving? (cs : List Char) : Option (List Char) :=
  match reference? cs with
  | some (name, _) => if m.replacement name = written name then none else some name
  | none => none

/-- One pass over traced characters. What replaces a reference came out of its macro, and out of all that
the dollar sign of the reference came out of. -/
def tracedPass : List Traced → List Traced
  | [] => []
  | t :: ts =>
    match m.moving? (chars (t :: ts)) with
    | some name =>
      traced (macroName name :: t.origin) (m.replacement name) ++ tracedPass (ts.drop (name.length + 2))
    | none => t :: tracedPass ts
termination_by ts => ts.length
decreasing_by
  · simp only [List.length_drop, List.length_cons]
    omega
  · exact Nat.lt_succ_self _

/-- A reference among traced characters that names a macro it came out of, and does not just stand for
itself. -/
def LeadsBack (ts : List Traced) : Prop :=
  ∃ before t after name, ts = before ++ t :: after ∧ m.moving? (chars (t :: after)) = some name ∧
    macroName name ∈ t.origin

/-- The traced expansion of a text after some passes. -/
def expansion (text : String) (n : Nat) : List Traced :=
  m.tracedPass^[n] (traced [] text.toList)

/-! ## Tracing does not change a pass -/

@[simp] theorem chars_traced (origin : List String) (cs : List Char) : chars (traced origin cs) = cs := by
  simp [chars, traced, Function.comp_def]

@[simp] theorem chars_append (ts us : List Traced) : chars (ts ++ us) = chars ts ++ chars us :=
  List.map_append

theorem moving?_eq_some {cs name : List Char} (h : m.moving? cs = some name) :
    ∃ rest, reference? cs = some (name, rest) ∧ m.replacement name ≠ written name := by
  unfold moving? at h
  split at h
  · next name' rest hr =>
    split at h
    · cases h
    · next hne =>
      cases h
      exact ⟨rest, hr, hne⟩
  · cases h

/-- What stands at the start of a text that begins with no moving reference stays. -/
theorem pass_of_moving?_eq_none {c : Char} {cs : List Char} (h : m.moving? (c :: cs) = none) :
    m.pass (c :: cs) = c :: m.pass cs := by
  unfold moving? at h
  split at h
  · next name rest hr =>
    split at h
    · next heq =>
      obtain ⟨hcs, hname⟩ := reference?_eq hr
      obtain ⟨rfl, rfl⟩ := List.cons.inj hcs
      have hplain : '$' ∉ '\x7b' :: (name ++ ['\x7d']) := by simp [hname]
      rw [m.pass_reference hr, heq]
      exact congrArg ('$' :: ·) (m.pass_append hplain rest).symm
    · cases h
  · next hr => exact m.pass_cons hr

theorem chars_drop_of_moving? {t : Traced} {ts : List Traced} {name rest : List Char}
    (h : reference? (chars (t :: ts)) = some (name, rest)) :
    chars (ts.drop (name.length + 2)) = rest := by
  obtain ⟨hcs, -⟩ := reference?_eq h
  have hts : chars ts = ('\x7b' :: (name ++ ['\x7d'])) ++ rest := (List.cons.inj hcs).2
  rw [chars, List.map_drop, ← chars, hts]
  exact List.drop_left' (by simp)

@[simp] theorem chars_tracedPass (ts : List Traced) : chars (m.tracedPass ts) = m.pass (chars ts) := by
  fun_induction tracedPass m ts with
  | case1 => simp [chars]
  | case2 t ts name h ih =>
    obtain ⟨rest, hr, -⟩ := m.moving?_eq_some h
    rw [chars_append, chars_traced, ih, m.pass_reference hr, chars_drop_of_moving? hr]
  | case3 t ts h ih =>
    change t.char :: chars (m.tracedPass ts) = m.pass (t.char :: chars ts)
    rw [ih]
    exact (m.pass_of_moving?_eq_none h).symm

theorem chars_expansion (text : String) (n : Nat) :
    chars (m.expansion text n) = m.pass^[n] text.toList := by
  induction n with
  | zero => exact chars_traced [] _
  | succ n ih => rw [expansion, Function.iterate_succ_apply', chars_tracedPass, ← expansion, ih,
      Function.iterate_succ_apply']

/-! ## Origins -/

/-- An origin without repetition, made of macros that have a value. -/
def Lineage (origin : List String) : Prop := origin.Nodup ∧ origin ⊆ Mapping.keys m

theorem Lineage.length_le {origin : List String} (h : m.Lineage origin) : origin.length ≤ m.length := by
  have := (List.subperm_of_subset h.1 h.2).length_le
  rwa [Mapping.keys, List.length_map] at this

theorem macroName_mem_keys {name : List Char} (h : m.replacement name ≠ []) :
    macroName name ∈ Mapping.keys m := by
  rw [← Mapping.get?_isSome_iff]
  unfold replacement at h
  rw [← macroName] at h
  cases hg : Mapping.get? m (macroName name) with
  | none => simp [hg] at h
  | some v => rfl

theorem leadsBack_cons_iff (t : Traced) (ts : List Traced) :
    m.LeadsBack (t :: ts) ↔
      (∃ name ∈ m.moving? (chars (t :: ts)), macroName name ∈ t.origin) ∨ m.LeadsBack ts := by
  constructor
  · rintro ⟨before, u, after, name, heq, hm, hin⟩
    cases before with
    | nil =>
      cases heq
      exact .inl ⟨name, hm, hin⟩
    | cons b before =>
      cases heq
      exact .inr ⟨before, u, after, name, rfl, hm, hin⟩
  · rintro (⟨name, hm, hin⟩ | ⟨before, u, after, name, rfl, hm, hin⟩)
    · exact ⟨[], t, ts, name, rfl, hm, hin⟩
    · exact ⟨t :: before, u, after, name, rfl, hm, hin⟩

instance decidableLeadsBack : (ts : List Traced) → Decidable (m.LeadsBack ts)
  | [] => .isFalse fun ⟨_, _, _, _, heq, _⟩ => List.append_ne_nil_of_right_ne_nil _ (by simp) heq.symm
  | t :: ts =>
    have := decidableLeadsBack ts
    decidable_of_iff _ (m.leadsBack_cons_iff t ts).symm

theorem not_leadsBack_tail {t : Traced} {ts : List Traced} (h : ¬ m.LeadsBack (t :: ts)) :
    ¬ m.LeadsBack ts := by
  rw [leadsBack_cons_iff, not_or] at h
  exact h.2

theorem not_leadsBack_drop {ts : List Traced} (h : ¬ m.LeadsBack ts) (n : Nat) :
    ¬ m.LeadsBack (ts.drop n) := by
  rintro ⟨before, u, after, name, heq, hm, hin⟩
  refine h ⟨ts.take n ++ before, u, after, name, ?_, hm, hin⟩
  rw [List.append_assoc, ← heq, List.take_append_drop]

/-- As long as no reference leads back, a pass keeps the origins free of repetitions. -/
theorem lineage_tracedPass {ts : List Traced} (hback : ¬ m.LeadsBack ts)
    (h : ∀ t ∈ ts, m.Lineage t.origin) : ∀ t ∈ m.tracedPass ts, m.Lineage t.origin := by
  fun_induction tracedPass m ts with
  | case1 => exact h
  | case2 t ts name hm ih =>
    intro u hu
    rcases List.mem_append.mp hu with hu | hu
    · obtain ⟨c, hc, rfl⟩ := List.mem_map.mp hu
      have hnew : macroName name ∉ t.origin := fun hin => hback ⟨[], t, ts, name, rfl, hm, hin⟩
      have hkey := m.macroName_mem_keys (List.ne_nil_of_mem hc)
      obtain ⟨hnodup, hsub⟩ := h t List.mem_cons_self
      exact ⟨List.nodup_cons.mpr ⟨hnew, hnodup⟩, List.cons_subset.mpr ⟨hkey, hsub⟩⟩
    · refine ih ?_ ?_ u hu
      · exact m.not_leadsBack_drop (m.not_leadsBack_tail hback) _
      · exact fun v hv => h v (List.mem_cons_of_mem _ (List.mem_of_mem_drop hv))
  | case3 t ts hm ih =>
    intro u hu
    rcases List.mem_cons.mp hu with rfl | hu
    · exact h _ List.mem_cons_self
    · exact ih (m.not_leadsBack_tail hback) (fun v hv => h v (List.mem_cons_of_mem _ hv)) u hu

/-! ## The weight of an expansion -/

/-- A number above the count of dollar signs in every value. -/
def base : Nat := (m.map fun e => e.2.plain.length).sum + 1

/-- What a dollar sign weighs: the more macros it came out of, the less. -/
def Traced.weight (t : Traced) : Nat :=
  if t.char = '$' then m.base ^ (m.length - t.origin.length) else 0

def weight (ts : List Traced) : Nat := (ts.map fun t => t.weight m).sum

@[simp] theorem weight_nil : m.weight [] = 0 := rfl

@[simp] theorem weight_cons (t : Traced) (ts : List Traced) :
    m.weight (t :: ts) = t.weight m + m.weight ts := by
  simp [weight]

@[simp] theorem weight_append (ts us : List Traced) :
    m.weight (ts ++ us) = m.weight ts + m.weight us := by
  simp [weight]

theorem weight_drop_le (n : Nat) (ts : List Traced) : m.weight (ts.drop n) ≤ m.weight ts := by
  conv => rhs; rw [← List.take_append_drop n ts, weight_append]
  omega

theorem weight_traced (origin : List String) (cs : List Char) :
    m.weight (traced origin cs) = cs.count '$' * m.base ^ (m.length - origin.length) := by
  induction cs with
  | nil => simp [traced]
  | cons c cs ih =>
    have hcons : traced origin (c :: cs) = ⟨c, origin⟩ :: traced origin cs := rfl
    rw [hcons, weight_cons, ih, Traced.weight]
    by_cases hc : c = '$'
    · simp [hc, Nat.succ_mul, Nat.add_comm]
    · simp [hc]

theorem count_replacement_lt (name : List Char) : (m.replacement name).count '$' < m.base := by
  unfold replacement base
  split
  · simp
  · simp
  · next v _ hg =>
    have hmem : v.plain.length ∈ m.map fun e => e.2.plain.length :=
      List.mem_map.mpr ⟨_, Mapping.mem_of_get? hg, rfl⟩
    have hsum := List.single_le_sum (fun _ _ => Nat.zero_le _) _ hmem
    have hcount := v.plain.toList.count_le_length (a := '$')
    rw [String.length_toList] at hcount
    omega

/-- What replaces a moving reference weighs less than its dollar sign. -/
theorem weight_replacement_lt {origin : List String} {name : List Char}
    (h : ∀ t ∈ traced (macroName name :: origin) (m.replacement name), m.Lineage t.origin) :
    m.weight (traced (macroName name :: origin) (m.replacement name)) <
      m.base ^ (m.length - origin.length) := by
  have hbase : 0 < m.base := Nat.succ_pos _
  rw [weight_traced]
  rcases Nat.eq_zero_or_pos ((m.replacement name).count '$') with hzero | hpos
  · rw [hzero, Nat.zero_mul]
    exact Nat.pow_pos hbase
  · have hin : '$' ∈ m.replacement name := List.count_pos_iff.mp hpos
    have hlen := (h ⟨'$', _⟩ (List.mem_map.mpr ⟨_, hin, rfl⟩)).length_le
    rw [List.length_cons] at hlen ⊢
    have hexp : m.length - origin.length = (m.length - (origin.length + 1)) + 1 := by omega
    rw [hexp, Nat.pow_succ, Nat.mul_comm]
    exact Nat.mul_lt_mul_of_pos_left (m.count_replacement_lt name) (Nat.pow_pos hbase)

/-- A pass changes nothing, or the weight falls. -/
theorem tracedPass_eq_or_weight_lt {ts : List Traced}
    (h : ∀ t ∈ m.tracedPass ts, m.Lineage t.origin) :
    m.tracedPass ts = ts ∨ m.weight (m.tracedPass ts) < m.weight ts := by
  fun_induction tracedPass m ts with
  | case1 => exact .inl rfl
  | case2 t ts name hm ih =>
    right
    obtain ⟨rest, hr, -⟩ := m.moving?_eq_some hm
    have hdollar : t.char = '$' := (List.cons.inj (reference?_eq hr).1).1
    have hnew := m.weight_replacement_lt fun u hu => h u (List.mem_append_left _ hu)
    have hdrop := m.weight_drop_le (name.length + 2) ts
    have hrest : m.weight (m.tracedPass (ts.drop (name.length + 2))) ≤
        m.weight (ts.drop (name.length + 2)) := by
      rcases ih fun u hu => h u (List.mem_append_right _ hu) with heq | hlt
      · exact Nat.le_of_eq (congrArg _ heq)
      · exact Nat.le_of_lt hlt
    rw [weight_append, weight_cons, Traced.weight, if_pos hdollar]
    omega
  | case3 t ts hm ih =>
    rcases ih fun u hu => h u (List.mem_cons_of_mem _ hu) with heq | hlt
    · exact .inl (congrArg _ heq)
    · right
      rw [weight_cons, weight_cons]
      omega

/-! ## All passes -/

theorem lineage_expansion {text : String} (h : ∀ n, ¬ m.LeadsBack (m.expansion text n)) (n : Nat) :
    ∀ t ∈ m.expansion text n, m.Lineage t.origin := by
  induction n with
  | zero =>
    intro t ht
    obtain ⟨c, -, rfl⟩ := List.mem_map.mp ht
    exact ⟨List.nodup_nil, List.nil_subset _⟩
  | succ n ih =>
    rw [expansion, Function.iterate_succ_apply', ← expansion]
    exact m.lineage_tracedPass (h n) ih

/-- Some pass over the expansion changes nothing. -/
theorem exists_settled {text : String} (h : ∀ n, ¬ m.LeadsBack (m.expansion text n)) :
    ∃ n, m.Settled (m.pass^[n] text.toList) := by
  -- otherwise every pass takes something off the weight, which is a natural number
  by_contra hne
  have hstep (n : Nat) : m.weight (m.expansion text (n + 1)) < m.weight (m.expansion text n) := by
    have hline := m.lineage_expansion h (n + 1)
    rw [expansion, Function.iterate_succ_apply', ← expansion] at hline ⊢
    rcases m.tracedPass_eq_or_weight_lt hline with heq | hlt
    · refine absurd ⟨n, ?_⟩ hne
      rw [Settled, ← chars_expansion, ← chars_tracedPass, heq]
    · exact hlt
  have hfall (n : Nat) : m.weight (m.expansion text n) + n ≤ m.weight (m.expansion text 0) := by
    induction n with
    | zero => exact Nat.le_refl _
    | succ n ih =>
      have := hstep n
      omega
  have := hfall (m.weight (m.expansion text 0) + 1)
  omega

/-- If no reference ever leads back to a macro that it came out of, an expansion ends: in a text that a
further pass leaves as it is. Preparing and compiling the text end too. -/
theorem expand_ends {text : String} (h : ∀ n, ¬ m.LeadsBack (m.expansion text n)) :
    (∃ n s, m.expand text = .ok s ∧ s.toList = m.pass^[n] text.toList ∧ m.pass s.toList = s.toList) ∧
      ∀ c : Compiler, c.prepare text m ≠ .error .unsettledMacros ∧
        (c.compile text m).outcome ≠ .error (.compile .unsettledMacros) := by
  obtain ⟨n, hn⟩ := m.exists_settled h
  have hs : (String.ofList (m.pass^[n] text.toList)).toList = m.pass^[n] text.toList :=
    String.toList_ofList
  have hok : m.expand text = .ok (String.ofList (m.pass^[n] text.toList)) := by
    rw [expand_eq_ok_iff, hs]
    exact ⟨⟨n, rfl⟩, hn⟩
  refine ⟨⟨n, _, hok, hs, ?_⟩, fun c => ⟨?_, ?_⟩⟩
  · rw [hs]
    exact hn
  · rw [ne_eq, c.prepare_eq_unsettled_iff, hok]
    exact fun he => by cases he
  · rw [ne_eq, c.compile_eq_unsettled_iff, hok]
    exact fun he => by cases he

/-- Only the passes up to one that changes nothing can hold a reference that leads back. -/
theorem never_leadsBack {text : String} {k : Nat}
    (hk : m.tracedPass (m.expansion text k) = m.expansion text k)
    (h : ∀ n ≤ k, ¬ m.LeadsBack (m.expansion text n)) (n : Nat) : ¬ m.LeadsBack (m.expansion text n) := by
  rcases Nat.le_total n k with hn | hn
  · exact h n hn
  · obtain ⟨d, rfl⟩ := Nat.exists_eq_add_of_le hn
    have hsame : m.expansion text (k + d) = m.expansion text k := by
      rw [expansion, Nat.add_comm, Function.iterate_add_apply, ← expansion]
      exact Function.iterate_fixed hk d
    rw [hsame]
    exact h k (Nat.le_refl k)

/-- Macros of which one has a value that names the other. -/
def nested : Macros :=
  [("size", .text "$\x7bunit\x7d_size"), ("unit", .text "mb"), ("mb_size", .text "10MB")]

/-- A text with a reference inside a reference. -/
def nestedText : String := "parse :$\x7b$\x7bsize\x7d\x7d;"

theorem expand_ends_nested :
    (∃ n s, nested.expand nestedText = .ok s ∧ s.toList = nested.pass^[n] nestedText.toList ∧
      nested.pass s.toList = s.toList) ∧
      ∀ c : Compiler, c.prepare nestedText nested ≠ .error .unsettledMacros ∧
        (c.compile nestedText nested).outcome ≠ .error (.compile .unsettledMacros) :=
  nested.expand_ends (nested.never_leadsBack (k := 3) (by decide +kernel) (by decide +kernel))

/-- Two macros that stand for each other. -/
def circular : Macros := [("a", .text "$\x7bb\x7d"), ("b", .text "$\x7ba\x7d")]

/-- A reference to the macro of the given name. -/
def referenceTo (name : String) : String := String.ofList (written name.toList)

/-- Passes swap the two macros forever. -/
theorem circular_never_settles :
    (∀ n, circular.pass (circular.pass^[n] (referenceTo "a").toList) ≠
      circular.pass^[n] (referenceTo "a").toList) ∧
      circular.expand (referenceTo "a") = .error .unsettledMacros ∧
      ∀ c : Compiler, (c.compile (referenceTo "a") circular).outcome =
        .error (.compile .unsettledMacros) := by
  have hswap (n : Nat) : circular.pass^[n] (referenceTo "a").toList = (referenceTo "a").toList ∨
      circular.pass^[n] (referenceTo "a").toList = (referenceTo "b").toList := by
    induction n with
    | zero => exact .inl rfl
    | succ n ih =>
      rw [Function.iterate_succ_apply']
      rcases ih with h | h <;> rw [h]
      · exact .inr (by decide +kernel)
      · exact .inl (by decide +kernel)
  have hnever (n : Nat) : ¬ circular.Settled (circular.pass^[n] (referenceTo "a").toList) := by
    rcases hswap n with h | h <;> rw [h] <;> decide +kernel
  have herror : circular.expand (referenceTo "a") = .error .unsettledMacros :=
    circular.expand_eq_error_iff.mpr ⟨rfl, hnever⟩
  exact ⟨hnever, herror, fun c => c.compile_eq_unsettled_iff.mpr herror⟩

end RowRecipe.Macros
