import RowRecipe.Proofs.Mapping
import RowRecipe.Usage.Bind

/-!
# Binding by position

A usage is made by calls that add one slot each. Whatever calls are made and refused, its slots have different names,
the optional ones stand behind the required ones, and a default fits its slot. For such a usage it can be told from
positions alone which arguments are bound, to what, and what is reported of all others.
-/

namespace RowRecipe

namespace UsageDefinition

/-! ## Calls -/

/-- A call that adds a slot. -/
structure Call where
  name : String
  accepts : List TokenType
  optional : Bool
  default? : Option Token

/-- What the call leaves of a usage, also where it is refused. -/
def Call.run (u : UsageDefinition) (call : Call) : UsageDefinition :=
  match u.define call.name call.accepts call.optional call.default? with
  | .ok v => v
  | .error _ => u

/-- The usage that calls make for a directive. -/
def after (directive : String) (calls : List Call) : UsageDefinition :=
  calls.foldl Call.run (.empty directive)

/-- A slot that may be added behind the given ones. -/
structure Follows (slots : List UsageSlot) (s : UsageSlot) : Prop where
  name : s.name ∉ slots.map (·.name)
  default : ∀ t ∈ s.default?, s.acceptsToken t = true
  order : s.optional = false → ∀ last ∈ slots.getLast?, last.optional = false

variable {u v : UsageDefinition}

theorem follows_of_define {name : String} {accepts : List TokenType} {optional : Bool} {default? : Option Token}
    (h : u.define name accepts optional default? = .ok v) :
    ∃ s, Follows u.slots s ∧ v = { u with slots := u.slots ++ [s] } := by
  unfold define at h
  split at h
  next => cases h
  next =>
    split at h
    next => cases h
    next hname =>
      split at h
      next => cases h
      next hdefault =>
        simp only at h
        split at h
        next => cases h
        next horder =>
          cases h
          refine ⟨_, ⟨?_, ?_, ?_⟩, rfl⟩
          · simpa using hname
          · rw [Option.filter_eq_none_iff] at hdefault
            simpa [UsageSlot.acceptsToken] using hdefault
          · intro hrequired last hlast
            have hrequired : (optional || default?.isSome) = false := hrequired
            rw [hrequired, Option.mem_def.mp hlast] at horder
            simpa using horder

/-- A call leaves the usage as it is, or adds one slot. -/
theorem run_cases (u : UsageDefinition) (call : Call) :
    call.run u = u ∨ ∃ s, Follows u.slots s ∧ call.run u = { u with slots := u.slots ++ [s] } := by
  unfold Call.run
  cases h : u.define call.name call.accepts call.optional call.default? with
  | error e => exact .inl rfl
  | ok v => exact .inr (follows_of_define h)

/-! ## What all calls keep -/

/-- Slots whose arguments can be told by position and by name. -/
structure Orderly (slots : List UsageSlot) : Prop where
  names : (slots.map (·.name)).Nodup
  defaults : ∀ s ∈ slots, ∀ t ∈ s.default?, s.acceptsToken t = true
  /-- Behind an optional slot there are optional ones only. -/
  optional : slots.Pairwise fun s t => s.optional = true → t.optional = true

theorem Orderly.concat {slots : List UsageSlot} {s : UsageSlot} (h : Orderly slots) (hs : Follows slots s) :
    Orderly (slots ++ [s]) where
  names := by
    rw [List.map_append, List.map_singleton]
    exact h.names.append (List.nodup_singleton _) (by simpa using hs.name)
  defaults := by
    intro x hx
    rcases List.mem_append.mp hx with hx | hx
    · exact h.defaults x hx
    · rw [List.mem_singleton.mp hx]
      exact hs.default
  optional := by
    refine List.pairwise_append.mpr ⟨h.optional, List.pairwise_singleton _ _, ?_⟩
    intro x hx y hy hoptional
    rw [List.mem_singleton.mp hy]
    -- only the last slot is looked at when a slot is added, and the ones before it are as optional as it is
    by_contra hrequired
    rw [Bool.not_eq_true] at hrequired
    obtain ⟨front, last, rfl⟩ := List.eq_nil_or_concat slots |>.resolve_left (List.ne_nil_of_mem hx)
    have hlast := hs.order hrequired last (by simp)
    rw [List.concat_eq_append] at hx h
    rcases List.mem_append.mp hx with hx | hx
    · have := (List.pairwise_append.mp h.optional).2.2 x hx last (List.mem_singleton_self last) hoptional
      rw [hlast] at this
      cases this
    · rw [List.mem_singleton.mp hx, hlast] at hoptional
      cases hoptional

/-- The slots of a usage are orderly, whatever calls are made and refused. -/
theorem orderly_after (directive : String) (calls : List Call) : Orderly (after directive calls).slots := by
  induction calls using List.reverseRecOn with
  | nil => exact ⟨List.nodup_nil, by simp [after, empty], List.Pairwise.nil⟩
  | append_singleton calls call ih =>
    have hafter : after directive (calls ++ [call]) = call.run (after directive calls) := by simp [after]
    rw [hafter]
    rcases run_cases (after directive calls) call with hsame | ⟨s, hs, hadded⟩
    · rw [hsame]
      exact ih
    · rw [hadded]
      exact ih.concat hs

/-- So many arguments are enough if the slots behind them are optional. -/
theorem forall_optional_drop {slots : List UsageSlot}
    (h : slots.Pairwise fun s t => s.optional = true → t.optional = true) (n : Nat) :
    (∀ s ∈ slots.drop n, s.optional = true) ↔ slots.countP (fun s => !s.optional) ≤ n := by
  induction slots generalizing n with
  | nil => simp
  | cons s slots ih =>
    rw [List.pairwise_cons] at h
    cases n with
    | zero => simp [List.countP_eq_zero]
    | succ n =>
      rw [List.drop_succ_cons, ih h.2]
      cases hs : s.optional with
      | false => simp [hs]
      | true =>
        have hnone : slots.countP (fun s => !s.optional) = 0 := by
          rw [List.countP_eq_zero]
          intro t ht
          simp [h.1 t ht hs]
        simp [hs, hnone]

end UsageDefinition

/-! ## Slots and arguments -/

namespace UsageSlot

variable (s : UsageSlot)

/-- Why the slot cannot take the argument in its position, or do without one. -/
def fault? : Option Token → Option BindFault
  | some t => if s.acceptsToken t then none else some (.mismatch s t)
  | none => if s.optional then none else some (.missing s)

/-- What the slot is bound to: the argument in its position, or else its default. -/
def entry? (t? : Option Token) : Option (String × Token) :=
  (t?.or s.default?).map (s.name, ·)

end UsageSlot

namespace Binding

/-- Every slot takes the argument in its position, or can do without one. -/
def Fits (slots : List UsageSlot) (arguments : List Token) : Prop :=
  ∀ (i : Nat) (s : UsageSlot), slots[i]? = some s → s.fault? arguments[i]? = none

/-- Every slot accepts the argument in its position, if there is one. -/
def Accepts (slots : List UsageSlot) (arguments : List Token) : Prop :=
  ∀ (i : Nat) (s : UsageSlot) (t : Token), slots[i]? = some s → arguments[i]? = some t → s.acceptsToken t = true

/-- The slot at the index is the first one that does not fit. -/
structure FailsFirst (slots : List UsageSlot) (arguments : List Token) (i : Nat) (s : UsageSlot) (fault : BindFault) :
    Prop where
  slot : slots[i]? = some s
  fault : s.fault? arguments[i]? = some fault
  before : ∀ j < i, ∀ r : UsageSlot, slots[j]? = some r → r.fault? arguments[j]? = none

/-- The slots that have an argument, with it. -/
def paired (slots : List UsageSlot) (arguments : List Token) : List (String × Token) :=
  List.zipWith (fun s t => (s.name, t)) slots arguments

/-- The slots that have a default, with it. -/
def defaulted (slots : List UsageSlot) : List (String × Token) :=
  slots.filterMap fun s => s.default?.map (s.name, ·)

section Slots

variable {s : UsageSlot} {slots : List UsageSlot} {arguments : List Token} {fault : BindFault}
  {bound : List (String × Token)}

/-- The first slot is settled by the first argument, and the others by the arguments behind it. -/
theorem bindSlots_cons (s : UsageSlot) (slots : List UsageSlot) (arguments : List Token) :
    bindSlots (s :: slots) arguments = match s.fault? arguments.head? with
      | some fault => .error fault
      | none => (bindSlots slots arguments.tail).map ((s.entry? arguments.head?).toList ++ ·) := by
  cases arguments with
  | nil =>
    rw [bindSlots]
    cases hs : s.optional with
    | false => simp [UsageSlot.fault?, hs, bind, Except.bind, throw, throwThe, MonadExceptOf.throw]
    | true =>
      cases h : bindSlots slots [] <;>
        simp [UsageSlot.fault?, UsageSlot.entry?, hs, h, bind, Except.bind, pure, Except.pure, Except.map]
  | cons t arguments =>
    rw [bindSlots]
    cases ht : s.acceptsToken t with
    | false => simp [UsageSlot.fault?, ht, bind, Except.bind, throw, throwThe, MonadExceptOf.throw]
    | true =>
      cases h : bindSlots slots arguments <;>
        simp [UsageSlot.fault?, UsageSlot.entry?, ht, h, bind, Except.bind, pure, Except.pure, Except.map]

theorem fits_cons : Fits (s :: slots) arguments ↔ s.fault? arguments.head? = none ∧ Fits slots arguments.tail := by
  constructor
  · intro h
    refine ⟨by simpa [List.head?_eq_getElem?] using h 0 s rfl, fun i r hr => ?_⟩
    simpa using h (i + 1) r hr
  · rintro ⟨hs, h⟩ i r hr
    cases i with
    | zero =>
      cases hr
      simpa [List.head?_eq_getElem?] using hs
    | succ i => simpa using h i r hr

/-- The slots and arguments that are bound, in order. -/
theorem paired_append_defaulted_cons (s : UsageSlot) (slots : List UsageSlot) (arguments : List Token) :
    paired (s :: slots) arguments ++ defaulted ((s :: slots).drop arguments.length) =
      (s.entry? arguments.head?).toList ++
        (paired slots arguments.tail ++ defaulted (slots.drop arguments.tail.length)) := by
  cases arguments with
  | nil => cases h : s.default? <;> simp [paired, defaulted, UsageSlot.entry?, h]
  | cons t arguments => simp [paired, UsageSlot.entry?]

theorem bindSlots_eq_ok : bindSlots slots arguments = .ok bound ↔
    Fits slots arguments ∧ bound = paired slots arguments ++ defaulted (slots.drop arguments.length) := by
  induction slots generalizing arguments bound with
  | nil => simp [bindSlots, Fits, paired, defaulted, pure, Except.pure, eq_comm]
  | cons s slots ih =>
    rw [bindSlots_cons, fits_cons, paired_append_defaulted_cons]
    cases s.fault? arguments.head? with
    | some fault => simp
    | none =>
      have hmap : (bindSlots slots arguments.tail).map ((s.entry? arguments.head?).toList ++ ·) = .ok bound ↔
          ∃ rest, bindSlots slots arguments.tail = .ok rest ∧ (s.entry? arguments.head?).toList ++ rest = bound := by
        cases bindSlots slots arguments.tail <;> simp [Except.map]
      simp only [hmap, ih]
      constructor
      · rintro ⟨rest, ⟨hfits, rfl⟩, rfl⟩
        exact ⟨⟨trivial, hfits⟩, rfl⟩
      · rintro ⟨⟨-, hfits⟩, rfl⟩
        exact ⟨_, ⟨hfits, rfl⟩, rfl⟩

theorem exists_failsFirst (h : bindSlots slots arguments = .error fault) :
    ∃ i s, FailsFirst slots arguments i s fault := by
  induction slots generalizing arguments with
  | nil => cases h
  | cons s slots ih =>
    rw [bindSlots_cons] at h
    cases hs : s.fault? arguments.head? with
    | some found =>
      rw [hs] at h
      cases h
      exact ⟨0, s, rfl, by simpa [List.head?_eq_getElem?] using hs, fun j hj => absurd hj (Nat.not_lt_zero j)⟩
    | none =>
      have htail : bindSlots slots arguments.tail = .error fault := by
        rw [hs] at h
        cases hrest : bindSlots slots arguments.tail with
        | ok rest =>
          rw [hrest] at h
          cases h
        | error e =>
          rw [hrest] at h
          exact h
      obtain ⟨i, r, hr⟩ := ih htail
      refine ⟨i + 1, r, hr.slot, by simpa using hr.fault, ?_⟩
      intro j hj x hx
      cases j with
      | zero =>
        cases hx
        simpa [List.head?_eq_getElem?] using hs
      | succ j => simpa using hr.before j (Nat.lt_of_succ_lt_succ hj) x hx

/-- Slots fit their arguments if there are enough of these and every slot accepts the one in its position. -/
theorem fits_iff (h : slots.Pairwise fun s t => s.optional = true → t.optional = true) :
    Fits slots arguments ↔ slots.countP (fun s => !s.optional) ≤ arguments.length ∧ Accepts slots arguments := by
  rw [← UsageDefinition.forall_optional_drop h]
  constructor
  · intro hfits
    constructor
    · intro s hs
      obtain ⟨i, hi⟩ := List.mem_iff_getElem?.mp hs
      rw [List.getElem?_drop] at hi
      have hfault := hfits _ s hi
      rw [List.getElem?_eq_none (Nat.le_add_right _ _)] at hfault
      simpa [UsageSlot.fault?] using hfault
    · intro i s t hs ht
      have hfault := hfits i s hs
      rw [ht] at hfault
      simpa [UsageSlot.fault?] using hfault
  · rintro ⟨hoptional, haccepts⟩ i s hs
    cases ht : arguments[i]? with
    | some t => simp [UsageSlot.fault?, haccepts i s t hs ht]
    | none =>
      have hdrop : s ∈ slots.drop arguments.length := by
        refine List.mem_iff_getElem?.mpr ⟨i - arguments.length, ?_⟩
        rw [List.getElem?_drop, Nat.add_sub_cancel' (List.getElem?_eq_none_iff.mp ht), hs]
      simp [UsageSlot.fault?, hoptional s hdrop]

/-- Only names of slots are bound, and each at most once. -/
theorem bound_sublist : ((paired slots arguments ++ defaulted (slots.drop arguments.length)).map (·.1)).Sublist
    (slots.map (·.name)) := by
  induction slots generalizing arguments with
  | nil => simp [paired, defaulted]
  | cons s slots ih =>
    rw [paired_append_defaulted_cons, List.map_append, List.map_cons, ← List.singleton_append]
    refine List.Sublist.append ?_ ih
    unfold UsageSlot.entry?
    cases arguments.head?.or s.default? <;> simp

theorem accepted_of_mem (hfits : Fits slots arguments)
    (hdefaults : ∀ s ∈ slots, ∀ t ∈ s.default?, s.acceptsToken t = true) {e : String × Token}
    (he : e ∈ paired slots arguments ++ defaulted (slots.drop arguments.length)) :
    ∃ s ∈ slots, s.name = e.1 ∧ s.acceptsToken e.2 = true := by
  rcases List.mem_append.mp he with he | he
  · obtain ⟨i, hi⟩ := List.mem_iff_getElem?.mp he
    obtain ⟨s, t, hs, ht, rfl⟩ := List.getElem?_zipWith_eq_some.mp hi
    have hfault := hfits i s hs
    rw [ht] at hfault
    exact ⟨s, List.mem_of_getElem? hs, rfl, by simpa [UsageSlot.fault?] using hfault⟩
  · obtain ⟨s, hs, hentry⟩ := List.mem_filterMap.mp he
    obtain ⟨t, ht, rfl⟩ := Option.map_eq_some_iff.mp hentry
    have hmem : s ∈ slots := List.mem_of_mem_drop hs
    exact ⟨s, hmem, rfl, hdefaults s hmem t ht⟩

/-- A slot that is not optional is bound. -/
theorem mem_bound_of_required (hfits : Fits slots arguments) (hs : s ∈ slots) (hrequired : s.optional = false) :
    ∃ t, (s.name, t) ∈ paired slots arguments ++ defaulted (slots.drop arguments.length) := by
  obtain ⟨i, hi⟩ := List.mem_iff_getElem?.mp hs
  have hfault := hfits i s hi
  cases ht : arguments[i]? with
  | none =>
    rw [ht] at hfault
    simp [UsageSlot.fault?, hrequired] at hfault
  | some t =>
    refine ⟨t, List.mem_append_left _ (List.mem_iff_getElem?.mpr ⟨i, ?_⟩)⟩
    exact List.getElem?_zipWith_eq_some.mpr ⟨s, t, hi, ht, rfl⟩

end Slots

end Binding

/-! ## Statements -/

open Binding

variable {g : TokenGroup} {u : UsageDefinition} {a : Arguments} {e : BindError}

/-- Arguments are bound if the slots fit them and none is left. -/
theorem TokenGroup.bind_eq_ok : g.bind u = .ok a ↔ ∃ bound, bindSlots u.slots g.arguments = .ok bound ∧
    g.arguments.length ≤ u.slots.length ∧ a = ⟨g.name, Mapping.ofEntries bound⟩ := by
  unfold TokenGroup.bind
  rw [← List.drop_eq_nil_iff]
  cases bindSlots u.slots g.arguments with
  | error fault => simp [throw, throwThe, MonadExceptOf.throw]
  | ok bound =>
    cases g.arguments.drop u.slots.length <;>
      simp [throw, throwThe, MonadExceptOf.throw, pure, Except.pure, eq_comm]

/-- Otherwise the fault of the slots is reported, or else the first argument that is left. -/
theorem TokenGroup.bind_eq_error (h : g.bind u = .error e) :
    e.directive = g.name ∧ e.line = g.line ∧ e.usage = u ∧
      (bindSlots u.slots g.arguments = .error e.fault ∨
        (∃ bound, bindSlots u.slots g.arguments = .ok bound) ∧ ∃ first,
          g.arguments[u.slots.length]? = some first ∧
            e.fault = .surplus u.slots.length g.arguments.length first) := by
  unfold TokenGroup.bind at h
  cases hbound : bindSlots u.slots g.arguments with
  | error fault =>
    rw [hbound] at h
    cases h
    exact ⟨rfl, rfl, rfl, .inl rfl⟩
  | ok bound =>
    rw [hbound] at h
    cases hleft : g.arguments.drop u.slots.length with
    | nil =>
      rw [hleft] at h
      cases h
    | cons first rest =>
      rw [hleft] at h
      cases h
      refine ⟨rfl, rfl, rfl, .inr ⟨⟨bound, rfl⟩, first, ?_, rfl⟩⟩
      rw [← List.head?_drop, hleft, List.head?_cons]

/-- Where a slot is at fault, the error names it. -/
theorem BindError.slot?_of_fault? {s : UsageSlot} {t? : Option Token} (h : s.fault? t? = some e.fault) :
    e.slot? = some s.name := by
  unfold BindError.slot?
  cases t? with
  | none | some t =>
    simp only [UsageSlot.fault?, Option.ite_none_left_eq_some, Option.some.injEq] at h
    rw [← h.2]

theorem UsageDefinition.slot?_of_mem {s : UsageSlot} (h : (u.slots.map (·.name)).Nodup) (hs : s ∈ u.slots) :
    u.slot? s.name = some s := by
  unfold UsageDefinition.slot?
  cases hfound : u.slots.find? (·.name == s.name) with
  | none => exact absurd (List.find?_eq_none.mp hfound s hs) (by simp)
  | some r =>
    have hname : r.name = s.name := by simpa using List.find?_some hfound
    rw [List.inj_on_of_nodup_map h (List.mem_of_find?_eq_some hfound) hs hname]

/-- How the arguments of a statement are bound to the slots of a usage. -/
structure BindsByPosition (u : UsageDefinition) (g : TokenGroup) : Prop where
  succeeds : (∃ a, g.bind u = .ok a) ↔
    (u.requiredCount ≤ g.arguments.length ∧ g.arguments.length ≤ u.slots.length) ∧ Accepts u.slots g.arguments
  /-- The first slots are bound to the arguments, and of the others those with a default to it. -/
  bound : ∀ a, g.bind u = .ok a → a.directive = g.name ∧
    a.tokens = paired u.slots g.arguments ++ defaulted (u.slots.drop g.arguments.length)
  required : ∀ a, g.bind u = .ok a → ∀ s ∈ u.slots, s.optional = false → ∃ t, a.token? s.name = some t
  /-- A name is that of one slot, which accepts what is bound. -/
  accepted : ∀ a, g.bind u = .ok a → ∀ name t, a.token? name = some t →
    ∃ s, u.slot? name = some s ∧ s.acceptsToken t = true
  /-- The first slot that does not fit is reported, and the arguments that are left only if all slots fit. -/
  refused : ∀ e, g.bind u = .error e → e.directive = g.name ∧ e.line = g.line ∧ e.usage = u ∧
    ((∃ i s, FailsFirst u.slots g.arguments i s e.fault ∧ e.slot? = some s.name) ∨
      Fits u.slots g.arguments ∧ ∃ first, g.arguments[u.slots.length]? = some first ∧
        e.fault = .surplus u.slots.length g.arguments.length first)

/-- Whatever calls made the usage, the arguments of a statement are bound to its slots by position. -/
theorem bindsByPosition_after (directive : String) (calls : List UsageDefinition.Call) (g : TokenGroup) :
    BindsByPosition (UsageDefinition.after directive calls) g := by
  have horderly := UsageDefinition.orderly_after directive calls
  generalize UsageDefinition.after directive calls = u at horderly
  have hnames : (Mapping.keys (paired u.slots g.arguments ++ defaulted (u.slots.drop g.arguments.length))).Nodup :=
    horderly.names.sublist bound_sublist
  have bound {a : Arguments} (ha : g.bind u = .ok a) : Fits u.slots g.arguments ∧
      a = ⟨g.name, paired u.slots g.arguments ++ defaulted (u.slots.drop g.arguments.length)⟩ := by
    obtain ⟨bound, hbound, -, rfl⟩ := TokenGroup.bind_eq_ok.mp ha
    obtain ⟨hfits, rfl⟩ := bindSlots_eq_ok.mp hbound
    exact ⟨hfits, by rw [Mapping.ofEntries_of_nodup hnames]⟩
  constructor
  case succeeds =>
    have hfits : Fits u.slots g.arguments ↔ u.requiredCount ≤ g.arguments.length ∧ _ := fits_iff horderly.optional
    constructor
    · rintro ⟨a, ha⟩
      obtain ⟨-, -, hlength, -⟩ := TokenGroup.bind_eq_ok.mp ha
      obtain ⟨henough, haccepts⟩ := hfits.mp (bound ha).1
      exact ⟨⟨henough, hlength⟩, haccepts⟩
    · rintro ⟨⟨henough, hlength⟩, haccepts⟩
      exact ⟨_, TokenGroup.bind_eq_ok.mpr ⟨_, bindSlots_eq_ok.mpr ⟨hfits.mpr ⟨henough, haccepts⟩, rfl⟩, hlength, rfl⟩⟩
  case bound =>
    intro a ha
    obtain ⟨-, rfl⟩ := bound ha
    exact ⟨rfl, rfl⟩
  case required =>
    intro a ha s hs hrequired
    obtain ⟨hfits, rfl⟩ := bound ha
    obtain ⟨t, ht⟩ := mem_bound_of_required hfits hs hrequired
    exact ⟨t, (Mapping.get?_eq_some_iff hnames).mpr ht⟩
  case accepted =>
    intro a ha name t ht
    obtain ⟨hfits, rfl⟩ := bound ha
    obtain ⟨s, hs, rfl, haccepts⟩ := accepted_of_mem hfits horderly.defaults (Mapping.mem_of_get? ht)
    exact ⟨s, UsageDefinition.slot?_of_mem horderly.names hs, haccepts⟩
  case refused =>
    intro e he
    obtain ⟨hdirective, hline, husage, hslot | ⟨⟨rest, hrest⟩, first, hfirst, hsurplus⟩⟩ := TokenGroup.bind_eq_error he
    · obtain ⟨i, s, hfails⟩ := exists_failsFirst hslot
      exact ⟨hdirective, hline, husage, .inl ⟨i, s, hfails, BindError.slot?_of_fault? hfails.fault⟩⟩
    · exact ⟨hdirective, hline, husage, .inr ⟨(bindSlots_eq_ok.mp hrest).1, first, hfirst, hsurplus⟩⟩

end RowRecipe
