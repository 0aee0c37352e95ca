import RowRecipe.Proofs.Script.Reading
import RowRecipe.Proofs.Unit.Conversion
import RowRecipe.Proofs.Usage.Binding

/-!
# Summaries of tokens

Every token of a recipe has a summary, and so have the arguments that are bound to the slots of a directive. Decimals,
fixed sequences and quantities become doubles, lists and mappings on the way, so that a summary holds only what JSON
has, with one exception: decimals in properties stay as they are.
-/

namespace RowRecipe

/-! ## Parts of values -/

namespace Value

/-- The value is all of another one, or it stands somewhere in it. -/
inductive Part (v : Value) : Value → Prop
  | self : Part v v
  | item {items : List Value} {w : Value} (hw : w ∈ items) (h : Part v w) : Part v (.list items)
  | member {items : List Value} {w : Value} (hw : w ∈ items) (h : Part v w) : Part v (.tuple items)
  | entry {entries : List (String × Value)} {e : String × Value} (he : e ∈ entries) (h : Part v e.2) :
      Part v (.map entries)

/-- Whether JSON has no such value. -/
def isForeign : Value → Bool
  | decimal _ | tuple _ | quantity _ => true
  | _ => false

/-- Whether the value holds no others. -/
def isAtom : Value → Bool
  | list _ | tuple _ | map _ => false
  | _ => true

variable {v w : Value}

theorem part_of_isAtom (h : w.isAtom = true) : v.Part w ↔ v = w := by
  constructor
  · intro hpart
    cases hpart with
    | self => rfl
    | _ => cases h
  · rintro rfl
    exact .self

theorem part_list {items : List Value} : v.Part (.list items) ↔ v = .list items ∨ ∃ w ∈ items, v.Part w := by
  constructor
  · intro h
    cases h with
    | self => exact .inl rfl
    | item hw h => exact .inr ⟨_, hw, h⟩
  · rintro (rfl | ⟨w, hw, h⟩)
    · exact .self
    · exact .item hw h

theorem part_map {entries : List (String × Value)} :
    v.Part (.map entries) ↔ v = .map entries ∨ ∃ e ∈ entries, v.Part e.2 := by
  constructor
  · intro h
    cases h with
    | self => exact .inl rfl
    | entry he h => exact .inr ⟨_, he, h⟩
  · rintro (rfl | ⟨e, he, h⟩)
    · exact .self
    · exact .entry he h

/-- Whether JSON has the value, and it is neither null nor holds others. -/
def isScalar : Value → Bool
  | bool _ | int _ | double _ | text _ => true
  | _ => false

/-- Values that are neither JSON's nor null are no part of a scalar. -/
theorem not_part_of_isScalar (hv : v.isForeign = true ∨ v = .null) (h : w.isScalar = true) : ¬v.Part w := by
  have hatom : w.isAtom = true := by cases w <;> first | rfl | cases h
  rw [part_of_isAtom hatom]
  rintro rfl
  rcases hv with hv | rfl
  · cases v <;> first | cases h; done | cases hv
  · cases h

theorem not_part_list (hv : v.isForeign = true ∨ v = .null) {items : List Value}
    (h : ∀ w ∈ items, w.isScalar = true) : ¬v.Part (.list items) := by
  rw [part_list]
  rintro (rfl | ⟨w, hw, hpart⟩)
  · rcases hv with hv | hv <;> cases hv
  · exact not_part_of_isScalar hv (h w hw) hpart

end Value

/-! ## Results of several steps -/

/-- If every step has a result, all steps together have these results. -/
theorem exists_mapM {α β ε : Type} {f : α → Except ε β} {P : α → β → Prop} {xs : List α}
    (h : ∀ x ∈ xs, ∃ y, f x = .ok y ∧ P x y) :
    ∃ ys, xs.mapM f = .ok ys ∧ (∀ x ∈ xs, ∃ y ∈ ys, P x y) ∧ ∀ y ∈ ys, ∃ x ∈ xs, P x y := by
  induction xs with
  | nil => exact ⟨[], rfl, nofun, nofun⟩
  | cons x xs ih =>
    rw [List.forall_mem_cons] at h
    obtain ⟨⟨y, hy, hP⟩, h⟩ := h
    obtain ⟨ys, hys, hleft, hright⟩ := ih h
    refine ⟨y :: ys, by rw [List.mapM_cons, hy, hys]; rfl, ?_, ?_⟩
    · refine List.forall_mem_cons.mpr ⟨⟨y, List.mem_cons_self, hP⟩, fun x' hx' => ?_⟩
      obtain ⟨y', hy', hP'⟩ := hleft x' hx'
      exact ⟨y', List.mem_cons_of_mem y hy', hP'⟩
    · refine List.forall_mem_cons.mpr ⟨⟨x, List.mem_cons_self, hP⟩, fun y' hy' => ?_⟩
      obtain ⟨x', hx', hP'⟩ := hright y' hy'
      exact ⟨x', List.mem_cons_of_mem x hx', hP'⟩

/-! ## Tokens -/

namespace Token

variable {t : Token} {v w : Value}

/-- A value of the properties of a token. -/
def Holds (t : Token) (v : Value) : Prop :=
  ∃ entries key, t.properties? = some entries ∧ (key, v) ∈ entries

/-- The summary of a token, and what JSON lacks in it: the decimals of properties. A null stands only where an amount
has more digits than decimals have room for. -/
structure HasSummary (t : Token) (s : List (String × Value)) : Prop where
  eq : t.summary = .ok s
  foreign : ∀ v : Value, v.isForeign = true → (v.Part (.map s) ↔ ∃ d, v = .decimal d ∧ t.Holds v)
  null : Value.Part .null (.map s) → ∃ q, t.value = .quantity q ∧ ¬Quantity.Convertible q.canonical

/-- The summary of a token that is no quantity holds its value. -/
theorem hasSummary_of_summaryValue (hq : ∀ q, t.meaning ≠ .byteSize q ∧ t.meaning ≠ .timeDuration q)
    (hw : t.summaryValue = .ok w) (hnull : ¬Value.Part .null w)
    (hforeign : ∀ v : Value, v.isForeign = true → (v.Part w ↔ ∃ d, v = .decimal d ∧ t.Holds v)) :
    ∃ s, t.HasSummary s := by
  let s : List (String × Value) := [("type", .text t.type.name), ("value", w), ("literal", .text t.literal)]
  have hs : t.summary = .ok s := by
    unfold summary
    split
    · next q h => exact absurd h (hq q).1
    · next q h => exact absurd h (hq q).2
    · rw [hw]
      rfl
  have hpart {v : Value} (hv : v.isForeign = true ∨ v = .null) : v.Part (.map s) ↔ v.Part w := by
    rw [Value.part_map]
    constructor
    · rintro (rfl | ⟨e, he, h⟩)
      · rcases hv with hv | hv <;> cases hv
      · simp only [s, List.mem_cons, List.not_mem_nil, or_false] at he
        rcases he with rfl | rfl | rfl
        · exact absurd h (Value.not_part_of_isScalar hv rfl)
        · exact h
        · exact absurd h (Value.not_part_of_isScalar hv rfl)
    · exact fun h => .inr ⟨("value", w), by simp [s], h⟩
  refine ⟨s, hs, ?_, ?_⟩
  · intro v hv
    rw [hpart (.inl hv)]
    exact hforeign v hv
  · intro h
    exact absurd ((hpart (.inr rfl)).mp h) hnull

theorem not_holds (h : t.properties? = none) (v : Value) : ¬t.Holds v := by
  rintro ⟨entries, key, hentries, -⟩
  rw [h] at hentries
  cases hentries

/-- Tokens without properties whose value becomes one that JSON has. -/
theorem hasSummary_of_plain (hq : ∀ q, t.meaning ≠ .byteSize q ∧ t.meaning ≠ .timeDuration q)
    (hprops : t.properties? = none) (hw : t.summaryValue = .ok w)
    (hplain : ∀ v : Value, v.isForeign = true ∨ v = .null → ¬v.Part w) : ∃ s, t.HasSummary s := by
  refine hasSummary_of_summaryValue hq hw (hplain _ (.inr rfl)) fun v hv => ?_
  constructor
  · exact fun h => absurd h (hplain v (.inl hv))
  · rintro ⟨d, -, h⟩
    exact absurd h (not_holds hprops v)

/-! ## Quantities -/

/-- The number of a quantity is written with digits. -/
theorem numeric_of_ofText {kind : UnitKind} {text : String} {q : Quantity} (h : Quantity.ofText kind text = .ok q) :
    ∃ n c e, q.numeric = .finite n c e := by
  unfold Quantity.ofText at h
  dsimp only at h
  split at h
  · cases h
  · split at h
    · cases h
    · split at h
      · cases h
      · split at h
        · cases h
        · cases h
          exact ⟨_, _, _, rfl⟩

/-- The units of a summary are units of the tables. -/
theorem conversion_of_mem {q : Quantity} {c : String × String} (hc : c ∈ q.kind.conversions) :
    (∃ d, q.conversion c.2 = .double d) ∨ q.conversion c.2 = .null ∧ ¬Quantity.Convertible q.canonical := by
  have hunits : ∀ kind : UnitKind, ∀ c ∈ kind.conversions, (kind.factor? c.2).isSome = true := by
    intro kind
    cases kind <;> decide +kernel
  have hone : 0 < 1 := Nat.one_pos
  by_cases hq : Quantity.Convertible q.canonical
  · obtain ⟨m, e, hconverted⟩ := Quantity.convertAmount_ok (hunits q.kind c hc) hq hone
    refine .inl ⟨Double.ofFinite false m e, ?_⟩
    rw [Quantity.conversion, Quantity.toDouble, Quantity.toDecimal, hconverted]
    rfl
  · unfold Quantity.conversion
    cases q.toDouble c.2 with
    | ok d => exact .inl ⟨d, rfl⟩
    | error e => exact .inr ⟨rfl, hq⟩

/-- The number of a quantity is written with digits, so there is a double next to it. -/
theorem hasSummary_quantity {q : Quantity} (ht : t.meaning = .byteSize q ∨ t.meaning = .timeDuration q)
    (hnumeric : ∃ n c e, q.numeric = .finite n c e) : ∃ s, t.HasSummary s := by
  have hvalue : t.value = .quantity q := by
    rcases ht with ht | ht <;> rw [value, ht] <;> rfl
  have hprops : t.properties? = none := by
    rcases ht with ht | ht <;> rw [properties?, ht]
  have hs : t.summary = .ok q.summary := by
    rcases ht with ht | ht <;> rw [summary, ht] <;> rfl
  have hdouble : ∃ d, q.numericDouble = .double d := by
    obtain ⟨n, c, e, h⟩ := hnumeric
    exact ⟨Double.ofFinite n c e, by rw [Quantity.numericDouble, h]; rfl⟩
  have hentries : ∀ e ∈ q.summary,
      e.2.isScalar = true ∨ e.2 = .null ∧ ¬Quantity.Convertible q.canonical := by
    intro e he
    rcases List.mem_append.mp he with he | he
    · obtain ⟨d, hd⟩ := hdouble
      simp only [hd, List.mem_cons, List.not_mem_nil, or_false] at he
      rcases he with rfl | rfl | rfl | rfl | rfl <;> exact .inl rfl
    · obtain ⟨c, hc, rfl⟩ := List.mem_map.mp he
      rcases conversion_of_mem hc with ⟨d, hd⟩ | hnull
      · exact .inl (by rw [hd]; rfl)
      · exact .inr hnull
  refine ⟨q.summary, hs, fun v hv => ⟨fun h => ?_, ?_⟩, fun h => ?_⟩
  · rcases Value.part_map.mp h with rfl | ⟨e, he, h⟩
    · cases hv
    · rcases hentries e he with hscalar | ⟨hnull, -⟩
      · exact absurd h (Value.not_part_of_isScalar (.inl hv) hscalar)
      · rw [hnull, Value.part_of_isAtom rfl] at h
        rw [h] at hv
        cases hv
  · rintro ⟨d, -, h⟩
    exact absurd h (not_holds hprops v)
  · rcases Value.part_map.mp h with h | ⟨e, he, h⟩
    · cases h
    · rcases hentries e he with hscalar | ⟨-, hq⟩
      · exact absurd h (Value.not_part_of_isScalar (.inr rfl) hscalar)
      · exact ⟨q, hvalue, hq⟩

end Token

/-! ## Tokens of recipes -/

namespace Script

open Token

/-- A number of a statement is written with digits. -/
theorem Lexeme.exists_numeric (l : Lexeme) :
    (∃ n, l.numeric = .int n) ∨ ∃ n c e, l.numeric = .decimal (.finite n c e) := by
  unfold Lexeme.numeric
  dsimp only
  split
  · exact .inr ⟨_, _, _, rfl⟩
  · exact .inl ⟨_, rfl⟩

theorem Lexeme.exists_summary (l : Lexeme) : ∃ v : Value, l.numeric.summary = .ok v ∧ v.isScalar = true := by
  rcases l.exists_numeric with ⟨n, h⟩ | ⟨n, c, e, h⟩
  · exact ⟨.int n, by rw [h]; rfl, rfl⟩
  · exact ⟨.double (.ofFinite n c e), by rw [h]; rfl, rfl⟩

/-- A property holds a scalar or a decimal. -/
theorem Property.entry_value (p : Property) : p.entry.2.isScalar = true ∨ ∃ d, p.entry.2 = .decimal d := by
  unfold Property.entry
  dsimp only
  split
  · exact .inl rfl
  · rcases p.value.exists_numeric with ⟨n, h⟩ | ⟨n, c, e, h⟩
    · rw [h]
      exact .inl rfl
    · rw [h]
      exact .inr ⟨_, rfl⟩
  · split <;> exact .inl rfl

theorem hasSummary_properties {t : Token} {properties : List Property}
    (ht : t.meaning = .properties (Mapping.ofEntries (properties.map Property.entry))) : ∃ s, t.HasSummary s := by
  let entries := Mapping.ofEntries (Mapping.ofEntries (properties.map Property.entry))
  have hprops : t.properties? = some entries := by rw [Token.properties?, ht]
  have hw : t.summaryValue = .ok (.map entries) := by
    rw [Token.summaryValue, ht]
    rfl
  have hentries : ∀ e ∈ entries, e.2.isScalar = true ∨ ∃ d, e.2 = .decimal d := by
    intro e he
    obtain ⟨p, -, rfl⟩ := List.mem_map.mp (Mapping.mem_of_mem_ofEntries (Mapping.mem_of_mem_ofEntries he))
    exact p.entry_value
  refine hasSummary_of_summaryValue (fun q => by simp [ht]) hw ?_ fun v hv => ?_
  · rw [Value.part_map]
    rintro (h | ⟨e, he, h⟩)
    · cases h
    · rcases hentries e he with hscalar | ⟨d, hd⟩
      · exact Value.not_part_of_isScalar (.inr rfl) hscalar h
      · rw [hd, Value.part_of_isAtom rfl] at h
        cases h
  · rw [Value.part_map]
    constructor
    · rintro (rfl | ⟨e, he, h⟩)
      · cases hv
      · rcases hentries e he with hscalar | ⟨d, hd⟩
        · exact absurd h (Value.not_part_of_isScalar (.inl hv) hscalar)
        · rw [hd, Value.part_of_isAtom rfl] at h
          exact ⟨d, h, entries, e.1, hprops, by rw [h, ← hd]; exact he⟩
    · rintro ⟨d, -, entries', key, hentries', hmem⟩
      rw [hprops] at hentries'
      cases hentries'
      exact .inr ⟨_, hmem, .self⟩

theorem hasSummary_items {α : Type} {one : α → Meaning} {several : List α → Meaning} {value : Lexeme → α}
    {first : Lexeme} {more : List Lexeme}
    (hone : ∀ l literal, ∃ s, Token.HasSummary ⟨one (value l), literal⟩ s)
    (hseveral : ∀ ls : List Lexeme, ∀ literal, ∃ s, Token.HasSummary ⟨several (ls.map value), literal⟩ s) :
    ∃ s, (Token.ofItems one several value first more).HasSummary s := by
  unfold Token.ofItems
  split
  · exact hone first _
  · exact hseveral (first :: more) _

/-- A token whose summary shows a text or texts. -/
theorem hasSummary_texts {t : Token} (ht : (∃ s, t.meaning = .text s ∨ t.meaning = .columnName s) ∨
    ∃ ss, t.meaning = .textList ss ∨ t.meaning = .columnNameList ss) : ∃ s, t.HasSummary s := by
  rcases ht with ⟨s, ht⟩ | ⟨ss, ht⟩
  · refine hasSummary_of_plain (w := .text s) ?_ ?_ ?_ fun v hv => Value.not_part_of_isScalar hv rfl
    · rcases ht with ht | ht <;> simp [ht]
    · rcases ht with ht | ht <;> rw [Token.properties?, ht]
    · rcases ht with ht | ht <;> rw [Token.summaryValue, ht] <;> rfl
  · have hscalar : ∀ w ∈ ss.map Value.text, w.isScalar = true := by
      rw [List.forall_mem_map]
      exact fun s _ => rfl
    refine hasSummary_of_plain (w := .list (ss.map .text)) ?_ ?_ ?_ fun v hv => Value.not_part_list hv hscalar
    · rcases ht with ht | ht <;> simp [ht]
    · rcases ht with ht | ht <;> rw [Token.properties?, ht]
    · rcases ht with ht | ht <;> rw [Token.summaryValue, ht] <;> rfl

/-- Every argument has a summary, if it has a token. -/
theorem Argument.hasSummary {a : Argument} {source : String} {t : Token} (h : a.token source = .ok t) :
    ∃ s, t.HasSummary s := by
  cases a with
  | columns first more =>
    rw [token_columns] at h
    cases h
    exact hasSummary_items (fun l literal => hasSummary_texts (.inl ⟨_, .inr rfl⟩))
      (fun ls literal => hasSummary_texts (.inr ⟨_, .inr rfl⟩))
  | texts first more =>
    rw [token_texts] at h
    cases h
    exact hasSummary_items (fun l literal => hasSummary_texts (.inl ⟨_, .inl rfl⟩))
      (fun ls literal => hasSummary_texts (.inr ⟨_, .inl rfl⟩))
  | numbers first more =>
    rw [token_numbers] at h
    cases h
    refine hasSummary_items (fun l literal => ?_) (fun ls literal => ?_)
    · obtain ⟨w, hw, hscalar⟩ := l.exists_summary
      exact hasSummary_of_plain (by simp) rfl hw fun v hv => Value.not_part_of_isScalar hv hscalar
    · have hall : ∀ n ∈ ls.map Lexeme.numeric, ∃ w : Value, n.summary = .ok w ∧ w.isScalar = true := by
        rw [List.forall_mem_map]
        exact fun l _ => l.exists_summary
      obtain ⟨ws, hws, -, hscalars⟩ := exists_mapM hall
      have hscalar : ∀ w ∈ ws, w.isScalar = true := by
        intro w hw
        obtain ⟨n, -, hn⟩ := hscalars w hw
        exact hn
      have hvalue : Token.summaryValue ⟨.numericList (ls.map Lexeme.numeric), literal⟩ = .ok (.list ws) := by
        change ((ls.map Lexeme.numeric).mapM Numeric.summary).map Value.list = _
        rw [hws]
        rfl
      exact hasSummary_of_plain (by simp) rfl hvalue fun v hv => Value.not_part_list hv hscalar
  | quantity kind l =>
    obtain ⟨q, hq, rfl⟩ := token_quantity.mp h
    have hnumeric := numeric_of_ofText hq
    cases kind with
    | size => exact hasSummary_quantity (.inl rfl) hnumeric
    | time => exact hasSummary_quantity (.inr rfl) hnumeric
  | malformed l => cases h
  | word l =>
    cases htruth : l.truth? with
    | none =>
      rw [token_word htruth] at h
      cases h
      exact hasSummary_texts (.inl ⟨_, .inl rfl⟩)
    | some b =>
      rw [token.eq_def] at h
      dsimp only at h
      rw [htruth] at h
      cases h
      exact hasSummary_of_plain (w := .bool b) (by simp) rfl rfl fun v hv => Value.not_part_of_isScalar hv rfl
  | properties opening entries closing =>
    rw [token_properties] at h
    cases h
    exact hasSummary_properties rfl

end Script

/-! ## Recipes -/

open Script

theorem exists_of_mem_mapM {α β ε : Type} {f : α → Except ε β} {xs : List α} {ys : List β} (h : xs.mapM f = .ok ys)
    {y : β} (hy : y ∈ ys) : ∃ x ∈ xs, f x = .ok y := by
  induction xs generalizing ys with
  | nil =>
    cases h
    cases hy
  | cons x xs ih =>
    rw [List.mapM_cons, bind_eq_ok_iff] at h
    obtain ⟨y', hy', h⟩ := h
    obtain ⟨ys', hys', h⟩ := bind_eq_ok_iff.mp h
    cases h
    rcases List.mem_cons.mp hy with rfl | hy
    · exact ⟨x, List.mem_cons_self, hy'⟩
    · obtain ⟨x', hx', h⟩ := ih hys' hy
      exact ⟨x', List.mem_cons_of_mem x hx', h⟩

variable {source : String} {r : Recipe} {g : TokenGroup} {t : Token}

/-- Every token of a recipe has a summary. -/
theorem Recipe.hasSummary (hr : ofText source = .ok r) (hg : g ∈ r.groups) (ht : t ∈ g.tokens) :
    ∃ s, t.HasSummary s := by
  obtain ⟨script, -, hr⟩ := ofText_eq_ok.mp hr
  rcases mem_groups hr hg with hempty | ⟨name, args, ts, -, hts, rfl⟩
  · cases hempty
  · rcases List.mem_cons.mp ht with rfl | ht
    · exact Token.hasSummary_of_plain (w := .text name.text) (fun q => by simp [Token.of]) rfl rfl
        fun v hv => Value.not_part_of_isScalar hv rfl
    · obtain ⟨a, -, ha⟩ := exists_of_mem_mapM hts ht
      exact Argument.hasSummary ha

/-! ## Arguments -/

/-- What is bound to a slot is an argument or a default. -/
theorem TokenGroup.mem_of_bind {u : UsageDefinition} {a : Arguments} (h : g.bind u = .ok a) {e : String × Token}
    (he : e ∈ a.tokens) : e.2 ∈ g.arguments ∨ ∃ slot ∈ u.slots, slot.default? = some e.2 := by
  obtain ⟨bound, hbound, -, rfl⟩ := TokenGroup.bind_eq_ok.mp h
  obtain ⟨-, rfl⟩ := Binding.bindSlots_eq_ok.mp hbound
  rcases List.mem_append.mp (Mapping.mem_of_mem_ofEntries he) with he | he
  · obtain ⟨i, hi⟩ := List.mem_iff_getElem?.mp he
    obtain ⟨slot, t, -, ht, rfl⟩ := List.getElem?_zipWith_eq_some.mp hi
    exact .inl (List.mem_of_getElem? ht)
  · obtain ⟨slot, hslot, hentry⟩ := List.mem_filterMap.mp he
    obtain ⟨t, ht, rfl⟩ := Option.map_eq_some_iff.mp hentry
    exact .inr ⟨slot, List.mem_of_mem_drop hslot, ht⟩

/-- The summary of bound tokens is made of their summaries. -/
theorem Arguments.exists_summary {a : Arguments} (h : ∀ e ∈ a.tokens, ∃ s, e.2.HasSummary s) :
    ∃ s, a.summary = .ok s ∧ ∀ v : Value, v.isForeign = true →
      (v.Part (.map s) ↔ ∃ e ∈ a.tokens, ∃ d, v = .decimal d ∧ e.2.Holds v) := by
  have hsteps : ∀ e ∈ a.tokens, ∃ y : String × Value, (do return (e.1, .map (← e.2.summary))) = Except.ok y ∧
      ∀ v : Value, v.isForeign = true → (v.Part y.2 ↔ ∃ d, v = .decimal d ∧ e.2.Holds v) := by
    intro e he
    obtain ⟨s, hs⟩ := h e he
    exact ⟨(e.1, .map s), by rw [hs.eq]; rfl, hs.foreign⟩
  obtain ⟨s, hs, hleft, hright⟩ := exists_mapM hsteps
  refine ⟨s, hs, fun v hv => ?_⟩
  rw [Value.part_map]
  constructor
  · rintro (rfl | ⟨y, hy, hpart⟩)
    · cases hv
    · obtain ⟨e, he, hpart_iff⟩ := hright y hy
      exact ⟨e, he, (hpart_iff v hv).mp hpart⟩
  · rintro ⟨e, he, hdecimal⟩
    obtain ⟨y, hy, hpart_iff⟩ := hleft e he
    exact .inr ⟨y, hy, (hpart_iff v hv).mpr hdecimal⟩

/-- The tokens of a recipe have summaries, and so have the arguments that are bound to the slots of a usage whose
defaults have them. The only values in them that JSON lacks are the decimals of properties. -/
theorem summaries_of_ofText (hr : Recipe.ofText source = .ok r) (hg : g ∈ r.groups) :
    (∀ t ∈ g.tokens, ∃ s, t.HasSummary s) ∧
    ∀ (u : UsageDefinition) (a : Arguments), (∀ slot ∈ u.slots, ∀ t ∈ slot.default?, ∃ s, t.HasSummary s) →
      g.bind u = .ok a → ∃ s, a.summary = .ok s ∧ ∀ v : Value, v.isForeign = true →
        (v.Part (.map s) ↔ ∃ e ∈ a.tokens, ∃ d, v = .decimal d ∧ e.2.Holds v) := by
  have htokens : ∀ t ∈ g.tokens, ∃ s, t.HasSummary s := fun t ht => Recipe.hasSummary hr hg ht
  refine ⟨htokens, fun u a hdefaults ha => Arguments.exists_summary fun e he => ?_⟩
  rcases TokenGroup.mem_of_bind ha he with hargument | ⟨slot, hslot, hdefault⟩
  · exact htokens e.2 (List.mem_cons_of_mem _ hargument)
  · exact hdefaults slot hslot e.2 hdefault

/-- The decimals among the properties of a token. -/
def Token.decimals (t : Token) : List Decimal :=
  (t.properties?.getD []).filterMap fun e => match e.2 with
    | .decimal d => some d
    | _ => none

theorem Token.holds_of_mem_decimals {d : Decimal} (h : d ∈ t.decimals) : t.Holds (.decimal d) := by
  unfold Token.decimals at h
  cases hentries : t.properties? with
  | none =>
    rw [hentries] at h
    cases h
  | some entries =>
    rw [hentries] at h
    obtain ⟨e, he, hd⟩ := List.mem_filterMap.mp h
    refine ⟨entries, e.1, hentries, ?_⟩
    split at hd
    · next d' hvalue =>
      cases hd
      rw [← hvalue]
      exact he
    · cases hd

/-- A recipe with a decimal as an argument, in a list and as a property. -/
def priced : String := "price 0.50 1,2.5 10MB prop:\x7brate=1.5, code='x'\x7d"

/-- The tokens of its statement, by the decimals in their properties. -/
theorem decimals_priced : ∃ r g, Recipe.ofText priced = .ok r ∧ g ∈ r.groups ∧
    g.tokens.map Token.decimals = [[], [], [], [], [.finite false 15 (-1)]] := by
  have hgroups : (Recipe.ofText priced).toOption.map (fun r => r.groups.map fun g => g.tokens.map Token.decimals) =
      some [[[], [], [], [], [.finite false 15 (-1)]]] := by decide +kernel
  obtain ⟨r, hr, hr'⟩ := exists_eq_ok_of_toOption _ _ hgroups
  obtain ⟨g, hg, htokens⟩ := List.map_eq_singleton_iff.mp hr'
  exact ⟨r, g, hr, by rw [hg]; exact List.mem_singleton_self g, htokens⟩

theorem summaries_of_ofText_priced : ∃ r g, Recipe.ofText priced = .ok r ∧ g ∈ r.groups ∧
    (∀ t ∈ g.tokens, ∃ s, t.HasSummary s) ∧
    ∀ (u : UsageDefinition) (a : Arguments), (∀ slot ∈ u.slots, ∀ t ∈ slot.default?, ∃ s, t.HasSummary s) →
      g.bind u = .ok a → ∃ s, a.summary = .ok s ∧ ∀ v : Value, v.isForeign = true →
        (v.Part (.map s) ↔ ∃ e ∈ a.tokens, ∃ d, v = .decimal d ∧ e.2.Holds v) := by
  obtain ⟨r, g, hr, hg, -⟩ := decimals_priced
  exact ⟨r, g, hr, hg, summaries_of_ofText hr hg⟩

/-- A decimal in properties is left in the summary of the token. -/
theorem decimal_in_summary : ∃ r g t s, Recipe.ofText priced = .ok r ∧ g ∈ r.groups ∧ t ∈ g.tokens ∧
    t.summary = .ok s ∧ Value.Part (.decimal (.finite false 15 (-1))) (.map s) := by
  obtain ⟨r, g, hr, hg, htokens⟩ := decimals_priced
  have hmem : [.finite false 15 (-1)] ∈ g.tokens.map Token.decimals := by rw [htokens]; simp
  obtain ⟨t, ht, hdecimals⟩ := List.mem_map.mp hmem
  obtain ⟨s, hs⟩ := Recipe.hasSummary hr hg ht
  have hholds : t.Holds (.decimal (.finite false 15 (-1))) :=
    Token.holds_of_mem_decimals (by rw [hdecimals]; exact List.mem_singleton_self _)
  exact ⟨r, g, t, s, hr, hg, ht, hs.eq, (hs.foreign _ rfl).mpr ⟨_, rfl, hholds⟩⟩

end RowRecipe
