import RowRecipe.Proofs.Migration.Reading
import RowRecipe.Proofs.Script.Apart
import RowRecipe.Proofs.Script.VersionPragma

/-!
# Headings

A heading is a text of whole statements that stands in front of a recipe, on its first line. It is read as it stands,
and the recipe behind it says what it says alone: nothing moves to another line, and nothing is read that is not read
without the heading.
-/

namespace RowRecipe.Recipe

open Grammar Script Migration

variable {w cs : List Char} {r q out : Recipe}

/-! ## Reading behind a heading -/

/-- A text on one line that is read, whatever follows it, as statements that say `r`. -/
structure Heading (w : List Char) (r : Recipe) : Prop where
  line : '\n' ∉ w
  takes (cs : List Char) : ∃ us, Takes .statement (w ++ cs) (us ++ [⟨some .separator, [';']⟩]) .statement cs ∧
    ∀ source, (ofLexemes (locate .origin us)).statements.foldlM (extend source) empty = .ok r

namespace Heading

/-- The statements behind a heading are folded onto what the heading says. -/
theorem ofText_eq_ok (h : Heading w r) : ofText (String.ofList (w ++ cs)) = .ok out ↔
    ∃ ps, Scanned .statement cs ps ∧ (ofLexemes (locate (Place.origin.after w) ps)).statements.foldlM
      (extend (String.ofList (w ++ cs))) r = .ok out := by
  obtain ⟨us, htakes, hmeaning⟩ := h.takes cs
  have htext : w = Piece.textOf us ++ [';'] := by
    have htext := List.append_cancel_right htakes.text
    rwa [Piece.textOf_append, Piece.textOf_singleton] at htext
  have hstatements (ps : List Piece) :
      (ofLexemes (locate .origin (us ++ [⟨some .separator, [';']⟩] ++ ps))).statements =
        (ofLexemes (locate .origin us)).statements ++ (ofLexemes (locate (Place.origin.after w) ps)).statements := by
    have hseparator := statements_append (l := ⟨.separator, ";", Place.origin.after (Piece.textOf us)⟩)
      (locate .origin us) (locate (Place.origin.after w) ps) rfl
    rw [← hseparator, List.append_assoc, locate_append, htext, Place.after_append]
    rfl
  have hfold (ps : List Piece) (source : String) :
      (ofLexemes (locate .origin (us ++ [⟨some .separator, [';']⟩] ++ ps))).statements.foldlM (extend source) empty =
        (ofLexemes (locate (Place.origin.after w) ps)).statements.foldlM (extend source) r := by
    rw [hstatements, List.foldlM_append, hmeaning]
    rfl
  rw [ofText_ofList_eq_ok]
  constructor
  · rintro ⟨qs, hqs, hout⟩
    obtain ⟨ps, rfl, hps⟩ := htakes.scanned_iff.mp hqs
    exact ⟨ps, hps, (hfold ps _).symm.trans hout⟩
  · rintro ⟨ps, hps, hout⟩
    exact ⟨_, htakes.scanned hps, (hfold ps _).trans hout⟩

theorem nodup (h : Heading w r) : r.loadable.Nodup := by
  obtain ⟨us, -, hmeaning⟩ := h.takes []
  exact nodup_loadable (hmeaning "") List.nodup_nil

/-- Statements behind a heading and a blank say what they say alone, on the same lines. -/
theorem foldlM_behind (h : Heading w r) {ps : List Piece} (hps : Scanned .statement cs ps) :
    (ofLexemes (locate (Place.origin.after (w ++ [' '])) ps)).statements.foldlM
        (extend (String.ofList (w ++ ' ' :: cs))) r = .ok out ↔
      ∃ q, (ofLexemes (locate .origin ps)).statements.foldlM (extend (String.ofList cs)) empty = .ok q ∧
        out = r.followedBy 0 q := by
  have hline : (w ++ [' ']).count '\n' = 0 := by
    rw [List.count_eq_zero, List.mem_append, not_or]
    exact ⟨h.line, by decide⟩
  have hsource : w ++ [' '] ++ cs ++ [] = w ++ ' ' :: cs := by simp
  have hlocate := foldlM_locate_iff (w ++ [' ']) [] h.nodup ps out
  rwa [hline, hps.text, hsource] at hlocate

/-- A recipe is read behind a heading and a blank if and only if it is read alone. The heading says its part first, and
the lines stay as they are. -/
theorem ofText_blank_eq_ok (h : Heading w r) : ofText (String.ofList (w ++ ' ' :: cs)) = .ok out ↔
    ∃ q, ofText (String.ofList cs) = .ok q ∧ out = r.followedBy 0 q := by
  have hafter : (Place.origin.after w).next ' ' = Place.origin.after (w ++ [' ']) := by
    rw [Place.after_append]
    rfl
  rw [h.ofText_eq_ok]
  constructor
  · rintro ⟨qs, hqs, hout⟩
    obtain ⟨ps, hps, hlocate⟩ := scanned_of_blank hqs
    rw [hlocate, hafter] at hout
    obtain ⟨q, hq, rfl⟩ := (h.foldlM_behind hps).mp hout
    exact ⟨q, ofText_ofList_eq_ok.mpr ⟨ps, hps, hq⟩, rfl⟩
  · rintro ⟨q, hq, rfl⟩
    obtain ⟨ps, hps, hq⟩ := ofText_ofList_eq_ok.mp hq
    obtain ⟨qs, hqs, hlocate⟩ := scanned_blank hps
    refine ⟨qs, hqs, ?_⟩
    rw [hlocate, hafter]
    exact (h.foldlM_behind hps).mpr ⟨q, hq, rfl⟩

end Heading

/-! ## The pragmas that are put in front of a recipe -/

theorem heading_version : Heading "#pragma version 2.0;".toList { empty with version := some Dialect.target } where
  line := by decide
  takes cs := ⟨(pragmaPieces []).dropLast, takes_pragmaPieces cs, fun _ => rfl⟩

variable {n : List Char} {ms : List (List Char)} {names : List String}

/-- Names with commas and blanks between them. -/
def joinedNames (ns : List (List Char)) : List Char :=
  [',', ' '].intercalate ns

theorem joinedNames_cons_cons (n m : List Char) (ms : List (List Char)) :
    joinedNames (n :: m :: ms) = n ++ ',' :: ' ' :: joinedNames (m :: ms) := by
  simp [joinedNames, List.intercalate_cons_cons]

theorem joinedNames_singleton (n : List Char) : joinedNames [n] = n :=
  List.intercalate_singleton

theorem of_mem_joinedNames {ns : List (List Char)} (hns : ∀ n ∈ ns, isName n = true) {c : Char}
    (h : c ∈ joinedNames ns) : c = ',' ∨ c = ' ' ∨ isLexical c = true := by
  have hname {n : List Char} (hn : isName n = true) (hc : c ∈ n) : isLexical c = true :=
    isLexical_of_isBareWord (isBareWord_of_isName hn) c hc
  induction ns with
  | nil => cases h
  | cons n ns ih =>
    rw [List.forall_mem_cons] at hns
    cases ns with
    | nil =>
      rw [joinedNames_singleton] at h
      exact .inr (.inr (hname hns.1 h))
    | cons m ms =>
      rw [joinedNames_cons_cons, List.mem_append, List.mem_cons, List.mem_cons] at h
      rcases h with h | rfl | rfl | h
      · exact .inr (.inr (hname hns.1 h))
      · exact .inl rfl
      · exact .inr (.inl rfl)
      · exact ih hns.2 h

/-- Names do not start with a blank. -/
theorem not_isGapBlank_joinedNames (hn : isName n = true) (ms : List (List Char)) (ds : List Char) :
    ∀ c ∈ (joinedNames (n :: ms) ++ ds).head?, isGapBlank c = false := by
  obtain ⟨c, v, rfl, hc, -⟩ := exists_of_isName hn
  have hhead : (joinedNames ((c :: v) :: ms) ++ ds).head? = some c := by
    cases ms with
    | nil => rw [joinedNames_singleton]; rfl
    | cons m ms => rw [joinedNames_cons_cons]; rfl
  rw [hhead]
  rintro _ ⟨⟩
  rw [← Bool.not_eq_true]
  intro hblank
  have hlexical := isLexical_of_isNameStart hc
  rw [not_isLexical_of_isGapBlank hblank] at hlexical
  cases hlexical

/-- The pieces of names. -/
def namePieces : List Char → List (List Char) → List Piece
  | n, [] => [⟨some .name, n⟩]
  | n, m :: ms => ⟨some .name, n⟩ :: ⟨some .comma, [',']⟩ :: ⟨none, [' ']⟩ :: namePieces m ms

theorem takes_namePieces (hn : isName n = true) (hms : ∀ m ∈ ms, isName m = true) (cs : List Char) :
    Takes .loadName (joinedNames (n :: ms) ++ ';' :: cs) (namePieces n ms) .loadEnd (';' :: cs) := by
  have hstep {n ds : List Char} {c : Char} (hn : isName n = true) (hc : isLexical c = false) :
      State.loadName.step? (n ++ c :: ds) = some (⟨some .name, n⟩, .loadEnd, c :: ds) := by
    have hd : Delimits (c :: ds) := by
      rintro _ ⟨⟩
      exact hc
    refine State.step?_of_only rfl (nameCut?_of_isName hn hd) fun u hu => .inl ?_
    cases u <;> first | rfl | exact absurd rfl hu
  have hcomma (more : List Char) : State.loadEnd.step? (',' :: more) = some (⟨some .comma, [',']⟩, .loadName, more) :=
    State.step?_closed rfl rfl (show Terminal.comma.cut? [','] = some ([','], []) from rfl) more
  induction ms generalizing n with
  | nil =>
    rw [joinedNames_singleton]
    exact .cons (hstep hn (isLexical_mark (by decide))) .nil
  | cons m ms ih =>
    rw [List.forall_mem_cons] at hms
    have hmore := Takes.blank (not_isGapBlank_joinedNames hms.1 ms _) (ih hms.1 hms.2)
    rw [joinedNames_cons_cons, List.append_assoc]
    exact .cons (hstep hn (isLexical_mark (by decide))) (.cons (hcomma _) hmore)

theorem terminal?_of_mem_namePieces {p : Piece} (h : p ∈ namePieces n ms) :
    p.terminal? = some .name ∨ p.terminal? = some .comma ∨ p.terminal? = none := by
  induction ms generalizing n with
  | nil =>
    obtain rfl := List.mem_singleton.mp h
    exact .inl rfl
  | cons m ms ih =>
    simp only [namePieces, List.mem_cons] at h
    rcases h with rfl | rfl | rfl | h
    · exact .inl rfl
    · exact .inr (.inl rfl)
    · exact .inr (.inr rfl)
    · exact ih h

theorem texts_locate_namePieces (place : Place) (n : List Char) (ms : List (List Char)) :
    ((locate place (namePieces n ms)).filter (·.terminal == .name)).map (·.text) = (n :: ms).map String.ofList := by
  induction ms generalizing n place with
  | nil => rfl
  | cons m ms ih =>
    rw [List.map_cons, ← ih (((place.after n).after [',']).after [' '])]
    rfl

/-- A pragma that declares names, with its semicolon. -/
def loadPragma (ns : List (List Char)) : List Char :=
  "#pragma".toList ++ ' ' :: ("load-directives".toList ++ ' ' :: (joinedNames ns ++ [';']))

theorem loadPragma_append (ns : List (List Char)) (cs : List Char) : loadPragma ns ++ cs =
    "#pragma".toList ++ ' ' :: ("load-directives".toList ++ ' ' :: (joinedNames ns ++ ';' :: cs)) := by
  have hassoc (u v x : List Char) :
      u ++ ' ' :: (v ++ ' ' :: (x ++ [';'])) ++ cs = u ++ ' ' :: (v ++ ' ' :: (x ++ ';' :: cs)) := by simp
  exact hassoc _ _ _

/-- The pieces in front of the names. -/
def loadWords : List Piece :=
  [⟨some .pragmaWord, "#pragma".toList⟩, ⟨none, [' ']⟩, ⟨some .loadWord, "load-directives".toList⟩, ⟨none, [' ']⟩]

theorem takes_loadWords (hcs : ∀ c ∈ cs.head?, isGapBlank c = false) :
    Takes .statement ("#pragma".toList ++ ' ' :: ("load-directives".toList ++ ' ' :: cs)) loadWords .loadName cs := by
  have hword : State.pragma.step? ("load-directives".toList ++ ' ' :: cs) =
      some (⟨some .loadWord, "load-directives".toList⟩, .loadName, ' ' :: cs) := by
    refine State.step?_of_only rfl (wordCut?_eq_some.mpr ⟨rfl, rfl⟩) fun u hu => ?_
    cases u with
    | loadWord => exact absurd rfl hu
    | versionWord => exact .inr (Terminal.cut?_eq_none_of_starts rfl)
    | _ => exact .inl rfl
  have hhead : ∀ c ∈ ("load-directives".toList ++ ' ' :: cs).head?, isGapBlank c = false := by
    rintro _ ⟨⟩
    rfl
  exact (takes_pragmaWord hhead).append (.cons hword (.blank hcs .nil))

theorem takes_loadPragma (hn : isName n = true) (hms : ∀ m ∈ ms, isName m = true) (cs : List Char) :
    Takes .statement (loadPragma (n :: ms) ++ cs) (loadWords ++ namePieces n ms ++ [⟨some .separator, [';']⟩])
      .statement cs := by
  have hnames := (takes_namePieces hn hms cs).append (.semicolon rfl cs)
  have hwords := (takes_loadWords (not_isGapBlank_joinedNames hn ms (';' :: cs))).append hnames
  rw [loadPragma_append, List.append_assoc]
  exact hwords

/-- The pragma is one statement, which declares the names. -/
theorem statements_loadPragma (n : List Char) (ms : List (List Char)) :
    ∃ ls, (ofLexemes (locate .origin (loadWords ++ namePieces n ms))).statements = [.load ls] ∧
      ls.map (·.text) = (n :: ms).map String.ofList := by
  have hwords : locate .origin loadWords =
      [⟨.pragmaWord, "#pragma", .origin⟩, ⟨.loadWord, "load-directives", Place.origin.after "#pragma ".toList⟩] := rfl
  generalize hplace : Place.origin.after (Piece.textOf loadWords) = place
  have hnames : ∀ l ∈ locate place (namePieces n ms), l.terminal = .name ∨ l.terminal = .comma := by
    intro l hl
    obtain ⟨p, hp, ht⟩ := terminal_of_mem_locate hl
    rcases terminal?_of_mem_namePieces hp with h | h | h
    · exact .inl (Option.some.inj (ht.symm.trans h))
    · exact .inr (Option.some.inj (ht.symm.trans h))
    · rw [h] at ht
      cases ht
  have hseparator : ∀ l ∈ locate .origin loadWords ++ locate place (namePieces n ms),
      (l.terminal == .separator) = false := by
    rw [List.forall_mem_append, hwords]
    refine ⟨by simp, fun l hl => ?_⟩
    rcases hnames l hl with h | h <;> rw [h] <;> rfl
  have hversion : (locate place (namePieces n ms)).find? (·.terminal == .version) = none := by
    rw [List.find?_eq_none]
    intro l hl
    rcases hnames l hl with h | h <;> rw [h] <;> decide
  refine ⟨_, ?_, texts_locate_namePieces place n ms⟩
  rw [ofLexemes, locate_append, hplace, List.splitOnP_eq_singleton hseparator, hwords]
  simp [Statement.ofLexemes?, hversion]

/-- Names are declared each once. -/
theorem foldl_declare (h : r.loadable.Nodup) (ls : List Lexeme) : ls.foldl (fun r l => r.declare l.text) r =
    { r with loadable := (r.loadable ++ ls.map (·.text)).eraseDups } := by
  induction ls generalizing r with
  | nil =>
    rw [List.map_nil, List.append_nil, eraseDups_of_nodup h]
    rfl
  | cons l ls ih =>
    rw [List.foldl_cons, ih (declare_nodup h l.text), List.map_cons, declare]
    split
    next hmem =>
      rw [List.contains_iff_mem] at hmem
      simp [List.eraseDups_append, List.removeAll, hmem]
    next => simp

theorem newline_not_mem_loadPragma {ns : List (List Char)} (hns : ∀ n ∈ ns, isName n = true) :
    '\n' ∉ loadPragma ns := by
  intro hmem
  rcases List.mem_append.mp hmem with h | h
  · exact absurd h (by decide)
  rcases List.mem_cons.mp h with h | h
  · cases h
  rcases List.mem_append.mp h with h | h
  · exact absurd h (by decide)
  rcases List.mem_cons.mp h with h | h
  · cases h
  rcases List.mem_append.mp h with h | h
  · rcases of_mem_joinedNames hns h with h | h | h
    · cases h
    · cases h
    · exact absurd h (by decide +kernel)
  · exact absurd h (by decide)

/-- The pragma is a heading that declares the names, each once. -/
theorem heading_load {ns : List (List Char)} (hne : ns ≠ []) (hns : ∀ n ∈ ns, isName n = true) :
    Heading (loadPragma ns) { empty with loadable := (ns.map String.ofList).eraseDups } where
  line := newline_not_mem_loadPragma hns
  takes cs := by
    obtain ⟨n, ms, rfl⟩ := List.exists_cons_of_ne_nil hne
    have hall := List.forall_mem_cons.mp hns
    obtain ⟨ls, hls, hnames⟩ := statements_loadPragma n ms
    refine ⟨_, takes_loadPragma hall.1 hall.2 cs, fun source => ?_⟩
    have hdeclare := foldl_declare (r := empty) List.nodup_nil ls
    rw [hls, ← hnames]
    exact foldlM_cons_eq_ok.mpr ⟨_, rfl, congrArg Except.ok hdeclare⟩

/-! ## What a recipe says behind them -/

/-- The recipe with names declared in front of its own. -/
def declaredBefore (names : List String) (q : Recipe) : Recipe :=
  { q with loadable := (names ++ q.loadable).eraseDups }

theorem followedBy_names (q : Recipe) (names : List String) :
    followedBy { empty with loadable := names.eraseDups } 0 q = q.declaredBefore names := by
  have hmore : q.loadable.removeAll names.eraseDups = q.loadable.removeAll names := by
    simp [List.removeAll]
  have hnames : names.eraseDups.eraseDups = names.eraseDups := eraseDups_of_nodup (nodup_eraseDups names)
  simp [followedBy, declaredBefore, empty, List.eraseDups_append, hmore, hnames]

theorem followedBy_version (names : List String) (h : q.loadable.Nodup) (version : String) :
    followedBy { empty with version := some version } 0 (q.declaredBefore names) =
      (followedBy { empty with version := some version } 0 q).declaredBefore names := by
  have hnames : (names ++ q.loadable).eraseDups.eraseDups = (names ++ q.loadable).eraseDups :=
    eraseDups_of_nodup (nodup_eraseDups _)
  simp [followedBy, declaredBefore, empty, hnames, eraseDups_of_nodup h]

end RowRecipe.Recipe
