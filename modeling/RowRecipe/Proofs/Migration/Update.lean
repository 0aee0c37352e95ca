import RowRecipe.Proofs.Migration.Insertion

/-!
# Updating a text from left to right

Migration goes line by line. Here it is one walk over the whole text, piece by piece, with the standing
that the next piece has. The same walk says which arguments migration sees.
-/

namespace RowRecipe.Migration

open Grammar Script

/-! ## The current line and the following ones -/

section Lines

variable {u cs : List Char}

/-- The text up to the end of the line. -/
def lineOf (cs : List Char) : List Char :=
  cs.takeWhile (· != '\n')

/-- The lines behind the first one. -/
def followingLines (cs : List Char) : List (List Char) :=
  match cs.dropWhile (· != '\n') with
  | [] => []
  | _ :: cs => Text.lines cs

theorem lines_eq (cs : List Char) : Text.lines cs = lineOf cs :: followingLines cs := by
  induction cs with
  | nil => rfl
  | cons c cs ih =>
    rw [Text.lines]
    split
    next hc =>
      subst hc
      rfl
    next hc =>
      have hc : (c != '\n') = true := bne_iff_ne.mpr hc
      rw [ih]
      simp [lineOf, followingLines, hc]

theorem bne_newline (h : '\n' ∉ u) : ∀ c ∈ u, (c != '\n') = true := by
  intro c hc
  rw [bne_iff_ne]
  rintro rfl
  exact h hc

theorem lineOf_append (h : '\n' ∉ u) : lineOf (u ++ cs) = u ++ lineOf cs :=
  List.takeWhile_append_of_pos (bne_newline h)

theorem followingLines_append (h : '\n' ∉ u) : followingLines (u ++ cs) = followingLines cs := by
  rw [followingLines, List.dropWhile_append_of_pos (bne_newline h), followingLines]

/-- A line starts like the text. -/
theorem head?_of_head?_lineOf {c : Char} (h : (lineOf cs).head? = some c) : cs.head? = some c := by
  cases cs with
  | nil => cases h
  | cons d ds =>
    rw [lineOf, List.takeWhile_cons] at h
    split at h
    next => exact h
    next => cases h

theorem newline_not_mem_lineOf : '\n' ∉ lineOf cs := by
  intro h
  simpa using List.mem_takeWhile_imp h

theorem lineOf_append_dropWhile : lineOf cs ++ cs.dropWhile (· != '\n') = cs :=
  List.takeWhile_append_dropWhile

/-- At the end of a line nothing of the line is left, and the same lines follow. -/
theorem lineOf_dropWhile : lineOf (cs.dropWhile (· != '\n')) = [] ∧
    followingLines (cs.dropWhile (· != '\n')) = followingLines cs := by
  have hhead := head?_dropWhile (p := (· != '\n')) cs
  cases h : cs.dropWhile (· != '\n') with
  | nil => simp [followingLines, lineOf, h]
  | cons c ds =>
    rw [h] at hhead
    have hc : (c != '\n') = false := hhead c rfl
    simp [followingLines, lineOf, h, hc]

end Lines

/-! ## Pieces at the start of a line -/

section Pieces

variable {c : Char} {w l : List Char}

theorem parts_of_piece (h : pieceCut? (w ++ l) = some (w, l)) : parts (w ++ l) = .piece w :: parts l := by
  rw [parts]
  split
  next hcut =>
    rw [h] at hcut
    cases hcut
    rfl
  next hcut =>
    rw [h] at hcut
    cases hcut

theorem parts_of_between (h : pieceCut? (c :: l) = none) : parts (c :: l) = .between c :: parts l := by
  rw [parts]
  split
  next hcut =>
    rw [h] at hcut
    cases hcut
  next => rfl

theorem parts_nil : parts [] = [] := by
  rw [parts]
  rfl

theorem pieceCut?_eq (cs : List Char) : pieceCut? cs = (textCut? cs).or ((bracesCut? cs).or
    ((runCut? (· == ';') (fun _ => false) cs).or (runCut? isBare isBare cs))) := by
  simp only [pieceCut?, Option.orElse_eq_orElse, Option.orElse_eq_or]

theorem textCut?_eq_none (hc : (c == '\'' || c == '"') = false) : textCut? (c :: l) = none :=
  Terminal.cut?_eq_none_of_starts (t := .text) hc

theorem bracesCut?_eq_none (hc : c ≠ '\x7b') : bracesCut? (c :: l) = none := by
  rw [bracesCut?]
  simp [hc]

theorem runCut?_eq_none {first more : Char → Bool} (hc : first c = false) : runCut? first more (c :: l) = none := by
  simp [runCut?, hc]

theorem pieceCut?_quoted {rest : List Char} (h : textCut? (w ++ rest) = some (w, rest)) :
    pieceCut? (w ++ l) = some (w, l) := by
  rw [pieceCut?_eq, textCut?_followedBy h]
  rfl

theorem pieceCut?_braces (hw : '\x7d' ∉ w) :
    pieceCut? ('\x7b' :: (w ++ '\x7d' :: l)) = some ('\x7b' :: (w ++ ['\x7d']), l) := by
  have hw : ∀ c ∈ w, (c != '\x7d') = true := by
    intro c hc
    rw [bne_iff_ne]
    rintro rfl
    exact hw hc
  have hcut : bracesCut? ('\x7b' :: (w ++ '\x7d' :: l)) = some ('\x7b' :: (w ++ ['\x7d']), l) := by
    simp [bracesCut?, List.takeWhile_append_of_pos hw, List.dropWhile_append_of_pos hw]
  rw [pieceCut?_eq, textCut?_eq_none (by decide), hcut]
  rfl

theorem pieceCut?_semicolon : pieceCut? (';' :: l) = some ([';'], l) := by
  have hcut : runCut? (· == ';') (fun _ => false) (';' :: l) = some ([';'], l) := by
    cases l <;> rfl
  rw [pieceCut?_eq, textCut?_eq_none (by decide), bracesCut?_eq_none (by decide), hcut]
  rfl

theorem isBare_iff : isBare c = true ↔
    Text.isBlank c = false ∧ c ≠ ';' ∧ c ≠ '\'' ∧ c ≠ '"' ∧ c ≠ '\x7b' := by
  simp [isBare, and_assoc]

theorem pieceCut?_bare (hne : w ≠ []) (hw : ∀ c ∈ w, isBare c = true) (hl : ∀ c ∈ l.head?, isBare c = false) :
    pieceCut? (w ++ l) = some (w, l) := by
  obtain ⟨c, w, rfl⟩ := List.exists_cons_of_ne_nil hne
  rw [List.forall_mem_cons] at hw
  obtain ⟨_, hsemi, hquote, hdouble, hbrace⟩ := isBare_iff.mp hw.1
  rw [pieceCut?_eq, List.cons_append, textCut?_eq_none (by simp [hquote, hdouble]), bracesCut?_eq_none hbrace,
    runCut?_eq_none (by simp [hsemi]), runCut?, if_pos hw.1, takeWhile_append_of_head hl,
    dropWhile_append_of_head hl, List.takeWhile_eq_self_iff.mpr hw.2, List.dropWhile_eq_nil_iff.mpr hw.2]
  rfl

/-- No piece starts with a blank. -/
theorem pieceCut?_blank (hc : Text.isBlank c = true) : pieceCut? (c :: l) = none := by
  have hne {d : Char} (hd : Text.isBlank d = false) : c ≠ d := by
    rintro rfl
    rw [hc] at hd
    cases hd
  have hquote : c ≠ '\'' := hne (by decide)
  have hdouble : c ≠ '"' := hne (by decide)
  have hsemi : c ≠ ';' := hne (by decide)
  rw [pieceCut?_eq, textCut?_eq_none (by simp [hquote, hdouble]), bracesCut?_eq_none (hne (by decide)),
    runCut?_eq_none (by simp [hsemi]), runCut?_eq_none (by simp [isBare, hc])]
  rfl

end Pieces

/-! ## The walk -/

/-- An argument as migration sees it: its place, the usage of its statement, if it is known, its index, and
its text. -/
structure Sighting where
  start : Place
  usage? : Option UsageDefinition
  index : Nat
  text : List Char

/-- A piece as an argument, if it stands where arguments stand. -/
def Standing.sighting? (standing : Standing) (place : Place) (text : List Char) : Option Sighting :=
  match standing with
  | argument usage? index => if text = [';'] then none else some ⟨place, usage?, index, text⟩
  | _ => none

/-- Whether two slashes stand in a text, one right behind the other. -/
def hasSlashes : List Char → Bool
  | '/' :: '/' :: _ => true
  | _ :: cs => hasSlashes cs
  | [] => false

/-- Whether a comment starts within a bare piece. -/
def endsInComment (text : List Char) : Bool :=
  text.head?.any isBare && hasSlashes text

/-- The arguments that migration sees among the parts of a line, up to a comment. -/
def sightings (known : Option Registry) : Place → Standing → List Part → List Sighting
  | _, _, [] => []
  | place, standing, .between c :: ps => sightings known (place.next c) standing ps
  | place, standing, .piece text :: ps =>
    if "//".toList.isPrefixOf text then []
    else (standing.sighting? place text).toList ++
      if endsInComment text then [] else sightings known (place.after text) (standing.next known text) ps

/-- The arguments that migration sees in lines, the first of which starts at the place. -/
def sightingsFrom (known : Option Registry) : Place → List (List Char) → List Sighting
  | _, [] => []
  | place, l :: ls =>
    sightings known place .name (parts l) ++ sightingsFrom known ((place.after l).next '\n') ls

variable (known : Option Registry)

/-- Updates a text from a place at which a piece may start. -/
def update (standing : Standing) (cs : List Char) : List Char :=
  (updateParts known standing (parts (lineOf cs))).flatten ++
    (followingLines cs).flatMap fun l => '\n' :: line known l

/-- Every argument that migration sees in the text, which starts at the place, satisfies `P`. -/
structure Covers (P : Sighting → Prop) (place : Place) (standing : Standing) (cs : List Char) : Prop where
  current : ∀ x ∈ sightings known place standing (parts (lineOf cs)), P x
  following : ∀ x ∈ sightingsFrom known ((place.after (lineOf cs)).next '\n') (followingLines cs), P x

variable {known} {standing : Standing} {P : Sighting → Prop} {place : Place} {c : Char} {w cs : List Char}

/-- Migrating all lines is one walk. -/
theorem unlines_lines_eq_update (cs : List Char) :
    Text.unlines ((Text.lines cs).map (line known)) = update known .name cs := by
  have hjoin (l : List Char) (ls : List (List Char)) :
      Text.unlines (l :: ls) = l ++ ls.flatMap ('\n' :: ·) := by
    induction ls generalizing l with
    | nil => simp [Text.unlines]
    | cons l' ls ih => rw [Text.unlines, ih, List.flatMap_cons, List.cons_append]; simp
  rw [lines_eq, List.map_cons, hjoin, List.flatMap_map, line_eq]
  rfl

theorem update_nil : update known standing [] = [] := by
  rw [update, lineOf, List.takeWhile_nil, parts_nil]
  rfl

theorem update_newline : update known standing ('\n' :: cs) = '\n' :: update known .name cs := by
  have hline : lineOf ('\n' :: cs) = [] := rfl
  have hfollow : followingLines ('\n' :: cs) = Text.lines cs := rfl
  rw [update, hline, hfollow, parts_nil, lines_eq, List.flatMap_cons, line_eq]
  rfl

theorem Covers.newline (h : Covers known P place standing ('\n' :: cs)) :
    Covers known P (place.next '\n') .name cs := by
  have hfollow : followingLines ('\n' :: cs) = lineOf cs :: followingLines cs := lines_eq cs
  have hline : lineOf ('\n' :: cs) = [] := rfl
  have hnext : place.after [] = place := rfl
  have h := h.following
  rw [hfollow, hline, hnext, sightingsFrom, List.forall_mem_append] at h
  exact ⟨h.1, h.2⟩

/-- What is left of a line is updated, whatever stands behind it. -/
theorem update_line (standing' : Standing) : update known standing cs =
    (updateParts known standing (parts (lineOf cs))).flatten ++
      update known standing' (cs.dropWhile (· != '\n')) := by
  rw [update, update, lineOf_dropWhile.1, lineOf_dropWhile.2, parts_nil]
  rfl

theorem Covers.line (h : Covers known P place standing cs) (standing' : Standing) :
    Covers known P (place.after (lineOf cs)) standing' (cs.dropWhile (· != '\n')) := by
  constructor
  · rw [lineOf_dropWhile.1, parts_nil]
    rintro _ ⟨⟩
  · rw [lineOf_dropWhile.1, lineOf_dropWhile.2]
    exact h.following

theorem update_between (hn : c ≠ '\n') (hc : ∀ l, pieceCut? (c :: l) = none) :
    update known standing (c :: cs) = c :: update known standing cs := by
  have hnl : '\n' ∉ [c] := by simpa using Ne.symm hn
  rw [update, ← List.singleton_append, lineOf_append hnl, followingLines_append hnl, List.singleton_append,
    parts_of_between (hc _), updateParts]
  rfl

theorem Covers.between (h : Covers known P place standing (c :: cs)) (hn : c ≠ '\n')
    (hc : ∀ l, pieceCut? (c :: l) = none) : Covers known P (place.next c) standing cs := by
  have hnl : '\n' ∉ [c] := by simpa using Ne.symm hn
  obtain ⟨hcurrent, hfollowing⟩ := h
  rw [← List.singleton_append, lineOf_append hnl, List.singleton_append] at hcurrent hfollowing
  rw [parts_of_between (hc _)] at hcurrent
  rw [followingLines_append hnl] at hfollowing
  exact ⟨hcurrent, hfollowing⟩

/-- Blanks stay as they are. -/
theorem update_blanks {u : List Char} (hu : ∀ c ∈ u, Text.isBlank c = true) (hn : '\n' ∉ u) :
    update known standing (u ++ cs) = u ++ update known standing cs := by
  induction u with
  | nil => rfl
  | cons c u ih =>
    rw [List.forall_mem_cons] at hu
    rw [List.mem_cons, not_or] at hn
    rw [List.cons_append, update_between (Ne.symm hn.1) fun l => pieceCut?_blank hu.1, ih hu.2 hn.2]
    rfl

theorem Covers.blanks {u : List Char} (h : Covers known P place standing (u ++ cs))
    (hu : ∀ c ∈ u, Text.isBlank c = true) (hn : '\n' ∉ u) : Covers known P (place.after u) standing cs := by
  induction u generalizing place with
  | nil => exact h
  | cons c u ih =>
    rw [List.forall_mem_cons] at hu
    rw [List.mem_cons, not_or] at hn
    exact ih (h.between (Ne.symm hn.1) fun l => pieceCut?_blank hu.1) hu.2 hn.2

theorem update_piece (hn : '\n' ∉ w) (hw : pieceCut? (w ++ lineOf cs) = some (w, lineOf cs))
    (hslash : "//".toList.isPrefixOf w = false) :
    update known standing (w ++ cs) = standing.updated w ++ update known (standing.next known w) cs := by
  rw [update, lineOf_append hn, followingLines_append hn, parts_of_piece hw, updateParts_piece hslash,
    List.flatten_cons, List.append_assoc]
  rfl

theorem Covers.piece (h : Covers known P place standing (w ++ cs)) (hn : '\n' ∉ w)
    (hw : pieceCut? (w ++ lineOf cs) = some (w, lineOf cs)) (hslash : "//".toList.isPrefixOf w = false) :
    (∀ x ∈ standing.sighting? place w, P x) ∧
      (endsInComment w = false → Covers known P (place.after w) (standing.next known w) cs) := by
  obtain ⟨hcurrent, hfollowing⟩ := h
  rw [lineOf_append hn] at hcurrent hfollowing
  rw [parts_of_piece hw, sightings, if_neg (by rw [hslash]; exact Bool.false_ne_true)] at hcurrent
  rw [followingLines_append hn, Place.after_append] at hfollowing
  constructor
  · intro x hx
    exact hcurrent x (List.mem_append_left _ (Option.mem_toList.mpr hx))
  · intro hend
    refine ⟨fun x hx => hcurrent x (List.mem_append_right _ ?_), hfollowing⟩
    rw [if_neg (by rw [hend]; exact Bool.false_ne_true)]
    exact hx

/-- A comment that starts at a piece stays as it is. -/
theorem update_comment (standing' : Standing) (hw : "//".toList.isPrefixOf cs = true) :
    update known standing cs = lineOf cs ++ update known standing' (cs.dropWhile (· != '\n')) := by
  obtain ⟨ds, rfl⟩ := List.isPrefixOf_iff_prefix.mp hw
  have hslash : isBare '/' = true := by decide
  have hline : lineOf ("//".toList ++ ds) = "//".toList ++ lineOf ds := lineOf_append (by decide)
  -- the piece that starts the comment
  have hsplit := List.takeWhile_append_dropWhile (p := isBare) (l := lineOf ds)
  have hcut := pieceCut?_bare (w := "//".toList ++ (lineOf ds).takeWhile isBare) (by simp)
    (by
      intro c hc
      rcases List.mem_append.mp hc with hc | hc
      · simp only [String.reduceToList, List.mem_cons, List.not_mem_nil, or_false, or_self] at hc
        exact hc ▸ hslash
      · exact List.mem_takeWhile_imp hc)
    (head?_dropWhile (p := isBare) (lineOf ds))
  rw [update_line standing', hline, ← hsplit, ← List.append_assoc, parts_of_piece hcut,
    updateParts_comment (List.isPrefixOf_iff_prefix.mpr (List.prefix_append _ _)), List.flatten_cons,
    ← List.flatMap_def, parts_text]

end RowRecipe.Migration
