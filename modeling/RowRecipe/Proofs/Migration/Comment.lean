import Mathlib.Data.List.DropRight
import RowRecipe.Proofs.Migration.Plain
import RowRecipe.Proofs.Migration.Preservation

/-!
# Comments on a line

The grammar ignores a comment wherever it starts. Migration looks for a comment only where a piece starts, so it leaves
a comment as it is behind a blank or a semicolon, but not behind a word: there the slashes belong to the word, and
migration goes on in the comment.
-/

namespace RowRecipe.Migration

open Grammar

variable {known : Option Registry} {standing : Standing} {c : Char} {u v l : List Char}

/-- A part of a line in which no text, no braces and no comment start. -/
structure IsOpen (cs : List Char) : Prop where
  newline : '\n' ∉ cs
  quote : '\'' ∉ cs
  double : '"' ∉ cs
  brace : '\x7b' ∉ cs
  slashes : ¬ "//".toList <:+: cs

/-- Whether a piece that is bare may go on behind a text. -/
def endsBare (cs : List Char) : Bool :=
  cs.getLast?.any isBare

namespace IsOpen

theorem of_infix (h : IsOpen u) (hv : v <:+: u) : IsOpen v where
  newline hc := h.newline (hv.subset hc)
  quote hc := h.quote (hv.subset hc)
  double hc := h.double (hv.subset hc)
  brace hc := h.brace (hv.subset hc)
  slashes hs := h.slashes (hs.trans hv)

theorem blank_or_semicolon_or_bare (h : IsOpen u) (hc : c ∈ u) :
    Text.isBlank c = true ∨ c = ';' ∨ isBare c = true := by
  have hne {d : Char} (hd : d ∉ u) : c ≠ d := fun he => hd (he ▸ hc)
  by_cases hblank : Text.isBlank c = true
  · exact .inl hblank
  by_cases hsemi : c = ';'
  · exact .inr (.inl hsemi)
  rw [Bool.not_eq_true] at hblank
  exact .inr (.inr (isBare_iff.mpr ⟨hblank, hsemi, hne h.quote, hne h.double, hne h.brace⟩))

end IsOpen

theorem endsBare_append (hv : v ≠ []) : endsBare (u ++ v) = endsBare v := by
  rw [endsBare, List.getLast?_append_of_ne_nil u hv, endsBare]

theorem endsBare_of_append (h : endsBare (u ++ v) = false) : endsBare v = false := by
  by_cases hv : v = []
  · rw [hv]
    rfl
  · rwa [endsBare_append hv] at h

theorem endsBare_of_forall (hne : v ≠ []) (hv : ∀ c ∈ v, isBare c = true) : endsBare v = true := by
  rw [endsBare, List.getLast?_eq_some_getLast hne]
  exact hv _ (List.getLast_mem hne)

theorem endsBare_rdropWhile (cs : List Char) : endsBare (cs.rdropWhile isBare) = false := by
  rw [endsBare, Option.any_eq_false]
  intro d hd
  obtain ⟨hne, rfl⟩ := List.mem_getLast?_eq_getLast hd
  exact eq_false_of_ne_true (List.rdropWhile_last_not isBare cs hne)

/-! ## Up to a comment -/

/-- What migration goes over first in a part of a line that ends between pieces. -/
theorem exists_update_first (known : Option Registry) (standing : Standing) (h : IsOpen (c :: u))
    (hend : endsBare (c :: u) = false) : ∃ w v x standing', c :: u = w ++ v ∧ w ≠ [] ∧
      ∀ cs, update known standing (w ++ (v ++ cs)) = x ++ update known standing' (v ++ cs) := by
  rcases h.blank_or_semicolon_or_bare List.mem_cons_self with hblank | rfl | hbare
  · have hn : c ≠ '\n' := fun hn => h.newline (List.mem_cons.mpr (.inl hn.symm))
    exact ⟨[c], u, [c], standing, rfl, List.cons_ne_nil _ _, fun _ => update_between hn fun _ => pieceCut?_blank hblank⟩
  · exact ⟨[';'], u, [';'], .name, rfl, List.cons_ne_nil _ _, fun _ => update_semicolon⟩
  · have hsplit : c :: u = c :: u.takeWhile isBare ++ u.dropWhile isBare := by
      rw [List.cons_append, List.takeWhile_append_dropWhile]
    have hw : ∀ d ∈ c :: u.takeWhile isBare, isBare d = true :=
      List.forall_mem_cons.mpr ⟨hbare, fun _ => List.mem_takeWhile_imp⟩
    have hslash : ¬ "//".toList <+: c :: u.takeWhile isBare := by
      intro hs
      apply h.slashes
      rw [hsplit]
      exact hs.isInfix.trans (List.prefix_append _ _).isInfix
    -- the run ends within the part, for the part does not end in it
    obtain ⟨d, v, hv⟩ : ∃ d v, u.dropWhile isBare = d :: v := by
      rw [← List.ne_nil_iff_exists_cons]
      intro hnil
      rw [hsplit, hnil, List.append_nil, endsBare_of_forall (List.cons_ne_nil _ _) hw] at hend
      cases hend
    have hd : isBare d = false := head?_dropWhile (p := isBare) u d (by rw [hv]; rfl)
    refine ⟨_, _, _, _, hsplit, List.cons_ne_nil _ _, fun cs => update_run (List.cons_ne_nil _ _) hw hslash ?_⟩
    rw [hv]
    rintro _ ⟨⟩
    exact hd

/-- Migration goes over a part of a line that ends between pieces, whatever follows. -/
theorem exists_update_append (known : Option Registry) (standing : Standing) (h : IsOpen u)
    (hend : endsBare u = false) : ∃ x standing', ∀ cs,
      update known standing (u ++ cs) = x ++ update known standing' cs := by
  induction hlength : u.length using Nat.strong_induction_on generalizing u standing with
  | _ n ih =>
    cases u with
    | nil => exact ⟨[], standing, fun _ => rfl⟩
    | cons c u =>
      obtain ⟨w, v, x, between, hsplit, hne, hfirst⟩ := exists_update_first known standing h hend
      rw [hsplit] at h hend hlength
      have hshort : v.length < n := by
        rw [← hlength, List.length_append]
        exact Nat.lt_add_of_pos_left (List.length_pos_iff.mpr hne)
      obtain ⟨y, standing', hrest⟩ :=
        ih _ hshort between (h.of_infix (List.suffix_append w v).isInfix) (endsBare_of_append hend) rfl
      refine ⟨x ++ y, standing', fun cs => ?_⟩
      rw [hsplit, List.append_assoc, hfirst, hrest, List.append_assoc]

theorem lineOf_eq_self (hn : '\n' ∉ l) : lineOf l = l :=
  List.takeWhile_eq_self_iff.mpr (bne_newline hn)

theorem update_eq_line (hn : '\n' ∉ l) : update known .name l = line known l := by
  have hfollowing : followingLines l = [] := by
    have hfollowing : followingLines (l ++ []) = followingLines [] := followingLines_append hn
    rwa [List.append_nil] at hfollowing
  rw [update, lineOf_eq_self hn, hfollowing, line_eq]
  exact List.append_nil _

/-- A line behind a part that ends between pieces is updated on its own. -/
theorem exists_line_append (known : Option Registry) (h : IsOpen u) (hend : endsBare u = false) :
    ∃ standing, ∀ cs, '\n' ∉ cs → line known (u ++ cs) = line known u ++ update known standing cs := by
  obtain ⟨x, standing, hupdate⟩ := exists_update_append known .name h hend
  have hx : line known u = x := by
    have hnil := hupdate []
    rwa [update_nil, List.append_nil, List.append_nil, update_eq_line h.newline] at hnil
  refine ⟨standing, fun cs hcs => ?_⟩
  have hn : '\n' ∉ u ++ cs := by
    rw [List.mem_append, not_or]
    exact ⟨h.newline, hcs⟩
  rw [← update_eq_line hn, hupdate, hx]

/-! ## A comment -/

/-- A comment where a piece may start stays as it is. -/
theorem update_comment_line (hn : '\n' ∉ l) :
    update known standing ("//".toList ++ l) = "//".toList ++ l := by
  have hcomment : '\n' ∉ "//".toList ++ l := by simp [hn]
  have hnil : ("//".toList ++ l).dropWhile (· != '\n') = [] := List.dropWhile_eq_nil_iff.mpr (bne_newline hcomment)
  rw [update_comment standing (List.isPrefixOf_iff_prefix.mpr (List.prefix_append _ _)), lineOf_eq_self hcomment, hnil,
    update_nil, List.append_nil]

/-- A statement in a comment that migration changes, whatever usages it knows. -/
def remark : List Char :=
  "; x ,".toList

theorem currentForm_comma (accepts : List TokenType) : currentForm accepts [','] = "','".toList := by
  have hword : isBareWord [','] = false := by decide +kernel
  have hlist : columnList? [','] = none := by decide +kernel
  have hmark : isPunctuation [','] = true := by decide +kernel
  simp only [currentForm, hword, hlist, hmark, Bool.and_false, Bool.false_and, Bool.false_eq_true, ite_self, if_false,
    if_true]
  rfl

theorem update_remark : update known standing remark = "; x ','".toList := by
  have hremark : remark = ';' :: ' ' :: (['x'] ++ ' ' :: ([','] ++ [])) := rfl
  have hblank {standing : Standing} (cs : List Char) :
      update known standing (' ' :: cs) = ' ' :: update known standing cs :=
    update_between (by decide) fun _ => pieceCut?_blank (by decide)
  have hname : isName ['x'] = true := by decide +kernel
  have hbare : ∀ c ∈ [','], isBare c = true := List.forall_mem_singleton.mpr (by decide)
  rw [hremark, update_semicolon, hblank, update_directive hname (by simp; decide), hblank,
    update_bare (List.cons_ne_nil _ _) hbare (by decide) (by simp), currentForm_comma, update_nil]
  rfl

/-- A comment right behind a word goes on as a statement. -/
theorem line_glued (known : Option Registry) {w : List Char} (h : IsOpen (u ++ w))
    (hend : endsBare u = false) (hne : w ≠ []) (hw : ∀ c ∈ w, isBare c = true)
    (hslash : w.getLast? ≠ some '/') : ∃ x, line known (u ++ w ++ "//".toList ++ remark) = x ++ "; x ','".toList := by
  have hbare : ∀ c ∈ w ++ "//".toList, isBare c = true :=
    List.forall_mem_append.mpr ⟨hw, List.all_eq_true.mp (by decide)⟩
  have hprefix : ¬ "//".toList <+: w ++ "//".toList := by
    intro hs
    match w with
    | [d] => exact hslash (congrArg some (List.cons_prefix_cons.mp hs).1.symm)
    | d :: e :: w =>
      have hword : "//".toList <+: d :: e :: w :=
        List.prefix_of_prefix_length_le hs (List.prefix_append _ _) (by simp)
      exact h.slashes (hword.isInfix.trans (List.suffix_append _ _).isInfix)
  have hn : '\n' ∉ w ++ "//".toList ++ remark := by
    rw [List.mem_append, not_or]
    exact ⟨newline_not_mem_of_isBare hbare, by decide⟩
  obtain ⟨standing, hline⟩ := exists_line_append known (h.of_infix (List.prefix_append u w).isInfix) hend
  have hrun : update known standing (w ++ "//".toList ++ remark) = _ :=
    update_run (by simp) hbare hprefix (by simp [remark]; decide)
  rw [update_remark] at hrun
  exact ⟨_, by rw [List.append_assoc, List.append_assoc, ← List.append_assoc w, hline _ hn, hrun, ← List.append_assoc]⟩

/-- In a line without texts and braces, migration leaves every comment as it is if and only if the line in front of it
ends between pieces. -/
theorem line_comment_iff (known : Option Registry) (h : IsOpen l) (hslash : l.getLast? ≠ some '/') :
    (∀ c, '\n' ∉ c → line known (l ++ "//".toList ++ c) = line known l ++ "//".toList ++ c) ↔
      endsBare l = false := by
  constructor
  · intro hinert
    by_contra hend
    rw [Bool.not_eq_false] at hend
    have hsplit : l.rdropWhile isBare ++ l.rtakeWhile isBare = l := List.rdropWhile_append_rtakeWhile
    have hne : l.rtakeWhile isBare ≠ [] := by
      intro hnil
      rw [hnil, List.append_nil] at hsplit
      rw [← hsplit, endsBare_rdropWhile] at hend
      cases hend
    rw [← hsplit] at h hslash
    rw [List.getLast?_append_of_ne_nil _ hne] at hslash
    obtain ⟨x, hglued⟩ :=
      line_glued known h (endsBare_rdropWhile l) hne (fun _ => List.mem_rtakeWhile_imp) hslash
    rw [hsplit, hinert remark (by decide)] at hglued
    -- the comment ends in a comma, what becomes of it in a quote
    have hcomma : remark ≠ [] := by decide
    have hquote : "; x ','".toList ≠ [] := by decide
    have hlast := congrArg List.getLast? hglued
    rw [List.getLast?_append_of_ne_nil _ hcomma, List.getLast?_append_of_ne_nil _ hquote] at hlast
    exact absurd hlast (by decide)
  · intro hend c hc
    obtain ⟨standing, hline⟩ := exists_line_append known h hend
    have hn : '\n' ∉ "//".toList ++ c := by simp [hc]
    rw [List.append_assoc, hline _ hn, update_comment_line hc, List.append_assoc]

theorem isOpen_renaming : IsOpen "rename a b; ".toList where
  newline := by decide
  quote := by decide
  double := by decide
  brace := by decide
  slashes := by decide +kernel

/-- Nothing in a comment behind a semicolon and a blank is migrated. -/
theorem line_comment_renaming : IsOpen "rename a b; ".toList ∧ "rename a b; ".toList.getLast? ≠ some '/' ∧
    line (some .builtin) ("rename a b; ".toList ++ "//".toList ++ "/ it's; drop c , \x7b;".toList) =
      line (some .builtin) "rename a b; ".toList ++ "//".toList ++ "/ it's; drop c , \x7b;".toList := by
  have hslash : "rename a b; ".toList.getLast? ≠ some '/' := by decide +kernel
  exact ⟨isOpen_renaming, hslash,
    (line_comment_iff (some .builtin) isOpen_renaming hslash).mpr (by decide +kernel) _ (by decide +kernel)⟩

/-- The grammar ignores a comment behind a word. Migration takes the slashes for a part of the word, which it leaves as
it is, and it changes the statement in the comment. -/
theorem comment_migrated :
    (Recipe.ofText "rename a b//; drop c").toOption.map (·.groups.map fun g => g.arguments.map appearance) =
        some [[(.text, "a"), (.text, "b")]] ∧
      line (some .builtin) "rename a b".toList = "rename :a :b".toList ∧
      line (some .builtin) "rename a b//; drop c".toList = "rename :a b//; drop :c".toList ∧
      line (some .builtin) "rename a b//; drop c".toList ≠
        line (some .builtin) "rename a b".toList ++ "//; drop c".toList := by
  decide +kernel

end RowRecipe.Migration
