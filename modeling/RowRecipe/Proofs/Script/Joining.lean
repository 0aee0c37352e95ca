import RowRecipe.Proofs.Script.Excerpt

/-!
# Joined recipes

Two recipes make up one recipe, with a line end between their texts. It says what the first one says and then
what the second one says, further down.
-/

namespace RowRecipe.Recipe

open Grammar Script

variable {r q : Recipe}

/-- What two recipes say together, if the second one starts behind `lines` lines. -/
def followedBy (r : Recipe) (lines : Nat) (q : Recipe) : Recipe :=
  { groups := r.groups ++ q.groups.map fun g => { g with line := g.line + lines }
    version := q.version <|> r.version
    loadable := (r.loadable ++ q.loadable).eraseDups }

theorem eraseDups_of_nodup {names : List String} (h : names.Nodup) : names.eraseDups = names := by
  induction names with
  | nil => rfl
  | cons n names ih =>
    rw [List.nodup_cons] at h
    have hfilter : names.filter (fun m => !m == n) = names := by
      rw [List.filter_eq_self]
      intro m hm
      rw [Bool.not_eq_true', beq_eq_false_iff_ne]
      rintro rfl
      exact h.1 hm
    rw [List.eraseDups_cons, hfilter, ih h.2]

theorem nodup_eraseDups (names : List String) : names.eraseDups.Nodup := by
  cases names with
  | nil => exact List.nodup_nil
  | cons n names =>
    rw [List.eraseDups_cons, List.nodup_cons, List.mem_eraseDups]
    exact ⟨by simp, nodup_eraseDups (names.filter fun m => !m == n)⟩
termination_by names.length
decreasing_by exact Nat.lt_succ_of_le (List.length_filter_le _ _)

theorem empty_followedBy (h : q.loadable.Nodup) : empty.followedBy 0 q = q := by
  simp [followedBy, empty, eraseDups_of_nodup h]

theorem followedBy_empty (h : r.loadable.Nodup) (lines : Nat) : r.followedBy lines empty = r := by
  simp [followedBy, empty, eraseDups_of_nodup h]

theorem followedBy_declare (r q : Recipe) (lines : Nat) (name : String) :
    (r.followedBy lines q).declare name = r.followedBy lines (q.declare name) := by
  have hmore : (r.loadable ++ q.loadable ++ [name]).eraseDups =
      if name ∈ r.loadable ++ q.loadable then (r.loadable ++ q.loadable).eraseDups
      else (r.loadable ++ q.loadable).eraseDups ++ [name] := by
    rw [List.eraseDups_append, List.removeAll, List.filter_singleton, List.elem_eq_contains]
    by_cases hname : name ∈ r.loadable ++ q.loadable
    · rw [if_pos hname, List.contains_iff_mem.mpr hname]
      exact List.append_nil _
    · have hnot : (r.loadable ++ q.loadable).contains name = false := by
        rwa [← Bool.not_eq_true, List.contains_iff_mem]
      rw [if_neg hname, hnot]
      rfl
  unfold declare
  by_cases hq : name ∈ q.loadable
  · have hall : (r.followedBy lines q).loadable.contains name = true := by
      simp [followedBy, hq]
    rw [if_pos hall, if_pos (List.contains_iff_mem.mpr hq)]
  · have hq' : ¬q.loadable.contains name = true := by
      rwa [List.contains_iff_mem]
    rw [if_neg hq']
    by_cases hr : name ∈ r.loadable
    · have hall : (r.followedBy lines q).loadable.contains name = true := by
        simp [followedBy, hr]
      rw [if_pos hall, followedBy, followedBy, ← List.append_assoc, hmore, if_pos (List.mem_append_left _ hr)]
    · have hall : ¬(r.followedBy lines q).loadable.contains name = true := by
        simp [followedBy, hr, hq]
      rw [if_neg hall, followedBy, followedBy, ← List.append_assoc, hmore, if_neg (by simp [hr, hq])]

theorem followedBy_foldl_declare (r q : Recipe) (lines : Nat) (p : Place) (ls : List Lexeme) :
    (ls.map (Lexeme.within p)).foldl (fun r l => r.declare l.text) (r.followedBy lines q) =
      r.followedBy lines (ls.foldl (fun r l => r.declare l.text) q) := by
  induction ls generalizing q with
  | nil => rfl
  | cons l ls ih => rw [List.map_cons, List.foldl_cons, List.foldl_cons, Lexeme.within_text, followedBy_declare, ih]

theorem lastOf_within (p : Place) (name : Lexeme) (args : List Argument) :
    lastOf (name.within p) (args.map (Argument.within p)) = (lastOf name args).within p := by
  rw [lastOf, lastOf, List.getLast?_map]
  cases args.getLast? with
  | none => rfl
  | some a =>
    cases a with
    | columns first more | texts first more | numbers first more =>
      change (more.map (Lexeme.within p)).getLastD (first.within p) = (more.getLastD first).within p
      rw [List.getLastD_eq_getLast?, List.getLastD_eq_getLast?, List.getLast?_map, Option.getD_map]
    | _ => rfl

theorem lastOf_stop_le {n : Nat} {name : Lexeme} {args : List Argument}
    (h : (Statement.directive name args).EndsBy n) : (lastOf name args).stop ≤ n := by
  rw [lastOf]
  cases ha : args.getLast? with
  | none => exact h.1
  | some a => exact h.2 a (List.mem_of_getLast? ha)

section

variable {before cs after : List Char}

/-- A directive has the group in the whole text that it has in the stretch alone, further down. -/
theorem groupOf_within {name : Lexeme} {args : List Argument}
    (h : (Statement.directive name args).EndsBy cs.length) (ts : List Token) :
    groupOf (String.ofList (before ++ cs ++ after)) (name.within (Place.origin.after before))
        (args.map (Argument.within (Place.origin.after before))) ts =
      { groupOf (String.ofList cs) name args ts with line := name.start.line + before.count '\n' } := by
  have hoffset : (Place.origin.after before).offset = before.length := by
    rw [Place.after_offset]
    exact Nat.zero_add _
  have hline : (Place.origin.after before).line - 1 = before.count '\n' := by
    rw [Place.after_line]
    exact Nat.add_sub_cancel_left 1 _
  have hslice := slice_within before after name.start.offset (lastOf_stop_le h)
  have hstart : (name.within (Place.origin.after before)).start.offset = before.length + name.start.offset := by
    rw [← hoffset]
    rfl
  have hplace : (name.within (Place.origin.after before)).start.line = name.start.line + before.count '\n' := by
    rw [← hline, Nat.add_comm]
    rfl
  simp only [groupOf, lastOf_within, Lexeme.within_stop, Lexeme.within_text, hoffset, hstart, hplace, hslice,
    Int.natCast_add]

/-- A statement says in the whole text what it says in the stretch alone, further down. -/
theorem extend_within (r : Recipe) {st : Statement} (hst : st.EndsBy cs.length) {out : Recipe}
    (h : extend (String.ofList cs) q st = .ok out) :
    extend (String.ofList (before ++ cs ++ after)) (r.followedBy (before.count '\n') q)
        (st.within (Place.origin.after before)) = .ok (r.followedBy (before.count '\n') out) := by
  have hoffset : (Place.origin.after before).offset = before.length := by
    rw [Place.after_offset]
    exact Nat.zero_add _
  cases st with
  | version number =>
    cases h
    rfl
  | load names =>
    cases h
    exact congrArg Except.ok (followedBy_foldl_declare r q _ _ names)
  | directive name args =>
    obtain ⟨ts, hts, rfl⟩ := extend_directive_eq_ok h
    rw [Statement.within, extend_directive _ _ ((tokens_within hoffset hst.2).mpr hts), groupOf_within hst]
    simp [followedBy, groupOf]

variable (before after) in
/-- The statements of a stretch say in the whole text what they say alone, further down. -/
theorem foldlM_within (r : Recipe) {sts : List Statement} (hsts : ∀ st ∈ sts, st.EndsBy cs.length) {out : Recipe}
    (h : sts.foldlM (extend (String.ofList cs)) q = .ok out) :
    (sts.map (Statement.within (Place.origin.after before))).foldlM (extend (String.ofList (before ++ cs ++ after)))
        (r.followedBy (before.count '\n') q) = .ok (r.followedBy (before.count '\n') out) := by
  induction sts generalizing q with
  | nil =>
    cases h
    rfl
  | cons st sts ih =>
    rw [List.forall_mem_cons] at hsts
    obtain ⟨q', hst, h⟩ := foldlM_cons_eq_ok.mp h
    exact foldlM_cons_eq_ok.mpr ⟨_, extend_within r hsts.1 hst, ih hsts.2 h⟩

theorem endsBy_of_mem_locate {ps : List Piece} {st : Statement} (h : st ∈ (ofLexemes (locate .origin ps)).statements) :
    st.EndsBy (Piece.textOf ps).length := by
  refine endsBy_of_mem_statements (fun l hl => ?_) h
  have hstop := stop_le_of_mem_locate hl
  rwa [Place.origin, Nat.zero_add] at hstop

variable (before after) in
/-- What a stretch of a text says alone, it says behind whatever comes before it. -/
theorem foldlM_locate (hr : r.loadable.Nodup) {ps : List Piece}
    (h : (ofLexemes (locate .origin ps)).statements.foldlM (extend (String.ofList (Piece.textOf ps))) empty = .ok q) :
    (ofLexemes (locate (Place.origin.after before) ps)).statements.foldlM
        (extend (String.ofList (before ++ Piece.textOf ps ++ after))) r = .ok (r.followedBy (before.count '\n') q) := by
  have hfold := foldlM_within before after r (fun st => endsBy_of_mem_locate) h
  rwa [followedBy_empty hr, ← statements_within, ← locate_after] at hfold

variable (before after) in
/-- What comes before a stretch neither gives it a meaning nor takes one away. -/
theorem foldlM_locate_iff (hr : r.loadable.Nodup) (ps : List Piece) (out : Recipe) :
    (ofLexemes (locate (Place.origin.after before) ps)).statements.foldlM
        (extend (String.ofList (before ++ Piece.textOf ps ++ after))) r = .ok out ↔
      ∃ q, (ofLexemes (locate .origin ps)).statements.foldlM
          (extend (String.ofList (Piece.textOf ps))) empty = .ok q ∧
        out = r.followedBy (before.count '\n') q := by
  constructor
  · intro hout
    have hstatements := hout
    rw [locate_after, statements_within] at hstatements
    have hoffset : (Place.origin.after before).offset = before.length := by
      rw [Place.after_offset]
      exact Nat.zero_add _
    have htokens : ∀ name args, .directive name args ∈ (ofLexemes (locate .origin ps)).statements →
        ∃ ts, args.mapM (Argument.token (String.ofList (Piece.textOf ps))) = .ok ts := by
      intro name args hst
      obtain ⟨ts, hts⟩ := exists_tokens hstatements (List.mem_map_of_mem hst)
      exact ⟨ts, (tokens_within hoffset (endsBy_of_mem_locate hst).2).mp hts⟩
    obtain ⟨q, hq⟩ := exists_foldlM htokens empty
    rw [foldlM_locate before after hr hq] at hout
    exact ⟨q, hq, (Except.ok.inj hout).symm⟩
  · rintro ⟨q, hq, rfl⟩
    exact foldlM_locate before after hr hq

end

/-! ## Two texts in a row -/

theorem statements_append (ls ks : List Lexeme) {l : Lexeme} (hl : l.terminal = .separator) :
    (ofLexemes (ls ++ l :: ks)).statements = (ofLexemes ls).statements ++ (ofLexemes ks).statements := by
  have hsplit := List.splitOnP_append_cons (p := (·.terminal == .separator)) ls ks (beq_iff_eq.mpr hl)
  simp only [ofLexemes, hsplit, List.filterMap_append]

/-- Two recipes with a line end between them are one recipe. The groups of the second one come behind those of
the first one, as many lines further down as the first one has; names are declared once; and the version is
the last one declared. -/
theorem ofText_join {first second : String} (hr : ofText first = .ok r) (hq : ofText second = .ok q) :
    ofText (first ++ "\n" ++ second) = .ok
      { groups := r.groups ++ q.groups.map fun g => { g with line := g.line + (first.toList.count '\n' + 1) }
        version := q.version <|> r.version
        loadable := (r.loadable ++ q.loadable).eraseDups } := by
  obtain ⟨_, hread, hr⟩ := ofText_eq_ok.mp hr
  obtain ⟨ps, hps, rfl⟩ := read_eq_ok.mp hread
  obtain ⟨_, hread, hq⟩ := ofText_eq_ok.mp hq
  obtain ⟨qs, hqs, rfl⟩ := read_eq_ok.mp hread
  have htext : (first ++ "\n" ++ second).toList = first.toList ++ '\n' :: second.toList := by
    simp
  have hscanned := hps.append_line hqs
  rw [← htext] at hscanned
  refine ofText_eq_ok.mpr ⟨_, read_eq_ok.mpr ⟨_, hscanned, rfl⟩, ?_⟩
  have hsource (source : String) : String.ofList source.toList = source := String.ofList_toList
  rw [← hsource first, ← hps.text] at hr
  rw [← hsource second, ← hqs.text] at hq
  have hnodup : r.loadable.Nodup := nodup_loadable hr List.nodup_nil
  -- the first text starts where the whole text starts, the second one behind the line end
  have hfirst := foldlM_locate [] ('\n' :: second.toList) (r := empty) List.nodup_nil hr
  have hsecond := foldlM_locate (first.toList ++ ['\n']) [] hnodup hq
  rw [List.count_nil, empty_followedBy hnodup] at hfirst
  have hwhole : first.toList ++ ['\n'] ++ second.toList ++ [] = (first ++ "\n" ++ second).toList := by
    simp
  have hlines : (first.toList ++ ['\n']).count '\n' = first.toList.count '\n' + 1 := by
    simp
  rw [hps.text, List.nil_append, ← htext, hsource] at hfirst
  rw [hqs.text, hwhole, hsource, hlines] at hsecond
  have hlocate : locate (Place.origin.after first.toList) (⟨some .separator, ['\n']⟩ :: qs) =
      ⟨.separator, String.ofList ['\n'], Place.origin.after first.toList⟩ ::
        locate (Place.origin.after (first.toList ++ ['\n'])) qs := by
    rw [Place.after_append]
    rfl
  rw [locate_append, hps.text, hlocate, statements_append _ _ rfl, List.foldlM_append]
  have hfirst : (ofLexemes (locate .origin ps)).statements.foldlM (extend (first ++ "\n" ++ second)) empty = .ok r :=
    hfirst
  rw [hfirst]
  exact hsecond

/-- A recipe that ends in a comment. -/
def declaring : String :=
  "#pragma version 1.9; #pragma load-directives parse-x, trim\nparse-x :body 'a\nb' // done"

/-- A recipe that starts with an empty line. -/
def redeclaring : String :=
  "\n#pragma load-directives trim, crop\ncrop prop:\x7b from = 1 \x7d; trim :body"

theorem ofText_declaring_redeclaring : ∃ r q, ofText declaring = .ok r ∧ ofText redeclaring = .ok q ∧
    ofText (declaring ++ "\n" ++ redeclaring) = .ok
      { groups := r.groups ++ q.groups.map fun g => { g with line := g.line + (declaring.toList.count '\n' + 1) }
        version := q.version <|> r.version
        loadable := (r.loadable ++ q.loadable).eraseDups } := by
  have hfirst : (ofText declaring).isOk = true := by decide +kernel
  have hsecond : (ofText redeclaring).isOk = true := by decide +kernel
  cases hr : ofText declaring with
  | error e =>
    rw [hr] at hfirst
    cases hfirst
  | ok r =>
    cases hq : ofText redeclaring with
    | error e =>
      rw [hq] at hsecond
      cases hsecond
    | ok q => exact ⟨r, q, rfl, rfl, ofText_join hr hq⟩

example : (ofText (declaring ++ "\n" ++ redeclaring)).toOption.map (fun r => (r.groups.map (·.line), r.version, r.loadable)) =
    some ([2, 6, 6], some "1.9", ["parse-x", "trim", "crop"]) := by
  decide +kernel

end RowRecipe.Recipe
