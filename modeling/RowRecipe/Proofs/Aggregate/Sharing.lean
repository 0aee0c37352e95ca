import Mathlib.Tactic.Abel
import RowRecipe.Proofs.Aggregate.Runs
import RowRecipe.Proofs.Directive.Link
import RowRecipe.Proofs.Pipeline.Arrivals

/-!
# Aggregations that share a store

All aggregations of a recipe add to the same entries of the store. At a boundary each makes its row of what all
of them have added until then: those before it and itself up to this batch, those behind it up to the batch
before. So the statements behind an aggregation do not show in its row as long as no aggregation among them has
received a row.
-/

namespace RowRecipe

open Pipeline (Request)

namespace Totals

instance : Zero Totals := ⟨⟨0, 0, 0⟩⟩

theorem zero_def : (0 : Totals) = ⟨0, 0, 0⟩ := rfl

instance : AddCommMonoid Totals where
  add_assoc := add_assoc
  zero_add t := by simp [zero_def, add_def]
  add_zero t := by simp [zero_def, add_def]
  add_comm t u := by simp [add_def, Nat.add_comm]
  nsmul := nsmulRec

/-- A store with these totals and nothing else. -/
def store (t : Totals) : Store :=
  ⟨[(Aggregate.totalSizeKey, .int t.size), (Aggregate.totalTimeKey, .int t.time),
    (Aggregate.rowCountKey, .int t.rows)], []⟩

end Totals

namespace Aggregate

variable {a : Aggregate} {s s' : Store} {t : Totals}

theorem holds_store (t : Totals) : Holds t.store t := ⟨rfl, rfl, rfl⟩

/-- A summary depends on nothing but the totals in the store. -/
theorem summary_eq_of_holds (h : Holds s t) (h' : Holds s' t) : a.summary s = a.summary s' := by
  have htotal (s : Store) (key : String) : (s.get? key (some .pipeline)).getD (.int 0) = s.total key := rfl
  simp only [summary, htotal, h.size, h.time, h.rows, h'.size, h'.time, h'.rows]

/-- Rows that are none leave the session as it is. -/
theorem execute_nil {context : Context} {s t : Session} {r : Except Failure (Option (List Row))}
    (h : a.execute context [] s = (r, t)) : t = s := by
  rw [execute_of_accumulateFrom (rfl : a.accumulateFrom 0 [] s = (.ok (), s))] at h
  split at h <;> cases h <;> rfl

end Aggregate

/-- A directive leaves the totals in the store as they are. -/
def Directive.Spares (d : Directive) : Prop :=
  ∀ context rows s out t, d.execute context rows s = (.ok (some out), t) →
    ∀ u, Aggregate.Holds s.store u → Aggregate.Holds t.store u

namespace Link

/-- What a statement adds to the totals on the rows it receives. -/
def totals : Link → List Row → Totals
  | aggregate a, rows => a.totals rows
  | _, _ => 0

/-- What the statements `ls` add, if `given` says which rows arrive behind the directives before each. -/
def sums (given : List Directive → List Row) : List Directive → List Link → Totals
  | _, [] => 0
  | front, l :: ls => l.totals (given front) + sums given (front ++ [l.toDirective]) ls

variable {context : Context} {rows mid out : List Row} {s t : Session}

theorem totals_append (l : Link) (xs ys : List Row) : l.totals (xs ++ ys) = l.totals xs + l.totals ys := by
  cases l with
  | aggregate a => exact a.totals_append xs ys
  | _ => exact (add_zero 0).symm

theorem totals_nil (l : Link) : l.totals [] = 0 := by
  cases l <;> rfl

theorem sums_append (f g : List Directive → List Row) (front : List Directive) (ls : List Link) :
    sums (fun ds => f ds ++ g ds) front ls = sums f front ls + sums g front ls := by
  induction ls generalizing front with
  | nil => exact (add_zero 0).symm
  | cons l ls ih =>
    simp only [sums, totals_append, ih]
    abel

theorem sums_eq_zero (f : List Directive → List Row) (front : List Directive) {ls : List Link}
    (h : ∀ ds, f ds = []) : sums f front ls = 0 := by
  induction ls generalizing front with
  | nil => rfl
  | cons l ls ih => rw [sums, h, totals_nil, ih, add_zero]

theorem sums_links (f : List Directive → List Row) (front : List Directive) (ls ms : List Link) :
    sums f front (ls ++ ms) = sums f front ls + sums f (front ++ ls.map toDirective) ms := by
  induction ls generalizing front with
  | nil => simp [sums]
  | cons l ls ih =>
    rw [List.cons_append, sums, sums, ih, add_assoc, List.map_cons, List.append_assoc]
    rfl

/-- No aggregation among the statements `ls` behind `front` is given a row. -/
def Unfed (given : List Directive → List Row) (front : List Directive) (ls : List Link) : Prop :=
  ∀ before b behind, ls = before ++ aggregate b :: behind → given (front ++ before.map toDirective) = []

theorem Unfed.tail {given : List Directive → List Row} {front : List Directive} {l : Link} {ls : List Link}
    (h : Unfed given front (l :: ls)) : Unfed given (front ++ [l.toDirective]) ls := by
  intro before b behind hls
  have := h (l :: before) b behind (by rw [hls, List.cons_append])
  rwa [List.map_cons, ← List.singleton_append, ← List.append_assoc] at this

/-! ## A batch -/

/-- Every statement adds to the totals what it should, if those of the host spare them. -/
theorem holds_execute {l : Link} (hl : ∀ d, l = host d → d.Spares) {u : Totals}
    (h : Aggregate.Holds s.store u) (hx : l.toDirective.execute context rows s = (.ok (some out), t)) :
    Aggregate.Holds t.store (u + l.totals rows) := by
  cases l with
  | step st =>
    obtain ⟨-, rfl⟩ := st.execute_eq_ok_iff.mp hx
    exact (add_zero u).symm ▸ h
  | aggregate a => exact (Aggregate.holds_of_execute h hx).2
  | host d => exact (add_zero u).symm ▸ hl d rfl _ _ _ _ _ hx u h

variable {p : Pipeline} {r : Request} {isLast : Bool} {front : List Directive} {ls : List Link}

theorem passes_concat {d : Directive} (h : Passes context front rows s mid t) {u : Session}
    (hd : d.execute context mid t = (.ok (some out), u)) : Passes context (front ++ [d]) rows s out u :=
  passes_append_iff.mpr ⟨mid, t, h, .cons hd .nil⟩

/-- What the statements behind `front` add in a batch. -/
theorem holds_passes (hls : ∀ d, host d ∈ ls → d.Spares) (hb : r.batch? = some (rows, isLast))
    (hfront : Passes (p.nextContext isLast) front rows p.nextSession mid s)
    (hp : Passes (p.nextContext isLast) (ls.map toDirective) mid s out t) {u : Totals}
    (h : Aggregate.Holds s.store u) :
    Aggregate.Holds t.store (u + sums (fun ds => p.arriving ds r) front ls) := by
  induction ls generalizing front mid s u with
  | nil =>
    cases hp
    exact (add_zero u).symm ▸ h
  | cons l ls ih =>
    cases hp with
    | cons first rest =>
      have hfirst := holds_execute (fun d hd => hls d (hd ▸ List.mem_cons_self)) h first
      rw [sums, Pipeline.arriving_of_passes hb hfront, ← add_assoc]
      exact ih (fun d hd => hls d (List.mem_cons_of_mem _ hd)) (passes_concat hfront first) rest hfirst

/-- Built-in statements without a fed aggregation leave the session as it is. -/
theorem session_of_unfed (hls : ∀ l ∈ ls, l.IsBuiltin) (hb : r.batch? = some (rows, isLast))
    (hfront : Passes (p.nextContext isLast) front rows p.nextSession mid s)
    (hp : Passes (p.nextContext isLast) (ls.map toDirective) mid s out t)
    (hu : Unfed (fun ds => p.arriving ds r) front ls) : t = s := by
  induction ls generalizing front mid s with
  | nil =>
    cases hp
    rfl
  | cons l ls ih =>
    cases hp with
    | @cons _ _ _ _ mid' s' _ _ first rest =>
      have hs : s' = s := by
        cases l with
        | step st => exact (st.execute_eq_ok_iff.mp first).2
        | aggregate b =>
          have hmid : mid = [] := by
            rw [← Pipeline.arriving_of_passes hb hfront, ← hu [] b ls rfl, List.map_nil, List.append_nil]
          subst hmid
          exact Aggregate.execute_nil first
        | host d => exact (hls _ List.mem_cons_self).elim
      rw [← hs]
      exact ih (fun l hl => hls l (List.mem_cons_of_mem _ hl)) (passes_concat hfront first) rest hu.tail

/-! ## A run -/

variable {p₀ : Pipeline}

/-- The invariant of one run: the store holds what the statements have added. -/
theorem holds_after (hls : ∀ d, host d ∈ ls → d.Spares) (hd : p₀.directives = ls.map toDirective)
    (hs : p₀.session = ⟨.empty, []⟩) (rs : List Request) (hready : (p₀.after rs).phase = .ready) :
    Aggregate.Holds (p₀.after rs).session.store (sums (fun ds => p₀.arrived ds rs) [] ls) := by
  induction rs using List.reverseRecOn with
  | nil =>
    have hnone : sums (fun ds => p₀.arrived ds []) [] ls = 0 := sums_eq_zero _ _ fun _ => rfl
    rw [Pipeline.after_nil, hs, hnone]
    exact ⟨rfl, rfl, rfl⟩
  | append_singleton rs r ih =>
    rw [Pipeline.after_concat] at hready ⊢
    obtain ⟨hprev, rows, isLast, out, hb, hp, -⟩ := Pipeline.ready_answer hready
    rw [(Pipeline.sameHost_after rs).directives, hd] at hp
    have := holds_passes hls hb .nil hp (Aggregate.holds_nextSession (ih hprev))
    simpa only [Pipeline.arrived_concat, sums_append] using this

/-- The invariant of two runs: without the statements behind `front`, as long as no aggregation among them has
received a row, the pipeline is the same but for its directives. -/
theorem after_eq_of_unfed (hls : ∀ l ∈ ls, l.IsBuiltin) (hd : p₀.directives = front ++ ls.map toDirective)
    (rs : List Request) (hready : (p₀.after rs).phase = .ready)
    (hu : Unfed (fun ds => p₀.arrived ds rs) front ls) :
    { p₀ with directives := front }.after rs = { p₀.after rs with directives := front } := by
  induction rs using List.reverseRecOn with
  | nil => rfl
  | append_singleton rs r ih =>
    rw [Pipeline.after_concat] at hready
    obtain ⟨hprev, rows, isLast, out, hb, hp, -⟩ := Pipeline.ready_answer hready
    have hboth {m k : List Link} {b : Aggregate} (h : ls = m ++ aggregate b :: k) :=
      List.append_eq_nil_iff.mp ((Pipeline.arrived_concat rs r).symm.trans (hu m b k h))
    rw [Pipeline.after_concat, Pipeline.after_concat, ih hprev fun m b k h => (hboth h).1,
      Pipeline.answer_of_passes hprev hb hp]
    rw [(Pipeline.sameHost_after rs).directives, hd] at hp
    obtain ⟨mid, s, hfront, hrest⟩ := passes_append_iff.mp hp
    obtain rfl := session_of_unfed hls hb hfront hrest fun m b k h => (hboth h).2
    exact Pipeline.answer_of_passes (p := { p₀.after rs with directives := front }) hprev hb hfront

end Link

namespace Aggregate

open Link (sums)

/-- What an aggregation between the statements `before` and `after` sums up when `r` follows the requests `rs`:
what those before it and itself have added with `r`, and what those after it had added before. -/
def shared (a : Aggregate) (before after : List Link) (p₀ : Pipeline) (rs : List Request) (r : Request) : Totals :=
  sums (fun ds => p₀.arrived ds (rs ++ [r])) [] before +
    a.totals (p₀.arrived (before.map Link.toDirective) (rs ++ [r])) +
    sums (fun ds => p₀.arrived ds rs) (before.map Link.toDirective ++ [a.toDirective]) after

variable {a : Aggregate} {before after : List Link} {p₀ : Pipeline} {rs : List Request}

theorem holds_shared (hls : ∀ d, .host d ∈ before ++ .aggregate a :: after → d.Spares)
    (hd : p₀.directives = (before ++ .aggregate a :: after).map Link.toDirective)
    (hs : p₀.session = ⟨.empty, []⟩) (hready : (p₀.after rs).phase = .ready) {rows given out : List Row}
    {isLast : Bool} {r : Request} {s t : Session} (hb : r.batch? = some (rows, isLast))
    (hfront : Passes ((p₀.after rs).nextContext isLast) (before.map Link.toDirective) rows (p₀.after rs).nextSession
      given s)
    (hx : a.execute ((p₀.after rs).nextContext isLast) given s = (.ok (some out), t)) :
    Holds t.store (a.shared before after p₀ rs r) := by
  have hbefore := Link.holds_passes (fun d hin => hls d (List.mem_append_left _ hin)) hb .nil hfront
    (holds_nextSession (Link.holds_after hls hd hs rs hready))
  have hown := (holds_of_execute hbefore hx).2
  rw [← Pipeline.arriving_of_passes hb hfront, Link.sums_links, sums] at hown
  have hshared : a.shared before after p₀ rs r =
      sums (fun ds => p₀.arrived ds rs) [] before +
        (a.totals (p₀.arrived (before.map Link.toDirective) rs) +
          sums (fun ds => p₀.arrived ds rs) (before.map Link.toDirective ++ [a.toDirective]) after) +
        sums (fun ds => (p₀.after rs).arriving ds r) [] before +
        a.totals ((p₀.after rs).arriving (before.map Link.toDirective) r) := by
    simp only [shared, Pipeline.arrived_concat, Link.sums_append, totals_append]
    abel
  rw [hshared]
  exact hown

/-- The row of an aggregation at a boundary, in a recipe with the statements `before` in front of it and the
built-in statements `after` behind it. It is the row of what all aggregations share, if the statements of the
host in front spare the totals. And as long as no aggregation behind it has received a row, the recipe without
the statements behind it yields the same row. -/
theorem boundary_row {r r' : CompiledRecipe} {environment : Environment} {properties : Mapping Value}
    {name : String} {q₀ : Pipeline} (hafter : ∀ l ∈ after, l.IsBuiltin)
    (hr : r.directives = (before ++ Link.aggregate a :: after).map Link.toDirective)
    (hr' : r'.directives = (before ++ [Link.aggregate a]).map Link.toDirective)
    (hp : Pipeline.ofRecipe r environment properties name = .ok p₀)
    (hq : Pipeline.ofRecipe r' environment properties name = .ok q₀)
    {rows out : List Row} {isLast : Bool} {p : Pipeline}
    (hok : (p₀.after rs).execute rows isLast = (.ok out, p))
    (hlast : ((p₀.after rs).nextContext isLast).isLast = true) :
    ∃ row, (p₀.after rs).handsOn r'.directives rows isLast = .ok [row] ∧
      ((∀ d, .host d ∈ before → d.Spares) →
        a.summary (a.shared before after p₀ rs (.execute rows isLast)).store = .ok row) ∧
      (Link.Unfed (fun ds => p₀.arrived ds rs) r'.directives after →
        ((q₀.after rs).execute rows isLast).1 = .ok [row]) := by
  obtain ⟨hready, hpass⟩ := Pipeline.passes_of_execute_ok hok
  have hdirectives : p₀.directives = r.directives := by rw [Pipeline.ofRecipe_fresh hp]
  have hsession : p₀.session = ⟨.empty, []⟩ := by rw [Pipeline.ofRecipe_fresh hp]
  have hq₀ : q₀ = { p₀ with directives := r'.directives } := by
    rw [Pipeline.ofRecipe_fresh hp, Pipeline.ofRecipe_fresh hq]
  have hsplit : p₀.directives = r'.directives ++ after.map Link.toDirective := by
    rw [hdirectives, hr, hr']
    simp
  rw [(Pipeline.sameHost_after rs).directives, hsplit] at hpass
  obtain ⟨handed, t, hfront, -⟩ := passes_append_iff.mp hpass
  have hown := hfront
  rw [hr', List.map_append] at hown
  obtain ⟨given, s, hbefore, hown⟩ := passes_append_iff.mp hown
  cases hown with
  | cons hx hnil =>
    cases hnil
    have hrow := (accumulateFrom_of_execute hx).2
    rw [if_pos hlast] at hrow
    obtain ⟨row, hrow, rfl⟩ := hrow
    refine ⟨row, Pipeline.handsOn_of_passes hfront, fun hspares => ?_, fun hunfed => ?_⟩
    · have hls : ∀ d, .host d ∈ before ++ Link.aggregate a :: after → d.Spares := by
        intro d hd
        rcases List.mem_append.mp hd with hd | hd
        · exact hspares d hd
        · rcases List.mem_cons.mp hd with hd | hd
          · cases hd
          · exact (hafter _ hd).elim
      have hholds := holds_shared hls (hdirectives.trans hr) hsession hready (r := .execute rows isLast) rfl
        hbefore hx
      rw [summary_eq_of_holds (holds_store _) hholds]
      exact hrow
    · rw [hq₀, Link.after_eq_of_unfed hafter hsplit rs hready hunfed]
      rw [Pipeline.execute_ok (p := { p₀.after rs with directives := r'.directives }) hready hfront]

/-! ## Two aggregations -/

/-- Sums up the columns `size` and `time`. -/
def incoming : Aggregate := ⟨"size", "time", "total_size", "total_time", "MB", "s", .total⟩

/-- Sums up other columns. -/
def outgoing : Aggregate := ⟨"sent", "wait", "total_sent", "total_wait", "MB", "s", .total⟩

/-- A recipe of the given statements. -/
def recipeOf (ls : List Link) : CompiledRecipe :=
  { steps := ls.map fun l => .directive l.toDirective, recipe := ⟨[], none, []⟩ }

/-- A pipeline for a recipe of the given statements, before its first batch. -/
def started (ls : List Link) : Pipeline :=
  { directives := (recipeOf ls).directives, properties := [], context := ⟨.service, [], "main"⟩
    session := ⟨.empty, []⟩, phase := .ready, batches := 0 }

theorem ofRecipe_recipeOf (ls : List Link) :
    Pipeline.ofRecipe (recipeOf ls) .service [] "main" = .ok (started ls) := by
  have hnone : (recipeOf ls).unresolved = [] := by
    rw [CompiledRecipe.unresolved, recipeOf, List.filterMap_map]
    exact List.filterMap_eq_nil_iff.mpr fun _ _ => rfl
  rw [Pipeline.ofRecipe, hnone]
  rfl

theorem directives_recipeOf (ls : List Link) : (recipeOf ls).directives = ls.map Link.toDirective := by
  rw [CompiledRecipe.directives, recipeOf, List.filterMap_map]
  exact congrFun (List.filterMap_eq_map (f := Link.toDirective)) ls

/-- A row with two sizes of whole megabytes. -/
def exchange (size sent : Nat) : Row :=
  [("size", .quantity ⟨.size, "", .ofNat size 0, "MB", size * pow10 6⟩),
    ("sent", .quantity ⟨.size, "", .ofNat sent 0, "MB", sent * pow10 6⟩)]

/-- A row of `incoming` with `size` in the first target and nothing in the second. -/
def sizeRow (size : Double) : Row :=
  [("total_size", .double size), ("total_time", .double (.finite false 0 (-1074)))]

/-- Whether a result is one row of `incoming` with the given size. -/
def isSizeRow (size : Double) : Except RecipeError (List Row) → Bool
  | .ok [[(k, .double x), (l, .double y)]] =>
    k == "total_size" && x == size && l == "total_time" && y == .finite false 0 (-1074)
  | _ => false

theorem eq_of_isSizeRow {size : Double} {result : Except RecipeError (List Row)}
    (h : isSizeRow size result = true) : result = .ok [sizeRow size] := by
  unfold isSizeRow at h
  split at h
  · simp only [Bool.and_eq_true, beq_iff_eq] at h
    obtain ⟨⟨⟨rfl, rfl⟩, rfl⟩, rfl⟩ := h
    rfl
  · cases h

theorem exists_of_isOk {x : Except RecipeError (List Row) × Pipeline} (h : x.1.isOk = true) :
    ∃ out p, x = (.ok out, p) := by
  obtain ⟨_ | out, p⟩ := x
  · cases h
  · exact ⟨out, p, rfl⟩

def firstBatch : List Request := [.execute [exchange 1 5] false]

/-- Other columns are summed up first. -/
def outgoingFirst : List Link :=
  [.aggregate outgoing, .aggregate incoming, .step (.keep ⟨["total_size"]⟩)]

/-- In front of `incoming` eight megabytes of two rows are added, and it has received one megabyte in two rows. -/
theorem boundary_row_outgoingFirst :
    incoming.shared [.aggregate outgoing] [.step (.keep ⟨["total_size"]⟩)] (started outgoingFirst) firstBatch
        (.execute [exchange 2 3] true) = ⟨9 * pow10 6, 0, 4⟩ ∧
      ∃ row, incoming.summary (Totals.store ⟨9 * pow10 6, 0, 4⟩) = .ok row ∧
        (((started [.aggregate outgoing, .aggregate incoming]).after firstBatch).execute
          [exchange 2 3] true).1 = .ok [row] := by
  have hshared : incoming.shared [.aggregate outgoing] [.step (.keep ⟨["total_size"]⟩)] (started outgoingFirst)
      firstBatch (.execute [exchange 2 3] true) = ⟨9 * pow10 6, 0, 4⟩ := by decide +kernel
  obtain ⟨out, p, hok⟩ := exists_of_isOk
    (x := ((started outgoingFirst).after firstBatch).execute [exchange 2 3] true) (by decide +kernel)
  have hbehind : ∀ l ∈ [Link.step (.keep ⟨["total_size"]⟩)], l.IsBuiltin := List.forall_mem_singleton.mpr trivial
  have hdirectives : (recipeOf outgoingFirst).directives =
      ([Link.aggregate outgoing] ++ Link.aggregate incoming :: [Link.step (.keep ⟨["total_size"]⟩)]).map Link.toDirective :=
    directives_recipeOf _
  obtain ⟨row, -, hrow, hsame⟩ := boundary_row hbehind hdirectives (directives_recipeOf _) (ofRecipe_recipeOf _)
    (ofRecipe_recipeOf _) hok (by decide +kernel)
  refine ⟨hshared, row, hshared ▸ hrow fun d hd => ?_, hsame fun m b k h => ?_⟩
  · cases List.mem_singleton.mp hd
  · cases m with
    | nil => cases h
    | cons l m => simp at h

/-- Other columns are summed up after it. -/
def outgoingLast : List Link :=
  [.aggregate incoming, .aggregate outgoing]

/-- Nothing but one megabyte arrives in the columns of `incoming`. It shows five more, which the statement behind
it has added in the batch before; without that statement it shows one. -/
theorem incoming_shows_outgoing :
    Pipeline.ofRecipe (recipeOf outgoingLast) .service [] "main" = .ok (started outgoingLast) ∧
      Pipeline.ofRecipe (recipeOf [.aggregate incoming]) .service [] "main" = .ok (started [.aggregate incoming]) ∧
      (((started outgoingLast).after firstBatch).execute [] true).1.isOk = true ∧
      ((started outgoingLast).after firstBatch).handsOn [incoming.toDirective] [] true =
        .ok [sizeRow (.finite false (6 * pow2 50) (-50))] ∧
      (((started [.aggregate incoming]).after firstBatch).execute [] true).1 =
        .ok [sizeRow (.finite false (pow2 52) (-52))] :=
  ⟨ofRecipe_recipeOf _, ofRecipe_recipeOf _, by decide +kernel, eq_of_isSizeRow (by decide +kernel),
    eq_of_isSizeRow (by decide +kernel)⟩

end Aggregate

end RowRecipe
