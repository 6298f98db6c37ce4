import QueryPlan.Proofs.Execution.Width
import QueryPlan.Proofs.Expr.Conjunction
/-!
# Operators on rows of outcomes

Moving an expression to another place in a plan changes on which rows it is evaluated, and with that
which errors are seen. To compare plans all the same, rows may hold failed values here, and a row
whose condition fails is dropped: filters, projections and joins are then plain list functions, and
where the interpreter reports no error it computes the same rows.
-/
namespace QueryPlan

/-- A row of values, some of which may have failed. -/
abbrev OutcomeRow := List Outcome

namespace OutcomeRow

/-- A row without failures. -/
def ofRow (row : Row) : OutcomeRow := row.map .ok

/-- A row of nulls. -/
def nulls (arity : Nat) : OutcomeRow := List.replicate arity (.ok .null)

@[simp] theorem length_ofRow (row : Row) : (ofRow row).length = row.length := List.length_map _

@[simp] theorem length_nulls (arity : Nat) : (nulls arity).length = arity := List.length_replicate

@[simp] theorem ofRow_append (left right : Row) : ofRow (left ++ right) = ofRow left ++ ofRow right :=
  List.map_append

@[simp] theorem ofRow_nulls (arity : Nat) : ofRow (Row.nulls arity) = nulls arity :=
  List.map_replicate

theorem ofRow_injective : Function.Injective ofRow := by
  apply List.map_injective_iff.mpr
  intro a b h
  cases h
  rfl

theorem evalOn_ofRow (row : Row) (e : Expr) : e.evalOn (ofRow row) = e.eval row :=
  Expr.evalOn_map_ok row e

/-- The values of a row without failures. -/
def values? (row : OutcomeRow) : Option Row := row.mapM Except.toOption

@[simp] theorem values?_ofRow (row : Row) : values? (ofRow row) = some row := by
  induction row with
  | nil => rfl
  | cons v row ih =>
    unfold values? ofRow at ih ⊢
    rw [List.map_cons, List.mapM_cons, ih]
    rfl

theorem ofRow_of_values? {row : OutcomeRow} {values : Row} (h : values? row = some values) :
    ofRow values = row := by
  have hforall := Outcome.forall₂_of_mapM_eq_some h
  clear h
  induction hforall with
  | nil => rfl
  | @cons o v _ _ hv _ ih =>
    cases o with
    | error e => cases hv
    | ok w =>
      cases hv
      exact congrArg (_ :: ·) ih

end OutcomeRow

open OutcomeRow

namespace Execution

/-! ## Filters and projections -/

/-- Values of expressions on a row. -/
def projectOn (exprs : List Expr) (row : OutcomeRow) : OutcomeRow := exprs.map (Expr.evalOn row)

theorem length_projectOn (exprs : List Expr) (row : OutcomeRow) :
    (projectOn exprs row).length = exprs.length := List.length_map _

/-- All columns of a row in order make up the row. -/
theorem projectOn_identity {exprs : List Expr} {row : OutcomeRow}
    (h : Expr.areIdentity exprs row.length = true) : projectOn exprs row = row := by
  have hcolumns : exprs.map Expr.asColumn? = (List.range row.length).map some := by
    simpa [Expr.areIdentity] using h
  have hlength := Expr.length_of_areIdentity h
  apply List.ext_getElem (by rw [length_projectOn, hlength])
  intro i hi hi'
  have hcolumn : exprs[i].asColumn? = some i := by
    have := congrArg (·[i]?) hcolumns
    simpa [hi', hlength] using this
  obtain ⟨t, ht⟩ := Expr.asColumn?_eq_some hcolumn
  simp [projectOn, ht, Expr.evalOn, hi']

theorem filterRows_eq_ok {condition : Expr} {rows kept : List Row}
    (h : filterRows condition rows = .ok kept) :
    kept.map ofRow = (rows.map ofRow).filter (condition.holdsOn ·) := by
  induction rows generalizing kept with
  | nil => cases h; rfl
  | cons row rows ih =>
    simp only [filterRows, Outcome.bind_eq_ok, Outcome.pure_eq_ok] at h
    obtain ⟨keep, hkeep, rest, hrest, rfl⟩ := h
    have hholds : condition.holdsOn (ofRow row) = keep := Expr.satisfied_eq_ok hkeep
    rw [List.map_cons, List.filter_cons, hholds, ← ih hrest]
    cases keep <;> rfl

theorem projectRow_eq_ok {exprs : List Expr} {row projected : Row}
    (h : projectRow exprs row = .ok projected) : ofRow projected = projectOn exprs (ofRow row) := by
  have hforall := Outcome.mapM_eq_ok.mp h
  clear h
  induction hforall with
  | nil => rfl
  | cons he _ ih =>
    unfold ofRow projectOn at ih ⊢
    rw [List.map_cons, List.map_cons, ih, ← he]
    exact congrArg (· :: _) (evalOn_ofRow row _).symm

theorem projectRows_eq_ok {exprs : List Expr} {rows projected : List Row}
    (h : rows.mapM (projectRow exprs) = .ok projected) :
    projected.map ofRow = (rows.map ofRow).map (projectOn exprs) := by
  obtain ⟨f, hf, rfl⟩ := Outcome.exists_map_of_mapM_eq_ok h
  rw [List.map_map, List.map_map]
  exact List.map_congr_left fun row hrow => projectRow_eq_ok (hf row hrow)

/-! ## Joins -/

/-- Rows of a join whose matches are given: left rows with their matches in the order of the right
rows, or padded where they have none and are kept, then the right rows without a match that are
kept. -/
def joinOn (padsLeft padsRight : Bool) (leftCount rightCount : Nat)
    (hit : OutcomeRow → OutcomeRow → Bool) (lefts rights : List OutcomeRow) : List OutcomeRow :=
  (lefts.flatMap fun left =>
    if padsRight && !rights.any (hit left) then [left ++ nulls rightCount]
    else (rights.filter (hit left)).map (left ++ ·)) ++
  if padsLeft then
    (rights.filter fun right => !lefts.any (hit · right)).map (nulls leftCount ++ ·)
  else []

/-- Whether a join condition is true of a pair of rows. -/
def joins (condition : Expr) (left right : OutcomeRow) : Bool := condition.holdsOn (left ++ right)

/-- The rows that a join could return, were no row dropped for want of a partner. -/
def pairs (padsLeft padsRight : Bool) (leftCount rightCount : Nat)
    (lefts rights : List OutcomeRow) : List OutcomeRow :=
  (lefts.flatMap fun left => rights.map (left ++ ·)) ++
    ((if padsRight then lefts.map (· ++ nulls rightCount) else []) ++
      if padsLeft then rights.map (nulls leftCount ++ ·) else [])

theorem mem_pairs {padsLeft padsRight : Bool} {leftCount rightCount : Nat}
    {lefts rights : List OutcomeRow} {row : OutcomeRow} :
    row ∈ pairs padsLeft padsRight leftCount rightCount lefts rights ↔
      (∃ left ∈ lefts, ∃ right ∈ rights, row = left ++ right) ∨
      (padsRight = true ∧ ∃ left ∈ lefts, row = left ++ nulls rightCount) ∨
      (padsLeft = true ∧ ∃ right ∈ rights, row = nulls leftCount ++ right) := by
  unfold pairs
  rw [List.mem_append, List.mem_append, List.mem_flatMap]
  refine or_congr ?_ (or_congr ?_ ?_)
  · simp only [List.mem_map, eq_comm]
  · cases padsRight <;> simp [eq_comm]
  · cases padsLeft <;> simp [eq_comm]

/-- A join returns rows that it could return. -/
theorem joinOn_subset {padsLeft padsRight : Bool} {leftCount rightCount : Nat}
    {hit : OutcomeRow → OutcomeRow → Bool} {lefts rights : List OutcomeRow} :
    ∀ row ∈ joinOn padsLeft padsRight leftCount rightCount hit lefts rights,
      row ∈ pairs padsLeft padsRight leftCount rightCount lefts rights := by
  intro row hrow
  rw [mem_pairs]
  rcases List.mem_append.mp hrow with hrow | hrow
  · obtain ⟨left, hleft, hrow⟩ := List.mem_flatMap.mp hrow
    split at hrow
    · next hpads =>
      rw [Bool.and_eq_true] at hpads
      exact .inr (.inl ⟨hpads.1, left, hleft, List.mem_singleton.mp hrow⟩)
    · obtain ⟨right, hright, rfl⟩ := List.mem_map.mp hrow
      exact .inl ⟨left, hleft, right, List.mem_of_mem_filter hright, rfl⟩
  · split at hrow
    · next hpads =>
      obtain ⟨right, hright, rfl⟩ := List.mem_map.mp hrow
      exact .inr (.inr ⟨hpads, right, List.mem_of_mem_filter hright, rfl⟩)
    · cases hrow

theorem matchFlags_eq_ok {condition : Expr} {rights : List Row} {left : Row} {flags : List Bool}
    (h : matchFlags condition rights left = .ok flags) :
    flags = rights.map fun right => joins condition (ofRow left) (ofRow right) := by
  have hforall := Outcome.mapM_eq_ok.mp h
  clear h
  induction hforall with
  | nil => rfl
  | cons he _ ih =>
    rw [List.map_cons, ← ih]
    have := Expr.satisfied_eq_ok he
    rw [show List.map Except.ok _ = ofRow _ from rfl, ofRow_append] at this
    rw [joins, this]

theorem zip_map_right {α β : Type} (f : α → β) (as : List α) :
    as.zip (as.map f) = as.map fun a => (a, f a) := by
  induction as with
  | nil => rfl
  | cons a as ih => simp [ih]

theorem filterMap_zip_map {α β : Type} (p : α → Bool) (f : α → β) (as : List α) :
    (as.zip (as.map p)).filterMap (fun (a, hit) => if hit then some (f a) else none)
      = (as.filter p).map f := by
  induction as with
  | nil => rfl
  | cons a as ih => cases h : p a <;> simp [h, ih]

theorem filterMap_zip_map_not {α β : Type} (p : α → Bool) (f : α → β) (as : List α) :
    (as.zip (as.map p)).filterMap (fun (a, hit) => if hit then none else some (f a))
      = (as.filter fun a => !p a).map f := by
  induction as with
  | nil => rfl
  | cons a as ih => cases h : p a <;> simp [h, ih]

theorem everMatched_map {α β : Type} (hit : α → β → Bool) (lefts : List α) (rights : List β) :
    everMatched rights.length (lefts.map fun left => rights.map (hit left))
      = rights.map fun right => lefts.any (hit · right) := by
  -- the flags so far are of any kind, not only FALSE
  have general : ∀ (before : β → Bool),
      (lefts.map fun left => rights.map (hit left)).foldl (List.zipWith or) (rights.map before)
        = rights.map fun right => before right || lefts.any (hit · right) := by
    induction lefts with
    | nil => intro before; simp
    | cons left lefts ih =>
      intro before
      rw [List.map_cons, List.foldl_cons, List.zipWith_map, List.zipWith_self]
      rw [ih fun right => before right || hit left right]
      simp [Bool.or_assoc]
  have := general fun _ => false
  rw [List.map_const'] at this
  simpa [everMatched] using this

theorem joinRows_eq_ok {joinType : JoinType} {condition : Expr} {leftCount rightCount : Nat}
    {lefts rights rows : List Row}
    (h : joinRows joinType condition leftCount rightCount lefts rights = .ok rows) :
    rows.map ofRow = joinOn joinType.padsLeft joinType.padsRight leftCount rightCount
      (joins condition) (lefts.map ofRow) (rights.map ofRow) := by
  let hit : Row → Row → Bool := fun left right => joins condition (ofRow left) (ofRow right)
  simp only [joinRows, Outcome.bind_eq_ok, Outcome.pure_eq_ok] at h
  obtain ⟨flags, hflags, rfl⟩ := h
  have hflags : flags = lefts.map fun left => rights.map (hit left) := by
    obtain ⟨f, hf, rfl⟩ := Outcome.exists_map_of_mapM_eq_ok hflags
    exact List.map_congr_left fun left hleft => matchFlags_eq_ok (hf left hleft)
  subst hflags
  rw [List.map_append]
  unfold joinOn
  congr 1
  · rw [zip_map_right, List.flatMap_map, List.map_flatMap, List.flatMap_map]
    refine List.flatMap_congr fun left _ => ?_
    dsimp only
    have hany : (rights.map (hit left)).contains true = (rights.map ofRow).any (joins condition (ofRow left)) := by
      rw [Bool.eq_iff_iff]
      simp [hit]
    unfold leftRows
    rw [hany]
    split
    · simp
    · rw [filterMap_zip_map, List.filter_map, List.map_map, List.map_map]
      refine List.map_congr_left fun right _ => ?_
      simp
  · cases joinType.padsLeft with
    | false => rfl
    | true =>
      simp only [if_true]
      unfold unmatchedRights
      rw [everMatched_map, filterMap_zip_map_not, List.filter_map, List.map_map, List.map_map]
      have hany : ∀ right, (lefts.map ofRow).any (joins condition · (ofRow right))
          = lefts.any (hit · right) := fun right => by simp [hit, Function.comp_def]
      simp only [Function.comp_def, hany, ofRow_append, ofRow_nulls]

theorem hasMatch_eq_ok {condition : Expr} {left : Row} {rights : List Row} {b : Bool}
    (h : hasMatch condition left rights = .ok b) :
    (rights.map ofRow).any (joins condition (ofRow left)) = b := by
  induction rights with
  | nil => cases h; rfl
  | cons right rights ih =>
    simp only [hasMatch, Outcome.bind_eq_ok] at h
    obtain ⟨hit, hhit, h⟩ := h
    have := Expr.satisfied_eq_ok hhit
    rw [show List.map Except.ok _ = ofRow _ from rfl, ofRow_append] at this
    rw [List.map_cons, List.any_cons, joins, this]
    cases hit with
    | true => cases h; rfl
    | false => exact ih h

theorem semiJoinRows_eq_ok {condition : Expr} {rights lefts kept : List Row}
    (h : semiJoinRows condition rights lefts = .ok kept) :
    kept.map ofRow = (lefts.map ofRow).filter fun left =>
      (rights.map ofRow).any (joins condition left) := by
  induction lefts generalizing kept with
  | nil => cases h; rfl
  | cons left lefts ih =>
    simp only [semiJoinRows, Outcome.bind_eq_ok, Outcome.pure_eq_ok] at h
    obtain ⟨hit, hhit, rest, hrest, rfl⟩ := h
    rw [List.map_cons, List.filter_cons, hasMatch_eq_ok hhit, ← ih hrest]
    cases hit <;> rfl

/-! ## Rows without failures -/

/-- Whether a join condition is true of a pair of rows without failures. -/
def meets (condition : Expr) (left right : Row) : Bool := joins condition (ofRow left) (ofRow right)

/-- The rows of a join over rows without failures. -/
def joined (joinType : JoinType) (condition : Expr) (leftCount rightCount : Nat)
    (lefts rights : List Row) : List Row :=
  (lefts.flatMap fun left =>
    if joinType.padsRight && !rights.any (meets condition left) then [left ++ Row.nulls rightCount]
    else (rights.filter (meets condition left)).map (left ++ ·)) ++
  if joinType.padsLeft then
    (rights.filter fun right => !lefts.any (meets condition · right)).map (Row.nulls leftCount ++ ·)
  else []

theorem joinRows_eq_joined {joinType : JoinType} {condition : Expr} {leftCount rightCount : Nat}
    {lefts rights rows : List Row}
    (h : joinRows joinType condition leftCount rightCount lefts rights = .ok rows) :
    rows = joined joinType condition leftCount rightCount lefts rights := by
  refine List.map_injective_iff.mpr ofRow_injective ?_
  rw [joinRows_eq_ok h, joined, joinOn, List.map_append, List.map_flatMap, List.flatMap_map]
  congr 1
  · refine List.flatMap_congr fun left _ => ?_
    rw [List.any_map, List.filter_map, List.map_map]
    show (if joinType.padsRight && !rights.any (meets condition left) then _ else _) = _
    split
    · rw [List.map_singleton, ofRow_append, ofRow_nulls]
    · rw [List.map_map]
      exact List.map_congr_left fun right _ => (ofRow_append left right).symm
  · cases joinType.padsLeft with
    | false => rfl
    | true =>
      simp only [if_true]
      rw [List.filter_map, List.map_map, List.map_map]
      have hany : ∀ right, (lefts.map ofRow).any (joins condition · (ofRow right)) =
          lefts.any (meets condition · right) := fun right => List.any_map
      simp only [Function.comp_def, hany, ofRow_append, ofRow_nulls]

theorem semiJoinRows_eq_filter {condition : Expr} {rights lefts kept : List Row}
    (h : semiJoinRows condition rights lefts = .ok kept) :
    kept = lefts.filter fun left => rights.any (meets condition left) := by
  refine List.map_injective_iff.mpr ofRow_injective ?_
  rw [semiJoinRows_eq_ok h, List.filter_map]
  congr 1
  refine List.filter_congr fun left _ => ?_
  rw [Function.comp, List.any_map]
  rfl

end Execution


end QueryPlan
