import QueryPlan.Proofs.Execution.JoinLaws
import QueryPlan.Proofs.Rule.Adjacent
/-!
# Filters and projections next to joins

What the rules for joins offer stands for the node that it is offered for, for every type of join.
A conjunct that is pushed below a join need not be a predicate where the join has no rows, but then
the other side is empty, and the join is sound by that alone.
-/
namespace QueryPlan.Cluster

open OutcomeRow Execution

variable {c : Cluster} {supplied : NodeId → List Row} {id left right : NodeId}

/-! ## Joins -/

section

variable {joinType : JoinType} {condition : Expr}

theorem IsNode.joinsOver (h : c.IsNode id (.join .logical joinType condition) [left, right]) :
    c.JoinsOver id left right joinType :=
  ⟨⟨.logical, condition, by decide, h.operator_eq⟩, h.inputs_eq⟩

theorem JoinsOver.unique {left' right' : NodeId} {joinType' : JoinType}
    (h : c.JoinsOver id left right joinType) (h' : c.JoinsOver id left' right' joinType') :
    left' = left ∧ right' = right ∧ joinType' = joinType := by
  obtain ⟨_, _, -, hop⟩ := h.operator
  obtain ⟨_, _, -, hop'⟩ := h'.operator
  have hinputs := h.inputs
  rw [h'.inputs] at hinputs
  rw [hop'] at hop
  cases hinputs
  cases hop
  exact ⟨rfl, rfl, rfl⟩

variable (h : c.IsNode id (.join .logical joinType condition) [left, right])

include h

theorem IsNode.arity_join : c.arity id = c.arity left + c.arity right := by
  rw [arity_eq h.lt_size, h.operator_eq, h.inputs_eq]
  show (RowType.join _ _ _ _).arity = _
  rw [RowType.arity_join]
  rfl

variable (supplied) in
theorem IsNode.meaning_join : c.meaning supplied id =
    ⟨joinOn joinType.padsLeft joinType.padsRight (c.arity left) (c.arity right) (joins condition)
        (c.meaning supplied left).rows (c.meaning supplied right).rows,
      pairs joinType.padsLeft joinType.padsRight (c.arity left) (c.arity right)
        (c.meaning supplied left).possible (c.meaning supplied right).possible⟩ := by
  rw [Cluster.meaning_eq, h.operator_eq, h.inputs_eq]
  rfl

theorem IsNode.sound_join (hleft : c.Sound supplied left) (hright : c.Sound supplied right)
    (hcondition : ∀ l ∈ (c.meaning supplied left).possible,
      ∀ r ∈ (c.meaning supplied right).possible, condition.isPredicateOn (l ++ r) = true) :
    c.Sound supplied id := by
  refine .node (fun j hj => ?_) ⟨?_, ?_, ?_⟩
  · rw [h.inputs_eq] at hj
    simp only [List.mem_cons, List.not_mem_nil, or_false] at hj
    rcases hj with rfl | rfl
    · exact hleft
    · exact hright
  · rw [h.operator_eq]
    trivial
  · rw [h.operator_eq, h.inputs_eq]
    simp only [Meaning.truthful, List.all_eq_true]
    exact hcondition
  · intro hsub
    rw [h.operator_eq] at hsub
    cases hsub

/-- A join is sound as its inputs are, or by one of them that is empty. -/
theorem IsNode.cases_of_sound_join (hsound : c.Sound supplied id) :
    (joinType.padsRight = false ∧ c.Sound supplied right ∧
      (c.meaning supplied right).possible = []) ∨
    (joinType.padsLeft = false ∧ c.Sound supplied left ∧
      (c.meaning supplied left).possible = []) ∨
    (c.Sound supplied left ∧ c.Sound supplied right ∧
      ∀ l ∈ (c.meaning supplied left).possible, ∀ r ∈ (c.meaning supplied right).possible,
        condition.isPredicateOn (l ++ r) = true) := by
  cases hsound with
  | node inputs own =>
    rw [h.inputs_eq] at inputs
    have htruthful := own.truthful
    rw [h.operator_eq, h.inputs_eq] at htruthful
    simp only [Meaning.truthful, List.all_eq_true] at htruthful
    exact .inr (.inr ⟨inputs left (by simp), inputs right (by simp), htruthful⟩)
  | emptyRight join pads sound empty =>
    obtain ⟨-, rfl, rfl⟩ := h.joinsOver.unique join
    exact .inl ⟨pads, sound, empty⟩
  | emptyLeft join pads sound empty =>
    obtain ⟨rfl, -, rfl⟩ := h.joinsOver.unique join
    exact .inr (.inl ⟨pads, sound, empty⟩)

end

/-! ## Filters that may be left out -/

section

variable {input kept : NodeId} {conjuncts : List Expr} (h : Rule.Kept c input conjuncts kept)

include h

/-- Keeping conjuncts filters by all of them, whether or not that takes a node. -/
theorem sound_kept (hinput : c.Sound supplied input)
    (hconjuncts : ∀ row ∈ (c.meaning supplied input).possible,
      ∀ e ∈ conjuncts, e.isPredicateOn row = true) :
    c.Sound supplied kept ∧ c.meaning supplied kept =
      ⟨(c.meaning supplied input).rows.filter fun row => conjuncts.all (·.holdsOn row),
        (c.meaning supplied input).possible⟩ := by
  have hnode := h.node
  have hfits := hinput.fits (h.input_lt)
  have hspec := fun row hrow => Expr.conjunction?_spec (hconjuncts row hrow)
  cases hconj : Expr.conjunction? conjuncts with
  | none =>
    rw [hconj] at hnode hspec
    have hall : (c.meaning supplied input).rows.filter (fun row => conjuncts.all (·.holdsOn row)) =
        (c.meaning supplied input).rows :=
      List.filter_eq_self.mpr fun row hrow => hspec row (hfits.subset row hrow)
    rw [hnode, hall]
    exact ⟨hinput, rfl⟩
  | some e =>
    rw [hconj] at hnode hspec
    refine ⟨(sound_filter_iff hnode.operator_eq hnode.inputs_eq).mpr
      ⟨hinput, fun row hrow => (hspec row hrow).1⟩, ?_⟩
    rw [meaning_filter supplied hnode.operator_eq hnode.inputs_eq]
    congr 1
    exact List.filter_congr fun row hrow => (hspec row (hfits.subset row hrow)).2

theorem kept_of_empty (hinput : c.Sound supplied input)
    (hmeaning : c.meaning supplied input = ⟨[], []⟩) :
    c.Sound supplied kept ∧ c.meaning supplied kept = ⟨[], []⟩ := by
  have hspec := sound_kept h hinput (by simp [hmeaning])
  rw [hmeaning] at hspec
  exact hspec

end

/-! ## A filter over a join -/

section

variable {joinType : JoinType} {condition e : Expr} {m : Nat}

open Rule Filter

/-- Why a conjunct goes where it does. -/
theorem place_spec (joinType : JoinType) (m : Nat) (e : Expr) :
    match place joinType m e with
    | .left => (∀ i ∈ e.columnList, i < m) ∧ joinType.padsLeft = false
    | .right => (∀ i ∈ e.columnList, m ≤ i) ∧ joinType.padsRight = false
    | .condition => joinType = .inner
    | .above => True := by
  unfold place
  dsimp only
  by_cases hleft : (e.columns.toList.all (· < m) && !joinType.padsLeft) = true
  · rw [if_pos hleft]
    simp only [Bool.and_eq_true, List.all_eq_true, decide_eq_true_eq, Bool.not_eq_true'] at hleft
    exact ⟨fun i hi => hleft.1 i (Expr.mem_columns.mpr hi), hleft.2⟩
  rw [if_neg hleft]
  by_cases hright : (!e.columns.toList.isEmpty && e.columns.toList.all (m ≤ ·) &&
      !joinType.padsRight) = true
  · rw [if_pos hright]
    simp only [Bool.and_eq_true, List.all_eq_true, decide_eq_true_eq, Bool.not_eq_true'] at hright
    exact ⟨fun i hi => hright.1.2 i (Expr.mem_columns.mpr hi), hright.2⟩
  rw [if_neg hright]
  by_cases hinner : joinType = .inner
  · rw [if_pos hinner]
    exact hinner
  · rw [if_neg hinner]
    trivial

theorem mem_placed {p : Place} :
    e ∈ placed joinType m condition p ↔ e ∈ condition.conjuncts ∧ place joinType m e = p := by
  simp [placed]

/-- A predicate is true of a row if its conjuncts of every place are. -/
theorem holdsOn_placed (joinType : JoinType) (m : Nat) {row : OutcomeRow}
    (h : condition.isPredicateOn row = true) :
    condition.holdsOn row =
      ((placed joinType m condition .above).all (·.holdsOn row) &&
        ((placed joinType m condition .condition).all (·.holdsOn row) &&
          ((placed joinType m condition .right).all (·.holdsOn row) &&
            (placed joinType m condition .left).all (·.holdsOn row)))) := by
  rw [← Expr.all_holdsOn_conjuncts h, Bool.eq_iff_iff]
  simp only [Bool.and_eq_true, List.all_eq_true, mem_placed, and_imp]
  constructor
  · intro hall
    exact ⟨fun e he _ => hall e he, fun e he _ => hall e he, fun e he _ => hall e he,
      fun e he _ => hall e he⟩
  · rintro ⟨habove, hcondition, hright, hleft⟩ e he
    cases hplace : place joinType m e with
    | above => exact habove e he hplace
    | condition => exact hcondition e he hplace
    | right => exact hright e he hplace
    | left => exact hleft e he hplace

theorem exists_pair_left {padsLeft padsRight : Bool} {n : Nat} {lefts rights : List OutcomeRow}
    (h : rights = [] → padsRight = true) {l : OutcomeRow} (hl : l ∈ lefts) :
    ∃ x, l ++ x ∈ pairs padsLeft padsRight m n lefts rights := by
  cases rights with
  | nil => exact ⟨nulls n, mem_pairs.mpr (.inr (.inl ⟨h rfl, l, hl, rfl⟩))⟩
  | cons r rights => exact ⟨r, mem_pairs.mpr (.inl ⟨l, hl, r, List.mem_cons_self, rfl⟩)⟩

theorem exists_pair_right {padsLeft padsRight : Bool} {n : Nat} {lefts rights : List OutcomeRow}
    (hwidth : ∀ l ∈ lefts, l.length = m) (h : lefts = [] → padsLeft = true) {r : OutcomeRow}
    (hr : r ∈ rights) :
    ∃ x, x.length = m ∧ x ++ r ∈ pairs padsLeft padsRight m n lefts rights := by
  cases lefts with
  | nil =>
    exact ⟨nulls m, OutcomeRow.length_nulls m, mem_pairs.mpr (.inr (.inr ⟨h rfl, r, hr, rfl⟩))⟩
  | cons l lefts =>
    exact ⟨l, hwidth l List.mem_cons_self,
      mem_pairs.mpr (.inl ⟨l, List.mem_cons_self, r, hr, rfl⟩)⟩

end

section

open Rule Filter

variable {joinType : JoinType} {condition joinCondition : Expr} {m n : Nat}
  {lefts rights : List OutcomeRow} {hit : OutcomeRow → OutcomeRow → Bool}

/-- Where every left row is part of some row of the join, what is placed on the left is a predicate
there. -/
theorem isPredicateOn_placed_left (hlefts : ∀ l ∈ lefts, l.length = m)
    (hpads : rights = [] → joinType.padsRight = true)
    (hcondition : ∀ row ∈ pairs joinType.padsLeft joinType.padsRight m n lefts rights,
      condition.isPredicateOn row = true) :
    ∀ l ∈ lefts, ∀ e ∈ placed joinType m condition .left, e.isPredicateOn l = true := by
  intro l hl e he
  obtain ⟨hconjunct, hplace⟩ := mem_placed.mp he
  have hspec := place_spec joinType m e
  rw [hplace, ← hlefts l hl] at hspec
  obtain ⟨x, hx⟩ := exists_pair_left hpads hl
  have hpredicate := Expr.isPredicateOn_of_mem_conjuncts (hcondition _ hx) hconjunct
  rwa [Expr.isPredicateOn_append_left hspec.1] at hpredicate

theorem isPredicateOn_placed_right (hwords : n ≤ UInt64.size)
    (hcolumns : ∀ i ∈ condition.columnList, i < m + n) (hlefts : ∀ l ∈ lefts, l.length = m)
    (hrights : ∀ r ∈ rights, r.length = n) (hpads : lefts = [] → joinType.padsLeft = true)
    (hcondition : ∀ row ∈ pairs joinType.padsLeft joinType.padsRight m n lefts rights,
      condition.isPredicateOn row = true) :
    ∀ r ∈ rights, ∀ e ∈ (placed joinType m condition .right).map (·.shift (-(m : Int))),
      e.isPredicateOn r = true := by
  intro r hr e' he'
  obtain ⟨e, he, rfl⟩ := List.mem_map.mp he'
  obtain ⟨hconjunct, hplace⟩ := mem_placed.mp he
  have hspec := place_spec joinType m e
  rw [hplace] at hspec
  obtain ⟨x, hwidth, hx⟩ := exists_pair_right hlefts hpads hr
  rw [← hwidth]
  apply Expr.isPredicateOn_shift_neg
  · rw [hrights r hr]
    exact hwords
  · intro i hi
    rw [hwidth, hrights r hr]
    exact ⟨hspec.1 i hi, hcolumns i (Expr.columnList_of_mem_conjuncts hconjunct i hi)⟩
  · exact Expr.isPredicateOn_of_mem_conjuncts (hcondition _ hx) hconjunct

theorem filter_placed_left (hwidth : ∀ l ∈ lefts, l.length = m) :
    (joinOn joinType.padsLeft joinType.padsRight m n hit lefts rights).filter
        (fun row => (placed joinType m condition .left).all (·.holdsOn row)) =
      joinOn joinType.padsLeft joinType.padsRight m n hit
        (lefts.filter fun l => (placed joinType m condition .left).all (·.holdsOn l)) rights := by
  have hspec : ∀ e ∈ placed joinType m condition .left,
      (∀ i ∈ e.columnList, i < m) ∧ joinType.padsLeft = false := by
    intro e he
    have := place_spec joinType m e
    rwa [(mem_placed.mp he).2] at this
  have hlocal : ∀ l ∈ lefts, ∀ r, (placed joinType m condition .left).all (·.holdsOn (l ++ r)) =
      (placed joinType m condition .left).all (·.holdsOn l) := by
    intro l hl r
    refine all_congr fun e he => Expr.holdsOn_append_left ?_
    rw [hwidth l hl]
    exact (hspec e he).1
  cases hpads : joinType.padsLeft with
  | true =>
    have hnil : placed joinType m condition .left = [] := by
      apply List.eq_nil_iff_forall_not_mem.mpr
      intro e he
      rw [(hspec e he).2] at hpads
      cases hpads
    simp [hnil]
  | false =>
    exact filter_joinOn_left (fun l hl r _ => hlocal l hl r) (fun _ l hl => hlocal l hl _)

theorem filter_placed_right (hwords : n ≤ UInt64.size)
    (hcolumns : ∀ i ∈ condition.columnList, i < m + n) (hlefts : ∀ l ∈ lefts, l.length = m)
    (hrights : ∀ r ∈ rights, r.length = n) :
    (joinOn joinType.padsLeft joinType.padsRight m n hit lefts rights).filter
        (fun row => (placed joinType m condition .right).all (·.holdsOn row)) =
      joinOn joinType.padsLeft joinType.padsRight m n hit lefts (rights.filter fun r =>
        ((placed joinType m condition .right).map (·.shift (-(m : Int)))).all (·.holdsOn r)) := by
  have hspec : ∀ e ∈ placed joinType m condition .right,
      (∀ i ∈ e.columnList, m ≤ i ∧ i < m + n) ∧ joinType.padsRight = false := by
    intro e he
    obtain ⟨hconjunct, hplace⟩ := mem_placed.mp he
    have := place_spec joinType m e
    rw [hplace] at this
    exact ⟨fun i hi => ⟨this.1 i hi, hcolumns i (Expr.columnList_of_mem_conjuncts hconjunct i hi)⟩,
      this.2⟩
  have hlocal : ∀ x : OutcomeRow, x.length = m → ∀ r ∈ rights,
      (placed joinType m condition .right).all (·.holdsOn (x ++ r)) =
        ((placed joinType m condition .right).map (·.shift (-(m : Int)))).all (·.holdsOn r) := by
    intro x hx r hr
    rw [List.all_map]
    refine all_congr fun e he => ?_
    rw [Function.comp_apply, ← hx, Expr.holdsOn_shift_neg (by rw [hrights r hr]; exact hwords)]
    rw [hx, hrights r hr]
    exact (hspec e he).1
  cases hpads : joinType.padsRight with
  | true =>
    have hnil : placed joinType m condition .right = [] := by
      apply List.eq_nil_iff_forall_not_mem.mpr
      intro e he
      rw [(hspec e he).2] at hpads
      cases hpads
    simp [hnil]
  | false =>
    exact filter_joinOn_right (fun l hl r hr => hlocal l (hlefts l hl) r hr)
      (fun _ r hr => hlocal _ (OutcomeRow.length_nulls m) r hr)

theorem filter_placed_condition (hpredicates : ∀ l ∈ lefts, ∀ r ∈ rights,
      ∀ e ∈ joinCondition :: placed joinType m condition .condition,
        e.isPredicateOn (l ++ r) = true) :
    (joinOn joinType.padsLeft joinType.padsRight m n (joins joinCondition) lefts rights).filter
        (fun row => (placed joinType m condition .condition).all (·.holdsOn row)) =
      joinOn joinType.padsLeft joinType.padsRight m n (joins (Expr.conjunction
        (joinCondition :: placed joinType m condition .condition))) lefts rights := by
  have hjoins : ∀ l ∈ lefts, ∀ r ∈ rights,
      joins (Expr.conjunction (joinCondition :: placed joinType m condition .condition)) l r =
        (joins joinCondition l r &&
          (placed joinType m condition .condition).all (·.holdsOn (l ++ r))) :=
    fun l hl r hr => (Expr.conjunction_spec (hpredicates l hl r hr)).2
  rw [joinOn_congr hjoins]
  by_cases hinner : joinType = .inner
  · rw [hinner]
    exact filter_joinOn_inner
  · have hnil : placed joinType m condition .condition = [] := by
      apply List.eq_nil_iff_forall_not_mem.mpr
      intro e he
      have := place_spec joinType m e
      rw [(mem_placed.mp he).2] at this
      exact hinner this
    simp [hnil]

/-- Filtering the rows of a join is joining filtered rows and filtering what is left, with each
conjunct in its place. -/
theorem filter_joinOn (hwords : n ≤ UInt64.size)
    (hcolumns : ∀ i ∈ condition.columnList, i < m + n) (hlefts : ∀ l ∈ lefts, l.length = m)
    (hrights : ∀ r ∈ rights, r.length = n)
    (hjoin : ∀ l ∈ lefts, ∀ r ∈ rights, joinCondition.isPredicateOn (l ++ r) = true)
    (hcondition : ∀ row ∈ pairs joinType.padsLeft joinType.padsRight m n lefts rights,
      condition.isPredicateOn row = true) :
    (joinOn joinType.padsLeft joinType.padsRight m n (joins joinCondition) lefts rights).filter
        (condition.holdsOn ·) =
      (joinOn joinType.padsLeft joinType.padsRight m n (joins (Expr.conjunction
          (joinCondition :: placed joinType m condition .condition)))
        (lefts.filter fun l => (placed joinType m condition .left).all (·.holdsOn l))
        (rights.filter fun r => ((placed joinType m condition .right).map
          (·.shift (-(m : Int)))).all (·.holdsOn r))).filter
        fun row => (placed joinType m condition .above).all (·.holdsOn row) := by
  have hplaced : ∀ row ∈ joinOn joinType.padsLeft joinType.padsRight m n (joins joinCondition) lefts
      rights, condition.holdsOn row = _ := fun row hrow =>
    holdsOn_placed joinType m (hcondition row (joinOn_subset row hrow))
  rw [List.filter_congr hplaced, ← List.filter_filter, ← List.filter_filter, ← List.filter_filter,
    filter_placed_left hlefts]
  rw [filter_placed_right hwords hcolumns (fun l hl => hlefts l (List.mem_of_mem_filter hl)) hrights]
  rw [filter_placed_condition fun l hl r hr => ?_]
  have hl := List.mem_of_mem_filter hl
  have hr := List.mem_of_mem_filter hr
  rw [List.forall_mem_cons]
  refine ⟨hjoin l hl r hr, fun e he => ?_⟩
  exact Expr.isPredicateOn_of_mem_conjuncts
    (hcondition _ (mem_pairs.mpr (.inl ⟨l, hl, r, hr, rfl⟩))) (mem_placed.mp he).1

end

section

open Rule Filter

variable {v : Convention} {joinType : JoinType} {condition joinCondition : Expr}
  {joined left' right' join offered : NodeId}

variable (hid : c.IsNode id (.filter v condition) [joined])
  (hjoined : c.IsNode joined (.join .logical joinType joinCondition) [left, right])
  (hleft : Rule.Kept c left (placed joinType (c.arity left) condition .left) left')
  (hright : Rule.Kept c right ((placed joinType (c.arity left) condition .right).map
    (·.shift (-(c.arity left : Int)))) right')
  (hjoin : c.IsNode join (.join .logical joinType (Expr.conjunction
    (joinCondition :: placed joinType (c.arity left) condition .condition))) [left', right'])
  (hoffered : Rule.Kept c join (placed joinType (c.arity left) condition .above) offered)

include hid hoffered in
theorem intoJoin_of_empty (hjoined : c.meaning supplied joined = ⟨[], []⟩)
    (hjoin : c.Sound supplied join) (hempty : c.meaning supplied join = ⟨[], []⟩) :
    c.Sound supplied offered ∧ (c.meaning supplied offered).Refines (c.meaning supplied id) := by
  obtain ⟨hsound, hmeaning⟩ := kept_of_empty hoffered hjoin hempty
  refine ⟨hsound, ?_⟩
  rw [hmeaning, meaning_filter supplied hid.operator_eq hid.inputs_eq, hjoined]
  exact .refl _

include hid hjoined hright hjoin hoffered in
theorem intoJoin_of_emptyRight (hpads : joinType.padsRight = false)
    (hsound : c.Sound supplied right) (hempty : (c.meaning supplied right).possible = []) :
    c.Sound supplied offered ∧ (c.meaning supplied offered).Refines (c.meaning supplied id) := by
  have hmeaning := (hsound.fits (hright.input_lt)).eq_empty hempty
  obtain ⟨hsound', hmeaning'⟩ := kept_of_empty hright hsound hmeaning
  apply intoJoin_of_empty hid hoffered
  · exact hjoined.joinsOver.meaning_eq_of_emptyRight hpads (by rw [hmeaning]) hempty
  · exact .emptyRight hjoin.joinsOver hpads hsound' (by rw [hmeaning'])
  · exact hjoin.joinsOver.meaning_eq_of_emptyRight hpads (by rw [hmeaning']) (by rw [hmeaning'])

include hid hjoined hleft hjoin hoffered in
theorem intoJoin_of_emptyLeft (hpads : joinType.padsLeft = false)
    (hsound : c.Sound supplied left) (hempty : (c.meaning supplied left).possible = []) :
    c.Sound supplied offered ∧ (c.meaning supplied offered).Refines (c.meaning supplied id) := by
  have hmeaning := (hsound.fits (hleft.input_lt)).eq_empty hempty
  obtain ⟨hsound', hmeaning'⟩ := kept_of_empty hleft hsound hmeaning
  apply intoJoin_of_empty hid hoffered
  · exact hjoined.joinsOver.meaning_eq_of_emptyLeft hpads (by rw [hmeaning]) hempty
  · exact .emptyLeft hjoin.joinsOver hpads hsound' (by rw [hmeaning'])
  · exact hjoin.joinsOver.meaning_eq_of_emptyLeft hpads (by rw [hmeaning']) (by rw [hmeaning'])

include hid hjoined hleft hright hjoin hoffered in
/-- Where each input of the join has rows or may do without, the conjuncts that go below it are
predicates there. -/
theorem intoJoin_of_rows (hcolumns : ∀ i ∈ condition.columnList, i < c.arity left + c.arity right)
    (hwords : c.arity right ≤ UInt64.size)
    (hsoundLeft : c.Sound supplied left) (hsoundRight : c.Sound supplied right)
    (hpredicate : ∀ l ∈ (c.meaning supplied left).possible,
      ∀ r ∈ (c.meaning supplied right).possible, joinCondition.isPredicateOn (l ++ r) = true)
    (hcondition : ∀ row ∈ (c.meaning supplied joined).possible,
      condition.isPredicateOn row = true)
    (hpadsLeft : (c.meaning supplied left).possible = [] → joinType.padsLeft = true)
    (hpadsRight : (c.meaning supplied right).possible = [] → joinType.padsRight = true) :
    c.Sound supplied offered ∧ (c.meaning supplied offered).Refines (c.meaning supplied id) := by
  have hfitsLeft := hsoundLeft.fits (hleft.input_lt)
  have hfitsRight := hsoundRight.fits (hright.input_lt)
  rw [hjoined.meaning_join supplied] at hcondition
  obtain ⟨hsoundLeft', hmeaningLeft⟩ := sound_kept hleft hsoundLeft
    (isPredicateOn_placed_left hfitsLeft.width hpadsRight hcondition)
  obtain ⟨hsoundRight', hmeaningRight⟩ := sound_kept hright hsoundRight
    (isPredicateOn_placed_right hwords hcolumns hfitsLeft.width hfitsRight.width hpadsLeft
      hcondition)
  have hplaced : ∀ {p : Place}, ∀ row ∈ pairs joinType.padsLeft joinType.padsRight (c.arity left)
      (c.arity right) (c.meaning supplied left).possible (c.meaning supplied right).possible,
      ∀ e ∈ placed joinType (c.arity left) condition p, e.isPredicateOn row = true := by
    intro p row hrow e he
    exact Expr.isPredicateOn_of_mem_conjuncts (hcondition row hrow) (mem_placed.mp he).1
  have hsoundJoin : c.Sound supplied join := by
    apply hjoin.sound_join hsoundLeft' hsoundRight'
    rw [hmeaningLeft, hmeaningRight]
    intro l hl r hr
    refine (Expr.conjunction_spec ?_).1
    rw [List.forall_mem_cons]
    exact ⟨hpredicate l hl r hr, hplaced _ (mem_pairs.mpr (.inl ⟨l, hl, r, hr, rfl⟩))⟩
  have hmeaningJoin := hjoin.meaning_join supplied
  rw [hmeaningLeft, hmeaningRight, hleft.arity_eq, hright.arity_eq] at hmeaningJoin
  have habove : ∀ row ∈ (c.meaning supplied join).possible,
      ∀ e ∈ placed joinType (c.arity left) condition .above, e.isPredicateOn row = true := by
    rw [hmeaningJoin]
    exact hplaced
  obtain ⟨hsound, hmeaning⟩ := sound_kept hoffered hsoundJoin habove
  refine ⟨hsound, ?_⟩
  rw [hmeaning, hmeaningJoin, meaning_filter supplied hid.operator_eq hid.inputs_eq, hjoined.meaning_join supplied]
  refine ⟨?_, fun row hrow => hrow⟩
  refine (filter_joinOn hwords hcolumns hfitsLeft.rows_width hfitsRight.rows_width ?_ ?_).symm
  · exact fun l hl r hr => hpredicate l (hfitsLeft.subset l hl) r (hfitsRight.subset r hr)
  · exact fun row hrow =>
      hcondition row (Meaning.pairs_subset hfitsLeft.subset hfitsRight.subset row hrow)

include hid hjoined hleft hright hjoin hoffered in
/-- A filter over a join may be distributed over it. -/
theorem standsFor_intoJoin
    (hcolumns : ∀ i ∈ condition.columnList, i < c.arity left + c.arity right)
    (hwords : c.arity right ≤ UInt64.size) : c.StandsFor supplied id offered := by
  constructor
  · rw [hoffered.arity_eq, hjoin.arity_join, hleft.arity_eq, hright.arity_eq,
      hid.arity_filter, hjoined.arity_join]
  intro hsound
  obtain ⟨hjoinedSound, hcondition⟩ := (sound_filter_iff hid.operator_eq hid.inputs_eq).mp hsound
  rcases hjoined.cases_of_sound_join hjoinedSound with
    ⟨hpads, hright', hempty⟩ | ⟨hpads, hleft', hempty⟩ | ⟨hleft', hright', hpredicate⟩
  · exact intoJoin_of_emptyRight hid hjoined hright hjoin hoffered hpads hright' hempty
  · exact intoJoin_of_emptyLeft hid hjoined hleft hjoin hoffered hpads hleft' hempty
  by_cases hemptyRight : joinType.padsRight = false ∧ (c.meaning supplied right).possible = []
  · exact intoJoin_of_emptyRight hid hjoined hright hjoin hoffered hemptyRight.1 hright'
      hemptyRight.2
  by_cases hemptyLeft : joinType.padsLeft = false ∧ (c.meaning supplied left).possible = []
  · exact intoJoin_of_emptyLeft hid hjoined hleft hjoin hoffered hemptyLeft.1 hleft' hemptyLeft.2
  refine intoJoin_of_rows hid hjoined hleft hright hjoin hoffered hcolumns hwords hleft' hright'
    hpredicate hcondition (fun h => ?_) (fun h => ?_)
  · cases hpads : joinType.padsLeft with
    | true => rfl
    | false => exact absurd ⟨hpads, h⟩ hemptyLeft
  · cases hpads : joinType.padsRight with
    | true => rfl
    | false => exact absurd ⟨hpads, h⟩ hemptyRight

end

end QueryPlan.Cluster
