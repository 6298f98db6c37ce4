import QueryPlan.Proofs.Rule.Joined
/-!
# Projections below a join

A projection pulled from a side of a join computes on a row of the join what it computed on the part
of the row that is its input's. On the side that may be padded nothing is pulled, so that padding
stays what it was.
-/
namespace QueryPlan

open OutcomeRow Execution

namespace Expr

theorem evalOn_column_between {before row after : List Outcome} {i : Nat} (hi : i < row.length)
    (t : DataType) : evalOn (before ++ (row ++ after)) (column (before.length + i) t) = row[i] := by
  apply evalOn_column
  rw [List.getElem?_append_right (by omega), Nat.add_sub_cancel_left,
    List.getElem?_append_left hi, List.getElem?_eq_getElem hi]

end Expr

namespace Rule

/-- The expressions that stand for the fields of an input read them from the part of a row that
starts at the offset. -/
def Reads (offset width : Nat) (exprs : List Expr) (f : OutcomeRow → OutcomeRow) : Prop :=
  ∀ before row after : OutcomeRow, before.length = offset → row.length = width →
    offset + (row ++ after).length ≤ UInt64.size →
      projectOn exprs (before ++ (row ++ after)) = f row

theorem reads_fields (rowType : RowType) (offset : Nat) :
    Reads offset rowType.arity (Projection.fieldsFrom rowType offset) id := by
  rintro before row after rfl hrow -
  have hlength : rowType.fields.length = row.length := hrow.symm
  apply List.ext_getElem
  · simp [projectOn, Projection.fieldsFrom, hlength]
  · intro i hi hi'
    simp only [projectOn, Projection.fieldsFrom, List.getElem_map, List.getElem_zipIdx,
      Nat.zero_add, id_eq]
    exact Expr.evalOn_column_between hi' _

theorem reads_projection {columns : List (Expr × String)} {offset width : Nat}
    (hcolumns : ∀ e ∈ columns.map Prod.fst, ∀ i ∈ e.columnList, i < width) :
    Reads offset width (columns.map fun p => p.1.shift offset)
      (projectOn (columns.map Prod.fst)) := by
  rintro before row after rfl rfl hwords
  unfold projectOn
  rw [List.map_map, List.map_map]
  refine List.map_congr_left fun p hp => ?_
  have hlt := hcolumns p.1 (List.mem_map_of_mem hp)
  rw [Function.comp_apply, Function.comp_apply, Expr.evalOn_shift_length hwords]
  · exact Expr.evalOn_append_left hlt
  · intro i hi
    rw [List.length_append]
    exact Nat.lt_add_right _ (hlt i hi)

end Rule

namespace Cluster

/-- What a join reads in place of an input computes the rows of the input by a function on rows, which
the expressions for its fields compute on rows of the join. -/
structure Computes (c : Cluster) (supplied : NodeId → List Row) (input : NodeId) (pads : Bool)
    (offset : Nat) (below : NodeId) (exprs : List Expr) (f : OutcomeRow → OutcomeRow) : Prop where
  lt_size : below < c.size
  length_eq : exprs.length = c.arity input
  reads : Rule.Reads offset (c.arity below) exprs f
  kept : pads = true → below = input ∧ f = id ∧ ∀ e ∈ exprs, ∀ row, e.andsTruthful row = true
  sound : c.Sound supplied input → c.Sound supplied below ∧ c.meaning supplied input =
    ⟨(c.meaning supplied below).rows.map f, (c.meaning supplied below).possible.map f⟩
  truthful : c.Sound supplied input → ∀ row ∈ (c.meaning supplied below).possible,
    ∀ before after : OutcomeRow, before.length = offset →
      offset + (row ++ after).length ≤ UInt64.size →
        ∀ e ∈ exprs, e.andsTruthful (before ++ (row ++ after)) = true

variable {c : Cluster} {supplied : NodeId → List Row} {input : NodeId} {pads : Bool} {offset : Nat}

theorem andsTruthful_fields {rowType : RowType} {e : Expr}
    (he : e ∈ Projection.fieldsFrom rowType offset) (row : OutcomeRow) :
    e.andsTruthful row = true := by
  obtain ⟨p, -, rfl⟩ := List.mem_map.mp he
  rfl

theorem computes_kept (hinput : input < c.size) : c.Computes supplied input pads offset input
    (Projection.fieldsFrom (c.rowType input) offset) id where
  lt_size := hinput
  length_eq := by simp [Projection.fieldsFrom, arity, RowType.arity]
  reads := Rule.reads_fields (c.rowType input) offset
  kept _ := ⟨rfl, rfl, fun _ he row => andsTruthful_fields he row⟩
  sound hsound := ⟨hsound, by simp⟩
  truthful _ _ _ _ _ _ _ e he := andsTruthful_fields he _

theorem computes_pulled {v : Convention} {columns : List (Expr × String)} {below : NodeId}
    (hpads : pads = false) (hnode : c.IsNode input (.project v columns) [below])
    (hcolumns : ∀ e ∈ columns.map Prod.fst, ∀ i ∈ e.columnList, i < c.arity below) :
    c.Computes supplied input pads offset below (columns.map fun p => p.1.shift offset)
      (projectOn (columns.map Prod.fst)) where
  lt_size := hnode.input_lt List.mem_cons_self
  length_eq := by rw [List.length_map, hnode.arity_project]
  reads := Rule.reads_projection hcolumns
  kept h := by
    rw [hpads] at h
    cases h
  sound hsound := by
    rw [meaning_project supplied hnode.operator_eq hnode.inputs_eq]
    exact ⟨((sound_project_iff hnode.operator_eq hnode.inputs_eq).mp hsound).1, rfl⟩
  truthful hsound row hrow before after hbefore hwords e he := by
    obtain ⟨hbelow, hands⟩ := (sound_project_iff hnode.operator_eq hnode.inputs_eq).mp hsound
    obtain ⟨p, hp, rfl⟩ := List.mem_map.mp he
    have hwidth := (hbelow.fits (hnode.input_lt List.mem_cons_self)).width row hrow
    have hlt := hcolumns p.1 (List.mem_map_of_mem hp)
    rw [← hwidth] at hlt
    subst hbefore
    apply Expr.andsTruthful_shift_length hwords
    · intro i hi
      rw [List.length_append]
      exact Nat.lt_add_right _ (hlt i hi)
    · rw [Expr.andsTruthful_append_left hlt]
      exact hands row hrow p.1 (List.mem_map_of_mem hp)

/-- An input without possible rows has none to be computed from. -/
theorem Computes.empty {below : NodeId} {exprs : List Expr} {f : OutcomeRow → OutcomeRow}
    (h : c.Computes supplied input pads offset below exprs f) (hinput : c.Sound supplied input)
    (hempty : (c.meaning supplied input).possible = []) :
    c.meaning supplied input = ⟨[], []⟩ ∧ c.Sound supplied below ∧
      c.meaning supplied below = ⟨[], []⟩ := by
  obtain ⟨hbelow, hmeaning⟩ := h.sound hinput
  have hnone : (c.meaning supplied below).possible = [] := by
    rw [hmeaning] at hempty
    exact List.map_eq_nil_iff.mp hempty
  have hbelowEmpty := (hbelow.fits h.lt_size).eq_empty hnone
  rw [hmeaning, hbelowEmpty]
  exact ⟨rfl, hbelow, rfl⟩

variable (supplied) in
theorem Computes.of_pulled {below : NodeId} {exprs : List Expr} (hinput : input < c.size)
    (hcheck : c.check input = .ok ()) (h : Rule.Pulled c input pads offset below exprs) :
    ∃ f, c.Computes supplied input pads offset below exprs f := by
  cases h with
  | kept => exact ⟨id, computes_kept hinput⟩
  | @pulled v columns below hpads hnode =>
    exact ⟨_, computes_pulled hpads hnode (hnode.lt_of_project hcheck)⟩

/-! ## The projection above the join -/

theorem projectOn_append (exprs exprs' : List Expr) (row : OutcomeRow) :
    projectOn (exprs ++ exprs') row = projectOn exprs row ++ projectOn exprs' row := List.map_append

section

open Meaning

variable {padsLeft padsRight : Bool} {left right newLeft newRight : NodeId}
  {leftExprs rightExprs : List Expr} {f g : OutcomeRow → OutcomeRow}
  (hleft : c.Computes supplied left padsLeft 0 newLeft leftExprs f)
  (hright : c.Computes supplied right padsRight (c.arity newLeft) newRight rightExprs g)
  (hwords : c.arity newLeft + c.arity newRight ≤ UInt64.size)
  {lefts rights : List OutcomeRow} (hlefts : ∀ l ∈ lefts, l.length = c.arity newLeft)
  (hrights : ∀ r ∈ rights, r.length = c.arity newRight)

include hleft hright hwords

theorem projectOn_pulled {l r : OutcomeRow} (hl : l.length = c.arity newLeft)
    (hr : r.length = c.arity newRight) :
    projectOn (leftExprs ++ rightExprs) (l ++ r) = f l ++ g r := by
  rw [projectOn_append]
  congr 1
  · refine hleft.reads [] l r rfl hl ?_
    rw [List.length_append, hl, hr]
    omega
  · have hreads := hright.reads l r [] hl hr
    rw [List.append_nil, hr] at hreads
    exact hreads hwords

include hlefts hrights

/-- One projection over the whole row does what the pulled ones did to its parts. -/
theorem splits_pulled : Splits padsLeft padsRight (c.arity left) (c.arity right) (c.arity newLeft)
    (c.arity newRight) f g (projectOn (leftExprs ++ rightExprs)) lefts rights where
  pair l hl r hr := projectOn_pulled hleft hright hwords (hlefts l hl) (hrights r hr)
  padded_right hpads l hl := by
    obtain ⟨hnew, hg, -⟩ := hright.kept hpads
    rw [projectOn_pulled hleft hright hwords (hlefts l hl) (OutcomeRow.length_nulls _), hg, hnew]
    rfl
  padded_left hpads r hr := by
    obtain ⟨hnew, hf, -⟩ := hleft.kept hpads
    rw [projectOn_pulled hleft hright hwords (OutcomeRow.length_nulls _) (hrights r hr), hf, hnew]
    rfl

end

/-- Projected expressions stay truthful on the rows of the join, padded ones included. -/
theorem andsTruthful_pulled {joinType : JoinType} {left right newLeft newRight : NodeId}
    {leftExprs rightExprs : List Expr} {f g : OutcomeRow → OutcomeRow}
    (hleft : c.Computes supplied left joinType.padsLeft 0 newLeft leftExprs f)
    (hright : c.Computes supplied right joinType.padsRight (c.arity newLeft) newRight rightExprs g)
    (hwords : c.arity newLeft + c.arity newRight ≤ UInt64.size)
    (hsoundLeft : c.Sound supplied left) (hsoundRight : c.Sound supplied right) :
    ∀ row ∈ pairs joinType.padsLeft joinType.padsRight (c.arity newLeft) (c.arity newRight)
      (c.meaning supplied newLeft).possible (c.meaning supplied newRight).possible,
      ∀ e ∈ leftExprs ++ rightExprs, e.andsTruthful row = true := by
  have hfitsLeft := (hleft.sound hsoundLeft).1.fits hleft.lt_size
  have hfitsRight := (hright.sound hsoundRight).1.fits hright.lt_size
  have hleftPart : ∀ l ∈ (c.meaning supplied newLeft).possible, ∀ r : OutcomeRow,
      r.length = c.arity newRight → ∀ e ∈ leftExprs, e.andsTruthful (l ++ r) = true := by
    intro l hl r hr
    refine hleft.truthful hsoundLeft l hl [] r rfl ?_
    rw [List.length_append, hfitsLeft.width l hl, hr]
    omega
  have hrightPart : ∀ l : OutcomeRow, l.length = c.arity newLeft →
      ∀ r ∈ (c.meaning supplied newRight).possible, ∀ e ∈ rightExprs,
        e.andsTruthful (l ++ r) = true := by
    intro l hl r hr
    have htruthful := hright.truthful hsoundRight r hr l [] hl
    rw [List.append_nil, hfitsRight.width r hr] at htruthful
    exact htruthful hwords
  intro row hrow e he
  rcases mem_pairs.mp hrow with ⟨l, hl, r, hr, rfl⟩ | ⟨hpads, l, hl, rfl⟩ | ⟨hpads, r, hr, rfl⟩
  · rcases List.mem_append.mp he with he | he
    · exact hleftPart l hl r (hfitsRight.width r hr) e he
    · exact hrightPart l (hfitsLeft.width l hl) r hr e he
  · rcases List.mem_append.mp he with he | he
    · exact hleftPart l hl _ (OutcomeRow.length_nulls _) e he
    · exact (hright.kept hpads).2.2 e he _
  · rcases List.mem_append.mp he with he | he
    · exact (hleft.kept hpads).2.2 e he _
    · exact hrightPart _ (OutcomeRow.length_nulls _) r hr e he

section

variable {joinType : JoinType} {condition condition' : Expr} {id left right newLeft newRight join
  offered : NodeId} {leftExprs rightExprs : List Expr} {columns : List (Expr × String)}
  {v : Convention} {f g : OutcomeRow → OutcomeRow}
  (hid : c.IsNode id (.join .logical joinType condition) [left, right])
  (hleft : c.Computes supplied left joinType.padsLeft 0 newLeft leftExprs f)
  (hright : c.Computes supplied right joinType.padsRight (c.arity newLeft) newRight rightExprs g)
  (hthrough : condition.throughProjection? (leftExprs ++ rightExprs) = some condition')
  (hjoin : c.IsNode join (.join .logical joinType condition') [newLeft, newRight])
  (hcolumns : columns.map Prod.fst = leftExprs ++ rightExprs)
  (hoffered : c.IsNode offered (.project v columns) [join])

include hoffered in
theorem aboveJoin_of_empty (hid : c.meaning supplied id = ⟨[], []⟩)
    (hsound : c.Sound supplied join) (hempty : c.meaning supplied join = ⟨[], []⟩) :
    c.Sound supplied offered ∧ (c.meaning supplied offered).Refines (c.meaning supplied id) := by
  constructor
  · rw [sound_project_iff hoffered.operator_eq hoffered.inputs_eq, hempty]
    exact ⟨hsound, by simp⟩
  · rw [meaning_project supplied hoffered.operator_eq hoffered.inputs_eq, hempty, hid]
    exact .refl _

include hid hleft hright hthrough hjoin hcolumns hoffered in
/-- Projections below a join may be computed above it. -/
theorem standsFor_aboveJoin (hwords : c.arity join ≤ UInt64.size) : c.StandsFor supplied id offered := by
  rw [hjoin.arity_join] at hwords
  constructor
  · rw [hoffered.arity_project, hid.arity_join, ← hleft.length_eq,
      ← hright.length_eq, ← List.length_append, ← hcolumns, List.length_map]
  intro hsound
  rcases hid.cases_of_sound_join hsound with
    ⟨hpads, hsoundRight, hempty⟩ | ⟨hpads, hsoundLeft, hempty⟩ |
      ⟨hsoundLeft, hsoundRight, hpredicate⟩
  · obtain ⟨hmeaning, hnew, hnewEmpty⟩ := hright.empty hsoundRight hempty
    apply aboveJoin_of_empty hoffered
    · exact hid.joinsOver.meaning_eq_of_emptyRight hpads (by rw [hmeaning]) hempty
    · exact .emptyRight hjoin.joinsOver hpads hnew (by rw [hnewEmpty])
    · exact hjoin.joinsOver.meaning_eq_of_emptyRight hpads (by rw [hnewEmpty]) (by rw [hnewEmpty])
  · obtain ⟨hmeaning, hnew, hnewEmpty⟩ := hleft.empty hsoundLeft hempty
    apply aboveJoin_of_empty hoffered
    · exact hid.joinsOver.meaning_eq_of_emptyLeft hpads (by rw [hmeaning]) hempty
    · exact .emptyLeft hjoin.joinsOver hpads hnew (by rw [hnewEmpty])
    · exact hjoin.joinsOver.meaning_eq_of_emptyLeft hpads (by rw [hnewEmpty]) (by rw [hnewEmpty])
  · obtain ⟨hnewLeft, hmeaningLeft⟩ := hleft.sound hsoundLeft
    obtain ⟨hnewRight, hmeaningRight⟩ := hright.sound hsoundRight
    have hfitsLeft := hnewLeft.fits hleft.lt_size
    have hfitsRight := hnewRight.fits hright.lt_size
    have hands := andsTruthful_pulled hleft hright hwords hsoundLeft hsoundRight
    have hsplits := splits_pulled hleft hright hwords hfitsLeft.width hfitsRight.width
    rw [hmeaningLeft, hmeaningRight] at hpredicate
    simp only [List.forall_mem_map] at hpredicate
    have hjoinSound : c.Sound supplied join := by
      apply hjoin.sound_join hnewLeft hnewRight
      intro l hl r hr
      apply Expr.isPredicateOn_throughProjection hthrough
      · exact hands _ (mem_pairs.mpr (.inl ⟨l, hl, r, hr, rfl⟩))
      · show condition.isPredicateOn (projectOn (leftExprs ++ rightExprs) (l ++ r)) = true
        rw [hsplits.pair l hl r hr]
        exact hpredicate l hl r hr
    constructor
    · rw [sound_project_iff hoffered.operator_eq hoffered.inputs_eq, hjoin.meaning_join supplied, hcolumns]
      exact ⟨hjoinSound, hands⟩
    · rw [meaning_project supplied hoffered.operator_eq hoffered.inputs_eq, hjoin.meaning_join supplied,
        hid.meaning_join supplied, hmeaningLeft, hmeaningRight, hcolumns]
      dsimp only
      rw [joinOn_map (hsplits.subset hfitsLeft.subset hfitsRight.subset) ?_, pairs_map hsplits]
      · exact .refl _
      · intro l hl r hr
        show condition.holdsOn (f l ++ g r) = condition'.holdsOn (l ++ r)
        rw [Expr.holdsOn_throughProjection hthrough,
          ← hsplits.pair l (hfitsLeft.subset l hl) r (hfitsRight.subset r hr)]
        rfl

end

end Cluster

end QueryPlan
