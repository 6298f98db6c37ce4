import QueryPlan.Proofs.Execution.Regrouping
import QueryPlan.Proofs.View.Unification
/-!
# Aggregates over finer aggregates

An aggregate that is computed from a finer one reads its group columns and its calls from columns of
the finer one, whose input may be the same or below a projection of plain columns. Grouping the finer
one's rows again gives the aggregate's rows. Where the two have equally many group columns the rows
are not grouped again, which is right as long as no two of them agree on the columns that are read.
-/
namespace QueryPlan

open Execution

namespace Cluster

/-- Values order the rows of an aggregate's input: in no group column do they go in a circle. -/
def KeysOrdered (c : Cluster) (id : NodeId) : Prop :=
  ∀ a ∈ (c.operator id).aggregate?, ∀ input ∈ c.inputs id, ∀ i ∈ a.1.toList,
    Value.Ordered (Row.inColumn (c.ranRows input) i)

/-- The calls of an aggregate sum integers and nulls, and look for the least and the greatest of values
that are ordered. -/
def CallsDefined (c : Cluster) (id : NodeId) : Prop :=
  ∀ a ∈ (c.operator id).aggregate?, ∀ input ∈ c.inputs id, ∀ call ∈ a.2,
    (call.function.adds = true →
      ∀ v ∈ argumentsIn (c.ranRows input) call, v.isIntegerOrNull = true) ∧
    (call.function.picks = true → Value.Ordered (argumentsIn (c.ranRows input) call))

section

variable {c C : Cluster} {id input : NodeId}

theorem KeysOrdered.mono (hid : id < c.size) (h : c.KeysOrdered id) (hC : c.Extends C) :
    C.KeysOrdered id := by
  intro a ha input hinput
  rw [hC.operator_eq hid] at ha
  rw [hC.inputs_eq hid] at hinput
  rw [hC.ranRows_eq (inputs_lt_size hinput)]
  exact h a ha input hinput

theorem CallsDefined.mono (hid : id < c.size) (h : c.CallsDefined id) (hC : c.Extends C) :
    C.CallsDefined id := by
  intro a ha input hinput
  rw [hC.operator_eq hid] at ha
  rw [hC.inputs_eq hid] at hinput
  rw [hC.ranRows_eq (inputs_lt_size hinput)]
  exact h a ha input hinput

/-- The rows of a node with one input. -/
theorem IsNode.delivers_one {o : Operator} (hnode : c.IsNode id o [input])
    (hsub : o.isSubset = false) {rows : List Row} (h : c.Delivers id rows) :
    c.Delivers input (c.ranRows input) ∧ c.nodeRows false id [c.ranRows input] = .ok rows := by
  obtain ⟨hinputs, hown⟩ := (delivers_iff (by rw [hnode.operator_eq, hsub])).mp h
  rw [hnode.inputs_eq] at hinputs hown
  exact ⟨hinputs input List.mem_cons_self, hown⟩

theorem IsNode.nodeRows_aggregate {v : Convention} {group : ColumnSet} {calls : List AggregateCall}
    (hnode : c.IsNode id (.aggregate v group calls) [input]) {rows out : List Row} :
    c.nodeRows false id [rows] = .ok out ↔ aggregateRows group calls rows = .ok out := by
  have hop : (c.node id).operator = .aggregate v group calls := hnode.operator_eq
  simp only [nodeRows, hop, Bool.false_and, Bool.false_eq_true, if_false]
  exact Outcome.mapError_eq_ok

theorem IsNode.aggregateRows_eq {v : Convention} {group : ColumnSet} {calls : List AggregateCall}
    (hnode : c.IsNode id (.aggregate v group calls) [input]) {rows : List Row}
    (h : c.Delivers id rows) : aggregateRows group calls (c.ranRows input) = .ok rows :=
  hnode.nodeRows_aggregate.mp (hnode.delivers_one rfl h).2

end

end Cluster

namespace Unification

variable {c C : Cluster} {id target : NodeId}

/-! ## Columns of the input -/

/-- Each column of a node copies a column of another one. -/
inductive Copies (c : Cluster) (input targetInput : NodeId) : List Nat → Prop
  | same (eq : input = targetInput) : Copies c input targetInput (List.range (c.arity input))
  | projected {v : Convention} {columns : List (Expr × String)} {copied : List Nat}
      (node : c.IsNode input (.project v columns) [targetInput])
      (plain : List.Forall₂ (fun e i => e.1.asColumn? = some i) columns copied) :
      Copies c input targetInput copied

theorem copies_of_inputColumns? {input targetInput : NodeId} {copied : List Nat}
    (hinput : input < c.size) (h : inputColumns? c input targetInput = some copied) :
    Copies c input targetInput copied := by
  unfold inputColumns? at h
  split at h
  · next heq =>
    cases h
    exact .same heq
  · obtain ⟨columns, hcolumns, h⟩ := Option.bind_eq_some_iff.mp h
    obtain ⟨v, hop⟩ := Operator.projection?_eq_some hcolumns
    split at h
    · next hbelow =>
      exact .projected (Cluster.isNode_one hinput hop rfl hbelow)
        (Outcome.forall₂_of_mapM_eq_some h)
    · cases h

theorem Copies.mono {input targetInput : NodeId} {copied : List Nat} (hinput : input < c.size)
    (h : Copies c input targetInput copied) (hC : c.Extends C) :
    Copies C input targetInput copied := by
  cases h with
  | same heq =>
    rw [← hC.arity_eq hinput]
    exact .same heq
  | projected hnode hplain => exact .projected (hnode.mono hC) hplain

/-- The rows of the one node are copies of those of the other. -/
theorem Copies.rows {input targetInput : NodeId} {copied : List Nat}
    (h : Copies c input targetInput copied) (hinput : c.Delivers input (c.ranRows input)) :
    ∃ copy : Row → Row, c.ranRows input = (c.ranRows targetInput).map copy ∧
      ∀ row ∈ c.ranRows targetInput, ∀ g i : Nat, copied[g]? = some i →
        (copy row)[g]? = row[i]? := by
  cases h with
  | same heq =>
    subst heq
    refine ⟨id, (List.map_id _).symm, fun row _ g i hg => ?_⟩
    obtain ⟨_, rfl⟩ := List.getElem?_eq_some_iff.mp hg
    rw [List.getElem_range]
    rfl
  | @projected v columns _ hnode hplain =>
    obtain ⟨hvalues, hrows⟩ := projectRows_eq_ok_iff.mp
      (hnode.nodeRows_project.mp (hnode.delivers_one rfl hinput).2)
    refine ⟨projectedRow (columns.map Prod.fst), hrows, fun row hrow g i hg => ?_⟩
    obtain ⟨hlt, hi⟩ := List.getElem?_eq_some_iff.mp hg
    have hcolumns : g < columns.length := by
      rw [hplain.length_eq]
      exact hlt
    obtain ⟨t, ht⟩ : ∃ t, columns[g].1 = .column i t := by
      have := hplain.get hcolumns hlt
      rw [List.get_eq_getElem, List.get_eq_getElem, hi] at this
      exact Expr.asColumn?_eq_some this
    have hvalue := hvalues row hrow columns[g].1 (List.mem_map_of_mem (List.getElem_mem _))
    rw [ht] at hvalue
    rw [projectedRow, List.map_map, List.getElem?_map, List.getElem?_eq_getElem hcolumns,
      hvalue.getElem?_eq, Option.map_some, Function.comp, ht, Expr.valueOn_column]

/-! ## Places in the finer aggregate -/

/-- How an aggregate reads the rows of a finer one: the columns of the finer one's input that it groups
by, and the calls of the finer one that stand for its own. -/
structure RollsUp (c : Cluster) (id target : NodeId) (r : RollUp) (group targetGroup : ColumnSet)
    (calls targetCalls : List AggregateCall) (input targetInput : NodeId)
    (copied selected positions : List Nat) (chosen : List AggregateCall) : Prop where
  node : ∃ v, c.IsNode id (.aggregate v group calls) [input]
  targetNode : ∃ v, c.IsNode target (.aggregate v targetGroup targetCalls) [targetInput]
  copies : Copies c input targetInput copied
  columns : List.Forall₂ (fun g i : Nat => copied[g]? = some i) group.toList selected
  groups : List.Forall₂ (fun p i => targetGroup.toList[p]? = some i) r.groups selected
  mapped : List.Forall₂ (fun call t : AggregateCall => t.function = call.function ∧
    List.Forall₂ (fun a b : Nat => copied[a]? = some b) call.args t.args) calls chosen
  totals : List.Forall₂ (fun p t => ∃ j, p = targetGroup.toList.length + j ∧ targetCalls[j]? = some t)
    positions chosen
  calls_eq : r.calls = calls.zip positions
  sameGroups_iff : r.sameGroups = true ↔ r.groups.length = targetGroup.toList.length

theorem exists_of_groupPositions {targetGroup group : ColumnSet} {copied groups : List Nat}
    (h : (groupPositions targetGroup copied group).Finds groups) :
    ∃ selected, List.Forall₂ (fun g i : Nat => copied[g]? = some i) group.toList selected ∧
      List.Forall₂ (fun p i => targetGroup.toList[p]? = some i) groups selected := by
  rw [groupPositions, Matching.finds_mapM] at h
  generalize group.toList = columns at h ⊢
  induction h with
  | nil => exact ⟨[], .nil, .nil⟩
  | cons hg _ ih =>
    obtain ⟨selected, hcolumns, hgroups⟩ := ih
    simp only [Matching.finds_bind, Matching.finds_reading, Matching.finds_ofOption] at hg
    obtain ⟨i, hi, hp⟩ := hg
    exact ⟨i :: selected, .cons hi hcolumns, .cons (ColumnSet.indexOf?_eq_some.mp hp) hgroups⟩

theorem exists_of_callPositions {targetGroup : ColumnSet} {copied positions : List Nat}
    {calls targetCalls : List AggregateCall}
    (h : (calls.mapM (callPosition targetGroup targetCalls copied)).Finds positions) :
    ∃ chosen, List.Forall₂ (fun call t : AggregateCall => t.function = call.function ∧
        List.Forall₂ (fun a b : Nat => copied[a]? = some b) call.args t.args) calls chosen ∧
      List.Forall₂ (fun p t => ∃ j, p = targetGroup.toList.length + j ∧ targetCalls[j]? = some t)
        positions chosen := by
  rw [Matching.finds_mapM] at h
  induction h with
  | nil => exact ⟨[], .nil, .nil⟩
  | cons hcall _ ih =>
    obtain ⟨chosen, hmapped, htotals⟩ := ih
    simp only [callPosition, Matching.finds_bind, Matching.finds_mapM, Matching.finds_reading,
      Matching.finds_ofOption, Matching.finds_pure] at hcall
    obtain ⟨args, hargs, j, hj, rfl⟩ := hcall
    obtain ⟨hlt, heq, -⟩ := List.findIdx?_eq_some_iff_getElem.mp hj
    simp only [Bool.and_eq_true, beq_iff_eq] at heq
    refine ⟨targetCalls[j] :: chosen, .cons ⟨heq.1, ?_⟩ hmapped,
      .cons ⟨j, rfl, List.getElem?_eq_getElem hlt⟩ htotals⟩
    rw [heq.2]
    exact hargs

theorem exists_rollsUp {r : RollUp} (hid : id < c.size) (htarget : target < c.size)
    (h : (Unification.of c id target).Finds (.aggregate r)) :
    ∃ group targetGroup calls targetCalls input targetInput copied selected positions chosen,
      RollsUp c id target r group targetGroup calls targetCalls input targetInput copied selected
        positions chosen := by
  cases found_of_finds hid htarget h with
  | @aggregate _ group targetGroup calls targetCalls hnode htargetNode hfound =>
    obtain ⟨v, hop⟩ := Operator.aggregate?_eq_some hnode
    obtain ⟨v', hop'⟩ := Operator.aggregate?_eq_some htargetNode
    simp only [ofAggregates, Matching.finds_bind, Matching.finds_reading, Matching.finds_ofOption,
      Matching.finds_pure, aggregate.injEq] at hfound
    obtain ⟨input, hinput, targetInput, htargetInput, copied, hcopied, groups, hgroups, positions,
      hpositions, rfl⟩ := hfound
    obtain ⟨selected, hcolumns, hplaces⟩ := exists_of_groupPositions hgroups
    obtain ⟨chosen, hmapped, htotals⟩ := exists_of_callPositions hpositions
    exact ⟨group, targetGroup, calls, targetCalls, input, targetInput, copied, selected, positions,
      chosen, ⟨v, Cluster.isNode_one hid hop rfl hinput⟩,
      ⟨v', Cluster.isNode_one htarget hop' rfl htargetInput⟩,
      copies_of_inputColumns? (Cluster.lt_size_of_input? hinput) hcopied, hcolumns, hplaces, hmapped,
      htotals, rfl, decide_eq_true_iff⟩

/-! ## Rows in terms of the finer one's input -/

/-- Numbers for the columns of a node's rows, in the order of the values. -/
def ranks (c : Cluster) (input : NodeId) (i : Nat) : Value → Nat :=
  Value.below (Row.inColumn (c.ranRows input) i)

section

variable {r : RollUp} {group targetGroup : ColumnSet} {calls targetCalls chosen : List AggregateCall}
  {input targetInput : NodeId} {copied selected positions : List Nat} {rows targetRows : List Row}
  (h : RollsUp c id target r group targetGroup calls targetCalls input targetInput copied selected
    positions chosen)

include h

theorem RollsUp.mono (hC : c.Extends C) : RollsUp C id target r group targetGroup calls targetCalls
    input targetInput copied selected positions chosen := by
  obtain ⟨v, hnode⟩ := h.node
  obtain ⟨v', htargetNode⟩ := h.targetNode
  exact { h with
    node := ⟨v, hnode.mono hC⟩
    targetNode := ⟨v', htargetNode.mono hC⟩
    copies := h.copies.mono (hnode.input_lt List.mem_cons_self) hC }

theorem RollsUp.ranks (hkeys : c.KeysOrdered target) {i : Nat} (hi : i ∈ targetGroup.toList) :
    Value.Ranks (Unification.ranks c targetInput i) (Row.inColumn (c.ranRows targetInput) i) := by
  obtain ⟨v, hnode⟩ := h.targetNode
  refine Value.Ordered.ranks (hkeys (targetGroup, targetCalls) ?_ targetInput ?_ i hi)
  · rw [hnode.operator_eq]
    rfl
  · rw [hnode.inputs_eq]
    exact List.mem_cons_self

theorem RollsUp.selected_mem : ∀ i ∈ selected, i ∈ targetGroup.toList := by
  intro i hi
  obtain ⟨k, hk, rfl⟩ := List.getElem_of_mem hi
  have hlt : k < r.groups.length := by
    rw [h.groups.length_eq]
    exact hk
  exact List.mem_of_getElem? (h.groups.get hlt hk)

/-- The finer aggregate groups its input. -/
theorem RollsUp.grouped_target (hkeys : c.KeysOrdered target) (hdel : c.Delivers target targetRows) :
    Grouped (Unification.ranks c targetInput) targetGroup.toList targetCalls Accumulated
      (c.ranRows targetInput) targetRows := by
  obtain ⟨v, hnode⟩ := h.targetNode
  exact aggregateRows_grouped (fun i hi => h.ranks hkeys hi) (hnode.aggregateRows_eq hdel)

/-- So does the aggregate, by columns among those of the finer one. -/
theorem RollsUp.grouped (hkeys : c.KeysOrdered target) (hdel : c.Delivers id rows) :
    Grouped (Unification.ranks c targetInput) selected chosen Accumulated
      (c.ranRows targetInput) rows := by
  obtain ⟨v, hnode⟩ := h.node
  obtain ⟨copy, hrows, hcopy⟩ := h.copies.rows (hnode.delivers_one rfl hdel).1
  have haggregate := hnode.aggregateRows_eq hdel
  rw [hrows] at haggregate
  refine Grouped.of_copies hcopy h.columns h.mapped (aggregateRows_grouped (fun g hg => ?_) haggregate)
  obtain ⟨k, hk, rfl⟩ := List.getElem_of_mem hg
  have hlt : k < selected.length := by
    rw [← h.columns.length_eq]
    exact hk
  have hg := h.columns.get hk hlt
  rw [List.get_eq_getElem, List.get_eq_getElem] at hg
  rw [groupedRank_eq hg]
  refine (h.ranks hkeys (h.selected_mem _ (List.getElem_mem hlt))).mono fun w hw => ?_
  obtain ⟨_, hmem, hw⟩ := Row.mem_inColumn.mp hw
  obtain ⟨row, hrow, rfl⟩ := List.mem_map.mp hmem
  exact Row.mem_inColumn.mpr ⟨row, hrow, by rw [← hcopy row hrow _ _ hg, hw]⟩

theorem RollsUp.defined (hdefined : c.CallsDefined id) (hdel : c.Delivers id rows) :
    ∀ t ∈ chosen, (t.function.adds = true →
        ∀ v ∈ argumentsIn (c.ranRows targetInput) t, v.isIntegerOrNull = true) ∧
      (t.function.picks = true → Value.Ordered (argumentsIn (c.ranRows targetInput) t)) := by
  obtain ⟨v, hnode⟩ := h.node
  obtain ⟨copy, hrows, hcopy⟩ := h.copies.rows (hnode.delivers_one rfl hdel).1
  intro t ht
  obtain ⟨k, hk, rfl⟩ := List.getElem_of_mem ht
  have hlt : k < calls.length := by
    rw [h.mapped.length_eq]
    exact hk
  have hmapped := h.mapped.get hlt hk
  rw [List.get_eq_getElem, List.get_eq_getElem] at hmapped
  have harguments : argumentsIn (c.ranRows targetInput) chosen[k] =
      argumentsIn (c.ranRows input) calls[k] := by
    rw [hrows, argumentsIn, argumentsIn, List.filterMap_map]
    refine List.filterMap_congr fun row hrow => ?_
    rw [Function.comp, argumentValue_copy hcopy hmapped.2 hrow]
  rw [harguments, hmapped.1]
  refine hdefined (group, calls) ?_ input ?_ calls[k] (List.getElem_mem hlt)
  · rw [hnode.operator_eq]
    rfl
  · rw [hnode.inputs_eq]
    exact List.mem_cons_self

/-- The calls have totals. -/
theorem RollsUp.totalled (hdefined : c.CallsDefined id) (hdel : c.Delivers id rows) :
    ∀ t ∈ chosen, ∀ part v, (∀ row ∈ part, row ∈ c.ranRows targetInput) → Accumulated t part v →
      Totalled (argumentsIn (c.ranRows targetInput)) t part v := by
  intro t ht part v hpart hv
  obtain ⟨hadds, hpicks⟩ := h.defined hdefined hdel t ht
  exact hv.totalled hadds hpicks hpart

theorem RollsUp.positions_eq : r.calls.map Prod.snd = positions := by
  rw [h.calls_eq]
  refine List.map_snd_zip (Nat.le_of_eq ?_)
  rw [h.totals.length_eq, h.mapped.length_eq]

end

/-! ## Rows that are not grouped again -/

section

variable {r : RollUp} {group targetGroup : ColumnSet} {calls targetCalls chosen : List AggregateCall}
  {input targetInput : NodeId} {copied selected positions : List Nat} {rows targetRows : List Row}
  (h : RollsUp c id target r group targetGroup calls targetCalls input targetInput copied selected
    positions chosen)
  (hkeys : c.KeysOrdered target) (htarget : c.Delivers target targetRows)

include h hkeys htarget

/-- The class of a row of the finer aggregate by the columns that are read. -/
theorem RollsUp.keyClass_groups {t : Row} (ht : t ∈ targetRows) :
    KeyOver (c.ranRows targetInput) selected (t.select r.groups) ∧
      keyClass (Unification.ranks c targetInput) selected (t.select r.groups) =
        pick r.groups (keyClass (Unification.ranks c targetInput) targetGroup.toList t) := by
  have hselect := (h.grouped_target hkeys htarget).select_selected h.groups ht []
  rwa [List.append_nil] at hselect

/-- Rows that differ on the columns that are read are of different classes. -/
theorem RollsUp.pairwise_iff :
    (targetRows.Pairwise fun a b => (a.select r.groups).same (b.select r.groups) = false) ↔
      (targetRows.map fun t =>
        pick r.groups (keyClass (Unification.ranks c targetInput) targetGroup.toList t)).Nodup := by
  rw [List.Nodup, List.pairwise_map]
  refine List.Pairwise.iff_of_mem fun {a b} ha hb => ?_
  obtain ⟨hkey, hclass⟩ := h.keyClass_groups hkeys htarget ha
  obtain ⟨hkey', hclass'⟩ := h.keyClass_groups hkeys htarget hb
  have horder := order_eq_compare (fun i hi => h.ranks hkeys (h.selected_mem i hi)) hkey hkey'
  rw [hclass, hclass'] at horder
  rw [Row.same, horder, beq_eq_false_iff_ne, ne_eq, Std.LawfulEqOrd.compare_eq_iff_eq]

/-- Columns that are all different tell the rows of the finer aggregate apart if they are as many as
its group columns. -/
theorem RollsUp.nodup_of_nodup (hsame : r.sameGroups = true) (hnodup : r.groups.Nodup) :
    (targetRows.map fun t =>
      pick r.groups (keyClass (Unification.ranks c targetInput) targetGroup.toList t)).Nodup := by
  have hlt : ∀ p ∈ r.groups, p ∈ List.range targetGroup.toList.length := by
    intro p hp
    obtain ⟨i, hi⟩ := exists_column h.groups hp
    exact List.mem_range.mpr (List.getElem?_eq_some_iff.mp hi).1
  have hperm : r.groups.Perm (List.range targetGroup.toList.length) := by
    refine (hnodup.subperm hlt).perm_of_length_le (Nat.le_of_eq ?_)
    rw [List.length_range, h.sameGroups_iff.mp hsame]
  have hgrouped := h.grouped_target hkeys htarget
  have hlength : ∀ t ∈ targetRows,
      (keyClass (Unification.ranks c targetInput) targetGroup.toList t).length =
        targetGroup.toList.length := by
    intro t ht
    obtain ⟨key, values, rfl, hkey, -⟩ := hgrouped.values t ht
    rw [keyClass, List.length_zipWith, List.length_append, hkey.length_eq]
    omega
  have hclasses := hgrouped.nodup
  rw [List.Nodup, List.pairwise_map] at hclasses ⊢
  refine hclasses.imp_of_mem fun {a b} ha hb hne heq => hne ?_
  refine List.ext_getElem ((hlength a ha).trans (hlength b hb).symm) fun p hp hp' => ?_
  have hmem : p ∈ r.groups := hperm.mem_iff.mpr (List.mem_range.mpr (hlength a ha ▸ hp))
  have hvalue := List.map_inj_left.mp heq p hmem
  rwa [List.getElem?_eq_getElem hp, List.getElem?_eq_getElem hp'] at hvalue

variable (hdel : c.Delivers id rows) (hsame : r.sameGroups = true)

include hdel hsame

/-- The aggregate has fewer rows if classes of the finer one's rows agree. -/
theorem RollsUp.nodup_of_similar
    (hsimilar : Row.Similar rows (targetRows.map (Row.select (r.groups ++ positions)))) :
    (targetRows.map fun t =>
      pick r.groups (keyClass (Unification.ranks c targetInput) targetGroup.toList t)).Nodup := by
  have hgrouped := h.grouped hkeys hdel
  have hfiner := h.grouped_target hkeys htarget
  have hsub : rows.map (keyClass (Unification.ranks c targetInput) selected) ⊆
      targetRows.map fun t =>
        pick r.groups (keyClass (Unification.ranks c targetInput) targetGroup.toList t) := by
    intro k hk
    rcases (hfiner.isClass_iff h.groups k).mp ((hgrouped.classes k).mp hk) with hmem | ⟨hnil, rfl⟩
    · exact List.mem_map.mpr hmem
    · -- without group columns the finer aggregate has a row too
      have hgroups : r.groups = [] := by
        rw [← List.length_eq_zero_iff, h.groups.length_eq, hnil, List.length_nil]
      have hcolumns : targetGroup.toList = [] := by
        rw [← List.length_eq_zero_iff, ← h.sameGroups_iff.mp hsame, hgroups, List.length_nil]
      obtain ⟨t, ht, -⟩ := List.mem_map.mp ((hfiner.classes []).mpr (.inr ⟨hcolumns, rfl⟩))
      exact List.mem_map.mpr ⟨t, ht, by rw [hgroups]; rfl⟩
  have hlength := hsimilar.length_eq
  rw [List.length_map] at hlength
  refine ((hgrouped.nodup.subperm hsub).perm_of_length_le (Nat.le_of_eq ?_)).nodup_iff.mp
    hgrouped.nodup
  rw [List.length_map, List.length_map, hlength]

/-- Rows of the finer aggregate that differ on the columns that are read are the aggregate's. -/
theorem RollsUp.similar_of_nodup (hdefined : c.CallsDefined id)
    (hnodup : (targetRows.map fun t =>
      pick r.groups (keyClass (Unification.ranks c targetInput) targetGroup.toList t)).Nodup) :
    Row.Similar rows (targetRows.map (Row.select (r.groups ++ positions))) := by
  have hnil : r.groups = [] → targetGroup.toList = [] := by
    intro hgroups
    rw [← List.length_eq_zero_iff, ← h.sameGroups_iff.mp hsame, hgroups, List.length_nil]
  have hselect := (h.grouped_target hkeys htarget).select h.groups hnil h.totals hnodup
  have htotals := h.totalled hdefined hdel
  exact Grouped.similar (fun i hi => h.ranks hkeys (h.selected_mem i hi))
    (fun t ht => (h.defined hdefined hdel t ht).2) ((h.grouped hkeys hdel).imp htotals)
    (hselect.imp htotals)

end

/-! ## Rows that are grouped again -/

/-- A roll-up reads every column of the rows that are grouped again. -/
theorem RollUp.mem_positions {r : RollUp} {k : Nat} : k ∈ RollUp.positions r ↔
    k < (ColumnSet.ofList r.groups).toList.length + r.calls.length := by
  simp only [RollUp.positions, List.mem_append, List.mem_filterMap, List.mem_map, List.mem_range,
    ColumnSet.indexOf?_eq_some, ColumnSet.size]
  constructor
  · rintro (⟨p, -, hk⟩ | ⟨j, hj, rfl⟩)
    · have := (List.getElem?_eq_some_iff.mp hk).1
      omega
    · omega
  · intro hk
    rcases Nat.lt_or_ge k (ColumnSet.ofList r.groups).toList.length with hlt | hge
    · exact .inl ⟨_, ColumnSet.mem_toList_ofList.mp (List.getElem_mem hlt),
        List.getElem?_eq_getElem hlt⟩
    · exact .inr ⟨k - (ColumnSet.ofList r.groups).toList.length, by omega, by omega⟩

section

variable {r : RollUp} {group targetGroup : ColumnSet} {calls targetCalls chosen : List AggregateCall}
  {input targetInput replacement rolled : NodeId} {copied selected positions : List Nat}
  {rows targetRows again : List Row}
  (h : RollsUp c id target r group targetGroup calls targetCalls input targetInput copied selected
    positions chosen)

include h

/-- The calls over the finer aggregate combine what its own calls return. -/
theorem RollsUp.combines : List.Forall₂ (fun t rolledCall : AggregateCall =>
      ∃ j, targetCalls[j]? = some t ∧ rolledCall.function = t.function.rollUp ∧
        rolledCall.args = [targetGroup.toList.length + j])
    chosen (r.calls.map fun (call, position) => ⟨call.function.rollUp, [position], call.name⟩) := by
  have hmapped := h.mapped
  have htotals := h.totals
  rw [h.calls_eq]
  clear h
  induction hmapped generalizing positions with
  | nil => exact .nil
  | cons hcall _ ih =>
    cases htotals with
    | cons hposition htotals =>
      obtain ⟨j, rfl, hj⟩ := hposition
      exact .cons ⟨j, hj, by rw [hcall.1], rfl⟩ (ih htotals)

/-- The rows that are grouped again are the aggregate's. -/
theorem RollsUp.similar_rolled (hkeys : c.KeysOrdered target) (hdefined : c.CallsDefined id)
    (hdel : c.Delivers id rows) (htarget : c.Delivers target targetRows)
    (hreplacement : c.Delivers replacement targetRows)
    (hnode : c.IsNode rolled (RollUp.aggregate r) [replacement]) (hrolled : c.Delivers rolled again) :
    Row.Similar rows (again.map (Row.select (RollUp.positions r))) := by
  have hfiner := h.grouped_target hkeys htarget
  have hinput : replacement < c.size := hnode.input_lt List.mem_cons_self
  have haggregate := Cluster.IsNode.aggregateRows_eq hnode hrolled
  rw [Cluster.ranRows_of_delivers hinput hreplacement] at haggregate
  have hranks : ∀ p ∈ (ColumnSet.ofList r.groups).toList,
      Value.Ranks (groupedRank (Unification.ranks c targetInput) targetGroup.toList p)
        (Row.inColumn targetRows p) := by
    intro p hp
    obtain ⟨i, hi⟩ := exists_column h.groups (ColumnSet.mem_toList_ofList.mp hp)
    exact hfiner.ranks_again hi (h.ranks hkeys (List.mem_of_getElem? hi))
  have hagain := aggregateRows_grouped hranks haggregate
  have htotals := h.totalled hdefined hdel
  have hpicks := fun t ht => (h.defined hdefined hdel t ht).2
  have hrollUp := hfiner.rollUp htotals hpicks hagain h.groups
    (fun p => ColumnSet.mem_toList_ofList)
    (ColumnSet.forall₂_filterMap_indexOf? fun p hp => ColumnSet.mem_toList_ofList.mpr hp) h.combines
  rw [List.length_map] at hrollUp
  exact Grouped.similar (fun i hi => h.ranks hkeys (h.selected_mem i hi)) hpicks
    ((h.grouped hkeys hdel).imp htotals) hrollUp

end

/-! ## Building -/

section

variable {input built : NodeId} {columns : List Nat} {names : List String} {selected : List Row}

/-- A projection of fields selects columns of its input, and it may be its input if these are all. -/
theorem select_of_fieldsOver (hinput : input < c.size)
    (h : (fieldsOver input columns names).Runs c built C) (hbuilt : C.Delivers built selected) :
    ∃ rows, C.Delivers input rows ∧
      ((columns = List.range (c.arity input) → HaveWidth (c.arity input) rows) →
        selected = rows.map (Row.select columns)) := by
  obtain ⟨exprs, hexprs, hproject⟩ := runs_fieldsOver.mp h
  have hcolumns : List.Forall₂ (fun i e => ∃ t, e = Expr.column i t) columns exprs := by
    refine (Outcome.forall₂_of_mapM_eq_some hexprs).imp fun i e he => ?_
    obtain ⟨field, -, rfl⟩ := Option.map_eq_some_iff.mp he
    exact ⟨field.dataType, rfl⟩
  have hnames := Rule.map_fst_zip_projectionNames exprs names
  obtain ⟨hgrow, hprojected⟩ := runs_projectOver hproject
  rcases hprojected with hnode | ⟨rfl, hidentity⟩
  · obtain ⟨hdel, hown⟩ := hnode.delivers_one rfl hbuilt
    obtain ⟨-, rfl⟩ := projectRows_eq_ok_iff.mp (hnode.nodeRows_project.mp hown)
    rw [hnames]
    exact ⟨_, hdel, fun _ => List.map_congr_left fun row _ => projectedRow_columns hcolumns⟩
  · refine ⟨selected, hbuilt, fun hwidth => ?_⟩
    rw [hnames, hgrow.arity_eq hinput, Expr.areIdentity, beq_iff_eq] at hidentity
    have hrange : columns = List.range (c.arity built) := by
      have hsome : columns.map some = exprs.map Expr.asColumn? := by
        rw [← List.forall₂_eq_eq_eq, List.forall₂_map_left_iff, List.forall₂_map_right_iff]
        refine hcolumns.imp fun i e he => ?_
        obtain ⟨t, rfl⟩ := he
        rfl
      rw [hidentity] at hsome
      exact List.map_injective_iff.mpr (fun _ _ => Option.some.inj) hsome
    refine (List.map_id' _).symm.trans (List.map_congr_left fun row hrow => ?_)
    rw [hrange, ← hwidth hrange row hrow]
    refine List.ext_getElem (by simp [Row.select]) fun i hi hi' => ?_
    simp [Row.select, Row.valueAt, hi]

theorem lt_size_of_fieldsOver (hinput : input < c.size)
    (h : (fieldsOver input columns names).Runs c built C) : built < C.size := by
  have hgrow := (grows_fieldsOver _ _ _).runs h
  obtain ⟨_, -, hproject⟩ := runs_fieldsOver.mp h
  rcases (runs_projectOver hproject).2 with hnode | ⟨rfl, -⟩
  · exact hnode.lt_size
  · exact hgrow.lt_size hinput

end

/-- The plan that is built for an aggregate has its rows, up to their order and the choice among equal
values, just if rows are grouped again or no two rows of the target agree on the group columns that are
read. That is so if these columns are all different. -/
theorem rollUp_rows {c c₁ c₂ : Cluster} {id target replacement built : NodeId} {r : RollUp}
    {targetRows rows rows' : List Row} (hid : id < c.size) (htarget : target < c.size)
    (hfound : (Unification.of c id target).Finds (.aggregate r))
    (hkeys : c.KeysOrdered target) (hdefined : c.CallsDefined id)
    (hwidth : HaveWidth (c.arity target) targetRows) (htargetRows : c.Returns target targetRows)
    (hc₁ : c.Extends c₁) (hreplacement : replacement < c₁.size)
    (hcompatible : (c₁.rowType target).isCompatible (c₁.rowType replacement) = true)
    (hreplacementRows : c₁.Returns replacement targetRows)
    (hbuild : ((aggregate r).build replacement).Runs c₁ built c₂)
    (hrows : c.Returns id rows) (hbuiltRows : c₂.Returns built rows') :
    ((r.sameGroups = true → r.groups.Nodup) → Row.Similar rows rows') ∧
    (Row.Similar rows rows' ↔ (r.sameGroups = true →
      targetRows.Pairwise fun a b => (a.select r.groups).same (b.select r.groups) = false)) := by
  obtain ⟨_, _, _, _, _, _, _, _, positions, _, hrollsUp⟩ := exists_rollsUp hid htarget hfound
  have hgrow := (grows_build _ _).runs hbuild
  have hC := hc₁.trans hgrow
  have h := hrollsUp.mono hC
  replace hkeys := Cluster.KeysOrdered.mono htarget hkeys hC
  replace hdefined := Cluster.CallsDefined.mono hid hdefined hC
  have hdel := (hC.delivers_iff hid).mpr (hrows.delivers hid)
  have htargetDel := (hC.delivers_iff htarget).mpr (htargetRows.delivers htarget)
  have hreplacementDel :=
    (hgrow.delivers_iff hreplacement).mpr (hreplacementRows.delivers hreplacement)
  unfold build at hbuild
  dsimp only at hbuild
  split at hbuild
  · next hsame =>
    have hbuilt := hbuiltRows.delivers (lt_size_of_fieldsOver hreplacement hbuild)
    obtain ⟨read, hread, hselected⟩ := select_of_fieldsOver hreplacement hbuild hbuilt
    obtain rfl := hread.unique hreplacementDel
    have harity : c₁.arity replacement = c.arity target :=
      (RowType.arity_eq_of_isCompatible hcompatible).symm.trans (hc₁.arity_eq htarget)
    rw [h.pairwise_iff hkeys htargetDel, hselected fun _ => harity ▸ hwidth, h.positions_eq]
    have hsimilar := h.similar_of_nodup hkeys htargetDel hdel hsame hdefined
    exact ⟨fun hnodup => hsimilar (h.nodup_of_nodup hkeys htargetDel hsame (hnodup hsame)),
      fun hrows _ => h.nodup_of_similar hkeys htargetDel hdel hsame hrows,
      fun hnodup => hsimilar (hnodup hsame)⟩
  · next hsame =>
    rw [Planning.runs_bind] at hbuild
    obtain ⟨rolled, c₃, hcreate, hbuild⟩ := hbuild
    obtain ⟨-, hnode⟩ := Cluster.runs_createDefault hcreate
    have hbuilt := hbuiltRows.delivers (lt_size_of_fieldsOver hnode.lt_size hbuild)
    obtain ⟨again, hagain, hselected⟩ := select_of_fieldsOver hnode.lt_size hbuild hbuilt
    have hrolled := hnode.mono ((grows_fieldsOver _ _ _).runs hbuild)
    have hsimilar := h.similar_rolled hkeys hdefined hdel htargetDel hreplacementDel hrolled hagain
    rw [← hselected fun hrange => ?_] at hsimilar
    · exact ⟨fun _ => hsimilar, fun _ hr => absurd hr hsame, fun _ => hsimilar⟩
    · have hrows := width_aggregateRows (Cluster.IsNode.aggregateRows_eq hrolled hagain)
      rw [List.length_map] at hrows
      have hmem := fun k => @RollUp.mem_positions r k
      simp only [hrange, List.mem_range] at hmem
      have harity : c₃.arity rolled = (ColumnSet.ofList r.groups).toList.length + r.calls.length :=
        Nat.le_antisymm (Nat.le_of_not_lt fun hlt => Nat.lt_irrefl _ ((hmem _).mp hlt))
          (Nat.le_of_not_lt fun hlt => Nat.lt_irrefl _ ((hmem _).mpr hlt))
      rw [harity]
      exact hrows

/-! ## Counts of pairs -/

/-- Pairs of numbers. -/
def pairs : Table :=
  { name := ["T"], rowType := ⟨[⟨"a", .bigint, true⟩, ⟨"b", .bigint, true⟩]⟩,
    source := some (.ok [[.integer 1, .integer 1], [.integer 1, .integer 2]]) }

/-- Each pair with the number of times that it occurs. -/
def countedPairs : Table :=
  { name := ["V"], rowType := ⟨pairs.rowType.fields ++ [⟨"n", .bigint, false⟩]⟩,
    source := some (.ok [[.integer 1, .integer 1, .integer 1],
      [.integer 1, .integer 2, .integer 1]]) }

/-- Counts of the pairs, of first elements taken twice and, at the end, of first elements. -/
def countPairs : Planning NodeId := do
  let count : AggregateCall := ⟨.count, [], "n"⟩
  let scan ← Cluster.createDefault (.scan .none pairs) []
  let _ ← Cluster.createDefault (.aggregate .none (ColumnSet.ofList [0, 1]) [count]) [scan]
  let twice ← Cluster.createDefault
    (.project .none [(.column 0 .bigint, "a"), (.column 0 .bigint, "b")]) [scan]
  let _ ← Cluster.createDefault (.aggregate .none (ColumnSet.ofList [0, 1]) [count]) [twice]
  let _ ← Cluster.createDefault (.scan .none countedPairs) []
  Cluster.createDefault (.aggregate .none (ColumnSet.ofList [0]) [count]) [scan]

def pairSession : Cluster :=
  (countPairs.run.run (Cluster.start ⟨[pairs, countedPairs]⟩ default default)).2

def firstsOfPairs : RollUp := ⟨[0], [(⟨.count, [], "n"⟩, 2)], false, ["a", "n"]⟩

def firstsTaken : Cluster := ((build (.aggregate firstsOfPairs) 4).run.run pairSession).2

theorem rollUp_rows_firsts :
    Row.Similar (pairSession.ranRows 5) (firstsTaken.ranRows 6) := by
  have hkeys : pairSession.KeysOrdered 1 := by unfold Cluster.KeysOrdered; decide +kernel
  have hdefined : pairSession.CallsDefined 5 := by unfold Cluster.CallsDefined; decide +kernel
  have hfound : (Unification.of pairSession 5 1).Finds (.aggregate firstsOfPairs) := rfl
  have htarget : pairSession.Returns 1 (pairSession.ranRows 1) :=
    Cluster.returns_of_ranRows (by decide +kernel) rfl
  have hreplacement : pairSession.Returns 4 (pairSession.ranRows 1) :=
    Cluster.returns_of_ranRows (by decide +kernel) (by decide +kernel)
  exact (rollUp_rows (by decide +kernel) (by decide +kernel) hfound hkeys hdefined
    (by decide +kernel) htarget (.refl _) (by decide +kernel) (by decide +kernel) hreplacement
    (Planning.runs_of_toOption (by decide +kernel))
    (Cluster.returns_of_ranRows (by decide +kernel) rfl)
    (Cluster.returns_of_ranRows (by decide +kernel) rfl)).1 fun hsame => by cases hsame

def firstsTwice : RollUp := ⟨[0, 0], [(⟨.count, [], "n"⟩, 2)], true, ["a", "b", "n"]⟩

def firstsTwiceTaken : Cluster := ((build (.aggregate firstsTwice) 4).run.run pairSession).2

/-- A group column that is taken twice counts as two, so that rows of one group are left apart. -/
theorem rollUp_splits_groups :
    (Unification.of pairSession 3 1).Finds (.aggregate firstsTwice) ∧
    pairSession.KeysOrdered 1 ∧ pairSession.CallsDefined 3 ∧
    (∃ rows, HaveWidth (pairSession.arity 1) rows ∧ pairSession.Returns 1 rows ∧
      pairSession.Returns 4 rows) ∧
    (pairSession.rowType 1).isCompatible (pairSession.rowType 4) = true ∧
    (build (.aggregate firstsTwice) 4).Runs pairSession 6 firstsTwiceTaken ∧
    pairSession.Returns 3 [[.integer 1, .integer 1, .integer 2]] ∧
    firstsTwiceTaken.Returns 6 [[.integer 1, .integer 1, .integer 1],
      [.integer 1, .integer 1, .integer 1]] ∧
    ¬ Row.Similar [[.integer 1, .integer 1, .integer 2]]
      [[.integer 1, .integer 1, .integer 1], [.integer 1, .integer 1, .integer 1]] := by
  refine ⟨rfl, by unfold Cluster.KeysOrdered; decide +kernel,
    by unfold Cluster.CallsDefined; decide +kernel,
    ⟨pairSession.ranRows 1, by decide +kernel,
      Cluster.returns_of_ranRows (by decide +kernel) rfl,
      Cluster.returns_of_ranRows (by decide +kernel) (by decide +kernel)⟩, by decide +kernel,
    Planning.runs_of_toOption (by decide +kernel),
    Cluster.returns_of_ranRows (by decide +kernel) (by decide +kernel),
    Cluster.returns_of_ranRows (by decide +kernel) (by decide +kernel), fun hsimilar => ?_⟩
  cases hsimilar.length_eq

end Unification

end QueryPlan
