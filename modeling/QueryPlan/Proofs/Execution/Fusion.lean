import QueryPlan.Proofs.Execution.Overflow
import QueryPlan.Proofs.Execution.Regrouping
/-!
# Aggregates of aggregates

An aggregate by some columns can be computed from one by more columns: the finer one's rows are grouped
by the places of the columns, and each call combines what the finer one's call returns. Where columns
do not mix integers and doubles, equal values are the same, so that both ways lead to the same rows in
the same order.
-/
namespace QueryPlan

namespace Value

/-- Integers and doubles do not both occur among the values. -/
def Unmixed (values : List Value) : Prop :=
  ∃ lacks, SeparatesNumbers lacks ∧ ∀ v ∈ values, v.dataType ≠ lacks

theorem Unmixed.ordered {values : List Value} (h : Unmixed values) : Ordered values := by
  obtain ⟨lacks, hlacks, hvalues⟩ := h
  exact ordered_of_lacks hlacks hvalues

/-- Values that compare as equal are the same, be they among the values or null. -/
theorem Unmixed.eq_of_compare {values : List Value} (h : Unmixed values) {v w : Value}
    (hv : v.isNull = false → v ∈ values) (hw : w.isNull = false → w ∈ values)
    (heq : compare v w = .eq) : v = w := by
  obtain ⟨lacks, hlacks, hvalues⟩ := h
  have hnull : ∀ u : Value, (u.isNull = false → u ∈ values) → u.dataType ≠ lacks := by
    intro u hu
    cases hcase : u.isNull with
    | false => exact hvalues u (hu hcase)
    | true =>
      rw [Value.eq_null hcase]
      rcases hlacks with rfl | rfl <;> decide
  exact Value.eq_of_compare hlacks (hnull v hv) (hnull w hw) heq

end Value

namespace ColumnSet

/-- A list that increases is the list of its set. -/
theorem toList_ofList {bits : List Nat} (h : bits.Pairwise (· < ·)) : (ofList bits).toList = bits := by
  have hnodup : ∀ {l : List Nat}, l.Pairwise (· < ·) → l.Nodup := fun hl => hl.imp Nat.ne_of_lt
  have hperm := (List.perm_ext_iff_of_nodup (hnodup (ofList bits).increasing) (hnodup h)).mpr
    fun _ => mem_toList_ofList
  exact hperm.eq_of_pairwise (fun a b _ _ hab hba => absurd hab (Nat.lt_asymm hba))
    (ofList bits).increasing h

theorem indexOf?_lt {s : ColumnSet} {a b i j : Nat} (hlt : a < b) (hi : s.indexOf? a = some i)
    (hj : s.indexOf? b = some j) : i < j := by
  obtain ⟨hilt, rfl⟩ := List.getElem?_eq_some_iff.mp (indexOf?_eq_some.mp hi)
  obtain ⟨hjlt, rfl⟩ := List.getElem?_eq_some_iff.mp (indexOf?_eq_some.mp hj)
  rcases Nat.lt_trichotomy i j with h | rfl | h
  · exact h
  · exact absurd hlt (Nat.lt_irrefl _)
  · exact absurd (List.pairwise_iff_getElem.mp s.increasing j i hjlt hilt h) (Nat.lt_asymm hlt)

/-- The positions that the columns of a set have in another one. -/
def positionsIn (sub group : ColumnSet) : ColumnSet := ofList (sub.toList.filterMap group.indexOf?)

theorem toList_positionsIn (sub group : ColumnSet) :
    (sub.positionsIn group).toList = sub.toList.filterMap group.indexOf? :=
  toList_ofList <| List.Pairwise.filterMap group.indexOf?
    (fun _ _ hlt _ hi _ hj => indexOf?_lt hlt hi hj) sub.increasing

/-- What is at the positions of columns. -/
theorem forall₂_positionsIn {sub group : ColumnSet} (h : group.includes sub = true) :
    List.Forall₂ (fun p i => group.toList[p]? = some i) (sub.positionsIn group).toList sub.toList := by
  rw [toList_positionsIn]
  exact (forall₂_filterMap_indexOf? (includes_iff.mp h)).flip

end ColumnSet

open Outcome

namespace Execution

/-! ## What an aggregate reads -/

/-- An aggregate reads the column, for its groups or for a call. -/
def Reads (group : ColumnSet) (calls : List AggregateCall) (i : Nat) : Prop :=
  i ∈ group.toList ∨ ∃ call ∈ calls, i ∈ call.args

/-- Calls have an argument, but for counts; rows have the columns that are read, none of which mixes
integers and doubles; and only integers are added up. -/
structure Aggregable (group : ColumnSet) (calls : List AggregateCall) (rows : List Row) : Prop where
  arguments : ∀ call ∈ calls, call.function ≠ .count → call.args.length = 1
  reaches : ∀ row ∈ rows, ∀ i, Reads group calls i → i < row.length
  unmixed : ∀ i, Reads group calls i → Value.Unmixed (Row.inColumn rows i)
  integers : ∀ call ∈ calls, call.function.adds = true → ∀ i ∈ call.args,
    ∀ v ∈ Row.inColumn rows i, v.isIntegerOrNull = true

/-- What a call takes from rows without an argument. -/
theorem argumentsIn_nil {rows : List Row} {call : AggregateCall} (h : call.args = []) {v : Value}
    (hv : v ∈ argumentsIn rows call) : v = .boolean true := by
  obtain ⟨row, -, hv⟩ := List.mem_filterMap.mp hv
  rw [argumentValue, h] at hv
  exact (Option.some.inj hv).symm

theorem argumentsIn_cons {rows : List Row} {call : AggregateCall} {a : Nat} {as : List Nat}
    (h : call.args = a :: as) {v : Value} (hv : v ∈ argumentsIn rows call) :
    v ∈ Row.inColumn rows a := by
  obtain ⟨row, hrow, hv⟩ := List.mem_filterMap.mp hv
  rw [argumentValue, h] at hv
  dsimp only [columnValue] at hv
  refine Row.mem_inColumn.mpr ⟨row, hrow, ?_⟩
  cases ha : row[a]? with
  | none => rw [ha] at hv; cases hv
  | some w => rw [ha] at hv; exact hv

section

variable {group sub : ColumnSet} {calls : List AggregateCall} {rows out : List Row}

theorem Aggregable.mono (h : Aggregable group calls rows) (hsub : group.includes sub = true) :
    Aggregable sub calls rows where
  arguments := h.arguments
  reaches row hrow i hi := h.reaches row hrow i (hi.imp_left (ColumnSet.includes_iff.mp hsub i))
  unmixed i hi := h.unmixed i (hi.imp_left (ColumnSet.includes_iff.mp hsub i))
  integers := h.integers

variable (h : Aggregable group calls rows)

include h

theorem Aggregable.unmixed_argumentsIn {call : AggregateCall} (hcall : call ∈ calls) :
    Value.Unmixed (argumentsIn rows call) := by
  cases hargs : call.args with
  | nil =>
    refine ⟨.bigint, .inl rfl, fun v hv => ?_⟩
    rw [argumentsIn_nil hargs hv]
    decide
  | cons a as =>
    obtain ⟨lacks, hlacks, hvalues⟩ :=
      h.unmixed a (.inr ⟨call, hcall, hargs ▸ List.mem_cons_self⟩)
    exact ⟨lacks, hlacks, fun v hv => hvalues v (argumentsIn_cons hargs hv)⟩

theorem Aggregable.integers_argumentsIn {call : AggregateCall} (hcall : call ∈ calls)
    (hadds : call.function.adds = true) : ∀ v ∈ argumentsIn rows call, v.isIntegerOrNull = true := by
  have hcount : call.function ≠ .count := by
    intro hcount
    rw [hcount] at hadds
    cases hadds
  obtain ⟨a, hargs⟩ := List.length_eq_one_iff.mp (h.arguments call hcall hcount)
  exact fun v hv => h.integers call hcall hadds a (hargs ▸ List.mem_cons_self) v
    (argumentsIn_cons hargs hv)

theorem Aggregable.takes {row : Row} (hrow : row ∈ rows) {call : AggregateCall}
    (hcall : call ∈ calls) : Takes call row := by
  have hvalue : ∃ v, argumentValue call row = .ok v := by
    unfold argumentValue
    cases hargs : call.args with
    | nil => exact ⟨_, rfl⟩
    | cons a as =>
      have ha := h.reaches row hrow a (.inr ⟨call, hcall, hargs ▸ List.mem_cons_self⟩)
      exact ⟨row[a], by simp only [columnValue, List.getElem?_eq_getElem ha]⟩
  obtain ⟨v, hv⟩ := hvalue
  refine ⟨v, hv, fun hadds => h.integers_argumentsIn hcall hadds v ?_⟩
  exact List.mem_filterMap.mpr ⟨row, hrow, by rw [hv]; rfl⟩

theorem Aggregable.exists_rows (hfits : ¬ Overflows (aggregateRows group calls rows)) :
    ∃ out, aggregateRows group calls rows = .ok out := by
  obtain ⟨out, hout, -⟩ := (yields_aggregateRows
    (fun row hrow i hi => h.reaches row hrow i (.inl hi)) fun row hrow _ => h.takes hrow).exists_ok hfits
  exact ⟨out, hout⟩

/-- The values in a column, numbered. -/
abbrev columnRank (rows : List Row) (i : Nat) : Value → Nat := Value.below (Row.inColumn rows i)

theorem Aggregable.ranks {i : Nat} (hi : i ∈ group.toList) :
    Value.Ranks (columnRank rows i) (Row.inColumn rows i) := (h.unmixed i (.inl hi)).ordered.ranks

/-- Rows of totals. -/
theorem Aggregable.grouped (hout : aggregateRows group calls rows = .ok out) :
    Grouped (columnRank rows) group.toList calls (Totalled (argumentsIn rows)) rows out :=
  (aggregateRows_grouped (fun _ hi => h.ranks hi) hout).imp fun _ hcall _ _ hpart hv =>
    hv.totalled (h.integers_argumentsIn hcall) (fun _ => (h.unmixed_argumentsIn hcall).ordered) hpart

end

/-! ## Combined totals -/

/-- The calls that combine the results of others, which stand behind the group columns. -/
def combined (group : ColumnSet) (calls : List AggregateCall) : List AggregateCall :=
  calls.mapIdx fun j call => ⟨call.function.rollUp, [group.size + j], call.name⟩

theorem forall₂_combined (group : ColumnSet) (calls : List AggregateCall) :
    List.Forall₂ (fun call r : AggregateCall => ∃ j, calls[j]? = some call ∧
      r.function = call.function.rollUp ∧ r.args = [group.toList.length + j])
    calls (combined group calls) := by
  refine List.forall₂_iff_get.mpr ⟨by simp [combined], fun j hj _ => ⟨j, ?_, ?_, ?_⟩⟩
  · rw [List.get_eq_getElem, List.getElem?_eq_getElem hj]
  · simp [combined]
  · simp [combined, ColumnSet.size]

/-- All columns in order. -/
theorem select_range (row : Row) : row.select (List.range row.length) = row := by
  refine List.ext_getElem (by simp [Row.select]) fun i _ hi => ?_
  simp [Row.select, Row.valueAt, hi]

/-- Two lists in the order of their classes are equal if they have the same classes and equal elements
in them. -/
theorem eq_of_inOrder {cls : Row → List Nat} {rows rows' : List Row}
    (h : (rows.map cls).Pairwise (compare · · = .lt))
    (h' : (rows'.map cls).Pairwise (compare · · = .lt))
    (hmem : ∀ k, k ∈ rows.map cls ↔ k ∈ rows'.map cls)
    (heq : ∀ a ∈ rows, ∀ b ∈ rows', cls a = cls b → a = b) : rows = rows' := by
  have hperm := (List.perm_ext_iff_of_nodup (h.imp ne_of_compare_lt) (h'.imp ne_of_compare_lt)).mpr hmem
  have hclasses : rows.map cls = rows'.map cls := by
    refine hperm.eq_of_pairwise (fun a b _ _ hab hba => ?_) h h'
    rw [Std.OrientedCmp.gt_of_lt hab] at hba
    cases hba
  have hforall : List.Forall₂ (fun a b => cls a = cls b) rows rows' := by
    rw [← List.forall₂_map_left_iff (R := fun k b => k = cls b), hclasses,
      List.forall₂_map_left_iff]
    exact List.forall₂_same.mpr fun _ _ => rfl
  rw [← List.forall₂_eq_eq_eq]
  exact Outcome.forall₂_imp_of_mem heq hforall

/-- Two totals of the same values are the same. -/
theorem Totalled.eq {pool : AggregateCall → List Value} {call : AggregateCall} {rows : List Row}
    {v w : Value} (hpool : Value.Unmixed (pool call)) (h : Totalled pool call rows v)
    (h' : Totalled pool call rows w) : v = w := by
  cases hpicks : call.function.picks with
  | false =>
    have htotal := h.total
    have htotal' := h'.total
    generalize call.function = f at hpicks htotal htotal'
    cases f with
    | count | sum | sum0 => exact htotal.trans htotal'.symm
    | min | max => cases hpicks
  | true =>
    have hmem : ∀ {u}, Totalled pool call rows u → u.isNull = false → u ∈ pool call := by
      intro u hu hnull
      obtain ⟨row, hrow, rfl⟩ := List.mem_map.mp (hu.total.mem hpicks hnull)
      exact hu.reads row hrow
    exact hpool.eq_of_compare (hmem h) (hmem h') (h.compare_eq (fun _ => hpool.ordered) h')

section

variable {group sub : ColumnSet} {calls : List AggregateCall} {rows fine again coarse : List Row}
  (h : Aggregable group calls rows) (hsub : group.includes sub = true)
  (hfine : aggregateRows group calls rows = .ok fine)

include h hsub hfine

/-- Totals that are combined find their columns, and only integers are added up. -/
theorem Aggregable.exists_combined
    (hfits : ¬ Overflows (aggregateRows (sub.positionsIn group) (combined group calls) fine)) :
    ∃ again, aggregateRows (sub.positionsIn group) (combined group calls) fine = .ok again := by
  have hgrouped := h.grouped hfine
  have hkeys : ∀ t ∈ fine, ∀ p ∈ (sub.positionsIn group).toList, p < t.length := by
    intro t ht p hp
    obtain ⟨i, hi⟩ := exists_column (ColumnSet.forall₂_positionsIn hsub) hp
    obtain ⟨v, hv, -⟩ := hgrouped.key_at ht hi
    exact (List.getElem?_eq_some_iff.mp hv).1
  have htakes : ∀ t ∈ fine, ∀ r ∈ combined group calls, Takes r t := by
    intro t ht r hr
    obtain ⟨call, hcall, j, hj, hfunction, hargs⟩ :=
      Outcome.exists_left_of_forall₂ (forall₂_combined group calls) hr
    obtain ⟨v, hv, htotal⟩ := hgrouped.value_at ht hj
    refine ⟨v, by rw [argumentValue, hargs]; simp only [columnValue, hv], fun hadds => ?_⟩
    refine htotal.total.isIntegerOrNull ?_
    rw [hfunction] at hadds
    revert hadds
    cases call.function <;> decide
  obtain ⟨again, hagain, -⟩ := (yields_aggregateRows hkeys htakes).exists_ok hfits
  exact ⟨again, hagain⟩

/-- Rows of combined totals are those of totals over the rows themselves. -/
theorem Aggregable.grouped_combined
    (hagain : aggregateRows (sub.positionsIn group) (combined group calls) fine = .ok again) :
    Grouped (columnRank rows) sub.toList calls (Totalled (argumentsIn rows)) rows again ∧
      (again.map (keyClass (columnRank rows) sub.toList)).Pairwise (compare · · = .lt) := by
  have hgrouped := h.grouped hfine
  have hplaces := ColumnSet.forall₂_positionsIn hsub
  have hranks : ∀ p ∈ (sub.positionsIn group).toList,
      Value.Ranks (groupedRank (columnRank rows) group.toList p) (Row.inColumn fine p) := by
    intro p hp
    obtain ⟨i, hi⟩ := exists_column hplaces hp
    exact hgrouped.ranks_again hi (h.ranks (List.mem_of_getElem? hi))
  have hinOrder := aggregateRows_inOrder hranks hagain
  rw [keyClass_groupedRank hplaces] at hinOrder
  refine ⟨?_, hinOrder⟩
  have hgroupedAgain := aggregateRows_grouped hranks hagain
  have hindices : List.Forall₂ (fun p j => (sub.positionsIn group).toList[j]? = some p)
      (sub.positionsIn group).toList (List.range (sub.positionsIn group).toList.length) :=
    List.forall₂_iff_get.mpr ⟨by simp, fun j hj _ => by simp⟩
  have hrollUp := hgrouped.rollUp (fun _ _ _ _ _ => id)
    (fun call hcall _ => (h.unmixed_argumentsIn hcall).ordered) hgroupedAgain hplaces
    (fun _ => Iff.rfl) hindices (forall₂_combined group calls)
  -- all columns are read, as they stand
  have hselect : ∀ b ∈ again, b.select (List.range (sub.positionsIn group).toList.length ++
      (List.range (combined group calls).length).map ((sub.positionsIn group).toList.length + ·)) =
        b := by
    intro b hb
    obtain ⟨key, values, rfl, hkey, hvalues⟩ := hgroupedAgain.values b hb
    rw [← List.range_add, ← hkey.length_eq, hvalues.length_eq, ← List.length_append, select_range]
  rwa [List.map_congr_left hselect, List.map_id'] at hrollUp

theorem Aggregable.combined_eq (hcoarse : aggregateRows sub calls rows = .ok coarse)
    (hagain : aggregateRows (sub.positionsIn group) (combined group calls) fine = .ok again) :
    again = coarse := by
  obtain ⟨hgrouped, hinOrder⟩ := h.grouped_combined hsub hfine hagain
  have hsubAggregable := h.mono hsub
  have hgroupedCoarse := hsubAggregable.grouped hcoarse
  refine eq_of_inOrder hinOrder
    (aggregateRows_inOrder (fun _ hi => hsubAggregable.ranks hi) hcoarse)
    (fun k => (hgrouped.classes k).trans (hgroupedCoarse.classes k).symm) fun a ha b hb hclass => ?_
  rw [← List.forall₂_eq_eq_eq]
  refine hgrouped.forall₂_of_keyClass_eq hgroupedCoarse (fun i hi v hv w hw hnumber => ?_)
    (fun call hcall part v w hv hw => ?_) ha hb hclass
  · refine (hsubAggregable.unmixed i (.inl hi)).eq_of_compare (fun _ => hv) (fun _ => hw) ?_
    rw [hsubAggregable.ranks hi v hv w hw, Nat.compare_eq_eq]
    exact hnumber
  · exact hv.eq (h.unmixed_argumentsIn hcall) hw

end

/-- An aggregate by some columns and one that combines the totals by more columns have the same rows in
the same order, as long as no sum overflows. -/
theorem aggregateRows_combined {group sub : ColumnSet} {calls : List AggregateCall} {rows : List Row}
    (h : Aggregable group calls rows) (hsub : group.includes sub = true)
    (hcoarse : ¬ Overflows (aggregateRows sub calls rows))
    (hcombined : ¬ Overflows (aggregateRows group calls rows >>=
      aggregateRows (sub.positionsIn group) (combined group calls))) :
    ∃ coarse, aggregateRows sub calls rows = .ok coarse ∧
      (aggregateRows group calls rows >>=
        aggregateRows (sub.positionsIn group) (combined group calls)) = .ok coarse := by
  obtain ⟨fine, hfine⟩ := h.exists_rows fun hfine => hcombined (hfine.bind _)
  obtain ⟨coarse, hcoarse⟩ := (h.mono hsub).exists_rows hcoarse
  rw [hfine] at hcombined ⊢
  obtain ⟨again, hagain⟩ := h.exists_combined hsub hfine hcombined
  exact ⟨coarse, hcoarse, hagain.trans (congrArg _ (h.combined_eq hsub hfine hcoarse hagain))⟩

/-- Days, shops and what they took, which is not known everywhere. -/
def takings : List Row :=
  [[.integer 2, .integer 1, .integer 5], [.integer 1, .null, .integer 4], [.integer 1, .integer 2, .null],
    [.integer 1, .null, .integer 3], [.integer 2, .null, .null]]

/-- How many rows there are, the sum and the most of what was taken. -/
def takingsTotals : List AggregateCall :=
  [⟨.count, [], "rows"⟩, ⟨.sum, [2], "sum"⟩, ⟨.max, [2], "most"⟩]

theorem aggregable_takings : Aggregable (.ofList [0, 1]) takingsTotals takings := by
  have hreads : ∀ i, Reads (.ofList [0, 1]) takingsTotals i → i ∈ [0, 1, 2] := by
    rintro i (hi | ⟨call, hcall, hi⟩)
    · exact (by decide : ∀ i ∈ (ColumnSet.ofList [0, 1]).toList, i ∈ [0, 1, 2]) i hi
    · exact (by decide : ∀ call ∈ takingsTotals, ∀ i ∈ call.args, i ∈ [0, 1, 2]) call hcall i hi
  have hreaches : ∀ row ∈ takings, ∀ i ∈ [0, 1, 2], i < row.length := by decide
  have hintegers : ∀ i ∈ [0, 1, 2], ∀ v ∈ Row.inColumn takings i, v.dataType ≠ .double := by decide
  exact ⟨by decide, fun row hrow i hi => hreaches row hrow i (hreads i hi),
    fun i hi => ⟨.double, .inr rfl, hintegers i (hreads i hi)⟩, by decide⟩

/-- By day and shop, and then by shop. -/
theorem aggregateRows_combined_takings :
    (aggregateRows (.ofList [0, 1]) takingsTotals takings >>= aggregateRows
      ((ColumnSet.ofList [1]).positionsIn (.ofList [0, 1]))
      (combined (.ofList [0, 1]) takingsTotals)) =
    .ok [[.null, .integer 3, .integer 7, .integer 4], [.integer 1, .integer 1, .integer 5, .integer 5],
      [.integer 2, .integer 1, .null, .null]] := by
  have hsub : (ColumnSet.ofList [0, 1]).includes (.ofList [1]) = true := by decide
  obtain ⟨coarse, hcoarse, hcombined⟩ := aggregateRows_combined aggregable_takings hsub
    (by rintro ⟨a, b, ⟨⟩⟩) (by rintro ⟨a, b, ⟨⟩⟩)
  rw [hcombined, ← hcoarse]
  rfl

end Execution

end QueryPlan
