import QueryPlan.Proofs.Execution.Delivery
/-!
# Rows have the width of their row type

A node delivers rows with as many values as its row type has columns, if the plan under it passes
its checks and the stored rows have the widths that their tables declare. Nothing checks the latter
when rows are attached to a table, so it is a condition of its own. `Operator.Regular` is what an
operator needs for this, said of numbers of columns only, so that a copy over inputs of the same
arities has it as well.
-/
namespace QueryPlan

/-- Every row has that many values. -/
def HaveWidth (n : Nat) (rows : List Row) : Prop := ∀ row ∈ rows, row.length = n

instance (n : Nat) (rows : List Row) : Decidable (HaveWidth n rows) :=
  inferInstanceAs (Decidable (∀ row ∈ rows, row.length = n))

/-- The rows stored in a table are as wide as its row type. -/
def Table.StoresWidth (t : Table) : Prop :=
  ∀ rows, t.source = some (.ok rows) → HaveWidth t.rowType.arity rows

instance (t : Table) : Decidable t.StoresWidth :=
  match h : t.source with
  | some (.ok rows) => decidable_of_iff (HaveWidth t.rowType.arity rows)
    ⟨fun hrows rows' h' => by rw [h] at h'; cases h'; exact hrows, fun ht => ht rows h⟩
  | some (.error _) => isTrue fun _ h' => by rw [h] at h'; cases h'
  | none => isTrue fun _ h' => by rw [h] at h'; cases h'

theorem Row.length_nulls (n : Nat) : (Row.nulls n).length = n := List.length_replicate

theorem Table.StoresWidth.scan {t : Table} (h : t.StoresWidth) {rows : List Row}
    (hscan : t.scan = .ok rows) : HaveWidth t.rowType.arity rows :=
  h rows (Table.source_of_scan hscan (by nofun))

/-- What an operator needs to make rows as wide as its row type out of such rows. -/
def Operator.Regular (o : Operator) (arities : List Nat) : Prop :=
  match o with
  | .scan _ table => table.StoresWidth
  | .values _ rowType tuples => HaveWidth rowType.arity tuples
  | .aggregate _ group _ => ∀ g ∈ group.toList, g < arities[0]?.getD 0
  | .union _ _ | .intersect _ | .minus _ => ∀ a ∈ arities, a = arities[0]?.getD 0
  | _ => True

namespace Execution

/-! ## Rows that are kept -/

theorem mem_filterRows {condition : Expr} {rows kept : List Row}
    (h : filterRows condition rows = .ok kept) : ∀ row ∈ kept, row ∈ rows := by
  induction rows generalizing kept with
  | nil => cases h; simp
  | cons row rows ih =>
    simp only [filterRows, Outcome.bind_eq_ok, Outcome.pure_eq_ok] at h
    obtain ⟨keep, -, rest, hrest, rfl⟩ := h
    intro r hr
    cases keep with
    | false => exact List.mem_cons_of_mem _ (ih hrest r hr)
    | true =>
      rcases List.mem_cons.mp hr with rfl | hr
      · exact List.mem_cons_self
      · exact List.mem_cons_of_mem _ (ih hrest r hr)

theorem mem_semiJoinRows {condition : Expr} {rights lefts kept : List Row}
    (h : semiJoinRows condition rights lefts = .ok kept) : ∀ row ∈ kept, row ∈ lefts := by
  induction lefts generalizing kept with
  | nil => cases h; simp
  | cons left lefts ih =>
    simp only [semiJoinRows, Outcome.bind_eq_ok, Outcome.pure_eq_ok] at h
    obtain ⟨hit, -, rest, hrest, rfl⟩ := h
    intro r hr
    cases hit with
    | false => exact List.mem_cons_of_mem _ (ih hrest r hr)
    | true =>
      rcases List.mem_cons.mp hr with rfl | hr
      · exact List.mem_cons_self
      · exact List.mem_cons_of_mem _ (ih hrest r hr)

theorem sort?_eq_ok {collation : Collation} {rows sorted : List Row}
    (h : collation.sort? rows = .ok sorted) : sorted = collation.sort rows := by
  unfold Collation.sort? at h
  split at h
  · cases h; rfl
  · cases h

/-- Without an order rows stay in sequence. -/
theorem sort_of_isEmpty {collation : Collation} (h : collation.isEmpty = true) (rows : List Row) :
    collation.sort rows = rows := by
  obtain ⟨fields⟩ := collation
  cases List.isEmpty_iff.mp h
  exact List.mergeSort_of_pairwise (List.pairwise_of_forall fun _ _ => rfl)

theorem streamRows_sublist (fetch : Option Nat) (offset sent : Nat) (rows : List Row) :
    (streamRows fetch offset sent rows).Sublist rows := by
  fun_induction streamRows fetch offset sent rows with
  | case1 offset sent => exact List.Sublist.slnil
  | case2 offset sent row rows ih => exact ih.cons row
  | case3 sent row rows _ ih => exact ih.cons_cons row
  | case4 sent row rows => exact List.nil_sublist _

/-- Rows of a range are a part of all rows in their order. -/
theorem sortRows_sublist {collation : Collation} {offset : Nat} {fetch : Option Nat}
    {rows sorted : List Row} (h : sortRows collation offset fetch rows = .ok sorted) :
    sorted.Sublist (collation.sort rows) := by
  unfold sortRows at h
  split at h
  · next hempty =>
    cases h
    rw [sort_of_isEmpty hempty]
    exact streamRows_sublist fetch offset 0 rows
  · simp only [Outcome.bind_eq_ok, Outcome.pure_eq_ok] at h
    obtain ⟨all, hall, rfl⟩ := h
    rw [← sort?_eq_ok hall]
    exact (List.drop_sublist _ _).trans (List.take_sublist _ _)

theorem mem_sortRows {collation : Collation} {offset : Nat} {fetch : Option Nat}
    {rows sorted : List Row} (h : sortRows collation offset fetch rows = .ok sorted) :
    ∀ row ∈ sorted, row ∈ rows := fun _ hrow =>
  List.mem_mergeSort.mp ((sortRows_sublist h).mem hrow)

theorem mem_eraseDupsBy {rows : List Row} :
    ∀ row ∈ rows.eraseDupsBy Row.same, row ∈ rows := by
  -- the rest is filtered before it is gone through, so on the length of the list
  induction hn : rows.length using Nat.strongRecOn generalizing rows with
  | ind n ih =>
    cases rows with
    | nil => simp
    | cons first rows =>
      intro row hrow
      rw [List.eraseDupsBy_cons] at hrow
      rcases List.mem_cons.mp hrow with rfl | hrow
      · exact List.mem_cons_self
      · have hlen : (rows.filter fun b => Row.same b first = false).length < n := by
          have := List.length_filter_le (fun b => decide (Row.same b first = false)) rows
          simp only [List.length_cons] at hn
          omega
        exact List.mem_cons_of_mem _ (List.mem_filter.mp (ih _ hlen rfl row hrow)).1

theorem mem_unionRows {all : Bool} {inputs : List (List Row)} :
    ∀ row ∈ unionRows all inputs, ∃ rows ∈ inputs, row ∈ rows := by
  intro row hrow
  unfold unionRows at hrow
  split at hrow
  · exact List.mem_flatten.mp hrow
  · exact List.mem_flatten.mp (mem_eraseDupsBy row hrow)

theorem emitRows_sublist {all : Bool} {tally : Tally} {rows : List Row} :
    (emitRows all tally rows).Sublist rows := by
  induction rows generalizing tally with
  | nil => exact .slnil
  | cons row rows ih =>
    rw [emitRows]
    split
    · exact ih.cons_cons row
    · exact ih.cons row

/-! ## Rows that are put together -/

/-- A row of a join is a left row with a right row, or one of them with nulls if its side is kept. -/
theorem mem_joinRows {joinType : JoinType} {condition : Expr} {m n : Nat}
    {lefts rights rows : List Row} (h : joinRows joinType condition m n lefts rights = .ok rows) :
    ∀ row ∈ rows, (∃ left ∈ lefts, ∃ right ∈ rights, row = left ++ right) ∨
      (joinType.padsRight = true ∧ ∃ left ∈ lefts, row = left ++ Row.nulls n) ∨
      (joinType.padsLeft = true ∧ ∃ right ∈ rights, row = Row.nulls m ++ right) := by
  simp only [joinRows, Outcome.bind_eq_ok, Outcome.pure_eq_ok] at h
  obtain ⟨flags, -, rfl⟩ := h
  intro row hrow
  rcases List.mem_append.mp hrow with hrow | hrow
  · obtain ⟨⟨left, hits⟩, hleft, hrow⟩ := List.mem_flatMap.mp hrow
    have hl := (List.of_mem_zip hleft).1
    dsimp only at hrow
    unfold leftRows at hrow
    split at hrow
    · next hpads =>
      rw [Bool.and_eq_true] at hpads
      exact .inr (.inl ⟨hpads.1, left, hl, List.mem_singleton.mp hrow⟩)
    · obtain ⟨⟨right, hit⟩, hright, hrow⟩ := List.mem_filterMap.mp hrow
      cases hit with
      | false => cases hrow
      | true =>
        cases hrow
        exact .inl ⟨left, hl, right, (List.of_mem_zip hright).1, rfl⟩
  · split at hrow
    · next hpads =>
      obtain ⟨⟨right, hit⟩, hright, hrow⟩ := List.mem_filterMap.mp hrow
      cases hit with
      | true => cases hrow
      | false =>
        cases hrow
        exact .inr (.inr ⟨hpads, right, (List.of_mem_zip hright).1, rfl⟩)
    · cases hrow

theorem width_joinRows {joinType : JoinType} {condition : Expr} {m n : Nat}
    {lefts rights rows : List Row} (hlefts : HaveWidth m lefts) (hrights : HaveWidth n rights)
    (h : joinRows joinType condition m n lefts rights = .ok rows) : HaveWidth (m + n) rows := by
  intro row hrow
  rcases mem_joinRows h row hrow with ⟨left, hl, right, hr, rfl⟩ | ⟨-, left, hl, rfl⟩ | ⟨-, right, hr, rfl⟩
  · rw [List.length_append, hlefts left hl, hrights right hr]
  · rw [List.length_append, hlefts left hl, Row.length_nulls]
  · rw [List.length_append, Row.length_nulls, hrights right hr]

/-- A row of a correlate is a left row alone where the right columns are left out, and else one with a
right row or, in a left correlate, with nulls. -/
theorem mem_correlateRows {joinType : CorrelateType} {n : Nat} {lefts rights : List Row} :
    ∀ row ∈ correlateRows joinType n lefts rights,
      (joinType.projectsRight = false ∧ row ∈ lefts) ∨
      (joinType.projectsRight = true ∧ ∃ left ∈ lefts, ∃ right ∈ rights, row = left ++ right) ∨
      (joinType = .left ∧ ∃ left ∈ lefts, row = left ++ Row.nulls n) := by
  have hjoined : ∀ row ∈ lefts.flatMap fun left => rights.map (left ++ ·),
      ∃ left ∈ lefts, ∃ right ∈ rights, row = left ++ right := by
    intro row hrow
    obtain ⟨left, hleft, hrow⟩ := List.mem_flatMap.mp hrow
    obtain ⟨right, hright, rfl⟩ := List.mem_map.mp hrow
    exact ⟨left, hleft, right, hright, rfl⟩
  intro row hrow
  cases joinType with
  | inner => exact .inr (.inl ⟨rfl, hjoined row hrow⟩)
  | left =>
    simp only [correlateRows] at hrow
    split at hrow
    · obtain ⟨left, hleft, rfl⟩ := List.mem_map.mp hrow
      exact .inr (.inr ⟨rfl, left, hleft, rfl⟩)
    · exact .inr (.inl ⟨rfl, hjoined row hrow⟩)
  | semi =>
    simp only [correlateRows] at hrow
    split at hrow
    · cases hrow
    · exact .inl ⟨rfl, hrow⟩
  | anti =>
    simp only [correlateRows] at hrow
    split at hrow
    · exact .inl ⟨rfl, hrow⟩
    · cases hrow

theorem width_correlateRows {joinType : CorrelateType} {m n : Nat} {lefts rights : List Row}
    (hlefts : HaveWidth m lefts) (hrights : HaveWidth n rights) :
    HaveWidth (if joinType.projectsRight then m + n else m)
      (correlateRows joinType n lefts rights) := by
  intro row hrow
  rcases mem_correlateRows row hrow with
    ⟨hprojects, hl⟩ | ⟨hprojects, left, hl, right, hr, rfl⟩ | ⟨rfl, left, hl, rfl⟩
  · rw [hprojects]
    exact hlefts row hl
  · rw [if_pos hprojects, List.length_append, hlefts left hl, hrights right hr]
  · have hprojects : CorrelateType.left.projectsRight = true := rfl
    rw [if_pos hprojects, List.length_append, hlefts left hl, Row.length_nulls]

theorem width_projectRows {exprs : List Expr} {rows projected : List Row}
    (h : rows.mapM (projectRow exprs) = .ok projected) : HaveWidth exprs.length projected := by
  obtain ⟨f, hf, rfl⟩ := Outcome.exists_map_of_mapM_eq_ok h
  intro row hrow
  obtain ⟨r, hr, rfl⟩ := List.mem_map.mp hrow
  exact Outcome.length_of_mapM_eq_ok (hf r hr)

/-! ## Groups -/

theorem length_addRow {row : Row} {calls : List AggregateCall} {accs accs' : List (Option Value)}
    (hlen : accs.length = calls.length) (h : addRow row calls accs = .ok accs') :
    accs'.length = calls.length := by
  induction calls generalizing accs accs' with
  | nil =>
    cases h
    rfl
  | cons call calls ih =>
    cases accs with
    | nil => cases hlen
    | cons acc accs =>
      simp only [addRow, Outcome.bind_eq_ok, Outcome.pure_eq_ok] at h
      obtain ⟨v, -, acc', -, rest, hrest, rfl⟩ := h
      simp only [List.length_cons] at hlen ⊢
      rw [ih (by omega) hrest]

/-- What holds of the key of a row, and of results from those of the empty group on, holds of every
group. -/
theorem forall_addToGroups {K : Row → Prop} {A : List (Option Value) → Prop}
    {calls : List AggregateCall} {key row : Row} {groups groups' : List (Row × List (Option Value))}
    (hkey : K key) (hempty : A (emptyGroup calls))
    (hstep : ∀ accs accs', A accs → addRow row calls accs = .ok accs' → A accs')
    (hgroups : ∀ g ∈ groups, K g.1 ∧ A g.2) (h : addToGroups calls key row groups = .ok groups') :
    ∀ g ∈ groups', K g.1 ∧ A g.2 := by
  induction groups generalizing groups' with
  | nil =>
    simp only [addToGroups, Outcome.bind_eq_ok, Outcome.pure_eq_ok] at h
    obtain ⟨accs, haccs, rfl⟩ := h
    exact List.forall_mem_singleton.mpr ⟨hkey, hstep _ _ hempty haccs⟩
  | cons group groups ih =>
    obtain ⟨k, accs⟩ := group
    obtain ⟨hgroup, hrest⟩ := List.forall_mem_cons.mp hgroups
    simp only [addToGroups] at h
    split at h
    · simp only [Outcome.bind_eq_ok, Outcome.pure_eq_ok] at h
      obtain ⟨new, haccs, rfl⟩ := h
      exact List.forall_mem_cons.mpr ⟨⟨hkey, hstep _ _ hempty haccs⟩, hgroups⟩
    · simp only [Outcome.bind_eq_ok, Outcome.pure_eq_ok] at h
      obtain ⟨accs', haccs, rfl⟩ := h
      exact List.forall_mem_cons.mpr ⟨⟨hgroup.1, hstep _ _ hgroup.2 haccs⟩, hrest⟩
    · simp only [Outcome.bind_eq_ok, Outcome.pure_eq_ok] at h
      obtain ⟨groups'', hgroups'', rfl⟩ := h
      exact List.forall_mem_cons.mpr ⟨hgroup, ih hrest hgroups''⟩

theorem forall_groupRows {K : Row → Prop} {A : List (Option Value) → Prop} {group : ColumnSet}
    {calls : List AggregateCall} {rows : List Row} {groups : List (Row × List (Option Value))}
    (hkey : ∀ row ∈ rows, ∀ key, groupKey group row = .ok key → K key)
    (hempty : A (emptyGroup calls))
    (hstep : ∀ row ∈ rows, ∀ accs accs', A accs → addRow row calls accs = .ok accs' → A accs')
    (h : groupRows group calls rows = .ok groups) : ∀ g ∈ groups, K g.1 ∧ A g.2 := by
  suffices ∀ {before}, (∀ g ∈ before, K g.1 ∧ A g.2) →
      rows.foldlM (fun groups row => do
        let key ← groupKey group row
        addToGroups calls key row groups) before = .ok groups →
      ∀ g ∈ groups, K g.1 ∧ A g.2 from
    this (fun g hg => by cases hg) h
  clear h
  induction rows with
  | nil =>
    intro before hbefore h
    cases h
    exact hbefore
  | cons row rows ih =>
    obtain ⟨hkeys, hkey⟩ := List.forall_mem_cons.mp hkey
    obtain ⟨hsteps, hstep⟩ := List.forall_mem_cons.mp hstep
    intro before hbefore h
    simp only [List.foldlM_cons, Outcome.bind_eq_ok] at h
    obtain ⟨next, ⟨key, hk, hnext⟩, h⟩ := h
    exact ih hkey hstep (forall_addToGroups (hkeys key hk) hempty hsteps hbefore hnext) h

/-- A row of totals is a key with results; the key is empty only where there are no group columns. -/
theorem mem_aggregateRows {K : Row → Prop} {A : List (Option Value) → Prop} {group : ColumnSet}
    {calls : List AggregateCall} {rows totals : List Row}
    (hkey : ∀ row ∈ rows, ∀ key, groupKey group row = .ok key → K key)
    (hnone : group.toList = [] → K []) (hempty : A (emptyGroup calls))
    (hstep : ∀ row ∈ rows, ∀ accs accs', A accs → addRow row calls accs = .ok accs' → A accs')
    (h : aggregateRows group calls rows = .ok totals) :
    ∀ row ∈ totals, ∃ key accs, K key ∧ A accs ∧ row = key ++ accs.map (·.getD .null) := by
  simp only [aggregateRows, Outcome.bind_eq_ok, Outcome.pure_eq_ok] at h
  obtain ⟨groups, hgroups, rfl⟩ := h
  intro row hrow
  obtain ⟨⟨key, accs⟩, hg, rfl⟩ := List.mem_map.mp hrow
  have hgroup : K key ∧ A accs := by
    split at hg
    · next hno =>
      simp only [Bool.and_eq_true, ColumnSet.isEmpty, List.isEmpty_iff] at hno
      cases List.mem_singleton.mp hg
      exact ⟨hnone hno.2, hempty⟩
    · exact forall_groupRows hkey hempty hstep hgroups _ hg
  exact ⟨key, accs, hgroup.1, hgroup.2, rfl⟩

theorem width_aggregateRows {group : ColumnSet} {calls : List AggregateCall}
    {rows totals : List Row} (h : aggregateRows group calls rows = .ok totals) :
    HaveWidth (group.toList.length + calls.length) totals := by
  intro row hrow
  obtain ⟨key, accs, hkey, haccs, rfl⟩ := mem_aggregateRows
    (K := fun key => key.length = group.toList.length) (A := fun accs => accs.length = calls.length)
    (fun _ _ _ hkey => Outcome.length_of_mapM_eq_ok hkey) (fun hnone => by simp [hnone])
    (by simp [emptyGroup]) (fun _ _ _ _ hlen hadd => length_addRow hlen hadd) h row hrow
  rw [List.length_append, List.length_map, hkey, haccs]

/-! ## Operators -/

/-- Rows of each input are as wide as its row type. -/
abbrev InputsHaveWidth (types : List RowType) (inputs : List (List Row)) : Prop :=
  List.Forall₂ (fun (t : RowType) rows => HaveWidth t.arity rows) types inputs

theorem InputsHaveWidth.getElem? {types : List RowType} {inputs : List (List Row)}
    (h : InputsHaveWidth types inputs) (i : Nat) :
    HaveWidth (types[i]?.getD default).arity (inputs[i]?.getD []) :=
  Outcome.forall₂_getD (fun _ hrow => by cases hrow) h i

theorem InputsHaveWidth.mem {types : List RowType} {inputs : List (List Row)}
    (h : InputsHaveWidth types inputs) {n : Nat} (hn : ∀ a ∈ types.map RowType.arity, a = n) :
    ∀ rows ∈ inputs, HaveWidth n rows := by
  induction h with
  | nil => simp
  | cons hfirst _ ih =>
    rw [List.map_cons] at hn
    obtain ⟨hhead, htail⟩ := List.forall_mem_cons.mp hn
    exact List.forall_mem_cons.mpr ⟨hhead ▸ hfirst, ih htail⟩

theorem getD_map_arity (types : List RowType) (i : Nat) :
    (types.map RowType.arity)[i]?.getD 0 = (types[i]?.getD default).arity := by
  rw [List.getElem?_map]
  cases types[i]? <;> rfl

theorem mem_reduceRows {all : Bool} {leave : Nat → Nat → Nat} {inputs : List (List Row)} :
    ∀ row ∈ reduceRows all leave inputs, ∃ rows ∈ inputs, row ∈ rows := by
  cases inputs with
  | nil => simp [reduceRows]
  | cons first others =>
    exact fun row hrow => ⟨first, List.mem_cons_self, emitRows_sublist.subset hrow⟩

theorem mem_intersectRows {all : Bool} {inputs : List (List Row)} :
    ∀ row ∈ intersectRows all inputs, ∃ rows ∈ inputs, row ∈ rows := mem_reduceRows

theorem mem_minusRows {all : Bool} {inputs : List (List Row)} :
    ∀ row ∈ minusRows all inputs, ∃ rows ∈ inputs, row ∈ rows := mem_reduceRows

/-- Rows of an operator have the width of its row type if those of its inputs do. -/
theorem operatorRows_width {o : Operator} {types : List RowType} {inputs : List (List Row)}
    {rows : List Row} (ho : o.Regular (types.map RowType.arity))
    (hinputs : InputsHaveWidth types inputs)
    (h : operatorRows o (types.map RowType.arity) inputs = .ok rows) :
    HaveWidth (o.rowType types).arity rows := by
  have first := hinputs.getElem? 0
  have second := hinputs.getElem? 1
  have sameWidth (hregular : ∀ a ∈ types.map RowType.arity, a = (types.map RowType.arity)[0]?.getD 0)
      {kept : List Row} (hkept : ∀ row ∈ kept, ∃ rows ∈ inputs, row ∈ rows) :
      HaveWidth ((RowType.leastRestrictive types).getD (types[0]?.getD default)).arity kept := by
    intro row hrow
    obtain ⟨rows, hrows, hrow⟩ := hkept row hrow
    rw [RowType.arity_getD_leastRestrictive, ← getD_map_arity]
    exact hinputs.mem hregular rows hrows row hrow
  unfold operatorRows at h
  cases o with
  | scan | subset =>
    cases h
    intro row hrow
    cases hrow
  | values convention rowType tuples =>
    cases h
    exact ho
  | filter => exact fun row hrow => first row (mem_filterRows h row hrow)
  | project convention columns =>
    have := width_projectRows h
    simpa [Operator.rowType, RowType.arity] using this
  | join algorithm joinType condition =>
    cases algorithm with
    | semi => exact fun row hrow => first row (mem_semiJoinRows h row hrow)
    | _ =>
      simp only [getD_map_arity] at h
      simp only [Operator.rowType, RowType.arity_join]
      exact width_joinRows first second h
  | correlate convention correlation required joinType =>
    cases h
    simp only [getD_map_arity, Operator.rowType]
    have : HaveWidth _ (correlateRows joinType _ _ _) := width_correlateRows first second
    split at this <;> simp_all [RowType.arity_join]
  | aggregate convention group calls =>
    have hgroup : group.toList.filter (· < (types[0]?.getD default).fields.length)
        = group.toList := by
      rw [List.filter_eq_self]
      intro g hg
      have := ho g hg
      rw [getD_map_arity] at this
      simpa [RowType.arity] using this
    have := width_aggregateRows h
    simpa [Operator.rowType, RowType.arity, length_filterMap_getElem?, hgroup] using this
  | sort => exact fun row hrow => first row (mem_sortRows h row hrow)
  | sortExchange => exact fun row hrow => first row (mem_sortRows h row hrow)
  | exchange => cases h; exact first
  | union convention all => cases h; exact sameWidth ho mem_unionRows
  | intersect all => cases h; exact sameWidth ho mem_intersectRows
  | minus all => cases h; exact sameWidth ho mem_minusRows

end Execution

/-! ## Nodes -/

theorem Operator.lt_of_checkOrdinals {fault : Nat → NodeFault} {arity : Nat} {ordinals : List Nat}
    (h : checkOrdinals fault arity ordinals = .ok ()) : ∀ i ∈ ordinals, i < arity := by
  intro i hi
  unfold checkOrdinals at h
  split at h
  · cases h
  · next hnone =>
    have := List.find?_eq_none.mp hnone i hi
    simpa using this

/-- Inputs that a set operation admits have the same number of columns. -/
theorem RowType.arity_eq_of_isNone_ne {types : List RowType}
    (h : ¬(leastRestrictive types).isNone = true) :
    ∀ a ∈ types.map arity, a = (types.map arity)[0]?.getD 0 := by
  intro a ha
  obtain ⟨t, ht, rfl⟩ := List.mem_map.mp ha
  cases hwide : leastRestrictive types with
  | none => exact absurd (by rw [hwide]; rfl) h
  | some wide =>
    rw [Execution.getD_map_arity, arity_leastRestrictive hwide t ht, ← arity_getD_leastRestrictive, hwide]
    rfl

/-- An operator that passes its check makes rows of the right width. -/
theorem Operator.regular_of_check {o : Operator} {types : List RowType}
    (hstored : ∀ t, o.table? = some t → t.StoresWidth) (h : o.check types = .ok ()) :
    o.Regular (types.map RowType.arity) := by
  cases o with
  | scan convention table => exact hstored table rfl
  | values convention rowType tuples =>
    simp only [check] at h
    split at h
    · cases h
    · next hnone =>
      intro row hrow
      have := List.find?_eq_none.mp hnone row hrow
      simpa using this
  | aggregate convention group calls =>
    simp only [check, Outcome.bind_eq_ok] at h
    obtain ⟨u, hgroup, -⟩ := h
    intro g hg
    rw [Execution.getD_map_arity]
    exact lt_of_checkOrdinals hgroup g hg
  | union | intersect | minus =>
    simp only [check] at h
    split at h
    · cases h
    · split at h
      · cases h
      · next hsome => exact RowType.arity_eq_of_isNone_ne hsome
  | _ => trivial

namespace Cluster

/-- A root and the nodes under it: inputs, and the members that stand for subsets. -/
inductive Under (c : Cluster) (root : NodeId) : NodeId → Prop
  | root : Under c root root
  | input {id j : NodeId} (user : Under c root id) (mem : j ∈ c.inputs id) : Under c root j
  | member {id m : NodeId} (subset : Under c root id)
      (chosen : (c.node id).chosenMember? = some m) : Under c root m

theorem Under.trans {c : Cluster} {root id j : NodeId} (h : c.Under root id) (h' : c.Under id j) :
    c.Under root j := by
  induction h' with
  | root => exact h
  | input _ hj ih => exact .input ih hj
  | member _ hm ih => exact .member ih hm

/-- Nodes under a node of a session are nodes of it. -/
theorem Under.lt_size {c : Cluster} {root id : NodeId} (hroot : root < c.size) (h : c.Under root id) :
    id < c.size := by
  induction h with
  | root => exact hroot
  | input _ hj _ => exact inputs_lt_size hj
  | member _ hm ih => exact (chosenMember?_spec hm).1

theorem Extends.under {c c' : Cluster} {root id : NodeId} (hc : c.Extends c') (hroot : root < c.size)
    (h : c'.Under root id) : c.Under root id := by
  induction h with
  | root => exact .root
  | input _ hj ih =>
    rw [hc.inputs_eq (ih.lt_size hroot)] at hj
    exact .input ih hj
  | member _ hm ih =>
    rw [hc.node_eq (ih.lt_size hroot)] at hm
    exact .member ih hm

/-- The nodes under a root pass their checks, and the tables they scan store rows of the declared
width. -/
structure Checked (c : Cluster) (root : NodeId) : Prop where
  check : ∀ id, c.Under root id → c.check id = .ok ()
  stored : ∀ id t, c.Under root id → (c.operator id).table? = some t → t.StoresWidth

variable {c : Cluster} {root id : NodeId}

/-- A root is checked if every node of the session is. -/
theorem Checked.of_all (hroot : root < c.size) (h : ∀ id < c.size, (c.check id).isOk = true ∧
    ∀ t ∈ (c.operator id).table?, t.StoresWidth) : c.Checked root where
  check i hi := by
    have hok := (h i (hi.lt_size hroot)).1
    cases hcheck : c.check i with
    | ok u => rfl
    | error e =>
      rw [hcheck] at hok
      cases hok
  stored i t hi ht := (h i (hi.lt_size hroot)).2 t ht

theorem Checked.under (h : c.Checked root) (hid : c.Under root id) : c.Checked id where
  check i hi := h.check i (hid.trans hi)
  stored i t hi ht := h.stored i t (hid.trans hi) ht

theorem Checked.mono {c' : Cluster} (h : c.Checked root) (hroot : root < c.size)
    (hc : c.Extends c') : c'.Checked root where
  check i hi := by
    have hi := hc.under hroot hi
    rw [hc.check_eq (hi.lt_size hroot), h.check i hi]
  stored i t hi ht := by
    have hi := hc.under hroot hi
    rw [hc.operator_eq (hi.lt_size hroot)] at ht
    exact h.stored i t hi ht

theorem Checked.regular (h : c.Checked id) :
    (c.operator id).Regular ((c.inputs id).map c.arity) := by
  have hcheck := h.check id .root
  rw [Cluster.check, Outcome.mapError_eq_ok] at hcheck
  have := Operator.regular_of_check (h.stored id · .root) hcheck
  rw [List.map_map] at this
  exact this

/-- A node of a sound plan delivers rows as wide as its row type. -/
theorem Delivers.width {rows : List Row} (hid : id < c.size) (h : c.Checked id)
    (hrows : c.Delivers id rows) : HaveWidth (c.arity id) rows := by
  induction hrows with
  | @node id rows rowsOf hinputs hown ih =>
    have hwidths : Execution.InputsHaveWidth ((c.inputs id).map c.rowType)
        ((c.inputs id).map rowsOf) := by
      exact Outcome.forall₂_map_same.mpr fun j hj =>
        ih j hj (inputs_lt_size hj) (h.under (.input .root hj))
    have hregular := h.regular
    rw [arity_eq hid]
    rcases nodeRows_cases hown with ⟨v, table, hop, hsource⟩ | ⟨-, hrows⟩
    · rw [hop] at hregular ⊢
      exact hregular rows hsource
    · rw [map_arity_inputs] at hregular hrows
      exact Execution.operatorRows_width hregular hwidths hrows
  | member hsub hchosen hmember ih =>
    obtain ⟨hlt, harity⟩ := chosenMember?_spec hchosen
    rw [harity]
    exact ih hlt (h.under (.member .root hchosen))

end Cluster

end QueryPlan
