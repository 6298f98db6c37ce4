import QueryPlan.Proofs.Metadata.Numbering
import QueryPlan.Proofs.Execution.Success
/-!
# What lineages evaluate to

Every row of a plan of scans, filters, projections, inner joins, sorts and exchanges is made of one
stored row for each use of a table under it. `Supplies` says of which. Over these rows, an expression
in the lineage of another one has its value: one choice of rows does for all expressions at once, since
it is made for the row before any expression is asked about.

Lineages split conjunctions into their conjuncts, so neither the expression nor what is projected may
be one.
-/
namespace QueryPlan

open Relation

/-! ## Operands with more values -/

namespace Outcome

/-- If the first outcome is a value, it is the second one as well. -/
def Determines (o o' : Outcome) : Prop := ∀ v, o = .ok v → o' = .ok v

variable {os os' : List Outcome} {unknown : Bool} {v : Value}

theorem allOf_determined (hos : List.Forall₂ Determines os os') (h : allOf unknown os = .ok v) :
    allOf unknown os' = .ok v := by
  induction hos generalizing unknown with
  | nil => exact h
  | @cons o o' _ _ ho _ ih =>
    rcases o with e | w
    · cases h
    · rw [ho w rfl]
      cases w with
      | boolean b =>
        cases b with
        | false => exact h
        | true => exact ih h
      | _ => exact ih h

theorem anyOf_determined (hos : List.Forall₂ Determines os os') (h : anyOf unknown os = .ok v) :
    anyOf unknown os' = .ok v := by
  induction hos generalizing unknown with
  | nil => exact h
  | @cons o o' _ _ ho _ ih =>
    rcases o with e | w
    · cases h
    · rw [ho w rfl]
      cases w with
      | boolean b =>
        cases b with
        | true => exact h
        | false => exact ih h
      | _ => exact ih h

theorem operand_determined (hos : List.Forall₂ Determines os os') (i : Nat) :
    Determines (operand os i) (operand os' i) := by
  induction hos generalizing i with
  | nil => exact fun _ h => h
  | cons ho _ ih =>
    cases i with
    | zero => exact ho
    | succ i => exact ih i

end Outcome

/-- A call that has a value keeps it when operands without one get any outcome, since no operator reads
on behind an error. -/
theorem Op.combine_determined {op : Op} {t : DataType} {os os' : List Outcome}
    (hos : List.Forall₂ Outcome.Determines os os') :
    Outcome.Determines (op.combine t os) (op.combine t os') := by
  intro v h
  have hread := Outcome.operand_determined hos
  cases op with
  | and => exact Outcome.allOf_determined hos h
  | or => exact Outcome.anyOf_determined hos h
  | not | isNull | isNotNull | unaryMinus | floor | ceil =>
    obtain ⟨w, hw, rfl⟩ := Outcome.map_eq_ok.mp h
    exact Outcome.map_eq_ok.mpr ⟨w, hread 0 w hw, rfl⟩
  | cast =>
    obtain ⟨w, hw, h⟩ := Outcome.bind_eq_ok.mp h
    exact Outcome.bind_eq_ok.mpr ⟨w, hread 0 w hw, h⟩
  | _ =>
    obtain ⟨a, ha, h⟩ := Outcome.bind_eq_ok.mp h
    obtain ⟨b, hb, h⟩ := Outcome.bind_eq_ok.mp h
    exact Outcome.bind_eq_ok.mpr ⟨a, hread 0 a ha, Outcome.bind_eq_ok.mpr ⟨b, hread 1 b hb, h⟩⟩

/-! ## Expressions over uses of tables -/

namespace Expr

mutual

/-- The value of an expression over the rows that uses of tables contribute. -/
def evalOver (sources : TableRef → Option Row) : Expr → Outcome
  | column i _ => .error (.columnOutOfRange i 0)
  | literal v => .ok v
  | apply op es t => op.combine t (evalOverEach sources es)
  | tableColumn r i _ =>
    match sources r >>= (·[i]?) with
    | some v => .ok v
    | none => .error (.tableColumn r)

/-- The outcome of every expression of a list. -/
def evalOverEach (sources : TableRef → Option Row) : List Expr → List Outcome
  | [] => []
  | e :: es => evalOver sources e :: evalOverEach sources es

end

variable {sources sources' : TableRef → Option Row} {e e' : Expr} {row : Row}

theorem evalOverEach_eq (es : List Expr) : evalOverEach sources es = es.map (evalOver sources) := by
  induction es with
  | nil => rfl
  | cons e es ih => simp [evalOverEach, ih]

theorem evalOver_tableColumn {r : TableRef} {i : Nat} {t : DataType} {v : Value} :
    (tableColumn r i t).evalOver sources = .ok v ↔
      ∃ source, sources r = some source ∧ source[i]? = some v := by
  rw [evalOver, ← Option.bind_eq_some_iff]
  show (match (sources r).bind (·[i]?) with | some v => _ | none => _) = _ ↔ _
  cases (sources r).bind (·[i]?) with
  | none => exact ⟨nofun, nofun⟩
  | some w => rw [Except.ok.injEq, Option.some.injEq]

theorem combine_map_determined {op : Op} {t : DataType} {es : List Expr} {f g : Expr → Outcome}
    (h : ∀ e ∈ es, (f e).Determines (g e)) :
    (op.combine t (es.map f)).Determines (op.combine t (es.map g)) :=
  Op.combine_determined (Outcome.forall₂_map_same.mpr h)

/-- More rows give an expression no other value. -/
theorem evalOver_mono (h : ∀ r source, sources r = some source → sources' r = some source) :
    (e.evalOver sources).Determines (e.evalOver sources') := by
  induction e using induct with
  | column i t => exact fun _ hv => hv
  | literal v => exact fun _ hv => hv
  | apply op es t ih =>
    rw [evalOver, evalOver, evalOverEach_eq, evalOverEach_eq]
    exact combine_map_determined ih
  | tableColumn r i t =>
    intro v hv
    obtain ⟨source, hsource, hv⟩ := evalOver_tableColumn.mp hv
    exact evalOver_tableColumn.mpr ⟨source, h r source hsource, hv⟩

/-- An expression with its uses of tables renumbered has its value over rows that go with the new
numbers. -/
theorem evalOver_mapTables {f : TableRef → TableRef}
    (h : ∀ r source, sources r = some source → sources' (f r) = some source) :
    (e.evalOver sources).Determines ((e.mapTables f).evalOver sources') := by
  induction e using induct with
  | column i t => exact fun _ hv => hv
  | literal v => exact fun _ hv => hv
  | apply op es t ih =>
    rw [mapTables, evalOver, evalOver, evalOverEach_eq, evalOverEach_eq, mapTablesEach_eq, List.map_map]
    exact combine_map_determined ih
  | tableColumn r i t =>
    intro v hv
    obtain ⟨source, hsource, hv⟩ := evalOver_tableColumn.mp hv
    exact evalOver_tableColumn.mpr ⟨source, h r source hsource, hv⟩

/-- An expression with its columns replaced by what has their values has its value. -/
theorem eval_determines_substitute {choice : Nat → Option Expr}
    (h : ∀ i ∈ e.columnList, ∀ a, choice i = some a → ∀ v, row[i]? = some v → a.evalOver sources = .ok v)
    (hall : ∀ i ∈ e.columnList, (choice i).isSome = true) :
    (e.eval row).Determines ((e.substitute choice).evalOver sources) := by
  induction e using induct with
  | column i t =>
    intro v hv
    have hi : i ∈ (column i t).columnList := List.mem_singleton_self i
    obtain ⟨a, ha⟩ := Option.isSome_iff_exists.mp (hall i hi)
    rw [substitute, mapColumns, ha, Option.getD_some]
    rw [eval] at hv
    cases hvalue : row[i]? with
    | none => rw [hvalue] at hv; cases hv
    | some w =>
      rw [hvalue] at hv
      cases hv
      exact h i hi a ha v hvalue
  | literal v => exact fun _ hv => hv
  | apply op es t ih =>
    rw [substitute, mapColumns, eval, evalOver, evalEach_eq, evalOverEach_eq, mapColumnsEach_eq, List.map_map]
    refine combine_map_determined fun e he => ih e he (fun i hi => ?_) (fun i hi => ?_)
    · exact h i (mem_columnList_apply.mpr ⟨e, he, hi⟩)
    · exact hall i (mem_columnList_apply.mpr ⟨e, he, hi⟩)
  | tableColumn r i t => exact fun _ hv => by cases hv

theorem op?_mapTables (f : TableRef → TableRef) (e : Expr) : (e.mapTables f).op? = e.op? := by
  cases e <;> rfl

theorem conjuncts_of_op?_ne_and (h : e.op? ≠ some .and) (he' : e' ∈ e.conjuncts) : e' = e := by
  rw [conjuncts_of_not_and fun es t heq => h (by rw [heq]; rfl)] at he'
  split at he'
  · cases he'
  · exact List.mem_singleton.mp he'

/-- Where no conjunction is put for a column, an expression that is none stays in one part. -/
theorem ReplacedBy.of_op?_ne_and {origin : Nat → Expr → Prop} (h : e.ReplacedBy origin e')
    (he : e.op? ≠ some .and) (horigin : ∀ i a, origin i a → a.op? ≠ some .and) :
    e'.op? ≠ some .and ∧ ∃ choice : Nat → Option Expr, e' = e.substitute choice ∧
      ∀ i ∈ e.columnList, ∃ a, choice i = some a ∧ origin i a := by
  rcases h with ⟨hnone, rfl⟩ | ⟨choice, hchoice, hmem⟩
  · refine ⟨he, fun _ => none, (mapColumns_column e').symm, ?_⟩
    rw [hnone]
    exact nofun
  · have hop : (e.substitute choice).op? ≠ some .and := by
      cases e with
      | column i t =>
        obtain ⟨a, ha, hi⟩ := hchoice i (List.mem_singleton_self i)
        rw [substitute, mapColumns, ha]
        exact horigin i a hi
      | _ => exact he
    obtain rfl := conjuncts_of_op?_ne_and hop hmem
    exact ⟨hop, choice, rfl, hchoice⟩

/-- An expression has the value of the one that replaces its columns, if their origins have theirs. -/
theorem ReplacedBy.determines {origin : Nat → Expr → Prop} (h : e.ReplacedBy origin e')
    (he : e.op? ≠ some .and) (hand : ∀ i a, origin i a → a.op? ≠ some .and)
    (horigin : ∀ i a, origin i a → ∀ v, row[i]? = some v → a.evalOver sources = .ok v) :
    (e.eval row).Determines (e'.evalOver sources) := by
  obtain ⟨-, choice, rfl, hchoice⟩ := h.of_op?_ne_and he hand
  refine eval_determines_substitute (fun i hi a ha => ?_) (fun i hi => ?_)
  · obtain ⟨a', ha', hi⟩ := hchoice i hi
    cases ha.symm.trans ha'
    exact horigin i a hi
  · obtain ⟨a, ha, -⟩ := hchoice i hi
    rw [ha]
    rfl

end Expr

/-! ## The rows that a row is made of -/

namespace Operator

/-- An operator whose rows are made of stored rows that lineages tell of. -/
def isTraced : Operator → Bool
  | scan _ _ | filter _ _ | project _ _ | sort _ _ _ _ | exchange _ | sortExchange _ _ => true
  | join .semi _ _ => false
  | join _ joinType _ => joinType == .inner
  | _ => false

/-- Operators whose lineages are those over their input pass on rows of it. -/
theorem mem_of_firstInput {o : Operator} {arities : List Nat} {inputs : List (List Row)} {rows : List Row}
    {row : Row} (hmethod : o.lineageMethod = .firstInput)
    (h : Execution.operatorRows o arities inputs = .ok rows) (hrow : row ∈ rows) :
    row ∈ inputs[0]?.getD [] := by
  cases o with
  | filter => exact Execution.mem_filterRows h row hrow
  | sort => exact Execution.mem_sortRows h row hrow
  | exchange => cases h; exact hrow
  | sortExchange => exact Execution.mem_sortRows h row hrow
  | join algorithm => cases algorithm <;> cases hmethod
  | _ => cases hmethod

/-- A row of an inner join is a pair of rows. -/
theorem exists_pair_of_join {algorithm : JoinAlgorithm} {joinType : JoinType} {condition : Expr}
    {arities : List Nat} {inputs : List (List Row)} {rows : List Row} {row : Row}
    (htraced : (join algorithm joinType condition).isTraced = true)
    (h : Execution.operatorRows (join algorithm joinType condition) arities inputs = .ok rows)
    (hrow : row ∈ rows) : ∃ l ∈ inputs[0]?.getD [], ∃ r ∈ inputs[1]?.getD [], row = l ++ r := by
  obtain ⟨rfl, m, n, hjoin⟩ : joinType = .inner ∧ ∃ m n,
      Execution.joinRows joinType condition m n (inputs[0]?.getD []) (inputs[1]?.getD []) = .ok rows := by
    cases algorithm <;> first | cases htraced | exact ⟨beq_iff_eq.mp htraced, _, _, h⟩
  rw [Execution.joinRows_eq_joined hjoin, Execution.joined, show JoinType.inner.padsLeft = false from rfl,
    show JoinType.inner.padsRight = false from rfl, if_neg Bool.false_ne_true, List.append_nil] at hrow
  obtain ⟨l, hl, hrow⟩ := List.mem_flatMap.mp hrow
  rw [Bool.false_and, if_neg Bool.false_ne_true] at hrow
  obtain ⟨r, hr, rfl⟩ := List.mem_map.mp hrow
  exact ⟨l, hl, r, List.mem_of_mem_filter hr, rfl⟩

end Operator

namespace Cluster

/-- The rows that uses of tables on both sides of a join contribute. Those on its right are counted
after those on its left. -/
noncomputable def sideBySide (c : Cluster) (left : NodeId) (lefts rights : TableRef → Option Row)
    (r : TableRef) : Option Row :=
  if r.entity < (c.scansOf left).count r.name then lefts r
  else rights { r with entity := r.entity - (c.scansOf left).count r.name }

/-- The row of a node is made of one stored row for each use of a table under it. -/
inductive Supplies (c : Cluster) : NodeId → (TableRef → Option Row) → Row → Prop
  | scan {id : NodeId} {table : Table} {rows : List Row} {row : Row}
      (htable : (c.operator id).table? = some table) (hrows : table.scan = .ok rows) (hrow : row ∈ rows) :
      Supplies c id (fun r => if r = ⟨table.name, 0⟩ then some row else none) row
  | same {id input : NodeId} {sources : TableRef → Option Row} {row : Row}
      (hmethod : (c.operator id).lineageMethod = .firstInput) (hinput : c.input? id 0 = some input)
      (h : Supplies c input sources row) : Supplies c id sources row
  | project {id input : NodeId} {columns : List (Expr × String)} {sources : TableRef → Option Row}
      {row projected : Row} (hop : (c.operator id).projection? = some columns)
      (hinput : c.input? id 0 = some input) (h : Supplies c input sources row)
      (hprojected : Execution.projectRow (columns.map Prod.fst) row = .ok projected) :
      Supplies c id sources projected
  | join {id left right : NodeId} {lefts rights : TableRef → Option Row} {l r : Row}
      (hmethod : (c.operator id).lineageMethod = .join) (hinputs : c.inputs id = [left, right])
      (hwidth : l.length = c.arity left) (hleft : Supplies c left lefts l)
      (hright : Supplies c right rights r) : Supplies c id (c.sideBySide left lefts rights) (l ++ r)

variable {c : Cluster} {id : NodeId} {sources : TableRef → Option Row} {row : Row}

theorem Supplies.of_scan {table : Table} (h : c.Supplies id sources row)
    (htable : (c.operator id).table? = some table) : sources ⟨table.name, 0⟩ = some row := by
  have hscan := Operator.lineageMethod_of_table? htable
  cases h with
  | scan htable' =>
    cases htable.symm.trans htable'
    exact if_pos rfl
  | same hmethod => rw [hscan] at hmethod; cases hmethod
  | project hop => rw [Operator.lineageMethod_of_projection? hop] at hscan; cases hscan
  | join hmethod => rw [hscan] at hmethod; cases hmethod

theorem Supplies.of_same {input : NodeId} (h : c.Supplies id sources row)
    (hmethod : (c.operator id).lineageMethod = .firstInput) (hinput : c.input? id 0 = some input) :
    c.Supplies input sources row := by
  cases h with
  | scan htable => rw [Operator.lineageMethod_of_table? htable] at hmethod; cases hmethod
  | same _ hinput' h => rwa [Option.some.inj (hinput.symm.trans hinput')]
  | project hop => rw [Operator.lineageMethod_of_projection? hop] at hmethod; cases hmethod
  | join hmethod' => rw [hmethod] at hmethod'; cases hmethod'

theorem Supplies.of_project {columns : List (Expr × String)} {input : NodeId}
    (h : c.Supplies id sources row) (hop : (c.operator id).projection? = some columns)
    (hinput : c.input? id 0 = some input) : ∃ below, c.Supplies input sources below ∧
      Execution.projectRow (columns.map Prod.fst) below = .ok row := by
  have hproject := Operator.lineageMethod_of_projection? hop
  cases h with
  | scan htable => rw [Operator.lineageMethod_of_table? htable] at hproject; cases hproject
  | same hmethod => rw [hproject] at hmethod; cases hmethod
  | project hop' hinput' h hprojected =>
    cases hop.symm.trans hop'
    cases hinput.symm.trans hinput'
    exact ⟨_, h, hprojected⟩
  | join hmethod => rw [hproject] at hmethod; cases hmethod

theorem Supplies.of_join {left right : NodeId} (h : c.Supplies id sources row)
    (hmethod : (c.operator id).lineageMethod = .join) (hinputs : c.inputs id = [left, right]) :
    ∃ lefts rights l r, c.Supplies left lefts l ∧ c.Supplies right rights r ∧
      l.length = c.arity left ∧ sources = c.sideBySide left lefts rights ∧ row = l ++ r := by
  cases h with
  | scan htable => rw [Operator.lineageMethod_of_table? htable] at hmethod; cases hmethod
  | same hmethod' => rw [hmethod] at hmethod'; cases hmethod'
  | project hop => rw [Operator.lineageMethod_of_projection? hop] at hmethod; cases hmethod
  | join _ hinputs' hwidth hleft hright =>
    cases hinputs.symm.trans hinputs'
    exact ⟨_, _, _, _, hleft, hright, hwidth, rfl, rfl⟩

/-- The rows of other operators are not made of stored rows. -/
theorem Supplies.lineageMethod_eq (h : c.Supplies id sources row) :
    (c.operator id).lineageMethod = .tableScan ∨ (c.operator id).lineageMethod = .firstInput ∨
      (c.operator id).lineageMethod = .project ∨ (c.operator id).lineageMethod = .join := by
  cases h with
  | scan htable => exact .inl (Operator.lineageMethod_of_table? htable)
  | same hmethod => exact .inr (.inl hmethod)
  | project hop => exact .inr (.inr (.inl (Operator.lineageMethod_of_projection? hop)))
  | join hmethod => exact .inr (.inr (.inr hmethod))

/-! ### Which uses they are -/

theorem sideBySide_of_left {left : NodeId} {lefts rights : TableRef → Option Row}
    (h : ∀ r, (lefts r).isSome = true → r.entity < (c.scansOf left).count r.name) {r : TableRef}
    {source : Row} (hr : lefts r = some source) :
    c.sideBySide left lefts rights r = some source := by
  rw [sideBySide, if_pos (h r (by rw [hr]; rfl)), hr]

theorem sideBySide_of_right {left : NodeId} {lefts rights : TableRef → Option Row} (r : TableRef) :
    c.sideBySide left lefts rights { r with entity := (c.scansOf left).count r.name + r.entity } =
      rights r := by
  rw [sideBySide, if_neg (Nat.not_lt.mpr (Nat.le_add_right _ _)), Nat.add_sub_cancel_left]

/-- A row is made of rows of all uses of tables under the node. -/
theorem Supplies.isSome_iff (h : c.Supplies id sources row) :
    c.Ends id ∧ ∀ r, (sources r).isSome = true ↔ r.entity < (c.scansOf id).count r.name := by
  induction h with
  | @scan id table rows row htable =>
    have hscans := Scans.scan htable
    refine ⟨hscans.ends, fun ⟨name, entity⟩ => ?_⟩
    rw [hscans.scansOf_eq, ← (TableRef.numbers_singleton table.name).2, List.mem_singleton]
    dsimp only
    split
    · next heq => exact iff_of_true rfl heq
    · next hne => exact iff_of_false Bool.false_ne_true hne
  | same hmethod hinput _ ih =>
    have hsingle := followed_eq_first (Operator.tableRefsMethod_eq_first (.inr (.inr hmethod))) hinput
    obtain ⟨hends, hscans⟩ := ends_single hsingle
    rw [hscans ih.1]
    exact ⟨hends.mpr ih.1, ih.2⟩
  | project hop hinput _ _ ih =>
    have hmethod := Operator.lineageMethod_of_projection? hop
    have hsingle := followed_eq_first (Operator.tableRefsMethod_eq_first (.inr (.inl hmethod))) hinput
    obtain ⟨hends, hscans⟩ := ends_single hsingle
    rw [hscans ih.1]
    exact ⟨hends.mpr ih.1, ih.2⟩
  | @join id left right lefts rights l r hmethod hinputs _ _ _ ihl ihr =>
    obtain ⟨hfollowed, hnone⟩ := followed_eq_inputs (Operator.tableRefsMethod_eq_all (.inl hmethod))
    have hall : ∀ j ∈ c.followed id, c.Ends j := by
      rw [hfollowed, hinputs, List.forall_mem_cons, List.forall_mem_singleton]
      exact ⟨ihl.1, ihr.1⟩
    obtain ⟨hends, hscans⟩ := ends_of_followed hnone hall
    refine ⟨hends, fun r => ?_⟩
    rw [hscans, hfollowed, hinputs, List.flatMap_cons, List.flatMap_singleton, List.count_append,
      sideBySide]
    split
    · next hlt => exact iff_of_true ((ihl.2 r).mpr hlt) (Nat.lt_of_lt_of_le hlt (Nat.le_add_right _ _))
    · next hge =>
      rw [ihr.2]
      dsimp only
      omega

/-- A table of that name that is scanned under the node stores the row. -/
def Stores (c : Cluster) (id : NodeId) (name : List String) (source : Row) : Prop :=
  ∃ j table rows, c.Under id j ∧ (c.operator j).table? = some table ∧ table.name = name ∧
    table.scan = .ok rows ∧ source ∈ rows

theorem Stores.of_input {j : NodeId} {name : List String} {source : Row} (h : c.Stores j name source)
    (hj : j ∈ c.inputs id) : c.Stores id name source := by
  obtain ⟨k, table, rows, hk, h⟩ := h
  exact ⟨k, table, rows, (Under.root.input hj).trans hk, h⟩

/-- The rows that a row is made of are stored in the tables that are used. -/
theorem Supplies.stored (h : c.Supplies id sources row) :
    ∀ r source, sources r = some source → c.Stores id r.name source := by
  induction h with
  | scan htable hrows hrow =>
    intro r source hr
    dsimp only at hr
    split at hr
    · next heq =>
      cases hr
      exact ⟨_, _, _, .root, htable, by rw [heq], hrows, hrow⟩
    · cases hr
  | same _ hinput _ ih => exact fun r source hr => (ih r source hr).of_input (mem_inputs_of_input? hinput)
  | project _ hinput _ _ ih =>
    exact fun r source hr => (ih r source hr).of_input (mem_inputs_of_input? hinput)
  | join _ hinputs _ _ _ ihl ihr =>
    intro r source hr
    unfold sideBySide at hr
    split at hr
    · exact (ihl r source hr).of_input (by rw [hinputs]; simp)
    · exact (ihr _ source hr).of_input (by rw [hinputs]; simp)

/-! ### Every row is made of stored rows -/

theorem exists_input_of_mem {i : Nat} {rows : NodeId → List Row}
    (h : row ∈ ((c.inputs id).map rows)[i]?.getD []) : ∃ j, c.input? id i = some j ∧ row ∈ rows j := by
  rw [List.getElem?_map] at h
  cases hinput : (c.inputs id)[i]? with
  | none => rw [hinput] at h; cases h
  | some j => rw [hinput] at h; exact ⟨j, hinput, h⟩

/-- The rows of a node are made of stored rows if those of its inputs are. -/
theorem exists_supplies_step {rows : List Row} (htraced : (c.operator id).isTraced = true)
    (hrows : c.Delivers id rows)
    (hbelow : ∀ j ∈ c.inputs id, ∀ below ∈ c.ranRows j,
      below.length = c.arity j ∧ ∃ sources, c.Supplies j sources below) (hrow : row ∈ rows) :
    ∃ sources, c.Supplies id sources row := by
  have hfirst (hmethod : (c.operator id).lineageMethod = .firstInput)
      (hscan : (c.operator id).table? = none) (hsubset : (c.operator id).isSubset = false) :
      ∃ sources, c.Supplies id sources row := by
    have hmem := Operator.mem_of_firstInput hmethod (hrows.operatorRows hscan hsubset).2 hrow
    obtain ⟨j, hinput, hbelowRow⟩ := exists_input_of_mem hmem
    obtain ⟨-, sources, h⟩ := hbelow j (mem_inputs_of_input? hinput) row hbelowRow
    exact ⟨sources, .same hmethod hinput h⟩
  cases hop : c.operator id with
  | scan v table => exact ⟨_, .scan (by rw [hop]; rfl) (hrows.of_scan hop) hrow⟩
  | filter | sort | exchange | sortExchange =>
    exact hfirst (by rw [hop]; rfl) (by rw [hop]; rfl) (by rw [hop]; rfl)
  | project v columns =>
    have hown := (hrows.operatorRows (by rw [hop]; rfl) (by rw [hop]; rfl)).2
    rw [hop] at hown
    obtain ⟨below, hmem, hprojected⟩ := exists_of_forall₂ (Outcome.mapM_eq_ok.mp hown) hrow
    obtain ⟨j, hinput, hmem⟩ := exists_input_of_mem hmem
    obtain ⟨-, sources, h⟩ := hbelow j (mem_inputs_of_input? hinput) below hmem
    exact ⟨sources, .project (by rw [hop]; rfl) hinput h hprojected⟩
  | join algorithm joinType condition =>
    have hown := (hrows.operatorRows (by rw [hop]; rfl) (by rw [hop]; rfl)).2
    rw [hop] at hown htraced
    obtain ⟨l, hl, r, hr, rfl⟩ := Operator.exists_pair_of_join htraced hown hrow
    obtain ⟨left, hleft, hl⟩ := exists_input_of_mem hl
    obtain ⟨right, hright, hr⟩ := exists_input_of_mem hr
    obtain ⟨hwidth, lefts, hlefts⟩ := hbelow left (mem_inputs_of_input? hleft) l hl
    obtain ⟨-, rights, hrights⟩ := hbelow right (mem_inputs_of_input? hright) r hr
    have hmethod : (c.operator id).lineageMethod = .join := by
      rw [hop]
      cases algorithm <;> first | cases htraced | rfl
    have hinputs := inputs_eq_pair (by rw [hop]; rfl) hleft hright
    exact ⟨_, .join hmethod hinputs hwidth hlefts hrights⟩
  | _ => rw [hop] at htraced; cases htraced

/-- Every row of a plan that is traced is made of one stored row for each use of a table. -/
theorem exists_supplies {rows : List Row} (hid : id < c.size) (hchecked : c.Checked id)
    (hplan : ∀ j, c.Under id j → (c.operator j).isTraced = true) (hrows : c.Delivers id rows)
    (hrow : row ∈ rows) : ∃ sources, c.Supplies id sources row := by
  -- on the number of the node: its inputs have smaller ones
  induction id using Nat.strongRecOn generalizing rows row with
  | ind id ih =>
    have htraced := hplan id .root
    refine exists_supplies_step htraced hrows (fun j hj below hbelow => ?_) hrow
    have hunder : c.Under id j := .input .root hj
    have hlt := inputs_lt_size hj
    rcases ranRows_delivers hlt with hnil | hdelivers
    · rw [hnil] at hbelow
      cases hbelow
    · refine ⟨hdelivers.width hlt (hchecked.under hunder) below hbelow, ?_⟩
      exact ih j (c.inputs_lt hj) hlt (hchecked.under hunder) (fun k hk => hplan k (hunder.trans hk))
        hdelivers hbelow

/-! ## Lineages over the rows that a row is made of -/

/-- An expression in the lineage of another one, which is no conjunction, is none either, and has the
value of that one on every row of the node, over the rows that the row is made of. This is so where no
conjunction is projected. -/
def Reproduces (c : Cluster) (id : NodeId) (e e' : Expr) : Prop :=
  c.Projects (·.op? ≠ some .and) id → e.op? ≠ some .and → e'.op? ≠ some .and ∧
    ∀ sources row, c.Supplies id sources row → (e.eval row).Determines (e'.evalOver sources)

/-- An origin of a field has its value. -/
theorem evalOver_of_ofField {i : Nat} {a : Expr} (h : Lineage.OfField c c.Reproduces id i a)
    (hprojects : c.Projects (·.op? ≠ some .and) id) : a.op? ≠ some .and ∧
      ∀ sources row, c.Supplies id sources row → ∀ v, row[i]? = some v → a.evalOver sources = .ok v := by
  obtain ⟨field, -, h⟩ := h
  obtain ⟨hop, hvalue⟩ := h hprojects nofun
  refine ⟨hop, fun sources row hsources v hv => hvalue sources row hsources v ?_⟩
  rw [Expr.eval, hv]

theorem reproduces_of_scan {table : Table} {e e' : Expr} (htable : (c.operator id).table? = some table)
    (h : e.ReplacedBy (fun i a => ∃ field, (c.rowType id).fields[i]? = some field ∧
      a = .tableColumn ⟨table.name, 0⟩ i field.dataType) e') : c.Reproduces id e e' := by
  intro _ he
  have hand : ∀ i a, (∃ field, (c.rowType id).fields[i]? = some field ∧
      a = Expr.tableColumn ⟨table.name, 0⟩ i field.dataType) → a.op? ≠ some .and := by
    rintro i a ⟨field, -, rfl⟩
    exact nofun
  refine ⟨(h.of_op?_ne_and he hand).1, fun sources row hsources => h.determines he hand ?_⟩
  rintro i a ⟨field, -, rfl⟩ v hv
  exact Expr.evalOver_tableColumn.mpr ⟨row, hsources.of_scan htable, hv⟩

theorem reproduces_of_project {columns : List (Expr × String)} {input : NodeId} {e e' : Expr}
    (hop : (c.operator id).projection? = some columns) (hinput : c.input? id 0 = some input)
    (h : e.ReplacedBy (fun i a => ∃ p, columns[i]? = some p ∧ c.Reproduces input p.1 a) e') :
    c.Reproduces id e e' := by
  intro hprojects he
  have hmethod := Operator.tableRefsMethod_eq_first
    (.inr (.inl (Operator.lineageMethod_of_projection? hop)))
  have hbelow : c.Projects (·.op? ≠ some .and) input :=
    hprojects.followed (by rw [(followed_eq_first hmethod hinput).1]; exact List.mem_singleton_self _)
  have hcolumn {i : Nat} {p : Expr × String} (hp : columns[i]? = some p) : p.1.op? ≠ some .and :=
    hprojects id columns .refl hop p (List.mem_of_getElem? hp)
  have hand : ∀ (i : Nat) (a : Expr), (∃ p, columns[i]? = some p ∧ c.Reproduces input p.1 a) →
      a.op? ≠ some .and := by
    rintro i a ⟨p, hp, ha⟩
    exact (ha hbelow (hcolumn hp)).1
  refine ⟨(h.of_op?_ne_and he hand).1, fun sources row hsources => h.determines he hand ?_⟩
  rintro i a ⟨p, hp, ha⟩ v hv
  obtain ⟨below, hsupplies, hprojected⟩ := hsources.of_project hop hinput
  obtain ⟨hvalues, rfl⟩ := Execution.projectRow_eq_ok_iff.mp hprojected
  have hvalue : p.1.eval below = .ok v := by
    rw [Execution.projectedRow, List.getElem?_map, List.getElem?_map, hp] at hv
    cases hv
    exact (hvalues p.1 (List.mem_map_of_mem (List.mem_of_getElem? hp))).eval_eq
  exact (ha hbelow (hcolumn hp)).2 sources below hsupplies v hvalue

theorem reproduces_of_join {joinType : JoinType} {condition : Expr} {left right : NodeId}
    {leftRefs rightRefs : List TableRef} {e e' : Expr} (hmethod : (c.operator id).lineageMethod = .join)
    (hop : (c.operator id).join? = some (joinType, condition))
    (hleft : c.input? id 0 = some left) (hright : c.input? id 1 = some right)
    (hleftRefs : c.Uses left leftRefs) (hrightRefs : c.Uses right rightRefs)
    (h : e.ReplacedBy (c.JoinOrigin c.Reproduces left right leftRefs rightRefs) e') :
    c.Reproduces id e e' := by
  intro hprojects he
  have hinputs := inputs_eq_pair hop hleft hright
  have hbelow : ∀ j ∈ c.inputs id, c.Projects (·.op? ≠ some .and) j := fun j hj =>
    hprojects.followed (by rwa [(followed_eq_inputs (Operator.tableRefsMethod_eq_all (.inl hmethod))).1])
  rw [hinputs, List.forall_mem_cons, List.forall_mem_singleton] at hbelow
  have hand : ∀ i a, c.JoinOrigin c.Reproduces left right leftRefs rightRefs i a → a.op? ≠ some .and := by
    intro i a ha
    unfold JoinOrigin at ha
    split at ha
    · exact (evalOver_of_ofField ha hbelow.1).1
    · obtain ⟨a₀, ha₀, rfl⟩ := ha
      rw [Expr.op?_mapTables]
      exact (evalOver_of_ofField ha₀ hbelow.2).1
  refine ⟨(h.of_op?_ne_and he hand).1, fun sources row hsources => h.determines he hand ?_⟩
  intro i a ha v hv
  obtain ⟨lefts, rights, l, r, hlefts, hrights, hwidth, rfl, rfl⟩ := hsources.of_join hmethod hinputs
  unfold JoinOrigin at ha
  split at ha
  · next hi =>
    rw [List.getElem?_append_left (by omega)] at hv
    have hvalue := (evalOver_of_ofField ha hbelow.1).2 lefts l hlefts v hv
    exact Expr.evalOver_mono (fun s source hs =>
      sideBySide_of_left (fun s => (hlefts.isSome_iff.2 s).mp) hs) v hvalue
  · next hi =>
    obtain ⟨a₀, ha₀, rfl⟩ := ha
    rw [List.getElem?_append_right (by omega), hwidth] at hv
    have hvalue := (evalOver_of_ofField ha₀ hbelow.2).2 rights r hrights v hv
    refine Expr.evalOver_mapTables (fun s source hs => ?_) v hvalue
    have hmem : s ∈ rightRefs := (hrightRefs.2.2 s).mpr ((hrights.isSome_iff.2 s).mp (by rw [hs]; rfl))
    rw [TableRef.renumber_of_mem hmem, TableRef.countedAfter, hleftRefs.2.usesOf, sideBySide_of_right, hs]

/-- Over a node whose rows are not said to be made of stored rows, only that lineages are no
conjunctions is left to say. -/
theorem reproduces_of_untraced {e e' : Expr} {origin : Nat → Expr → Prop}
    (hmethod : (c.operator id).lineageMethod = .aggregate ∨ (c.operator id).lineageMethod = .union)
    (horigin : c.Projects (·.op? ≠ some .and) id → ∀ i a, origin i a → a.op? ≠ some .and)
    (h : e.ReplacedBy origin e') : c.Reproduces id e e' := by
  intro hprojects he
  refine ⟨(h.of_op?_ne_and he (horigin hprojects)).1, fun sources row hsources => ?_⟩
  rcases hsources.lineageMethod_eq with h' | h' | h' | h' <;> rcases hmethod with hm | hm <;>
    (rw [hm] at h'; cases h')

theorem reproduces_of_traced {e e' : Expr} (h : c.Traced c.Reproduces c.Uses id e e') :
    c.Reproduces id e e' := by
  cases h with
  | scan htable h => exact reproduces_of_scan htable h
  | @aggregate group calls input hop hinput h =>
    have hlineage := Operator.lineageMethod_of_aggregate? hop
    have hfollowed := (followed_eq_first (Operator.tableRefsMethod_eq_first (.inl hlineage)) hinput).1
    refine reproduces_of_untraced (.inl hlineage) (fun hprojects i a ha => ?_) h
    obtain ⟨column, -, ha⟩ := ha
    refine (evalOver_of_ofField ha (hprojects.followed ?_)).1
    rw [hfollowed]
    exact List.mem_singleton_self _
  | join hmethod hop hleft hright _ hleftRefs hrightRefs h =>
    exact reproduces_of_join hmethod hop hleft hright hleftRefs hrightRefs h
  | union hmethod h =>
    have hfollowed := (followed_eq_inputs (Operator.tableRefsMethod_eq_all (.inr hmethod))).1
    refine reproduces_of_untraced (.inr hmethod) (fun hprojects i a ha => ?_) h
    obtain ⟨before, input, after, parts, own, a₀, hinputs, -, -, ha₀, rfl⟩ := ha
    rw [Expr.op?_mapTables]
    refine (evalOver_of_ofField ha₀ (hprojects.followed ?_)).1
    rw [hfollowed, hinputs]
    exact List.mem_append_right _ List.mem_cons_self
  | project hop hinput h => exact reproduces_of_project hop hinput h
  | @firstInput input hmethod hinput h =>
    intro hprojects he
    have hfollowed := (followed_eq_first (Operator.tableRefsMethod_eq_first (.inr (.inr hmethod))) hinput).1
    have hbelow := hprojects.followed (by rw [hfollowed]; exact List.mem_singleton_self input)
    obtain ⟨hop, hvalue⟩ := h hbelow he
    exact ⟨hop, fun sources row hsources => hvalue sources row (hsources.of_same hmethod hinput)⟩
  | @member m hchosen h =>
    intro hprojects he
    have hfollowed := (followed_eq_member hchosen).1
    have hbelow := hprojects.followed (by rw [hfollowed]; exact List.mem_singleton_self m)
    refine ⟨(h hbelow he).1, fun sources row hsources => ?_⟩
    have hsubset := isSubset_of_mem_members (chosenMember?_mem hchosen)
    cases hop : c.operator id with
    | subset => rcases hsources.lineageMethod_eq with h' | h' | h' | h' <;> (rw [hop] at h'; cases h')
    | _ => rw [hop] at hsubset; cases hsubset

/-- Lineages reproduce values as long as expressions that are asked about or projected are the same
if they compare as equal, since an answer is kept for all questions that compare as equal. -/
theorem reproducingLaw {known : Expr → Prop} (hprojected : ∀ e, c.IsProjected e → known e)
    (hexact : ∀ e e₁, known e → known e₁ → (e == e₁) = true → e = e₁) :
    c.TracingLaw (fun e => (∃ i t, e = .column i t) ∨ known e) c.Reproduces c.Uses where
  column i t := .inl ⟨i, t, rfl⟩
  projected id columns hop p hp := .inr (hprojected p.1 ⟨id, columns, hop, p, hp, rfl⟩)
  equal := by
    intro id e e₁ e' he he₁ heq h
    suffices heq : e = e₁ by rwa [heq]
    have halike := Expr.alike_of_beq heq
    rcases he with ⟨i, t, rfl⟩ | he
    · cases halike
      rfl
    · rcases he₁ with ⟨i, t, rfl⟩ | he₁
      · cases halike
        rfl
      · exact hexact e e₁ he he₁ heq
  traced _ h := reproduces_of_traced h
  listed h := uses_of_listed h

end Cluster

namespace Asking

variable {c : Cluster}

/-- The expression is the one that is asked about, was asked about before or is projected. -/
def Knows (c : Cluster) (asked : List ((topic : Topic) × topic.Key)) (e x : Expr) : Prop :=
  x = e ∨ c.IsProjected x ∨ ∃ key : LineageKey, ⟨.lineage, key⟩ ∈ asked ∧ key.expr = x

/-- Every row that a plan of scans, filters, projections, inner joins, sorts and exchanges returns is
made of one stored row for each use of a table under it, such that everything in the lineage of an
expression has its value on the row. Neither the expression nor one that is projected may be a
conjunction, and of the expressions that are asked about or projected no two that differ may compare
as equal. -/
theorem lineage_values {id : NodeId} {rows : List Row} {row : Row}
    (hlineage : c.methods.lineage = Methods.builtin.lineage)
    (htableRefs : c.methods.tableRefs = Methods.builtin.tableRefs) (hid : id < c.size)
    (hchecked : c.Checked id) (hplan : ∀ j, c.Under id j → (c.operator j).isTraced = true)
    (hprojects : c.Projects (·.op? ≠ some .and) id) (hrows : c.Returns id rows) (hrow : row ∈ rows) :
    ∃ sources : TableRef → Option Row,
      (∀ r source, sources r = some source → c.Stores id r.name source) ∧
      (∀ asked refs, (((of c).tableRefs id).run ((of c).memoryOf asked)).1 = .ok (some refs) →
        ∀ r, r ∈ refs ↔ (sources r).isSome = true) ∧
      ∀ asked e es, e.op? ≠ some .and →
        (∀ x y, Knows c asked e x → Knows c asked e y → (x == y) = true → x = y) →
        (((of c).lineage id e).run ((of c).memoryOf asked)).1 = .ok (some es) →
        ∀ e' ∈ es, ∀ v, e.eval row = .ok v → e'.evalOver sources = .ok v := by
  obtain ⟨sources, hsupplies⟩ := Cluster.exists_supplies hid hchecked hplan (hrows.delivers hid) hrow
  refine ⟨sources, hsupplies.stored, fun asked refs hrefs r => ?_, fun asked e es he hexact hes => ?_⟩
  · have hallowed : ∀ call ∈ asked, Cluster.TracingLaw.Allows (fun _ => True) call.1 call.2 := by
      rintro ⟨topic, key⟩ -
      cases topic <;> trivial
    obtain ⟨-, -, hnumbers⟩ := c.numberingLaw.of_tableRefs hlineage htableRefs hallowed hrefs
    rw [hnumbers, hsupplies.isSome_iff.2]
  · have hlaw := @Cluster.reproducingLaw c (Knows c asked e) (fun x hx => .inr (.inl hx)) hexact
    have hallowed : ∀ call ∈ asked, Cluster.TracingLaw.Allows
        (fun x => (∃ i t, x = .column i t) ∨ Knows c asked e x) call.1 call.2 := by
      rintro ⟨topic, key⟩ hcall
      cases topic with
      | lineage => exact .inr (.inr (.inr ⟨key, hcall, rfl⟩))
      | _ => trivial
    have htraced := hlaw.of_lineage hlineage htableRefs hallowed (.inr (.inl rfl)) hes
    exact fun e' he' => (htraced e' he' hprojects he).2 sources row hsupplies

/-- Who is the mentor of whom. -/
def mentors : Table :=
  { name := ["MENTORS"], rowType := ⟨[⟨"mentor", .bigint, true⟩, ⟨"pupil", .bigint, true⟩]⟩
    source := some (.ok [[.integer 1, .integer 2], [.integer 2, .integer 3]]) }

/-- Mentors of mentors, with a number that goes with the pupil. -/
def mentorPlans : Planning NodeId := do
  let scan ← Cluster.createDefault (.scan .none mentors) []
  let join ← Cluster.createDefault
    (.join .logical .inner (.call .equals [.column 1 .bigint, .column 2 .bigint])) [scan, scan]
  Cluster.createDefault (.project .none
    [(.column 0 .bigint, "mentor"), (.call .plus [.column 3 .bigint, .literal (.integer 1)], "next")]) [join]

def mentorSession : Cluster := (mentorPlans.run.run (Cluster.start ⟨[mentors]⟩ default default)).2

/-- The product of the columns of the projection. -/
def mentorProduct : Expr := .call .times [.column 1 .bigint, .column 0 .bigint]

/-- The projection returns the row 1, 4, made of two rows, and all that the product of its columns is
traced to is 4 over these. -/
theorem lineage_values_mentors :
    mentorSession.Returns 2 [[.integer 1, .integer 4]] ∧
    (((of mentorSession).tableRefs 2).run ((of mentorSession).memoryOf [])).1 =
      .ok (some [⟨["MENTORS"], 0⟩, ⟨["MENTORS"], 1⟩]) ∧
    ∃ sources : TableRef → Option Row,
      (sources ⟨["MENTORS"], 0⟩).isSome = true ∧ (sources ⟨["MENTORS"], 1⟩).isSome = true ∧
      ∀ es, (((of mentorSession).lineage 2 mentorProduct).run ((of mentorSession).memoryOf [])).1 =
          .ok (some es) →
        ∀ e' ∈ es, e'.evalOver sources = .ok (.integer 4) := by
  have hrows : mentorSession.Returns 2 [[.integer 1, .integer 4]] :=
    Cluster.returns_of_ranRows (by decide +kernel) (by decide +kernel)
  have hrefs : (((of mentorSession).tableRefs 2).run ((of mentorSession).memoryOf [])).1 =
      .ok (some [⟨["MENTORS"], 0⟩, ⟨["MENTORS"], 1⟩]) := Outcome.toOption_eq_some.mp (by decide +kernel)
  have htraced : ∀ j < mentorSession.size, (mentorSession.operator j).isTraced = true := by decide +kernel
  have hlacks : ∀ x, Knows mentorSession [] mentorProduct x → x.Lacks .double := by
    rintro x (rfl | hx | ⟨key, hkey, -⟩)
    · decide +kernel
    · exact hx.of_all (by decide +kernel)
    · cases hkey
  obtain ⟨sources, -, hdomain, hvalues⟩ := lineage_values (c := mentorSession) rfl rfl
    (show 2 < mentorSession.size by decide +kernel) (.of_all (by decide +kernel) (by decide +kernel))
    (fun j hj => htraced j (hj.lt_size (by decide +kernel))) (.of_all (by decide +kernel) 2) hrows
    (List.mem_singleton_self _)
  refine ⟨hrows, hrefs, sources, ?_, ?_, fun es hes e' he' => ?_⟩
  · exact (hdomain [] _ hrefs _).mp (by simp)
  · exact (hdomain [] _ hrefs _).mp (by simp)
  · exact hvalues [] mentorProduct es (by decide)
      (fun x y hx hy => Expr.eq_of_beq (.inr rfl) (hlacks x hx) (hlacks y hy)) hes e' he' _ rfl

/-- Which orders are paid and which are sent. -/
def orderStates : Table :=
  { name := ["ORDERS"], rowType := ⟨[⟨"paid", .boolean, true⟩, ⟨"sent", .boolean, true⟩]⟩
    source := some (.ok [[.boolean true, .boolean false]]) }

/-- Which orders are both, and two conversions that differ in the kind of number only. -/
def donePlans : Planning NodeId := do
  let scan ← Cluster.createDefault (.scan .none orderStates) []
  let _ ← Cluster.createDefault (.project .none
    [(.call .and [.column 0 .boolean, .column 1 .boolean], "done")]) [scan]
  Cluster.createDefault (.project .none
    [(.cast (.literal (.integer 1)) .varchar, "x"), (.cast (.literal (.double 1)) .varchar, "y")]) [scan]

def doneSession : Cluster := (donePlans.run.run (Cluster.start ⟨[orderStates]⟩ default default)).2

/-- A projected conjunction is FALSE on a row, but it is traced to each of its operands, one of which is
TRUE on the only row there is. Of two conversions the second one, which is asked about last, is traced
to the first one. -/
theorem lineage_splits_conjunction :
    doneSession.methods = .builtin ∧ doneSession.Returns 1 [[.boolean false]] ∧
    (((of doneSession).tableRefs 1).run {}).1.toOption = some (some [⟨["ORDERS"], 0⟩]) ∧
    (((of doneSession).lineage 1 (.column 0 .boolean)).run {}).1.toOption.map
      (Option.map (List.map fun e => (e.evalOver fun _ => some [.boolean true, .boolean false]).toOption.toList)) =
        some (some [[.boolean true], [.boolean false]]) ∧
    doneSession.Returns 2 [[.varchar "1", .varchar "1.0"]] ∧
    (((of doneSession).lineage 2 (.column 1 .varchar)).run
        ((of doneSession).memoryOf [⟨.lineage, ⟨2, .column 0 .varchar⟩⟩])).1.toOption.map
      (Option.map (List.map fun e => (e.evalOver fun _ => none).toOption.toList)) =
        some (some [[.varchar "1"]]) :=
  ⟨rfl, Cluster.returns_of_ranRows (by decide +kernel) (by decide +kernel), by decide +kernel,
    by decide +kernel, Cluster.returns_of_ranRows (by decide +kernel) (by decide +kernel),
    by decide +kernel⟩

end Asking

end QueryPlan
