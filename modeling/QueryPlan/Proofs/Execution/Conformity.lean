import QueryPlan.Proofs.Execution.Stripping
import QueryPlan.Proofs.Execution.Width
import QueryPlan.Proofs.Planner.Registration
import QueryPlan.Proofs.Session.Walks
/-!
# Rows hold what their columns admit

Row types are derived by operators and rows are computed by operators, and the two agree in whatever
relation of columns and values each operator keeps. The relation is a parameter here: which nulls a
column admits, which kinds of values. Filters, sorts, exchanges, joins and correlates keep any
relation that padding with nulls keeps; the other operators make values or columns of their own, and
`Operator.Provides` is what is left to show of them.
-/
namespace QueryPlan

variable {P : Field → Value → Prop}

/-- The row has a value that its column admits at every place, and as many values as there are
columns. -/
def Conforms (P : Field → Value → Prop) (t : RowType) (row : Row) : Prop :=
  List.Forall₂ P t.fields row

namespace Conforms

variable {t : RowType} {row : Row}

theorem length_eq (h : Conforms P t row) : row.length = t.arity := (List.Forall₂.length_eq h).symm

theorem mono {Q : Field → Value → Prop} (hPQ : ∀ f v, P f v → Q f v) (h : Conforms P t row) :
    Conforms Q t row := List.Forall₂.imp hPQ h

theorem getElem? {i : Nat} {v : Value} (h : Conforms P t row) (hv : row[i]? = some v) :
    ∃ f, t.fields[i]? = some f ∧ P f v := by
  obtain ⟨hi, rfl⟩ := List.getElem?_eq_some_iff.mp hv
  have hi' : i < t.fields.length := (List.Forall₂.length_eq h) ▸ hi
  exact ⟨t.fields[i], List.getElem?_eq_getElem hi', List.Forall₂.get h hi' hi⟩

end Conforms

/-- Whether the row has a value for each column, and each is one that its column admits. -/
def RowType.fits (p : Field → Value → Bool) (t : RowType) (row : Row) : Bool :=
  t.arity = row.length && (t.fields.zip row).all fun (f, v) => p f v

theorem RowType.fits_iff {p : Field → Value → Bool} {t : RowType} {row : Row} :
    t.fits p row = true ↔ Conforms (fun f v => p f v = true) t row := by
  rw [Conforms, List.forall₂_iff_zip, fits, Bool.and_eq_true, decide_eq_true_iff, List.all_eq_true]
  exact and_congr_right fun _ => ⟨fun h f v hfv => h (f, v) hfv, fun h ⟨f, v⟩ hfv => h hfv⟩

/-- What a column admits is still admitted when its side of a join is padded, and then null is too.
-/
structure KeptByPadding (P : Field → Value → Prop) : Prop where
  padded (f : Field) (v : Value) (pads : Bool) : P f v → P (f.padded pads) v
  null (f : Field) : P (f.padded true) .null

/-- What a column admits is admitted by every column that it is widened to. -/
structure KeptByWidening (P : Field → Value → Prop) : Prop where
  left (a b w : Field) (v : Value) : RowType.widenField a b = some w → P a v → P w v
  right (a b w : Field) (v : Value) : RowType.widenField a b = some w → P b v → P w v

/-! ## Padded rows -/

section

variable {left right : RowType} {l r : Row}

theorem KeptByPadding.fields (h : KeptByPadding P) (pads : Bool) (hl : Conforms P left l) :
    List.Forall₂ P (left.fields.map (·.padded pads)) l :=
  List.forall₂_map_left_iff.mpr (List.Forall₂.imp (fun f v => h.padded f v pads) hl)

theorem KeptByPadding.nulls (h : KeptByPadding P) (t : RowType) :
    List.Forall₂ P (t.fields.map (·.padded true)) (Row.nulls t.arity) := by
  have hall (fs : List Field) :
      List.Forall₂ P (fs.map (·.padded true)) (List.replicate fs.length .null) := by
    induction fs with
    | nil => exact .nil
    | cons f fs ih => exact .cons (h.null f) ih
  exact hall t.fields

theorem KeptByPadding.append (h : KeptByPadding P) (padsLeft padsRight : Bool)
    (hl : Conforms P left l) (hr : Conforms P right r) :
    Conforms P (left.join right padsLeft padsRight) (l ++ r) :=
  List.rel_append (h.fields padsLeft hl) (h.fields padsRight hr)

theorem KeptByPadding.append_nulls (h : KeptByPadding P) (padsLeft : Bool) (right : RowType)
    (hl : Conforms P left l) :
    Conforms P (left.join right padsLeft true) (l ++ Row.nulls right.arity) :=
  List.rel_append (h.fields padsLeft hl) (h.nulls right)

theorem KeptByPadding.nulls_append (h : KeptByPadding P) (padsRight : Bool) (left : RowType)
    (hr : Conforms P right r) :
    Conforms P (left.join right true padsRight) (Row.nulls left.arity ++ r) :=
  List.rel_append (h.nulls left) (h.fields padsRight hr)

end

/-! ## Widened rows -/

section

variable {row : Row}

theorem KeptByWidening.fields (h : KeptByWidening P) {as bs ws : List Field}
    (hw : RowType.widenFields as bs = some ws) :
    (List.Forall₂ P as row → List.Forall₂ P ws row) ∧
      (List.Forall₂ P bs row → List.Forall₂ P ws row) := by
  induction as generalizing bs ws row with
  | nil =>
    cases bs with
    | nil => cases hw; exact ⟨id, id⟩
    | cons b bs => cases hw
  | cons a as ih =>
    cases bs with
    | nil => cases hw
    | cons b bs =>
      obtain ⟨w, hfirst, hw⟩ := Option.bind_eq_some_iff.mp hw
      obtain ⟨ws', hrest, hw⟩ := Option.bind_eq_some_iff.mp hw
      cases hw
      constructor
      · intro hrow
        cases hrow with
        | cons hv hvs => exact .cons (h.left a b w _ hfirst hv) ((ih hrest).1 hvs)
      · intro hrow
        cases hrow with
        | cons hv hvs => exact .cons (h.right a b w _ hfirst hv) ((ih hrest).2 hvs)

theorem KeptByWidening.widen (h : KeptByWidening P) {a b w : RowType} (hw : a.widen b = some w) :
    (Conforms P a row → Conforms P w row) ∧ (Conforms P b row → Conforms P w row) := by
  obtain ⟨ws, hfields, rfl⟩ := Option.map_eq_some_iff.mp hw
  exact h.fields hfields

theorem KeptByWidening.foldlM (h : KeptByWidening P) {ts : List RowType} {a w : RowType}
    (hw : ts.foldlM RowType.widen a = some w) :
    (Conforms P a row → Conforms P w row) ∧ ∀ t ∈ ts, Conforms P t row → Conforms P w row := by
  induction ts generalizing a with
  | nil =>
    cases hw
    exact ⟨id, by simp⟩
  | cons t ts ih =>
    obtain ⟨b, hb, hw⟩ := Option.bind_eq_some_iff.mp hw
    obtain ⟨hfirst, hrest⟩ := ih hw
    obtain ⟨ha, ht⟩ := h.widen hb
    refine ⟨fun hrow => hfirst (ha hrow), ?_⟩
    intro u hu hrow
    rcases List.mem_cons.mp hu with rfl | hu
    · exact hfirst (ht hrow)
    · exact hrest u hu hrow

/-- Rows of every input of a set operation are rows of its row type, if it has one. -/
theorem KeptByWidening.leastRestrictive (h : KeptByWidening P) {ts : List RowType} {t : RowType}
    (hsome : ¬(RowType.leastRestrictive ts).isNone = true) (ht : t ∈ ts) (hrow : Conforms P t row) :
    Conforms P ((RowType.leastRestrictive ts).getD (ts[0]?.getD default)) row := by
  cases ts with
  | nil => cases ht
  | cons a ts =>
    cases hw : RowType.leastRestrictive (a :: ts) with
    | none => exact absurd (by rw [hw]; rfl) hsome
    | some w =>
      obtain ⟨hfirst, hrest⟩ := h.foldlM hw
      rcases List.mem_cons.mp ht with rfl | ht
      · exact hfirst hrow
      · exact hrest t ht hrow

end

/-! ## What is left to the operators -/

/-- From the empty group on, the result of the call is one that its column admits. -/
structure AggregateCall.Folds (P : Field → Value → Prop) (call : AggregateCall) (input : RowType) :
    Prop where
  start : P (call.field input) (call.function.start.getD .null)
  step (row : Row) (v : Value) (acc acc' : Option Value) : Conforms P input row →
    Execution.argumentValue call row = .ok v → P (call.field input) (acc.getD .null) →
      call.function.step acc v = .ok acc' → P (call.field input) (acc'.getD .null)

/-- What an operator sees to for itself: stored rows, projected values, results of calls, and rows
that pass from an input into a widened row type. -/
def Operator.Provides (P : Field → Value → Prop) (o : Operator) (types : List RowType)
    (inputs : List (List Row)) : Prop :=
  match o with
  | .scan _ table => ∀ rows, table.source = some (.ok rows) →
    ∀ row ∈ rows, Conforms P table.rowType row
  | .values _ rowType tuples => ∀ row ∈ tuples, Conforms P rowType row
  | .project _ columns => ∀ row ∈ inputs[0]?.getD [], ∀ p ∈ columns, ∀ v, p.1.eval row = .ok v →
    P (projectedField (types[0]?.getD default) p.1 p.2) v
  | .aggregate _ _ calls => ∀ call ∈ calls, call.Folds P (types[0]?.getD default)
  | .union _ _ | .intersect _ | .minus _ => ∀ t ∈ types, ∀ row, Conforms P t row →
    Conforms P ((RowType.leastRestrictive types).getD (types[0]?.getD default)) row
  | _ => True

/-- Whether the operator is a union, an intersection or a difference. -/
def Operator.isSetOperation : Operator → Bool
  | .union _ _ | .intersect _ | .minus _ => true
  | _ => false

/-- Whether the rows that an operator stores, in a table or as literals, fit their row type. -/
def Operator.stores (p : RowType → Row → Bool) : Operator → Bool
  | .scan _ table =>
    match table.source with
    | some (.ok rows) => rows.all (p table.rowType)
    | _ => true
  | .values _ rowType tuples => tuples.all (p rowType)
  | _ => true

/-- An operator that passes its check, and whose stored rows fit, has to see to its projected
values, to its calls and to the inputs of a set operation. -/
theorem Operator.provides_of_stores {p : Field → Value → Bool} {o : Operator} {types : List RowType}
    {inputs : List (List Row)} (hcheck : o.check types = .ok ())
    (hstores : o.stores (RowType.fits p) = true)
    (hproject : ∀ columns, o.projection? = some columns →
      (∀ q ∈ columns, q.1.checkColumns "expression" (types[0]?.getD default).arity = .ok ()) →
        ∀ row ∈ inputs[0]?.getD [], ∀ q ∈ columns, ∀ v, q.1.eval row = .ok v →
          p (projectedField (types[0]?.getD default) q.1 q.2) v = true)
    (hcalls : ∀ group calls, o.aggregate? = some (group, calls) →
      (∀ call ∈ calls, checkCall (types[0]?.getD default).arity call = .ok ()) →
        ∀ call ∈ calls, call.Folds (fun f v => p f v = true) (types[0]?.getD default))
    (hset : ¬(RowType.leastRestrictive types).isNone = true → o.isSetOperation = true →
      ∀ t ∈ types, ∀ row, Conforms (fun f v => p f v = true) t row →
        Conforms (fun f v => p f v = true)
          ((RowType.leastRestrictive types).getD (types[0]?.getD default)) row) :
    o.Provides (fun f v => p f v = true) types inputs := by
  cases o with
  | scan convention table =>
    intro rows hsource row hrow
    simp only [stores, hsource, List.all_eq_true] at hstores
    exact RowType.fits_iff.mp (hstores row hrow)
  | values convention rowType tuples =>
    intro row hrow
    exact RowType.fits_iff.mp (List.all_eq_true.mp hstores row hrow)
  | project convention columns =>
    exact hproject columns rfl fun q hq => Outcome.forM_eq_ok.mp hcheck q hq
  | aggregate convention group calls =>
    simp only [check, Outcome.bind_eq_ok] at hcheck
    obtain ⟨u, -, hchecks⟩ := hcheck
    exact hcalls group calls rfl fun call hcall => Outcome.forM_eq_ok.mp hchecks call hcall
  | union | intersect | minus =>
    simp only [check] at hcheck
    split at hcheck
    · cases hcheck
    · split at hcheck
      · cases hcheck
      · next hsome => exact hset hsome rfl
  | _ => trivial

namespace Execution

/-! ## Rows of operators -/

section

variable {input : RowType} {group : ColumnSet} {calls : List AggregateCall} {key row : Row}

theorem conforms_groupKey {columns : List Nat} (hrow : Conforms P input row)
    (h : columns.mapM (columnValue row) = .ok key) :
    List.Forall₂ P (columns.filterMap (input.fields[·]?)) key := by
  induction columns generalizing key with
  | nil =>
    cases h
    exact .nil
  | cons i columns ih =>
    simp only [List.mapM_cons, Outcome.bind_eq_ok, Outcome.pure_eq_ok] at h
    obtain ⟨v, hv, rest, hrest, rfl⟩ := h
    unfold columnValue at hv
    split at hv
    · next w hw =>
      cases hv
      obtain ⟨f, hf, hP⟩ := hrow.getElem? hw
      rw [List.filterMap_cons_some hf]
      exact .cons hP (ih hrest)
    · cases hv

theorem conforms_emptyGroup (hcalls : ∀ call ∈ calls, call.Folds P input) :
    List.Forall₂ (fun call (acc : Option Value) => P (call.field input) (acc.getD .null)) calls
      (emptyGroup calls) := by
  rw [emptyGroup, List.forall₂_map_right_iff, List.forall₂_same]
  exact fun call hcall => (hcalls call hcall).start

theorem conforms_addRow {accs accs' : List (Option Value)} (hrow : Conforms P input row)
    (hcalls : ∀ call ∈ calls, call.Folds P input)
    (haccs : List.Forall₂ (fun call (acc : Option Value) => P (call.field input) (acc.getD .null))
      calls accs)
    (h : addRow row calls accs = .ok accs') :
    List.Forall₂ (fun call (acc : Option Value) => P (call.field input) (acc.getD .null))
      calls accs' := by
  induction haccs generalizing accs' with
  | nil =>
    cases h
    exact .nil
  | @cons call acc calls accs hacc _ ih =>
    obtain ⟨hcall, hrest⟩ := List.forall_mem_cons.mp hcalls
    simp only [addRow, Outcome.bind_eq_ok, Outcome.pure_eq_ok] at h
    obtain ⟨v, hv, acc', hacc', rest, hrests, rfl⟩ := h
    exact .cons (hcall.step row v acc acc' hrow hv hacc hacc') (ih hrest hrests)

theorem conforms_aggregateRows {rows totals : List Row}
    (hrows : ∀ row ∈ rows, Conforms P input row) (hcalls : ∀ call ∈ calls, call.Folds P input)
    (h : aggregateRows group calls rows = .ok totals) :
    ∀ row ∈ totals,
      Conforms P ⟨group.toList.filterMap (input.fields[·]?) ++ calls.map (·.field input)⟩ row := by
  intro row hrow
  obtain ⟨key, accs, hkey, haccs, rfl⟩ := mem_aggregateRows
    (fun row hrow key hkey => conforms_groupKey (hrows row hrow) hkey)
    (fun hnone => by rw [hnone]; exact .nil) (conforms_emptyGroup hcalls)
    (fun row hrow accs accs' => conforms_addRow (hrows row hrow) hcalls) h row hrow
  apply List.rel_append hkey
  rw [List.forall₂_map_left_iff, List.forall₂_map_right_iff]
  exact haccs

end

/-- Rows of each input conform to its row type. -/
abbrev InputsConform (P : Field → Value → Prop) (types : List RowType) (inputs : List (List Row)) :
    Prop :=
  List.Forall₂ (fun t rows => ∀ row ∈ rows, Conforms P t row) types inputs

theorem InputsConform.getElem? {types : List RowType} {inputs : List (List Row)}
    (h : InputsConform P types inputs) (i : Nat) :
    ∀ row ∈ inputs[i]?.getD [], Conforms P (types[i]?.getD default) row :=
  Outcome.forall₂_getD (fun _ hrow => by cases hrow) h i

/-- Rows of an operator conform to its row type if those of its inputs do. -/
theorem conforms_operatorRows {o : Operator} {types : List RowType} {inputs : List (List Row)}
    {rows : List Row} (hpadding : KeptByPadding P) (ho : o.Provides P types inputs)
    (hinputs : InputsConform P types inputs)
    (h : operatorRows o (types.map RowType.arity) inputs = .ok rows) :
    ∀ row ∈ rows, Conforms P (o.rowType types) row := by
  have first := hinputs.getElem? 0
  have second := hinputs.getElem? 1
  have widened (hprovides : ∀ t ∈ types, ∀ row, Conforms P t row →
      Conforms P ((RowType.leastRestrictive types).getD (types[0]?.getD default)) row)
      {kept : List Row} (hkept : ∀ row ∈ kept, ∃ rows ∈ inputs, row ∈ rows) :
      ∀ row ∈ kept,
        Conforms P ((RowType.leastRestrictive types).getD (types[0]?.getD default)) row := by
    intro row hrow
    obtain ⟨rows, hrows, hrow⟩ := hkept row hrow
    obtain ⟨t, ht, hall⟩ := Outcome.exists_left_of_forall₂ hinputs hrows
    exact hprovides t ht row (hall row hrow)
  unfold operatorRows at h
  cases o with
  | scan | subset =>
    cases h
    intro row hrow
    cases hrow
  | values convention rowType tuples =>
    cases h
    exact ho
  | filter => exact fun row hrow => first row (mem_filterRows h row hrow)
  | project convention columns =>
    intro row hrow
    obtain ⟨f, hf, rfl⟩ := Outcome.exists_map_of_mapM_eq_ok h
    obtain ⟨r, hr, rfl⟩ := List.mem_map.mp hrow
    have hvalues := Outcome.mapM_eq_ok.mp (hf r hr)
    rw [List.forall₂_map_left_iff] at hvalues
    rw [Conforms, Operator.rowType, List.forall₂_map_left_iff]
    exact Outcome.forall₂_imp_of_mem (fun p hp v _ hv => ho r hr p hp v hv) hvalues
  | join algorithm joinType condition =>
    cases algorithm with
    | semi => exact fun row hrow => first row (mem_semiJoinRows h row hrow)
    | _ =>
      simp only [getD_map_arity] at h
      intro row hrow
      rcases mem_joinRows h row hrow with
        ⟨left, hl, right, hr, rfl⟩ | ⟨hpads, left, hl, rfl⟩ | ⟨hpads, right, hr, rfl⟩
      · exact hpadding.append _ _ (first left hl) (second right hr)
      -- a side of nulls is there only if the row type pads that side
      · simp only [Operator.rowType, hpads]
        exact hpadding.append_nulls _ _ (first left hl)
      · simp only [Operator.rowType, hpads]
        exact hpadding.nulls_append _ _ (second right hr)
  | correlate convention correlation required joinType =>
    cases h
    simp only [getD_map_arity, Operator.rowType]
    intro row hrow
    rcases mem_correlateRows row hrow with
      ⟨hprojects, hl⟩ | ⟨hprojects, left, hl, right, hr, rfl⟩ | ⟨rfl, left, hl, rfl⟩
    · rw [hprojects]
      exact first row hl
    · rw [if_pos hprojects]
      exact hpadding.append _ _ (first left hl) (second right hr)
    · exact hpadding.append_nulls _ _ (first left hl)
  | aggregate convention group calls => exact conforms_aggregateRows first ho h
  | sort => exact fun row hrow => first row (mem_sortRows h row hrow)
  | sortExchange => exact fun row hrow => first row (mem_sortRows h row hrow)
  | exchange => cases h; exact first
  | union convention all => cases h; exact widened ho mem_unionRows
  | intersect all => cases h; exact widened ho mem_intersectRows
  | minus all => cases h; exact widened ho mem_minusRows

end Execution

namespace Cluster

variable {c : Cluster} {root id : NodeId}

theorem Plain.inPlan (h : c.Plain root) (hid : c.InPlan root id) : c.Plain id := by
  induction hid with
  | root => exact h
  | input _ hj ih =>
    cases ih with
    | node inputs _ => exact inputs _ hj

/-- There is no subset under a node if there is none in the session. -/
theorem Plain.of_all (hid : id < c.size) (h : ∀ i < c.size, (c.operator i).isSubset = false) :
    c.Plain id := by
  induction id using Nat.strongRecOn with
  | ind id ih => exact .node (fun j hj => ih j (c.inputs_lt hj) (inputs_lt_size hj)) (h id hid)

theorem Valid.inPlan (h : c.Valid root) (hid : c.InPlan root id) : c.Valid id := by
  induction hid with
  | root => exact h
  | input _ hj ih => exact ih.inputs _ hj

/-- Every operator of the plan sees to its part, on whichever rows its inputs deliver. -/
def Provides (P : Field → Value → Prop) (c : Cluster) (root : NodeId) : Prop :=
  ∀ id, c.InPlan root id → ∀ rowsOf : NodeId → List Row,
    (∀ j ∈ c.inputs id, c.Delivers j (rowsOf j)) →
    Execution.InputsConform P ((c.inputs id).map c.rowType) ((c.inputs id).map rowsOf) →
      (c.operator id).Provides P ((c.inputs id).map c.rowType) ((c.inputs id).map rowsOf)

/-- Rows of a node over rows of its inputs that conform. -/
theorem conforms_nodeRows {cancelled : Bool} {rowsOf : NodeId → List Row} {rows : List Row}
    (hpadding : KeptByPadding P) (hid : id < c.size)
    (hprovides :
      (c.operator id).Provides P ((c.inputs id).map c.rowType) ((c.inputs id).map rowsOf))
    (hinputs : Execution.InputsConform P ((c.inputs id).map c.rowType) ((c.inputs id).map rowsOf))
    (h : c.nodeRows cancelled id ((c.inputs id).map rowsOf) = .ok rows) :
    ∀ row ∈ rows, Conforms P (c.rowType id) row := by
  rw [rowType_eq hid]
  rcases nodeRows_cases h with ⟨v, table, hop, hsource⟩ | ⟨-, hrows⟩
  · rw [hop] at hprovides ⊢
    exact hprovides rows hsource
  · rw [map_arity_inputs] at hrows
    exact Execution.conforms_operatorRows hpadding hprovides hinputs hrows

/-- Every node of the plan has rows that conform to its row type, if it has any. -/
theorem evaluate_conforms {cancelled : Bool} {rows : List Row} (hpadding : KeptByPadding P)
    (hroot : root < c.size) (hprovides : c.Provides P root) (hid : c.InPlan root id)
    (h : c.evaluate cancelled id = .ok rows) : ∀ row ∈ rows, Conforms P (c.rowType id) row := by
  -- on the number of the node: its inputs have smaller numbers
  induction id using Nat.strongRecOn generalizing rows with
  | ind id ih =>
    rw [evaluate_eq, Outcome.bind_eq_ok] at h
    obtain ⟨inputs, hinputs, hrows⟩ := h
    obtain ⟨rowsOf, hrowsOf, rfl⟩ := Outcome.exists_map_of_mapM_eq_ok hinputs
    have hconform : Execution.InputsConform P ((c.inputs id).map c.rowType)
        ((c.inputs id).map rowsOf) := by
      exact Outcome.forall₂_map_same.mpr fun j hj =>
        ih j (c.inputs_lt hj) (.input hid hj) (hrowsOf j hj)
    exact conforms_nodeRows hpadding (hid.lt_size hroot)
      (hprovides id hid rowsOf (fun j hj => delivers_of_evaluate (hrowsOf j hj)) hconform)
      hconform hrows

/-- What a run of a plan without subsets returns fits the row type of its root. -/
theorem run_fits {p : Field → Value → Bool} {cancelled : Bool} {rows : List Row}
    (hpadding : KeptByPadding fun f v => p f v = true) (hroot : root < c.size)
    (hplain : c.Plain root) (hprovides : c.Provides (fun f v => p f v = true) root)
    (hid : c.InPlan root id)
    (h : ((run id cancelled).run.run c).1 = .ok rows) :
    ∀ row ∈ rows, (c.rowType id).fits p row = true := by
  rw [run_plain (hid.lt_size hroot) (hplain.inPlan hid)] at h
  exact fun row hrow =>
    RowType.fits_iff.mpr (evaluate_conforms hpadding hroot hprovides hid h row hrow)

end Cluster

end QueryPlan
