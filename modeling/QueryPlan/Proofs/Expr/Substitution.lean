import QueryPlan.Expr.Conjunction
import QueryPlan.Expr.Eval
import QueryPlan.Operator.Schema
import QueryPlan.Proofs.Outcome
/-!
# Evaluation over rows of outcomes

An expression is put in place of a column whether or not it has a value on the row at hand, so the
row that the changed expression stands for may have failures in it. `evalOn` evaluates over such
rows. It agrees with `eval` on rows of values, and replacing columns becomes reading another row.
-/
namespace QueryPlan.Expr

mutual

/-- The value of an expression on a row of outcomes. -/
def evalOn (row : List Outcome) : Expr → Outcome
  | column i _ => row[i]?.getD (.error (.columnOutOfRange i row.length))
  | literal v => .ok v
  | apply op es t => op.combine t (evalOnEach row es)
  | tableColumn r _ _ => .error (.tableColumn r)

/-- The outcome of every expression of a list. -/
def evalOnEach (row : List Outcome) : List Expr → List Outcome
  | [] => []
  | e :: es => evalOn row e :: evalOnEach row es

end

theorem evalOnEach_eq (row : List Outcome) (es : List Expr) :
    evalOnEach row es = es.map (evalOn row) := by
  induction es with
  | nil => rfl
  | cons e es ih => simp [evalOnEach, ih]

/-- On a row of values this is the value of the expression. -/
theorem evalOn_map_ok (row : Row) (e : Expr) : evalOn (row.map .ok) e = eval row e := by
  induction e using induct with
  | column i t =>
    cases h : row[i]? with
    | none => simp [evalOn, eval, h]
    | some v => simp [evalOn, eval, h]
  | literal v => rfl
  | apply op es t ih =>
    rw [evalOn, eval, evalOnEach_eq, evalEach_eq]
    congr 1
    exact List.map_congr_left ih
  | tableColumn r i t => rfl

theorem evalOn_column {row : List Outcome} {i : Nat} {o : Outcome} (h : row[i]? = some o)
    (t : DataType) : evalOn row (column i t) = o := by
  simp [evalOn, h]

/-! ## Columns that an expression reads -/

theorem asColumn?_eq_some {e : Expr} {i : Nat} (h : e.asColumn? = some i) :
    ∃ t, e = column i t := by
  cases e with
  | column j t => cases h; exact ⟨t, rfl⟩
  | _ => cases h

theorem length_of_areIdentity {exprs : List Expr} {arity : Nat}
    (h : areIdentity exprs arity = true) : exprs.length = arity := by
  have hcolumns : exprs.map asColumn? = (List.range arity).map some := by
    simpa [areIdentity] using h
  simpa using congrArg List.length hcolumns

theorem mem_columnList_apply {op : Op} {es : List Expr} {t : DataType} {i : Nat} :
    i ∈ (apply op es t).columnList ↔ ∃ e ∈ es, i ∈ e.columnList := by
  rw [columnList, columnListOf_eq, List.mem_flatMap]

theorem mem_columns {e : Expr} {i : Nat} : i ∈ e.columns.toList ↔ i ∈ e.columnList :=
  ColumnSet.mem_toList_ofList

theorem unknownColumn?_of_checkColumns {what : String} {e : Expr} {arity : Nat}
    (h : e.checkColumns what arity = .ok ()) : e.unknownColumn? arity = none := by
  unfold checkColumns at h
  cases hunknown : e.unknownColumn? arity with
  | none => rfl
  | some i =>
    rw [hunknown] at h
    cases h

/-- An expression that passes its check reads columns that are there. -/
theorem lt_of_checkColumns {what : String} {e : Expr} {arity : Nat}
    (h : e.checkColumns what arity = .ok ()) : ∀ i ∈ e.columnList, i < arity := by
  intro i hi
  have := List.find?_eq_none.mp (unknownColumn?_of_checkColumns h) i (mem_columns.mpr hi)
  simpa using this

/-- Rows that agree where an expression reads them give it the same value. -/
theorem evalOn_congr {row row' : List Outcome} {e : Expr}
    (h : ∀ i ∈ e.columnList, ∀ t, evalOn row (column i t) = evalOn row' (column i t)) :
    evalOn row e = evalOn row' e := by
  induction e using induct with
  | column i t => exact h i (by simp [columnList]) t
  | literal v => rfl
  | apply op es t ih =>
    rw [evalOn, evalOn, evalOnEach_eq, evalOnEach_eq]
    congr 1
    refine List.map_congr_left fun e he => ih e he fun i hi => ?_
    exact h i (mem_columnList_apply.mpr ⟨e, he, hi⟩)
  | tableColumn r i t => rfl

/-- An expression over the first columns of a row reads only those. -/
theorem evalOn_append_left {left right : List Outcome} {e : Expr}
    (h : ∀ i ∈ e.columnList, i < left.length) : evalOn (left ++ right) e = evalOn left e := by
  apply evalOn_congr
  intro i hi t
  have hlt := h i hi
  simp [evalOn, List.getElem?_append_left hlt, List.getElem?_eq_getElem hlt]

/-! ## Replacing columns -/

/-- With its columns replaced, an expression has on a row the value that it has on the row of what
replaces them. -/
theorem evalOn_mapColumns {f : Nat → DataType → Expr} {row row' : List Outcome} {e : Expr}
    (h : ∀ i ∈ e.columnList, ∀ t, evalOn row (f i t) = evalOn row' (column i t)) :
    evalOn row (e.mapColumns f) = evalOn row' e := by
  induction e using induct with
  | column i t => exact h i (by simp [columnList]) t
  | literal v => rfl
  | apply op es t ih =>
    rw [mapColumns, evalOn, evalOn, evalOnEach_eq, evalOnEach_eq, mapColumnsEach_eq, List.map_map]
    congr 1
    refine List.map_congr_left fun e he => ih e he fun i hi => ?_
    exact h i (mem_columnList_apply.mpr ⟨e, he, hi⟩)
  | tableColumn r i t => rfl

theorem mapColumns_congr {f g : Nat → DataType → Expr} {e : Expr}
    (h : ∀ i ∈ e.columnList, ∀ t, f i t = g i t) : e.mapColumns f = e.mapColumns g := by
  induction e using induct with
  | column i t => exact h i List.mem_cons_self t
  | literal v => rfl
  | apply op es t ih =>
    rw [mapColumns, mapColumns, mapColumnsEach_eq, mapColumnsEach_eq]
    congr 1
    exact List.map_congr_left fun e he => ih e he fun i hi =>
      h i (mem_columnList_apply.mpr ⟨e, he, hi⟩)
  | tableColumn r i t => rfl

/-- The columns that are read after a replacement by columns. -/
theorem columnList_mapColumns {g : Nat → Nat} {e : Expr} :
    (e.mapColumns fun i t => column (g i) t).columnList = e.columnList.map g := by
  induction e using induct with
  | column i t => rfl
  | literal v => rfl
  | apply op es t ih =>
    rw [mapColumns, mapColumnsEach_eq, columnList, columnList, columnListOf_eq, columnListOf_eq,
      List.flatMap_map, List.map_flatMap]
    exact List.flatMap_congr ih
  | tableColumn r i t => rfl

theorem mapColumns?_apply {f : Nat → DataType → Option Expr} {op : Op} {es : List Expr}
    {t : DataType} {e' : Expr} (h : (apply op es t).mapColumns? f = some e') :
    ∃ es', es.mapM (mapColumns? f) = some es' ∧ e' = apply op es' t := by
  rw [mapColumns?, mapColumnsEach?_eq] at h
  obtain ⟨es', hes, rfl⟩ := Option.map_eq_some_iff.mp h
  exact ⟨es', hes, rfl⟩

/-- If an expression has replacements for all of its columns, replacing them is `mapColumns`. -/
theorem mapColumns?_eq_some {f : Nat → DataType → Option Expr} {e e' : Expr}
    (h : e.mapColumns? f = some e') :
    e.mapColumns (fun i t => (f i t).getD (column i t)) = e' ∧
      ∀ i ∈ e.columnList, ∃ t p, f i t = some p := by
  induction e using induct generalizing e' with
  | column i t =>
    have h : f i t = some e' := h
    refine ⟨by rw [mapColumns, h]; rfl, fun j hj => ?_⟩
    rw [columnList, List.mem_singleton] at hj
    exact ⟨t, e', hj ▸ h⟩
  | literal v =>
    cases h
    exact ⟨rfl, by simp [columnList]⟩
  | apply op es t ih =>
    obtain ⟨es', hes, rfl⟩ := mapColumns?_apply h
    have hforall := Outcome.forall₂_of_mapM_eq_some hes
    have heach : es.map (mapColumns fun i t => (f i t).getD (column i t)) = es' ∧
        ∀ e ∈ es, ∀ i ∈ e.columnList, ∃ t p, f i t = some p := by
      clear h hes
      induction hforall with
      | nil => exact ⟨rfl, by simp⟩
      | cons he _ ihes =>
        obtain ⟨heq, hcolumns⟩ := ih _ List.mem_cons_self he
        obtain ⟨heqs, hcolumnss⟩ := ihes fun e hmem => ih e (List.mem_cons_of_mem _ hmem)
        refine ⟨by rw [List.map_cons, heq, heqs], fun e hmem => ?_⟩
        rcases List.mem_cons.mp hmem with rfl | hmem
        · exact hcolumns
        · exact hcolumnss e hmem
    refine ⟨by rw [mapColumns, mapColumnsEach_eq, heach.1], fun i hi => ?_⟩
    obtain ⟨e, he, hi⟩ := mem_columnList_apply.mp hi
    exact heach.2 e he i hi
  | tableColumn r i t =>
    cases h
    exact ⟨rfl, by simp [columnList]⟩

/-- The columns that are read after a replacement are those of the replacements. -/
theorem mem_columnList_mapColumns? {f : Nat → DataType → Option Expr} {e e' : Expr}
    (h : e.mapColumns? f = some e') {k : Nat} (hk : k ∈ e'.columnList) :
    ∃ i ∈ e.columnList, ∃ t p, f i t = some p ∧ k ∈ p.columnList := by
  induction e using induct generalizing e' with
  | column i t => exact ⟨i, List.mem_singleton_self i, t, e', h, hk⟩
  | literal v =>
    cases h
    cases hk
  | apply op es t ih =>
    obtain ⟨es', hes, rfl⟩ := mapColumns?_apply h
    obtain ⟨p', hp', hk⟩ := mem_columnList_apply.mp hk
    obtain ⟨p, hp, hmap⟩ := Outcome.exists_left_of_forall₂ (Outcome.forall₂_of_mapM_eq_some hes) hp'
    obtain ⟨i, hi, hreplaced⟩ := ih p hp hmap hk
    exact ⟨i, mem_columnList_apply.mpr ⟨p, hp, hi⟩, hreplaced⟩
  | tableColumn r i t =>
    cases h
    cases hk

/-- An expression turned through a projection has on a row the value that the expression has on the
projected row. -/
theorem evalOn_throughProjection {projected : List Expr} {e e' : Expr} {row : List Outcome}
    (h : e.throughProjection? projected = some e') :
    evalOn row e' = evalOn (projected.map (evalOn row)) e := by
  obtain ⟨rfl, hcolumns⟩ := mapColumns?_eq_some h
  apply evalOn_mapColumns
  intro i hi t
  obtain ⟨-, p, hp⟩ := hcolumns i hi
  rw [hp, Option.getD_some, evalOn_column (by rw [List.getElem?_map, hp]; rfl)]

theorem shiftOrdinal_of_lt {offset : Int} {i : Nat} (h : 0 ≤ (i : Int) + offset)
    (hlt : (i : Int) + offset < UInt64.size) :
    shiftOrdinal offset i = ((i : Int) + offset).toNat := by
  rw [shiftOrdinal, Int.emod_eq_of_lt h hlt]

/-- An expression over the second part of a row, turned into one over that part alone. The columns
that a word can count are all that there are. -/
theorem evalOn_shift_neg {left right : List Outcome} {e : Expr} (hwords : right.length ≤ UInt64.size)
    (h : ∀ i ∈ e.columnList, left.length ≤ i ∧ i < left.length + right.length) :
    evalOn right (e.shift (-(left.length : Int))) = evalOn (left ++ right) e := by
  apply evalOn_mapColumns
  intro i hi t
  obtain ⟨hlow, hhigh⟩ := h i hi
  rw [shiftOrdinal_of_lt (by omega) (by omega)]
  have hi' : ((i : Int) + -(left.length : Int)).toNat = i - left.length := by omega
  have hlt : i - left.length < right.length := by omega
  rw [hi', evalOn_column (List.getElem?_eq_getElem hlt), evalOn_column]
  rw [List.getElem?_append_right hlow, List.getElem?_eq_getElem hlt]

/-- An expression over the second part of a row, turned into one over the whole row. -/
theorem evalOn_shift_length {left right : List Outcome} {e : Expr}
    (hwords : left.length + right.length ≤ UInt64.size) (h : ∀ i ∈ e.columnList, i < right.length) :
    evalOn (left ++ right) (e.shift left.length) = evalOn right e := by
  apply evalOn_mapColumns
  intro i hi t
  have hlt := h i hi
  rw [shiftOrdinal_of_lt (by omega) (by omega)]
  have hi' : ((i : Int) + (left.length : Int)).toNat = i + left.length := by omega
  rw [hi', evalOn_column (List.getElem?_eq_getElem hlt), evalOn_column]
  rw [List.getElem?_append_right (by omega), Nat.add_sub_cancel, List.getElem?_eq_getElem hlt]

end QueryPlan.Expr
