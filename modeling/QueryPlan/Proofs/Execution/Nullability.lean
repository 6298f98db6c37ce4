import QueryPlan.Proofs.Execution.Conformity
import QueryPlan.Proofs.Execution.Reading
import QueryPlan.Proofs.Expr.Equality
/-!
# Where null is excluded, no row has one

A row type says of each column whether it admits null, and a run keeps to it: rows have a value for
each column, and no null where the column excludes it. It takes stored rows and literal tuples that
do so themselves, since nothing checks them. It also takes negations of truth values and sign
changes of numbers, which are null on anything else though their operand is not.
-/
namespace QueryPlan

/-- The column admits the value, as far as null is concerned. -/
def Field.admits (f : Field) (v : Value) : Bool := f.nullable || !v.isNull

/-- The row has a value for each column, and null only in columns that admit it. -/
def RowType.admits (t : RowType) (row : Row) : Bool :=
  t.fits Field.admits row

theorem RowType.admits_iff {t : RowType} {row : Row} :
    t.admits row = true ↔ Conforms (fun f v => f.admits v = true) t row := fits_iff

theorem Field.admits_eq_true {f : Field} {v : Value} :
    f.admits v = true ↔ (f.nullable = false → v.isNull = false) := by
  rw [admits]
  cases f.nullable <;> simp

theorem keptByPadding_admits : KeptByPadding fun f v => f.admits v = true where
  padded f v pads h := by
    rw [Field.admits_eq_true] at h ⊢
    intro hnullable
    exact h (Bool.or_eq_false_iff.mp hnullable).1
  null f := by simp [Field.admits, Field.padded]

theorem keptByWidening_admits : KeptByWidening fun f v => f.admits v = true where
  left a b w v hw h := by
    obtain ⟨t, -, hw⟩ := Option.bind_eq_some_iff.mp hw
    cases hw
    rw [Field.admits_eq_true] at h ⊢
    intro hnullable
    exact h (Bool.or_eq_false_iff.mp hnullable).1
  right a b w v hw h := by
    obtain ⟨t, -, hw⟩ := Option.bind_eq_some_iff.mp hw
    cases hw
    rw [Field.admits_eq_true] at h ⊢
    intro hnullable
    exact h (Bool.or_eq_false_iff.mp hnullable).2

/-! ## Expressions -/

/-- A negation reads a Boolean and a sign change a number, or null. Other operators read anything.
-/
def Op.reads (op : Op) (operand : Outcome) : Bool :=
  match op, operand with
  | .not, .ok v => v.isNull || v.toBool?.isSome
  | .unaryMinus, .ok v => v.isNull || v.toDouble?.isSome
  | _, _ => true

namespace Outcome

/-- The computation gives no null. -/
def NotNull (o : Outcome) : Prop := ∀ v, o = .ok v → v.isNull = false

variable {outcomes : List Outcome}

theorem notNull_ok {v : Value} (h : v.isNull = false) : NotNull (.ok v) :=
  fun _ hv => by cases hv; exact h

theorem notNull_allOf (h : ∀ o ∈ outcomes, NotNull o) : NotNull (allOf false outcomes) := by
  rcases allOf_cases false outcomes with hmem | heq | ⟨-, hfalse | hmem⟩
  · exact h _ hmem
  · exact heq ▸ notNull_ok rfl
  · cases hfalse
  · cases h _ hmem _ rfl

theorem notNull_anyOf (h : ∀ o ∈ outcomes, NotNull o) : NotNull (anyOf false outcomes) := by
  rcases anyOf_cases false outcomes with hmem | heq | ⟨-, hfalse | hmem⟩
  · exact h _ hmem
  · exact heq ▸ notNull_ok rfl
  · cases hfalse
  · cases h _ hmem _ rfl

theorem notNull_operand (h : ∀ o ∈ outcomes, NotNull o) (i : Nat) :
    NotNull (operand outcomes i) := by
  unfold operand
  cases hi : outcomes[i]? with
  | none => intro v hv; cases hv
  | some o => exact h o (List.mem_of_getElem? hi)

end Outcome

open Outcome

namespace Value

theorem isNull_arithmetic {op : Op} {v w r : Value} (hv : v.isNull = false) (hw : w.isNull = false)
    (h : arithmetic op v w = .ok r) : r.isNull = false := by
  unfold arithmetic integerArithmetic at h
  rw [hv, hw] at h
  simp only [Bool.or_self, Bool.false_eq_true, if_false] at h
  repeat' split at h
  all_goals first | cases h; rfl | cases h

theorem isNull_convert {target : DataType} {v r : Value} (hv : v.isNull = false)
    (h : v.convert target = .ok r) : r.isNull = false := by
  cases v with
  | null => cases hv
  | _ =>
    simp only [convert] at h
    repeat' split at h
    all_goals first | (cases h; rfl) | cases h

theorem isNull_compareBy {op : Op} {v w : Value} (hv : v.isNull = false) (hw : w.isNull = false) :
    (compareBy op v w).isNull = false := by
  rw [compareBy, hv, hw]
  rfl

end Value

/-- A call of operands that are not null gives no null. -/
theorem Op.notNull_combine {op : Op} {target : DataType} {outcomes : List Outcome}
    (h : ∀ o ∈ outcomes, NotNull o) (hreads : op.reads (operand outcomes 0) = true) :
    NotNull (op.combine target outcomes) := by
  have first := notNull_operand h 0
  have second := notNull_operand h 1
  intro r hr
  cases op with
  | and => exact notNull_allOf h r hr
  | or => exact notNull_anyOf h r hr
  | not =>
    obtain ⟨v, hv, rfl⟩ := Outcome.map_eq_ok.mp hr
    have hnull := first v hv
    rw [hv] at hreads
    cases v with
    | boolean b => rfl
    | null => cases hnull
    | _ => cases hreads
  | unaryMinus =>
    obtain ⟨v, hv, rfl⟩ := Outcome.map_eq_ok.mp hr
    have hnull := first v hv
    rw [hv] at hreads
    cases v with
    | integer i => rfl
    | double d => rfl
    | null => cases hnull
    | _ => cases hreads
  | isNull | isNotNull =>
    obtain ⟨v, hv, rfl⟩ := Outcome.map_eq_ok.mp hr
    rfl
  | floor | ceil =>
    obtain ⟨v, hv, rfl⟩ := Outcome.map_eq_ok.mp hr
    have hnull := first v hv
    cases v with
    | null => cases hnull
    | _ => rfl
  | cast =>
    obtain ⟨v, hv, hr⟩ := Outcome.bind_eq_ok.mp hr
    exact Value.isNull_convert (first v hv) hr
  | plus | minus | times | divide =>
    obtain ⟨v, hv, hr⟩ := Outcome.bind_eq_ok.mp hr
    obtain ⟨w, hw, hr⟩ := Outcome.bind_eq_ok.mp hr
    exact Value.isNull_arithmetic (first v hv) (second w hw) hr
  | equals | notEquals | lessThan | lessThanOrEqual | greaterThan | greaterThanOrEqual =>
    obtain ⟨v, hv, hr⟩ := Outcome.bind_eq_ok.mp hr
    obtain ⟨w, hw, hr⟩ := Outcome.bind_eq_ok.mp hr
    cases hr
    exact Value.isNull_compareBy (first v hv) (second w hw)

namespace Expr

mutual

/-- On the row, each negation and each sign change within the expression reads an operand of its
kind. -/
def readsItsKind (row : Row) : Expr → Bool
  | apply op es _ => op.reads (Outcome.operand (evalEach row es) 0) && readTheirKind row es
  | _ => true

/-- The same of every expression of a list. -/
def readTheirKind (row : Row) : List Expr → Bool
  | [] => true
  | e :: es => readsItsKind row e && readTheirKind row es

end

variable {row : Row} {es : List Expr}

theorem readTheirKind_iff : readTheirKind row es = true ↔ ∀ e ∈ es, e.readsItsKind row = true := by
  induction es with
  | nil => simp [readTheirKind]
  | cons e es ih => simp [readTheirKind, ih]

theorem readsItsKind_apply {op : Op} {t : DataType} : (apply op es t).readsItsKind row = true ↔
    op.reads (Outcome.operand (evalEach row es) 0) = true ∧ ∀ e ∈ es,
      e.readsItsKind row = true := by
  rw [readsItsKind, Bool.and_eq_true, readTheirKind_iff]

theorem anyNullable_eq_false {input : RowType} :
    anyNullable input es = false ↔ ∀ e ∈ es, e.isNullable input = false := by
  induction es with
  | nil => simp [anyNullable]
  | cons e es ih => simp [anyNullable, ih]

/-- An expression that cannot be null is not null on any row that its input admits. -/
theorem notNull_eval {input : RowType} {e : Expr} (hrow : input.admits row = true)
    (hkind : e.readsItsKind row = true) (h : e.isNullable input = false) :
    NotNull (e.eval row) := by
  induction e using induct with
  | column i t =>
    intro v hv
    rw [eval] at hv
    split at hv
    · next w hw =>
      cases hv
      obtain ⟨f, hf, hadmits⟩ := (RowType.admits_iff.mp hrow).getElem? hw
      rw [isNullable, hf] at h
      exact Field.admits_eq_true.mp hadmits h
    · cases hv
  | literal v =>
    intro w hw
    cases hw
    exact h
  | apply op es t ih =>
    obtain ⟨hreads, hkinds⟩ := readsItsKind_apply.mp hkind
    rw [eval]
    by_cases htest : op = .isNull ∨ op = .isNotNull
    · -- a test for null has a value that is not null, whatever it reads
      intro v hv
      rcases htest with rfl | rfl <;>
      · obtain ⟨w, -, rfl⟩ := Outcome.map_eq_ok.mp hv
        rfl
    · have hall : anyNullable input es = false := by
        cases op <;> first | exact h | simp at htest
      apply Op.notNull_combine
      · intro o ho
        rw [evalEach_eq] at ho
        obtain ⟨e, he, rfl⟩ := List.mem_map.mp ho
        exact ih e he (hkinds e he) (anyNullable_eq_false.mp hall e he)
      · exact hreads
  | tableColumn r i t =>
    intro v hv
    cases hv

end Expr

/-! ## Operators -/

theorem AggFunction.isNull_addValues {v w r : Value} (h : addValues v w = .ok r) :
    r.isNull = false := by
  unfold addValues at h
  dsimp only at h
  repeat' split at h
  all_goals first | cases h; rfl | cases h

/-- A count and a sum from zero start from a number and stay numbers; the results of all other calls
may be null. -/
theorem AggregateCall.folds_admits (call : AggregateCall) (input : RowType) :
    call.Folds (fun f v => f.admits v = true) input := by
  obtain ⟨function, args, name⟩ := call
  constructor
  · cases function <;> rfl
  · intro row v acc acc' _ _ hacc hstep
    unfold AggFunction.step at hstep
    split at hstep
    · cases hstep
      exact hacc
    · next hv =>
      cases function with
      | count =>
        unfold AggFunction.accumulate at hstep
        split at hstep
        all_goals first | (cases hstep; rfl) | (cases hstep; exact hacc) | contradiction
      | sum0 =>
        cases acc with
        | none =>
          -- the first value that is added, and null is not added
          cases hstep
          simp [Field.admits, hv]
        | some total =>
          obtain ⟨r, hr, rfl⟩ := Outcome.map_eq_ok.mp hstep
          simp [Field.admits, AggFunction.isNull_addValues hr]
      | sum | min | max => rfl

/-- An operator that passes its check keeps null out of columns that exclude it, given that the rows
it stores do and that its expressions read operands of their kinds. -/
theorem Operator.provides_admits {o : Operator} {types : List RowType} {inputs : List (List Row)}
    (hcheck : o.check types = .ok ()) (hstores : o.stores RowType.admits = true)
    (hinputs : Execution.InputsConform (fun f v => f.admits v = true) types inputs)
    (hkind : ∀ columns, o.projection? = some columns → ∀ row ∈ inputs[0]?.getD [],
      ∀ p ∈ columns, p.1.readsItsKind row = true) :
    o.Provides (fun f v => f.admits v = true) types inputs := by
  refine provides_of_stores hcheck hstores (fun columns hcolumns hchecks row hrow p hp v hv => ?_)
    (fun _ _ _ _ call _ => call.folds_admits _)
    (fun hsome _ t ht row => keptByWidening_admits.leastRestrictive hsome ht)
  rw [Field.admits_eq_true]
  intro hnullable
  have hfirst := RowType.admits_iff.mpr (hinputs.getElem? 0 row hrow)
  refine Expr.notNull_eval hfirst (hkind columns hcolumns row hrow p hp) ?_ v hv
  have hnone := Expr.unknownColumn?_of_checkColumns (hchecks p hp)
  simpa [projectedField, hnone] using hnullable

namespace Cluster

variable {c : Cluster} {root id : NodeId}

/-- Null is where it is admitted, and nowhere else: a run of any node of a plan without subsets, all
of whose nodes pass their checks, returns rows that its row type admits, and it reads no column that
a row does not have, unless that is what reading a stored table fails with. -/
theorem run_admits (hroot : root < c.size) (hplain : c.Plain root) (hvalid : c.Valid root)
    (hstores : ∀ i, c.InPlan root i → (c.operator i).stores RowType.admits = true)
    (hkind : ∀ i columns, c.InPlan root i → (c.operator i).projection? = some columns →
      ∀ j ∈ c.inputs i, ∀ row ∈ c.ranRows j, ∀ p ∈ columns, p.1.readsItsKind row = true)
    (hid : c.InPlan root id) (cancelled : Bool) :
    (∀ rows, ((run id cancelled).run.run c).1 = .ok rows →
      ∀ row ∈ rows, (c.rowType id).admits row = true) ∧
    ∀ e, ((run id cancelled).run.run c).1 = .error (.evaluation e) → e.isMissingColumn = true →
      ∃ i t, c.InPlan id i ∧ (c.operator i).table? = some t ∧
        t.source = some (.error (.evaluation e)) := by
  have hprovides : c.Provides (fun f v => f.admits v = true) root := by
    intro i hi rowsOf hdelivers hinputs
    refine Operator.provides_admits (Outcome.mapError_eq_ok.mp (hvalid.inPlan hi).check)
      (hstores i hi) hinputs (fun columns hcolumns row hrow => ?_)
    -- a projection reads the rows of its first input, which are those of the run
    cases hin : c.inputs i with
    | nil =>
      rw [hin] at hrow
      cases hrow
    | cons j rest =>
      rw [hin] at hrow
      have hj : j ∈ c.inputs i := hin ▸ List.mem_cons_self
      refine hkind i columns hi hcolumns j hj row ?_
      rw [ranRows_of_delivers (inputs_lt_size hj) (hdelivers j hj)]
      exact hrow
  refine ⟨fun rows => run_fits keptByPadding_admits hroot hplain hprovides hid,
    fun e he hmissing => ?_⟩
  rw [run_plain (hid.lt_size hroot) (hplain.inPlan hid)] at he
  refine evaluate_inRange (fun i hi => (hvalid.inPlan hi).check)
    (fun i hi rows hrows row hrow => ?_) hid he hmissing
  exact (evaluate_conforms keptByPadding_admits hroot hprovides hi hrows row hrow).length_eq

/-! ## Workers in departments that may be missing -/

/-- Workers with their department, if they have one, and whether they have retired. -/
def workers : Table :=
  { name := ["WORKERS"]
    rowType := ⟨[⟨"id", .bigint, false⟩, ⟨"deptno", .bigint, true⟩, ⟨"retired", .boolean, false⟩]⟩
    source := some (.ok [[.integer 1, .integer 10, .boolean false],
      [.integer 2, .null, .boolean false], [.integer 3, .integer 30, .boolean true]]) }

/-- How many workers, retired or not, are in a known department, over an outer join that makes
nulls. -/
def countKnown : Planning NodeId := do
  let all ← createDefault (.scan .none workers) []
  let known ← createDefault (.values .none ⟨[⟨"deptno", .bigint, false⟩]⟩ [[.integer 10]]) []
  let deptno := Expr.call .equals [.column 1 .bigint, .column 3 .bigint]
  let join ← createDefault (.join .hash .left deptno) [all, known]
  let project ← createDefault (.project .none [(.call .not [.column 2 .boolean], "active"),
    (.call .unaryMinus [.column 0 .bigint], "back"), (.column 3 .bigint, "known")]) [join]
  createDefault (.aggregate .none (.ofList [0]) [⟨.count, [2], "n"⟩, ⟨.sum0, [1], "s"⟩]) [project]

def workersSession : Cluster := countKnown.leaves (start ⟨[workers]⟩ default default)

/-- The join pads a row with null where the department is not known; the totals above it exclude
null and have none. -/
theorem run_admits_workers :
    workersSession.ranRows 2 = [[.integer 1, .integer 10, .boolean false, .integer 10],
      [.integer 2, .null, .boolean false, .null], [.integer 3, .integer 30, .boolean true, .null]] ∧
    (workersSession.rowType 4).fields.map Field.nullable = [false, false, false] ∧
    workersSession.ranRows 4 = [[.boolean false, .integer 0, .integer (-3)],
      [.boolean true, .integer 1, .integer (-3)]] ∧
    ∀ row ∈ workersSession.ranRows 4, (workersSession.rowType 4).admits row = true := by
  have hnode : 4 < workersSession.size := by decide +kernel
  have hplain : workersSession.Plain 4 := .of_all hnode (by decide +kernel)
  have hvalid : workersSession.Valid 4 := .of_all hnode (by decide +kernel)
  have hstores : ∀ i < workersSession.size,
      (workersSession.operator i).stores RowType.admits = true := by
    decide +kernel
  have hkind : ∀ i < workersSession.size, ∀ columns ∈ (workersSession.operator i).projection?,
      ∀ j ∈ workersSession.inputs i, ∀ row ∈ workersSession.ranRows j, ∀ p ∈ columns,
        p.1.readsItsKind row = true := by decide +kernel
  have hrun : (run 4 false).Runs workersSession (workersSession.ranRows 4) _ :=
    runs_ranRows (by decide +kernel)
  obtain ⟨hadmits, -⟩ := run_admits hnode hplain hvalid (fun i hi => hstores i (hi.lt_size hnode))
    (fun i columns hi hcolumns => hkind i (hi.lt_size hnode) columns hcolumns) .root false
  exact ⟨by decide +kernel, by decide +kernel, by decide +kernel,
    hadmits _ (congrArg Prod.fst hrun)⟩

end Cluster

end QueryPlan
