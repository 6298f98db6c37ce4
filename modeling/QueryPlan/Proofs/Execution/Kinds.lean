import QueryPlan.Proofs.Execution.Conformity
import QueryPlan.Proofs.Expr.Conjunction
import QueryPlan.Proofs.Expr.Equality
import QueryPlan.Proofs.Operator.Typing
import QueryPlan.Proofs.Session.Frontier
/-!
# Which kinds of values a column holds

Values are typed dynamically and are passed on as they are, while row types are widened. So a column
holds values of the kind that its type names, but for three places where nothing is converted: a set
operation of integers and doubles, a sum that starts from the integer zero, and arithmetic that
ignores its third operand while its type does not. In all three a column of type DOUBLE comes to
hold integers; `DataType.holds` says with `mixed` what is true throughout, and without it what is
true where they do not occur.
-/
namespace QueryPlan

/-- Whether a column of the type holds the value: null or a value of the kind that the type names.
With `mixed`, a column of doubles holds integers too. -/
def DataType.holds (mixed : Bool) : DataType → Value → Bool
  | _, .null => true
  | .boolean, .boolean _ => true
  | .integer, .integer _ | .bigint, .integer _ => true
  | .double, .double _ => true
  | .double, .integer _ => mixed
  | .varchar, .varchar _ => true
  | _, _ => false

/-- Whether the row has a value for each column, of the kind that the type of the column names. -/
def RowType.holds (mixed : Bool) (t : RowType) (row : Row) : Bool :=
  t.fits (fun f v => f.dataType.holds mixed v) row

namespace DataType

variable {mixed : Bool} {t t' w : DataType} {v v' r : Value}

@[simp] theorem holds_null (mixed : Bool) (t : DataType) : t.holds mixed .null = true := by
  cases t <;> rfl

theorem holds_dataType (mixed : Bool) (v : Value) : v.dataType.holds mixed v = true := by
  cases v <;> rfl

theorem holds_of_holds (h : t.holds mixed v = true) : t.holds true v = true := by
  cases t <;> cases v <;> first | rfl | exact h

/-- Only in a column of doubles may integers be mixed in. -/
theorem holds_false_of_holds (h : t.holds true v = true)
    (hinteger : t = .double → ∀ i, v ≠ .integer i) : t.holds false v = true := by
  cases t <;> cases v <;> first | rfl | exact absurd rfl (hinteger rfl _) | cases h

/-- What a column holds is held by every column that it is widened to, if integers may be mixed in.
-/
theorem holds_leastRestrictive_left (hw : t.leastRestrictive t' = some w)
    (h : t.holds true v = true) : w.holds true v = true := by
  cases t <;> cases t' <;> cases hw <;> cases v <;> first | rfl | cases h

theorem holds_leastRestrictive_right (hw : t.leastRestrictive t' = some w)
    (h : t'.holds true v = true) : w.holds true v = true := by
  cases t <;> cases t' <;> cases hw <;> cases v <;> first | rfl | cases h

theorem isNumeric_of_holds_integer {i : Int64} (h : t.holds mixed (.integer i) = true) :
    t.isNumeric = true := by
  cases t <;> first | rfl | cases h

theorem holds_integer {i : Int64} (h : t.holds mixed (.integer i) = true) (k : Int64) :
    t.holds mixed (.integer k) = true := by
  cases t <;> first | rfl | exact h

theorem holds_integer_of_isNumeric (h : t.isNumeric = true) (i : Int64) :
    t.holds true (.integer i) = true := by
  cases t <;> first | rfl | cases h

theorem holds_sum_of_integers {i j : Int64} (h : t.holds false (.integer i) = true)
    (h' : t'.holds false (.integer j) = true) (k : Int64) :
    ((leastRestrictiveOf [t, t']).getD double).holds false (.integer k) = true := by
  cases t <;> cases t' <;> first | rfl | (cases h; done) | cases h'

theorem holds_opposite (h : t.holds mixed v = true) : t.holds mixed v.opposite = true := by
  cases v <;> cases t <;> first | rfl | exact h

theorem holds_rounded (round : Float → Float) (h : t.holds mixed v = true) :
    t.holds mixed (v.rounded round) = true := by
  cases v <;> cases t <;> first | rfl | exact h

theorem eq_double_of_holds {d : Float} (h : t.holds mixed (.double d) = true) : t = double := by
  cases t <;> first | rfl | cases h

/-! ### Types of arithmetic -/

theorem isNumeric_leastRestrictive (hw : t.leastRestrictive t' = some w) (h : t.isNumeric = true) :
    w.isNumeric = true := by
  cases t <;> cases t' <;> cases hw <;> first | rfl | cases h

theorem leastRestrictive_double (hw : t.leastRestrictive t' = some w)
    (h : t = double ∨ t' = double) : w = double := by
  cases t <;> cases t' <;> cases hw <;> first | rfl | simp at h

theorem isNumeric_foldlM {ts : List DataType} (hw : ts.foldlM leastRestrictive t = some w)
    (h : t.isNumeric = true) : w.isNumeric = true := by
  induction ts generalizing t with
  | nil =>
    cases hw
    exact h
  | cons a ts ih =>
    obtain ⟨u, hu, hw⟩ := Option.bind_eq_some_iff.mp hw
    exact ih hw (isNumeric_leastRestrictive hu h)

theorem foldlM_double {ts : List DataType} (hw : ts.foldlM leastRestrictive t = some w)
    (h : t = double ∨ double ∈ ts) : w = double := by
  induction ts generalizing t with
  | nil =>
    cases hw
    simpa using h
  | cons a ts ih =>
    obtain ⟨u, hu, hrest⟩ := Option.bind_eq_some_iff.mp hw
    rcases h with h | h
    · exact ih hrest (.inl (leastRestrictive_double hu (.inl h)))
    · rcases List.mem_cons.mp h with h | h
      · exact ih hrest (.inl (leastRestrictive_double hu (.inr h.symm)))
      · exact ih hrest (.inr h)

/-- The type of arithmetic on a number is numeric. -/
theorem isNumeric_leastRestrictiveOf {ts : List DataType} (h : t.isNumeric = true) :
    ((leastRestrictiveOf (t :: ts)).getD double).isNumeric = true := by
  have hfirst : leastRestrictiveOf (t :: ts) = ts.foldlM leastRestrictive t := by
    cases t <;> rfl
  rw [hfirst]
  cases hw : ts.foldlM leastRestrictive t with
  | none => rfl
  | some w => exact isNumeric_foldlM hw h

/-- The type of arithmetic on a double is that of doubles. -/
theorem leastRestrictiveOf_double {ts : List DataType} (h : double ∈ ts) :
    (leastRestrictiveOf ts).getD double = double := by
  cases hw : leastRestrictiveOf ts with
  | none => rfl
  | some w => exact foldlM_double hw (.inr h)

end DataType

namespace Value

/-- Arithmetic makes integers of integers alone, and doubles where a double is involved. -/
theorem arithmetic_kind {op : Op} {v w r : Value} (h : arithmetic op v w = .ok r) :
    r = .null ∨ (∃ i j k, v = .integer i ∧ w = .integer j ∧ r = .integer k) ∨
      ∃ d, r = .double d ∧ ∃ e, v = .double e ∨ w = .double e := by
  unfold arithmetic integerArithmetic at h
  cases v <;> cases w <;> simp only [isNull, Bool.or_self, Bool.or_true, Bool.or_false, if_true,
    toDouble?, Bool.false_eq_true, if_false] at h
  all_goals
    repeat' split at h
    all_goals first | (cases h; simp) | cases h

end Value

/-! ## Expressions -/

namespace Expr

mutual

/-- Whether the type of the expression tells the kind of its values: columns have the types that it
says, calls the types that their operators give them, and nothing is cast. Unless integers may be
mixed in, arithmetic has no operands that it does not read. -/
def tellsKind (mixed : Bool) (types : List DataType) : Expr → Bool
  | column i t => types[i]? = some t
  | apply op es t => op != .cast && t = resultType op es &&
      (mixed || !op.isArithmetic || es.length ≤ 2) && tellKinds mixed types es
  | _ => true

/-- The same of every expression of a list. -/
def tellKinds (mixed : Bool) (types : List DataType) : List Expr → Bool
  | [] => true
  | e :: es => tellsKind mixed types e && tellKinds mixed types es

end

variable {mixed : Bool} {types : List DataType} {es : List Expr} {row : Row}

theorem tellKinds_iff :
    tellKinds mixed types es = true ↔ ∀ e ∈ es, e.tellsKind mixed types = true := by
  induction es with
  | nil => simp [tellKinds]
  | cons e es ih => simp [tellKinds, ih]

theorem tellsKind_apply {op : Op} {t : DataType} : (apply op es t).tellsKind mixed types = true ↔
    op ≠ .cast ∧ t = resultType op es ∧ (mixed = false → op.isArithmetic = true → es.length ≤ 2) ∧
      ∀ e ∈ es, e.tellsKind mixed types = true := by
  rw [tellsKind, Bool.and_eq_true, Bool.and_eq_true, Bool.and_eq_true, tellKinds_iff, bne_iff_ne,
    decide_eq_true_iff, and_assoc, and_assoc]
  cases mixed <;> cases op.isArithmetic <;> simp

/-- Operands have values of their kinds. -/
def OperandsHold (mixed : Bool) (row : Row) (es : List Expr) : Prop :=
  ∀ e ∈ es, ∀ v, e.eval row = .ok v → e.dataType.holds mixed v = true

theorem operand_eq_ok {i : Nat} {v : Value} (h : Outcome.operand (evalEach row es) i = .ok v) :
    ∃ e, es[i]? = some e ∧ e.eval row = .ok v := by
  rw [Outcome.operand, evalEach_eq, List.getElem?_map] at h
  cases he : es[i]? with
  | none =>
    rw [he] at h
    cases h
  | some e =>
    rw [he] at h
    exact ⟨e, rfl, h⟩

theorem holds_boolean_of_isTruth {o : Outcome} {v : Value} (h : o.isTruth = true) (hv : o = .ok v) :
    DataType.boolean.holds mixed v = true := by
  subst hv
  cases v <;> first | rfl | cases h

/-- A value that an operator makes of its first operand alone is of the kind of that operand. -/
theorem holds_first {op : Op} {v : Value} (hpredicate : op.isPredicate = false)
    (harithmetic : op.isArithmetic = false) (hes : OperandsHold mixed row es)
    (hv : Outcome.operand (evalEach row es) 0 = .ok v) :
    (resultType op es).holds mixed v = true := by
  obtain ⟨e, he, hv⟩ := operand_eq_ok hv
  cases es with
  | nil => cases he
  | cons first rest =>
    cases he
    simp only [resultType, hpredicate, harithmetic, Bool.false_eq_true, if_false]
    exact hes e List.mem_cons_self v hv

theorem holds_arithmetic {op : Op} {v w r : Value} (harithmetic : op.isArithmetic = true)
    (hes : OperandsHold mixed row es) (hlength : mixed = false → es.length ≤ 2)
    (hv : Outcome.operand (evalEach row es) 0 = .ok v)
    (hw : Outcome.operand (evalEach row es) 1 = .ok w) (hr : Value.arithmetic op v w = .ok r) :
    (resultType op es).holds mixed r = true := by
  obtain ⟨a, ha, hv⟩ := operand_eq_ok hv
  obtain ⟨b, hb, hw⟩ := operand_eq_ok hw
  have hav := hes a (List.mem_of_getElem? ha) v hv
  have hbw := hes b (List.mem_of_getElem? hb) w hw
  have htype : resultType op es = (DataType.leastRestrictiveOf (es.map dataType)).getD .double := by
    cases op <;> first | rfl | cases harithmetic
  rw [htype]
  rcases Value.arithmetic_kind hr with rfl | ⟨i, j, k, rfl, rfl, rfl⟩ | ⟨d, rfl, e, hdouble⟩
  · exact DataType.holds_null _ _
  · cases es with
    | nil => cases ha
    | cons first rest =>
      cases ha
      cases mixed with
      | true =>
        exact DataType.holds_integer_of_isNumeric
          (DataType.isNumeric_leastRestrictiveOf (DataType.isNumeric_of_holds_integer hav)) k
      | false =>
        -- the type of the call is that of all operands, so there must be no third one
        cases rest with
        | nil => cases hb
        | cons second rest =>
          cases hb
          cases rest with
          | nil => exact DataType.holds_sum_of_integers hav hbw k
          | cons third rest =>
            have := hlength rfl
            simp only [List.length_cons] at this
            omega
  · have hmem : DataType.double ∈ es.map dataType := by
      rcases hdouble with rfl | rfl
      · exact DataType.eq_double_of_holds hav ▸ List.mem_map_of_mem (List.mem_of_getElem? ha)
      · exact DataType.eq_double_of_holds hbw ▸ List.mem_map_of_mem (List.mem_of_getElem? hb)
    rw [DataType.leastRestrictiveOf_double hmem]
    rfl

/-- The value of a call that is no conversion is of the kind of the type that its operator gives it. -/
theorem holds_combine {op : Op} {t : DataType} {v : Value} (hcast : op ≠ .cast)
    (hlength : mixed = false → op.isArithmetic = true → es.length ≤ 2)
    (hes : OperandsHold mixed row es) (hv : op.combine t (evalEach row es) = .ok v) :
    (resultType op es).holds mixed v = true := by
  cases op with
  | and => exact holds_boolean_of_isTruth (Outcome.isTruth_allOf false _) hv
  | or => exact holds_boolean_of_isTruth (Outcome.isTruth_anyOf false _) hv
  | not =>
    obtain ⟨w, -, rfl⟩ := Outcome.map_eq_ok.mp hv
    cases w <;> rfl
  | isNull | isNotNull =>
    obtain ⟨w, -, rfl⟩ := Outcome.map_eq_ok.mp hv
    rfl
  | unaryMinus =>
    obtain ⟨w, hw, rfl⟩ := Outcome.map_eq_ok.mp hv
    exact DataType.holds_opposite (holds_first rfl rfl hes hw)
  | floor | ceil =>
    obtain ⟨w, hw, rfl⟩ := Outcome.map_eq_ok.mp hv
    exact DataType.holds_rounded _ (holds_first rfl rfl hes hw)
  | cast => exact absurd rfl hcast
  | plus | minus | times | divide =>
    obtain ⟨a, ha, hv⟩ := Outcome.bind_eq_ok.mp hv
    obtain ⟨b, hb, hv⟩ := Outcome.bind_eq_ok.mp hv
    exact holds_arithmetic rfl hes (fun h => hlength h rfl) ha hb hv
  | equals | notEquals | lessThan | lessThanOrEqual | greaterThan | greaterThanOrEqual =>
    obtain ⟨a, -, hv⟩ := Outcome.bind_eq_ok.mp hv
    obtain ⟨b, -, hv⟩ := Outcome.bind_eq_ok.mp hv
    cases hv
    unfold Value.compareBy
    split <;> rfl

/-- The value of an expression is of the kind that its type tells. -/
theorem holds_eval {input : RowType} {e : Expr} {v : Value} (hrow : input.holds mixed row = true)
    (he : e.tellsKind mixed input.types = true) (hv : e.eval row = .ok v) :
    e.dataType.holds mixed v = true := by
  induction e using induct generalizing v with
  | column i t =>
    rw [eval] at hv
    split at hv
    · next w hw =>
      cases hv
      obtain ⟨f, hf, hholds⟩ := (RowType.fits_iff.mp hrow).getElem? hw
      rw [tellsKind, decide_eq_true_eq, RowType.types, List.getElem?_map, hf] at he
      cases he
      exact hholds
    · cases hv
  | literal w =>
    cases hv
    exact DataType.holds_dataType _ _
  | apply op es t ih =>
    obtain ⟨hcast, rfl, hlength, hkinds⟩ := tellsKind_apply.mp he
    rw [eval] at hv
    exact holds_combine hcast hlength (fun e he v hv => ih e he (hkinds e he) hv) hv
  | tableColumn r i t => cases hv

end Expr

/-! ## Operators -/

theorem keptByPadding_holds (mixed : Bool) :
    KeptByPadding fun f v => f.dataType.holds mixed v = true where
  padded _ _ _ h := h
  null f := DataType.holds_null mixed f.dataType

/-- With integers mixed in, a column holds what every column holds that is widened to it. -/
theorem keptByWidening_holds : KeptByWidening fun f v => f.dataType.holds true v = true where
  left a b w v hw h := by
    obtain ⟨t, ht, hw⟩ := Option.bind_eq_some_iff.mp hw
    cases hw
    exact DataType.holds_leastRestrictive_left ht h
  right a b w v hw h := by
    obtain ⟨t, ht, hw⟩ := Option.bind_eq_some_iff.mp hw
    cases hw
    exact DataType.holds_leastRestrictive_right ht h

namespace AggFunction

/-- A sum is an integer if both summands are, and else a double. -/
theorem addValues_kind {v w r : Value} (h : addValues v w = .ok r) :
    (∃ i j k, v = .integer i ∧ w = .integer j ∧ r = .integer k) ∨
      ∃ d, r = .double d ∧ ∃ e, v = .double e ∨ w = .double e := by
  unfold addValues at h
  cases v <;> cases w <;> simp only [Value.toDouble?] at h
  all_goals
    repeat' split at h
    all_goals first | (cases h; simp) | cases h

theorem holds_addValues {mixed : Bool} {t : DataType} {v w r : Value} (hv : t.holds mixed v = true)
    (hw : t.holds mixed w = true) (h : addValues v w = .ok r) : t.holds mixed r = true := by
  rcases addValues_kind h with ⟨i, j, k, rfl, rfl, rfl⟩ | ⟨d, rfl, e, rfl | rfl⟩
  · exact DataType.holds_integer hv k
  · rw [DataType.eq_double_of_holds hv]
    rfl
  · rw [DataType.eq_double_of_holds hw]
    rfl

/-- A column that holds the accumulator and the value that is added holds the result. -/
theorem holds_accumulate {f : AggFunction} {mixed : Bool} {t : DataType} {acc acc' : Option Value}
    {v : Value} (hcount : f = .count → t = .bigint) (hacc : t.holds mixed (acc.getD .null) = true)
    (hv : f ≠ .count → t.holds mixed v = true) (h : f.accumulate acc v = .ok acc') :
    t.holds mixed (acc'.getD .null) = true := by
  cases f with
  | count =>
    unfold accumulate at h
    obtain rfl := hcount rfl
    split at h
    all_goals first | (cases h; rfl) | (cases h; exact hacc) | contradiction
  | sum | sum0 =>
    cases acc with
    | none =>
      cases h
      exact hv nofun
    | some total =>
      obtain ⟨r, hr, rfl⟩ := Outcome.map_eq_ok.mp h
      exact holds_addValues hacc (hv nofun) hr
  | min | max =>
    cases acc with
    | none =>
      cases h
      exact hv nofun
    | some other =>
      cases h
      simp only [Option.getD_some]
      split
      · exact hv nofun
      · exact hacc

end AggFunction

/-- A call that passes its check has one argument, unless it counts rows. -/
theorem Operator.length_args_of_checkCall {arity : Nat} {call : AggregateCall}
    (h : checkCall arity call = .ok ()) (hcount : call.function ≠ .count) :
    call.args.length = 1 := by
  unfold checkCall at h
  split at h
  · cases h
  · split at h
    · cases h
    · next hone => exact Classical.not_not.mp fun h => hone ⟨hcount, h⟩

/-- The column of a call other than a count is of the type of its argument. -/
theorem AggregateCall.holds_argumentValue {mixed : Bool} {call : AggregateCall} {input : RowType}
    {row : Row} {v : Value} (hcheck : Operator.checkCall input.arity call = .ok ())
    (hcount : call.function ≠ .count)
    (hrow : Conforms (fun f v => f.dataType.holds mixed v = true) input row)
    (hv : Execution.argumentValue call row = .ok v) :
    (call.field input).dataType.holds mixed v = true := by
  obtain ⟨a, hargs⟩ :=
    List.length_eq_one_iff.mp (Operator.length_args_of_checkCall hcheck hcount)
  rw [Execution.argumentValue, hargs] at hv
  simp only [Execution.columnValue] at hv
  split at hv
  · next w hw =>
    cases hv
    obtain ⟨f, hf, hholds⟩ := hrow.getElem? hw
    have htype : (call.field input).dataType = f.dataType := by
      cases hfunction : call.function with
      | count => exact absurd hfunction hcount
      | _ => simp [field, hfunction, hargs, hf]
    rw [htype]
    exact hholds
  · cases hv

/-- Results of a call are of the kind that its column holds, if its column holds what it starts
from. -/
theorem AggregateCall.folds_holds {mixed : Bool} {call : AggregateCall} {input : RowType}
    (hcheck : Operator.checkCall input.arity call = .ok ())
    (hstart : (call.field input).dataType.holds mixed (call.function.start.getD .null) = true) :
    call.Folds (fun f v => f.dataType.holds mixed v = true) input where
  start := hstart
  step row v acc acc' hrow hv hacc hstep := by
    unfold AggFunction.step at hstep
    split at hstep
    · cases hstep
      exact hacc
    · exact AggFunction.holds_accumulate (fun hcount => by simp [field, hcount]) hacc
        (fun hcount => holds_argumentValue hcheck hcount hrow hv) hstep

/-- Whether no column of the row type that holds integers becomes one of doubles. -/
def RowType.keepsIntegers (t widened : RowType) : Bool :=
  (t.fields.zip widened.fields).all fun (f, w) =>
    w.dataType != .double || !f.dataType.holds false (.integer 0)

theorem DataType.conforms_of_keepsIntegers {fs ws : List Field} {row : Row}
    (hkeeps : ((fs.zip ws).all fun (f, w) =>
      w.dataType != .double || !f.dataType.holds false (.integer 0)) = true)
    (hfs : List.Forall₂ (fun f v => f.dataType.holds false v = true) fs row)
    (hws : List.Forall₂ (fun f v => f.dataType.holds true v = true) ws row) :
    List.Forall₂ (fun f v => f.dataType.holds false v = true) ws row := by
  induction hws generalizing fs with
  | nil => exact .nil
  | @cons w v ws row hw _ ih =>
    cases hfs with
    | @cons f _ fs _ hf hfs =>
      rw [List.zip_cons_cons, List.all_cons, Bool.and_eq_true] at hkeeps
      refine .cons (holds_false_of_holds hw fun hdouble i hi => ?_) (ih hkeeps.2 hfs)
      subst hi
      -- a column that holds one integer holds zero, which the check tries
      have hzero := holds_integer hf 0
      simp [hdouble, hzero] at hkeeps

/-- Whether values keep to the kinds of their columns in an operator over inputs of these types: its
expressions tell the kinds of their values, the columns of its calls hold what they start from, and,
unless integers may be mixed in, set operations make no doubles of integers. -/
def Operator.keepsKinds (mixed : Bool) (types : List RowType) : Operator → Bool
  | .project _ columns => columns.all (·.1.tellsKind mixed (types[0]?.getD default).types)
  | .aggregate _ _ calls => calls.all fun call =>
    (call.field (types[0]?.getD default)).dataType.holds mixed (call.function.start.getD .null)
  | .union _ _ | .intersect _ | .minus _ => mixed || types.all
    (·.keepsIntegers ((RowType.leastRestrictive types).getD (types[0]?.getD default)))
  | _ => true

theorem Operator.provides_holds {mixed : Bool} {o : Operator} {types : List RowType}
    {inputs : List (List Row)} (hcheck : o.check types = .ok ())
    (hstores : o.stores (RowType.holds mixed) = true)
    (hinputs : Execution.InputsConform (fun f v => f.dataType.holds mixed v = true) types inputs)
    (hkeeps : o.keepsKinds mixed types = true) :
    o.Provides (fun f v => f.dataType.holds mixed v = true) types inputs := by
  refine provides_of_stores (p := fun f v => f.dataType.holds mixed v) hcheck hstores
    (fun columns hcolumns _ row hrow p hp v hv => ?_) (fun group calls ho hchecks call hcall => ?_)
    (fun hsome ho t ht row hrow => ?_)
  · have hrow := RowType.fits_iff.mpr (hinputs.getElem? 0 row hrow)
    have he : p.1.tellsKind mixed (types[0]?.getD default).types = true := by
      cases o with
      | project convention columns' =>
        cases hcolumns
        exact List.all_eq_true.mp hkeeps p hp
      | _ => cases hcolumns
    exact Expr.holds_eval hrow he hv
  · have hstart : (call.field (types[0]?.getD default)).dataType.holds mixed
        (call.function.start.getD .null) = true := by
      cases o with
      | aggregate convention group' calls' =>
        cases ho
        exact List.all_eq_true.mp hkeeps call hcall
      | _ => cases ho
    exact AggregateCall.folds_holds (hchecks call hcall) hstart
  · have hunmixed : mixed = true ∨
        t.keepsIntegers ((RowType.leastRestrictive types).getD (types[0]?.getD default)) =
          true := by
      cases o with
      | union | intersect | minus =>
        exact (Bool.or_eq_true _ _).mp hkeeps |>.imp_right fun h => List.all_eq_true.mp h t ht
      | _ => cases ho
    -- widening is right with integers mixed in, and the check leaves nothing to mix
    have hwide := keptByWidening_holds.leastRestrictive hsome ht
      (hrow.mono fun f v h => DataType.holds_of_holds h)
    cases mixed with
    | true => exact hwide
    | false =>
      rcases hunmixed with h | h
      · cases h
      · exact DataType.conforms_of_keepsIntegers h hrow hwide

namespace Cluster

variable {c : Cluster} {root id : NodeId}

/-- Values are of the kinds that the row type declares: a run of any node of a plan without subsets,
all of whose nodes pass their checks, returns rows of values that the types of their columns hold,
given that stored rows do and that operators keep kinds. With `mixed`, this allows for integers
among doubles, and set operations of both. -/
theorem run_holds (mixed : Bool) (hroot : root < c.size) (hplain : c.Plain root)
    (hvalid : c.Valid root)
    (hstores : ∀ i, c.InPlan root i → (c.operator i).stores (RowType.holds mixed) = true)
    (hkeeps : ∀ i, c.InPlan root i →
      (c.operator i).keepsKinds mixed ((c.inputs i).map c.rowType) = true)
    (hid : c.InPlan root id) (cancelled : Bool) {rows : List Row}
    (h : ((run id cancelled).run.run c).1 = .ok rows) :
    ∀ row ∈ rows, (c.rowType id).holds mixed row = true := by
  have hprovides : c.Provides (fun f v => f.dataType.holds mixed v = true) root :=
    fun i hi rowsOf _ hinputs => Operator.provides_holds
      (Outcome.mapError_eq_ok.mp (hvalid.inPlan hi).check) (hstores i hi) hinputs (hkeeps i hi)
  exact run_fits (keptByPadding_holds mixed) hroot hplain hprovides hid h

/-! ## Integers among doubles -/

/-- Amounts, one of them not known. -/
def amounts : Table :=
  { name := ["AMOUNTS"]
    rowType := ⟨[⟨"a", .bigint, true⟩]⟩
    source := some (.ok [[.integer 1], [.null]]) }

/-- Three plans whose only column is one of doubles: amounts in a union with doubles, the sum from
zero of no doubles, and an addition of amounts that ignores a third summand. Beside them are totals
of sums of two amounts, known and unknown. -/
def addAmounts : Planning NodeId := do
  let all ← createDefault (.scan .none amounts) []
  let doubles ← createDefault (.values .none ⟨[⟨"x", .double, true⟩]⟩ []) []
  let _ ← createDefault (.union .none true) [all, doubles]
  let _ ← createDefault (.aggregate .none (.ofList []) [⟨.sum0, [0], "s"⟩]) [doubles]
  let amount := Expr.column 0 .bigint
  let surplus := Expr.call .plus [amount, amount, .literal (.double 0.5)]
  let _ ← createDefault (.project .none [(surplus, "p")]) [all]
  let twice ← createDefault (.project .none [(.call .plus [amount, amount], "p"),
    (.call .isNull [amount], "q")]) [all]
  createDefault (.aggregate .none (.ofList [1]) [⟨.sum0, [0], "s"⟩, ⟨.min, [0], "m"⟩]) [twice]

def amountsSession : Cluster := addAmounts.leaves (start ⟨[amounts]⟩ default default)

/-- Each of the three plans returns an integer in its column of doubles, though all nodes pass their
checks, stored rows are of their kinds, and expressions are typed and do not cast. -/
theorem run_mixes_integers :
    (∀ i < amountsSession.size, amountsSession.Plain i ∧ amountsSession.Valid i ∧
      (amountsSession.operator i).stores (RowType.holds false) = true ∧
      ∀ columns ∈ (amountsSession.operator i).projection?, ∀ j ∈ amountsSession.inputs i,
        ∀ p ∈ columns, p.1.tellsKind true (amountsSession.rowType j).types = true) ∧
    ∀ root ∈ [2, 3, 4], (amountsSession.rowType root).types = [.double] ∧
      ∃ rows, ((run root false).run.run amountsSession).1 = .ok rows ∧
        ∃ row ∈ rows, (amountsSession.rowType root).holds false row = false := by
  have hsession : (∀ i < amountsSession.size, (amountsSession.operator i).isSubset = false) ∧
      ∀ i < amountsSession.size, (amountsSession.check i).isOk = true := by decide +kernel
  have hnodes : ∀ i < amountsSession.size,
      (amountsSession.operator i).stores (RowType.holds false) = true ∧
      ∀ columns ∈ (amountsSession.operator i).projection?, ∀ j ∈ amountsSession.inputs i,
        ∀ p ∈ columns, p.1.tellsKind true (amountsSession.rowType j).types = true := by
    decide +kernel
  have hroots : ∀ root ∈ [2, 3, 4], ((run root false).run.run amountsSession).1.isOk = true ∧
      (amountsSession.rowType root).types = [.double] ∧
      ∃ row ∈ amountsSession.ranRows root,
        (amountsSession.rowType root).holds false row = false := by
    decide +kernel
  refine ⟨fun i hi => ⟨.of_all hi hsession.1, .of_all hi hsession.2, hnodes i hi⟩,
    fun root hroot => ?_⟩
  obtain ⟨hok, htypes, hrow⟩ := hroots root hroot
  exact ⟨htypes, _, congrArg Prod.fst (runs_ranRows hok), hrow⟩

/-- The totals are of their kinds, and the union holds integers where its row type has doubles. -/
theorem run_holds_amounts :
    amountsSession.ranRows 6 = [[.boolean false, .integer 2, .integer 2],
      [.boolean true, .integer 0, .null]] ∧
    (∀ row ∈ amountsSession.ranRows 6, (amountsSession.rowType 6).holds false row = true) ∧
    amountsSession.ranRows 2 = [[.integer 1], [.null]] ∧
    ∀ row ∈ amountsSession.ranRows 2, (amountsSession.rowType 2).holds true row = true := by
  have hsession : (∀ i < amountsSession.size, (amountsSession.operator i).isSubset = false) ∧
      ∀ i < amountsSession.size, (amountsSession.check i).isOk = true := by decide +kernel
  have hstores : ∀ mixed, ∀ i < amountsSession.size,
      (amountsSession.operator i).stores (RowType.holds mixed) = true := by decide +kernel
  have htotals : ∀ i ∈ [0, 5, 6], (amountsSession.operator i).keepsKinds false
      ((amountsSession.inputs i).map amountsSession.rowType) = true := by decide +kernel
  have hunion : ∀ i < amountsSession.size, (amountsSession.operator i).keepsKinds true
      ((amountsSession.inputs i).map amountsSession.rowType) = true := by decide +kernel
  have hplan : ∀ i ∈ amountsSession.breadthFirst 6, i ∈ [0, 5, 6] := by decide +kernel
  have hnode : 6 < amountsSession.size := by decide +kernel
  have hnode' : 2 < amountsSession.size := by decide +kernel
  refine ⟨by decide +kernel, ?_, by decide +kernel, ?_⟩
  · exact run_holds false hnode (.of_all hnode hsession.1) (.of_all hnode hsession.2)
      (fun i hi => hstores false i (hi.lt_size hnode))
      (fun i hi => htotals i (hplan i ((mem_breadthFirst_iff hnode).mpr hi))) .root false
      (congrArg Prod.fst (runs_ranRows (by decide +kernel)))
  · exact run_holds true hnode' (.of_all hnode' hsession.1) (.of_all hnode' hsession.2)
      (fun i hi => hstores true i (hi.lt_size hnode'))
      (fun i hi => hunion i (hi.lt_size hnode')) .root false
      (congrArg Prod.fst (runs_ranRows (by decide +kernel)))

end Cluster

end QueryPlan
