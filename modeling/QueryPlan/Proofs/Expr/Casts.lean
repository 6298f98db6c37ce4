import QueryPlan.Proofs.Execution.Kinds
import QueryPlan.Proofs.Expr.Parts
/-!
# Types of expressions and kinds of values

A call says of which type its value is, and the value is computed without looking at that type, but for
conversions. The two agree: the value of an expression is null or of the kind that its type names. There
are two exceptions. A conversion between types that have none passes its operand on as it is, under the type
that was asked for. And arithmetic reads two operands while its type is that of all operands, so that a third
one widens the type and not the value.
-/
namespace QueryPlan

namespace DataType

/-- Whether values of the first type are converted to values of the second one, or not needed to be. -/
def convertsTo : DataType → DataType → Bool
  | null, _ | _, varchar | boolean, boolean | varchar, integer | varchar, bigint => true
  | integer, t | bigint, t | double, t => t.isNumeric
  | _, _ => false

/-- A converted value is of the kind that was asked for just if there is a conversion. -/
theorem holds_convert_iff {t u : DataType} {v r : Value} (hv : t.holds false v = true)
    (hnull : v ≠ .null) (h : v.convert u = .ok r) :
    u.holds false r = true ↔ t.convertsTo u = true := by
  cases v with
  | null => exact absurd rfl hnull
  | boolean b =>
    obtain rfl : t = boolean := by cases t <;> first | rfl | cases hv
    cases u <;> cases h <;> simp [holds, convertsTo]
  | integer i =>
    have ht : t = integer ∨ t = bigint := by cases t <;> first | (simp; done) | cases hv
    rcases ht with rfl | rfl <;> cases u <;> cases h <;> simp [holds, convertsTo, isNumeric]
  | double d =>
    obtain rfl : t = double := by cases t <;> first | rfl | cases hv
    cases u <;> cases h <;> simp [holds, convertsTo, isNumeric]
  | varchar s =>
    obtain rfl : t = varchar := by cases t <;> first | rfl | cases hv
    cases u with
    | integer | bigint =>
      rw [Value.convert] at h
      split at h <;> cases h
      simp [holds, convertsTo]
    | _ => cases h; simp [holds, convertsTo]

end DataType

namespace Expr

/-- Whether a call has the type that its operator gives it, or is a conversion of one operand to any
type. -/
def isBuilt : Expr → Bool
  | apply op es t => t = resultType op es || op = .cast && es.length = 1
  | _ => true

/-- Whether the value that a column has in the row is of the kind that its type names. -/
def readsKind (row : Row) : Expr → Bool
  | column i t => row[i]?.all (t.holds false)
  | _ => true

/-- Whether an operator has operands of the types that it is meant for. -/
def hasTypedOperands : Expr → Bool
  | apply op es _ =>
    match op with
    | .and | .or | .not => es.all fun e => e.dataType = .boolean || e.dataType = .null
    | .plus | .minus | .times | .divide | .unaryMinus | .floor | .ceil =>
      es.all fun e => e.dataType.isNumeric || e.dataType = .null
    | _ => true
  | _ => true

/-- Whether the type of a call is one of its value: it converts between types that have a conversion, or
is arithmetic of the type that the two operands have that are read. -/
def keepsKind : Expr → Bool
  | apply op es t =>
    match op with
    | .cast => es.head?.all (·.dataType.convertsTo t)
    | .plus | .minus | .times | .divide => t = resultType op (es.take 2)
    | _ => true
  | _ => true

variable {row : Row} {es : List Expr} {t : DataType}

theorem holds_cast {v : Value} (hes : OperandsHold false row es)
    (hkeeps : (apply .cast es t).keepsKind = true)
    (hv : Op.cast.combine t (evalEach row es) = .ok v) : t.holds false v = true := by
  obtain ⟨w, hw, hv⟩ := Outcome.bind_eq_ok.mp hv
  obtain ⟨e, he, hw⟩ := operand_eq_ok hw
  have hkind := hes e (List.mem_of_getElem? he) w hw
  have hconverts : e.dataType.convertsTo t = true := by
    rw [keepsKind, List.head?_eq_getElem?, he] at hkeeps
    exact hkeeps
  by_cases hnull : w = .null
  · subst hnull
    cases hv
    exact DataType.holds_null _ _
  · exact (DataType.holds_convert_iff hkind hnull hv).mpr hconverts

/-- Arithmetic does not see more than two operands. -/
theorem operand_take {i : Nat} (hi : i < 2) :
    Outcome.operand (evalEach row (es.take 2)) i = Outcome.operand (evalEach row es) i := by
  rw [Outcome.operand, Outcome.operand, evalEach_eq, evalEach_eq, List.map_take, List.getElem?_take,
    if_pos hi]

theorem combine_take {op : Op} (hop : op.isArithmetic = true) :
    op.combine t (evalEach row (es.take 2)) = op.combine t (evalEach row es) := by
  cases op with
  | plus | minus | times | divide =>
    rw [Op.combine, Op.combine, operand_take (by decide), operand_take (by decide)]
  | _ => cases hop

/-- The value of a call is of the kind of its type if those of its operands are of the kinds of theirs. -/
theorem holds_call {op : Op} {v : Value} (hbuilt : (apply op es t).isBuilt = true)
    (hkeeps : (apply op es t).keepsKind = true) (hes : OperandsHold false row es)
    (hv : op.combine t (evalEach row es) = .ok v) : t.holds false v = true := by
  by_cases hcast : op = .cast
  · subst hcast
    exact holds_cast hes hkeeps hv
  · obtain rfl : t = resultType op es := by simpa [isBuilt, hcast] using hbuilt
    by_cases harithmetic : op.isArithmetic = true
    · have htype : resultType op es = resultType op (es.take 2) := by
        cases op <;> first | exact of_decide_eq_true hkeeps | cases harithmetic
      -- without the operands that are not read, the call has the type of a sum of two
      rw [← combine_take harithmetic] at hv
      rw [htype]
      exact holds_combine hcast (fun _ _ => List.length_take_le 2 es)
        (fun e he => hes e (List.mem_of_mem_take he)) hv
    · exact holds_combine hcast (fun _ h => absurd h harithmetic) hes hv

/-- Calls of an expression are built for their operands, columns are of the kinds that it says, and its calls
keep kinds. -/
structure KeepsKinds (row : Row) (e : Expr) : Prop where
  built : ∀ p ∈ e.parts, p.isBuilt = true
  columns : ∀ p ∈ e.parts, p.readsKind row = true
  calls : ∀ p ∈ e.parts, p.keepsKind = true

theorem KeepsKinds.operand {op : Op} (h : (apply op es t).KeepsKinds row) {e : Expr} (he : e ∈ es) :
    e.KeepsKinds row :=
  ⟨(forall_parts_apply.mp h.built).2 e he, (forall_parts_apply.mp h.columns).2 e he,
    (forall_parts_apply.mp h.calls).2 e he⟩

theorem KeepsKinds.holds {e : Expr} (h : e.KeepsKinds row) {v : Value} (hv : e.eval row = .ok v) :
    e.dataType.holds false v = true := by
  induction e using induct generalizing v with
  | column i t =>
    have hread := h.columns _ (self_mem_parts _)
    rw [eval] at hv
    split at hv
    · next w hw =>
      cases hv
      rw [readsKind, hw] at hread
      exact hread
    · cases hv
  | literal w =>
    cases hv
    exact DataType.holds_dataType _ _
  | apply op es t ih =>
    rw [eval] at hv
    exact holds_call (h.built _ (self_mem_parts _)) (h.calls _ (self_mem_parts _))
      (fun e he w hw => ih e he (h.operand he) hw) hv
  | tableColumn r i t => cases hv

/-- The value of an expression on a row whose columns are of the kinds that the expression says is null or
of the kind of its type, if all conversions in it are between types that have one, and all arithmetic is of
the type of the operands that are read. -/
theorem eval_holds {e : Expr} {v : Value} (hbuilt : ∀ p ∈ e.parts, p.isBuilt = true)
    (hrow : ∀ p ∈ e.parts, p.readsKind row = true) (hkeeps : ∀ p ∈ e.parts, p.keepsKind = true)
    (hv : e.eval row = .ok v) : e.dataType.holds false v = true :=
  KeepsKinds.holds ⟨hbuilt, hrow, hkeeps⟩ hv

/-- The number of full shares of an amount: the amount over the number of shares, which is read from a text,
and one half, without its fraction. -/
def shares : Expr :=
  cast (call .plus [call .divide [column 0 .bigint, cast (column 1 .varchar) .integer],
    literal (.double 0.5)]) .bigint

theorem eval_holds_shares : shares.eval [.integer 7, .varchar " 3 "] = .ok (.integer 2) ∧
    shares.dataType.holds false (.integer 2) = true := by
  have heval : shares.eval [.integer 7, .varchar " 3 "] = .ok (.integer 2) := by rfl
  exact ⟨heval, eval_holds (by decide +kernel) (by decide +kernel) (by decide +kernel) heval⟩

/-- An expression over no columns whose operands are all of the types that their operators take has a value
of another kind than its type. -/
def IsMistyped (e : Expr) (v : Value) : Prop :=
  (∀ p ∈ e.parts, p.isBuilt = true ∧ p.hasTypedOperands = true ∧ p.readsKind [] = true) ∧
    e.eval [] = .ok v ∧ v.isNull = false ∧ e.dataType.holds false v = false

/-- A text is not converted to a double, a truth value not to an integer, and a third summand makes a sum of
integers one of doubles. -/
theorem eval_passes_on :
    IsMistyped (cast (literal (.varchar "1.5")) .double) (.varchar "1.5") ∧
    IsMistyped (cast (bool true) .integer) (.boolean true) ∧
    IsMistyped (call .plus [literal (.integer 1), literal (.integer 2), literal (.double 0.5)])
      (.integer 3) :=
  ⟨⟨by decide +kernel, rfl, rfl, rfl⟩, ⟨by decide +kernel, rfl, rfl, rfl⟩,
    ⟨by decide +kernel, rfl, rfl, rfl⟩⟩

end Expr

end QueryPlan
