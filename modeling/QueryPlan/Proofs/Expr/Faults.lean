import QueryPlan.Proofs.Expr.Parts
import QueryPlan.Proofs.Expr.Strictness
/-!
# When evaluation breaks off

Arithmetic on integers wraps around, a zero divisor is an error, and so is a conversion that cannot be made.
What is left is the quotient of the least integer and minus one: the evaluation of an expression whose calls
have their operands breaks off exactly if it gets to such a quotient. It gets to the operands that an
operator reads, up to the first one that fails or decides a conjunction or a disjunction.
-/
namespace QueryPlan

/-- The operands that an operator reads. -/
def Op.read {α : Type} (op : Op) (operands : List α) : List α :=
  match op.operandCount? with
  | some count => operands.take count
  | none => operands

theorem Op.read_map {α β : Type} (op : Op) (f : α → β) (operands : List α) :
    op.read (operands.map f) = (op.read operands).map f := by
  unfold read
  cases op.operandCount? with
  | none => rfl
  | some count => exact List.map_take.symm

theorem Op.mem_of_mem_read {α : Type} {op : Op} {operands : List α} {a : α} (h : a ∈ op.read operands) :
    a ∈ operands := by
  unfold read at h
  split at h
  · exact List.mem_of_mem_take h
  · exact h

namespace Outcome

variable {op : Op} {o o' : Outcome} {os : List Outcome} {unknown : Bool}

/-- Whether the evaluation breaks off, instead of giving a value or reporting an error. -/
def faults : Outcome → Bool
  | .ok _ => false
  | .error e => e.isFault

@[simp] theorem faults_ok (v : Value) : faults (.ok v) = false := rfl

@[simp] theorem faults_error (e : EvalError) : faults (.error e) = e.isFault := rfl

theorem faults_map {f : Value → Value} : faults (f <$> o) = o.faults := by
  cases o <;> rfl

/-- A computation breaks off in its first part or, if that has a value, in its second part. -/
theorem faults_bind {f : Value → Outcome} :
    faults (o >>= f) = true ↔ o.faults = true ∨ ∃ v, o = .ok v ∧ (f v).faults = true := by
  cases o with
  | error e => exact ⟨.inl, fun h => h.resolve_right nofun⟩
  | ok v =>
    refine ⟨fun h => .inr ⟨v, rfl, h⟩, ?_⟩
    rintro (h | ⟨_, h, h'⟩) <;> cases h
    exact h'

/-- There is a value, and the operator does not stop at it. -/
def goesOn (op : Op) : Outcome → Bool
  | .error _ => false
  | .ok (.boolean b) => !(op = .and && !b || op = .or && b)
  | .ok _ => true

/-- Some outcome breaks off, and the operator goes on after all before it. -/
def FaultsWithin (op : Op) (os : List Outcome) : Prop :=
  ∃ before o after, os = before ++ o :: after ∧ before.all (goesOn op) = true ∧ o.faults = true

theorem not_faultsWithin_nil : ¬FaultsWithin op [] := by
  rintro ⟨before, o, after, h, -⟩
  cases before <;> cases h

theorem faultsWithin_cons : FaultsWithin op (o :: os) ↔
    o.faults = true ∨ o.goesOn op = true ∧ FaultsWithin op os := by
  constructor
  · rintro ⟨before, k, after, heq, hbefore, hk⟩
    cases before with
    | nil =>
      cases heq
      exact .inl hk
    | cons first before =>
      cases heq
      rw [List.all_cons, Bool.and_eq_true] at hbefore
      exact .inr ⟨hbefore.1, before, k, after, rfl, hbefore.2, hk⟩
  · rintro (h | ⟨hgoes, before, k, after, rfl, hbefore, hk⟩)
    · exact ⟨[], o, os, rfl, rfl, h⟩
    · exact ⟨o :: before, k, after, rfl, by rw [List.all_cons, hgoes, hbefore, Bool.and_self], hk⟩

theorem faultsWithin_singleton : FaultsWithin op [o] ↔ o.faults = true := by
  rw [faultsWithin_cons]
  exact or_iff_left fun h => not_faultsWithin_nil h.2

theorem faults_allOf : (allOf unknown os).faults = true ↔ FaultsWithin .and os := by
  induction os generalizing unknown with
  | nil => exact ⟨nofun, fun h => absurd h not_faultsWithin_nil⟩
  | cons o os ih =>
    rw [allOf_cons, faultsWithin_cons]
    rcases o with e | v
    · simp [andThen, goesOn]
    · cases v with
      | boolean b => cases b <;> simp [andThen, goesOn, ih]
      | _ => simp [andThen, goesOn, ih]

theorem faults_anyOf : (anyOf unknown os).faults = true ↔ FaultsWithin .or os := by
  induction os generalizing unknown with
  | nil => exact ⟨nofun, fun h => absurd h not_faultsWithin_nil⟩
  | cons o os ih =>
    rw [faultsWithin_cons]
    rcases o with e | v
    · simp [anyOf, goesOn]
    · cases v with
      | boolean b => cases b <;> simp [anyOf, goesOn, ih]
      | _ => simp [anyOf, goesOn, ih]

/-- An operator of two operands that decides at neither reads both, and breaks off at the first one that
does or at what it makes of their values. -/
theorem faults_pair {f : Value → Value → Outcome} (hand : op ≠ .and) (hor : op ≠ .or) :
    faults (o >>= fun v => o' >>= f v) = true ↔
      FaultsWithin op [o, o'] ∨ ∃ v w, o = .ok v ∧ o' = .ok w ∧ (f v w).faults = true := by
  have hgoes : o.goesOn op = true ↔ ∃ v, o = .ok v := by
    rcases o with e | v
    · simp [goesOn]
    · cases v <;> simp [goesOn, hand, hor]
  rw [faultsWithin_cons, faultsWithin_singleton, hgoes]
  simp only [faults_bind]
  constructor
  · rintro (h | ⟨v, rfl, h | ⟨w, rfl, h⟩⟩)
    · exact .inl (.inl h)
    · exact .inl (.inr ⟨⟨v, rfl⟩, h⟩)
    · exact .inr ⟨v, w, rfl, rfl, h⟩
  · rintro ((h | ⟨⟨v, rfl⟩, h⟩) | ⟨v, w, rfl, rfl, h⟩)
    · exact .inl h
    · exact .inr ⟨v, rfl, .inl h⟩
    · exact .inr ⟨v, rfl, .inr ⟨w, rfl, h⟩⟩

end Outcome

open Outcome

theorem Value.faults_convert (target : DataType) (v : Value) : (v.convert target).faults = false := by
  unfold convert
  repeat' split
  all_goals rfl

/-- Arithmetic breaks off at one quotient only. -/
theorem Value.faults_arithmetic {op : Op} {v w : Value} (hop : op.isArithmetic = true) :
    faults (arithmetic op v w) = true ↔
      op = .divide ∧ v = .integer Int64.minValue ∧ w = .integer (-1) := by
  constructor
  · intro h
    unfold arithmetic integerArithmetic at h
    repeat' split at h
    all_goals try (cases h; done)
    next hplus hminus htimes hzero hoverflow =>
      obtain ⟨rfl, rfl⟩ := hoverflow
      refine ⟨?_, rfl, rfl⟩
      cases op <;> first | rfl | contradiction
  · rintro ⟨rfl, rfl, rfl⟩
    rfl

theorem Op.faults_arithmetic {op : Op} {o o' : Outcome} {os : List Outcome}
    (hop : op.isArithmetic = true) :
    (∃ v w, o = .ok v ∧ o' = .ok w ∧ faults (Value.arithmetic op v w) = true) ↔ op = .divide ∧
      ∃ rest, o :: o' :: os = .ok (.integer Int64.minValue) :: .ok (.integer (-1)) :: rest := by
  constructor
  · rintro ⟨v, w, rfl, rfl, h⟩
    obtain ⟨rfl, rfl, rfl⟩ := (Value.faults_arithmetic hop).mp h
    exact ⟨rfl, os, rfl⟩
  · rintro ⟨rfl, rest, h⟩
    cases h
    exact ⟨_, _, rfl, rfl, rfl⟩

/-- A call that has its operands breaks off if one that it gets to does, or if it is the quotient that
overflows. -/
theorem Op.faults_combine {op : Op} {t : DataType} {os : List Outcome}
    (hcount : op.operandCount?.all (· ≤ os.length) = true) :
    (op.combine t os).faults = true ↔ FaultsWithin op (op.read os) ∨
      op = .divide ∧ ∃ rest, os = .ok (.integer Int64.minValue) :: .ok (.integer (-1)) :: rest := by
  cases op with
  | and => simp [combine, faults_allOf, read, operandCount?]
  | or => simp [combine, faults_anyOf, read, operandCount?]
  | not | isNull | isNotNull | unaryMinus | floor | ceil =>
    match os, hcount with
    | o :: os, _ =>
      show faults (_ <$> o) = true ↔ FaultsWithin _ [o] ∨ _
      rw [faults_map, faultsWithin_singleton]
      simp
  | cast =>
    match os, hcount with
    | o :: os, _ =>
      show faults (o >>= _) = true ↔ FaultsWithin _ [o] ∨ _
      rw [faults_bind, faultsWithin_singleton]
      simp [Value.faults_convert]
  | plus | minus | times | divide =>
    match os, hcount with
    | o :: o' :: os, _ =>
      exact (faults_pair (by decide) (by decide)).trans (or_congr_right (faults_arithmetic rfl))
  | equals | notEquals | lessThan | lessThanOrEqual | greaterThan | greaterThanOrEqual =>
    match os, hcount with
    | o :: o' :: os, _ =>
      refine (faults_pair (by decide) (by decide)).trans (or_congr_right ?_)
      simp

namespace Expr

/-- The expression is a quotient of the least integer and minus one. -/
def Overflows (row : Row) (p : Expr) : Prop := ∃ a b rest t, p = apply .divide (a :: b :: rest) t ∧
  a.eval row = .ok (.integer Int64.minValue) ∧ b.eval row = .ok (.integer (-1))

/-- Evaluation of the first expression on the row gets to the second one. -/
inductive Reaches (row : Row) : Expr → Expr → Prop
  | self (e : Expr) : Reaches row e e
  | operand {op : Op} {es before after : List Expr} {k p : Expr} {t : DataType} :
    op.read es = before ++ k :: after → (before.map (eval row)).all (goesOn op) = true →
    Reaches row k p → Reaches row (apply op es t) p

/-- Whether a call has all operands that its operator reads. -/
def hasNeeded : Expr → Bool
  | apply op es _ => op.operandCount?.all (· ≤ es.length)
  | _ => true

/-- Evaluation gets to a part that breaks off. -/
theorem faultsWithin_map {op : Op} {row : Row} {es : List Expr} :
    FaultsWithin op (op.read (es.map (eval row))) ↔ ∃ before k after, op.read es = before ++ k :: after ∧
      (before.map (eval row)).all (goesOn op) = true ∧ (k.eval row).faults = true := by
  rw [Op.read_map]
  constructor
  · rintro ⟨before, o, after, heq, hbefore, ho⟩
    obtain ⟨before, rest, hread, rfl, hrest⟩ := List.map_eq_append_iff.mp heq
    obtain ⟨k, after, rfl, rfl, rfl⟩ := List.map_eq_cons_iff.mp hrest
    exact ⟨before, k, after, hread, hbefore, ho⟩
  · rintro ⟨before, k, after, hread, hbefore, hk⟩
    exact ⟨_, _, _, by rw [hread, List.map_append, List.map_cons], hbefore, hk⟩

theorem reaches_apply {row : Row} {op : Op} {es : List Expr} {t : DataType} {p : Expr} :
    Reaches row (apply op es t) p ↔ p = apply op es t ∨ ∃ before k after,
      op.read es = before ++ k :: after ∧ (before.map (eval row)).all (goesOn op) = true ∧
        Reaches row k p := by
  constructor
  · intro h
    cases h with
    | self => exact .inl rfl
    | operand hread hbefore hk => exact .inr ⟨_, _, _, hread, hbefore, hk⟩
  · rintro (rfl | ⟨before, k, after, hread, hbefore, hk⟩)
    · exact .self _
    · exact .operand hread hbefore hk

theorem overflows_apply {row : Row} {op : Op} {es : List Expr} {t : DataType} :
    (apply op es t).Overflows row ↔ op = .divide ∧ ∃ rest,
      es.map (eval row) = .ok (.integer Int64.minValue) :: .ok (.integer (-1)) :: rest := by
  constructor
  · rintro ⟨a, b, rest, t, h, ha, hb⟩
    cases h
    exact ⟨rfl, rest.map (eval row), by rw [List.map_cons, List.map_cons, ha, hb]⟩
  · rintro ⟨rfl, rest, h⟩
    obtain ⟨a, es, rfl, ha, h⟩ := List.map_eq_cons_iff.mp h
    obtain ⟨b, es, rfl, hb, -⟩ := List.map_eq_cons_iff.mp h
    exact ⟨a, b, es, t, rfl, ha, hb⟩

theorem faults_eval_iff {e : Expr} {row : Row} (h : ∀ p ∈ e.parts, p.hasNeeded = true) :
    (e.eval row).faults = true ↔ ∃ p, Reaches row e p ∧ p.Overflows row := by
  induction e using induct with
  | apply op es t ih =>
    rw [forall_parts_apply] at h
    have hcount : op.operandCount?.all (· ≤ (es.map (eval row)).length) = true := by
      rw [List.length_map]
      exact h.1
    rw [eval, evalEach_eq, Op.faults_combine hcount, faultsWithin_map, ← overflows_apply (t := t)]
    simp only [reaches_apply]
    -- what is found below an operand that evaluation gets to is found below the call
    constructor
    · rintro (⟨before, k, after, hread, hbefore, hk⟩ | hself)
      · have hmem : k ∈ es := Op.mem_of_mem_read (hread ▸ List.mem_append_right _ List.mem_cons_self)
        obtain ⟨p, hp, hoverflows⟩ := (ih k hmem (h.2 k hmem)).mp hk
        exact ⟨p, .inr ⟨before, k, after, hread, hbefore, hp⟩, hoverflows⟩
      · exact ⟨_, .inl rfl, hself⟩
    · rintro ⟨p, rfl | ⟨before, k, after, hread, hbefore, hp⟩, hoverflows⟩
      · exact .inr hoverflows
      · have hmem : k ∈ es := Op.mem_of_mem_read (hread ▸ List.mem_append_right _ List.mem_cons_self)
        exact .inl ⟨before, k, after, hread, hbefore, (ih k hmem (h.2 k hmem)).mpr ⟨p, hp, hoverflows⟩⟩
  | column i t =>
    constructor
    · intro hfaults
      rw [eval] at hfaults
      split at hfaults <;> cases hfaults
    · rintro ⟨p, hp, a, b, rest, t, rfl, -⟩
      cases hp
  | literal | tableColumn =>
    constructor
    · intro hfaults
      cases hfaults
    · rintro ⟨p, hp, a, b, rest, t, rfl, -⟩
      cases hp

/-- An expression whose calls have their operands has a value on a row or reports an error, unless the
evaluation gets to a quotient of the least integer and minus one. Then it breaks off. -/
theorem eval_settles_iff {e : Expr} (row : Row) (h : ∀ p ∈ e.parts, p.hasNeeded = true) :
    ((∃ v, e.eval row = .ok v) ∨ ∃ err, e.eval row = .error err ∧ err.isFault = false) ↔
      ∀ p, Reaches row e p → ¬p.Overflows row := by
  have hsettles : ((∃ v, e.eval row = .ok v) ∨ ∃ err, e.eval row = .error err ∧ err.isFault = false) ↔
      ¬(e.eval row).faults = true := by
    cases e.eval row <;> simp
  rw [hsettles, faults_eval_iff h]
  simp only [not_exists, not_and]

/-- The quotient of two columns. -/
def ratio : Expr := call .divide [column 0 .bigint, column 1 .bigint]

/-- The quotient, asked for only if the divisor is not minus one. -/
def guardedRatio : Expr :=
  call .and [call .notEquals [column 1 .bigint, literal (.integer (-1))],
    call .greaterThan [ratio, literal (.integer 0)]]

theorem eval_settles_guardedRatio :
    guardedRatio.eval [.integer Int64.minValue, .integer (-1)] = .ok (.boolean false) ∧
    ∀ p, Reaches [.integer Int64.minValue, .integer (-1)] guardedRatio p →
      ¬p.Overflows [.integer Int64.minValue, .integer (-1)] := by
  have heval : guardedRatio.eval [.integer Int64.minValue, .integer (-1)] = .ok (.boolean false) := rfl
  exact ⟨heval, (eval_settles_iff _ (by decide)).mp (.inl ⟨_, heval⟩)⟩

/-- Without the guard, on the same row, neither a value nor an error comes of the quotient. -/
theorem eval_ratio_breaks_off :
    (∀ p ∈ ratio.parts, p.hasNeeded = true ∧ p.op? ≠ some .unaryMinus) ∧
    ratio.eval [.integer Int64.minValue, .integer (-1)] = .error .quotientOverflow ∧
    EvalError.quotientOverflow.isFault = true :=
  ⟨by decide, rfl, rfl⟩

end Expr

end QueryPlan
