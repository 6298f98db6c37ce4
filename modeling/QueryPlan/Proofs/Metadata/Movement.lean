import QueryPlan.Metadata.Collations
import QueryPlan.Proofs.Expr.Movement
import QueryPlan.Proofs.Metadata.Orders
/-!
# Expressions that move along rows

The movement of an expression is found from the fields of collations. It is that of its values on rows
in the order of the collations, as long as the fields on the columns that it reads lead one of them,
the nulls of these columns are where the result has its nulls, and the computation on each row stays
within integers and nulls and does not wrap around.
-/
namespace QueryPlan

open Execution

namespace Value

/-- Rounding leaves the value as it is. -/
def isRound : Value → Bool
  | double _ => false
  | _ => true

/-- Conversion to the type leaves the value as it is. -/
def isOfType (target : DataType) : Value → Bool
  | null => true
  | boolean _ => target != .varchar
  | integer _ => target != .varchar && target != .double
  | double _ => target != .varchar && target != .integer && target != .bigint
  | varchar _ => target != .integer && target != .bigint

theorem rounded_of_isRound {v : Value} (h : v.isRound = true) (round : Float → Float) :
    v.rounded round = v := by
  cases v with
  | double d => cases h
  | _ => rfl

theorem convert_of_isOfType {v : Value} {target : DataType} (h : v.isOfType target = true) :
    v.convert target = .ok v := by
  cases v <;> cases target <;> first | rfl | cases h

end Value

namespace Collation

theorem order_head {c : Collation} {fc : FieldCollation} {a b : Row} (hhead : c.fields.head? = some fc)
    (h : c.order a b ≠ .gt) : fc.order a b ≠ .gt := by
  obtain ⟨fields⟩ := c
  cases fields with
  | nil => cases hhead
  | cons _ fields =>
    cases hhead
    intro hgt
    rw [order, orderBy, hgt] at h
    exact h rfl

theorem order_single (fc : FieldCollation) (a b : Row) : order ⟨[fc]⟩ a b = fc.order a b := by
  rw [order, orderBy, orderBy]
  cases fc.order a b <;> rfl

end Collation

/-- Where the direction of the movement puts nulls. -/
def Monotonicity.nulls (m : Monotonicity) : NullPlacement :=
  ((Direction.ofMonotonicity? m).map Direction.defaultNulls).getD .last

namespace Expr

/-! ## Operands -/

theorem eval_eq_of_isConstant {e : Expr} (h : e.isConstant = true) (a b : Row) :
    e.eval a = e.eval b := by
  induction e using induct with
  | column => cases h
  | literal v => rfl
  | apply op es t ih =>
    rw [isConstant, areConstant_eq, List.all_eq_true] at h
    rw [eval, eval, evalEach_eq, evalEach_eq, List.map_congr_left fun e he => ih e he (h e he)]
  | tableColumn => cases h

theorem hasValue_of_bind {e : Expr} {row : Row} {f : Value → Outcome} {v : Value}
    (h : (e.eval row >>= f) = .ok v) : e.HasValue row ∧ f (e.valueOn row) = .ok v := by
  obtain ⟨u, hu, hv⟩ := Outcome.bind_eq_ok.mp h
  have hvalue : e.HasValue row := ⟨u, hu⟩
  rw [hvalue.eval_eq] at hu
  cases hu
  exact ⟨hvalue, hv⟩

theorem HasValue.of_arithmetic {op : Op} (hop : op.isArithmetic = true) {e e' : Expr}
    {es : List Expr} {t : DataType} {row : Row} (h : (apply op (e :: e' :: es) t).HasValue row) :
    e.HasValue row ∧ e'.HasValue row ∧ Value.arithmetic op (e.valueOn row) (e'.valueOn row) =
      .ok ((apply op (e :: e' :: es) t).valueOn row) := by
  have heval : (apply op (e :: e' :: es) t).eval row =
      (e.eval row >>= fun v => e'.eval row >>= fun w => Value.arithmetic op v w) := by
    cases op <;> first | rfl | cases hop
  obtain ⟨he, hrest⟩ := hasValue_of_bind (heval.symm.trans h.eval_eq)
  obtain ⟨he', hvalue⟩ := hasValue_of_bind hrest
  exact ⟨he, he', hvalue⟩

section

variable {cs : List Collation} {es : List Expr} {m : Monotonicity}

theorem exists_of_unary {f : Monotonicity → Monotonicity}
    (h : (monotonicities cs es)[0]?.join.map f = some m) :
    ∃ e rest m₀, es = e :: rest ∧ e.monotonicity? cs = some m₀ ∧ m = f m₀ := by
  cases es with
  | nil => cases h
  | cons e rest =>
    obtain ⟨m₀, hm₀, hm⟩ := Option.map_eq_some_iff.mp h
    exact ⟨e, rest, m₀, rfl, hm₀, hm.symm⟩

theorem exists_of_binary {f : Monotonicity → Monotonicity → Monotonicity}
    (h : ((monotonicities cs es)[0]?.join >>= fun m₀ =>
      (monotonicities cs es)[1]?.join >>= fun m₁ => some (f m₀ m₁)) = some m) :
    ∃ e e' rest m₀ m₁, es = e :: e' :: rest ∧ e.monotonicity? cs = some m₀ ∧
      e'.monotonicity? cs = some m₁ ∧ m = f m₀ m₁ := by
  obtain ⟨m₀, hm₀, h⟩ := Option.bind_eq_some_iff.mp h
  obtain ⟨m₁, hm₁, hm⟩ := Option.bind_eq_some_iff.mp h
  cases hm
  match es with
  | [] => cases hm₀
  | [_] => cases hm₁
  | e :: e' :: rest => exact ⟨e, e', rest, m₀, m₁, rfl, hm₀, hm₁, rfl⟩

end

/-! ## Exact computations -/

/-- If this is an integer, its sign is found. -/
def hasFoundSign : Expr → Bool
  | literal (.integer k) =>
    (literal (.integer k)).literalSign? == some (compare k.toInt 0)
  | _ => true

theorem compare_of_literalSign? {e : Expr} {o : Ordering} {row : Row} {k : Int64}
    (h : e.literalSign? = some o) (hfound : e.hasFoundSign = true) (hk : e.valueOn row = .integer k) :
    compare k.toInt 0 = o := by
  cases e with
  | literal v =>
    rw [show v = .integer k from hk] at h hfound
    have hsign := h.symm.trans (beq_iff_eq.mp hfound)
    cases hsign
    rfl
  | _ => cases h

/-- The signs of both factors are found, and neither is null if one is zero. -/
def areFactors (row : Row) (e e' : Expr) : Bool :=
  e.hasFoundSign && e'.hasFoundSign &&
    (e.literalSign? != some .eq && e'.literalSign? != some .eq ||
      !(e.valueOn row).isNull && !(e'.valueOn row).isNull)

/-- A call computes the result of its operator on all integers, or leaves its operand as it is. -/
def isExactCall (row : Row) (op : Op) (target : DataType) (es : List Expr) : Bool :=
  match op, es with
  | .plus, e :: e' :: _ | .minus, e :: e' :: _ => Value.isExact op (e.valueOn row) (e'.valueOn row)
  | .times, e :: e' :: _ | .divide, e :: e' :: _ =>
    Value.isExact op (e.valueOn row) (e'.valueOn row) && areFactors row e e'
  | .unaryMinus, e :: _ => Value.isExact .minus (.integer 0) (e.valueOn row)
  | .floor, e :: _ | .ceil, e :: _ => (e.valueOn row).isRound
  | .cast, e :: _ => (e.valueOn row).isOfType target
  | _, _ => true

mutual

/-- All calls of an expression that depend on the row are exact. -/
def isExactOn (row : Row) : Expr → Bool
  | apply op es t => areConstant es || isExactCall row op t es && areExactOn row es
  | _ => true

/-- The calls of a list of expressions are exact. -/
def areExactOn (row : Row) : List Expr → Bool
  | [] => true
  | e :: es => isExactOn row e && areExactOn row es

end

/-! ## Movements -/

section

variable {cs : List Collation} {nulls : NullPlacement} {a b : Row}

/-- The values of an expression that is exact on two rows move between them as found, if the columns
that it reads do. -/
def MovesBetween (cs : List Collation) (nulls : NullPlacement) (a b : Row) (e : Expr) : Prop :=
  e.HasValue a → e.HasValue b → e.isExactOn a = true → e.isExactOn b = true →
    ∀ m, e.monotonicity? cs = some m → m.Moves nulls (e.valueOn a) (e.valueOn b)

theorem movesBetween_unary {op : Op} {es : List Expr} {t : DataType} {m : Monotonicity}
    {f : Monotonicity → Monotonicity} {g : Value → Outcome}
    (hmoves : (monotonicities cs es)[0]?.join.map f = some m)
    (heval : ∀ row e rest, (apply op (e :: rest) t).eval row = e.eval row >>= g)
    (ih : ∀ e ∈ es, MovesBetween cs nulls a b e)
    (ha : (apply op es t).HasValue a) (hb : (apply op es t).HasValue b)
    (hea : areExactOn a es = true) (heb : areExactOn b es = true) :
    ∃ e rest m₀, es = e :: rest ∧ m = f m₀ ∧ m₀.Moves nulls (e.valueOn a) (e.valueOn b) ∧
      g (e.valueOn a) = .ok ((apply op es t).valueOn a) ∧
      g (e.valueOn b) = .ok ((apply op es t).valueOn b) := by
  obtain ⟨e, rest, m₀, rfl, hm₀, rfl⟩ := exists_of_unary hmoves
  obtain ⟨hae, hga⟩ := hasValue_of_bind ((heval a e rest).symm.trans ha.eval_eq)
  obtain ⟨hbe, hgb⟩ := hasValue_of_bind ((heval b e rest).symm.trans hb.eval_eq)
  rw [areExactOn, Bool.and_eq_true] at hea heb
  exact ⟨e, rest, m₀, rfl, rfl, ih e List.mem_cons_self hae hbe hea.1 heb.1 m₀ hm₀, hga, hgb⟩

theorem movesBetween_binary {op : Op} {es : List Expr} {t : DataType} {m : Monotonicity}
    {f : Monotonicity → Monotonicity → Monotonicity} (hop : op.isArithmetic = true)
    (hmoves : ((monotonicities cs es)[0]?.join >>= fun m₀ =>
      (monotonicities cs es)[1]?.join >>= fun m₁ => some (f m₀ m₁)) = some m)
    (ih : ∀ e ∈ es, MovesBetween cs nulls a b e)
    (ha : (apply op es t).HasValue a) (hb : (apply op es t).HasValue b)
    (hea : areExactOn a es = true) (heb : areExactOn b es = true) :
    ∃ e e' rest m₀ m₁, es = e :: e' :: rest ∧ m = f m₀ m₁ ∧
      m₀.Moves nulls (e.valueOn a) (e.valueOn b) ∧ m₁.Moves nulls (e'.valueOn a) (e'.valueOn b) ∧
      Value.arithmetic op (e.valueOn a) (e'.valueOn a) = .ok ((apply op es t).valueOn a) ∧
      Value.arithmetic op (e.valueOn b) (e'.valueOn b) = .ok ((apply op es t).valueOn b) := by
  obtain ⟨e, e', rest, m₀, m₁, rfl, hm₀, hm₁, rfl⟩ := exists_of_binary hmoves
  obtain ⟨hae, hae', hva⟩ := ha.of_arithmetic hop
  obtain ⟨hbe, hbe', hvb⟩ := hb.of_arithmetic hop
  rw [areExactOn, areExactOn, Bool.and_eq_true, Bool.and_eq_true] at hea heb
  exact ⟨e, e', rest, m₀, m₁, rfl, rfl, ih e List.mem_cons_self hae hbe hea.1 heb.1 m₀ hm₀,
    ih e' (List.mem_cons_of_mem _ List.mem_cons_self) hae' hbe' hea.2.1 heb.2.1 m₁ hm₁, hva, hvb⟩

end

section

variable {nulls : NullPlacement} {a b : Row} {e e' : Expr} {m₀ m₁ : Monotonicity} {v w : Value}

theorem areFactors_comm {row : Row} (h : areFactors row e e' = true) : areFactors row e' e = true := by
  unfold areFactors at *
  simp only [Bool.and_eq_true, Bool.or_eq_true] at *
  exact ⟨h.1.symm, h.2.imp And.symm And.symm⟩

theorem sign_of_areFactors {row : Row} {o : Ordering} (h : areFactors row e e' = true)
    (ho : e'.literalSign? = some o) :
    (∀ k, e'.valueOn row = .integer k → compare k.toInt 0 = o) ∧
      (o = .eq → (e.valueOn row).isNull = false ∧ (e'.valueOn row).isNull = false) := by
  unfold areFactors at h
  simp only [Bool.and_eq_true, Bool.or_eq_true, bne_iff_ne, Bool.not_eq_true'] at h
  obtain ⟨⟨-, hfound⟩, hnulls⟩ := h
  refine ⟨fun k hk => compare_of_literalSign? ho hfound hk, ?_⟩
  rintro rfl
  exact hnulls.resolve_left fun h => h.2 ho

theorem moves_notMonotonic : Monotonicity.notMonotonic.Moves nulls v w := fun h => by cases h

theorem moves_of_ok {v' w' : Value} (h : m₀.Moves nulls v w) (hv : (.ok v : Outcome) = .ok v')
    (hw : (.ok w : Outcome) = .ok w') : m₀.Moves nulls v' w' := by
  cases hv
  cases hw
  exact h

/-- A product with a constant factor of known sign. -/
theorem moves_scaled {op : Op} {o : Ordering} (hop : op = .times ∨ op = .divide ∧ o ≠ .eq)
    (h : m₀.Moves nulls (e.valueOn a) (e.valueOn b))
    (h' : Monotonicity.constant.Moves nulls (e'.valueOn a) (e'.valueOn b))
    (ho : e'.literalSign? = some o)
    (hv : Value.arithmetic op (e.valueOn a) (e'.valueOn a) = .ok v)
    (hw : Value.arithmetic op (e.valueOn b) (e'.valueOn b) = .ok w)
    (hea : Value.isExact op (e.valueOn a) (e'.valueOn a) = true)
    (heb : Value.isExact op (e.valueOn b) (e'.valueOn b) = true)
    (hfa : areFactors a e e' = true) (hfb : areFactors b e e' = true) :
    (m₀.scaled o).Moves nulls v w := by
  obtain ⟨hsign, hnulls⟩ := sign_of_areFactors hfb ho
  obtain ⟨-, hnulls'⟩ := sign_of_areFactors hfa ho
  rw [show e'.valueOn a = e'.valueOn b from h' rfl] at hv hea
  refine h.scaled (hop.imp_right And.left) hsign (fun hzero => ?_) hv hw hea heb
  exact ⟨hop.resolve_right fun h => h.2 hzero, (hnulls' hzero).1, hnulls hzero⟩

theorem moves_product (h : m₀.Moves nulls (e.valueOn a) (e.valueOn b))
    (h' : m₁.Moves nulls (e'.valueOn a) (e'.valueOn b))
    (hv : Value.arithmetic .times (e.valueOn a) (e'.valueOn a) = .ok v)
    (hw : Value.arithmetic .times (e.valueOn b) (e'.valueOn b) = .ok w)
    (hea : Value.isExact .times (e.valueOn a) (e'.valueOn a) = true)
    (heb : Value.isExact .times (e.valueOn b) (e'.valueOn b) = true)
    (hfa : areFactors a e e' = true) (hfb : areFactors b e e' = true) :
    (productMonotonicity m₀ m₁ e.literalSign? e'.literalSign?).Moves nulls v w := by
  unfold productMonotonicity
  split
  · rw [show e.valueOn a = e.valueOn b from h rfl, show e'.valueOn a = e'.valueOn b from h' rfl,
      hw] at hv
    cases hv
    exact Monotonicity.moves_self nulls _ _
  · cases ho : e'.literalSign? with
    | none => exact moves_notMonotonic
    | some o => exact moves_scaled (.inl rfl) h h' ho hv hw hea heb hfa hfb
  · cases ho : e.literalSign? with
    | none => exact moves_notMonotonic
    | some o =>
      obtain ⟨hea', hva⟩ := Value.times_comm hea
      obtain ⟨heb', hvb⟩ := Value.times_comm heb
      exact moves_scaled (.inl rfl) h' h ho (hva.symm.trans hv) (hvb.symm.trans hw) hea' heb'
        (areFactors_comm hfa) (areFactors_comm hfb)
  · exact moves_notMonotonic

theorem moves_quotient (h : m₀.Moves nulls (e.valueOn a) (e.valueOn b))
    (h' : m₁.Moves nulls (e'.valueOn a) (e'.valueOn b))
    (hv : Value.arithmetic .divide (e.valueOn a) (e'.valueOn a) = .ok v)
    (hw : Value.arithmetic .divide (e.valueOn b) (e'.valueOn b) = .ok w)
    (hea : Value.isExact .divide (e.valueOn a) (e'.valueOn a) = true)
    (heb : Value.isExact .divide (e.valueOn b) (e'.valueOn b) = true)
    (hfa : areFactors a e e' = true) (hfb : areFactors b e e' = true) :
    (quotientMonotonicity m₀ m₁ e'.literalSign?).Moves nulls v w := by
  unfold quotientMonotonicity
  split
  · rw [show e.valueOn a = e.valueOn b from h rfl, show e'.valueOn a = e'.valueOn b from h' rfl,
      hw] at hv
    cases hv
    exact Monotonicity.moves_self nulls _ _
  · next ho => exact moves_scaled (o := .gt) (.inr ⟨rfl, nofun⟩) h h' ho hv hw hea heb hfa hfb
  · next ho => exact moves_scaled (o := .lt) (.inr ⟨rfl, nofun⟩) h h' ho hv hw hea heb hfa hfb
  · exact moves_notMonotonic

end

/-- Calls move as found if their operands do. -/
theorem movesBetween_call {cs : List Collation} {nulls : NullPlacement} {a b : Row} {op : Op}
    {es : List Expr} {t : DataType} (ih : ∀ e ∈ es, MovesBetween cs nulls a b e) :
    MovesBetween cs nulls a b (apply op es t) := by
  intro ha hb hea heb m hm
  by_cases hconstant : (apply op es t).isConstant = true
  · rw [valueOn, valueOn, eval_eq_of_isConstant hconstant a b]
    exact Monotonicity.moves_self nulls m _
  have hnot : areConstant es = false := Bool.eq_false_iff.mpr hconstant
  simp only [isExactOn, hnot, Bool.false_or, Bool.and_eq_true] at hea heb
  obtain ⟨hca, hea⟩ := hea
  obtain ⟨hcb, heb⟩ := heb
  rw [monotonicity?] at hm
  cases op with
  | plus =>
    obtain ⟨e, e', rest, m₀, m₁, rfl, rfl, h, h', hv, hw⟩ :=
      movesBetween_binary rfl hm ih ha hb hea heb
    exact h.plus h' hv hw hca hcb
  | minus =>
    obtain ⟨e, e', rest, m₀, m₁, rfl, rfl, h, h', hv, hw⟩ :=
      movesBetween_binary rfl hm ih ha hb hea heb
    exact h.minus h' hv hw hca hcb
  | times =>
    obtain ⟨e, e', rest, m₀, m₁, rfl, rfl, h, h', hv, hw⟩ :=
      movesBetween_binary rfl hm ih ha hb hea heb
    rw [isExactCall, Bool.and_eq_true] at hca hcb
    exact moves_product h h' hv hw hca.1 hcb.1 hca.2 hcb.2
  | divide =>
    obtain ⟨e, e', rest, m₀, m₁, rfl, rfl, h, h', hv, hw⟩ :=
      movesBetween_binary rfl hm ih ha hb hea heb
    rw [isExactCall, Bool.and_eq_true] at hca hcb
    exact moves_quotient h h' hv hw hca.1 hcb.1 hca.2 hcb.2
  | unaryMinus =>
    obtain ⟨e, rest, m₀, rfl, rfl, h, hv, hw⟩ :=
      movesBetween_unary (g := fun v => .ok v.opposite) hm (fun _ _ _ => rfl) ih ha hb hea heb
    have hzero : Monotonicity.constant.Moves nulls (.integer 0) (.integer 0) := fun _ => rfl
    rw [isExactCall] at hca hcb
    refine hzero.minus h ?_ ?_ hca hcb
    · exact (Value.arithmetic_minus_zero (Value.isWhole_of_isExact hca).2).trans hv
    · exact (Value.arithmetic_minus_zero (Value.isWhole_of_isExact hcb).2).trans hw
  | floor =>
    obtain ⟨e, rest, m₀, rfl, rfl, h, hv, hw⟩ :=
      movesBetween_unary (g := fun v => .ok (v.rounded Double.floor)) hm (fun _ _ _ => rfl)
        ih ha hb hea heb
    rw [Value.rounded_of_isRound hca] at hv
    rw [Value.rounded_of_isRound hcb] at hw
    exact moves_of_ok h.unstrict hv hw
  | ceil =>
    obtain ⟨e, rest, m₀, rfl, rfl, h, hv, hw⟩ :=
      movesBetween_unary (g := fun v => .ok (v.rounded Double.ceil)) hm (fun _ _ _ => rfl)
        ih ha hb hea heb
    rw [Value.rounded_of_isRound hca] at hv
    rw [Value.rounded_of_isRound hcb] at hw
    exact moves_of_ok h.unstrict hv hw
  | cast =>
    obtain ⟨e, rest, m₀, rfl, rfl, h, hv, hw⟩ :=
      movesBetween_unary (f := id) (g := (Value.convert t ·))
        ((congrFun Option.map_id _).trans hm) (fun _ _ _ => rfl) ih ha hb hea heb
    rw [Value.convert_of_isOfType hca] at hv
    rw [Value.convert_of_isOfType hcb] at hw
    exact moves_of_ok h hv hw
  | _ =>
    have hall : es.all isConstant = false := (areConstant_eq es).symm.trans hnot
    unfold callMonotonicity? at hm
    dsimp only at hm
    rw [hall] at hm
    cases hm
    exact moves_notMonotonic

theorem moves_valueOn {cs : List Collation} {nulls : NullPlacement} {a b : Row} {e : Expr}
    (h : ∀ i ∈ e.columnList, (columnMonotonicity cs i).Moves nulls (a.valueAt i) (b.valueAt i)) :
    MovesBetween cs nulls a b e := by
  induction e using induct with
  | column i t =>
    intro _ _ _ _ m hm
    cases hm
    rw [valueOn_column, valueOn_column]
    exact h i (List.mem_singleton_self i)
  | literal v => exact fun _ _ _ _ m _ => Monotonicity.moves_self nulls m v
  | apply op es t ih =>
    exact movesBetween_call fun e he => ih e he fun i hi =>
      h i (mem_columnList_apply.mpr ⟨e, he, hi⟩)
  | tableColumn =>
    rintro ⟨v, hv⟩
    cases hv

/-! ## Rows in the order of collations -/

theorem valueAt_append_single {row : Row} {n : Nat} (h : row.length = n) (v : Value) :
    (row ++ [v]).valueAt n = v := by
  rw [Row.valueAt, ← h, List.getElem?_concat_length]
  rfl

/-- The first field on each column that is read leads a collation, and it has the nulls of the rows,
if there are any, on the given side. -/
def ReadsLeading (cs : List Collation) (nulls : NullPlacement) (rows : List Row) (e : Expr) : Prop :=
  ∀ i ∈ e.columnList, ∀ fc ∈ (cs.flatMap Collation.fields).find? (·.field == i),
    (∃ c ∈ cs, c.fields.head? = some fc) ∧
      ((∀ row ∈ rows, (row.valueAt i).isNull = false) ∨ (fc.nulls = .first ↔ nulls = .first))

instance (cs : List Collation) (nulls : NullPlacement) (rows : List Row) (e : Expr) :
    Decidable (ReadsLeading cs nulls rows e) :=
  inferInstanceAs (Decidable (∀ i ∈ e.columnList, ∀ fc ∈ _, _))

theorem ReadsLeading.moves {cs : List Collation} {nulls : NullPlacement} {rows : List Row} {e : Expr}
    (h : e.ReadsLeading cs nulls rows) {a b : Row} (ha : a ∈ rows) (hb : b ∈ rows)
    (hab : ∀ c ∈ cs, c.order a b ≠ .gt) :
    ∀ i ∈ e.columnList, (columnMonotonicity cs i).Moves nulls (a.valueAt i) (b.valueAt i) := by
  intro i hi
  unfold columnMonotonicity
  cases hfind : (cs.flatMap Collation.fields).find? (·.field == i) with
  | none => exact moves_notMonotonic
  | some fc =>
    obtain ⟨⟨c, hc, hhead⟩, hnulls⟩ := h i hi fc hfind
    have hfield : fc.field = i := by simpa using List.find?_some hfind
    have horder := Collation.order_head hhead (hab c hc)
    rw [FieldCollation.order_eq, hfield] at horder
    refine Monotonicity.moves_of_orderValues horder (hnulls.imp_left fun hnone => ?_)
    exact ⟨hnone a ha, hnone b hb⟩

/-- A call moves as found along rows in the order of collations, if the columns that it reads lead
one. The rows with its values are in the order that a projection reports for the column of the call,
and a call that is found to be constant has one value. -/
theorem movement_orders {cs : List Collation} {n : Nat} {rows : List Row} {op : Op} {es : List Expr}
    {t : DataType} {m : Monotonicity} (hwidth : HaveWidth n rows) (horders : ∀ c ∈ cs, c.Orders rows)
    (hvalues : ∀ row ∈ rows, (apply op es t).HasValue row)
    (hexact : ∀ row ∈ rows, (apply op es t).isExactOn row = true)
    (hm : (apply op es t).monotonicity? cs = some m)
    (hleading : (apply op es t).ReadsLeading cs m.nulls rows) :
    (∀ d, Direction.ofMonotonicity? m = some d →
      Collation.movingFields? cs [(apply op es t, n)] = some [.directed n d] ∧
        Collation.Orders ⟨[.directed n d]⟩
          (rows.map fun row => row ++ [(apply op es t).valueOn row])) ∧
    (m = .constant → ∀ a ∈ rows, ∀ b ∈ rows,
      (apply op es t).valueOn a = (apply op es t).valueOn b) := by
  have hpairs : ∀ a ∈ rows, ∀ b ∈ rows, (∀ c ∈ cs, c.order a b ≠ .gt) →
      m.Moves m.nulls ((apply op es t).valueOn a) ((apply op es t).valueOn b) :=
    fun a ha b hb hab => moves_valueOn (hleading.moves ha hb hab) (hvalues a ha) (hvalues b hb)
      (hexact a ha) (hexact b hb) m hm
  have hpairwise : rows.Pairwise fun a b => ∀ c ∈ cs, c.order a b ≠ .gt :=
    List.pairwise_iff_forall_sublist.mpr fun hab c hc =>
      List.pairwise_iff_forall_sublist.mp (horders c hc) hab
  refine ⟨fun d hd => ⟨?_, ?_⟩, fun hconstant => ?_⟩
  · simp only [Collation.movingFields?, hm, hd, Option.bind_eq_bind, Option.bind_some]
    rfl
  · rw [Collation.Orders, List.pairwise_map]
    refine hpairwise.imp_of_mem fun {a b} ha hb hab => ?_
    have hnulls : m.nulls = d.defaultNulls := by
      rw [Monotonicity.nulls, hd]
      rfl
    have hmoves := hpairs a ha b hb hab
    rw [Monotonicity.Moves, hd, hnulls] at hmoves
    rw [Collation.order_single, FieldCollation.order_eq, FieldCollation.directed,
      valueAt_append_single (hwidth a ha), valueAt_append_single (hwidth b hb)]
    exact hmoves
  · subst hconstant
    have hequal : rows.Pairwise fun a b => (apply op es t).valueOn a = (apply op es t).valueOn b :=
      hpairwise.imp_of_mem fun {a b} ha hb hab => hpairs a ha b hb hab rfl
    let Same (a b : Row) : Prop := (apply op es t).valueOn a = (apply op es t).valueOn b
    have hsymm : Std.Symm Same := ⟨fun _ _ => Eq.symm⟩
    exact fun a ha b hb => List.Pairwise.forall_of_forall (R := Same) (fun _ _ => rfl) hequal ha hb

end Expr

/-! ## Computed columns -/

namespace ComputedColumns

/-- Parcels by number, with their weights. -/
def parcels : List Row :=
  [[.integer 1, .integer 7], [.integer 3, .integer 2], [.integer 4, .integer 8]]

/-- Ten less the double number. -/
def remaining : Expr :=
  .apply .minus [.literal (.integer 10),
    .apply .times [.column 0 .bigint, .literal (.integer 2)] .bigint] .bigint

/-- Pairs by both columns. -/
def pairs : Table :=
  { name := ["PAIRS"], rowType := ⟨[⟨"a", .bigint, true⟩, ⟨"b", .bigint, true⟩]⟩,
    collations := [.ofKeys [0, 1]],
    source := some (.ok [[.integer 1, .integer 2], [.integer 2, .integer 1]]) }

/-- Numbers with a null at the end. -/
def numbers : Table :=
  { name := ["NUMBERS"], rowType := ⟨[⟨"x", .bigint, true⟩]⟩, collations := [.ofKeys [0]],
    source := some (.ok [[.integer 9], [.integer 10], [.null]]) }

/-- Successors of the second numbers of pairs, and opposite numbers. -/
def compute : Planning NodeId := do
  let scan ← Cluster.createDefault (.scan .enumerable pairs) []
  let successor := .apply .plus [.column 1 .bigint, .literal (.integer 1)] .bigint
  let _ ← Cluster.createDefault (.project .enumerable [(successor, "c")]) [scan]
  let scan ← Cluster.createDefault (.scan .enumerable numbers) []
  let opposite := .apply .unaryMinus [.column 0 .bigint] .bigint
  Cluster.createDefault (.project .enumerable [(opposite, "y")]) [scan]

def session : Cluster := (compute.run.run (Cluster.start ⟨[pairs, numbers]⟩ default default)).2

end ComputedColumns

namespace Expr

open ComputedColumns

theorem movement_orders_parcels :
    remaining.monotonicity? [.ofKeys [0]] = some .decreasing ∧
    (Collation.ofKeys [0]).Orders parcels ∧
    Collation.movingFields? [.ofKeys [0]] [(remaining, 2)] = some [.directed 2 .descending] ∧
    Collation.Orders ⟨[.directed 2 .descending]⟩
      (parcels.map fun row => row ++ [remaining.valueOn row]) := by
  have hm : remaining.monotonicity? [.ofKeys [0]] = some .decreasing := by decide +kernel
  have horder : (Collation.ofKeys [0]).Orders parcels := by decide +kernel
  have hvalues : ∀ row ∈ parcels, remaining.HasValue row :=
    List.forall_mem_cons.mpr ⟨⟨_, rfl⟩, List.forall_mem_cons.mpr ⟨⟨_, rfl⟩,
      List.forall_mem_singleton.mpr ⟨_, rfl⟩⟩⟩
  obtain ⟨hfield, hrows⟩ := (movement_orders (n := 2) (by decide +kernel)
    (List.forall_mem_singleton.mpr horder) hvalues (by decide +kernel) hm
    (by decide +kernel)).1 .descending rfl
  exact ⟨hm, horder, hfield, hrows⟩

end Expr

namespace CollationsMethod

open ComputedColumns

/-- A sum is reported to rise with a column that is only the second in the order of its input, and
opposite numbers to fall with nulls first, though nulls are still last. -/
theorem projection_reports_inner_column :
    (∀ id < session.size, (session.check id).isOk = true) ∧
    (((Asking.of session).collations 0).run {}).1.toOption = some [.ofKeys [0, 1]] ∧
    (Collation.ofKeys [0, 1]).Orders [[.integer 1, .integer 2], [.integer 2, .integer 1]] ∧
    (((Asking.of session).collations 1).run {}).1.toOption = some [.ofKeys [0]] ∧
    session.Returns 1 [[.integer 3], [.integer 2]] ∧
    ¬(Collation.ofKeys [0]).Orders [[.integer 3], [.integer 2]] ∧
    (((Asking.of session).collations 3).run {}).1.toOption =
      some [⟨[.directed 0 .descending]⟩] ∧
    session.Returns 3 [[.integer (-9)], [.integer (-10)], [.null]] ∧
    ¬(Collation.mk [.directed 0 .descending]).Orders [[.integer (-9)], [.integer (-10)], [.null]] :=
  ⟨by decide +kernel, by decide +kernel, by decide +kernel, by decide +kernel,
    Cluster.returns_of_ranRows (by decide +kernel) (by decide +kernel), by decide +kernel,
    by decide +kernel, Cluster.returns_of_ranRows (by decide +kernel) (by decide +kernel),
    by decide +kernel⟩

end CollationsMethod

end QueryPlan
