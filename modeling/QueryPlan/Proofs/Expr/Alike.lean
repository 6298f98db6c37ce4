import QueryPlan.Proofs.Expr.Equality
import QueryPlan.Metadata.Estimate
/-!
# Expressions that compare as equal

A remembered number of distinct rows is found by any predicate that compares as equal to the one it
was asked with, and literals compare as values do, so that an integer stands for the double of the
same value. Estimates look at operators, columns and truth values only, and do not tell such
predicates apart.
-/
namespace QueryPlan

theorem DataType.compare_self (t : DataType) : compare t t = .eq :=
  show compare t.rank t.rank = .eq from Std.ReflCmp.compare_self

theorem Op.compare_self (op : Op) : compare op op = .eq :=
  show compare op.rank op.rank = .eq from Std.ReflCmp.compare_self

theorem orderNames_self (names : List String) : orderNames names names = .eq := by
  induction names with
  | nil => rfl
  | cons name names ih =>
    rw [orderNames, Ordering.then_eq_eq]
    exact ⟨Std.ReflCmp.compare_self, ih⟩

theorem TableRef.compare_self (r : TableRef) : compare r r = .eq :=
  Ordering.then_eq_eq.mpr ⟨orderNames_self r.name, Std.ReflCmp.compare_self⟩

namespace Expr

/-- The expressions differ at most in literals of equal value. -/
inductive Alike : Expr → Expr → Prop
  | column (i : Nat) (t : DataType) : Alike (column i t) (column i t)
  | literal {v w : Value} : compare v w = .eq → Alike (literal v) (literal w)
  | apply (op : Op) {es es' : List Expr} (t : DataType) :
    List.Forall₂ Alike es es' → Alike (apply op es t) (apply op es' t)
  | tableColumn (r : TableRef) (i : Nat) (t : DataType) :
    Alike (tableColumn r i t) (tableColumn r i t)

theorem alike_self (e : Expr) : Alike e e := by
  induction e using induct with
  | column i t => exact .column i t
  | literal v => exact .literal v.compare_self
  | apply op es t ih => exact .apply op t (List.forall₂_same.mpr ih)
  | tableColumn r i t => exact .tableColumn r i t

theorem orderLists_eq {es es' : List Expr} (ih : ∀ e ∈ es, ∀ e', order e e' = .eq → Alike e e')
    (h : orderLists es es' = .eq) : List.Forall₂ Alike es es' := by
  induction es generalizing es' with
  | nil =>
    cases es' with
    | nil => exact .nil
    | cons e' es' => cases h
  | cons e es ihes =>
    cases es' with
    | nil => cases h
    | cons e' es' =>
      rw [List.forall_mem_cons] at ih
      rw [orderLists, Ordering.then_eq_eq] at h
      exact .cons (ih.1 e' h.1) (ihes ih.2 h.2)

/-- Expressions that compare as equal are alike. -/
theorem alike_of_order {e e' : Expr} (h : order e e' = .eq) : Alike e e' := by
  induction e using induct generalizing e' with
  | column i t =>
    cases e' with
    | column j u =>
      rw [order, Ordering.then_eq_eq] at h
      rw [Std.LawfulEqOrd.eq_of_compare h.1, DataType.eq_of_compare h.2]
      exact .column j u
    | _ => cases h
  | literal v =>
    cases e' with
    | literal w => exact .literal h
    | _ => cases h
  | apply op es t ih =>
    cases e' with
    | apply op' es' t' =>
      rw [order, Ordering.then_eq_eq, Ordering.then_eq_eq] at h
      obtain ⟨hop, hes, ht⟩ := h
      rw [Op.eq_of_compare hop, DataType.eq_of_compare ht]
      exact .apply op' t' (orderLists_eq (fun e he e' => ih e he) hes)
    | _ => cases h
  | tableColumn r i t =>
    cases e' with
    | tableColumn r' i' t' =>
      rw [order, Ordering.then_eq_eq, Ordering.then_eq_eq] at h
      obtain ⟨hr, hi, ht⟩ := h
      rw [TableRef.eq_of_compare hr, Std.LawfulEqOrd.eq_of_compare hi, DataType.eq_of_compare ht]
      exact .tableColumn r' i' t'
    | _ => cases h

theorem alike_of_beq {e e' : Expr} (h : (e == e') = true) : Alike e e' := by
  have horder : (order e e' == .eq) = true := h
  exact alike_of_order (LawfulBEq.eq_of_beq horder)

theorem orderLists_self {es : List Expr} (h : ∀ e ∈ es, order e e = .eq) :
    orderLists es es = .eq := by
  induction es with
  | nil => rfl
  | cons e es ih =>
    rw [List.forall_mem_cons] at h
    rw [orderLists, Ordering.then_eq_eq]
    exact ⟨h.1, ih h.2⟩

theorem order_self (e : Expr) : order e e = .eq := by
  induction e using induct with
  | column i t =>
    rw [order, Ordering.then_eq_eq]
    exact ⟨Std.ReflCmp.compare_self, t.compare_self⟩
  | literal v => exact v.compare_self
  | apply op es t ih =>
    rw [order, Ordering.then_eq_eq, Ordering.then_eq_eq]
    exact ⟨op.compare_self, orderLists_self ih, t.compare_self⟩
  | tableColumn r i t =>
    rw [order, Ordering.then_eq_eq, Ordering.then_eq_eq]
    exact ⟨r.compare_self, Std.ReflCmp.compare_self, t.compare_self⟩

instance : ReflBEq Expr := ⟨fun {e} => by
  show (order e e == .eq) = true
  rw [order_self]
  rfl⟩

/-! ## What alike expressions have in common -/

theorem isAlways_literal {v w : Value} (h : compare v w = .eq) :
    (literal v).isAlwaysTrue = (literal w).isAlwaysTrue ∧
      (literal v).isAlwaysFalse = (literal w).isAlwaysFalse := by
  have horder : v.order w = .eq := h
  cases v with
  | boolean a =>
    cases w with
    | boolean b =>
      cases a <;> cases b
      all_goals first | exact ⟨rfl, rfl⟩ | cases horder
    | _ => cases horder
  | _ => cases w <;> first | exact ⟨rfl, rfl⟩ | cases horder

theorem Alike.isAlwaysTrue {e e' : Expr} (h : Alike e e') : e.isAlwaysTrue = e'.isAlwaysTrue := by
  cases h with
  | literal hvw => exact (isAlways_literal hvw).1
  | _ => rfl

theorem Alike.isAlwaysFalse {e e' : Expr} (h : Alike e e') :
    e.isAlwaysFalse = e'.isAlwaysFalse := by
  cases h with
  | literal hvw => exact (isAlways_literal hvw).2
  | _ => rfl

theorem Alike.conjunctSelectivity {e e' : Expr} (h : Alike e e') :
    e.conjunctSelectivity = e'.conjunctSelectivity := by
  cases h <;> rfl

theorem Alike.columnList {e e' : Expr} (h : Alike e e') : e.columnList = e'.columnList := by
  induction e using induct generalizing e' with
  | apply op es t ih =>
    cases h with
    | apply _ _ hes =>
      rw [Expr.columnList, Expr.columnList, columnListOf_eq, columnListOf_eq]
      induction hes with
      | nil => rfl
      | cons he _ ihes =>
        rw [List.forall_mem_cons] at ih
        rw [List.flatMap_cons, List.flatMap_cons, ih.1 he, ihes ih.2]
  | _ =>
    cases h
    rfl

theorem Alike.columns {e e' : Expr} (h : Alike e e') : e.columns = e'.columns := by
  rw [Expr.columns, Expr.columns, h.columnList]

/-! ## Conjunctions -/

theorem alike_flatMap {es es' : List Expr} {f : Expr → List Expr}
    (ih : ∀ e ∈ es, ∀ {e'}, Alike e e' → List.Forall₂ Alike (f e) (f e'))
    (h : List.Forall₂ Alike es es') : List.Forall₂ Alike (es.flatMap f) (es'.flatMap f) := by
  induction h with
  | nil => exact .nil
  | cons he _ ihes =>
    rw [List.forall_mem_cons] at ih
    rw [List.flatMap_cons, List.flatMap_cons]
    exact List.rel_append (ih.1 he) (ihes ih.2)

theorem Alike.conjuncts {e e' : Expr} (h : Alike e e') :
    List.Forall₂ Alike e.conjuncts e'.conjuncts := by
  induction e using induct_and generalizing e' with
  | and es t ih =>
    cases h with
    | apply _ _ hes =>
      rw [conjuncts_apply_and, conjuncts_apply_and]
      exact alike_flatMap ih hes
  | other e hother =>
    have hother' : ∀ es t, e' ≠ Expr.apply .and es t := by
      rintro es t rfl
      cases h
      exact hother _ t rfl
    rw [conjuncts_of_not_and hother, conjuncts_of_not_and hother', ← h.isAlwaysTrue]
    split
    · exact .nil
    · exact .cons h .nil

theorem alike_conjunctsOf {ps ps' : List Expr} (h : List.Forall₂ Alike ps ps') :
    List.Forall₂ Alike (conjunctsOf ps) (conjunctsOf ps') := by
  rw [conjunctsOf_eq, conjunctsOf_eq]
  exact alike_flatMap (fun e _ e' => Alike.conjuncts) h

theorem Alike.selectivity {e e' : Expr} (h : Alike e e') : e.selectivity = e'.selectivity := by
  have hconjuncts := h.conjuncts
  unfold Expr.selectivity
  generalize e.conjuncts = ks at hconjuncts ⊢
  generalize e'.conjuncts = ks' at hconjuncts ⊢
  generalize (1.0 : Float) = product
  induction hconjuncts generalizing product with
  | nil => rfl
  | cons hk _ ih => rw [List.foldl_cons, List.foldl_cons, hk.conjunctSelectivity, ih]

theorem any_isAlwaysFalse {ps ps' : List Expr} (h : List.Forall₂ Alike ps ps') :
    ps.any isAlwaysFalse = ps'.any isAlwaysFalse := by
  induction h with
  | nil => rfl
  | cons he _ ih => rw [List.any_cons, List.any_cons, he.isAlwaysFalse, ih]

theorem alike_call_and {es es' : List Expr} (h : List.Forall₂ Alike es es') :
    Alike (call .and es) (call .and es') := .apply .and .boolean h

/-- Conjunctions of alike predicates are alike. -/
theorem alike_conjunction? {ps ps' : List Expr} (h : List.Forall₂ Alike ps ps') :
    Option.Rel Alike (conjunction? ps) (conjunction? ps') := by
  have hparts := alike_conjunctsOf h
  unfold conjunction?
  dsimp only
  generalize conjunctsOf ps = ks at hparts ⊢
  generalize conjunctsOf ps' = ks' at hparts ⊢
  rw [← any_isAlwaysFalse hparts]
  split
  · exact .some (alike_self _)
  · cases hparts with
    | nil => exact .none
    | cons hk hrest =>
      cases hrest with
      | nil => exact .some hk
      | cons hk' hrest => exact .some (alike_call_and (.cons hk (.cons hk' hrest)))

/-- Alike predicates are split alike. -/
theorem alike_splitBy (available : ColumnSet) {p p' : Option Expr} (h : Option.Rel Alike p p') :
    List.Forall₂ Alike (splitBy available p).1 (splitBy available p').1 ∧
      List.Forall₂ Alike (splitBy available p).2 (splitBy available p').2 := by
  cases h with
  | none => exact ⟨.nil, .nil⟩
  | @some q q' h =>
    have hconjuncts := h.conjuncts
    simp only [splitBy, List.partition_eq_filter_filter]
    generalize q.conjuncts = ks at hconjuncts ⊢
    generalize q'.conjuncts = ks' at hconjuncts ⊢
    induction hconjuncts with
    | nil => exact ⟨.nil, .nil⟩
    | @cons k k' _ _ hk _ ih =>
      by_cases hcolumns : available.includes k.columns = true
      · have hcolumns' : available.includes k'.columns = true := hk.columns ▸ hcolumns
        simp only [List.filter_cons, Function.comp_apply, hcolumns, hcolumns', if_true,
          Bool.not_true, Bool.false_eq_true, if_false]
        exact ⟨.cons hk ih.1, ih.2⟩
      · have hcolumns' : ¬available.includes k'.columns = true := hk.columns ▸ hcolumns
        simp only [Bool.not_eq_true] at hcolumns hcolumns'
        simp only [List.filter_cons, Function.comp_apply, hcolumns, hcolumns', if_true,
          Bool.not_false, Bool.false_eq_true, if_false]
        exact ⟨ih.1, .cons hk ih.2⟩

/-! ## Changed predicates -/

theorem alike_map {o o' : Option Expr} {f : Expr → Expr}
    (hf : ∀ e e', Alike e e' → Alike (f e) (f e')) (h : Option.Rel Alike o o') :
    Option.Rel Alike (o.map f) (o'.map f) := by
  cases h with
  | none => exact .none
  | some h => exact .some (hf _ _ h)

theorem alike_bind {o o' : Option Expr} {f : Expr → Option Expr}
    (hf : ∀ e e', Alike e e' → Option.Rel Alike (f e) (f e')) (h : Option.Rel Alike o o') :
    Option.Rel Alike (o.bind f) (o'.bind f) := by
  cases h with
  | none => exact .none
  | some h => exact hf _ _ h

theorem Alike.mapColumns (f : Nat → DataType → Expr) {e e' : Expr} (h : Alike e e') :
    Alike (e.mapColumns f) (e'.mapColumns f) := by
  induction e using induct generalizing e' with
  | column i t =>
    cases h
    exact alike_self _
  | apply op es t ih =>
    cases h with
    | apply _ _ hes =>
      rw [Expr.mapColumns, Expr.mapColumns, mapColumnsEach_eq, mapColumnsEach_eq]
      refine .apply op t ?_
      induction hes with
      | nil => exact .nil
      | cons he _ ihes =>
        rw [List.forall_mem_cons] at ih
        exact .cons (ih.1 he) (ihes ih.2)
  | literal v =>
    cases h with
    | literal hvw => exact .literal hvw
  | tableColumn r i t =>
    cases h
    exact .tableColumn r i t

theorem Alike.mapColumns? (f : Nat → DataType → Option Expr) {e e' : Expr} (h : Alike e e') :
    Option.Rel Alike (e.mapColumns? f) (e'.mapColumns? f) := by
  induction e using induct generalizing e' with
  | column i t =>
    cases h
    rw [Expr.mapColumns?]
    cases f i t with
    | none => exact .none
    | some e => exact .some (alike_self e)
  | apply op es t ih =>
    cases h with
    | @apply _ _ es' _ hes =>
      have heach : Option.Rel (List.Forall₂ Alike) (mapColumnsEach? f es)
          (mapColumnsEach? f es') := by
        induction hes with
        | nil => exact .some .nil
        | @cons e e' es es' he _ ihes =>
          rw [List.forall_mem_cons] at ih
          rw [mapColumnsEach?, mapColumnsEach?]
          have hhead := ih.1 he
          have htail := ihes ih.2
          generalize Expr.mapColumns? f e = k at hhead ⊢
          generalize Expr.mapColumns? f e' = k' at hhead ⊢
          generalize mapColumnsEach? f es = ks at htail ⊢
          generalize mapColumnsEach? f es' = ks' at htail ⊢
          cases hhead with
          | none => exact .none
          | some hhead =>
            cases htail with
            | none => exact .none
            | some htail => exact .some (.cons hhead htail)
      rw [Expr.mapColumns?, Expr.mapColumns?]
      generalize mapColumnsEach? f es = ks at heach ⊢
      generalize mapColumnsEach? f es' = ks' at heach ⊢
      cases heach with
      | none => exact .none
      | some heach => exact .some (.apply op t heach)
  | literal v =>
    cases h with
    | literal hvw => exact .some (.literal hvw)
  | tableColumn r i t =>
    cases h
    exact .some (.tableColumn r i t)

end Expr

end QueryPlan
