import QueryPlan.Proofs.Decimal.Dyadic
import QueryPlan.Proofs.Expr.Conjunction
/-!
# When equal expressions are the same

Expressions are equal if they compare as equal, and literals compare as values do, so that an integer
equals the double of the same value. Where all literals avoid one of the two kinds of number,
expressions are equal only if they are the same.
-/
namespace QueryPlan

theorem Double.eq_of_order {a b : Float} (h : Double.order a b = .eq) : a = b := by
  have hkey : Double.orderKey a = Double.orderKey b := Std.LawfulEqOrd.eq_of_compare h
  apply Double.eq_of_bits
  unfold Double.orderKey at hkey
  dsimp only at hkey
  split at hkey <;> split at hkey <;> omega

theorem DataType.eq_of_compare {t u : DataType} (h : compare t u = .eq) : t = u := by
  have hrank : t.rank = u.rank := Std.LawfulEqOrd.eq_of_compare h
  cases t <;> cases u <;> first | rfl | cases hrank

theorem Op.all_rank (op : Op) : Op.all[op.rank]? = some op := by cases op <;> rfl

theorem Op.eq_of_compare {op op' : Op} (h : compare op op' = .eq) : op = op' := by
  have hrank : op.rank = op'.rank := Std.LawfulEqOrd.eq_of_compare h
  have hall := op.all_rank
  rw [hrank, op'.all_rank] at hall
  exact (Option.some.inj hall).symm

theorem orderNames_eq {as bs : List String} (h : orderNames as bs = .eq) : as = bs := by
  induction as generalizing bs with
  | nil =>
    cases bs with
    | nil => rfl
    | cons b bs => cases h
  | cons a as ih =>
    cases bs with
    | nil => cases h
    | cons b bs =>
      obtain ⟨hhead, htail⟩ := Ordering.then_eq_eq.mp h
      rw [Std.LawfulEqOrd.eq_of_compare hhead, ih htail]

theorem TableRef.eq_of_compare {r r' : TableRef} (h : compare r r' = .eq) : r = r' := by
  obtain ⟨hname, hentity⟩ := Ordering.then_eq_eq.mp h
  cases r
  cases r'
  cases orderNames_eq hname
  cases Std.LawfulEqOrd.eq_of_compare hentity
  rfl

namespace Value

/-- One of the kinds of number does not occur among some values. -/
def SeparatesNumbers (lacks : DataType) : Prop := lacks = .bigint ∨ lacks = .double

/-- Values without one kind of number that compare as equal are the same. -/
theorem eq_of_compare {lacks : DataType} (hlacks : SeparatesNumbers lacks) {v w : Value}
    (hv : v.dataType ≠ lacks) (hw : w.dataType ≠ lacks) (h : compare v w = .eq) : v = w := by
  have horder : order v w = .eq := h
  cases v with
  | null => cases w <;> first | rfl | cases horder
  | boolean a =>
    cases w with
    | boolean b => cases a <;> cases b <;> first | rfl | cases horder
    | _ => cases horder
  | integer a =>
    cases w with
    | integer b =>
      have hint : a.toInt = b.toInt := Std.LawfulEqOrd.eq_of_compare horder
      rw [Int64.toInt_inj.mp hint]
    | double b => rcases hlacks with rfl | rfl <;> simp [dataType] at hv hw
    | _ => cases horder
  | double a =>
    cases w with
    | integer b => rcases hlacks with rfl | rfl <;> simp [dataType] at hv hw
    | double b => rw [Double.eq_of_order horder]
    | _ => cases horder
  | varchar a =>
    cases w with
    | varchar b =>
      have hstring : a = b := Std.LawfulEqOrd.eq_of_compare horder
      rw [hstring]
    | _ => cases horder

theorem compare_self (v : Value) : compare v v = .eq := by
  show order v v = .eq
  cases v with
  | null => rfl
  | boolean b =>
    show compare b.toNat b.toNat = .eq
    exact Std.ReflCmp.compare_self
  | integer i =>
    show compare i.toInt i.toInt = .eq
    exact Std.ReflCmp.compare_self
  | double d =>
    show compare (Double.orderKey d) (Double.orderKey d) = .eq
    exact Std.ReflCmp.compare_self
  | varchar s =>
    show compare s s = .eq
    exact Std.ReflCmp.compare_self

/-- Values of one type that compare as equal are the same. -/
theorem eq_of_dataType {v w : Value} (htype : v.dataType = w.dataType) (h : compare v w = .eq) :
    v = w := by
  by_cases hv : v.dataType = .bigint
  · have hw : w.dataType = .bigint := htype ▸ hv
    exact eq_of_compare (.inr rfl) (by rw [hv]; simp) (by rw [hw]; simp) h
  · exact eq_of_compare (.inl rfl) hv (htype ▸ hv) h

/-- Values are the same if they are of one type and compare as equal. -/
def decidableEq (v w : Value) : Decidable (v = w) :=
  decidable_of_iff (v.dataType = w.dataType ∧ compare v w = .eq) <| by
    constructor
    · rintro ⟨htype, h⟩
      exact eq_of_dataType htype h
    · rintro rfl
      exact ⟨rfl, compare_self v⟩

end Value

instance (rows rows' : List Row) : Decidable (rows = rows') :=
  @instDecidableEqList Row (@instDecidableEqList Value Value.decidableEq) rows rows'

namespace Expr

mutual

/-- The literals of an expression. -/
def literals : Expr → List Value
  | literal v => [v]
  | apply _ es _ => literalsOf es
  | _ => []

/-- The literals of the expressions of a list. -/
def literalsOf : List Expr → List Value
  | [] => []
  | e :: es => literals e ++ literalsOf es

end

theorem literalsOf_eq (es : List Expr) : literalsOf es = es.flatMap literals := by
  induction es with
  | nil => rfl
  | cons e es ih => simp [literalsOf, ih]

/-- No literal of the expression is of that type. -/
def Lacks (t : DataType) (e : Expr) : Prop := ∀ v ∈ e.literals, v.dataType ≠ t

instance (t : DataType) (e : Expr) : Decidable (e.Lacks t) :=
  inferInstanceAs (Decidable (∀ v ∈ e.literals, v.dataType ≠ t))

theorem lacks_apply {t : DataType} {op : Op} {es : List Expr} {u : DataType} :
    (apply op es u).Lacks t ↔ ∀ e ∈ es, e.Lacks t := by
  unfold Lacks
  rw [literals, literalsOf_eq]
  simp only [List.mem_flatMap, forall_exists_index, and_imp]
  exact ⟨fun h e he v hv => h v e he hv, fun h v e he hv => h e he v hv⟩

theorem lacks_column {t : DataType} (i : Nat) (u : DataType) : (column i u).Lacks t := by
  simp [Lacks, literals]

/-! ## Equality -/

section

variable {lacks : DataType} (hlacks : Value.SeparatesNumbers lacks)

include hlacks

omit hlacks in
theorem eq_of_orderLists {es es' : List Expr}
    (ih : ∀ e ∈ es, ∀ {e' : Expr}, e.Lacks lacks → e'.Lacks lacks → order e e' = .eq → e = e')
    (hes : ∀ e ∈ es, e.Lacks lacks) (hes' : ∀ e ∈ es', e.Lacks lacks)
    (h : orderLists es es' = .eq) : es = es' := by
  induction es generalizing es' with
  | nil =>
    cases es' with
    | nil => rfl
    | cons e' es' => cases h
  | cons e es ihes =>
    cases es' with
    | nil => cases h
    | cons e' es' =>
      rw [List.forall_mem_cons] at ih hes hes'
      rw [orderLists, Ordering.then_eq_eq] at h
      rw [ih.1 hes.1 hes'.1 h.1, ihes ih.2 hes.2 hes'.2 h.2]

theorem eq_of_order {e e' : Expr} (he : e.Lacks lacks) (he' : e'.Lacks lacks)
    (h : order e e' = .eq) : e = e' := by
  induction e using induct generalizing e' with
  | column i t =>
    cases e' with
    | column j u =>
      rw [order, Ordering.then_eq_eq] at h
      rw [Std.LawfulEqOrd.eq_of_compare h.1, DataType.eq_of_compare h.2]
    | _ => cases h
  | literal v =>
    cases e' with
    | literal w =>
      rw [Value.eq_of_compare hlacks (he v (by simp [literals])) (he' w (by simp [literals])) h]
    | _ => cases h
  | apply op es t ih =>
    cases e' with
    | apply op' es' t' =>
      rw [order, Ordering.then_eq_eq, Ordering.then_eq_eq] at h
      obtain ⟨hop, hes, ht⟩ := h
      rw [Op.eq_of_compare hop, DataType.eq_of_compare ht,
        eq_of_orderLists (fun e hmem _ h h' => ih e hmem h h') (lacks_apply.mp he)
          (lacks_apply.mp he') hes]
    | _ => cases h
  | tableColumn r i t =>
    cases e' with
    | tableColumn r' i' t' =>
      rw [order, Ordering.then_eq_eq, Ordering.then_eq_eq] at h
      obtain ⟨hr, hi, ht⟩ := h
      rw [TableRef.eq_of_compare hr, Std.LawfulEqOrd.eq_of_compare hi, DataType.eq_of_compare ht]
    | _ => cases h

theorem eq_of_beq {e e' : Expr} (he : e.Lacks lacks) (he' : e'.Lacks lacks)
    (h : (e == e') = true) : e = e' := by
  have horder : (order e e' == .eq) = true := h
  exact eq_of_order hlacks he he' (by simpa using horder)

end

/-! ## Literals of changed expressions -/

theorem lacks_mapColumns {lacks : DataType} {f : Nat → DataType → Expr} {e : Expr}
    (hf : ∀ i ∈ e.columnList, ∀ t, (f i t).Lacks lacks) (he : e.Lacks lacks) :
    (e.mapColumns f).Lacks lacks := by
  induction e using induct with
  | column i t => exact hf i (by simp [columnList]) t
  | literal v => exact he
  | apply op es t ih =>
    rw [mapColumns, mapColumnsEach_eq, lacks_apply]
    intro k hk
    obtain ⟨e, hmem, rfl⟩ := List.mem_map.mp hk
    exact ih e hmem (fun i hi => hf i (mem_columnList_apply.mpr ⟨e, hmem, hi⟩))
      (lacks_apply.mp he e hmem)
  | tableColumn r i t => exact he

theorem lacks_throughProjection {lacks : DataType} {projected : List Expr} {e e' : Expr}
    (h : e.throughProjection? projected = some e') (hprojected : ∀ p ∈ projected, p.Lacks lacks)
    (he : e.Lacks lacks) : e'.Lacks lacks := by
  obtain ⟨rfl, hcolumns⟩ := mapColumns?_eq_some h
  refine lacks_mapColumns (fun i hi t => ?_) he
  obtain ⟨-, p, hp⟩ := hcolumns i hi
  rw [hp, Option.getD_some]
  exact hprojected p (List.mem_of_getElem? hp)

theorem lacks_of_mem_conjuncts {lacks : DataType} {e k : Expr} (he : e.Lacks lacks)
    (hk : k ∈ e.conjuncts) : k.Lacks lacks := by
  induction e using induct_and with
  | and es t ih =>
    rw [conjuncts_apply_and] at hk
    obtain ⟨e, hmem, hk⟩ := List.mem_flatMap.mp hk
    exact ih e hmem (lacks_apply.mp he e hmem) hk
  | other e hother =>
    rw [conjuncts_of_not_and hother] at hk
    split at hk
    · cases hk
    · rw [List.mem_singleton.mp hk]
      exact he

theorem lacks_conjunction? {lacks : DataType} (hlacks : Value.SeparatesNumbers lacks)
    {ps : List Expr} {e : Expr} (hps : ∀ p ∈ ps, p.Lacks lacks) (h : conjunction? ps = some e) :
    e.Lacks lacks := by
  have hparts : ∀ k ∈ conjunctsOf ps, k.Lacks lacks := by
    intro k hk
    rw [conjunctsOf_eq] at hk
    obtain ⟨p, hp, hk⟩ := List.mem_flatMap.mp hk
    exact lacks_of_mem_conjuncts (hps p hp) hk
  unfold conjunction? at h
  dsimp only at h
  split at h
  · cases h
    rcases hlacks with rfl | rfl <;> simp [Lacks, bool, literals, Value.dataType]
  · split at h
    · cases h
    · next k hk =>
      cases h
      exact hparts e (by simp [hk])
    · cases h
      exact lacks_apply.mpr hparts

end Expr

end QueryPlan
