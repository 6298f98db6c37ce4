import Mathlib.Data.List.Chain
import QueryPlan.Proofs.Execution.Grouping
import QueryPlan.Proofs.Execution.Width
import QueryPlan.Proofs.Execution.Success
/-!
# Rows in order

Rows are in the order of a collation if no row comes after a later one. The order of rows looks at the
columns of the collation only, so whatever keeps these columns and the sequence of rows keeps the order.
Where the values of each column are ordered, rows compare as lists of numbers do and sorting sorts.
-/
namespace QueryPlan

open Execution OutcomeRow

theorem Row.mem_inColumn_of_not_isNull {rows : List Row} {row : Row} (hrow : row ∈ rows) {k : Nat}
    (h : (row.valueAt k).isNull = false) : row.valueAt k ∈ Row.inColumn rows k := by
  cases hk : row[k]? with
  | none =>
    rw [Row.valueAt, hk] at h
    cases h
  | some v =>
    rw [Row.valueAt_eq hk]
    exact Row.mem_inColumn.mpr ⟨row, hrow, hk⟩

namespace FieldCollation

theorem order_eq (fc : FieldCollation) (a b : Row) :
    fc.order a b = fc.orderValues (a.valueAt fc.field) (b.valueAt fc.field) := rfl

theorem orderValues_self (fc : FieldCollation) (v : Value) : fc.orderValues v v = .eq := by
  have hself : ∀ n, v.orderNulls v n = .eq := by
    intro n
    unfold Value.orderNulls
    cases v.isNull
    · exact Value.compare_self v
    · rfl
  unfold orderValues
  split <;> exact hself _

theorem orderValues_null (fc : FieldCollation) (hlast : fc.nulls = .last) (v : Value) :
    fc.orderValues v .null = if v.isNull then .eq else .lt := by
  unfold orderValues Value.orderNulls
  rw [hlast]
  cases fc.direction.isDescending <;> cases v.isNull <;> rfl

theorem compare_cast (m n : Nat) : compare m n = compare (m : Int) (n : Int) := by
  rcases Nat.lt_trichotomy m n with h | rfl | h
  · rw [Nat.compare_eq_lt.mpr h, Int.compare_eq_lt.mpr (by omega)]
  · rw [Nat.compare_eq_eq.mpr rfl, Int.compare_eq_eq.mpr rfl]
  · rw [Nat.compare_eq_gt.mpr h, Int.compare_eq_gt.mpr (by omega)]

theorem compare_neg (a b : Int) : compare (-b) (-a) = compare a b := by
  rcases Int.lt_trichotomy a b with h | rfl | h
  · rw [Int.compare_eq_lt.mpr h, Int.compare_eq_lt.mpr (by omega)]
  · rw [Int.compare_eq_eq.mpr rfl, Int.compare_eq_eq.mpr rfl]
  · rw [Int.compare_eq_gt.mpr h, Int.compare_eq_gt.mpr (by omega)]

/-- Values compare as numbers where nulls are given one beyond those of all other values. -/
theorem orderNulls_eq_compare (key : Value → Int) (bound : Int) {sign : Int}
    (hsign : sign = 1 ∨ sign = -1) {v w : Value} (hv : v.isNull = false → -bound ≤ key v ∧ key v ≤ bound)
    (hw : w.isNull = false → -bound ≤ key w ∧ key w ≤ bound)
    (hkey : v.isNull = false → w.isNull = false → compare v w = compare (key v) (key w)) :
    v.orderNulls w sign = compare (if v.isNull then sign * (bound + 1) else key v)
      (if w.isNull then sign * (bound + 1) else key w) := by
  unfold Value.orderNulls
  cases hvn : v.isNull <;> cases hwn : w.isNull <;>
    simp only [Bool.false_eq_true, if_true, if_false]
  · exact hkey hvn hwn
  · obtain ⟨hlow, hhigh⟩ := hv hvn
    rcases hsign with rfl | rfl
    · exact (Int.compare_eq_lt.mpr (by omega)).trans (Int.compare_eq_lt.mpr (by omega)).symm
    · exact (Int.compare_eq_gt.mpr (by omega)).trans (Int.compare_eq_gt.mpr (by omega)).symm
  · obtain ⟨hlow, hhigh⟩ := hw hwn
    rcases hsign with rfl | rfl
    · exact (Int.compare_eq_gt.mpr (by omega)).trans (Int.compare_eq_gt.mpr (by omega)).symm
    · exact (Int.compare_eq_lt.mpr (by omega)).trans (Int.compare_eq_lt.mpr (by omega)).symm
  · exact (Int.compare_eq_eq.mpr rfl).symm

/-- Values of a field compare as numbers, if they have an order. -/
theorem exists_places (fc : FieldCollation) {values : List Value} (h : Value.Ordered values) :
    ∃ place : Value → Int, ∀ v w, (v.isNull = false → v ∈ values) →
      (w.isNull = false → w ∈ values) → fc.orderValues v w = compare (place v) (place w) := by
  have hranks := h.ranks
  have hbound : ∀ v, (Value.below values v : Int) ≤ values.length := fun v =>
    Int.ofNat_le.mpr (List.length_filter_le _ _)
  have hsign : fc.nulls.nullComparison = 1 ∨ fc.nulls.nullComparison = -1 := by
    cases fc.nulls <;> simp [NullPlacement.nullComparison]
  have hrange : ∀ v, -(values.length : Int) ≤ Value.below values v ∧
      (Value.below values v : Int) ≤ values.length := fun v => ⟨by omega, hbound v⟩
  have hkey : ∀ v w, (v.isNull = false → v ∈ values) → (w.isNull = false → w ∈ values) →
      v.isNull = false → w.isNull = false →
        compare v w = compare (Value.below values v : Int) (Value.below values w) :=
    fun v w hv hw hvn hwn => (hranks v (hv hvn) w (hw hwn)).trans (compare_cast _ _)
  have horder : ∀ (sign : Int), sign = 1 ∨ sign = -1 → ∀ v w,
      (v.isNull = false → v ∈ values) → (w.isNull = false → w ∈ values) → v.orderNulls w sign =
        compare (if v.isNull then sign * (values.length + 1) else (Value.below values v : Int))
          (if w.isNull then sign * (values.length + 1) else (Value.below values w : Int)) :=
    fun sign hsign v w hv hw => orderNulls_eq_compare (fun u => (Value.below values u : Int))
      values.length hsign (fun _ => hrange v) (fun _ => hrange w) (hkey v w hv hw)
  cases hdirection : fc.direction.isDescending with
  | false =>
    refine ⟨fun v => if v.isNull then fc.nulls.nullComparison * (values.length + 1)
      else (Value.below values v : Int), fun v w hv hw => ?_⟩
    rw [orderValues, hdirection]
    exact horder _ hsign v w hv hw
  | true =>
    -- exchanging the values exchanges the signs of their numbers too
    refine ⟨fun v => -(if v.isNull then -fc.nulls.nullComparison * (values.length + 1)
      else (Value.below values v : Int)), fun v w hv hw => ?_⟩
    rw [orderValues, hdirection, ← compare_neg, Int.neg_neg, Int.neg_neg]
    exact horder _ (by omega) w v hw hv

end FieldCollation

namespace Collation

/-- No row comes after a later one. -/
def Orders (c : Collation) (rows : List Row) : Prop := rows.Pairwise fun a b => c.order a b ≠ .gt

/-- Every column of the collation is below an arity. -/
def Within (c : Collation) (arity : Nat) : Prop := ∀ k ∈ c.keys, k < arity

/-- The values of every column of the collation are ordered. -/
def OnOrdered (c : Collation) (rows : List Row) : Prop :=
  ∀ k ∈ c.keys, Value.Ordered (Row.inColumn rows k)

instance (c : Collation) (rows : List Row) : Decidable (c.Orders rows) :=
  inferInstanceAs (Decidable (rows.Pairwise fun a b => c.order a b ≠ .gt))

instance (c : Collation) (arity : Nat) : Decidable (c.Within arity) :=
  inferInstanceAs (Decidable (∀ k ∈ c.keys, k < arity))

instance (c : Collation) (rows : List Row) : Decidable (c.OnOrdered rows) :=
  inferInstanceAs (Decidable (∀ k ∈ c.keys, Value.Ordered (Row.inColumn rows k)))

variable {c : Collation} {rows : List Row}

theorem Orders.sublist {part : List Row} (h : c.Orders rows) (hpart : part.Sublist rows) :
    c.Orders part := List.Pairwise.sublist hpart h

theorem orders_nil : c.Orders [] := List.Pairwise.nil

/-- Rows that agree on the columns of a collation compare alike. -/
theorem order_congr {a a' b b' : Row} (ha : ∀ k ∈ c.keys, a'.valueAt k = a.valueAt k)
    (hb : ∀ k ∈ c.keys, b'.valueAt k = b.valueAt k) : c.order a' b' = c.order a b := by
  obtain ⟨fields⟩ := c
  unfold order keys at *
  induction fields with
  | nil => rfl
  | cons fc fields ih =>
    obtain ⟨hfirst, hrest⟩ := List.forall_mem_cons.mp ha
    obtain ⟨hfirst', hrest'⟩ := List.forall_mem_cons.mp hb
    rw [orderBy, orderBy, fc.order_eq, fc.order_eq, hfirst, hfirst', ih hrest hrest']

theorem order_self (c : Collation) (a : Row) : c.order a a = .eq := by
  obtain ⟨fields⟩ := c
  unfold order
  induction fields with
  | nil => rfl
  | cons fc fields ih => rw [orderBy, fc.order_eq, fc.orderValues_self, ih]; rfl

/-- Rows compare as lists of numbers, if the values of each column are ordered. -/
theorem OnOrdered.exists_places (h : c.OnOrdered rows) : ∃ places : Row → List Int,
    ∀ a ∈ rows, ∀ b ∈ rows, c.order a b = compare (places a) (places b) := by
  obtain ⟨fields⟩ := c
  unfold OnOrdered keys at h
  unfold order
  induction fields with
  | nil => exact ⟨fun _ => [], fun a _ b _ => rfl⟩
  | cons fc fields ih =>
    obtain ⟨hfirst, hrest⟩ := List.forall_mem_cons.mp h
    obtain ⟨place, hplace⟩ := fc.exists_places hfirst
    obtain ⟨places, hplaces⟩ := ih hrest
    refine ⟨fun row => place (row.valueAt fc.field) :: places row, fun a ha b hb => ?_⟩
    rw [orderBy, fc.order_eq, hplace _ _ (Row.mem_inColumn_of_not_isNull ha)
      (Row.mem_inColumn_of_not_isNull hb), hplaces a ha b hb]
    exact List.compareLex_cons_cons.symm

theorem ne_gt_iff {o : Ordering} : o ≠ .gt ↔ o.isLE = true := by cases o <;> decide

theorem isLE_compare_or (p q : List Int) : ((compare p q).isLE || (compare q p).isLE) = true := by
  rw [Std.OrientedOrd.eq_swap (a := q)]
  cases compare p q <;> rfl

/-- Rows are sorted as the lists of numbers are that they compare as. -/
theorem OnOrdered.exists_sort_eq (h : c.OnOrdered rows) : ∃ places : Row → List Int,
    (∀ a ∈ rows, ∀ b ∈ rows, c.order a b = compare (places a) (places b)) ∧
      c.sort rows = rows.mergeSort fun a b => (compare (places a) (places b)).isLE := by
  obtain ⟨places, hplaces⟩ := h.exists_places
  refine ⟨places, hplaces, ?_⟩
  have hmap := @List.map_mergeSort _ _ (fun a b => c.order a b != .gt)
    (fun a b => (compare (places a) (places b)).isLE) id rows fun a ha b hb => by
      rw [Bool.eq_iff_iff, bne_iff_ne, ne_gt_iff, hplaces a ha b hb]
      rfl
  rwa [List.map_id, List.map_id] at hmap

/-- Rows sorted by a collation are in its order. -/
theorem orders_sort (h : c.OnOrdered rows) : c.Orders (c.sort rows) := by
  obtain ⟨places, hplaces, hsort⟩ := h.exists_sort_eq
  have hpairwise := @List.pairwise_mergeSort _ (fun a b => (compare (places a) (places b)).isLE)
    (fun _ _ _ => Std.TransCmp.isLE_trans) (fun a b => isLE_compare_or (places a) (places b)) rows
  rw [hsort]
  refine hpairwise.imp_of_mem fun {a b} ha hb hab => ?_
  rw [hplaces a (List.mem_mergeSort.mp ha) b (List.mem_mergeSort.mp hb), ne_gt_iff]
  exact hab

/-- It is enough that no row comes after the next one. -/
theorem orders_of_isChain (h : c.OnOrdered rows)
    (hchain : rows.IsChain fun a b => c.order a b ≠ .gt) : c.Orders rows := by
  obtain ⟨places, hplaces⟩ := h.exists_places
  have htrans : IsTrans Row fun a b => (compare (places a) (places b)).isLE = true :=
    ⟨fun _ _ _ => Std.TransCmp.isLE_trans⟩
  have hiff : ∀ a b, a ∈ rows → b ∈ rows →
      (c.order a b ≠ .gt ↔ (compare (places a) (places b)).isLE = true) := fun a b ha hb => by
    rw [hplaces a ha b hb, ne_gt_iff]
  have hpairwise := List.isChain_iff_pairwise.mp
    (hchain.imp_of_mem_imp fun a b ha hb => (hiff a b ha hb).mp)
  exact hpairwise.imp_of_mem fun {a b} ha hb => (hiff a b ha hb).mpr

/-! ## Rows that keep their columns -/

/-- Rows whose columns have values of other rows, in the sequence of these. -/
theorem Orders.map {f : Row → Row} {d : Collation} (h : c.Orders rows)
    (hf : ∀ a ∈ rows, ∀ b ∈ rows, d.order (f a) (f b) = c.order a b) : d.Orders (rows.map f) := by
  rw [Orders, List.pairwise_map]
  exact List.Pairwise.imp_of_mem (fun {a b} ha hb hab => by rwa [hf a ha b hb]) h

/-- Rows that extend other rows, which each may be extended in several ways. -/
theorem Orders.extend {n : Nat} (h : c.Orders rows) (extensions : Row → List Row)
    (hwidth : HaveWidth n rows) (hc : c.Within n)
    (hextend : ∀ row ∈ rows, ∀ longer ∈ extensions row, row <+: longer) :
    c.Orders (rows.flatMap extensions) := by
  have hvalues : ∀ row ∈ rows, ∀ longer ∈ extensions row, ∀ k ∈ c.keys,
      longer.valueAt k = row.valueAt k := by
    intro row hrow longer hlonger k hk
    obtain ⟨rest, rfl⟩ := hextend row hrow longer hlonger
    exact Row.valueAt_append_left (by rw [hwidth row hrow]; exact hc k hk) rest
  rw [Orders, List.pairwise_flatMap]
  refine ⟨fun row hrow => ?_, h.imp_of_mem fun {a b} ha hb hab x hx y hy => ?_⟩
  · refine List.pairwise_of_forall_mem_list fun x hx y hy => ?_
    rw [order_congr (hvalues row hrow x hx) (hvalues row hrow y hy), order_self]
    nofun
  · rwa [order_congr (hvalues a ha x hx) (hvalues b hb y hy)]

/-- Nulls in all columns come last where every field has them last. -/
theorem Orders.append_nulls {nulls : List Row} (h : c.Orders rows)
    (hlast : ∀ fc ∈ c.fields, fc.nulls = .last)
    (hnulls : ∀ row ∈ nulls, ∀ k ∈ c.keys, row.valueAt k = .null) : c.Orders (rows ++ nulls) := by
  have horder : ∀ (a : Row), ∀ b ∈ nulls, c.order a b ≠ .gt := by
    intro a b hb
    have hvalues := hnulls b hb
    clear h hnulls
    obtain ⟨fields⟩ := c
    unfold order keys at *
    dsimp only at hlast hvalues ⊢
    induction fields with
    | nil => nofun
    | cons fc fields ih =>
      obtain ⟨hnull, hrest⟩ := List.forall_mem_cons.mp hvalues
      obtain ⟨hfirst, hlast⟩ := List.forall_mem_cons.mp hlast
      rw [orderBy, fc.order_eq, hnull, fc.orderValues_null hfirst]
      split
      · exact ih hlast hrest
      · nofun
  rw [Orders, List.pairwise_append]
  exact ⟨h, List.pairwise_of_forall_mem_list fun a _ b hb => horder a b hb, fun a _ b hb => horder a b hb⟩

/-! ## Rows of operators -/

theorem Orders.filterRows {condition : Expr} {kept : List Row} (h : c.Orders rows)
    (hrows : Execution.filterRows condition rows = .ok kept) : c.Orders kept := by
  rw [(filterRows_eq_ok_iff.mp hrows).2]
  exact h.sublist List.filter_sublist

theorem orders_sortRows {offset : Nat} {fetch : Option Nat} {sorted : List Row}
    (h : c.OnOrdered rows) (hrows : sortRows c offset fetch rows = .ok sorted) :
    c.Orders sorted := (orders_sort h).sublist (sortRows_sublist hrows)

theorem Orders.semiJoinRows {condition : Expr} {rights kept : List Row} (h : c.Orders rows)
    (hrows : Execution.semiJoinRows condition rights rows = .ok kept) : c.Orders kept := by
  rw [semiJoinRows_eq_filter hrows]
  exact h.sublist List.filter_sublist

section

variable {m n : Nat} {lefts rights : List Row} (h : c.Orders lefts) (hwidth : HaveWidth m lefts)
  (hc : c.Within m)

include h hwidth hc

/-- A join keeps the order of its left rows if right rows that are padded fit in at the end. -/
theorem Orders.joinRows {joinType : JoinType} {condition : Expr} {rows : List Row}
    (hlast : joinType.padsLeft = true → ∀ fc ∈ c.fields, fc.nulls = .last)
    (hrows : Execution.joinRows joinType condition m n lefts rights = .ok rows) :
    c.Orders rows := by
  rw [joinRows_eq_joined hrows, joined]
  have hmatched := h.extend
    (fun left => if joinType.padsRight && !rights.any (meets condition left)
      then [left ++ Row.nulls n] else (rights.filter (meets condition left)).map (left ++ ·))
    hwidth hc fun left _ row hrow => by
      split at hrow
      · rw [List.mem_singleton.mp hrow]
        exact List.prefix_append _ _
      · obtain ⟨right, -, rfl⟩ := List.mem_map.mp hrow
        exact List.prefix_append _ _
  split
  · next hpads =>
    refine hmatched.append_nulls (hlast hpads) fun row hrow k hk => ?_
    obtain ⟨right, -, rfl⟩ := List.mem_map.mp hrow
    rw [Row.valueAt_append_left (by rw [Row.length_nulls]; exact hc k hk), Row.valueAt, Row.nulls,
      List.getElem?_replicate]
    split <;> rfl
  · rwa [List.append_nil]

theorem Orders.correlateRows (joinType : CorrelateType) :
    c.Orders (Execution.correlateRows joinType n lefts rights) := by
  have hpairs : c.Orders (lefts.flatMap fun left => rights.map (left ++ ·)) :=
    h.extend _ hwidth hc fun left _ row hrow => by
      obtain ⟨right, -, rfl⟩ := List.mem_map.mp hrow
      exact List.prefix_append _ _
  cases joinType with
  | inner => exact hpairs
  | left =>
    unfold Execution.correlateRows
    dsimp only
    split
    · rw [List.map_eq_flatMap]
      exact h.extend _ hwidth hc fun left _ row hrow => by
        rw [List.mem_singleton.mp hrow]
        exact List.prefix_append _ _
    · exact hpairs
  | semi =>
    unfold Execution.correlateRows
    dsimp only
    split
    · exact orders_nil
    · exact h
  | anti =>
    unfold Execution.correlateRows
    dsimp only
    split
    · exact h
    · exact orders_nil

end

/-! ## Leading fields -/

theorem orderBy_append (fields fields' : List FieldCollation) (a b : Row) :
    orderBy (fields ++ fields') a b = (orderBy fields a b).then (orderBy fields' a b) := by
  induction fields with
  | nil => rfl
  | cons f fields ih => rw [List.cons_append, orderBy, orderBy, ih, Ordering.then_assoc]

/-- Part of a collation, its first fields. -/
def leading (c : Collation) (n : Nat) : Collation := ⟨c.fields.take n⟩

theorem order_eq_then (c : Collation) (n : Nat) (a b : Row) :
    c.order a b = ((c.leading n).order a b).then (orderBy (c.fields.drop n) a b) := by
  rw [order, order, leading, ← orderBy_append, List.take_append_drop]

theorem leading_ne_gt {c : Collation} {a b : Row} (h : c.order a b ≠ .gt) (n : Nat) :
    (c.leading n).order a b ≠ .gt := by
  rw [c.order_eq_then n] at h
  intro hgt
  rw [hgt] at h
  exact h rfl

/-- Where rows can be compared, the first field that separates them is reached no later with fewer fields. -/
theorem canCompare_leading {c : Collation} {a b : Row} (h : c.canCompare a b = true) (n : Nat) :
    (c.leading n).canCompare a b = true := by
  obtain ⟨fields⟩ := c
  unfold canCompare leading at *
  induction fields generalizing n with
  | nil => rw [List.take_nil]; rfl
  | cons fc fields ih =>
    cases n with
    | zero => rfl
    | succ n =>
      rw [canCompareBy, Bool.and_eq_true, Bool.or_eq_true] at h
      rw [List.take_succ_cons, canCompareBy, Bool.and_eq_true, Bool.or_eq_true]
      exact ⟨h.1, h.2.imp_right fun hrest => ih n hrest⟩

/-! ## Judging by neighbours -/

/-- Rows are found to be sorted if each can be compared with the next one and does not come after it. -/
theorem sorts?_eq_some_true_iff : c.sorts? rows = some true ↔
    rows.IsChain fun a b => c.canCompare a b = true ∧ c.order a b ≠ .gt := by
  induction rows with
  | nil => exact iff_of_true rfl List.isChain_nil
  | cons a rows ih =>
    cases rows with
    | nil => exact iff_of_true rfl (List.isChain_singleton a)
    | cons b rows =>
      rw [sorts?, List.isChain_cons_cons, ← ih]
      split
      · next hcompare => simp_all
      · split
        · next hgt => simp_all
        · next hcompare hgt => simp_all

theorem isChain_of_sorts? (h : c.sorts? rows = some true) :
    rows.IsChain fun a b => c.order a b ≠ .gt :=
  (sorts?_eq_some_true_iff.mp h).imp fun _ _ hab => hab.2

end Collation

end QueryPlan
