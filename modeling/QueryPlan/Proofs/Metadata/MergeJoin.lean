import QueryPlan.Proofs.Expr.Equated
import QueryPlan.Proofs.Metadata.Orders
/-!
# Collations of merge joins

A merge join reports the collations of its left input and those of its right input, moved past the
left columns. The rows of a join follow the left rows, and right rows that are padded come last, so
that a left collation holds unless these have to come first. A right collation holds only as far as
the left rows steer the right ones: its leading fields are equated with those of a left collation, in
the same directions, and if it has more fields, no two left rows are equal on those. Where rows are
padded with nulls in between, it need not hold at all.
-/
namespace QueryPlan

open Execution

namespace FieldCollation

/-- Rows that equate two fields in the same direction compare alike on them. -/
theorem order_of_equates {f g : FieldCollation} {values : List Value} (hvalues : Value.Ordered values)
    (hdirection : f.direction.isDescending = g.direction.isDescending) {a b a' b' : Row}
    (hmem : ∀ v ∈ [a.valueAt f.field, b.valueAt f.field, a'.valueAt g.field, b'.valueAt g.field],
      v ∈ values)
    (ha : (a.valueAt f.field).Equates (a'.valueAt g.field))
    (hb : (b.valueAt f.field).Equates (b'.valueAt g.field)) : f.order a b = g.order a' b' := by
  have hranks := hvalues.ranks
  simp only [List.forall_mem_cons, List.not_mem_nil, false_implies, implies_true, and_true] at hmem
  obtain ⟨hfa, hfb, hga, hgb⟩ := hmem
  have hcompare : ∀ {v w v' w' : Value}, v ∈ values → w ∈ values → v' ∈ values → w' ∈ values →
      v.Equates v' → w.Equates w' → compare v w = compare v' w' := by
    intro v w v' w' hv hw hv' hw' hvv hww
    rw [hranks v hv w hw, hranks v' hv' w' hw', Value.below_eq hvalues hv hv' hvv.2.2,
      Value.below_eq hvalues hw hw' hww.2.2]
  rw [order_eq, order_eq, orderValues, orderValues, hdirection]
  unfold Value.orderNulls
  rw [ha.1, ha.2.1, hb.1, hb.2.1]
  split
  · exact hcompare hfb hfa hgb hga hb ha
  · exact hcompare hfa hfb hga hgb ha hb

end FieldCollation

namespace Collation

/-- Moved past the columns of another row, a collation compares the rows behind it. -/
theorem order_shift {c : Collation} {m n : Nat} (hwords : m + n ≤ UInt64.size) (hc : c.Within n)
    {left left' : Row} (hleft : left.length = m) (hleft' : left'.length = m) (a b : Row) :
    (c.shift m).order (left ++ a) (left' ++ b) = c.order a b := by
  obtain ⟨fields⟩ := c
  unfold Within keys at hc
  unfold order shift
  dsimp only at hc ⊢
  induction fields with
  | nil => rfl
  | cons f fields ih =>
    obtain ⟨hf, hfields⟩ := List.forall_mem_cons.mp hc
    have hlt : f.field < n := hf
    have hfield : (f.shift m).field = m + f.field := by
      rw [FieldCollation.shift, Expr.shiftOrdinal_of_lt (by omega) (by omega)]
      dsimp only
      omega
    have hvalue : ∀ {l r : Row}, l.length = m → (l ++ r).valueAt (m + f.field) = r.valueAt f.field := by
      rintro l r rfl
      rw [Row.valueAt, Row.valueAt, List.getElem?_append_right (Nat.le_add_right _ _),
        Nat.add_sub_cancel_left]
    rw [List.map_cons, orderBy, orderBy, ih hfields, FieldCollation.order_eq, FieldCollation.order_eq,
      hfield, hvalue hleft, hvalue hleft']
    rfl

/-- The left rows of a join steer the right rows in the order of a collation: its first fields are
keys that the join equates with the first fields of a collation of the left rows, in the same
directions and with ordered values; and these are all of its fields, or no two left rows are equal on
them. -/
structure Steers (info : JoinInfo) (lefts rights : List Row) (k d : Collation) (n : Nat) : Prop where
  keys : List.Forall₂ (fun f g : FieldCollation =>
    (f.field, g.field) ∈ info.leftKeys.zip info.rightKeys ∧
      f.direction.isDescending = g.direction.isDescending ∧
      Value.Ordered (Row.inColumn lefts f.field ++ Row.inColumn rights g.field))
    (k.leading n).fields (d.leading n).fields
  rest : d.fields.length ≤ n ∨ lefts.Pairwise fun a b => (k.leading n).order a b ≠ .eq

section

variable {info : JoinInfo} {condition : Expr} {lefts rights : List Row} {k d : Collation} {m n i : Nat}

/-- Right rows that left rows are joined with compare as these do, on the fields that are equated. -/
theorem Steers.order_leading (h : Steers info lefts rights k d i)
    (hinfo : JoinInfo.of? condition m = some info) (hlefts : HaveWidth m lefts) {a b a' b' : Row}
    (ha : a ∈ lefts) (hb : b ∈ lefts) (ha' : a' ∈ rights) (hb' : b' ∈ rights)
    (haa : meets condition a a' = true) (hbb : meets condition b b' = true) :
    (k.leading i).order a b = (d.leading i).order a' b' := by
  have hequates : ∀ {l r : Row} {f g : FieldCollation}, l ∈ lefts → meets condition l r = true →
      (f.field, g.field) ∈ info.leftKeys.zip info.rightKeys →
      (l.valueAt f.field).Equates (r.valueAt g.field) := by
    intro l r f g hl hmeets hkey
    have hinfo' : JoinInfo.of? condition l.length = some info := by rwa [hlefts l hl]
    exact JoinInfo.equates_of_holdsOn hinfo' hkey (by rw [List.map_append]; exact hmeets)
  have hkeys := h.keys
  unfold order
  generalize (k.leading i).fields = fields at hkeys ⊢
  generalize (d.leading i).fields = fields' at hkeys ⊢
  induction hkeys with
  | nil => rfl
  | @cons f g _ _ hfg _ ih =>
    obtain ⟨hkey, hdirection, hordered⟩ := hfg
    have hfa := hequates ha haa hkey
    have hfb := hequates hb hbb hkey
    rw [orderBy, orderBy, ih]
    congr 1
    refine FieldCollation.order_of_equates hordered hdirection ?_ hfa hfb
    simp only [List.forall_mem_cons, List.not_mem_nil, false_implies, implies_true, and_true,
      List.mem_append]
    exact ⟨.inl (Row.mem_inColumn_of_not_isNull ha hfa.1), .inl (Row.mem_inColumn_of_not_isNull hb hfb.1),
      .inr (Row.mem_inColumn_of_not_isNull ha' hfa.2.1), .inr (Row.mem_inColumn_of_not_isNull hb' hfb.2.1)⟩

/-- Every row that a join keeps without a match has one. -/
structure Unpadded (joinType : JoinType) (condition : Expr) (lefts rights : List Row) : Prop where
  left : joinType.padsRight = true → ∀ l ∈ lefts, rights.any (meets condition l) = true
  right : joinType.padsLeft = true → ∀ r ∈ rights, lefts.any (meets condition · r) = true

theorem Unpadded.joinRows {joinType : JoinType} {rows : List Row}
    (h : Unpadded joinType condition lefts rights)
    (hrows : Execution.joinRows joinType condition m n lefts rights = .ok rows) :
    rows = lefts.flatMap fun l => (rights.filter (meets condition l)).map (l ++ ·) := by
  rw [joinRows_eq_joined hrows, joined]
  have hlefts : ∀ l ∈ lefts, (if joinType.padsRight && !rights.any (meets condition l)
      then [l ++ Row.nulls n] else (rights.filter (meets condition l)).map (l ++ ·)) =
      (rights.filter (meets condition l)).map (l ++ ·) := by
    intro l hl
    rw [if_neg]
    simp only [Bool.and_eq_true, Bool.not_eq_true', not_and, Bool.not_eq_false]
    exact fun hpads => h.left hpads l hl
  have hrights : (if joinType.padsLeft then
      (rights.filter fun r => !lefts.any (meets condition · r)).map (Row.nulls m ++ ·) else []) = [] := by
    split
    · next hpads =>
      rw [List.map_eq_nil_iff, List.filter_eq_nil_iff]
      intro r hr
      rw [h.right hpads r hr]
      decide
    · rfl
  rw [hrights, List.append_nil]
  exact List.flatMap_congr hlefts

/-- A collation of the right rows that the left rows steer is one of the join, moved past the left
columns, unless rows are padded. -/
theorem Steers.orders {joinType : JoinType} {rows : List Row} (h : Steers info lefts rights k d i)
    (hinfo : JoinInfo.of? condition m = some info) (hlefts : HaveWidth m lefts)
    (hwords : m + n ≤ UInt64.size) (hk : k.Orders lefts) (hwithin : d.Within n) (hd : d.Orders rights)
    (hunpadded : Unpadded joinType condition lefts rights)
    (hrows : Execution.joinRows joinType condition m n lefts rights = .ok rows) :
    (d.shift m).Orders rows := by
  rw [hunpadded.joinRows hrows, Orders, List.pairwise_flatMap]
  constructor
  · -- right rows of one left row are in the order of all right rows
    intro l hl
    rw [List.pairwise_map]
    refine (hd.sublist List.filter_sublist).imp fun {a b} hab => ?_
    rwa [order_shift hwords hwithin (hlefts l hl) (hlefts l hl)]
  · -- right rows of two left rows compare as these, and further only if no two left rows are equal
    have hrest : lefts.Pairwise fun a b => d.fields.length ≤ i ∨ (k.leading i).order a b ≠ .eq := by
      rcases h.rest with hall | hdistinct
      · exact List.pairwise_of_forall fun _ _ => .inl hall
      · exact hdistinct.imp .inr
    refine (List.pairwise_and_iff.mpr ⟨hk, hrest⟩).imp_of_mem fun {a b} ha hb hab x hx y hy => ?_
    obtain ⟨a', ha', rfl⟩ := List.mem_map.mp hx
    obtain ⟨b', hb', rfl⟩ := List.mem_map.mp hy
    obtain ⟨ha', haa⟩ := List.mem_filter.mp ha'
    obtain ⟨hb', hbb⟩ := List.mem_filter.mp hb'
    rw [order_shift hwords hwithin (hlefts a ha) (hlefts b hb), d.order_eq_then i,
      ← h.order_leading hinfo hlefts ha hb ha' hb' haa hbb]
    have hne := leading_ne_gt hab.1 i
    cases hlead : (k.leading i).order a b with
    | lt => exact fun hgt => by cases hgt
    | gt => exact absurd hlead hne
    | eq =>
      rcases hab.2 with hall | hdistinct
      · rw [List.drop_eq_nil_of_le hall]
        exact fun hgt => by cases hgt
      · exact absurd hlead hdistinct

end

end Collation

namespace CollationsMethod

open Querying

variable {c : Cluster} {ask : Asking} {id left right : NodeId} {joinType : JoinType}
  {condition : Expr} {m : Memory} {cs : List Collation} {lefts rights rows : List Row}

/-- The collations that a merge join reports, if it finds its inputs sorted on their keys. -/
theorem exists_of_ofMergeJoin (hinputs : c.inputs id = [left, right])
    (h : ((ofMergeJoin c ask id condition).run m).1 = .ok cs) : ∃ info ks ds,
      JoinInfo.of? condition (c.arity left) = some info ∧
      ((ask.collations left).run m).1 = .ok ks ∧
      ((ask.collations right).run ((ask.collations left).run m).2).1 = .ok ds ∧
      cs = ks ++ ds.map (·.shift (c.arity left)) := by
  have hleft : c.input? id 0 = some left := by rw [Cluster.input?, hinputs]; rfl
  have hright : c.input? id 1 = some right := by rw [Cluster.input?, hinputs]; rfl
  unfold ofMergeJoin input at h
  obtain ⟨l, hl, h⟩ := run_bind_eq_ok.mp h
  cases hleft.symm.trans (run_ofOption.mp hl)
  rw [run_ofOption_snd] at h
  obtain ⟨r, hr, h⟩ := run_bind_eq_ok.mp h
  cases hright.symm.trans (run_ofOption.mp hr)
  rw [run_ofOption_snd] at h
  obtain ⟨info, hinfo, h⟩ := run_bind_eq_ok.mp h
  rw [run_ofOption_snd] at h
  obtain ⟨ks, hks, h⟩ := run_bind_eq_ok.mp h
  split at h
  · cases h
  · obtain ⟨ds, hds, h⟩ := run_bind_eq_ok.mp h
    split at h
    · cases h
    · cases h
      exact ⟨info, ks, ds, run_ofOption.mp hinfo, hks, hds, rfl⟩

/-- Of the collations that a merge join reports, where all that are reported of its inputs are orders of
their rows: a left one is an order of the joined rows, if it has nulls last or no right rows are padded;
a right one, moved past the left columns, is an order of the joined rows, if no rows are padded and
left rows in the order of some left collation steer the right ones. -/
theorem mergeJoin_orders (hid : id < c.size) (hchecked : c.Checked id)
    (hwords : c.arity left + c.arity right ≤ UInt64.size)
    (hop : c.operator id = .join .merge joinType condition) (hinputs : c.inputs id = [left, right])
    (hlefts : c.Returns left lefts) (hrights : c.Returns right rights) (hrows : c.Returns id rows)
    (hks : ∀ ks, ((ask.collations left).run m).1 = .ok ks → Collation.AllOrder ks (c.arity left) lefts)
    (hds : ∀ ds, ((ask.collations right).run ((ask.collations left).run m).2).1 = .ok ds →
      Collation.AllOrder ds (c.arity right) rights)
    (h : ((mergeJoin.answer c ask id).run m).1 = .ok cs) : ∃ info ks ds,
      JoinInfo.of? condition (c.arity left) = some info ∧
      ((ask.collations left).run m).1 = .ok ks ∧
      ((ask.collations right).run ((ask.collations left).run m).2).1 = .ok ds ∧
      cs = ks ++ ds.map (·.shift (c.arity left)) ∧
      (∀ k ∈ ks, (joinType.padsLeft = true → ∀ fc ∈ k.fields, fc.nulls = .last) → k.Orders rows) ∧
      (Collation.Unpadded joinType condition lefts rights →
        ∀ d ∈ ds, (∃ k ∈ ks, ∃ n, Collation.Steers info lefts rights k d n) →
          (d.shift (c.arity left)).Orders rows) := by
  have hmembers : left ∈ c.inputs id ∧ right ∈ c.inputs id := by rw [hinputs]; simp
  have hleft : left < c.size := Cluster.inputs_lt_size hmembers.1
  have hright : right < c.size := Cluster.inputs_lt_size hmembers.2
  have hwidth : HaveWidth (c.arity left) lefts := (hlefts.delivers hleft).width hleft
    (hchecked.under (.input .root (by rw [hinputs]; simp)))
  unfold answer at h
  rw [show (c.operator id).join? = some (joinType, condition) by rw [hop]; rfl] at h
  obtain ⟨info, ks, ds, hinfo, hk, hd, rfl⟩ := exists_of_ofMergeJoin hinputs h
  have hjoin : Execution.joinRows joinType condition (c.arity left) (c.arity right) lefts rights =
      .ok rows := by
    obtain ⟨-, hown⟩ := (hrows.delivers hid).operatorRows (by rw [hop]; rfl) (by rw [hop]; rfl)
    rw [hop, hinputs] at hown
    have hl := Cluster.ranRows_of_delivers hleft (hlefts.delivers hleft)
    have hr := Cluster.ranRows_of_delivers hright (hrights.delivers hright)
    rw [← hl, ← hr]
    exact hown
  refine ⟨info, ks, ds, hinfo, hk, hd, rfl, fun k hmem hlast => ?_, fun hunpadded d hmem hsteers => ?_⟩
  · obtain ⟨hwithin, horders⟩ := hks ks hk k hmem
    exact horders.joinRows hwidth hwithin hlast hjoin
  · obtain ⟨k, hkmem, n, hsteers⟩ := hsteers
    obtain ⟨hwithin, horders⟩ := hds ds hd d hmem
    exact hsteers.orders hinfo hwidth hwords (hks ks hk k hkmem).2 hwithin horders hunpadded hjoin

end CollationsMethod

/-! ## Two merge joins -/

namespace MergedOrders

/-- Customers by number. -/
def customers : Table :=
  { name := ["CUSTOMERS"], rowType := ⟨[⟨"id", .bigint, true⟩]⟩, collations := [.ofKeys [0]],
    source := some (.ok [[.integer 1], [.integer 2]]) }

/-- Orders by customer and amount. -/
def orders : Table :=
  { name := ["ORDERS"], rowType := ⟨[⟨"customer", .bigint, true⟩, ⟨"amount", .bigint, true⟩]⟩,
    collations := [.ofKeys [0, 1]],
    source := some (.ok [[.integer 1, .integer 5], [.integer 1, .integer 6], [.integer 2, .integer 3]]) }

/-- A merge join of customers with their orders. -/
def joinOrders : Planning NodeId := do
  let left ← Cluster.createDefault (.scan .enumerable customers) []
  let right ← Cluster.createDefault (.scan .enumerable orders) []
  Cluster.createDefault (.join .merge .inner
    (.apply .equals [.column 0 .bigint, .column 1 .bigint] .boolean)) [left, right]

def ordersSession : Cluster :=
  (joinOrders.run.run (Cluster.start ⟨[customers, orders]⟩ default default)).2

/-- The first of the customers, by number with nulls first. -/
def firstCustomer : Table :=
  { name := ["FIRST"], rowType := ⟨[⟨"id", .bigint, true⟩]⟩,
    collations := [⟨[⟨0, .ascending, .first⟩]⟩], source := some (.ok [[.integer 1]]) }

/-- Right joins of the first customer with all customers, by merging and by hashing. -/
def joinCustomers : Planning NodeId := do
  let left ← Cluster.createDefault (.scan .enumerable firstCustomer) []
  let right ← Cluster.createDefault (.scan .enumerable customers) []
  let condition := .apply .equals [.column 0 .bigint, .column 1 .bigint] .boolean
  let _ ← Cluster.createDefault (.join .merge .right condition) [left, right]
  Cluster.createDefault (.join .hash .right condition) [left, right]

def customersSession : Cluster :=
  (joinCustomers.run.run (Cluster.start ⟨[firstCustomer, customers]⟩ default default)).2

end MergedOrders

namespace CollationsMethod

open MergedOrders

theorem mergeJoin_orders_amounts :
    ordersSession.Returns 2 [[.integer 1, .integer 1, .integer 5], [.integer 1, .integer 1, .integer 6],
      [.integer 2, .integer 2, .integer 3]] ∧
    ((mergeJoin.answer ordersSession (Asking.of ordersSession) 2).run {}).1 =
      .ok [.ofKeys [0], .ofKeys [1, 2]] ∧
    (Collation.ofKeys [0]).Orders [[.integer 1, .integer 1, .integer 5],
      [.integer 1, .integer 1, .integer 6], [.integer 2, .integer 2, .integer 3]] ∧
    (Collation.ofKeys [1, 2]).Orders [[.integer 1, .integer 1, .integer 5],
      [.integer 1, .integer 1, .integer 6], [.integer 2, .integer 2, .integer 3]] := by
  have hrows : ordersSession.Returns 2 [[.integer 1, .integer 1, .integer 5],
      [.integer 1, .integer 1, .integer 6], [.integer 2, .integer 2, .integer 3]] :=
    Cluster.returns_of_ranRows (by decide +kernel) (by decide +kernel)
  have hlefts : ordersSession.Returns 0 [[.integer 1], [.integer 2]] :=
    Cluster.returns_of_ranRows (by decide +kernel) (by decide +kernel)
  have hrights : ordersSession.Returns 1 [[.integer 1, .integer 5], [.integer 1, .integer 6],
      [.integer 2, .integer 3]] := Cluster.returns_of_ranRows (by decide +kernel) (by decide +kernel)
  have hcs : ((mergeJoin.answer ordersSession (Asking.of ordersSession) 2).run {}).1 =
      .ok [.ofKeys [0], .ofKeys [1, 2]] := Outcome.toOption_eq_some.mp (by decide +kernel)
  have hk : (((Asking.of ordersSession).collations 0).run {}).1 = .ok [.ofKeys [0]] :=
    Outcome.toOption_eq_some.mp (by decide +kernel)
  have hd : (((Asking.of ordersSession).collations 1).run
      (((Asking.of ordersSession).collations 0).run {}).2).1 = .ok [.ofKeys [0, 1]] :=
    Outcome.toOption_eq_some.mp (by decide +kernel)
  obtain ⟨info, ks, ds, hinfo, hks, hds, -, hleft, hright⟩ := mergeJoin_orders
    (by decide +kernel) (.of_all (by decide +kernel) (by decide +kernel)) (by decide +kernel) rfl rfl
    hlefts hrights hrows
    (fun ks hks => by cases hk.symm.trans hks; decide +kernel)
    (fun ds hds => by cases hd.symm.trans hds; decide +kernel) hcs
  cases hk.symm.trans hks
  cases hd.symm.trans hds
  cases hinfo
  refine ⟨hrows, hcs, hleft _ List.mem_cons_self nofun,
    hright ⟨nofun, nofun⟩ _ List.mem_cons_self ⟨_, List.mem_cons_self, 1, ?_, ?_⟩⟩
  · exact .cons ⟨List.mem_cons_self, rfl, by decide +kernel⟩ .nil
  · exact .inr (by decide +kernel)

/-- A merge join reports an order of its left input that has nulls first, though a right row without a
match comes last with nulls on the left. A hash join of the same inputs does not report it. -/
theorem mergeJoin_reports_nulls_first :
    (∀ id < customersSession.size, (customersSession.check id).isOk = true) ∧
    (((Asking.of customersSession).collations 0).run {}).1.toOption =
      some [⟨[⟨0, .ascending, .first⟩]⟩] ∧
    (Collation.mk [⟨0, .ascending, .first⟩]).Orders [[.integer 1]] ∧
    (((Asking.of customersSession).collations 1).run {}).1.toOption = some [.ofKeys [0]] ∧
    (Collation.ofKeys [0]).Orders [[.integer 1], [.integer 2]] ∧
    (((Asking.of customersSession).collations 2).run {}).1.toOption =
      some [⟨[⟨0, .ascending, .first⟩]⟩, .ofKeys [1]] ∧
    (((Asking.of customersSession).collations 3).run {}).1.toOption = some [] ∧
    customersSession.Returns 2 [[.integer 1, .integer 1], [.null, .integer 2]] ∧
    ¬(Collation.mk [⟨0, .ascending, .first⟩]).Orders [[.integer 1, .integer 1], [.null, .integer 2]] :=
  ⟨by decide +kernel, by decide +kernel, by decide +kernel, by decide +kernel, by decide +kernel,
    by decide +kernel, by decide +kernel,
    Cluster.returns_of_ranRows (by decide +kernel) (by decide +kernel), by decide +kernel⟩

end CollationsMethod

end QueryPlan
