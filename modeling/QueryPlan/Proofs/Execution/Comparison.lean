import QueryPlan.Proofs.Execution.Fusion
import QueryPlan.Proofs.Execution.Ordering
/-!
# The comparator of rows

On rows whose compared columns do not mix the two kinds of number, comparing by a collation is a total
preorder: exchanging two rows reverses the outcome, and outcomes compose. The first field that separates
two rows decides. On one field a null has its place by the null placement alone, while the direction only
turns the order of other values round.
-/
namespace QueryPlan

namespace FieldCollation

/-- What comparing two values of a field comes to. -/
structure Places (fc : FieldCollation) (v w : Value) (o : Ordering) : Prop where
  both_null : v.isNull = true → w.isNull = true → o = .eq
  null_left : v.isNull = true → w.isNull = false → o = if fc.nulls = .first then .lt else .gt
  null_right : v.isNull = false → w.isNull = true → o = if fc.nulls = .first then .gt else .lt
  rising : v.isNull = false → w.isNull = false →
    fc.direction ∈ [.ascending, .strictlyAscending, .clustered] → o = compare v w
  falling : v.isNull = false → w.isNull = false →
    fc.direction ∈ [.descending, .strictlyDescending] → o = (compare v w).swap

theorem isDescending_iff {d : Direction} :
    d.isDescending = true ↔ d ∈ [Direction.descending, .strictlyDescending] := by
  cases d <;> decide

theorem not_isDescending_iff {d : Direction} :
    d.isDescending = false ↔ d ∈ [Direction.ascending, .strictlyAscending, .clustered] := by
  cases d <;> decide

/-- Exchanging the operands and the sign of nulls at once leaves nulls where they are. -/
theorem orderValues_places (fc : FieldCollation) (v w : Value) :
    fc.Places v w (fc.orderValues v w) where
  both_null hv hw := by
    unfold orderValues Value.orderNulls
    rw [hv, hw, ite_self]
  null_left hv hw := by
    unfold orderValues Value.orderNulls
    rw [hv, hw]
    cases fc.direction.isDescending <;> cases fc.nulls <;> rfl
  null_right hv hw := by
    unfold orderValues Value.orderNulls
    rw [hv, hw]
    cases fc.direction.isDescending <;> cases fc.nulls <;> rfl
  rising hv hw hdirection := by
    unfold orderValues Value.orderNulls
    rw [not_isDescending_iff.mpr hdirection, hv, hw]
    rfl
  falling hv hw hdirection := by
    unfold orderValues Value.orderNulls
    rw [isDescending_iff.mpr hdirection, hv, hw, if_pos rfl]
    exact Value.compare_swap w v

end FieldCollation

namespace Collation

variable {c : Collation} {rows : List Row}

/-- The first field that separates two rows orders them; rows that no field separates are equal. -/
structure Decides (c : Collation) (a b : Row) (o : Ordering) : Prop where
  tied : o = .eq ↔ ∀ fc ∈ c.fields, fc.order a b = .eq
  separated : ∀ fc before after, c.fields = before ++ fc :: after →
    (∀ earlier ∈ before, earlier.order a b = .eq) → fc.order a b ≠ .eq → o = fc.order a b

theorem orderBy_eq_eq {fields : List FieldCollation} {a b : Row} :
    orderBy fields a b = .eq ↔ ∀ fc ∈ fields, fc.order a b = .eq := by
  induction fields with
  | nil => exact ⟨fun _ => nofun, fun _ => rfl⟩
  | cons fc fields ih => rw [orderBy, Ordering.then_eq_eq, ih, List.forall_mem_cons]

theorem orderBy_separated {before after : List FieldCollation} {fc : FieldCollation} {a b : Row}
    (hbefore : ∀ earlier ∈ before, earlier.order a b = .eq) (hfc : fc.order a b ≠ .eq) :
    orderBy (before ++ fc :: after) a b = fc.order a b := by
  induction before with
  | nil =>
    rw [List.nil_append, orderBy]
    cases horder : fc.order a b with
    | eq => exact absurd horder hfc
    | lt => rfl
    | gt => rfl
  | cons earlier before ih =>
    obtain ⟨hearlier, hbefore⟩ := List.forall_mem_cons.mp hbefore
    rw [List.cons_append, orderBy, hearlier, Ordering.eq_then, ih hbefore]

theorem order_decides (c : Collation) (a b : Row) : c.Decides a b (c.order a b) where
  tied := orderBy_eq_eq
  separated fc before after hfields hbefore hfc := by
    rw [order, hfields]
    exact orderBy_separated hbefore hfc

theorem reads_iff {row : Row} : c.reads row = true ↔ ∀ k ∈ c.keys, k < row.length := by
  simp [reads]

/-- Rows that have all columns of a collation can be compared. -/
theorem canCompare_of_reads {a b : Row} (ha : c.reads a = true) (hb : c.reads b = true) :
    c.canCompare a b = true := by
  rw [reads_iff] at ha hb
  obtain ⟨fields⟩ := c
  unfold canCompare keys at *
  induction fields with
  | nil => rfl
  | cons fc fields ih =>
    obtain ⟨hfirst, ha⟩ := List.forall_mem_cons.mp ha
    obtain ⟨hfirst', hb⟩ := List.forall_mem_cons.mp hb
    simp [canCompareBy, hfirst, hfirst', ih ha hb]

theorem OnOrdered.order_swap (h : c.OnOrdered rows) {a b : Row} (ha : a ∈ rows) (hb : b ∈ rows) :
    c.order a b = (c.order b a).swap := by
  obtain ⟨places, hplaces⟩ := h.exists_places
  rw [hplaces a ha b hb, hplaces b hb a ha]
  exact Std.OrientedOrd.eq_swap

theorem OnOrdered.order_trans (h : c.OnOrdered rows) {a b d : Row} (ha : a ∈ rows) (hb : b ∈ rows)
    (hd : d ∈ rows) (hab : c.order a b ≠ .gt) (hbd : c.order b d ≠ .gt) : c.order a d ≠ .gt := by
  obtain ⟨places, hplaces⟩ := h.exists_places
  rw [hplaces a ha b hb, ne_gt_iff] at hab
  rw [hplaces b hb d hd, ne_gt_iff] at hbd
  rw [hplaces a ha d hd, ne_gt_iff]
  exact Std.TransCmp.isLE_trans hab hbd

theorem OnOrdered.order_comp (h : c.OnOrdered rows) {a b d : Row} (ha : a ∈ rows) (hb : b ∈ rows)
    (hd : d ∈ rows) {o : Ordering} (hab : c.order a b = o) (hbd : c.order b d = o) :
    c.order a d = o := by
  obtain ⟨places, hplaces⟩ := h.exists_places
  rw [hplaces a ha b hb] at hab
  rw [hplaces b hb d hd] at hbd
  rw [hplaces a ha d hd]
  cases o with
  | lt => exact Std.TransCmp.lt_trans hab hbd
  | eq => exact Std.TransCmp.eq_trans hab hbd
  | gt => exact Std.TransCmp.gt_trans hab hbd

/-- Comparing is a total preorder of rows that have the columns of the collation, of which none mixes the
two kinds of number. The first field that separates two rows decides, and a field places nulls by its null
placement and other values by its direction. -/
theorem order_totalPreorder (c : Collation) (rows : List Row)
    (hreads : ∀ row ∈ rows, c.reads row = true)
    (hunmixed : ∀ k ∈ c.keys, Value.Unmixed (Row.inColumn rows k)) :
    (∀ a ∈ rows, ∀ b ∈ rows, c.canCompare a b = true ∧ c.order a b = (c.order b a).swap) ∧
    (∀ a ∈ rows, ∀ b ∈ rows, ∀ d ∈ rows,
      (c.order a b ≠ .gt → c.order b d ≠ .gt → c.order a d ≠ .gt) ∧
      ∀ o, c.order a b = o → c.order b d = o → c.order a d = o) ∧
    (∀ fc ∈ c.fields, ∀ a ∈ rows, ∀ b ∈ rows, ∃ v w, a[fc.field]? = some v ∧
      b[fc.field]? = some w ∧ fc.Places v w (fc.order a b)) ∧
    ∀ a ∈ rows, ∀ b ∈ rows, c.Decides a b (c.order a b) := by
  have hordered : c.OnOrdered rows := fun k hk => (hunmixed k hk).ordered
  have hvalue : ∀ fc ∈ c.fields, ∀ row ∈ rows, row[fc.field]? = some (row.valueAt fc.field) := by
    intro fc hfc row hrow
    have hlt := reads_iff.mp (hreads row hrow) fc.field (List.mem_map_of_mem hfc)
    rw [Row.valueAt, List.getElem?_eq_getElem hlt, Option.getD_some]
  refine ⟨fun a ha b hb => ⟨?_, hordered.order_swap ha hb⟩, fun a ha b hb d hd => ⟨?_, ?_⟩, ?_,
    fun a _ b _ => c.order_decides a b⟩
  · exact canCompare_of_reads (hreads a ha) (hreads b hb)
  · exact hordered.order_trans ha hb hd
  · exact fun o => hordered.order_comp ha hb hd
  · intro fc hfc a ha b hb
    refine ⟨_, _, hvalue fc hfc a ha, hvalue fc hfc b hb, ?_⟩
    rw [fc.order_eq]
    exact fc.orderValues_places _ _

/-- Readings of gauges: what they are set to, what they show and how they are called. -/
def gauges : List Row :=
  [[.boolean true, .null, .varchar "b"], [.null, .double (-0.0), .varchar "b"],
    [.varchar "off", .double 0.0, .null], [.integer 3, .null, .varchar "a"]]

/-- Falling by what they show with nulls first, then by name, then by setting. -/
def gaugeOrder : Collation :=
  ⟨[⟨1, .descending, .first⟩, ⟨2, .clustered, .unspecified⟩, ⟨0, .strictlyDescending, .last⟩]⟩

/-- A gauge that shows nothing comes first, and the one called first before the other. -/
theorem order_totalPreorder_gauges :
    (∀ row ∈ gauges, gaugeOrder.reads row = true) ∧
    (∀ k ∈ gaugeOrder.keys, Value.Unmixed (Row.inColumn gauges k)) ∧
    gaugeOrder.order [.integer 3, .null, .varchar "a"] [.boolean true, .null, .varchar "b"] = .lt ∧
    gaugeOrder.order [.boolean true, .null, .varchar "b"] [.varchar "off", .double 0.0, .null] = .lt ∧
    gaugeOrder.order [.integer 3, .null, .varchar "a"] [.varchar "off", .double 0.0, .null] = .lt := by
  have hreads : ∀ row ∈ gauges, gaugeOrder.reads row = true := by decide
  have hunmixed : ∀ k ∈ gaugeOrder.keys, Value.Unmixed (Row.inColumn gauges k) := by
    have hshown : ∀ v ∈ Row.inColumn gauges 1, v.dataType ≠ .bigint := by decide
    have hothers : ∀ k ∈ [2, 0], ∀ v ∈ Row.inColumn gauges k, v.dataType ≠ .double := by decide
    intro k hk
    rcases List.mem_cons.mp hk with rfl | hk
    · exact ⟨.bigint, .inl rfl, hshown⟩
    · exact ⟨.double, .inr rfl, hothers k hk⟩
  obtain ⟨-, htrans, -, hdecides⟩ := order_totalPreorder gaugeOrder gauges hreads hunmixed
  have hnames : gaugeOrder.order [.integer 3, .null, .varchar "a"]
      [.boolean true, .null, .varchar "b"] = .lt :=
    (hdecides _ (by simp [gauges]) _ (by simp [gauges])).separated ⟨2, .clustered, .unspecified⟩
      [⟨1, .descending, .first⟩] [⟨0, .strictlyDescending, .last⟩] rfl (by decide) (by decide)
  have hnull : gaugeOrder.order [.boolean true, .null, .varchar "b"]
      [.varchar "off", .double 0.0, .null] = .lt :=
    (hdecides _ (by simp [gauges]) _ (by simp [gauges])).separated ⟨1, .descending, .first⟩ [] _ rfl
      (by decide) (by decide)
  exact ⟨hreads, hunmixed, hnames, hnull, (htrans _ (by simp [gauges]) _ (by simp [gauges]) _
    (by simp [gauges])).2 .lt hnames hnull⟩

end Collation

end QueryPlan
