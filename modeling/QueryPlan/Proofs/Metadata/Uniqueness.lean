import QueryPlan.Metadata.Uniqueness
import QueryPlan.Proofs.Decimal.Integers
import QueryPlan.Proofs.Execution.Regrouping
import QueryPlan.Proofs.Metadata.Orders
/-!
# Keys of a node's rows

Rows are told apart by columns if no two of them have equal values in all of these. What tells rows apart
tells apart those that are left of them or copied from them, and the rows of an aggregate are told apart by
its group columns, as long as the order of values is transitive on these. It is if no integer beyond two to
the 53rd meets a double: all other integers keep their order as doubles.
-/
namespace QueryPlan

open Execution

namespace Value

/-- Magnitude of an integer; other values have none. -/
def magnitude : Value → Nat
  | integer i => i.toInt.natAbs
  | _ => 0

/-- Where there are doubles among the values, no integers are beyond two to the 53rd. -/
def KeepsIntegers (values : List Value) : Prop :=
  ∀ v ∈ values, v.dataType = .double → ∀ w ∈ values, w.magnitude ≤ Double.exactLimit

instance (values : List Value) : Decidable (KeepsIntegers values) :=
  inferInstanceAs (Decidable (∀ v ∈ values, v.dataType = .double → ∀ w ∈ values, _))

/-- Number by which values of one kind are ordered if integers are doubles, strings apart. -/
def place : Value → Int
  | boolean b => b.toNat
  | integer i => Double.orderKey (Double.ofInt64 i)
  | double d => Double.orderKey d
  | _ => 0

/-- Integers that are doubles compare as these, with each other too. -/
theorem compare_eq_lex_place {v w : Value} (hv : v.magnitude ≤ Double.exactLimit)
    (hw : w.magnitude ≤ Double.exactLimit) : compare v w =
      compareLex (compareOn rank) (compareLex (compareOn place) (compareOn label)) v w := by
  show order v w = _
  cases v with
  | null => cases w <;> rfl
  | boolean a =>
    cases w with
    | boolean b => cases a <;> cases b <;> rfl
    | _ => rfl
  | integer a =>
    cases w with
    | integer b => exact (Double.order_ofInt64 hv hw).symm.trans Ordering.then_eq.symm
    | double b => exact Ordering.then_eq.symm
    | _ => rfl
  | double a =>
    cases w with
    | integer b => exact Ordering.then_eq.symm
    | double b => exact Ordering.then_eq.symm
    | _ => rfl
  | varchar a =>
    cases w <;> rfl

theorem KeepsIntegers.ordered {values : List Value} (h : KeepsIntegers values) : Ordered values := by
  by_cases hdouble : ∃ v ∈ values, v.dataType = .double
  · obtain ⟨v, hv, hdouble⟩ := hdouble
    have hmagnitude := h v hv hdouble
    intro u hu v hv w hw huv hvw
    rw [compare_eq_lex_place (hmagnitude u hu) (hmagnitude v hv)] at huv
    rw [compare_eq_lex_place (hmagnitude v hv) (hmagnitude w hw)] at hvw
    rw [compare_eq_lex_place (hmagnitude u hu) (hmagnitude w hw)]
    exact Std.TransCmp.isLE_trans huv hvw
  · exact ordered_of_lacks (.inr rfl) fun v hv hdouble' => hdouble ⟨v, hv, hdouble'⟩

end Value

namespace Row

/-- The rows do not have equal values in all of the columns. -/
def Differ (columns : ColumnSet) (a b : Row) : Prop :=
  ∃ k ∈ columns.toList, compare (a.valueAt k) (b.valueAt k) ≠ .eq

/-- No two rows have equal values in all of the columns. -/
def ToldApart (columns : ColumnSet) (rows : List Row) : Prop := rows.Pairwise (Differ columns)

instance (columns : ColumnSet) (rows : List Row) : Decidable (ToldApart columns rows) :=
  inferInstanceAs (Decidable (rows.Pairwise fun a b =>
    ∃ k ∈ columns.toList, compare (a.valueAt k) (b.valueAt k) ≠ .eq))

variable {columns : ColumnSet} {rows : List Row}

theorem Differ.symm {a b : Row} (h : Differ columns a b) : Differ columns b a := by
  obtain ⟨k, hk, hne⟩ := h
  refine ⟨k, hk, fun heq => hne ?_⟩
  rw [Value.compare_swap, heq]
  rfl

theorem ToldApart.mono {key : ColumnSet} (h : ToldApart key rows)
    (hkey : columns.includes key = true) : ToldApart columns rows :=
  h.imp fun ⟨k, hk, hne⟩ => ⟨k, ColumnSet.includes_iff.mp hkey k hk, hne⟩

theorem ToldApart.sublist {part : List Row} (h : ToldApart columns rows) (hpart : part.Sublist rows) :
    ToldApart columns part := List.Pairwise.sublist hpart h

theorem ToldApart.perm {rows' : List Row} (h : ToldApart columns rows) (hperm : rows.Perm rows') :
    ToldApart columns rows' := (hperm.pairwise_iff fun h => h.symm).mp h

end Row

namespace Execution

variable {columns : ColumnSet} {rows out : List Row}

/-- A range of sorted rows. -/
theorem toldApart_sortRows {collation : Collation} {offset : Nat} {fetch : Option Nat}
    (h : Row.ToldApart columns rows) (hrows : sortRows collation offset fetch rows = .ok out) :
    Row.ToldApart columns out :=
  (h.perm (List.mergeSort_perm _ _).symm).sublist (sortRows_sublist hrows)

/-- Projected rows that agree on columns agree on the input columns that these copy. -/
theorem toldApart_projectedRows {projected : List (Expr × String)}
    (h : Row.ToldApart (Cluster.copiedColumns projected columns) rows) :
    Row.ToldApart columns (rows.map (projectedRow (projected.map Prod.fst))) := by
  refine List.pairwise_map.mpr (h.imp fun {a b} ⟨k, hk, hne⟩ => ?_)
  rw [Cluster.copiedColumns, ColumnSet.mem_toList_ofList, List.mem_filterMap] at hk
  obtain ⟨i, hi, hcopy⟩ := hk
  obtain ⟨p, hp, hcolumn⟩ := Option.bind_eq_some_iff.mp hcopy
  have he : (projected.map Prod.fst)[i]? = some p.1 := by rw [List.getElem?_map, hp]; rfl
  refine ⟨i, hi, ?_⟩
  rwa [valueAt_projectedRow he hcolumn, valueAt_projectedRow he hcolumn]

/-- The group columns, which come first, tell the rows of an aggregate apart. -/
theorem toldApart_aggregateRows {group : ColumnSet} {calls : List AggregateCall}
    (hgroup : ∀ i ∈ group.toList, Value.KeepsIntegers (Row.inColumn rows i))
    (h : aggregateRows group calls rows = .ok out) :
    Row.ToldApart (ColumnSet.range 0 group.size) out := by
  have hrank : ∀ i ∈ group.toList,
      Value.Ranks (Value.below (Row.inColumn rows i)) (Row.inColumn rows i) :=
    fun i hi => (hgroup i hi).ordered.ranks
  have hgrouped := aggregateRows_grouped hrank h
  have hnodup := List.pairwise_map.mp hgrouped.nodup
  refine hnodup.imp_of_mem fun {a b} ha hb hclass => ?_
  by_contra hagree
  -- rows that agree on all group columns are of one class
  refine hclass (List.ext_getElem? fun p => ?_)
  cases hp : group.toList[p]? with
  | none => rw [keyClass, keyClass, List.getElem?_zipWith, List.getElem?_zipWith, hp]
  | some i =>
    obtain ⟨v, hv, hvalue, hnumber⟩ := hgrouped.key_at ha hp
    obtain ⟨w, hw, hvalue', hnumber'⟩ := hgrouped.key_at hb hp
    obtain ⟨hlt, rfl⟩ := List.getElem?_eq_some_iff.mp hp
    have heq : compare v w = .eq := by
      by_contra hne
      refine hagree ⟨p, ColumnSet.mem_toList_range.mpr ⟨Nat.zero_le p, hlt⟩, ?_⟩
      rwa [Row.valueAt_eq hv, Row.valueAt_eq hw]
    rw [hrank _ (List.getElem_mem hlt) v hvalue w hvalue', Nat.compare_eq_eq] at heq
    rw [hnumber, hnumber', heq]

end Execution

/-- What it takes for keys to tell an operator's rows apart, whose first input has the given rows. Those
that a table declares tell its rows apart, and in a group column no integer beyond two to the 53rd meets a
double. -/
def Operator.KeepsKeys (rows : List Row) : Operator → Prop
  | scan _ table => ∀ key ∈ table.keys, Row.ToldApart key (table.scan.toOption.getD [])
  | aggregate _ group _ => ∀ i ∈ group.toList, Value.KeepsIntegers (Row.inColumn rows i)
  | _ => True

instance (rows : List Row) (o : Operator) : Decidable (o.KeepsKeys rows) :=
  match o with
  | .scan _ table => inferInstanceAs (Decidable
      (∀ key ∈ table.keys, Row.ToldApart key (table.scan.toOption.getD [])))
  | .aggregate _ group _ => inferInstanceAs (Decidable
      (∀ i ∈ group.toList, Value.KeepsIntegers (Row.inColumn rows i)))
  | .values _ _ _ | .filter _ _ | .project _ _ | .join _ _ _ | .correlate _ _ _ _ | .sort _ _ _ _
  | .union _ _ | .intersect _ | .minus _ | .exchange _ | .sortExchange _ _ | .subset _ => .isTrue trivial

namespace Cluster

variable {c : Cluster} {id : NodeId} {rows : List Row} {columns : ColumnSet}

/-- Keys tell the rows of a node apart. -/
def KeepsKeys (c : Cluster) (id : NodeId) : Prop := (c.operator id).KeepsKeys (c.firstRows id)

instance (c : Cluster) (id : NodeId) : Decidable (c.KeepsKeys id) :=
  inferInstanceAs (Decidable ((c.operator id).KeepsKeys (c.firstRows id)))

/-- The rows that an operator reads first are those of the node's first input. -/
theorem Delivers.first {j : NodeId} (h : c.Delivers id rows) (hscan : (c.operator id).table? = none)
    (hsubset : (c.operator id).isSubset = false) (hfirst : (c.inputs id).head? = some j) :
    c.Under id j ∧ c.Delivers j (c.firstRows id) := by
  have hmem := List.mem_of_mem_head? hfirst
  have hinput : c.input? id 0 = some j := by rwa [List.head?_eq_getElem?] at hfirst
  refine ⟨.input .root hmem, ?_⟩
  rw [firstRows, ranRows_getElem?_inputs hinput]
  exact (h.operatorRows hscan hsubset).1 j hmem

/-- Columns that are found to be unique tell the rows apart, however long the way to the tables is. -/
theorem toldApart_of_uniqueWithin {depth : Nat} (hkeeps : ∀ j, c.Under id j → c.KeepsKeys j)
    (hrows : c.Delivers id rows) (h : c.uniqueWithin depth id columns = some true) :
    Row.ToldApart columns rows := by
  induction depth generalizing id rows columns with
  | zero => cases h
  | succ depth ih =>
    have hown : (c.operator id).KeepsKeys (c.firstRows id) := hkeeps id .root
    have hout : (c.operator id).table? = none → (c.operator id).isSubset = false → operatorRows
        (c.operator id) ((c.inputs id).map c.arity) ((c.inputs id).map c.ranRows) = .ok rows :=
      fun hscan hsubset => (hrows.operatorRows hscan hsubset).2
    have hfirst : ∀ {key : ColumnSet}, (c.operator id).table? = none →
        (c.operator id).isSubset = false →
        ((c.inputs id).head?.bind fun j => c.uniqueWithin depth j key) = some true →
          Row.ToldApart key (c.firstRows id) := by
      intro key hscan hsubset hkey
      obtain ⟨j, hj, hkey⟩ := Option.bind_eq_some_iff.mp hkey
      obtain ⟨hunder, hdel⟩ := hrows.first hscan hsubset hj
      exact ih (fun k hk => hkeeps k (hunder.trans hk)) hdel hkey
    unfold uniqueWithin at h
    dsimp only at h
    rw [show (c.node id).operator = c.operator id from rfl] at h
    cases hop : c.operator id with
    | scan v table =>
      rw [hop] at h hown
      rw [Operator.KeepsKeys, hrows.of_scan hop] at hown
      obtain ⟨key, hkey, hincludes⟩ := List.any_eq_true.mp (Option.some.inj h)
      exact (hown key hkey).mono hincludes
    | subset rowType =>
      rw [hop] at h
      obtain ⟨m, hm, h⟩ := Option.bind_eq_some_iff.mp h
      have hdel := (delivers_member_iff (by rw [hop]; rfl) hm).mp hrows
      exact ih (fun k hk => hkeeps k ((Under.member .root hm).trans hk)) hdel h
    | aggregate v group calls =>
      rw [hop] at h hown hout
      exact (toldApart_aggregateRows hown (hout rfl rfl)).mono (Option.some.inj h)
    | project v projected =>
      rw [hop] at h hout hfirst
      rw [(projectRows_eq_ok_iff.mp (hout rfl rfl)).2]
      refine toldApart_projectedRows (hfirst rfl rfl ?_)
      dsimp only at h
      split at h
      · next hcopied => exact hcopied
      · cases h
    | filter v condition =>
      rw [hop] at h hout hfirst
      rw [(filterRows_eq_ok_iff.mp (hout rfl rfl)).2]
      exact (hfirst rfl rfl h).sublist List.filter_sublist
    | sort v collation offset fetch =>
      rw [hop] at h hout hfirst
      exact toldApart_sortRows (hfirst rfl rfl h) (hout rfl rfl)
    | sortExchange d collation =>
      rw [hop] at h hout hfirst
      exact toldApart_sortRows (hfirst rfl rfl h) (hout rfl rfl)
    | exchange d =>
      rw [hop] at h hout hfirst
      cases hout rfl rfl
      exact hfirst rfl rfl h
    | values | join | correlate | union | intersect | minus =>
      rw [hop] at h
      cases h

/-- Columns that hold a key tell the rows apart that running the node returns: where the keys that tables
declare are keys of their rows, and no group column mixes doubles with integers beyond two to the 53rd. -/
theorem areUnique_toldApart (hid : id < c.size) (hkeeps : ∀ j, c.Under id j → c.KeepsKeys j)
    (hrows : c.Returns id rows) (hunique : c.areUnique id columns = some true) :
    Row.ToldApart columns rows :=
  toldApart_of_uniqueWithin hkeeps (hrows.delivers hid) hunique

/-- Levels that sensors report, some of them as integers. -/
def levelReadings : Table :=
  { name := ["READINGS"], rowType := ⟨[⟨"sensor", .bigint, true⟩, ⟨"level", .double, true⟩]⟩,
    keys := [.ofList [0]],
    source := some (.ok [[.integer 1, .double 2], [.integer 2, .integer 7], [.integer 3, .integer 2]]) }

/-- How often each level was reported, with the level behind the number. -/
def levelCounts : Planning NodeId := do
  let scan ← createDefault (.scan .enumerable levelReadings) []
  let counts ← createDefault (.aggregate .enumerable (.ofList [1]) [⟨.count, [], "n"⟩]) [scan]
  let place ← createSubset ⟨[⟨"level", .double, true⟩, ⟨"n", .bigint, false⟩]⟩ (.ofConvention .enumerable)
  addMember place counts
  let known ← createDefault (.filter .enumerable (.apply .isNotNull [.column 0 .double] .boolean)) [place]
  createDefault (.project .enumerable [(.column 1 .bigint, "n"), (.column 0 .double, "level")]) [known]

def levelSession : Cluster := (levelCounts.run.run (Cluster.start ⟨[levelReadings]⟩ default default)).2

/-- The integer and the double of one level are counted together. -/
theorem areUnique_toldApart_levels :
    (∀ j < levelSession.size, levelSession.KeepsKeys j) ∧
    levelSession.Returns 4 [[.integer 2, .double 2], [.integer 1, .integer 7]] ∧
    levelSession.areUnique 4 (.ofList [1]) = some true ∧
    Row.ToldApart (.ofList [1]) [[.integer 2, .double 2], [.integer 1, .integer 7]] := by
  have hkeeps : ∀ j < levelSession.size, levelSession.KeepsKeys j := by decide +kernel
  have hid : 4 < levelSession.size := by decide +kernel
  have hrows : levelSession.Returns 4 [[.integer 2, .double 2], [.integer 1, .integer 7]] :=
    returns_of_ranRows (by decide +kernel) (by decide +kernel)
  have hunique : levelSession.areUnique 4 (.ofList [1]) = some true := by decide +kernel
  exact ⟨hkeeps, hrows, hunique,
    areUnique_toldApart hid (fun j hj => hkeeps j (hj.lt_size hid)) hrows hunique⟩

end Cluster

end QueryPlan
