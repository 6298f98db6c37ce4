import QueryPlan.Execution.Aggregate
import QueryPlan.Proofs.Expr.Equality
import QueryPlan.Proofs.Outcome
/-!
# The groups of rows

The order of values need not be transitive: integers and doubles compare as doubles, so that two
different integers may both equal one double. Where it is transitive on each group column, the values
of a column can be numbered in their order, the class of a row is the list of the numbers of its key,
and the groups of an aggregate are the classes of its rows.
-/
namespace QueryPlan

namespace Row

/-- The value in a column; null where the row does not reach so far. -/
def valueAt (row : Row) (column : Nat) : Value := row[column]?.getD .null

/-- The values in some columns. -/
def select (columns : List Nat) (row : Row) : Row := columns.map row.valueAt

/-- The values that rows have in a column. -/
def inColumn (rows : List Row) (column : Nat) : List Value := rows.filterMap (·[column]?)

theorem mem_inColumn {rows : List Row} {column : Nat} {v : Value} :
    v ∈ inColumn rows column ↔ ∃ row ∈ rows, row[column]? = some v := List.mem_filterMap

theorem valueAt_eq {row : Row} {column : Nat} {v : Value} (h : row[column]? = some v) :
    row.valueAt column = v := by rw [valueAt, h, Option.getD_some]

theorem valueAt_append_left {left : Row} {column : Nat} (h : column < left.length) (right : Row) :
    (left ++ right).valueAt column = left.valueAt column := by
  rw [valueAt, valueAt, List.getElem?_append_left h]

theorem valueAt_append_right (left right : Row) (column : Nat) :
    (left ++ right).valueAt (left.length + column) = right.valueAt column := by
  rw [valueAt, valueAt, List.getElem?_append_right (Nat.le_add_right _ _), Nat.add_sub_cancel_left]

end Row

namespace Value

/-! ## Numbers for values -/

theorem compare_swap (v w : Value) : compare v w = (compare w v).swap := by
  have hdouble : ∀ a b : Float, Double.order a b = (Double.order b a).swap := fun a b =>
    Std.OrientedOrd.eq_swap (a := Double.orderKey a)
  show order v w = (order w v).swap
  cases v with
  | null => cases w <;> rfl
  | boolean a =>
    cases w with
    | boolean b => exact Std.OrientedOrd.eq_swap (a := a.toNat)
    | _ => rfl
  | integer a =>
    cases w with
    | integer b => exact Std.OrientedOrd.eq_swap (a := a.toInt)
    | double b => exact hdouble (Double.ofInt64 a) b
    | _ => rfl
  | double a =>
    cases w with
    | integer b => exact hdouble a (Double.ofInt64 b)
    | double b => exact hdouble a b
    | _ => rfl
  | varchar a =>
    cases w with
    | varchar b => exact Std.OrientedOrd.eq_swap (a := a)
    | _ => rfl

/-- The order of the values is transitive. -/
def Ordered (values : List Value) : Prop :=
  ∀ u ∈ values, ∀ v ∈ values, ∀ w ∈ values,
    (compare u v).isLE = true → (compare v w).isLE = true → (compare u w).isLE = true

instance (values : List Value) : Decidable (Ordered values) :=
  inferInstanceAs (Decidable (∀ u ∈ values, ∀ v ∈ values, ∀ w ∈ values, _))

/-- The numbers are ordered as the values are. -/
def Ranks (rank : Value → Nat) (values : List Value) : Prop :=
  ∀ v ∈ values, ∀ w ∈ values, compare v w = compare (rank v) (rank w)

theorem Ranks.mono {rank : Value → Nat} {values values' : List Value} (h : Ranks rank values)
    (hsub : ∀ v ∈ values', v ∈ values) : Ranks rank values' :=
  fun v hv w hw => h v (hsub v hv) w (hsub w hw)

section

variable {values : List Value} (h : Ordered values) {u v w : Value}
  (hu : u ∈ values) (hv : v ∈ values) (hw : w ∈ values)

include h hu hv hw

theorem Ordered.lt_of_lt_of_isLE (huv : compare u v = .lt) (hvw : (compare v w).isLE = true) :
    compare u w = .lt := by
  have huw := h u hu v hv w hw (by rw [huv]; rfl) hvw
  cases hcompare : compare u w with
  | lt => rfl
  | gt => rw [hcompare] at huw; cases huw
  | eq =>
    -- otherwise the three would be equal
    have hwu : compare w u = .eq := by rw [compare_swap, hcompare]; rfl
    have hvu := h v hv w hw u hu hvw (by rw [hwu]; rfl)
    rw [compare_swap, huv] at hvu
    cases hvu

end

/-- The number of values below a value. -/
def below (values : List Value) (v : Value) : Nat := (values.filter (compare · v == .lt)).length

theorem below_lt {values : List Value} (h : Ordered values) {v w : Value} (hv : v ∈ values)
    (hw : w ∈ values) (hlt : compare v w = .lt) : below values v < below values w := by
  have hfilter : values.filter (compare · v == .lt) =
      (values.filter (compare · w == .lt)).filter (compare · v == .lt) := by
    rw [List.filter_filter]
    refine List.filter_congr fun u hu => ?_
    by_cases huv : compare u v = .lt
    · have huw := h.lt_of_lt_of_isLE hu hv hw huv (by rw [hlt]; rfl)
      simp [huv, huw]
    · simp [huv]
  unfold below
  rw [hfilter]
  refine List.length_filter_lt_length_iff_exists.mpr ⟨v, ?_, ?_⟩
  · exact List.mem_filter.mpr ⟨hv, by simp [hlt]⟩
  · simp [compare_self]

theorem below_eq {values : List Value} (h : Ordered values) {v w : Value} (hv : v ∈ values)
    (hw : w ∈ values) (heq : compare v w = .eq) : below values v = below values w := by
  have hswap : compare w v = .eq := by rw [compare_swap, heq]; rfl
  unfold below
  congr 1
  refine List.filter_congr fun u hu => ?_
  by_cases huv : compare u v = .lt
  · have huw := h.lt_of_lt_of_isLE hu hv hw huv (by rw [heq]; rfl)
    simp [huv, huw]
  · have huw : compare u w ≠ .lt := fun huw =>
      huv (h.lt_of_lt_of_isLE hu hw hv huw (by rw [hswap]; rfl))
    simp [huv, huw]

/-- Values with a transitive order can be numbered. -/
theorem Ordered.ranks {values : List Value} (h : Ordered values) : Ranks (below values) values := by
  intro v hv w hw
  cases hcompare : compare v w with
  | lt => exact (Nat.compare_eq_lt.mpr (below_lt h hv hw hcompare)).symm
  | eq => exact (Nat.compare_eq_eq.mpr (below_eq h hv hw hcompare)).symm
  | gt =>
    have hlt : compare w v = .lt := by rw [compare_swap, hcompare]; rfl
    exact (Nat.compare_eq_gt.mpr (below_lt h hw hv hlt)).symm

/-- Number by which values of one kind are ordered, strings apart. -/
def number : Value → Int
  | boolean b => b.toNat
  | integer i => i.toInt
  | double d => Double.orderKey d
  | _ => 0

/-- Text by which strings are ordered. -/
def label : Value → String
  | varchar s => s
  | _ => ""

/-- Among values without one kind of number, numbers of one kind meet. -/
theorem compare_eq_lex {lacks : DataType} (hlacks : SeparatesNumbers lacks) {v w : Value}
    (hv : v.dataType ≠ lacks) (hw : w.dataType ≠ lacks) : compare v w =
      compareLex (compareOn rank) (compareLex (compareOn number) (compareOn label)) v w := by
  show order v w = _
  cases v with
  | null => cases w <;> rfl
  | boolean a =>
    cases w with
    | boolean b => cases a <;> cases b <;> rfl
    | _ => rfl
  | integer a =>
    cases w with
    | integer b => exact Ordering.then_eq.symm
    | double b => rcases hlacks with rfl | rfl <;> simp [dataType] at hv hw
    | _ => rfl
  | double a =>
    cases w with
    | integer b => rcases hlacks with rfl | rfl <;> simp [dataType] at hv hw
    | double b => exact Ordering.then_eq.symm
    | _ => rfl
  | varchar a =>
    cases w <;> rfl

/-- The order is transitive on values among which one kind of number does not occur. -/
theorem ordered_of_lacks {lacks : DataType} (hlacks : SeparatesNumbers lacks) {values : List Value}
    (h : ∀ v ∈ values, v.dataType ≠ lacks) : Ordered values := by
  intro u hu v hv w hw huv hvw
  rw [compare_eq_lex hlacks (h u hu) (h v hv)] at huv
  rw [compare_eq_lex hlacks (h v hv) (h w hw)] at hvw
  rw [compare_eq_lex hlacks (h u hu) (h w hw)]
  exact Std.TransCmp.isLE_trans huv hvw

end Value

namespace Execution

/-! ## Classes of rows -/

/-- The numbers of a row's values in some columns. -/
def classOf (rank : Nat → Value → Nat) (columns : List Nat) (row : Row) : List Nat :=
  columns.map fun i => rank i (row.valueAt i)

/-- The numbers of the values of a key. -/
def keyClass (rank : Nat → Value → Nat) (columns : List Nat) (key : Row) : List Nat :=
  List.zipWith rank columns key

theorem keyClass_select (rank : Nat → Value → Nat) (columns : List Nat) (row : Row) :
    keyClass rank columns (row.select columns) = classOf rank columns row := by
  rw [keyClass, Row.select, List.zipWith_map_right, List.zipWith_self]
  rfl

/-- The key has a value of each of the columns. -/
def KeyOver (rows : List Row) (columns : List Nat) (key : Row) : Prop :=
  List.Forall₂ (fun i v => v ∈ Row.inColumn rows i) columns key

theorem keyOver_select {rows : List Row} {columns : List Nat} {row : Row} (hrow : row ∈ rows)
    (h : ∀ i ∈ columns, ∃ v, row[i]? = some v) : KeyOver rows columns (row.select columns) := by
  refine List.forall₂_map_right_iff.mpr (List.forall₂_same.mpr fun i hi => ?_)
  obtain ⟨v, hv⟩ := h i hi
  rw [Row.valueAt_eq hv]
  exact Row.mem_inColumn.mpr ⟨row, hrow, hv⟩

/-- Keys compare as their classes do. -/
theorem order_eq_compare {rank : Nat → Value → Nat} {rows : List Row} {columns : List Nat}
    (hrank : ∀ i ∈ columns, Value.Ranks (rank i) (Row.inColumn rows i)) {key key' : Row}
    (hkey : KeyOver rows columns key) (hkey' : KeyOver rows columns key') :
    Row.order key key' = compare (keyClass rank columns key) (keyClass rank columns key') := by
  induction hkey generalizing key' with
  | nil =>
    cases hkey'
    rfl
  | @cons i v columns key hv _ ih =>
    cases hkey' with
    | @cons _ v' _ key' hv' hkey' =>
      obtain ⟨hi, hrest⟩ := List.forall_mem_cons.mp hrank
      show (compare v v').then (Row.order key key') = _
      rw [hi v hv v' hv', ih hrest hkey']
      exact List.compareLex_cons_cons.symm

theorem groupKey_eq_ok {group : ColumnSet} {row key : Row} (h : groupKey group row = .ok key) :
    key = row.select group.toList ∧ ∀ i ∈ group.toList, ∃ v, row[i]? = some v := by
  have hcolumn : ∀ {i v}, columnValue row i = .ok v → row[i]? = some v := by
    intro i v hv
    unfold columnValue at hv
    split at hv
    · next hvalue =>
      cases hv
      exact hvalue
    · cases hv
  have hforall := (Outcome.mapM_eq_ok.mp h).imp fun _ _ => hcolumn
  clear h
  unfold Row.select
  generalize group.toList = columns at hforall
  induction hforall with
  | nil => exact ⟨rfl, by simp⟩
  | @cons i v _ _ hv _ ih =>
    obtain ⟨rfl, hvalues⟩ := ih
    exact ⟨by rw [List.map_cons, Row.valueAt_eq hv], List.forall_mem_cons.mpr ⟨⟨v, hv⟩, hvalues⟩⟩

/-! ## Adding a row to its group -/

/-- Groups in the order of their classes. -/
def InOrder (cls : Row → List Nat) (groups : List (Row × List (Option Value))) : Prop :=
  groups.Pairwise fun g g' => compare (cls g.1) (cls g'.1) = .lt

/-- What becomes of groups to which a row is added: the group of its class has the row in its
accumulators, and all others stay. -/
structure Added (cls : Row → List Nat) (calls : List AggregateCall) (key row : Row)
    (groups groups' : List (Row × List (Option Value))) : Prop where
  inOrder : InOrder cls groups'
  found : ∃ g ∈ groups', cls g.1 = cls key
  kept : ∀ g ∈ groups, ∃ g' ∈ groups', cls g'.1 = cls g.1
  origin : ∀ g ∈ groups', (g ∈ groups ∧ cls g.1 ≠ cls key) ∨
    cls g.1 = cls key ∧ ∃ accs, addRow row calls accs = .ok g.2 ∧
      ((g.1, accs) ∈ groups ∨
        g.1 = key ∧ accs = emptyGroup calls ∧ ∀ g ∈ groups, cls g.1 ≠ cls key)

theorem ne_of_compare_lt {a b : List Nat} (h : compare a b = .lt) : a ≠ b := by
  rintro rfl
  have hself : compare a a = .eq := Std.ReflCmp.compare_self
  rw [hself] at h
  cases h

section

variable {cls : Row → List Nat} {calls : List AggregateCall} {key row k : Row}
  {accs accs' : List (Option Value)} {groups groups' : List (Row × List (Option Value))}

/-- The class has no group yet, and its place is before all groups. -/
theorem added_first (hgroups : InOrder cls groups)
    (hbefore : ∀ g ∈ groups, compare (cls key) (cls g.1) = .lt)
    (haccs : addRow row calls (emptyGroup calls) = .ok accs) :
    Added cls calls key row groups ((key, accs) :: groups) := by
  have hne : ∀ g ∈ groups, cls g.1 ≠ cls key := fun g hg => (ne_of_compare_lt (hbefore g hg)).symm
  refine ⟨List.pairwise_cons.mpr ⟨hbefore, hgroups⟩, ⟨_, List.mem_cons_self, rfl⟩,
    fun g hg => ⟨g, List.mem_cons_of_mem _ hg, rfl⟩, List.forall_mem_cons.mpr ⟨?_, ?_⟩⟩
  · exact .inr ⟨rfl, _, haccs, .inr ⟨rfl, rfl, hne⟩⟩
  · exact fun g hg => .inl ⟨hg, hne g hg⟩

/-- The first group is the one of the class. -/
theorem added_to_first (hgroups : InOrder cls ((k, accs) :: groups)) (hclass : cls k = cls key)
    (haccs : addRow row calls accs = .ok accs') :
    Added cls calls key row ((k, accs) :: groups) ((k, accs') :: groups) := by
  obtain ⟨hfirst, hrest⟩ := List.pairwise_cons.mp hgroups
  refine ⟨List.pairwise_cons.mpr ⟨hfirst, hrest⟩, ⟨_, List.mem_cons_self, hclass⟩, ?_,
    List.forall_mem_cons.mpr ⟨?_, ?_⟩⟩
  · refine List.forall_mem_cons.mpr ⟨⟨_, List.mem_cons_self, rfl⟩, fun g hg => ?_⟩
    exact ⟨g, List.mem_cons_of_mem _ hg, rfl⟩
  · exact .inr ⟨hclass, _, haccs, .inl List.mem_cons_self⟩
  · refine fun g hg => .inl ⟨List.mem_cons_of_mem _ hg, ?_⟩
    rw [← hclass]
    exact (ne_of_compare_lt (hfirst g hg)).symm

/-- The place of the class is behind the first group. -/
theorem Added.cons (hadded : Added cls calls key row groups groups')
    (hgroups : InOrder cls ((k, accs) :: groups)) (hlt : compare (cls k) (cls key) = .lt) :
    Added cls calls key row ((k, accs) :: groups) ((k, accs) :: groups') := by
  obtain ⟨hfirst, -⟩ := List.pairwise_cons.mp hgroups
  have hne : cls k ≠ cls key := ne_of_compare_lt hlt
  refine ⟨List.pairwise_cons.mpr ⟨fun g hg => ?_, hadded.inOrder⟩, ?_, ?_,
    List.forall_mem_cons.mpr ⟨.inl ⟨List.mem_cons_self, hne⟩, fun g hg => ?_⟩⟩
  · rcases hadded.origin g hg with ⟨hmem, -⟩ | ⟨heq, -⟩
    · exact hfirst g hmem
    · rw [heq]
      exact hlt
  · obtain ⟨g, hg, heq⟩ := hadded.found
    exact ⟨g, List.mem_cons_of_mem _ hg, heq⟩
  · refine List.forall_mem_cons.mpr ⟨⟨_, List.mem_cons_self, rfl⟩, fun g hg => ?_⟩
    obtain ⟨g', hg', heq⟩ := hadded.kept g hg
    exact ⟨g', List.mem_cons_of_mem _ hg', heq⟩
  · rcases hadded.origin g hg with ⟨hmem, hother⟩ | ⟨heq, accs', haccs', horigin⟩
    · exact .inl ⟨List.mem_cons_of_mem _ hmem, hother⟩
    · refine .inr ⟨heq, accs', haccs', ?_⟩
      rcases horigin with hmem | ⟨hkey, hempty, hnone⟩
      · exact .inl (List.mem_cons_of_mem _ hmem)
      · exact .inr ⟨hkey, hempty, List.forall_mem_cons.mpr ⟨hne, hnone⟩⟩

end

theorem addToGroups_added {cls : Row → List Nat} {calls : List AggregateCall} {key row : Row}
    {groups groups' : List (Row × List (Option Value))} (hgroups : InOrder cls groups)
    (horder : ∀ g ∈ groups, key.order g.1 = compare (cls key) (cls g.1))
    (h : addToGroups calls key row groups = .ok groups') :
    Added cls calls key row groups groups' := by
  induction groups generalizing groups' with
  | nil =>
    simp only [addToGroups, Outcome.bind_eq_ok, Outcome.pure_eq_ok] at h
    obtain ⟨accs, haccs, rfl⟩ := h
    exact added_first hgroups (List.forall_mem_nil _) haccs
  | cons first groups ih =>
    obtain ⟨k, accs⟩ := first
    obtain ⟨hfirst, hrest⟩ := List.pairwise_cons.mp hgroups
    obtain ⟨hk, horder⟩ := List.forall_mem_cons.mp horder
    unfold addToGroups at h
    cases hcompare : compare (cls key) (cls k) with
    | lt =>
      simp only [hk, hcompare, Outcome.bind_eq_ok, Outcome.pure_eq_ok] at h
      obtain ⟨new, hnew, rfl⟩ := h
      refine added_first hgroups (List.forall_mem_cons.mpr ⟨hcompare, fun g hg => ?_⟩) hnew
      exact Std.TransCmp.lt_trans hcompare (hfirst g hg)
    | eq =>
      simp only [hk, hcompare, Outcome.bind_eq_ok, Outcome.pure_eq_ok] at h
      obtain ⟨accs', haccs', rfl⟩ := h
      exact added_to_first hgroups (Std.LawfulEqOrd.eq_of_compare hcompare).symm haccs'
    | gt =>
      simp only [hk, hcompare, Outcome.bind_eq_ok, Outcome.pure_eq_ok] at h
      obtain ⟨groups', hgroups', rfl⟩ := h
      exact (ih hrest horder hgroups').cons hgroups (Std.OrientedCmp.lt_of_gt hcompare)

/-! ## Groups of all rows -/

/-- What groups hold of the rows that were met among all rows: every row has a group of its class,
and every group has the key of some row and in its accumulators the rows of its class. -/
structure Groups (rank : Nat → Value → Nat) (columns : List Nat) (calls : List AggregateCall)
    (all met : List Row) (groups : List (Row × List (Option Value))) : Prop where
  inOrder : InOrder (keyClass rank columns) groups
  keys : ∀ g ∈ groups, KeyOver all columns g.1 ∧
    ∃ row ∈ met, keyClass rank columns g.1 = classOf rank columns row
  complete : ∀ row ∈ met, ∃ g ∈ groups, keyClass rank columns g.1 = classOf rank columns row
  totals : ∀ g ∈ groups, (met.filter (classOf rank columns · = keyClass rank columns g.1)).foldlM
    (fun accs row => addRow row calls accs) (emptyGroup calls) = .ok g.2

section

variable {rank : Nat → Value → Nat} {group : ColumnSet} {calls : List AggregateCall}
  {all : List Row} (hrank : ∀ i ∈ group.toList, Value.Ranks (rank i) (Row.inColumn all i))

include hrank

/-- One more row. -/
theorem Groups.add {met : List Row} {groups groups' : List (Row × List (Option Value))} {key row : Row}
    (h : Groups rank group.toList calls all met groups) (hrow : row ∈ all)
    (hkey : groupKey group row = .ok key) (hadd : addToGroups calls key row groups = .ok groups') :
    Groups rank group.toList calls all (met ++ [row]) groups' := by
  obtain ⟨rfl, hvalues⟩ := groupKey_eq_ok hkey
  have hover := keyOver_select hrow hvalues
  have hclass := keyClass_select rank group.toList row
  have hadded := addToGroups_added h.inOrder
    (fun g hg => order_eq_compare hrank hover (h.keys g hg).1) hadd
  have hnew : row ∈ met ++ [row] := List.mem_append_right _ List.mem_cons_self
  refine ⟨hadded.inOrder, fun g hg => ?_, fun r hr => ?_, fun g hg => ?_⟩
  · rcases hadded.origin g hg with ⟨hmem, -⟩ | ⟨heq, accs, -, hmem | ⟨hself, -⟩⟩
    · obtain ⟨hkeyOver, r, hr, hr'⟩ := h.keys g hmem
      exact ⟨hkeyOver, r, List.mem_append_left _ hr, hr'⟩
    · exact ⟨(h.keys _ hmem).1, row, hnew, heq.trans hclass⟩
    · rw [hself]
      exact ⟨hover, row, hnew, hclass⟩
  · rcases List.mem_append.mp hr with hr | hr
    · obtain ⟨g, hg, heq⟩ := h.complete r hr
      obtain ⟨g', hg', heq'⟩ := hadded.kept g hg
      exact ⟨g', hg', heq'.trans heq⟩
    · obtain ⟨g, hg, heq⟩ := hadded.found
      rw [List.mem_singleton.mp hr]
      exact ⟨g, hg, heq.trans hclass⟩
  · rw [List.filter_append, List.foldlM_append]
    rcases hadded.origin g hg with ⟨hmem, hother⟩ | ⟨heq, accs, haccs, horigin⟩
    · -- a group of another class
      rw [hclass] at hother
      rw [h.totals g hmem, List.filter_cons_of_neg (by simpa using Ne.symm hother)]
      rfl
    · rw [hclass] at heq
      have hbefore : (met.filter (classOf rank group.toList · = keyClass rank group.toList g.1)).foldlM
          (fun accs row => addRow row calls accs) (emptyGroup calls) = .ok accs := by
        rcases horigin with hmem | ⟨-, rfl, hnone⟩
        · exact h.totals (g.1, accs) hmem
        · -- the first row of its class
          rw [List.filter_eq_nil_iff.mpr]
          · rfl
          intro r hr hr'
          obtain ⟨g', hg', heq'⟩ := h.complete r hr
          exact hnone g' hg' (by rw [heq', of_decide_eq_true hr', heq, hclass])
      rw [hbefore, List.filter_cons_of_pos (by simpa using heq.symm)]
      show (addRow row calls accs >>= fun accs => pure accs) = _
      rw [bind_pure]
      exact haccs

/-- One row after the other. -/
theorem Groups.addAll {rows met : List Row} {groups groups' : List (Row × List (Option Value))}
    (h : Groups rank group.toList calls all met groups) (hrows : ∀ row ∈ rows, row ∈ all)
    (hadd : rows.foldlM (fun groups row => do
      let key ← groupKey group row
      addToGroups calls key row groups) groups = .ok groups') :
    Groups rank group.toList calls all (met ++ rows) groups' := by
  induction rows generalizing met groups with
  | nil =>
    cases hadd
    rw [List.append_nil]
    exact h
  | cons row rows ih =>
    obtain ⟨hrow, hrows⟩ := List.forall_mem_cons.mp hrows
    simp only [List.foldlM_cons, Outcome.bind_eq_ok] at hadd
    obtain ⟨next, ⟨key, hkey, hnext⟩, hadd⟩ := hadd
    have := ih (h.add hrank hrow hkey hnext) hrows hadd
    rwa [List.append_assoc] at this

theorem groupRows_groups {groups : List (Row × List (Option Value))}
    (h : groupRows group calls all = .ok groups) :
    Groups rank group.toList calls all all groups := by
  have hstart : Groups rank group.toList calls all [] [] :=
    ⟨List.Pairwise.nil, by simp, by simp, by simp⟩
  exact hstart.addAll hrank (fun _ hrow => hrow) h

end

/-! ## Accumulators of one call -/

/-- The value that a call takes from a row; null if there is none. -/
def argument (call : AggregateCall) (row : Row) : Value :=
  (argumentValue call row).toOption.getD .null

theorem argument_eq {call : AggregateCall} {row : Row} {v : Value}
    (h : argumentValue call row = .ok v) : argument call row = v := by
  rw [argument, h]
  rfl

/-- A call has that accumulator after rows. -/
structure Accumulates (call : AggregateCall) (rows : List Row) (start acc : Option Value) : Prop where
  reads : ∀ row ∈ rows, argumentValue call row = .ok (argument call row)
  folds : (rows.map (argument call)).foldlM call.function.step start = .ok acc

/-- Each call has an accumulator of its own. -/
theorem foldlM_addRow_cons {call : AggregateCall} {calls : List AggregateCall} {rows : List Row}
    {acc : Option Value} {accs result : List (Option Value)}
    (h : rows.foldlM (fun accs row => addRow row (call :: calls) accs) (acc :: accs) = .ok result) :
    ∃ acc' accs', result = acc' :: accs' ∧ Accumulates call rows acc acc' ∧
      rows.foldlM (fun accs row => addRow row calls accs) accs = .ok accs' := by
  induction rows generalizing acc accs with
  | nil =>
    cases h
    exact ⟨acc, accs, rfl, ⟨by simp, rfl⟩, rfl⟩
  | cons row rows ih =>
    simp only [List.foldlM_cons, addRow, Outcome.bind_eq_ok, Outcome.pure_eq_ok] at h
    obtain ⟨_, ⟨v, hv, acc₁, hacc₁, accs₁, haccs₁, rfl⟩, h⟩ := h
    obtain rfl := argument_eq hv
    obtain ⟨acc', accs', rfl, hacc, haccs⟩ := ih h
    refine ⟨acc', accs', rfl, ⟨List.forall_mem_cons.mpr ⟨hv, hacc.reads⟩, ?_⟩, ?_⟩
    · rw [List.map_cons, List.foldlM_cons, hacc₁]
      exact hacc.folds
    · rw [List.foldlM_cons, haccs₁]
      exact haccs

theorem accumulates_of_foldlM {calls : List AggregateCall} {rows : List Row}
    {accs : List (Option Value)}
    (h : rows.foldlM (fun accs row => addRow row calls accs) (emptyGroup calls) = .ok accs) :
    List.Forall₂ (fun call acc => Accumulates call rows call.function.start acc) calls accs := by
  induction calls generalizing accs with
  | nil =>
    have hnil : rows.foldlM (fun accs row => addRow row [] accs) [] =
        (Except.ok [] : Except EvalError (List (Option Value))) := by
      clear h
      induction rows with
      | nil => rfl
      | cons row rows ih => exact ih
    cases hnil.symm.trans h
    exact .nil
  | cons call calls ih =>
    obtain ⟨acc', accs', rfl, hacc, haccs⟩ := foldlM_addRow_cons h
    exact .cons hacc (ih haccs)

/-! ## Rows of an aggregate -/

/-- The classes of rows; without columns there is one class even if there are no rows. -/
def IsClass (rank : Nat → Value → Nat) (columns : List Nat) (rows : List Row) (k : List Nat) : Prop :=
  (∃ row ∈ rows, classOf rank columns row = k) ∨ columns = [] ∧ k = []

/-- One row for each class of rows: a key of the class, followed for each call by a value that the
call may have for the rows of the class. -/
structure Grouped (rank : Nat → Value → Nat) (columns : List Nat) (calls : List AggregateCall)
    (value : AggregateCall → List Row → Value → Prop) (rows out : List Row) : Prop where
  nodup : (out.map (keyClass rank columns)).Nodup
  classes : ∀ k, k ∈ out.map (keyClass rank columns) ↔ IsClass rank columns rows k
  values : ∀ o ∈ out, ∃ key values, o = key ++ values ∧ KeyOver rows columns key ∧
    List.Forall₂ (fun call v =>
      value call (rows.filter (classOf rank columns · = keyClass rank columns o)) v) calls values

/-- The value that a call ends with after rows. -/
def Accumulated (call : AggregateCall) (rows : List Row) (v : Value) : Prop :=
  ∃ acc, v = acc.getD .null ∧ Accumulates call rows call.function.start acc

theorem KeyOver.length_eq {rows : List Row} {columns : List Nat} {key : Row}
    (h : KeyOver rows columns key) : key.length = columns.length := (List.Forall₂.length_eq h).symm

/-- The class of a row that starts with a key is that of the key. -/
theorem keyClass_append {rank : Nat → Value → Nat} {columns : List Nat} {key values : Row}
    (h : key.length = columns.length) :
    keyClass rank columns (key ++ values) = keyClass rank columns key := by
  unfold keyClass
  rw [← List.append_nil columns, List.zipWith_append (by simpa using h.symm)]
  simp

/-- An aggregate has its rows in the order of their classes. -/
theorem aggregateRows_inOrder {rank : Nat → Value → Nat} {group : ColumnSet}
    {calls : List AggregateCall} {rows out : List Row}
    (hrank : ∀ i ∈ group.toList, Value.Ranks (rank i) (Row.inColumn rows i))
    (h : aggregateRows group calls rows = .ok out) :
    (out.map (keyClass rank group.toList)).Pairwise (compare · · = .lt) := by
  simp only [aggregateRows, Outcome.bind_eq_ok, Outcome.pure_eq_ok] at h
  obtain ⟨groups, hgroups, rfl⟩ := h
  have hspec := groupRows_groups hrank hgroups
  split
  · exact List.pairwise_singleton _ _
  · rw [List.map_map, List.pairwise_map]
    refine hspec.inOrder.imp_of_mem fun {g g'} hg hg' hlt => ?_
    simp only [Function.comp]
    rwa [keyClass_append (hspec.keys g hg).1.length_eq,
      keyClass_append (hspec.keys g' hg').1.length_eq]

/-- An aggregate has one row for each class of its rows. -/
theorem aggregateRows_grouped {rank : Nat → Value → Nat} {group : ColumnSet}
    {calls : List AggregateCall} {rows out : List Row}
    (hrank : ∀ i ∈ group.toList, Value.Ranks (rank i) (Row.inColumn rows i))
    (h : aggregateRows group calls rows = .ok out) :
    Grouped rank group.toList calls Accumulated rows out := by
  have hnodup := (aggregateRows_inOrder hrank h).imp ne_of_compare_lt
  simp only [aggregateRows, Outcome.bind_eq_ok, Outcome.pure_eq_ok] at h
  obtain ⟨groups, hgroups, rfl⟩ := h
  have hspec := groupRows_groups hrank hgroups
  have hvalues : ∀ {part : List Row} {accs : List (Option Value)},
      part.foldlM (fun accs row => addRow row calls accs) (emptyGroup calls) = .ok accs →
      List.Forall₂ (fun call v => Accumulated call part v) calls (accs.map (·.getD .null)) :=
    fun hfold => List.forall₂_map_right_iff.mpr
      ((accumulates_of_foldlM hfold).imp fun _ acc hacc => ⟨acc, rfl, hacc⟩)
  split
  · next hempty =>
    -- a row of totals over no rows
    rw [if_pos hempty] at hnodup
    rw [Bool.and_eq_true, List.isEmpty_iff, ColumnSet.isEmpty, List.isEmpty_iff] at hempty
    obtain ⟨rfl, hcolumns⟩ := hempty
    have hrows : rows = [] := by
      rw [List.eq_nil_iff_forall_not_mem]
      intro row hrow
      obtain ⟨g, hg, -⟩ := hspec.complete row hrow
      cases hg
    subst hrows
    refine ⟨hnodup, fun k => ?_, List.forall_mem_singleton.mpr ⟨[], _, rfl, ?_, hvalues rfl⟩⟩
    · simp [IsClass, hcolumns, keyClass]
    · rw [hcolumns]
      exact .nil
  · next hsome =>
    rw [if_neg hsome] at hnodup
    have hclass : ∀ g ∈ groups, keyClass rank group.toList (g.1 ++ g.2.map (·.getD .null)) =
        keyClass rank group.toList g.1 :=
      fun g hg => keyClass_append (hspec.keys g hg).1.length_eq
    have hclasses : (groups.map fun (key, accs) => key ++ accs.map (·.getD .null)).map
        (keyClass rank group.toList) = groups.map (keyClass rank group.toList ·.1) := by
      rw [List.map_map]
      exact List.map_congr_left hclass
    refine ⟨hnodup, fun k => ?_, List.forall_mem_map.mpr fun g hg => ?_⟩
    · rw [hclasses, List.mem_map]
      constructor
      · rintro ⟨g, hg, rfl⟩
        obtain ⟨-, row, hrow, hclass⟩ := hspec.keys g hg
        exact .inl ⟨row, hrow, hclass.symm⟩
      · rintro (⟨row, hrow, rfl⟩ | ⟨hcolumns, rfl⟩)
        · exact hspec.complete row hrow
        · -- all groups are of the one class
          cases groups with
          | nil => simp [ColumnSet.isEmpty, hcolumns] at hsome
          | cons g groups => exact ⟨g, List.mem_cons_self, by rw [hcolumns]; rfl⟩
    · refine ⟨g.1, _, rfl, (hspec.keys g hg).1, ?_⟩
      rw [hclass g hg]
      exact hvalues (hspec.totals g hg)

end Execution

end QueryPlan
