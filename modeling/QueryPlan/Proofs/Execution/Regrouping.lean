import Mathlib.Data.List.Nodup
import Mathlib.Data.List.Perm.Subperm
import QueryPlan.Proofs.Execution.Totals
/-!
# Grouping rows that are grouped

Rows that were grouped finer can be grouped again: the classes of the coarser grouping are read off
the classes of the finer one, and a coarse class is made up of fine ones. Where the finer grouping has
no two rows of one coarse class, nothing is left to group.
-/
namespace QueryPlan

/-! ## Places in a set of columns -/

namespace ColumnSet

theorem indexOf?_eq_some {s : ColumnSet} {bit i : Nat} :
    s.indexOf? bit = some i ↔ s.toList[i]? = some bit := by
  rw [indexOf?, List.findIdx?_eq_some_iff_getElem, List.getElem?_eq_some_iff]
  refine exists_congr fun hi => ⟨fun h => beq_iff_eq.mp h.1, fun h => ⟨beq_iff_eq.mpr h, ?_⟩⟩
  intro j hj
  have hlt := List.pairwise_iff_getElem.mp s.increasing j i (Nat.lt_trans hj hi) hi hj
  rw [h] at hlt
  simpa using Nat.ne_of_lt hlt

/-- The indices of some columns in ascending order, where all are in the set. -/
theorem forall₂_filterMap_indexOf? {s : ColumnSet} {bits : List Nat}
    (h : ∀ bit ∈ bits, bit ∈ s.toList) :
    List.Forall₂ (fun bit i => s.toList[i]? = some bit) bits (bits.filterMap s.indexOf?) := by
  induction bits with
  | nil => exact .nil
  | cons bit bits ih =>
    obtain ⟨hbit, hbits⟩ := List.forall_mem_cons.mp h
    obtain ⟨i, hi⟩ := List.mem_iff_getElem?.mp hbit
    rw [List.filterMap_cons_some (indexOf?_eq_some.mpr hi)]
    exact .cons hi (ih hbits)

end ColumnSet

/-! ## Equal rows -/

namespace Row

theorem same_iff {a b : Row} :
    a.same b = true ↔ List.Forall₂ (fun v w : Value => compare v w = .eq) a b := by
  rw [same, beq_iff_eq]
  induction a generalizing b with
  | nil => cases b <;> simp [order]
  | cons v a ih =>
    cases b with
    | nil => simp [order]
    | cons w b => rw [order, Ordering.then_eq_eq, List.forall₂_cons, ih]

/-- The lists have equal rows equally often. -/
def Similar (rows rows' : List Row) : Prop :=
  ∃ permuted, rows.Perm permuted ∧ List.Forall₂ (fun a b => a.same b = true) permuted rows'

theorem Similar.length_eq {rows rows' : List Row} (h : Similar rows rows') :
    rows.length = rows'.length := by
  obtain ⟨permuted, hperm, hsame⟩ := h
  rw [hperm.length_eq, hsame.length_eq]

/-- Lists with one row for each of the same classes are similar if rows of one class are equal. -/
theorem similar_of_classes {κ : Type} {cls : Row → κ} {rows rows' : List Row}
    (h : (rows.map cls).Nodup) (h' : (rows'.map cls).Nodup)
    (hmem : ∀ k, k ∈ rows.map cls ↔ k ∈ rows'.map cls)
    (hsame : ∀ a ∈ rows, ∀ b ∈ rows', cls a = cls b → a.same b = true) : Similar rows rows' := by
  have hperm : (rows.map cls).Perm (rows'.map cls) := (List.perm_ext_iff_of_nodup h h').mpr hmem
  have hforall : List.Forall₂ (fun a k => cls a = k) rows (rows.map cls) :=
    List.forall₂_map_right_iff.mpr (List.forall₂_same.mpr fun _ _ => rfl)
  obtain ⟨permuted, hrows, hclasses⟩ : Relation.Comp List.Perm
      (List.Forall₂ fun a k => cls a = k) rows (rows'.map cls) := by
    rw [← List.forall₂_comp_perm_eq_perm_comp_forall₂]
    exact ⟨_, hforall, hperm⟩
  refine ⟨permuted, hrows, ?_⟩
  have hall : ∀ a ∈ permuted, ∀ b ∈ rows', cls a = cls b → a.same b = true :=
    fun a ha => hsame a (hrows.mem_iff.mpr ha)
  rw [List.forall₂_map_right_iff] at hclasses
  clear hrows hforall hperm hsame h h' hmem
  induction hclasses with
  | nil => exact .nil
  | cons heq _ ih =>
    refine .cons (hall _ List.mem_cons_self _ List.mem_cons_self heq) (ih fun a ha b hb => ?_)
    exact hall a (List.mem_cons_of_mem _ ha) b (List.mem_cons_of_mem _ hb)

end Row

namespace Execution

/-- The elements of some classes, class by class. -/
theorem perm_flatMap_filter {α κ : Type} [DecidableEq κ] {cls : α → κ} {ks : List κ} (hks : ks.Nodup)
    (l : List α) : (ks.flatMap fun k => l.filter (cls · = k)).Perm (l.filter (cls · ∈ ks)) := by
  induction ks with
  | nil => simp
  | cons k ks ih =>
    obtain ⟨hk, hks⟩ := List.nodup_cons.mp hks
    have hclass : (l.filter (cls · ∈ k :: ks)).filter (cls · = k) = l.filter (cls · = k) := by
      rw [List.filter_filter]
      exact List.filter_congr fun a _ => by by_cases h : cls a = k <;> simp [h]
    have hrest : (l.filter (cls · ∈ k :: ks)).filter (fun a => !decide (cls a = k)) =
        l.filter (cls · ∈ ks) := by
      rw [List.filter_filter]
      refine List.filter_congr fun a _ => ?_
      by_cases h : cls a = k
      · simp [h, hk]
      · simp [h]
    have hsplit := List.filter_append_perm (fun a => decide (cls a = k))
      (l.filter (cls · ∈ k :: ks))
    rw [hclass, hrest] at hsplit
    rw [List.flatMap_cons]
    exact (List.Perm.append_left _ (ih hks)).trans hsplit

/-! ## Rows of one class -/

section

variable {rank : Nat → Value → Nat} {columns : List Nat} {calls : List AggregateCall}
  {pool : AggregateCall → List Value} {rows out out' : List Row}

/-- Keys of one class have values of the same numbers. -/
theorem KeyOver.forall₂_of_keyClass_eq {R : Value → Value → Prop}
    (hR : ∀ i ∈ columns, ∀ v ∈ Row.inColumn rows i, ∀ w ∈ Row.inColumn rows i,
      rank i v = rank i w → R v w) {key key' : Row} (hkey : KeyOver rows columns key)
    (hkey' : KeyOver rows columns key') (h : keyClass rank columns key = keyClass rank columns key') :
    List.Forall₂ R key key' := by
  induction hkey generalizing key' with
  | nil =>
    cases hkey'
    exact .nil
  | cons hv _ ih =>
    cases hkey' with
    | cons hv' hkey' =>
      obtain ⟨hi, hrest⟩ := List.forall_mem_cons.mp hR
      obtain ⟨hnumber, hclass⟩ := List.cons_eq_cons.mp h
      exact .cons (hi _ hv _ hv' hnumber) (ih hrest hkey' hclass)

/-- Rows of one class in two groupings are related column by column, if values of one number are and
what a call may have for the same rows. -/
theorem Grouped.forall₂_of_keyClass_eq {R : Value → Value → Prop}
    {value : AggregateCall → List Row → Value → Prop}
    (h : Grouped rank columns calls value rows out) (h' : Grouped rank columns calls value rows out')
    (hkeys : ∀ i ∈ columns, ∀ v ∈ Row.inColumn rows i, ∀ w ∈ Row.inColumn rows i,
      rank i v = rank i w → R v w)
    (hcalls : ∀ call ∈ calls, ∀ part v w, value call part v → value call part w → R v w)
    {a b : Row} (ha : a ∈ out) (hb : b ∈ out')
    (hclass : keyClass rank columns a = keyClass rank columns b) : List.Forall₂ R a b := by
  obtain ⟨key, values, rfl, hkey, hvalues⟩ := h.values a ha
  obtain ⟨key', values', rfl, hkey', hvalues'⟩ := h'.values b hb
  rw [← hclass] at hvalues'
  rw [keyClass_append hkey.length_eq, keyClass_append hkey'.length_eq] at hclass
  refine List.rel_append (hkey.forall₂_of_keyClass_eq hkeys hkey' hclass) ?_
  have hboth := (List.forall₂_and_left _ _).mpr ⟨fun call hcall => hcall, hvalues⟩
  refine Outcome.forall₂_trans (fun v call w hv hw => ?_) hboth.flip hvalues'
  exact hcalls call hv.1 _ v w hv.2 hw

/-- Two groupings of one list of rows return equal rows. -/
theorem Grouped.similar (hrank : ∀ i ∈ columns, Value.Ranks (rank i) (Row.inColumn rows i))
    (hpicks : ∀ call ∈ calls, call.function.picks = true → Value.Ordered (pool call))
    (h : Grouped rank columns calls (Totalled pool) rows out)
    (h' : Grouped rank columns calls (Totalled pool) rows out') : Row.Similar out out' := by
  refine Row.similar_of_classes h.nodup h'.nodup
    (fun k => (h.classes k).trans (h'.classes k).symm) fun a ha b hb hclass => ?_
  refine Row.same_iff.mpr (h.forall₂_of_keyClass_eq h' (fun i hi v hv w hw hnumber => ?_) ?_ ha hb
    hclass)
  · rw [hrank i hi v hv w hw, Nat.compare_eq_eq]
    exact hnumber
  · exact fun call hcall part v w hv hw => hv.compare_eq (hpicks call hcall) hw

end

/-! ## Columns of grouped rows -/

/-- The numbers at some places of a class. -/
def pick (places : List Nat) (k : List Nat) : List Nat := places.map fun p => k[p]?.getD 0

theorem classOf_getElem? {rank : Nat → Value → Nat} {columns : List Nat} {row : Row} {p i : Nat}
    (h : columns[p]? = some i) : (classOf rank columns row)[p]? = some (rank i (row.valueAt i)) := by
  rw [classOf, List.getElem?_map, h]
  rfl

/-- The class of a row by some of the columns. -/
theorem classOf_pick {rank : Nat → Value → Nat} {columns places selected : List Nat}
    (h : List.Forall₂ (fun p i => columns[p]? = some i) places selected) (row : Row) :
    classOf rank selected row = pick places (classOf rank columns row) := by
  induction h with
  | nil => rfl
  | cons hp _ ih =>
    rw [pick, List.map_cons, classOf_getElem? hp]
    exact congrArg (_ :: ·) ih

theorem pick_pick {places indices finer : List Nat}
    (h : List.Forall₂ (fun p j => finer[j]? = some p) places indices) (k : List Nat) :
    pick indices (pick finer k) = pick places k := by
  induction h with
  | nil => rfl
  | @cons p j places indices hp _ ih =>
    have hindex : (pick finer k)[j]? = some (k[p]?.getD 0) := by
      rw [pick, List.getElem?_map, hp]
      rfl
    rw [pick, List.map_cons, hindex]
    exact congrArg (_ :: ·) ih

section

variable {rank : Nat → Value → Nat} {columns : List Nat} {calls : List AggregateCall}
  {value : AggregateCall → List Row → Value → Prop} {rows out : List Row} {t : Row}

theorem Grouped.imp {value' : AggregateCall → List Row → Value → Prop}
    (h : Grouped rank columns calls value rows out)
    (himp : ∀ call ∈ calls, ∀ part v, (∀ row ∈ part, row ∈ rows) → value call part v →
      value' call part v) : Grouped rank columns calls value' rows out := by
  refine ⟨h.nodup, h.classes, fun o ho => ?_⟩
  obtain ⟨key, values, heq, hkey, hvalues⟩ := h.values o ho
  refine ⟨key, values, heq, hkey, ?_⟩
  refine ((List.forall₂_and_left _ _).mpr ⟨fun call hcall => hcall, hvalues⟩).imp ?_
  rintro call v ⟨hcall, hv⟩
  exact himp call hcall _ v (fun row hrow => List.mem_of_mem_filter hrow) hv

theorem Grouped.exists_mem (h : Grouped rank columns calls value rows out) {row : Row}
    (hrow : row ∈ rows) : ∃ t ∈ out, keyClass rank columns t = classOf rank columns row :=
  List.mem_map.mp ((h.classes _).mpr (.inl ⟨row, hrow, rfl⟩))

variable (h : Grouped rank columns calls value rows out) (ht : t ∈ out)

include h ht

/-- A group column of a grouped row. -/
theorem Grouped.key_at {p i : Nat} (hp : columns[p]? = some i) : ∃ v, t[p]? = some v ∧
    v ∈ Row.inColumn rows i ∧ (keyClass rank columns t)[p]? = some (rank i v) := by
  obtain ⟨key, values, rfl, hkey, -⟩ := h.values t ht
  have hlt : p < key.length := by
    rw [hkey.length_eq]
    exact (List.getElem?_eq_some_iff.mp hp).1
  obtain ⟨hp', heq⟩ := List.getElem?_eq_some_iff.mp hp
  have hv : key[p]? = some key[p] := List.getElem?_eq_getElem hlt
  refine ⟨key[p], by rw [List.getElem?_append_left hlt, hv], ?_, ?_⟩
  · have := hkey.get hp' hlt
    rwa [List.get_eq_getElem, List.get_eq_getElem, heq] at this
  · rw [keyClass_append hkey.length_eq, keyClass, List.getElem?_zipWith, hp, hv]

omit ht in
theorem Grouped.inColumn_subset {p i : Nat} (hp : columns[p]? = some i) {v : Value}
    (hv : v ∈ Row.inColumn out p) : v ∈ Row.inColumn rows i := by
  obtain ⟨t, ht, hv⟩ := Row.mem_inColumn.mp hv
  obtain ⟨w, hw, hmem, -⟩ := h.key_at ht hp
  rw [hw] at hv
  cases hv
  exact hmem

/-- A column of a grouped row after the group columns. -/
theorem Grouped.value_at {j : Nat} {call : AggregateCall} (hj : calls[j]? = some call) :
    ∃ v, t[columns.length + j]? = some v ∧
      value call (rows.filter (classOf rank columns · = keyClass rank columns t)) v := by
  obtain ⟨key, values, rfl, hkey, hvalues⟩ := h.values t ht
  obtain ⟨hj', heq⟩ := List.getElem?_eq_some_iff.mp hj
  have hlt : j < values.length := by
    rw [← hvalues.length_eq]
    exact hj'
  refine ⟨values[j], ?_, ?_⟩
  · rw [← hkey.length_eq, List.getElem?_append_right (Nat.le_add_right _ _), Nat.add_sub_cancel_left,
      List.getElem?_eq_getElem hlt]
  · have := hvalues.get hj' hlt
    rwa [List.get_eq_getElem, List.get_eq_getElem, heq] at this

/-- Group columns of a grouped row are a key over columns of other rows that hold no less. -/
theorem Grouped.select_key {rank' : Nat → Value → Nat} {places selected : List Nat} {all : List Row}
    (hplaces : List.Forall₂ (fun p i => ∃ j, columns[p]? = some j ∧ rank j = rank' i ∧
      ∀ v ∈ Row.inColumn rows j, v ∈ Row.inColumn all i) places selected) :
    KeyOver all selected (t.select places) ∧
      keyClass rank' selected (t.select places) = pick places (keyClass rank columns t) := by
  induction hplaces with
  | nil => exact ⟨.nil, rfl⟩
  | @cons p i places selected hp _ ih =>
    obtain ⟨j, hj, hrank, hvalues⟩ := hp
    obtain ⟨v, hv, hmem, hclass⟩ := h.key_at ht hj
    obtain ⟨hkey, hrest⟩ := ih
    rw [Row.select, List.map_cons, Row.valueAt_eq hv]
    refine ⟨.cons (hvalues v hmem) hkey, ?_⟩
    rw [pick, List.map_cons, hclass, hrank]
    exact congrArg (_ :: ·) hrest

/-- Columns of a grouped row after the group columns. -/
theorem Grouped.select_values {positions : List Nat} {selected : List AggregateCall}
    (hpositions : List.Forall₂ (fun p call => ∃ j, p = columns.length + j ∧ calls[j]? = some call)
      positions selected) :
    List.Forall₂ (fun call v =>
      value call (rows.filter (classOf rank columns · = keyClass rank columns t)) v)
      selected (t.select positions) := by
  induction hpositions with
  | nil => exact .nil
  | cons hp _ ih =>
    obtain ⟨j, rfl, hj⟩ := hp
    obtain ⟨v, hv, hvalue⟩ := h.value_at ht hj
    refine .cons ?_ ih
    rw [Row.valueAt_eq hv]
    exact hvalue

end

theorem select_append (places positions : List Nat) (row : Row) :
    row.select (places ++ positions) = row.select places ++ row.select positions :=
  List.map_append

theorem eq_nil_of_places {columns places selected : List Nat}
    (h : List.Forall₂ (fun p i => columns[p]? = some i) places selected) (hcolumns : columns = []) :
    places = [] ∧ selected = [] := by
  subst hcolumns
  cases h with
  | nil => exact ⟨rfl, rfl⟩
  | cons hp _ => cases hp

/-! ## Coarser groups -/

section

variable {rank : Nat → Value → Nat} {columns places selected : List Nat}
  {calls chosen : List AggregateCall} {rows grouped : List Row}
  (hplaces : List.Forall₂ (fun p i => columns[p]? = some i) places selected)

include hplaces

/-- A coarse class has a grouped row, but for the class of no rows by no columns. -/
theorem Grouped.isClass_iff {value : AggregateCall → List Row → Value → Prop}
    (h : Grouped rank columns calls value rows grouped) (k : List Nat) :
    IsClass rank selected rows k ↔
      (∃ t ∈ grouped, pick places (keyClass rank columns t) = k) ∨ selected = [] ∧ k = [] := by
  constructor
  · rintro (⟨row, hrow, rfl⟩ | hnil)
    · obtain ⟨t, ht, hclass⟩ := h.exists_mem hrow
      exact .inl ⟨t, ht, by rw [hclass, classOf_pick hplaces]⟩
    · exact .inr hnil
  · rintro (⟨t, ht, rfl⟩ | hnil)
    · rcases (h.classes _).mp (List.mem_map_of_mem ht) with ⟨row, hrow, hclass⟩ | ⟨hcolumns, -⟩
      · exact .inl ⟨row, hrow, by rw [classOf_pick hplaces, hclass]⟩
      · obtain ⟨rfl, hselected⟩ := eq_nil_of_places hplaces hcolumns
        exact .inr ⟨hselected, rfl⟩
    · exact .inr hnil

theorem Grouped.select_selected {value : AggregateCall → List Row → Value → Prop}
    (h : Grouped rank columns calls value rows grouped) {t : Row} (ht : t ∈ grouped)
    (values : Row) : KeyOver rows selected (t.select places) ∧
      keyClass rank selected (t.select places ++ values) =
        pick places (keyClass rank columns t) := by
  obtain ⟨hkey, hclass⟩ := h.select_key ht
    (hplaces.imp fun p i hp => ⟨i, hp, rfl, fun v hv => hv⟩)
  exact ⟨hkey, by rw [keyClass_append hkey.length_eq, hclass]⟩

/-- Rows of different coarse classes need no more grouping. -/
theorem Grouped.select {value : AggregateCall → List Row → Value → Prop} {positions : List Nat}
    (h : Grouped rank columns calls value rows grouped) (hnil : places = [] → columns = [])
    (hpositions : List.Forall₂ (fun p call => ∃ j, p = columns.length + j ∧ calls[j]? = some call)
      positions chosen)
    (hnodup : (grouped.map fun t => pick places (keyClass rank columns t)).Nodup) :
    Grouped rank selected chosen value rows (grouped.map (Row.select (places ++ positions))) := by
  have hclass : ∀ t ∈ grouped, keyClass rank selected (t.select (places ++ positions)) =
      pick places (keyClass rank columns t) := by
    intro t ht
    rw [select_append]
    exact (h.select_selected hplaces ht _).2
  have hclasses : (grouped.map (Row.select (places ++ positions))).map (keyClass rank selected) =
      grouped.map fun t => pick places (keyClass rank columns t) := by
    rw [List.map_map]
    exact List.map_congr_left hclass
  refine ⟨by rw [hclasses]; exact hnodup, fun k => ?_, List.forall_mem_map.mpr fun t ht => ?_⟩
  · rw [hclasses, h.isClass_iff hplaces, List.mem_map]
    refine ⟨.inl, ?_⟩
    rintro (hmem | ⟨hselected, rfl⟩)
    · exact hmem
    · -- then the rows are not grouped by columns at all
      rw [hselected] at hplaces
      obtain rfl := List.forall₂_nil_right_iff.mp hplaces
      have hcolumns := hnil rfl
      obtain ⟨t, ht, -⟩ := List.mem_map.mp ((h.classes []).mpr (.inr ⟨hcolumns, rfl⟩))
      exact ⟨t, ht, rfl⟩
  · refine ⟨_, _, select_append _ _ _, (h.select_selected hplaces ht []).1, ?_⟩
    have hpart : rows.filter (classOf rank selected · =
        keyClass rank selected (t.select (places ++ positions))) =
        rows.filter (classOf rank columns · = keyClass rank columns t) := by
      rw [hclass t ht]
      refine List.filter_congr fun row hrow => ?_
      obtain ⟨t', ht', hrowClass⟩ := h.exists_mem hrow
      rw [classOf_pick hplaces, ← hrowClass, decide_eq_decide]
      constructor
      · intro heq
        rw [List.inj_on_of_nodup_map hnodup ht' ht heq]
      · intro heq
        rw [heq]
    rw [hpart]
    exact h.select_values ht hpositions

end

/-! ## Grouping again -/

/-- Numbers for the group columns of grouped rows: those of the columns that were grouped by. -/
def groupedRank (rank : Nat → Value → Nat) (columns : List Nat) (p : Nat) : Value → Nat :=
  rank (columns[p]?.getD 0)

theorem groupedRank_eq {rank : Nat → Value → Nat} {columns : List Nat} {p i : Nat}
    (h : columns[p]? = some i) : groupedRank rank columns p = rank i := by
  rw [groupedRank, h, Option.getD_some]

/-- The class of a key does not depend on where its columns stand. -/
theorem keyClass_groupedRank {rank : Nat → Value → Nat} {columns places selected : List Nat}
    (h : List.Forall₂ (fun p i => columns[p]? = some i) places selected) :
    keyClass (groupedRank rank columns) places = keyClass rank selected := by
  funext key
  induction h generalizing key with
  | nil => rfl
  | cons hp _ ih =>
    cases key with
    | nil => rfl
    | cons v key =>
      rw [keyClass, List.zipWith_cons_cons, groupedRank_eq hp]
      exact congrArg (_ :: ·) (ih key)

theorem exists_column {columns places selected : List Nat}
    (h : List.Forall₂ (fun p i => columns[p]? = some i) places selected) {p : Nat} (hp : p ∈ places) :
    ∃ i, columns[p]? = some i := by
  induction h with
  | nil => cases hp
  | cons hq _ ih =>
    rcases List.mem_cons.mp hp with rfl | hp
    · exact ⟨_, hq⟩
    · exact ih hp

/-- Values of grouped rows have the numbers of the columns that were grouped by. -/
theorem Grouped.ranks_again {rank : Nat → Value → Nat} {columns : List Nat}
    {calls : List AggregateCall} {value : AggregateCall → List Row → Value → Prop}
    {rows grouped : List Row} (h : Grouped rank columns calls value rows grouped) {p i : Nat}
    (hp : columns[p]? = some i) (hrank : Value.Ranks (rank i) (Row.inColumn rows i)) :
    Value.Ranks (groupedRank rank columns p) (Row.inColumn grouped p) := by
  rw [groupedRank_eq hp]
  exact hrank.mono fun v hv => h.inColumn_subset hp hv

section

variable {rank : Nat → Value → Nat} {columns places selected finer indices : List Nat}
  {calls rolled : List AggregateCall} {value value' : AggregateCall → List Row → Value → Prop}
  {rows grouped again : List Row}
  (h : Grouped rank columns calls value rows grouped)
  (hagain : Grouped (groupedRank rank columns) finer rolled value' grouped again)
  (hplaces : List.Forall₂ (fun p i => columns[p]? = some i) places selected)
  (hfiner : ∀ p, p ∈ finer ↔ p ∈ places)
  (hindices : List.Forall₂ (fun p j => finer[j]? = some p) places indices)

include h hplaces hfiner

theorem Grouped.classOf_again {t : Row} (ht : t ∈ grouped) :
    classOf (groupedRank rank columns) finer t = pick finer (keyClass rank columns t) := by
  refine List.map_congr_left fun p hp => ?_
  obtain ⟨i, hi⟩ := exists_column hplaces ((hfiner p).mp hp)
  obtain ⟨v, hv, -, hclass⟩ := h.key_at ht hi
  rw [groupedRank_eq hi, Row.valueAt_eq hv, hclass]
  rfl

include hagain

/-- A row that is grouped again is of the class of a grouped row, but where there are no columns. -/
theorem Grouped.exists_of_again {b : Row} (hb : b ∈ again) :
    (∃ t ∈ grouped, keyClass (groupedRank rank columns) finer b =
        pick finer (keyClass rank columns t)) ∨ finer = [] := by
  rcases (hagain.classes _).mp (List.mem_map_of_mem hb) with ⟨t, ht, hclass⟩ | ⟨hnil, -⟩
  · exact .inl ⟨t, ht, by rw [← hclass, h.classOf_again hplaces hfiner ht]⟩
  · exact .inr hnil

include hindices

/-- A class is known from its selected columns. -/
theorem Grouped.again_injective {b : Row} {k : List Nat} (hb : b ∈ again)
    (heq : pick indices (keyClass (groupedRank rank columns) finer b) = pick places k) :
    keyClass (groupedRank rank columns) finer b = pick finer k := by
  rcases h.exists_of_again hagain hplaces hfiner hb with ⟨t, ht, hclass⟩ | rfl
  · rw [hclass, pick_pick hindices] at heq
    rw [hclass]
    refine List.map_congr_left fun p hp => ?_
    exact List.map_inj_left.mp heq p ((hfiner p).mp hp)
  · rfl

omit hfiner in
theorem Grouped.select_again {b : Row} (hb : b ∈ again) (values : Row) :
    KeyOver rows selected (b.select indices) ∧
      keyClass rank selected (b.select indices ++ values) =
        pick indices (keyClass (groupedRank rank columns) finer b) := by
  have hcolumns : List.Forall₂ (fun j i => ∃ p, finer[j]? = some p ∧
      groupedRank rank columns p = rank i ∧
      ∀ v ∈ Row.inColumn grouped p, v ∈ Row.inColumn rows i) indices selected := by
    clear hagain hb
    induction hindices generalizing selected with
    | nil =>
      cases hplaces
      exact .nil
    | @cons p j places indices hj _ ih =>
      cases hplaces with
      | @cons _ i _ selected hi hplaces =>
        exact .cons ⟨p, hj, groupedRank_eq hi, fun v hv => h.inColumn_subset hi hv⟩ (ih hplaces)
  obtain ⟨hkey, hclass⟩ := hagain.select_key hb hcolumns
  exact ⟨hkey, by rw [keyClass_append hkey.length_eq, hclass]⟩

/-- A row that is grouped again stands for the rows of its coarse class. -/
theorem Grouped.perm_again {b : Row} (hb : b ∈ again) :
    ((grouped.filter (classOf (groupedRank rank columns) finer · =
        keyClass (groupedRank rank columns) finer b)).flatMap fun t =>
      rows.filter (classOf rank columns · = keyClass rank columns t)).Perm
    (rows.filter (classOf rank selected · =
      pick indices (keyClass (groupedRank rank columns) finer b))) := by
  have hnodup := h.nodup.sublist (List.Sublist.map (keyClass rank columns)
    (List.filter_sublist (p := fun t => decide (classOf (groupedRank rank columns) finer t =
      keyClass (groupedRank rank columns) finer b)) (l := grouped)))
  have hperm := @perm_flatMap_filter _ _ _ (classOf rank columns) _ hnodup rows
  rw [List.flatMap_map] at hperm
  refine hperm.trans (List.Perm.of_eq (List.filter_congr fun row hrow => ?_))
  rw [decide_eq_decide, List.mem_map, classOf_pick hplaces]
  constructor
  · rintro ⟨t, ht, hclass⟩
    obtain ⟨ht, hq⟩ := List.mem_filter.mp ht
    rw [← of_decide_eq_true hq, h.classOf_again hplaces hfiner ht, pick_pick hindices, hclass]
  · intro heq
    obtain ⟨t, ht, hclass⟩ := h.exists_mem hrow
    rw [← hclass] at heq ⊢
    refine ⟨t, List.mem_filter.mpr ⟨ht, decide_eq_true ?_⟩, rfl⟩
    rw [h.classOf_again hplaces hfiner ht,
      h.again_injective hagain hplaces hfiner hindices hb heq.symm]

/-- Rows that are grouped again are of different coarse classes. -/
theorem Grouped.nodup_again :
    ((again.map (keyClass (groupedRank rank columns) finer)).map (pick indices)).Nodup := by
  refine hagain.nodup.map_on (List.forall_mem_map.mpr fun b hb => List.forall_mem_map.mpr
    fun b' hb' heq => ?_)
  rcases h.exists_of_again hagain hplaces hfiner hb' with ⟨t, ht, ht'⟩ | rfl
  · rw [ht', pick_pick hindices] at heq
    rw [ht', h.again_injective hagain hplaces hfiner hindices hb heq]
  · rfl

/-- Every coarse class has a row that is grouped again, and there are no others. -/
theorem Grouped.mem_again_iff (k : List Nat) :
    k ∈ (again.map (keyClass (groupedRank rank columns) finer)).map (pick indices) ↔
      IsClass rank selected rows k := by
  rw [h.isClass_iff hplaces, List.map_map, List.mem_map]
  constructor
  · rintro ⟨b, hb, rfl⟩
    rcases h.exists_of_again hagain hplaces hfiner hb with ⟨t, ht, ht'⟩ | rfl
    · exact .inl ⟨t, ht, by rw [Function.comp, ht', pick_pick hindices]⟩
    · obtain rfl : places = [] := List.eq_nil_iff_forall_not_mem.mpr fun p hp => by
        cases (hfiner p).mpr hp
      cases hplaces
      cases hindices
      exact .inr ⟨rfl, rfl⟩
  · rintro (⟨t, ht, rfl⟩ | ⟨rfl, rfl⟩)
    · obtain ⟨b, hb, hb'⟩ := hagain.exists_mem ht
      refine ⟨b, hb, ?_⟩
      rw [Function.comp, hb', h.classOf_again hplaces hfiner ht, pick_pick hindices]
    · cases hplaces
      cases hindices
      obtain rfl : finer = [] := List.eq_nil_iff_forall_not_mem.mpr fun p hp => by
        cases (hfiner p).mp hp
      obtain ⟨b, hb, -⟩ := List.mem_map.mp ((hagain.classes []).mpr (.inr ⟨rfl, rfl⟩))
      exact ⟨b, hb, rfl⟩

end

theorem forall₂_range_map {α : Type} (l : List α) (n : Nat) :
    List.Forall₂ (fun p a => ∃ j, p = n + j ∧ l[j]? = some a) ((List.range l.length).map (n + ·)) l := by
  refine List.forall₂_iff_get.mpr ⟨by simp, fun i hi hi' => ⟨i, ?_, ?_⟩⟩
  · simp
  · simp

/-- Rows that are grouped again and whose calls combine the totals are grouped as if they had not been
grouped before. Only the calls that are asked for have to be totals. -/
theorem Grouped.rollUp {rank : Nat → Value → Nat} {columns places selected finer indices : List Nat}
    {calls chosen rolled : List AggregateCall} {pool : AggregateCall → List Value}
    {value : AggregateCall → List Row → Value → Prop} {rows grouped again : List Row}
    (h : Grouped rank columns calls value rows grouped)
    (htotals : ∀ call ∈ chosen, ∀ part v, (∀ row ∈ part, row ∈ rows) → value call part v →
      Totalled pool call part v)
    (hpicks : ∀ call ∈ chosen, call.function.picks = true → Value.Ordered (pool call))
    (hagain : Grouped (groupedRank rank columns) finer rolled Accumulated grouped again)
    (hplaces : List.Forall₂ (fun p i => columns[p]? = some i) places selected)
    (hfiner : ∀ p, p ∈ finer ↔ p ∈ places)
    (hindices : List.Forall₂ (fun p j => finer[j]? = some p) places indices)
    (hrolled : List.Forall₂ (fun (call r : AggregateCall) => ∃ j, calls[j]? = some call ∧
      r.function = call.function.rollUp ∧ r.args = [columns.length + j]) chosen rolled) :
    Grouped rank selected chosen (Totalled pool) rows
      (again.map (Row.select (indices ++ (List.range rolled.length).map (finer.length + ·)))) := by
  have hclass : ∀ b ∈ again, keyClass rank selected
      (b.select (indices ++ (List.range rolled.length).map (finer.length + ·))) =
      pick indices (keyClass (groupedRank rank columns) finer b) := by
    intro b hb
    rw [select_append]
    exact (h.select_again hagain hplaces hindices hb _).2
  have hclasses : (again.map (Row.select
      (indices ++ (List.range rolled.length).map (finer.length + ·)))).map (keyClass rank selected) =
      (again.map (keyClass (groupedRank rank columns) finer)).map (pick indices) := by
    rw [List.map_map, List.map_map]
    exact List.map_congr_left hclass
  refine ⟨?_, fun k => ?_, List.forall_mem_map.mpr fun b hb => ?_⟩
  · rw [hclasses]
    exact h.nodup_again hagain hplaces hfiner hindices
  · rw [hclasses]
    exact h.mem_again_iff hagain hplaces hfiner hindices k
  · refine ⟨_, _, select_append _ _ _,
      (h.select_again hagain hplaces hindices hb []).1, ?_⟩
    rw [hclass b hb]
    have hvalues := hagain.select_values hb (forall₂_range_map rolled finer.length)
    have hperm := h.perm_again hagain hplaces hfiner hindices hb
    have hchosen := (List.forall₂_and_left _ _).mpr ⟨fun call hcall => hcall, hrolled⟩
    refine Outcome.forall₂_trans (fun call r v hr hv => ?_) hchosen hvalues
    obtain ⟨hmem, j, hj, hfunction, hargs⟩ := hr
    refine (Totalled.rollUp hfunction (hpicks call hmem) (fun t ht => ?_) hv).perm hperm
    -- the argument in a grouped row is the total of its class
    obtain ⟨w, hw, htotal⟩ := h.value_at (List.mem_of_mem_filter ht) hj
    have hargument : argumentValue r t = .ok w := by
      rw [argumentValue, hargs]
      simp only [columnValue, hw]
    rw [argument_eq hargument]
    exact htotals call hmem _ _ (fun row hrow => List.mem_of_mem_filter hrow) htotal

/-! ## Copied columns -/

section

variable {rank : Nat → Value → Nat} {columns selected copied : List Nat} {copy : Row → Row}
  {rows : List Row}
  (hcopy : ∀ row ∈ rows, ∀ g i : Nat, copied[g]? = some i → (copy row)[g]? = row[i]?)

include hcopy

theorem classOf_copy (hcolumns : List.Forall₂ (fun g i : Nat => copied[g]? = some i) columns selected)
    {row : Row} (hrow : row ∈ rows) :
    classOf (groupedRank rank copied) columns (copy row) = classOf rank selected row := by
  induction hcolumns with
  | nil => rfl
  | cons hg _ ih =>
    have hvalue : (copy row).valueAt _ = row.valueAt _ := congrArg (·.getD .null) (hcopy row hrow _ _ hg)
    rw [classOf, List.map_cons, groupedRank_eq hg, hvalue]
    exact congrArg (_ :: ·) ih

theorem argumentValue_copy {call mapped : AggregateCall}
    (hargs : List.Forall₂ (fun a b : Nat => copied[a]? = some b) call.args mapped.args) {row : Row}
    (hrow : row ∈ rows) : argumentValue call (copy row) = argumentValue mapped row := by
  unfold argumentValue
  generalize call.args = args, mapped.args = args' at hargs
  cases hargs with
  | nil => rfl
  | cons ha _ => simp only [columnValue, hcopy row hrow _ _ ha]

theorem Accumulated.of_copy {call mapped : AggregateCall} (hfunction : mapped.function = call.function)
    (hargs : List.Forall₂ (fun a b : Nat => copied[a]? = some b) call.args mapped.args) {part : List Row}
    (hpart : ∀ row ∈ part, row ∈ rows) {v : Value} (h : Accumulated call (part.map copy) v) :
    Accumulated mapped part v := by
  obtain ⟨acc, rfl, hacc⟩ := h
  have hargument : ∀ row ∈ part, argument call (copy row) = argument mapped row := fun row hrow => by
    rw [argument, argument, argumentValue_copy hcopy hargs (hpart row hrow)]
  refine ⟨acc, rfl, ⟨fun row hrow => ?_, ?_⟩⟩
  · have hreads := hacc.reads (copy row) (List.mem_map_of_mem hrow)
    rwa [argumentValue_copy hcopy hargs (hpart row hrow), hargument row hrow] at hreads
  · have hfolds := hacc.folds
    rw [List.map_map] at hfolds
    rw [hfunction, ← List.map_congr_left hargument]
    exact hfolds

/-- Grouping copies of rows is grouping the rows by the columns that were copied. -/
theorem Grouped.of_copies {calls chosen : List AggregateCall} {out : List Row}
    (hcolumns : List.Forall₂ (fun g i : Nat => copied[g]? = some i) columns selected)
    (hcalls : List.Forall₂ (fun (call mapped : AggregateCall) => mapped.function = call.function ∧
      List.Forall₂ (fun a b : Nat => copied[a]? = some b) call.args mapped.args) calls chosen)
    (h : Grouped (groupedRank rank copied) columns calls Accumulated (rows.map copy) out) :
    Grouped rank selected chosen Accumulated rows out := by
  have hkeyClass : keyClass (groupedRank rank copied) columns = keyClass rank selected :=
    keyClass_groupedRank hcolumns
  refine ⟨by rw [← hkeyClass]; exact h.nodup, fun k => ?_, fun o ho => ?_⟩
  · rw [← hkeyClass, h.classes k]
    refine or_congr ⟨?_, ?_⟩ (and_congr_left fun _ => ?_)
    · rintro ⟨_, hmem, hclass⟩
      obtain ⟨row, hrow, rfl⟩ := List.mem_map.mp hmem
      exact ⟨row, hrow, by rw [← classOf_copy hcopy hcolumns hrow, hclass]⟩
    · rintro ⟨row, hrow, hclass⟩
      exact ⟨copy row, List.mem_map_of_mem hrow, by rw [classOf_copy hcopy hcolumns hrow, hclass]⟩
    · rw [← List.length_eq_zero_iff, ← List.length_eq_zero_iff, hcolumns.length_eq]
  · obtain ⟨key, values, rfl, hkey, hvalues⟩ := h.values o ho
    refine ⟨key, values, rfl, ?_, ?_⟩
    · refine Outcome.forall₂_trans (fun i g v hg hv => ?_) hcolumns.flip hkey
      obtain ⟨_, hmem, hv⟩ := Row.mem_inColumn.mp hv
      obtain ⟨row, hrow, rfl⟩ := List.mem_map.mp hmem
      exact Row.mem_inColumn.mpr ⟨row, hrow, by rw [← hcopy row hrow g i hg, hv]⟩
    · refine Outcome.forall₂_trans (fun mapped call v hcall hv => ?_) hcalls.flip hvalues
      rw [← hkeyClass]
      rw [List.filter_map] at hv
      refine Accumulated.of_copy hcopy hcall.1 hcall.2 (fun row hrow => List.mem_of_mem_filter hrow) ?_
      convert hv using 2
      refine List.filter_congr fun row hrow => ?_
      rw [Function.comp, classOf_copy hcopy hcolumns hrow]

end

end Execution

end QueryPlan
