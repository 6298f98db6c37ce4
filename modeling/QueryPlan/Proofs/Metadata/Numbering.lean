import QueryPlan.Proofs.Metadata.Tracing
import QueryPlan.Proofs.Metadata.Orders
/-!
# The numbers of uses of tables

Uses of one table under a node are numbered from zero without gaps, one for each way to a scan of it.
Uses of later inputs are counted after those of earlier ones, and it is since there are no gaps that
counting the uses of a table gives the first number that is free. Lineages renumber the uses that they
speak of in the same way, so what they speak of are uses under the node.
-/
namespace QueryPlan

open Relation

/-! ## Sets of different elements -/

namespace OrderedSet

variable {α : Type} [Ord α] [Std.LawfulEqOrd α] {x : α} {xs ys : List α}

theorem replace_perm (h : x ∉ xs) : (replace x xs).Perm (x :: xs) := by
  induction xs with
  | nil => exact .refl _
  | cons y ys ih =>
    unfold replace
    split
    · exact .refl _
    · next heq => exact absurd (Std.LawfulEqOrd.eq_of_compare heq) (List.ne_of_not_mem_cons h)
    · exact ((ih (List.not_mem_of_not_mem_cons h)).cons y).trans (.swap x y ys)

theorem ofList_perm (h : xs.Nodup) : (ofList xs).Perm xs := by
  induction xs with
  | nil => exact .refl _
  | cons x xs ih =>
    obtain ⟨hx, hxs⟩ := List.nodup_cons.mp h
    exact (replace_perm fun hmem => hx ((ih hxs).mem_iff.mp hmem)).trans ((ih hxs).cons x)

theorem union_perm (h : xs.Disjoint ys) : (union xs ys).Perm (xs ++ ys) := by
  induction xs generalizing ys with
  | nil => exact .refl _
  | cons x xs ih =>
    obtain ⟨hx, hxs⟩ := List.disjoint_cons_left.mp h
    unfold union
    induction ys with
    | nil => exact (ih hxs).cons x
    | cons y ys ihys =>
      obtain ⟨hy, hys⟩ := List.disjoint_cons_right.mp h
      unfold mergeAt
      split
      · exact (ih hxs).cons x
      · next heq => exact absurd (Std.LawfulEqOrd.eq_of_compare heq) (List.ne_of_not_mem_cons hx)
      · have hrest := ihys hys (List.not_mem_of_not_mem_cons hx) (List.disjoint_cons_left.mp hys).2
        exact (hrest.cons y).trans List.perm_middle.symm

/-- Adding different elements to a set drops none. -/
theorem insertAll_perm (h : ys.Nodup) (hdisjoint : xs.Disjoint ys) :
    (insertAll xs ys).Perm (xs ++ ys) := by
  have hys := ofList_perm h
  refine (union_perm fun x hx hmem => ?_).trans (hys.append_left xs)
  exact hdisjoint hx (hys.mem_iff.mp hmem)

end OrderedSet

/-! ## Numbers without gaps -/

namespace TableRef

instance : Std.LawfulEqOrd TableRef where
  compare_self := TableRef.compare_self _
  eq_of_compare := TableRef.eq_of_compare

theorem mem_loop_eraseReps {name first : List String} {names acc : List (List String)} :
    name ∈ List.eraseRepsBy.loop (· == ·) first names acc ↔
      name = first ∨ name ∈ names ∨ name ∈ acc := by
  induction names generalizing first acc with
  | nil => simp [List.eraseRepsBy.loop, or_comm]
  | cons next names ih =>
    unfold List.eraseRepsBy.loop
    split
    · next heq =>
      rw [ih, beq_iff_eq.mp heq, List.mem_cons]
      tauto
    · rw [ih, List.mem_cons, List.mem_cons]
      tauto

theorem mem_eraseReps {name : List String} {names : List (List String)} :
    name ∈ names.eraseReps ↔ name ∈ names := by
  cases names with
  | nil => rfl
  | cons first names =>
    rw [List.eraseReps, List.eraseRepsBy, mem_loop_eraseReps, List.mem_cons]
    simp

theorem lookup_map {β : Type} {f : List String → β} {name : List String} {names : List (List String)}
    (h : name ∈ names) : (names.map fun n => (n, f n)).lookup name = some (f name) := by
  induction names with
  | nil => cases h
  | cons first names ih =>
    rw [List.map_cons, List.lookup_cons]
    by_cases heq : name = first
    · simp [heq]
    · rw [beq_false_of_ne heq]
      exact ih (List.mem_of_ne_of_mem heq h)

/-- A use counted after earlier ones. -/
def countedAfter (earlier : List TableRef) (r : TableRef) : TableRef :=
  { r with entity := usesOf earlier r.name + r.entity }

theorem after_eq (earlier own : List TableRef) : after earlier own = own.map (countedAfter earlier) := by
  refine List.map_congr_left fun r hr => ?_
  rw [lookup_map (mem_eraseReps.mpr (List.mem_map_of_mem hr))]
  rfl

/-- What an expression speaks of is renumbered as the uses are. -/
theorem renumber_of_mem {earlier own : List TableRef} {r : TableRef} (h : r ∈ own) :
    renumber earlier own r = countedAfter earlier r := by
  unfold renumber countedAfter
  dsimp only
  have hany : (own.any fun o => o.entity == r.entity && o.name == r.name) = true :=
    List.any_eq_true.mpr ⟨r, h, by simp⟩
  rw [hany, Bool.and_true]
  split
  · rfl
  · next hcount =>
    rw [decide_eq_true_eq, Nat.not_lt, Nat.le_zero] at hcount
    rw [hcount, Nat.zero_add]

/-- The uses of each of the tables are numbered from zero, one for each time that it is listed. -/
def Numbers (scans : List (List String)) (refs : List TableRef) : Prop :=
  refs.Nodup ∧ ∀ r, r ∈ refs ↔ r.entity < scans.count r.name

variable {scans scans' : List (List String)} {refs own : List TableRef}

theorem numbers_nil : Numbers [] [] := ⟨.nil, by simp⟩

theorem numbers_singleton (name : List String) : Numbers [name] [⟨name, 0⟩] := by
  refine ⟨List.nodup_singleton _, fun r => ?_⟩
  obtain ⟨name', entity⟩ := r
  rw [List.mem_singleton, List.count_singleton, TableRef.mk.injEq]
  by_cases h : name' = name
  · simp [h]
  · simp [h, Ne.symm h]

/-- Counting the uses of a table gives the first number that is free. -/
theorem Numbers.usesOf (h : Numbers scans refs) (name : List String) :
    usesOf refs name = scans.count name := by
  have hperm : (refs.filter (·.name == name)).Perm ((List.range (scans.count name)).map (⟨name, ·⟩)) := by
    refine (List.perm_ext_iff_of_nodup (h.1.filter _) ?_).mpr fun r => ?_
    · exact List.nodup_range.map fun a b hab => congrArg TableRef.entity hab
    · obtain ⟨name', entity⟩ := r
      rw [List.mem_filter, h.2, List.mem_map]
      simp only [beq_iff_eq, List.mem_range, TableRef.mk.injEq]
      constructor
      · rintro ⟨hlt, rfl⟩
        exact ⟨entity, hlt, rfl, rfl⟩
      · rintro ⟨k, hk, rfl, rfl⟩
        exact ⟨hk, rfl⟩
  rw [TableRef.usesOf, List.countP_eq_length_filter, hperm.length_eq, List.length_map, List.length_range]

theorem Numbers.insertAll (h : Numbers scans refs) (hown : Numbers scans' own) :
    Numbers (scans ++ scans') (OrderedSet.insertAll refs (after refs own)) := by
  have hentity : ∀ r : TableRef, (countedAfter refs r).entity = scans.count r.name + r.entity :=
    fun r => by rw [countedAfter, h.usesOf]
  have hinjective : ∀ r ∈ own, ∀ s ∈ own, countedAfter refs r = countedAfter refs s → r = s := by
    rintro ⟨name, i⟩ - ⟨name', j⟩ - heq
    obtain rfl : name = name' := congrArg TableRef.name heq
    have hij := congrArg TableRef.entity heq
    rw [hentity, hentity] at hij
    exact congrArg (TableRef.mk name) (Nat.add_left_cancel hij)
  have hnodup : (after refs own).Nodup := after_eq refs own ▸ hown.1.map_on hinjective
  have hmem : ∀ r, r ∈ after refs own ↔
      scans.count r.name ≤ r.entity ∧ r.entity < scans.count r.name + scans'.count r.name := by
    rintro ⟨name, entity⟩
    rw [after_eq, List.mem_map]
    constructor
    · rintro ⟨s, hs, heq⟩
      obtain rfl : s.name = name := congrArg TableRef.name heq
      have hvalue := (hentity s).symm.trans (congrArg TableRef.entity heq)
      have hlt := (hown.2 s).mp hs
      dsimp only at hvalue ⊢
      omega
    · rintro ⟨hle, hlt⟩
      dsimp only at hle hlt
      refine ⟨⟨name, entity - scans.count name⟩, (hown.2 _).mpr (by dsimp only; omega), ?_⟩
      rw [countedAfter, h.usesOf, TableRef.mk.injEq]
      exact ⟨rfl, by dsimp only; omega⟩
  have hdisjoint : refs.Disjoint (after refs own) := fun r hr hr' => by
    have hlt := (h.2 r).mp hr
    have hle := ((hmem r).mp hr').1
    omega
  have hperm := OrderedSet.insertAll_perm hnodup hdisjoint
  refine ⟨hperm.nodup_iff.mpr (h.1.append hnodup hdisjoint), fun r => ?_⟩
  rw [hperm.mem_iff, List.mem_append, h.2, hmem, List.count_append]
  omega

theorem numbers_together {scans : List (List (List String))} {parts : List (List TableRef)}
    (h : List.Forall₂ Numbers scans parts) : Numbers scans.flatten (together parts) := by
  suffices hfold : ∀ before refs, Numbers before refs → Numbers (before ++ scans.flatten)
      (parts.foldl (fun refs own => OrderedSet.insertAll refs (after refs own)) refs) from
    hfold [] [] numbers_nil
  induction h with
  | nil => exact fun before refs hrefs => by rwa [List.flatten_nil, List.append_nil]
  | cons hpart _ ih =>
    intro before refs hrefs
    rw [List.flatten_cons, ← List.append_assoc]
    exact ih _ _ (hrefs.insertAll hpart)

end TableRef

/-! ## Tables that an expression speaks of -/

namespace Expr

mutual

/-- The uses of tables that an expression speaks of, in reading order. -/
def tableList : Expr → List TableRef
  | tableColumn r _ _ => [r]
  | apply _ es _ => tableListOf es
  | _ => []

/-- The uses of tables that the expressions of a list speak of. -/
def tableListOf : List Expr → List TableRef
  | [] => []
  | e :: es => tableList e ++ tableListOf es

end

variable {r : TableRef} {e : Expr}

theorem tableListOf_eq (es : List Expr) : tableListOf es = es.flatMap tableList := by
  induction es with
  | nil => rfl
  | cons e es ih => simp [tableListOf, ih]

theorem mem_tableList_apply {op : Op} {es : List Expr} {t : DataType} :
    r ∈ (apply op es t).tableList ↔ ∃ e ∈ es, r ∈ e.tableList := by
  rw [tableList, tableListOf_eq, List.mem_flatMap]

theorem mem_tableList_mapColumns {f : Nat → DataType → Expr} (h : r ∈ (e.mapColumns f).tableList) :
    r ∈ e.tableList ∨ ∃ i ∈ e.columnList, ∃ t, r ∈ (f i t).tableList := by
  induction e using induct with
  | column i t => exact .inr ⟨i, List.mem_singleton_self i, t, h⟩
  | literal v => cases h
  | apply op es t ih =>
    rw [mapColumns, mapColumnsEach_eq, mem_tableList_apply] at h
    obtain ⟨e', he', hr⟩ := h
    obtain ⟨e, he, rfl⟩ := List.mem_map.mp he'
    rcases ih e he hr with hr | ⟨i, hi, hr⟩
    · exact .inl (mem_tableList_apply.mpr ⟨e, he, hr⟩)
    · exact .inr ⟨i, mem_columnList_apply.mpr ⟨e, he, hi⟩, hr⟩
  | tableColumn s i t => exact .inl h

theorem tableList_mapTables (f : TableRef → TableRef) (e : Expr) :
    (e.mapTables f).tableList = e.tableList.map f := by
  induction e using induct with
  | column i t => rfl
  | literal v => rfl
  | apply op es t ih =>
    rw [mapTables, mapTablesEach_eq, tableList, tableList, tableListOf_eq, tableListOf_eq,
      List.flatMap_map, List.map_flatMap]
    exact List.flatMap_congr ih
  | tableColumn s i t => rfl

theorem mem_tableList_of_mem_conjuncts {k : Expr} (hk : k ∈ e.conjuncts) (hr : r ∈ k.tableList) :
    r ∈ e.tableList := by
  induction e using induct_and with
  | and es t ih =>
    rw [conjuncts_apply_and] at hk
    obtain ⟨e, he, hk⟩ := List.mem_flatMap.mp hk
    exact mem_tableList_apply.mpr ⟨e, he, ih e he hk⟩
  | other e hother =>
    rw [conjuncts_of_not_and hother] at hk
    split at hk
    · cases hk
    · rwa [List.mem_singleton.mp hk] at hr

theorem Alike.tableList {e' : Expr} (h : Alike e e') : e.tableList = e'.tableList := by
  induction e using induct generalizing e' with
  | column i t => cases h; rfl
  | literal v => cases h; rfl
  | apply op es t ih =>
    cases h with
    | apply _ _ hes =>
      rw [Expr.tableList, Expr.tableList, tableListOf_eq, tableListOf_eq]
      induction hes with
      | nil => rfl
      | cons hhead _ ihes =>
        rw [List.forall_mem_cons] at ih
        rw [List.flatMap_cons, List.flatMap_cons, ih.1 hhead, ihes ih.2]
  | tableColumn s i t => cases h; rfl

/-- With its columns replaced, an expression speaks of what their origins speak of. -/
theorem ReplacedBy.exists_origin {origin : Nat → Expr → Prop} {e' : Expr} (h : e.ReplacedBy origin e')
    (he : e.tableList = []) (hr : r ∈ e'.tableList) :
    ∃ i ∈ e.columnList, ∃ a, origin i a ∧ r ∈ a.tableList := by
  rcases h with ⟨-, rfl⟩ | ⟨choice, hchoice, hmem⟩
  · rw [he] at hr
    cases hr
  · rcases mem_tableList_mapColumns (mem_tableList_of_mem_conjuncts hmem hr) with hr | ⟨i, hi, t, hr⟩
    · rw [he] at hr
      cases hr
    · obtain ⟨a, ha, horigin⟩ := hchoice i hi
      rw [ha] at hr
      exact ⟨i, hi, a, horigin, hr⟩

theorem ReplacedBy.of_column {origin : Nat → Expr → Prop} {i : Nat} {t : DataType} {e' : Expr}
    (h : (column i t).ReplacedBy origin e') : ∃ a, origin i a ∧ e' ∈ a.conjuncts := by
  rcases h with ⟨hnone, -⟩ | ⟨choice, hchoice, hmem⟩
  · cases hnone
  · obtain ⟨a, ha, horigin⟩ := hchoice i (List.mem_singleton_self i)
    refine ⟨a, horigin, ?_⟩
    rwa [substitute, mapColumns, ha, Option.getD_some] at hmem

end Expr

/-! ## Scans along the paths that are followed -/

namespace Cluster

/-- The nodes that uses of tables under a node are looked for under: all inputs of a join or a union,
the first input of a semi join and of other operators, and the member that stands for a subset. -/
def followed (c : Cluster) (id : NodeId) : List NodeId :=
  match c.operator id with
  | .subset _ => (c.node id).chosenMember?.toList
  | .join .semi _ _ => c.firstInput id
  | .join _ _ _ | .union _ _ => c.inputs id
  | _ => c.firstInput id

/-- The tables that are scanned along the paths from a node, once for each path. -/
inductive Scans (c : Cluster) : NodeId → List (List String) → Prop
  | scan {id : NodeId} {table : Table} (htable : (c.operator id).table? = some table) :
      Scans c id [table.name]
  | through {id : NodeId} (hnone : (c.operator id).table? = none)
      (scansOf : NodeId → List (List String)) (hfollowed : ∀ j ∈ c.followed id, Scans c j (scansOf j)) :
      Scans c id ((c.followed id).flatMap scansOf)

variable {c : Cluster} {id : NodeId} {scans scans' : List (List String)}

theorem Scans.unique (h : c.Scans id scans) (h' : c.Scans id scans') : scans = scans' := by
  induction h generalizing scans' with
  | scan htable =>
    cases h' with
    | scan htable' => rw [Option.some.inj (htable.symm.trans htable')]
    | through hnone => rw [htable] at hnone; cases hnone
  | through hnone scansOf _ ih =>
    cases h' with
    | scan htable' => rw [htable'] at hnone; cases hnone
    | through _ scansOf' hfollowed' => exact List.flatMap_congr fun j hj => ih j hj (hfollowed' j hj)

open Classical in
/-- The tables that are scanned along the paths from a node; none if a path leads back to a node on it. -/
noncomputable def scansOf (c : Cluster) (id : NodeId) : List (List String) :=
  if h : ∃ scans, c.Scans id scans then h.choose else []

theorem Scans.scansOf_eq (h : c.Scans id scans) : c.scansOf id = scans := by
  have hex : ∃ scans, c.Scans id scans := ⟨scans, h⟩
  rw [scansOf, dif_pos hex]
  exact hex.choose_spec.unique h

/-- Every path from the node ends at a scan, or where nothing is followed. -/
def Ends (c : Cluster) (id : NodeId) : Prop := c.Scans id (c.scansOf id)

theorem Scans.ends (h : c.Scans id scans) : c.Ends id := by
  rw [Ends, h.scansOf_eq]
  exact h

theorem ends_of_followed (hnone : (c.operator id).table? = none) (h : ∀ j ∈ c.followed id, c.Ends j) :
    c.Ends id ∧ c.scansOf id = (c.followed id).flatMap c.scansOf :=
  have hscans := Scans.through hnone c.scansOf h
  ⟨hscans.ends, hscans.scansOf_eq⟩

theorem Ends.followed (hnone : (c.operator id).table? = none) (h : c.Ends id) :
    ∀ j ∈ c.followed id, c.Ends j := by
  unfold Ends at h
  generalize c.scansOf id = scans at h
  cases h with
  | scan htable => rw [htable] at hnone; cases hnone
  | through _ _ hfollowed => exact fun j hj => (hfollowed j hj).ends

theorem Ends.scansOf_eq (hnone : (c.operator id).table? = none) (h : c.Ends id) :
    c.scansOf id = (c.followed id).flatMap c.scansOf :=
  (ends_of_followed hnone (h.followed hnone)).2

/-- What is projected on the paths from the node is as said. -/
def Projects (c : Cluster) (P : Expr → Prop) (id : NodeId) : Prop :=
  ∀ j columns, ReflTransGen (fun i j => j ∈ c.followed i) id j →
    (c.operator j).projection? = some columns → ∀ p ∈ columns, P p.1

/-- Some node of the session projects the expression. -/
def IsProjected (c : Cluster) (e : Expr) : Prop :=
  ∃ id columns, (c.operator id).projection? = some columns ∧ ∃ p ∈ columns, p.1 = e

theorem IsProjected.of_all {P : Expr → Prop} {e : Expr} (he : c.IsProjected e)
    (h : ∀ id < c.size, ∀ p ∈ (c.operator id).projection?.getD [], P p.1) : P e := by
  obtain ⟨id, columns, hop, p, hp, rfl⟩ := he
  by_cases hid : id < c.size
  · exact h id hid p (by rwa [hop])
  · rw [operator_eq_default hid] at hop
    cases hop

theorem Projects.of_all {P : Expr → Prop}
    (h : ∀ id < c.size, ∀ p ∈ (c.operator id).projection?.getD [], P p.1) (id : NodeId) :
    c.Projects P id := fun j columns _ hop p hp => IsProjected.of_all ⟨j, columns, hop, p, hp, rfl⟩ h

theorem Projects.followed {P : Expr → Prop} {j : NodeId} (h : c.Projects P id)
    (hj : j ∈ c.followed id) : c.Projects P j := fun k columns hk => h k columns (.head hj hk)

/-- No projection on the paths from the node speaks of uses of tables. -/
abbrev PlainUnder (c : Cluster) (id : NodeId) : Prop := c.Projects (·.tableList = []) id

/-! ### The uses of one input -/

/-- The uses under an input of a node, as they are numbered under the node. -/
def InputUses (c : Cluster) (id : NodeId) (position : Nat) (r : TableRef) : Prop :=
  let earlier := ((c.inputs id).take position).flatMap c.scansOf
  let own := ((c.inputs id)[position]?.map c.scansOf).getD []
  earlier.count r.name ≤ r.entity ∧ r.entity < earlier.count r.name + own.count r.name

/-- The inputs of a node that a column may come from: one of a join's, any of a union's. -/
def ComesFrom (c : Cluster) (id : NodeId) (column position : Nat) : Prop :=
  match c.operator id with
  | .join _ _ _ => position = if column < ((c.inputs id)[0]?.map c.arity).getD 0 then 0 else 1
  | _ => position < (c.inputs id).length

theorem take_flatMap_count_le {k l : Nat} (h : k < l) (inputs : List NodeId) (name : List String) :
    ((inputs.take k).flatMap c.scansOf).count name +
        ((inputs[k]?.map c.scansOf).getD []).count name ≤
      ((inputs.take l).flatMap c.scansOf).count name := by
  have hsub : (inputs.take (k + 1)).Sublist (inputs.take l) := by
    rw [show inputs.take (k + 1) = (inputs.take l).take (k + 1) by rw [List.take_take]; congr 1; omega]
    exact List.take_sublist _ _
  refine Nat.le_trans (Nat.le_of_eq ?_) ((hsub.flatMap c.scansOf).count_le name)
  rw [List.take_add_one, List.flatMap_append, List.count_append]
  cases inputs[k]? <;> simp

/-- No use is one of two inputs. -/
theorem InputUses.position_eq {k l : Nat} {r : TableRef} (h : c.InputUses id k r)
    (h' : c.InputUses id l r) : k = l := by
  obtain ⟨hle, hlt⟩ := h
  obtain ⟨hle', hlt'⟩ := h'
  rcases Nat.lt_trichotomy k l with hkl | hkl | hkl
  · have hcount := c.take_flatMap_count_le hkl (c.inputs id) r.name
    omega
  · exact hkl
  · have hcount := c.take_flatMap_count_le hkl (c.inputs id) r.name
    omega

theorem InputUses.lt_count {k : Nat} {r : TableRef} (h : c.InputUses id k r) :
    r.entity < ((c.inputs id).flatMap c.scansOf).count r.name := by
  refine Nat.lt_of_lt_of_le h.2 ?_
  have hcount := c.take_flatMap_count_le (Nat.lt_succ_self k) (c.inputs id) r.name
  exact Nat.le_trans hcount (((List.take_sublist _ _).flatMap c.scansOf).count_le r.name)

/-! ### Uses under a node -/

theorem followed_eq_inputs (h : (c.operator id).tableRefsMethod = .allInputs) :
    c.followed id = c.inputs id ∧ (c.operator id).table? = none := by
  unfold followed
  cases hop : c.operator id with
  | join algorithm => cases algorithm <;> first | exact ⟨rfl, rfl⟩ | (rw [hop] at h; cases h)
  | union => exact ⟨rfl, rfl⟩
  | _ => rw [hop] at h; cases h

theorem followed_eq_first {input : NodeId} (h : (c.operator id).tableRefsMethod = .firstInput)
    (hinput : c.input? id 0 = some input) :
    c.followed id = [input] ∧ (c.operator id).table? = none := by
  have hfirst : c.firstInput id = [input] := by rw [firstInput, hinput]; rfl
  unfold followed
  cases hop : c.operator id with
  | join algorithm => cases algorithm <;> first | exact ⟨hfirst, rfl⟩ | (rw [hop] at h; cases h)
  | aggregate | project | filter | sort | exchange | sortExchange => exact ⟨hfirst, rfl⟩
  | _ => rw [hop] at h; cases h

theorem followed_eq_member {m : NodeId} (h : (c.node id).chosenMember? = some m) :
    c.followed id = [m] ∧ (c.operator id).table? = none := by
  have hsubset := isSubset_of_mem_members (chosenMember?_mem h)
  unfold followed
  cases hop : c.operator id with
  | subset => exact ⟨by simp [h], rfl⟩
  | _ => rw [hop] at hsubset; cases hsubset

/-- The tables under a node on a single path are those under the node that the path goes on to. -/
theorem ends_single {j : NodeId} (h : c.followed id = [j] ∧ (c.operator id).table? = none) :
    (c.Ends id ↔ c.Ends j) ∧ (c.Ends j → c.scansOf id = c.scansOf j) := by
  obtain ⟨hfollowed, hnone⟩ := h
  have hof : c.Ends j → c.Ends id ∧ c.scansOf id = c.scansOf j := fun hj => by
    have hends := ends_of_followed hnone (by rw [hfollowed]; exact List.forall_mem_singleton.mpr hj)
    rw [hfollowed, List.flatMap_singleton] at hends
    exact hends
  refine ⟨⟨fun hid => hid.followed hnone j ?_, fun hj => (hof hj).1⟩, fun hj => (hof hj).2⟩
  rw [hfollowed]
  exact List.mem_singleton_self j

/-- The uses under a node are those of the tables scanned under it. -/
def Uses (c : Cluster) (id : NodeId) (refs : List TableRef) : Prop :=
  c.Ends id ∧ TableRef.Numbers (c.scansOf id) refs

theorem Uses.of_single {j : NodeId} {refs : List TableRef} (h : c.Uses j refs)
    (hsingle : c.followed id = [j] ∧ (c.operator id).table? = none) : c.Uses id refs := by
  obtain ⟨hends, hscans⟩ := ends_single hsingle
  refine ⟨hends.mpr h.1, ?_⟩
  rw [hscans h.1]
  exact h.2

theorem numbers_of_uses {inputs : List NodeId} {parts : List (List TableRef)}
    (h : List.Forall₂ c.Uses inputs parts) :
    TableRef.Numbers (inputs.flatMap c.scansOf) (TableRef.together parts) := by
  rw [List.flatMap_def]
  exact TableRef.numbers_together (List.forall₂_map_left_iff.mpr (h.imp fun _ _ hj => hj.2))

theorem uses_of_listed {refs : List TableRef} (h : c.Listed c.Uses id refs) : c.Uses id refs := by
  cases h with
  | scan htable hrefs =>
    have hscans := Scans.scan htable
    refine ⟨hscans.ends, ?_⟩
    rw [hscans.scansOf_eq, hrefs]
    exact TableRef.numbers_singleton _
  | allInputs hmethod hparts hrefs =>
    obtain ⟨hfollowed, hnone⟩ := followed_eq_inputs hmethod
    have hinputs : ∀ j ∈ c.followed id, c.Ends j := by
      rw [hfollowed]
      intro j hj
      obtain ⟨part, -, hpart⟩ := exists_of_forall₂ hparts.flip hj
      exact hpart.1
    obtain ⟨hends, hscans⟩ := ends_of_followed hnone hinputs
    refine ⟨hends, ?_⟩
    rw [hscans, hfollowed, hrefs]
    exact numbers_of_uses hparts
  | firstInput hmethod hinput hrefs => exact hrefs.of_single (followed_eq_first hmethod hinput)
  | member hchosen hrefs => exact hrefs.of_single (followed_eq_member hchosen)

/-! ### Lineages -/

/-- An expression in the lineage of another one, which speaks of no uses itself, speaks of uses under
the node. If that one is a column of a join or a union, they are uses of one input, which the column may
come from. -/
def SpeaksOfUses (c : Cluster) (id : NodeId) (e e' : Expr) : Prop :=
  e.tableList = [] → c.PlainUnder id → c.Ends id →
    (∀ r ∈ e'.tableList, r.entity < (c.scansOf id).count r.name) ∧
    ((c.operator id).tableRefsMethod = .allInputs → ∀ i t, e = .column i t →
      ∃ k < (c.inputs id).length, c.ComesFrom id i k ∧ ∀ r ∈ e'.tableList, c.InputUses id k r)

/-- What an origin of a field speaks of are uses under the node. -/
theorem lt_count_of_ofField {i : Nat} {a : Expr} (h : Lineage.OfField c c.SpeaksOfUses id i a)
    (hplain : c.PlainUnder id) (hends : c.Ends id) :
    ∀ r ∈ a.tableList, r.entity < (c.scansOf id).count r.name := by
  obtain ⟨field, -, h⟩ := h
  exact (h rfl hplain hends).1

/-- Renumbered, the uses of an input are those that it has under the node. -/
theorem inputUses_renumber {before after : List NodeId} {input : NodeId}
    {earlier own : List TableRef} {r : TableRef} (hinputs : c.inputs id = before ++ input :: after)
    (hearlier : TableRef.Numbers (before.flatMap c.scansOf) earlier) (hown : c.Uses input own)
    (hr : r.entity < (c.scansOf input).count r.name) :
    c.InputUses id before.length (TableRef.renumber earlier own r) := by
  rw [TableRef.renumber_of_mem ((hown.2.2 r).mpr hr), TableRef.countedAfter, hearlier.usesOf]
  unfold InputUses
  rw [hinputs, List.take_left, List.getElem?_append_right (Nat.le_refl _), Nat.sub_self]
  simp only [List.getElem?_cons_zero, Option.map_some, Option.getD_some]
  omega

theorem exists_input_of_unionOrigin {i : Nat} {a : Expr}
    (hop : (c.operator id).lineageMethod = .union)
    (hplain : ∀ j ∈ c.inputs id, c.PlainUnder j) (hends : ∀ j ∈ c.inputs id, c.Ends j)
    (h : c.UnionOrigin c.SpeaksOfUses c.Uses id i a) :
    ∃ k < (c.inputs id).length, c.ComesFrom id i k ∧ ∀ r ∈ a.tableList, c.InputUses id k r := by
  obtain ⟨before, input, after, parts, own, a₀, hinputs, hparts, hown, horigin, rfl⟩ := h
  have hinput : input ∈ c.inputs id := by
    rw [hinputs]
    exact List.mem_append_right _ List.mem_cons_self
  have hlt : before.length < (c.inputs id).length := by
    rw [hinputs, List.length_append, List.length_cons]
    omega
  refine ⟨before.length, hlt, ?_, fun r hr => ?_⟩
  · unfold ComesFrom
    cases hunion : c.operator id with
    | union => exact hlt
    | join algorithm => cases algorithm <;> (rw [hunion] at hop; cases hop)
    | _ => rw [hunion] at hop; cases hop
  · rw [Expr.tableList_mapTables] at hr
    obtain ⟨r₀, hr₀, rfl⟩ := List.mem_map.mp hr
    exact inputUses_renumber hinputs (numbers_of_uses hparts) hown
      (lt_count_of_ofField horigin (hplain input hinput) (hends input hinput) r₀ hr₀)

theorem exists_input_of_joinOrigin {i : Nat} {a : Expr} {left right : NodeId}
    {leftRefs rightRefs : List TableRef} {joinType : JoinType} {condition : Expr}
    (hop : (c.operator id).join? = some (joinType, condition)) (hinputs : c.inputs id = [left, right])
    (hplain : ∀ j ∈ c.inputs id, c.PlainUnder j)
    (hleft : c.Uses left leftRefs) (hright : c.Uses right rightRefs)
    (h : c.JoinOrigin c.SpeaksOfUses left right leftRefs rightRefs i a) :
    ∃ k < (c.inputs id).length, c.ComesFrom id i k ∧ ∀ r ∈ a.tableList, c.InputUses id k r := by
  have hcomes : c.ComesFrom id i (if i < c.arity left then 0 else 1) := by
    unfold ComesFrom
    cases hjoin : c.operator id with
    | join => rw [hinputs]; rfl
    | _ => rw [hjoin] at hop; cases hop
  rw [hinputs, List.forall_mem_cons, List.forall_mem_singleton] at hplain
  unfold JoinOrigin at h
  split at h
  · next hi =>
    rw [if_pos hi] at hcomes
    refine ⟨0, by rw [hinputs]; exact Nat.two_pos, hcomes, fun r hr => ?_⟩
    have hlt := lt_count_of_ofField h hplain.1 hleft.1 r hr
    unfold InputUses
    rw [hinputs]
    exact ⟨Nat.zero_le _, by simpa using hlt⟩
  · next hi =>
    rw [if_neg hi] at hcomes
    obtain ⟨a₀, horigin, rfl⟩ := h
    refine ⟨1, by rw [hinputs]; exact Nat.one_lt_two, hcomes, fun r hr => ?_⟩
    rw [Expr.tableList_mapTables] at hr
    obtain ⟨r₀, hr₀, rfl⟩ := List.mem_map.mp hr
    have hearlier : TableRef.Numbers ([left].flatMap c.scansOf) leftRefs := by
      rw [List.flatMap_singleton]
      exact hleft.2
    have hsplit : c.inputs id = [left] ++ right :: [] := hinputs
    exact inputUses_renumber hsplit hearlier hright
      (lt_count_of_ofField horigin hplain.2 hright.1 r₀ hr₀)

/-- If what the columns of a join or a union come from speaks of one input each, so does what any
expression is traced to. -/
theorem speaksOfUses_of_inputs {e e' : Expr} {origin : Nat → Expr → Prop}
    (hmethod : (c.operator id).tableRefsMethod = .allInputs)
    (horigin : c.PlainUnder id → c.Ends id → ∀ i a, origin i a →
      ∃ k < (c.inputs id).length, c.ComesFrom id i k ∧ ∀ r ∈ a.tableList, c.InputUses id k r)
    (h : e.ReplacedBy origin e') : c.SpeaksOfUses id e e' := by
  intro he hplain hends
  obtain ⟨hfollowed, hnone⟩ := followed_eq_inputs hmethod
  refine ⟨fun r hr => ?_, ?_⟩
  · obtain ⟨i, -, a, ha, hra⟩ := h.exists_origin he hr
    obtain ⟨k, -, -, huses⟩ := horigin hplain hends i a ha
    rw [hends.scansOf_eq hnone, hfollowed]
    exact (huses r hra).lt_count
  · rintro - i t rfl
    obtain ⟨a, ha, hconjunct⟩ := h.of_column
    obtain ⟨k, hk, hcomes, huses⟩ := horigin hplain hends i a ha
    exact ⟨k, hk, hcomes, fun r hr => huses r (Expr.mem_tableList_of_mem_conjuncts hconjunct hr)⟩

/-- Along a single path, what columns come from speaks of uses under the node. -/
theorem speaksOfUses_of_single {j : NodeId} {e e' : Expr} {origin : Nat → Expr → Prop}
    (hmethod : (c.operator id).tableRefsMethod ≠ .allInputs)
    (hsingle : c.followed id = [j] ∧ (c.operator id).table? = none)
    (horigin : c.PlainUnder id → c.PlainUnder j → c.Ends j → ∀ i a, origin i a →
      ∀ r ∈ a.tableList, r.entity < (c.scansOf j).count r.name)
    (h : e.ReplacedBy origin e') : c.SpeaksOfUses id e e' := by
  intro he hplain hends
  obtain ⟨hiff, hscans⟩ := ends_single hsingle
  have hj := hiff.mp hends
  have hmem : j ∈ c.followed id := by rw [hsingle.1]; exact List.mem_singleton_self j
  refine ⟨fun r hr => ?_, fun hall => absurd hall hmethod⟩
  obtain ⟨i, -, a, ha, hra⟩ := h.exists_origin he hr
  rw [hscans hj]
  exact horigin hplain (hplain.followed hmem) hj i a ha r hra

theorem speaksOfUses_of_same {j : NodeId} {e e' : Expr}
    (hmethod : (c.operator id).tableRefsMethod ≠ .allInputs)
    (hsingle : c.followed id = [j] ∧ (c.operator id).table? = none) (h : c.SpeaksOfUses j e e') :
    c.SpeaksOfUses id e e' := by
  intro he hplain hends
  obtain ⟨hiff, hscans⟩ := ends_single hsingle
  have hj := hiff.mp hends
  have hmem : j ∈ c.followed id := by rw [hsingle.1]; exact List.mem_singleton_self j
  refine ⟨fun r hr => ?_, fun hall => absurd hall hmethod⟩
  rw [hscans hj]
  exact (h he (hplain.followed hmem) hj).1 r hr

theorem speaksOfUses_of_scan {table : Table} {e e' : Expr}
    (htable : (c.operator id).table? = some table)
    (h : e.ReplacedBy (fun i a => ∃ field, (c.rowType id).fields[i]? = some field ∧
      a = .tableColumn ⟨table.name, 0⟩ i field.dataType) e') : c.SpeaksOfUses id e e' := by
  intro he _ _
  refine ⟨fun r hr => ?_, fun hall => ?_⟩
  · obtain ⟨i, -, a, ⟨field, -, rfl⟩, hra⟩ := h.exists_origin he hr
    rw [List.mem_singleton.mp hra, (Scans.scan htable).scansOf_eq, List.count_singleton_self]
    exact Nat.one_pos
  · rw [(followed_eq_inputs hall).2] at htable
    cases htable

theorem inputs_eq_pair {left right : NodeId} {joinType : JoinType} {condition : Expr}
    (hop : (c.operator id).join? = some (joinType, condition)) (hleft : c.input? id 0 = some left)
    (hright : c.input? id 1 = some right) : c.inputs id = [left, right] := by
  have hid : id < c.size := by
    by_contra hid
    rw [input?, inputs_eq_nil hid] at hleft
    cases hleft
  have htakes := takes_inputs hid
  cases hjoin : c.operator id with
  | join algorithm =>
    rw [hjoin] at htakes
    have hlength : (c.inputs id).length = 2 := of_decide_eq_true htakes
    obtain ⟨x, y, hxy⟩ := List.length_eq_two.mp hlength
    rw [input?, hxy] at hleft hright
    cases hleft
    cases hright
    exact hxy
  | _ => rw [hjoin] at hop; cases hop

theorem speaksOfUses_of_traced {e e' : Expr} (h : c.Traced c.SpeaksOfUses c.Uses id e e') :
    c.SpeaksOfUses id e e' := by
  cases h with
  | scan htable h => exact speaksOfUses_of_scan htable h
  | @aggregate group calls input hop hinput h =>
    have hmethod := Operator.tableRefsMethod_eq_first (.inl (Operator.lineageMethod_of_aggregate? hop))
    refine speaksOfUses_of_single (by rw [hmethod]; nofun) (followed_eq_first hmethod hinput)
      (fun _ hplain hends i a ha => ?_) h
    obtain ⟨column, -, horigin⟩ := ha
    exact lt_count_of_ofField horigin hplain hends
  | @join joinType condition left right leftRefs rightRefs hmethod hop hleft hright _ hleftRefs hrightRefs h =>
    have hinputs := inputs_eq_pair hop hleft hright
    have hall := Operator.tableRefsMethod_eq_all (.inl hmethod)
    refine speaksOfUses_of_inputs hall (fun hplain _ i a ha => ?_) h
    refine exists_input_of_joinOrigin hop hinputs (fun j hj => ?_) hleftRefs hrightRefs ha
    exact hplain.followed (by rwa [(followed_eq_inputs hall).1])
  | union hmethod h =>
    have hall := Operator.tableRefsMethod_eq_all (.inr hmethod)
    obtain ⟨hfollowed, hnone⟩ := followed_eq_inputs hall
    refine speaksOfUses_of_inputs hall (fun hplain hends i a ha => ?_) h
    exact exists_input_of_unionOrigin hmethod (fun j hj => hplain.followed (by rwa [hfollowed]))
      (fun j hj => hends.followed hnone j (by rwa [hfollowed])) ha
  | @project columns input hop hinput h =>
    have hmethod := Operator.tableRefsMethod_eq_first
      (.inr (.inl (Operator.lineageMethod_of_projection? hop)))
    refine speaksOfUses_of_single (by rw [hmethod]; nofun) (followed_eq_first hmethod hinput)
      (fun hplain hinput hends i a ha => ?_) h
    obtain ⟨p, hp, horigin⟩ := ha
    have htables := hplain id columns .refl hop p (List.mem_of_getElem? hp)
    exact (horigin htables hinput hends).1
  | @firstInput input hlineage hinput h =>
    have hmethod := Operator.tableRefsMethod_eq_first (.inr (.inr hlineage))
    exact speaksOfUses_of_same (by rw [hmethod]; nofun) (followed_eq_first hmethod hinput) h
  | member hchosen h =>
    have hsingle := followed_eq_member hchosen
    refine speaksOfUses_of_same (fun hall => ?_) hsingle h
    have hsubset := isSubset_of_mem_members (chosenMember?_mem hchosen)
    cases hop : c.operator id with
    | subset => rw [hop] at hall; cases hall
    | _ => rw [hop] at hsubset; cases hsubset

/-- Lineages speak of uses under the node, whose numbers have no gaps. -/
theorem numberingLaw (c : Cluster) : c.TracingLaw (fun _ => True) c.SpeaksOfUses c.Uses where
  column _ _ := trivial
  projected _ _ _ _ _ := trivial
  equal := by
    intro id e e₁ e' _ _ heq h he hplain hends
    have halike := Expr.alike_of_beq heq
    obtain ⟨huses, hinput⟩ := h (halike.tableList ▸ he) hplain hends
    refine ⟨huses, fun hmethod i t hcolumn => hinput hmethod i t ?_⟩
    rw [hcolumn] at halike
    cases halike
    rfl
  traced _ h := speaksOfUses_of_traced h
  listed h := uses_of_listed h

end Cluster

namespace Asking

variable {c : Cluster}

/-- The uses of each table under a node, whatever was asked before, are numbered from zero without
gaps, one for each path to a scan of it. An expression over a node without computed uses below, in the
lineage of one that speaks of no uses, speaks of uses under the node; and the uses of different inputs
of a join or a union differ, those that a column is traced to being of one input that it comes from. -/
theorem uses_numbered (hlineage : c.methods.lineage = Methods.builtin.lineage)
    (htableRefs : c.methods.tableRefs = Methods.builtin.tableRefs)
    (asked asked' : List ((topic : Topic) × topic.Key)) (id : NodeId) (refs : List TableRef)
    (hrefs : (((of c).tableRefs id).run ((of c).memoryOf asked)).1 = .ok (some refs)) :
    c.Scans id (c.scansOf id) ∧ refs.Nodup ∧
    (∀ r, r ∈ refs ↔ r.entity < (c.scansOf id).count r.name) ∧
    (c.PlainUnder id → ∀ e es, e.tableList = [] →
      (((of c).lineage id e).run ((of c).memoryOf asked')).1 = .ok (some es) →
      ∀ e' ∈ es, ∀ r ∈ e'.tableList, r ∈ refs) ∧
    ((c.operator id).tableRefsMethod = .allInputs →
      (∀ r k l, c.InputUses id k r → c.InputUses id l r → k = l) ∧
      (c.PlainUnder id → ∀ i t es,
        (((of c).lineage id (.column i t)).run ((of c).memoryOf asked')).1 = .ok (some es) →
        ∀ e' ∈ es, ∃ k < (c.inputs id).length, c.ComesFrom id i k ∧
          ∀ r ∈ e'.tableList, c.InputUses id k r)) := by
  have hlaw := c.numberingLaw
  have hallowed : ∀ asked : List ((topic : Topic) × topic.Key), ∀ call ∈ asked,
      Cluster.TracingLaw.Allows (fun _ => True) call.1 call.2 := by
    rintro - ⟨topic, key⟩ -
    cases topic <;> trivial
  obtain ⟨hends, hnodup, hnumbers⟩ := hlaw.of_tableRefs hlineage htableRefs (hallowed asked) hrefs
  have htraced : ∀ {e es}, (((of c).lineage id e).run ((of c).memoryOf asked')).1 = .ok (some es) →
      ∀ e' ∈ es, c.SpeaksOfUses id e e' :=
    hlaw.of_lineage hlineage htableRefs (hallowed asked') trivial
  refine ⟨hends, hnodup, hnumbers, fun hplain e es he h e' he' r hr => ?_, fun hall => ⟨?_, ?_⟩⟩
  · exact (hnumbers r).mpr ((htraced h e' he' he hplain hends).1 r hr)
  · exact fun r k l hk hl => hk.position_eq hl
  · exact fun hplain i t es h e' he' => (htraced h e' he' rfl hplain hends).2 hall i t rfl

/-- Which amounts are paid together. -/
def payments : Table :=
  { name := ["PAYMENTS"], rowType := ⟨[⟨"amount", .bigint, true⟩]⟩, source := some (.ok [[.integer 1]]) }

/-- The union of a join of a scan with itself, cut down to the right column, and of that scan. -/
def paymentPlans : Planning NodeId := do
  let scan ← Cluster.createDefault (.scan .none payments) []
  let join ← Cluster.createDefault (.join .logical .inner (.bool true)) [scan, scan]
  let right ← Cluster.createDefault (.project .none [(.column 1 .bigint, "amount")]) [join]
  Cluster.createDefault (.union .none true) [right, scan]

def paymentSession : Cluster :=
  (paymentPlans.run.run (Cluster.start ⟨[payments]⟩ default default)).2

/-- Of the three uses of the table the last one is that of the second input of the union. -/
theorem uses_numbered_payments :
    (((of paymentSession).tableRefs 3).run ((of paymentSession).memoryOf [])).1 =
      .ok (some [⟨["PAYMENTS"], 0⟩, ⟨["PAYMENTS"], 1⟩, ⟨["PAYMENTS"], 2⟩]) ∧
    paymentSession.Scans 3 (paymentSession.scansOf 3) ∧
    (paymentSession.scansOf 3).count ["PAYMENTS"] = 3 ∧
    ∀ es, (((of paymentSession).lineage 3 (.column 0 .bigint)).run
        ((of paymentSession).memoryOf [⟨.lineage, ⟨1, .column 1 .bigint⟩⟩])).1 = .ok (some es) →
      ∀ e' ∈ es, ∀ r ∈ e'.tableList, r.entity < (paymentSession.scansOf 3).count r.name := by
  have hrefs : (((of paymentSession).tableRefs 3).run ((of paymentSession).memoryOf [])).1 =
      .ok (some [⟨["PAYMENTS"], 0⟩, ⟨["PAYMENTS"], 1⟩, ⟨["PAYMENTS"], 2⟩]) :=
    Outcome.toOption_eq_some.mp (by decide +kernel)
  obtain ⟨hscans, -, hnumbers, htraced, -⟩ := uses_numbered (c := paymentSession) rfl rfl []
    [⟨.lineage, ⟨1, .column 1 .bigint⟩⟩] 3 _ hrefs
  have hplain : paymentSession.PlainUnder 3 := Cluster.Projects.of_all (by decide +kernel) 3
  refine ⟨hrefs, hscans, ?_, fun es hes e' he' r hr =>
    (hnumbers r).mp (htraced hplain _ es rfl hes e' he' r hr)⟩
  have hlast := (hnumbers ⟨["PAYMENTS"], 2⟩).mp (by simp)
  have hnext := (hnumbers ⟨["PAYMENTS"], 3⟩).not.mp (by simp)
  dsimp only at hlast hnext
  omega

/-- A projection of a table's column as such, which reads a table that is not under it. -/
def foreignPlans : Planning NodeId := do
  let scan ← Cluster.createDefault (.scan .none payments) []
  Cluster.createDefault (.project .none [(.tableColumn ⟨["REFUNDS"], 5⟩ 0 .bigint, "refund")]) [scan]

def foreignSession : Cluster :=
  (foreignPlans.run.run (Cluster.start ⟨[payments]⟩ default default)).2

/-- A use that a projection itself speaks of is in the lineage of its column, whatever is under it. -/
theorem foreign_use_reported :
    foreignSession.methods = .builtin ∧
    (((of foreignSession).tableRefs 1).run {}).1.toOption = some (some [⟨["PAYMENTS"], 0⟩]) ∧
    (((of foreignSession).lineage 1 (.column 0 .bigint)).run {}).1.toOption.map
      (Option.map (List.map Expr.tableList)) = some (some [[⟨["REFUNDS"], 5⟩]]) :=
  ⟨rfl, by decide +kernel⟩

end Asking

end QueryPlan
