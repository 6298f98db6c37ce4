import QueryPlan.Proofs.Lattice.Rewriting
import QueryPlan.Proofs.Rule.Shapes
/-!
# Types of matches

A match has a column of the star table for each column of the tree that it stands for, with the type that
the tree declares, as long as the tree reads the tables that the lattice is made of and every join returns
the columns of both sides. Then the plan over the star table can be made and has the types of the tree.
-/
namespace QueryPlan

open Cluster

namespace Expr

/-- The equality has operands to compare, if the expression is one. -/
def comparesPair (e : Expr) : Bool := e.columnEquality?.isSome

theorem comparesPair_mapColumns (g : Nat → Nat) (e : Expr) :
    (e.mapColumns fun i t => column (g i) t).comparesPair = e.comparesPair := by
  cases e with
  | column | literal | tableColumn => rfl
  | apply op es t =>
    rw [mapColumns, mapColumnsEach_eq]
    cases op with
    | equals =>
      rcases es with - | ⟨a, - | ⟨b, es⟩⟩
      · rfl
      · rfl
      · simp only [comparesPair, columnEquality?, List.map_cons]
        split <;> split <;> rfl
    | _ => rfl

end Expr

namespace Lattice

variable {l : Lattice}

/-! ## Searches for keys end -/

theorem ends_withoutEquality (a b : Nat) {conjuncts : List Expr}
    (h : ∀ k ∈ conjuncts, k.comparesPair = true) : (withoutEquality a b conjuncts).Ends := by
  induction conjuncts with
  | nil => exact Matching.ends_ofOption none
  | cons k conjuncts ih =>
    obtain ⟨hk, hconjuncts⟩ := List.forall_mem_cons.mp h
    rw [withoutEquality]
    refine (Matching.ends_reading hk).bind fun equality _ => ?_
    split
    · exact Matching.ends_pure conjuncts
    · exact (ih hconjuncts).bind fun rest _ => Matching.ends_pure (k :: rest)

theorem ends_withoutKeys (parentStart childStart : Nat) (keys : List (Nat × Nat))
    {conjuncts : List Expr} (h : ∀ k ∈ conjuncts, k.comparesPair = true) :
    (withoutKeys parentStart childStart keys conjuncts).Ends := by
  induction keys generalizing conjuncts with
  | nil => exact Matching.ends_pure conjuncts
  | cons key keys ih =>
    rw [withoutKeys]
    refine (ends_withoutEquality _ _ h).bind fun rest hrest => ih fun k hk => h k ?_
    exact (withoutEquality_finds hrest []).1 hk

theorem ends_joinMatch (left right : StarMatch) {condition : Expr}
    (h : ∀ k ∈ condition.conjuncts, k.comparesPair = true) :
    (l.joinMatch left right condition).Ends := by
  unfold joinMatch
  refine (Matching.ends_ofOption _).bind fun _ _ => (Matching.ends_ofOption _).bind fun e he => ?_
  refine (Matching.ends_ofOption _).bind fun step _ => ?_
  have hstar := StarMatch.toStar_eq (Matching.finds_ofOption.mp he)
  refine (ends_withoutKeys _ _ _ fun k hk => ?_).bind fun rest _ => Matching.ends_pure _
  rw [hstar, Expr.conjuncts_mapColumns] at hk
  obtain ⟨k', hk', rfl⟩ := List.mem_map.mp hk
  rw [Expr.comparesPair_mapColumns]
  exact h k' hk'

/-- A plan whose scans of the lattice's tables declare the types that the lattice was built with, whose
inner joins equate what there is to compare, and in which no inner semi join matches. -/
structure TypedOver (l : Lattice) (c : Cluster) (root : NodeId) : Prop where
  scans : ∀ id, c.InPlan root id → ∀ convention table i, c.operator id = .scan convention table →
    l.position? table = some i → l.tables[i]?.map (·.rowType.types) = some table.rowType.types
  equalities : ∀ id, c.InPlan root id → ∀ algorithm condition,
    c.operator id = .join algorithm .inner condition → ∀ k ∈ condition.conjuncts, k.comparesPair = true
  pairs : ∀ id, c.InPlan root id → ∀ condition, c.operator id = .join .semi .inner condition →
    ∀ m, ¬(l.matchTree c id).Finds m

section

variable {c c' : Cluster} {id : NodeId} {m : StarMatch}

theorem TypedOver.inPlan {root : NodeId} (h : l.TypedOver c root) (hid : c.InPlan root id) :
    l.TypedOver c id :=
  ⟨fun j hj => h.scans j (hid.trans hj), fun j hj => h.equalities j (hid.trans hj),
    fun j hj => h.pairs j (hid.trans hj)⟩

theorem ends_matchTree (h : l.TypedOver c id) : (l.matchTree c id).Ends := by
  induction id using Nat.strongRecOn with
  | ind id ih =>
    have hval := c.inputsBelow_map_val id
    rw [matchTree]
    split
    · exact (Matching.ends_ofOption _).bind fun i _ => Matching.ends_pure _
    · next convention condition input hlt hop hbelow =>
      rw [hbelow] at hval
      have hinput : c.InPlan id input := .input .root (hval ▸ List.mem_cons_self)
      refine (ih input hlt (h.inPlan hinput)).bind fun m _ => ?_
      exact (Matching.ends_ofOption _).bind fun e _ => Matching.ends_pure _
    · next algorithm condition left hlt right hlt' hop hbelow =>
      rw [hbelow] at hval
      have hleft : c.InPlan id left := .input .root (hval ▸ List.mem_cons_self)
      have hright : c.InPlan id right :=
        .input .root (hval ▸ List.mem_cons_of_mem _ List.mem_cons_self)
      refine (ih left hlt (h.inPlan hleft)).bind fun leftMatch _ => ?_
      refine (ih right hlt' (h.inPlan hright)).bind fun rightMatch _ => ?_
      exact ends_joinMatch _ _ (h.equalities id .root algorithm condition hop)
    · exact Matching.ends_ofOption none

theorem ends_matchStar (h : l.TypedOver c id) : (l.matchStar c id).Ends :=
  (ends_matchTree h).bind fun m _ => (Matching.ends_ofOption _).bind fun _ _ => Matching.ends_pure m

/-! ## Types of columns -/

theorem getElem?_flatMap_take {α β : Type} {f : α → List β} {as : List α} {a : α} {i k : Nat}
    (hi : as[i]? = some a) (hk : k < (f a).length) :
    (as.flatMap f)[((as.take i).flatMap f).length + k]? = (f a)[k]? := by
  induction as generalizing i with
  | nil => cases hi
  | cons b as ih =>
    cases i with
    | zero =>
      cases hi
      rw [List.take_zero, List.flatMap_nil, List.length_nil, Nat.zero_add, List.flatMap_cons,
        List.getElem?_append_left hk]
    | succ i =>
      rw [List.take_succ_cons, List.flatMap_cons, List.flatMap_cons, List.length_append, Nat.add_assoc,
        List.getElem?_append_right (Nat.le_add_right _ _), Nat.add_sub_cancel_left]
      exact ih hi

/-- The star columns of a table have the types of its columns. -/
theorem types_columnsAt {i : Nat} {table : Table} (htable : l.tables[i]? = some table) :
    (l.columnsAt i).map (l.starType.types[·]?) = table.rowType.types.map some := by
  have harity : l.arityAt i = table.rowType.fields.length := by
    rw [arityAt, htable]
    rfl
  refine List.ext_getElem (by simp [columnsAt, harity, RowType.types]) fun k hk _ => ?_
  have hk : k < table.rowType.fields.length := by simpa [columnsAt, harity] using hk
  have hfield := getElem?_flatMap_take (f := fun t : Table => t.rowType.fields) htable hk
  simp only [columnsAt, RowType.types, starType, start, List.getElem_map, List.getElem_range,
    List.getElem?_map, hfield, List.getElem?_eq_getElem hk, Option.map_some]

theorem columns_of_joinMatch {left right : StarMatch} {condition : Expr}
    (h : (l.joinMatch left right condition).Finds m) : m.columns = left.columns ++ right.columns := by
  simp only [joinMatch, Matching.finds_bind, Matching.finds_pure] at h
  obtain ⟨_, _, _, _, _, _, _, _, rfl⟩ := h
  rfl

/-- The columns of a match have the types of the tree. -/
theorem Matches.types_eq (h : l.Matches c id m) (hid : id < c.size) (hplan : l.TypedOver c id) :
    (c.types id).map some = m.columns.map (l.starType.types[·]?) := by
  induction h with
  | @scan id convention table i hop hposition =>
    obtain ⟨known, hknown, heq⟩ :=
      Option.map_eq_some_iff.mp (hplan.scans id .root convention table i hop hposition)
    rw [types_columnsAt hknown, heq, types, rowType_eq hid, hop]
    rfl
  | @filter id input convention condition e m hop hinputs _ _ ih =>
    have hmem : input ∈ c.inputs id := hinputs ▸ List.mem_cons_self
    rw [IsNode.types_filter ⟨hid, hop, hinputs⟩]
    exact ih (inputs_lt_size hmem) (hplan.inPlan (.input .root hmem))
  | @join id left right algorithm condition leftMatch rightMatch m hop hinputs hleft hright hjoins ihl ihr =>
    have hmem : left ∈ c.inputs id := hinputs ▸ List.mem_cons_self
    have hmem' : right ∈ c.inputs id := hinputs ▸ List.mem_cons_of_mem _ List.mem_cons_self
    have halgorithm : algorithm ≠ .semi := by
      rintro rfl
      exact hplan.pairs id .root condition hop m
        (finds_of_matches (.join hop hinputs hleft hright hjoins))
    rw [IsNode.types_pairs halgorithm ⟨hid, hop, hinputs⟩, columns_of_joinMatch hjoins, List.map_append,
      List.map_append, ihl (inputs_lt_size hmem) (hplan.inPlan (.input .root hmem)),
      ihr (inputs_lt_size hmem') (hplan.inPlan (.input .root hmem'))]

end

/-! ## The plan over the star table -/

/-- Columns that have types are fields of the row type, with these types. -/
theorem exists_fields {rowType : RowType} {columns : List Nat} {types : List DataType}
    (h : types.map some = columns.map (rowType.types[·]?)) :
    ∃ exprs, columns.mapM (Expr.field? rowType) = some exprs ∧ exprs.map Expr.dataType = types ∧
      ∀ e ∈ exprs, e.isTyped rowType.types = true := by
  induction columns generalizing types with
  | nil => exact ⟨[], rfl, (List.map_eq_nil_iff.mp h).symm, List.forall_mem_nil _⟩
  | cons i columns ih =>
    obtain ⟨t, types, rfl, (ht : some t = rowType.types[i]?), htypes⟩ := List.map_eq_cons_iff.mp h
    obtain ⟨exprs, hexprs, hdata, htyped⟩ := ih htypes
    have hfield : Expr.field? rowType i = some (.column i t) := by
      rw [RowType.types, List.getElem?_map] at ht
      obtain ⟨f, hf, hft⟩ := Option.map_eq_some_iff.mp ht.symm
      rw [Expr.field?, hf, Option.map_some, hft]
    refine ⟨.column i t :: exprs, ?_, congrArg (t :: ·) hdata, List.forall_mem_cons.mpr ⟨?_, htyped⟩⟩
    · rw [List.mapM_cons, hfield, hexprs]
      rfl
    · exact Expr.isTyped_column.mpr ht.symm

theorem types_of_projected {c : Cluster} {input projected : NodeId} {columns : List (Expr × String)}
    (h : Unification.Projected c input columns projected)
    (htyped : ∀ e ∈ columns.map Prod.fst, e.isTyped (c.types input) = true) :
    c.types projected = (columns.map Prod.fst).map Expr.dataType := by
  rcases h with hnode | ⟨rfl, hidentity⟩
  · exact hnode.types_project
  · refine (types_of_areIdentity ?_ htyped).symm
    rw [types, RowType.length_types]
    exact hidentity

theorem projectOver_succeeds {c : Cluster} {input : NodeId} (columns : List (Expr × String))
    (hinput : input < c.size) : ∃ built c', (Unification.projectOver input columns).Runs c built c' := by
  simp only [Unification.projectOver, Planning.runs_bind, Planning.runs_read]
  by_cases hidentity : Expr.areIdentity (columns.map Prod.fst) (c.arity input) = true
  · refine ⟨input, c, _, _, ⟨rfl, rfl⟩, ?_⟩
    rw [if_pos hidentity]
    exact Planning.runs_pure.mpr ⟨rfl, rfl⟩
  · obtain ⟨built, c', hcreate⟩ :=
      createDefault_succeeds (c := c) (.project .none columns) [input] rfl (by simpa using hinput)
    refine ⟨built, c', _, _, ⟨rfl, rfl⟩, ?_⟩
    rw [if_neg hidentity]
    exact hcreate

/-- A projection of columns that have types can be made. -/
theorem fieldsOver_succeeds {c : Cluster} {input : NodeId} {columns : List Nat} {types : List DataType}
    (names : List String) (hinput : input < c.size)
    (h : types.map some = columns.map ((c.types input)[·]?)) :
    ∃ built c', (Unification.fieldsOver input columns names).Runs c built c' ∧ c'.types built = types := by
  obtain ⟨exprs, hexprs, rfl, htyped⟩ := exists_fields h
  have hfst := Rule.map_fst_zip_projectionNames exprs names
  obtain ⟨built, c', hproject⟩ :=
    projectOver_succeeds (exprs.zip (Operator.projectionNames exprs.length names)) hinput
  obtain ⟨hgrow, hprojected⟩ := Unification.runs_projectOver hproject
  refine ⟨built, c', Unification.runs_fieldsOver.mpr ⟨exprs, hexprs, hproject⟩, ?_⟩
  rw [types_of_projected hprojected, hfst]
  rw [hfst, hgrow.types_eq hinput]
  exact htyped

/-- The plan over the star table for a match can be made, and has the types of the tree. -/
theorem starPlan_succeeds {c : Cluster} {id : NodeId} {m : StarMatch} (h : l.Matches c id m)
    (hid : id < c.size) (hplan : l.TypedOver c id) :
    ∃ star c', (l.starPlan id m).Runs c star c' ∧ c'.types star = c.types id := by
  obtain ⟨scan, c₁, hscan⟩ := createDefault_succeeds (c := c) (.scan .none l.star) [] rfl (by simp)
  obtain ⟨-, hscanNode⟩ := runs_createDefault hscan
  obtain ⟨input, c₂, hkeep⟩ := Rule.keeping_succeeds m.filters hscanNode.lt_size
  obtain ⟨hgrow, hkept⟩ := Rule.runs_keeping hscanNode.lt_size hkeep
  have htypes : c₂.types input = l.starType.types := by
    rw [types_of_kept hkept, hgrow.types_eq hscanNode.lt_size, types, rowType_eq hscanNode.lt_size,
      hscanNode.operator_eq]
    rfl
  have hcolumns : (c.types id).map some = m.columns.map ((c₂.types input)[·]?) := by
    rw [htypes]
    exact h.types_eq hid hplan
  obtain ⟨star, c', hfields, hstar⟩ :=
    fieldsOver_succeeds (c₂.rowType id).names hkept.lt_size hcolumns
  exact ⟨star, c', runs_starPlan.mpr ⟨scan, c₁, input, c₂, hscan, hkeep, hfields⟩, hstar⟩

end Lattice

end QueryPlan
