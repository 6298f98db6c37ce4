import QueryPlan.Lattice.StarMatch
import QueryPlan.Proofs.Execution.JoinLaws
import QueryPlan.Proofs.Expr.Strictness
import QueryPlan.Proofs.Lattice.Star
import QueryPlan.Proofs.Matching
/-!
# Matches of a lattice

The tables of a match hang together below one of them, since a join adds the tables of one side below
a table of the other. A match puts its columns, and the columns that its filters read, at the places
that these tables have in the star table. A row of the top table stands for a row of all columns of
the star table, with nulls where it does not lead; the columns of the match are read off it.
-/
namespace QueryPlan

open OutcomeRow

namespace Lattice

variable {l : Lattice}

/-! ## Tables that hang together -/

/-- Every table of a match but the top one has its parent among them. -/
structure Rooted (l : Lattice) (top : Nat) (tables : List Nat) : Prop where
  top_mem : top ∈ tables
  parent_mem : ∀ t ∈ tables, t ≠ top → ∃ branch, l.branch? t = some branch ∧ branch.parent ∈ tables
  lt_length : ∀ t ∈ tables, t < l.tables.length

theorem Rooted.singleton {i : Nat} (hi : i < l.tables.length) : l.Rooted i [i] where
  top_mem := List.mem_singleton_self i
  parent_mem t ht hne := absurd (List.mem_singleton.mp ht) hne
  lt_length t ht := by rwa [List.mem_singleton.mp ht]

theorem Rooted.eq_top {top t : Nat} {tables : List Nat} {branch : Branch} (h : l.Rooted top tables)
    (ht : t ∈ tables) (hbranch : l.branch? t = some branch) (hparent : branch.parent ∉ tables) :
    t = top := by
  by_contra hne
  obtain ⟨branch', hbranch', hmem⟩ := h.parent_mem t ht hne
  cases hbranch.symm.trans hbranch'
  exact hparent hmem

/-- The root is at the top of the tables that it is among. -/
theorem Rooted.top_eq_zero {top : Nat} {tables : List Nat} (h : l.Rooted top tables)
    (hzero : 0 ∈ tables) : top = 0 := by
  by_contra hne
  obtain ⟨_, hbranch, -⟩ := h.parent_mem 0 hzero (Ne.symm hne)
  cases hbranch

/-- A step leads from some tables to the top of others. -/
structure Hangs (l : Lattice) (top : Nat) (above : List Nat) (child : Nat) (below : List Nat)
    (branch : Branch) : Prop where
  rooted_above : l.Rooted top above
  rooted_below : l.Rooted child below
  disjoint : ∀ t ∈ above, t ∉ below
  branch_eq : l.branch? child = some branch
  parent_mem : branch.parent ∈ above

/-- The step between two sides leads to the top of one of them. -/
theorem hangs_of_crossing? {top top' child : Nat} {left right : List Nat} {branch : Branch}
    (hleft : l.Rooted top left) (hright : l.Rooted top' right) (hdisjoint : ∀ t ∈ left, t ∉ right)
    (h : l.crossing? left right = some (child, branch)) :
    (child = top' ∧ l.Hangs top left top' right branch) ∨
      (child = top ∧ l.Hangs top' right top left branch) := by
  have hmem := List.mem_of_find?_eq_some h
  obtain ⟨t, ht, hbranch⟩ := List.mem_filterMap.mp hmem
  obtain ⟨branch', hbranch, heq⟩ := Option.map_eq_some_iff.mp hbranch
  cases heq
  have hcross := List.find?_some h
  rw [Bool.and_eq_true, bne_iff_ne, ne_eq, Bool.eq_iff_iff] at hcross
  simp only [List.contains_iff_mem, List.mem_append] at hcross ht
  obtain ⟨hsides, hparent⟩ := hcross
  by_cases hchild : child ∈ left
  · have hnot : branch.parent ∉ left := fun hmem => hsides ⟨fun _ => hmem, fun _ => hchild⟩
    have htop := hleft.eq_top hchild hbranch hnot
    refine .inr ⟨htop, hright, hleft, fun t ht ht' => hdisjoint t ht' ht, htop ▸ hbranch, ?_⟩
    exact hparent.resolve_left hnot
  · have hparent : branch.parent ∈ left := by
      by_contra hnot
      exact hsides ⟨fun hmem => absurd hmem hchild, fun hmem => absurd hmem hnot⟩
    have htop := hright.eq_top (ht.resolve_left hchild) hbranch (hdisjoint _ hparent)
    exact .inl ⟨htop, hleft, hright, hdisjoint, htop ▸ hbranch, hparent⟩

namespace Hangs

variable {top child : Nat} {above below tables : List Nat} {branch : Branch}
  (h : l.Hangs top above child below branch)

include h

theorem rooted (htables : ∀ t, t ∈ tables ↔ t ∈ above ∨ t ∈ below) : l.Rooted top tables where
  top_mem := (htables top).mpr (.inl h.rooted_above.top_mem)
  parent_mem t ht hne := by
    rcases (htables t).mp ht with ht | ht
    · obtain ⟨b, hb, hparent⟩ := h.rooted_above.parent_mem t ht hne
      exact ⟨b, hb, (htables _).mpr (.inl hparent)⟩
    · by_cases hchild : t = child
      · exact ⟨branch, hchild ▸ h.branch_eq, (htables _).mpr (.inl h.parent_mem)⟩
      · obtain ⟨b, hb, hparent⟩ := h.rooted_below.parent_mem t ht hchild
        exact ⟨b, hb, (htables _).mpr (.inr hparent)⟩
  lt_length t ht := ((htables t).mp ht).elim (h.rooted_above.lt_length t) (h.rooted_below.lt_length t)

/-- What is reached below a step is what the row behind the step reaches. -/
theorem reach_eq (hl : l.Formed) {row target : Row} (hreach : l.reach top row child = some target)
    {t : Nat} (ht : t ∈ below) : l.reach top row t = l.reach child target t := by
  induction t using Nat.strongRecOn with
  | ind t ih =>
    by_cases htop : t = child
    · rw [htop, hreach, reach_self]
    · obtain ⟨b, hb, hparent⟩ := h.rooted_below.parent_mem t ht htop
      have hne : t ≠ top := fun heq => h.disjoint top h.rooted_above.top_mem (heq ▸ ht)
      rw [reach_branch hl hne hb, reach_branch hl htop hb, ih _ (hl.parent_lt t b hb) hparent]

theorem child_ne : child ≠ top := fun heq =>
  h.disjoint top h.rooted_above.top_mem (heq ▸ h.rooted_below.top_mem)

/-- A row that leads to the parent table leads on through the step to what it agrees with. -/
theorem reach_child (hl : l.Formed) {row : Row}
    (hparent : (l.reach top row branch.parent).isSome = true) :
    l.reach top row child =
      (l.rowsAt child).find? (leads branch.keys (l.along top row branch.parent)) := by
  obtain ⟨parent, hreach⟩ := Option.isSome_iff_exists.mp hparent
  rw [reach_branch hl h.child_ne h.branch_eq, hreach, along_eq hreach]
  rfl

end Hangs

/-! ## Columns of the star table -/

/-- The star columns of the table at a position. -/
def columnsAt (l : Lattice) (i : Nat) : List Nat := (List.range (l.arityAt i)).map (l.start i + ·)

theorem columnsAt_eq (l : Lattice) (i : Nat) :
    (List.range (l.stop i - l.start i)).map (l.start i + ·) = l.columnsAt i := by
  rw [stop, start_succ, Nat.add_sub_cancel_left, columnsAt]

section

variable {n i column : Nat} {tables : List Nat} {f g : Nat → Row}
  (hf : ∀ i < n, (f i).length = l.arityAt i)

theorem lt_start_of_mem (hi : ∀ t ∈ tables, t < n) (h : column ∈ tables.flatMap l.columnsAt) :
    column < l.start n := by
  obtain ⟨t, ht, h⟩ := List.mem_flatMap.mp h
  obtain ⟨k, hk, rfl⟩ := List.mem_map.mp h
  have hle := start_mono (l := l) (Nat.succ_le_of_lt (hi t ht))
  rw [start_succ] at hle
  exact Nat.lt_of_lt_of_le (Nat.add_lt_add_left (List.mem_range.mp hk) _) hle

include hf

theorem select_columnsAt (hi : i < n) : (layTo n f).select (l.columnsAt i) = f i := by
  refine List.ext_getElem? fun k => ?_
  rw [Row.select, columnsAt, List.map_map, List.getElem?_map]
  by_cases hk : k < l.arityAt i
  · have hget := List.getElem?_eq_getElem (l := f i) ((hf i hi).symm ▸ hk)
    rw [List.getElem?_range hk, hget, Option.map_some]
    exact congrArg some (Row.valueAt_eq ((getElem?_layTo hf hi hk).trans hget))
  · rw [List.getElem?_eq_none (by rw [List.length_range]; omega), List.getElem?_eq_none]
    · rfl
    · rw [hf i hi]
      omega

/-- The columns of some tables depend on the rows of those tables only. -/
theorem getElem?_layTo_congr (hg : ∀ i < n, (g i).length = l.arityAt i) (hi : ∀ t ∈ tables, t < n)
    (heq : ∀ t ∈ tables, f t = g t) (h : column ∈ tables.flatMap l.columnsAt) :
    (layTo n f)[column]? = (layTo n g)[column]? := by
  obtain ⟨t, ht, h⟩ := List.mem_flatMap.mp h
  obtain ⟨k, hk, rfl⟩ := List.mem_map.mp h
  have hk := List.mem_range.mp hk
  rw [getElem?_layTo hf (hi t ht) hk, getElem?_layTo hg (hi t ht) hk, heq t ht]

end

/-! ## Trees that match -/

/-- The plan under a node matches: a scan of a table of the lattice, a filter over a match, or a join of
two matches. -/
inductive Matches (l : Lattice) (c : Cluster) : NodeId → StarMatch → Prop
  | scan {id : NodeId} {convention : Convention} {table : Table} {i : Nat}
      (operator : c.operator id = .scan convention table) (position : l.position? table = some i) :
      Matches l c id ⟨[i], l.columnsAt i, []⟩
  | filter {id input : NodeId} {convention : Convention} {condition e : Expr} {m : StarMatch}
      (operator : c.operator id = .filter convention condition) (inputs : c.inputs id = [input])
      (below : Matches l c input m) (star : m.toStar condition = some e) :
      Matches l c id { m with filters := m.filters ++ e.conjuncts }
  | join {id left right : NodeId} {algorithm : JoinAlgorithm} {condition : Expr}
      {leftMatch rightMatch m : StarMatch} (operator : c.operator id = .join algorithm .inner condition)
      (inputs : c.inputs id = [left, right]) (belowLeft : Matches l c left leftMatch)
      (belowRight : Matches l c right rightMatch)
      (joins : (l.joinMatch leftMatch rightMatch condition).Finds m) : Matches l c id m

section

variable {c c' : Cluster} {id : NodeId} {m : StarMatch}

theorem matches_of_finds (h : (l.matchTree c id).Finds m) : l.Matches c id m := by
  induction id using Nat.strongRecOn generalizing m with
  | ind id ih =>
    have hval := c.inputsBelow_map_val id
    rw [matchTree] at h
    split at h
    · next convention table hop =>
      obtain ⟨i, hposition, h⟩ := Matching.finds_bind.mp h
      obtain rfl := Matching.finds_pure.mp h
      rw [columnsAt_eq]
      exact .scan hop (Matching.finds_ofOption.mp hposition)
    · next convention condition input hlt hop hbelow =>
      rw [hbelow] at hval
      obtain ⟨m', hm', h⟩ := Matching.finds_bind.mp h
      obtain ⟨e, hstar, h⟩ := Matching.finds_bind.mp h
      obtain rfl := Matching.finds_pure.mp h
      exact .filter hop hval.symm (ih input hlt hm') (Matching.finds_ofOption.mp hstar)
    · next algorithm condition left hlt right hlt' hop hbelow =>
      rw [hbelow] at hval
      obtain ⟨leftMatch, hleft, h⟩ := Matching.finds_bind.mp h
      obtain ⟨rightMatch, hright, h⟩ := Matching.finds_bind.mp h
      exact .join hop hval.symm (ih left hlt hleft) (ih right hlt' hright) h
    · cases Matching.finds_ofOption.mp h

theorem finds_of_matches (h : l.Matches c id m) : (l.matchTree c id).Finds m := by
  have hbelow : ∀ {id : NodeId} {inputs : List NodeId}, c.inputs id = inputs →
      ∃ below : List { j : NodeId // j < id }, c.inputsBelow id = below ∧
        below.map Subtype.val = inputs :=
    fun hinputs => ⟨_, rfl, (c.inputsBelow_map_val _).trans hinputs⟩
  induction h with
  | @scan id convention table i hop hposition =>
    rw [matchTree, hop]
    refine Matching.finds_bind.mpr ⟨i, Matching.finds_ofOption.mpr hposition, ?_⟩
    rw [columnsAt_eq]
    exact Matching.finds_pure.mpr rfl
  | @filter id input convention condition e m hop hinputs _ hstar ih =>
    obtain ⟨below, hval, hmap⟩ := hbelow hinputs
    obtain ⟨⟨j, hlt⟩, rfl, rfl⟩ := List.map_eq_singleton_iff.mp hmap
    rw [matchTree, hop, hval]
    exact Matching.finds_bind.mpr ⟨m, ih, Matching.finds_bind.mpr
      ⟨e, Matching.finds_ofOption.mpr hstar, Matching.finds_pure.mpr rfl⟩⟩
  | @join id left right algorithm condition leftMatch rightMatch m hop hinputs _ _ hjoins ihl ihr =>
    obtain ⟨below, hval, hmap⟩ := hbelow hinputs
    obtain ⟨⟨j, hlt⟩, rest, rfl, rfl, hrest⟩ := List.map_eq_cons_iff.mp hmap
    obtain ⟨⟨k, hlt'⟩, rfl, rfl⟩ := List.map_eq_singleton_iff.mp hrest
    rw [matchTree, hop, hval]
    exact Matching.finds_bind.mpr ⟨leftMatch, ihl, Matching.finds_bind.mpr ⟨rightMatch, ihr, hjoins⟩⟩

theorem finds_matchTree : (l.matchTree c id).Finds m ↔ l.Matches c id m :=
  ⟨matches_of_finds, finds_of_matches⟩

/-- What a match reads matches. -/
theorem Matches.input (h : l.Matches c id m) {j : NodeId} (hj : j ∈ c.inputs id) :
    ∃ m', l.Matches c j m' := by
  cases h with
  | scan hop =>
    rw [Cluster.inputs_eq_nil_of_scan hop] at hj
    cases hj
  | filter _ hinputs hbelow =>
    rw [hinputs, List.mem_singleton] at hj
    exact ⟨_, hj ▸ hbelow⟩
  | join _ hinputs hleft hright =>
    rw [hinputs, List.mem_pair] at hj
    rcases hj with rfl | rfl
    · exact ⟨_, hleft⟩
    · exact ⟨_, hright⟩

/-- Nodes that were there before match as they did. -/
theorem Matches.of_extends (h : l.Matches c' id m) (hc : c.Extends c') (hid : id < c.size) :
    l.Matches c id m := by
  induction h with
  | scan hop hposition => exact .scan ((hc.operator_eq hid).symm.trans hop) hposition
  | filter hop hinputs _ hstar ih =>
    rw [hc.operator_eq hid] at hop
    rw [hc.inputs_eq hid] at hinputs
    exact .filter hop hinputs (ih (Cluster.inputs_lt_size (hinputs ▸ List.mem_cons_self))) hstar
  | @join id left right _ _ _ _ _ hop hinputs _ _ hjoins ihl ihr =>
    rw [hc.operator_eq hid] at hop
    rw [hc.inputs_eq hid] at hinputs
    have hleft : left ∈ c.inputs id := hinputs ▸ List.mem_cons_self
    have hright : right ∈ c.inputs id := hinputs ▸ List.mem_cons_of_mem _ List.mem_cons_self
    exact .join hop hinputs (ihl (Cluster.inputs_lt_size hleft)) (ihr (Cluster.inputs_lt_size hright)) hjoins

theorem finds_matchStar :
    (l.matchStar c id).Finds m ↔ l.Matches c id m ∧ m.reachesOut = true := by
  simp only [matchStar, Matching.finds_bind, finds_matchTree, Matching.finds_require,
    Matching.finds_pure]
  constructor
  · rintro ⟨_, hmatches, _, hout, rfl⟩
    exact ⟨hmatches, hout⟩
  · rintro ⟨hmatches, hout⟩
    exact ⟨m, hmatches, (), hout, rfl⟩

end

end Lattice

/-! ## Expressions in terms of the star table -/

theorem Row.select_congr {columns : List Nat} {row row' : Row}
    (h : ∀ i ∈ columns, row[i]? = row'[i]?) : row.select columns = row'.select columns :=
  List.map_congr_left fun i hi => by rw [Row.valueAt, Row.valueAt, h i hi]

namespace Expr

/-- An expression depends on the columns that it reads only. -/
theorem holdsOn_ofRow_congr {e : Expr} {row row' : Row} (hlength : row.length = row'.length)
    (h : ∀ i ∈ e.columnList, row[i]? = row'[i]?) : e.holdsOn (ofRow row) = e.holdsOn (ofRow row') := by
  refine congrArg Outcome.isTrue (evalOn_congr fun i hi t => ?_)
  rw [evalOn, evalOn, length_ofRow, length_ofRow, hlength, ofRow, ofRow, List.getElem?_map,
    List.getElem?_map, h i hi]

end Expr

namespace StarMatch

variable {m : StarMatch} {e e' : Expr} (h : m.toStar e = some e')

include h

theorem exists_column {i : Nat} (hi : i ∈ e.columnList) : ∃ column, m.columns[i]? = some column := by
  obtain ⟨t, p, hp⟩ := (Expr.mapColumns?_eq_some h).2 i hi
  obtain ⟨column, hcolumn, -⟩ := Option.map_eq_some_iff.mp hp
  exact ⟨column, hcolumn⟩

theorem toStar_eq : e' = e.mapColumns fun i t => .column (m.columns[i]?.getD i) t := by
  rw [← (Expr.mapColumns?_eq_some h).1]
  refine congrArg e.mapColumns (funext fun i => funext fun t => ?_)
  dsimp only
  cases m.columns[i]? <;> rfl

theorem columnList_toStar : ∀ i ∈ e'.columnList, i ∈ m.columns := by
  rw [toStar_eq h, Expr.columnList_mapColumns]
  intro i hi
  obtain ⟨j, hj, rfl⟩ := List.mem_map.mp hi
  obtain ⟨column, hcolumn⟩ := exists_column h hj
  rw [hcolumn]
  exact List.mem_of_getElem? hcolumn

variable {row : Row} (hcolumns : ∀ i ∈ m.columns, i < row.length)

include hcolumns

theorem evalOn_column {i : Nat} (hi : i ∈ e.columnList) (t : DataType) :
    Expr.evalOn (ofRow row) (.column (m.columns[i]?.getD i) t) =
      Expr.evalOn (ofRow (row.select m.columns)) (.column i t) := by
  obtain ⟨column, hcolumn⟩ := exists_column h hi
  have hget := List.getElem?_eq_getElem (hcolumns column (List.mem_of_getElem? hcolumn))
  rw [hcolumn, Option.getD_some, Expr.evalOn_column (by rw [ofRow, List.getElem?_map, hget]; rfl),
    Expr.evalOn_column]
  rw [ofRow, Row.select, List.map_map, List.getElem?_map, hcolumn, Option.map_some]
  exact congrArg (fun v => some (Except.ok v)) (Row.valueAt_eq hget)

/-- An expression has on the columns of a match the value that it has on the star row. -/
theorem holdsOn_toStar : e'.holdsOn (ofRow row) = e.holdsOn (ofRow (row.select m.columns)) := by
  rw [toStar_eq h]
  exact congrArg Outcome.isTrue (Expr.evalOn_mapColumns fun i hi t => evalOn_column h hcolumns hi t)

theorem splitsOn_toStar (he : e.splitsOn (ofRow (row.select m.columns)) = true) :
    e'.splitsOn (ofRow row) = true := by
  rw [Expr.splitsOn_iff] at he ⊢
  rw [toStar_eq h, Expr.conjuncts_mapColumns]
  intro k' hk'
  obtain ⟨k, hk, rfl⟩ := List.mem_map.mp hk'
  rw [Expr.evalOn_mapColumns fun i hi t => evalOn_column h hcolumns
    (Expr.columnList_of_mem_conjuncts hk i hi) t]
  exact he k hk

/-- The conjuncts of a condition hold on a star row if the condition does on the columns of the
match. -/
theorem all_conjuncts_toStar (he : e.splitsOn (ofRow (row.select m.columns)) = true) :
    e'.conjuncts.all (Expr.holdsOn (ofRow row)) = e.holdsOn (ofRow (row.select m.columns)) := by
  rw [Expr.all_holdsOn_of_splitsOn (splitsOn_toStar h hcolumns he), holdsOn_toStar h hcolumns]

end StarMatch

/-! ## Equalities that are dropped -/

namespace Lattice

/-- The equality that is dropped stands for the agreement of two columns. -/
theorem withoutEquality_finds {a b : Nat} {conjuncts rest : List Expr}
    (h : (withoutEquality a b conjuncts).Finds rest) (row : Row) :
    rest ⊆ conjuncts ∧ conjuncts.all (Expr.holdsOn (ofRow row)) =
      (decide ((row.valueAt a).Equates (row.valueAt b)) && rest.all (Expr.holdsOn (ofRow row))) := by
  induction conjuncts generalizing rest with
  | nil =>
    cases Matching.finds_ofOption.mp h
  | cons k conjuncts ih =>
    rw [withoutEquality, Matching.finds_bind] at h
    obtain ⟨equality, hequality, h⟩ := h
    have hequality := Matching.finds_reading.mp hequality
    split at h
    · next hkeys =>
      obtain rfl := Matching.finds_pure.mp h
      refine ⟨List.subset_cons_self _ _, ?_⟩
      have hholds : k.holdsOn (ofRow row) = decide ((row.valueAt a).Equates (row.valueAt b)) := by
        rw [Bool.eq_iff_iff, decide_eq_true_iff]
        rcases hkeys with rfl | rfl
        · exact (Expr.holdsOn_columnEquality hequality row).2
        · exact (Expr.holdsOn_columnEquality hequality row).2.trans ⟨.symm, .symm⟩
      rw [List.all_cons, hholds]
    · obtain ⟨others, hothers, h⟩ := Matching.finds_bind.mp h
      obtain rfl := Matching.finds_pure.mp h
      obtain ⟨hsubset, hall⟩ := ih hothers
      refine ⟨List.cons_subset_cons _ hsubset, ?_⟩
      rw [List.all_cons, List.all_cons, hall, Bool.and_left_comm]

theorem withoutKeys_finds {parentStart childStart : Nat} {keys : List (Nat × Nat)}
    {conjuncts rest : List Expr} (h : (withoutKeys parentStart childStart keys conjuncts).Finds rest)
    (row : Row) : rest ⊆ conjuncts ∧ conjuncts.all (Expr.holdsOn (ofRow row)) =
      ((keys.all fun key => decide
        ((row.valueAt (parentStart + key.1)).Equates (row.valueAt (childStart + key.2)))) &&
          rest.all (Expr.holdsOn (ofRow row))) := by
  induction keys generalizing conjuncts with
  | nil =>
    obtain rfl := Matching.finds_pure.mp h
    exact ⟨List.Subset.refl _, (Bool.true_and _).symm⟩
  | cons key keys ih =>
    rw [withoutKeys, Matching.finds_bind] at h
    obtain ⟨others, hothers, h⟩ := h
    obtain ⟨hsubset, hall⟩ := withoutEquality_finds hothers row
    obtain ⟨hsubset', hall'⟩ := ih h
    refine ⟨fun e he => hsubset (hsubset' he), ?_⟩
    rw [hall, hall', List.all_cons, Bool.and_assoc]

end Lattice

end QueryPlan
