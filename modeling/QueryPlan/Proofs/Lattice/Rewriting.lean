import QueryPlan.Proofs.Lattice.Joins
import QueryPlan.Proofs.Lattice.Layout
import QueryPlan.Proofs.Rule.Offers
import QueryPlan.Proofs.View.RollUp
/-!
# Joins of lattice tables as reads of the star table

The plan over the star table reads the columns of a match off the rows of the root that lead to every
table of the lattice. The join that it stands for has a row for each row of the root that leads to the
tables that it joins. These are the same rows if steps lead on from every row to the tables that are
left out, and not otherwise: the star table drops facts that lead nowhere.
-/
namespace QueryPlan

open OutcomeRow Execution

namespace Expr

variable {ps : List Expr} (hps : ∀ p ∈ ps, p.conjuncts = [p])

include hps

theorem eq_nil_of_conjunction? (h : conjunction? ps = none) : ps = [] := by
  unfold conjunction? at h
  dsimp only at h
  rw [conjunctsOf_eq_self hps] at h
  split at h
  · cases h
  · split at h
    · rfl
    · cases h
    · cases h

/-- The conjunction of predicates that cannot be taken apart is true where all of them are. -/
theorem holdsOn_of_conjunction? {e : Expr} {row : List Outcome} (h : conjunction? ps = some e)
    (he : e.splitsOn row = true) : e.holdsOn row = ps.all (holdsOn row) := by
  have hparts := conjunctsOf_eq_self hps
  unfold conjunction? at h
  dsimp only at h
  rw [hparts] at h
  split at h
  · next hfalse =>
    cases h
    obtain ⟨p, hp, hfalse⟩ := List.any_eq_true.mp hfalse
    symm
    show _ = false
    rw [List.all_eq_false]
    exact ⟨p, hp, by rw [holdsOn_of_isAlwaysFalse hfalse]; exact Bool.false_ne_true⟩
  · split at h
    · cases h
    · cases h
      exact (Bool.and_true _).symm
    · cases h
      rw [← all_holdsOn_of_splitsOn he, call, conjuncts_apply_and, ← conjunctsOf_eq, hparts]

end Expr

namespace Lattice

variable {l : Lattice}

/-- A step to a table leads on from every row. -/
def LeadsOnTo (l : Lattice) (i : Nat) : Prop :=
  ∀ branch, l.branch? i = some branch → ∀ parent ∈ l.rowsAt branch.parent,
    ∃ target ∈ l.rowsAt i, leads branch.keys parent target = true

theorem exists_branch {i : Nat} (hpos : i ≠ 0) (hi : i < l.tables.length) :
    ∃ branch, l.branch? i = some branch := by
  obtain ⟨j, rfl⟩ := Nat.exists_eq_succ_of_ne_zero hpos
  rw [tables, List.length_cons, List.length_map] at hi
  exact ⟨_, List.getElem?_eq_getElem (Nat.lt_of_succ_lt_succ hi)⟩

/-- A row that leads to some tables, the root among them, leads to all if no step ends in another. -/
theorem reachesTo_of_leadsOnTo (hl : l.Formed) {tables : List Nat} (hzero : 0 ∈ tables)
    (hothers : ∀ i, i ∉ tables → l.LeadsOnTo i) {row : Row} (hrow : row ∈ l.rowsAt 0)
    (hreached : ∀ t ∈ tables, (l.reach 0 row t).isSome = true) :
    l.reachesTo l.tables.length row = true := by
  refine reachesTo_iff.mpr fun i hi => ?_
  induction i using Nat.strongRecOn with
  | ind i ih =>
    by_cases hmem : i ∈ tables
    · exact hreached i hmem
    · have hne : i ≠ 0 := fun heq => hmem (heq ▸ hzero)
      obtain ⟨branch, hbranch⟩ := exists_branch hne hi
      have hparent := hl.parent_lt i branch hbranch
      obtain ⟨parent, hreach⟩ :=
        Option.isSome_iff_exists.mp (ih branch.parent hparent (Nat.lt_trans hparent hi))
      obtain ⟨target, htarget, hleads⟩ :=
        hothers i hmem branch hbranch parent (reach_mem hrow hreach)
      rw [reach_branch hl hne hbranch, hreach, Option.bind_some, List.find?_isSome]
      exact ⟨target, htarget, hleads⟩

/-- The rows of the star table that pass the filters of a match are those that its plan has. -/
theorem filter_rowsTo (hl : l.Formed) {m : StarMatch} (hm : l.Shaped 0 m)
    (hothers : ∀ i, i ∉ m.tables → l.LeadsOnTo i) :
    ((l.rowsTo l.tables.length).filter fun row => m.filters.all (Expr.holdsOn (ofRow row))).map
      (Row.select m.columns) = l.matchRows 0 m := by
  rw [rowsTo, matchRows, List.filter_map, List.filter_filter, List.map_map]
  refine congrArg _ (List.filter_congr fun row hrow => ?_)
  rw [accepts, Bool.and_comm]
  refine congrArg (· && _) (Bool.eq_iff_iff.mpr ?_)
  rw [reachesTo_iff, List.all_eq_true]
  constructor
  · exact fun h t ht => h t (hm.rooted.lt_length t ht)
  · exact fun h => reachesTo_iff.mp (reachesTo_of_leadsOnTo hl hm.rooted.top_mem hothers hrow h)

/-! ## The plan over the star table -/

variable {c c' : Cluster} {id star : NodeId} {m : StarMatch}

/-- The plan over the star table is a projection of fields over a filter over its scan. -/
theorem runs_starPlan : (l.starPlan id m).Runs c star c' ↔
    ∃ scan c₁ input c₂, l.starScan.Runs c scan c₁ ∧
      (Filter.keeping scan m.filters).Runs c₁ input c₂ ∧
      (Unification.fieldsOver input m.columns (c₂.rowType id).names).Runs c₂ star c' := by
  simp only [starPlan, Unification.runs_fieldsOver, Unification.projectOver, Planning.runs_bind,
    Planning.runs_read, Planning.runs_ofOption]
  constructor
  · rintro ⟨scan, c₁, hscan, input, c₂, hkeep, _, _, ⟨rfl, rfl⟩, exprs, _, ⟨hexprs, rfl⟩, h⟩
    refine ⟨scan, c₁, input, c₂, hscan, hkeep, exprs, hexprs, _, _, ⟨rfl, rfl⟩, ?_⟩
    rw [Rule.map_fst_zip_projectionNames]
    exact h
  · rintro ⟨scan, c₁, input, c₂, hscan, hkeep, exprs, hexprs, _, _, ⟨rfl, rfl⟩, h⟩
    rw [Rule.map_fst_zip_projectionNames] at h
    exact ⟨scan, c₁, hscan, input, c₂, hkeep, _, _, ⟨rfl, rfl⟩, exprs, _, ⟨hexprs, rfl⟩, h⟩

theorem under_of_fieldsOver {input built : NodeId} {columns : List Nat} {names : List String}
    (h : (Unification.fieldsOver input columns names).Runs c built c') : c'.Under built input := by
  obtain ⟨_, -, hproject⟩ := Unification.runs_fieldsOver.mp h
  rcases (Unification.runs_projectOver hproject).2 with hnode | ⟨rfl, -⟩
  · exact .input .root (hnode.inputs_eq ▸ List.mem_cons_self)
  · exact .root

/-- A filter on conjuncts keeps the rows of its input on which all of them hold. -/
theorem rows_of_kept {input kept : NodeId} {conjuncts : List Expr} {rows : List Row}
    (hconjuncts : ∀ e ∈ conjuncts, e.conjuncts = [e]) (hkept : Rule.Kept c input conjuncts kept)
    (hsplits : c.SplitsUnder kept) (hrows : c.Delivers kept rows) :
    ∃ read, c.Delivers input read ∧
      rows = read.filter fun row => conjuncts.all (Expr.holdsOn (ofRow row)) := by
  rcases hkept.cases with ⟨hconjunction, rfl⟩ | ⟨e, hconjunction, hnode⟩
  · obtain rfl := Expr.eq_nil_of_conjunction? hconjuncts hconjunction
    exact ⟨rows, hrows, (List.filter_eq_self.mpr fun _ _ => rfl).symm⟩
  · have hsplits := hsplits kept .root
    obtain ⟨hinputs, hown⟩ := hrows.operatorRows (by rw [hnode.operator_eq]; rfl)
      (by rw [hnode.operator_eq]; rfl)
    rw [hnode.operator_eq, hnode.inputs_eq] at hown
    rw [hnode.inputs_eq] at hinputs
    obtain ⟨-, rfl⟩ := filterRows_eq_ok_iff.mp hown
    rw [Cluster.splitsAt, hnode.operator_eq, hnode.inputs_eq] at hsplits
    exact ⟨_, hinputs input List.mem_cons_self, List.filter_congr fun row hrow =>
      Expr.holdsOn_of_conjunction? hconjuncts hconjunction (List.all_eq_true.mp hsplits row hrow)⟩

theorem arity_star : l.star.rowType.arity = l.start l.tables.length := by
  rw [start, List.take_length]
  rfl

theorem width_rowsTo (hwidths : l.StoresWidths) (n : Nat) : HaveWidth (l.start n) (l.rowsTo n) := by
  intro row hrow
  obtain ⟨fact, hfact, rfl⟩ := List.mem_map.mp hrow
  exact length_layTo fun i _ => length_along hwidths (List.mem_of_mem_filter hfact) i

/-- The plan over the star table has the rows of the match. -/
theorem rows_of_starPlan (hl : l.Formed) (hwidths : l.StoresWidths) (hm : l.Shaped 0 m)
    (hothers : ∀ i, i ∉ m.tables → l.LeadsOnTo i) (hrun : (l.starPlan id m).Runs c star c')
    (hsplits : c'.SplitsUnder star) {rows : List Row} (hrows : c'.Delivers star rows) :
    rows = l.matchRows 0 m := by
  obtain ⟨scan, c₁, input, c₂, hscan, hkeep, hfields⟩ := runs_starPlan.mp hrun
  obtain ⟨-, hscan⟩ := Cluster.runs_createDefault hscan
  obtain ⟨hgrow, hkept⟩ := Rule.runs_keeping hscan.lt_size hkeep
  have hgrow' := (Unification.grows_fieldsOver _ _ _).runs hfields
  obtain ⟨read, hread, hselect⟩ := Unification.select_of_fieldsOver hkept.lt_size hfields hrows
  obtain ⟨stored, hstored, rfl⟩ := rows_of_kept hm.conjuncts_eq (hkept.mono hgrow')
    (fun i hi => hsplits i (.trans (under_of_fieldsOver hfields) hi)) hread
  have hstored : l.starRows = .ok stored :=
    hstored.of_scan (hscan.mono (hgrow.trans hgrow')).operator_eq
  obtain rfl := starRows_eq hl hwidths hstored
  have harity : c₂.arity input = l.start l.tables.length := by
    rw [hkept.arity_eq, hgrow.arity_eq hscan.lt_size, Cluster.arity_eq hscan.lt_size,
      hscan.operator_eq]
    exact arity_star
  rw [hselect fun _ row hrow => ?_, filter_rowsTo hl hm hothers]
  rw [harity]
  exact width_rowsTo hwidths _ row (List.mem_of_mem_filter hrow)

theorem lt_size_of_starPlan (h : (l.starPlan id m).Runs c star c') : star < c'.size := by
  obtain ⟨scan, c₁, input, c₂, hscan, hkeep, hfields⟩ := runs_starPlan.mp h
  obtain ⟨-, hscan⟩ := Cluster.runs_createDefault hscan
  obtain ⟨-, hkept⟩ := Rule.runs_keeping hscan.lt_size hkeep
  exact Unification.lt_size_of_fieldsOver hkept.lt_size hfields

/-- The plan over the star table that is made for a tree of joins and filters over tables of a lattice
has the rows of the tree, if steps lead to one row at most, and to one from every row where the tree
does not follow them. -/
theorem starPlan_perm {d : Draft} {starName : List String} (hbuild : d.build starName = .ok l)
    (hwidths : l.StoresWidths) (hone : l.LeadsToOne) (hid : id < c.size)
    (hmatch : (l.matchStar c id).Finds m) (hothers : ∀ i, i ∉ m.tables → l.LeadsOnTo i)
    (hplan : l.PlansOver c id) (hrun : (l.starPlan id m).Runs c star c')
    (hsplits : c'.SplitsUnder star) {rows starRows : List Row} (hrows : c.Returns id rows)
    (hstarRows : c'.Returns star starRows) : starRows.Perm rows := by
  have hl := d.formed_of_build hbuild
  obtain ⟨hmatches, hout⟩ := finds_matchStar.mp hmatch
  obtain ⟨top, hm, hperm⟩ :=
    perm_of_matches hl hwidths hone hmatches hplan (hrows.delivers hid)
  -- the root is among the tables, so it is the one at their top
  rw [StarMatch.reachesOut, Bool.and_eq_true, List.contains_iff_mem] at hout
  obtain rfl := hm.rooted.top_eq_zero hout.2
  rw [rows_of_starPlan hl hwidths hm hothers hrun hsplits
    (hstarRows.delivers (lt_size_of_starPlan hrun))]
  exact hperm.symm

/-! ## Orders of items at shops -/

namespace OrdersAtShops

/-- Orders, by item and shop. -/
def orders : Table :=
  { name := ["ORDERS"], rowType := ⟨[⟨"item", .bigint, true⟩, ⟨"shop", .bigint, true⟩]⟩,
    source := some (.ok [[.integer 1, .integer 1], [.integer 2, .integer 9]]) }

def items : Table :=
  { name := ["ITEMS"], rowType := ⟨[⟨"id", .bigint, true⟩]⟩,
    source := some (.ok [[.integer 1], [.integer 2]]) }

/-- Shops with the given numbers. -/
def shops (ids : List Int64) : Table :=
  { name := ["SHOPS"], rowType := ⟨[⟨"id", .bigint, true⟩]⟩,
    source := some (.ok (ids.map fun id => [.integer id])) }

/-- Orders lead to items and to shops. -/
def draft (shopIds : List Int64) : Draft :=
  ⟨orders, [items, shops shopIds], [⟨0, 1, [(0, 0)]⟩, ⟨0, 2, [(1, 0)]⟩]⟩

def lattice (shopIds : List Int64) : Lattice :=
  ⟨orders, [⟨items, 0, [(0, 0)]⟩, ⟨shops shopIds, 0, [(1, 0)]⟩], ["STAR"]⟩

/-- Items beyond the first. -/
def beyond : Expr := .apply .greaterThan [.column 2 .bigint, .literal (.integer 1)] .boolean

/-- Orders with their items, and those of them for items beyond the first. -/
def joinItems : Planning NodeId := do
  let left ← Cluster.createDefault (.scan .none orders) []
  let right ← Cluster.createDefault (.scan .none items) []
  let equal := .apply .equals [.column 0 .bigint, .column 2 .bigint] .boolean
  let join ← Cluster.createDefault (.join .logical .inner equal) [left, right]
  Cluster.createDefault (.filter .none beyond) [join]

def session : Cluster :=
  (joinItems.run.run (Cluster.start ⟨[orders, items]⟩ default default)).2

/-- Orders with their items in terms of the star table, up to filters. -/
def joined (filters : List Expr) : StarMatch := ⟨[0, 1], [0, 1, 2], filters⟩

def planned (shopIds : List Int64) (id : NodeId) (m : StarMatch) : Cluster :=
  (((lattice shopIds).starPlan id m).run.run session).2

theorem leadsToOne_lattice : (lattice [1]).LeadsToOne ∧ (lattice [1, 9]).LeadsToOne := by
  constructor <;>
  · intro i branch h
    rcases i with _ | _ | _ | i
    · cases h
    · cases h
      decide +kernel
    · cases h
      decide +kernel
    · cases h

theorem plansOver_session (shopIds : List Int64) {root : NodeId} (hroot : root < session.size) :
    (lattice shopIds).PlansOver session root := by
  refine .of_all hroot ?_ (by decide +kernel) (by decide +kernel)
  intro id hid convention table i hop hposition
  have hid : id < 4 := hid
  obtain rfl | rfl | rfl | rfl : id = 0 ∨ id = 1 ∨ id = 2 ∨ id = 3 := by omega
  · cases hop
    cases hposition
    rfl
  · cases hop
    cases hposition
    rfl
  · cases hop
  · cases hop

/-- Orders by item, stored with a second value. -/
def wideOrders : Table :=
  { name := ["ORDERS"], rowType := ⟨[⟨"item", .bigint, true⟩]⟩,
    source := some (.ok [[.integer 1, .integer 5]]) }

def wideDraft : Draft := ⟨wideOrders, [items], [⟨0, 1, [(0, 0)]⟩]⟩

def wideLattice : Lattice := ⟨wideOrders, [⟨items, 0, [(0, 0)]⟩], ["STAR"]⟩

def joinWide : Planning NodeId := do
  let left ← Cluster.createDefault (.scan .none wideOrders) []
  let right ← Cluster.createDefault (.scan .none items) []
  let equal := .apply .equals [.column 0 .bigint, .column 1 .bigint] .boolean
  Cluster.createDefault (.join .logical .inner equal) [left, right]

def wideSession : Cluster :=
  (joinWide.run.run (Cluster.start ⟨[wideOrders, items]⟩ default default)).2

/-- All columns of the star table. -/
def wideJoined : StarMatch := ⟨[0, 1], [0, 1], []⟩

def widePlanned : Cluster := ((wideLattice.starPlan 2 wideJoined).run.run wideSession).2

theorem leadsToOne_wideLattice : wideLattice.LeadsToOne := by
  intro i branch h
  rcases i with _ | _ | i
  · cases h
  · cases h
    decide +kernel
  · cases h

theorem plansOver_wideSession : wideLattice.PlansOver wideSession 2 := by
  refine .of_all (by decide +kernel) ?_ (by decide +kernel) (by decide +kernel)
  intro id hid convention table i hop hposition
  have hid : id < 3 := hid
  obtain rfl | rfl | rfl : id = 0 ∨ id = 1 ∨ id = 2 := by omega
  · cases hop
    cases hposition
    rfl
  · cases hop
    cases hposition
    rfl
  · cases hop

end OrdersAtShops

open OrdersAtShops

/-- Each order is of a shop that there is, so that the join with items is read off the star table. -/
theorem starPlan_perm_orders :
    ((planned [1, 9] 3 (joined [beyond])).ranRows 6).Perm (session.ranRows 3) ∧
      session.ranRows 3 = [[.integer 2, .integer 9, .integer 2]] := by
  have hbuild : (draft [1, 9]).build ["STAR"] = .ok (lattice [1, 9]) := rfl
  have hmatch : ((lattice [1, 9]).matchStar session 3).Finds (joined [beyond]) := by
    with_unfolding_all exact rfl
  have hothers : ∀ i, i ∉ (joined [beyond]).tables → (lattice [1, 9]).LeadsOnTo i := by
    intro i hi branch h
    rcases i with _ | _ | _ | i
    · cases h
    · exact absurd (List.mem_cons_of_mem _ List.mem_cons_self) hi
    · cases h
      decide +kernel
    · cases h
  have hrun : ((lattice [1, 9]).starPlan 3 (joined [beyond])).Runs session 6
      (planned [1, 9] 3 (joined [beyond])) := Planning.runs_of_toOption (by decide +kernel)
  have hrows : session.Returns 3 (session.ranRows 3) :=
    Cluster.returns_of_ranRows (by decide +kernel) rfl
  exact ⟨starPlan_perm hbuild (by decide +kernel) leadsToOne_lattice.2 (by decide +kernel) hmatch
    hothers (plansOver_session [1, 9] (by decide +kernel)) hrun
    (.of_all (by decide +kernel) (by decide +kernel)) hrows
    (Cluster.returns_of_ranRows (by decide +kernel) rfl), by decide +kernel⟩

/-- An order of a shop that is not there has no row in the star table, though it has an item. And if
orders are stored with more values than the table has columns, the join looks for item numbers in
another place than the star table. -/
theorem starPlan_drops_orders :
    ((draft [1]).build ["STAR"] = .ok (lattice [1]) ∧ (lattice [1]).StoresWidths ∧
      (lattice [1]).LeadsToOne ∧ ((lattice [1]).matchStar session 2).Finds (joined []) ∧
      (lattice [1]).PlansOver session 2 ∧
      ((lattice [1]).starPlan 2 (joined [])).Runs session 5 (planned [1] 2 (joined [])) ∧
      (planned [1] 2 (joined [])).SplitsUnder 5 ∧
      session.Returns 2 [[.integer 1, .integer 1, .integer 1], [.integer 2, .integer 9, .integer 2]] ∧
      (planned [1] 2 (joined [])).Returns 5 [[.integer 1, .integer 1, .integer 1]] ∧
      ¬ [[.integer 1, .integer 1, .integer 1]].Perm
        [[.integer 1, .integer 1, .integer 1], [.integer 2, .integer 9, (.integer 2 : Value)]]) ∧
    (wideDraft.build ["STAR"] = .ok wideLattice ∧ wideLattice.LeadsToOne ∧
      (∀ i, i ∉ wideJoined.tables → wideLattice.LeadsOnTo i) ∧
      (wideLattice.matchStar wideSession 2).Finds wideJoined ∧
      wideLattice.PlansOver wideSession 2 ∧
      (wideLattice.starPlan 2 wideJoined).Runs wideSession 3 widePlanned ∧ widePlanned.SplitsUnder 3 ∧
      wideSession.Returns 2 [] ∧
      widePlanned.Returns 3 [[.integer 1, .integer 5, .integer 1]] ∧
      ¬ [[.integer 1, .integer 5, (.integer 1 : Value)]].Perm []) := by
  have hmatch : ((lattice [1]).matchStar session 2).Finds (joined []) := by
    with_unfolding_all exact rfl
  have hwideMatch : (wideLattice.matchStar wideSession 2).Finds wideJoined := by
    with_unfolding_all exact rfl
  have hothers : ∀ i, i ∉ wideJoined.tables → wideLattice.LeadsOnTo i := by
    intro i hi branch h
    rcases i with _ | _ | i
    · cases h
    · exact absurd (List.mem_cons_of_mem _ List.mem_cons_self) hi
    · cases h
  refine ⟨⟨rfl, by decide +kernel, leadsToOne_lattice.1, hmatch,
    plansOver_session [1] (by decide +kernel), Planning.runs_of_toOption (by decide +kernel),
    .of_all (by decide +kernel) (by decide +kernel),
    Cluster.returns_of_ranRows (by decide +kernel) (by decide +kernel),
    Cluster.returns_of_ranRows (by decide +kernel) (by decide +kernel), fun hperm => ?_⟩,
    ⟨rfl, leadsToOne_wideLattice, hothers, hwideMatch, plansOver_wideSession,
    Planning.runs_of_toOption (by decide +kernel), .of_all (by decide +kernel) (by decide +kernel),
    Cluster.returns_of_ranRows (by decide +kernel) (by decide +kernel),
    Cluster.returns_of_ranRows (by decide +kernel) (by decide +kernel), fun hperm => ?_⟩⟩
  · cases hperm.length_eq
  · cases hperm.length_eq

end Lattice

end QueryPlan
