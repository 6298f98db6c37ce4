import QueryPlan.Proofs.Execution.Exchange
import QueryPlan.Proofs.Expr.Equated
import QueryPlan.Proofs.Lattice.Joins
import QueryPlan.Proofs.Lattice.Layout
/-!
# The star table as a join

The star table is read by looking up the first partner of each row in one table after the other. Where
steps lead to one row at most, this is the join of the tables in the sequence of their columns, each
joined to those before it on the keys of its step: the same rows in the same order, and the same error
if a table cannot be read.
-/
namespace QueryPlan

open OutcomeRow Execution

namespace Lattice

variable {l : Lattice} {c : Cluster}

/-- The conjuncts of the condition are the equalities of the keys of a step, in the sequence of the keys,
in terms of star columns. -/
def EquatesKeys (l : Lattice) (i : Nat) (branch : Branch) (condition : Expr) : Prop :=
  List.Forall₂ (fun k key => k.EquatesColumns (l.start branch.parent + key.1) (l.start i + key.2))
    condition.conjuncts branch.keys

/-- The source columns of a step stand before its table. -/
theorem Formed.source_lt_start (hl : l.Formed) {i : Nat} {branch : Branch}
    (hbranch : l.branch? i = some branch) {key : Nat × Nat} (hkey : key ∈ branch.keys) :
    l.start branch.parent + key.1 < l.start i := by
  have hsource := (hl.keys_lt i branch hbranch key hkey).1
  have hstop := start_mono (l := l) (Nat.succ_le_of_lt (hl.parent_lt i branch hbranch))
  rw [start_succ] at hstop
  omega

namespace EquatesKeys

variable {i : Nat} {branch : Branch} {condition : Expr}

theorem splitsOn (h : l.EquatesKeys i branch condition) (row : Row) :
    condition.splitsOn (ofRow row) = true :=
  Expr.splitsOn_iff.mpr fun _ hk =>
    let ⟨_, _, hequates⟩ := Outcome.exists_right_of_forall₂ h hk
    hequates.isTruth row

theorem holdsOn_eq (h : l.EquatesKeys i branch condition) (row : Row) :
    condition.holdsOn (ofRow row) = branch.keys.all fun key =>
      decide ((row.valueAt (l.start branch.parent + key.1)).Equates
        (row.valueAt (l.start i + key.2))) := by
  rw [← Expr.all_holdsOn_of_splitsOn (h.splitsOn row)]
  unfold EquatesKeys at h
  generalize condition.conjuncts = conjuncts, branch.keys = keys at h
  induction h with
  | nil => rfl
  | cons hequates _ ih => rw [List.all_cons, List.all_cons, hequates.holdsOn_eq, ih]

section

variable {f : Nat → Row} {target : Row} (h : l.EquatesKeys i branch condition)
  (hwidth : ∀ j < i, (f j).length = l.arityAt j) (htarget : target.length = l.arityAt i)
  (hl : l.Formed) (hbranch : l.branch? i = some branch)

include h hwidth htarget hl hbranch

/-- The condition has a value on the rows of the tables before a step followed by one of its table. -/
theorem hasValue : condition.HasValue (layTo i f ++ target) := by
  refine Expr.hasValue_of_conjuncts (h.splitsOn _) fun k hk => ?_
  obtain ⟨key, hkey, hequates⟩ := Outcome.exists_right_of_forall₂ h hk
  have hsource := hl.source_lt_start hbranch hkey
  have htargetKey := (hl.keys_lt i branch hbranch key hkey).2
  refine hequates.hasValue ?_ ?_ <;> rw [List.length_append, length_layTo hwidth, htarget] <;> omega

omit htarget in
/-- It is true of them if the row of the parent leads to that of the table. -/
theorem holdsOn_layTo : condition.holdsOn (ofRow (layTo i f ++ target)) =
    leads branch.keys (f branch.parent) target := by
  rw [h.holdsOn_eq, leads]
  refine all_congr fun key hkey => ?_
  have hlength := length_layTo hwidth
  have hleft : (layTo i f ++ target)[l.start branch.parent + key.1]? = (f branch.parent)[key.1]? := by
    rw [List.getElem?_append_left (hlength ▸ hl.source_lt_start hbranch hkey)]
    exact getElem?_layTo hwidth (hl.parent_lt i branch hbranch)
      (hl.keys_lt i branch hbranch key hkey).1
  have hright : (layTo i f ++ target)[l.start i + key.2]? = target[key.2]? := by
    rw [List.getElem?_append_right (by rw [hlength]; exact Nat.le_add_right _ _), hlength,
      Nat.add_sub_cancel_left]
  rw [Row.valueAt, Row.valueAt, hleft, hright]
  rfl

end

end EquatesKeys

section

variable {i : Nat} {branch : Branch} {condition : Expr} (hl : l.Formed) (hwidths : l.StoresWidths)
  (hone : l.LeadsToOne) (hbranch : l.branch? (i + 1) = some branch)
  (h : l.EquatesKeys (i + 1) branch condition)

include hl hwidths hone hbranch h

/-- The next table has at most one row that meets the condition with what a row reaches so far: the one
that is found first. -/
theorem filter_holdsOn_eq_reach {row : Row} (hrow : row ∈ l.rowsAt 0)
    (hreaches : l.reachesTo (i + 1) row = true) :
    (l.rowsAt (i + 1)).filter (fun target =>
      condition.holdsOn (ofRow (layTo (i + 1) (l.along 0 row) ++ target))) =
      (l.reach 0 row (i + 1)).toList := by
  obtain ⟨parent, hreach⟩ := Option.isSome_iff_exists.mp
    (reachesTo_iff.mp hreaches _ (hl.parent_lt (i + 1) branch hbranch))
  have hparent : l.along 0 row branch.parent ∈ l.rowsAt branch.parent := by
    rw [along_eq hreach]
    exact reach_mem hrow hreach
  rw [← find?_leads_along hl hbranch hreaches,
    ← filter_eq_toList_find? (hone (i + 1) branch hbranch _ hparent)]
  exact List.filter_congr fun target _ =>
    h.holdsOn_layTo (fun j _ => length_along hwidths hrow j) hl hbranch

/-- Joining the rows that reach so far with the table of the next branch takes them to it, as extending
them does. -/
theorem joinRows_next (leftCount rightCount : Nat) :
    joinRows .inner condition leftCount rightCount (l.rowsTo (i + 1)) (l.rowsAt (i + 1)) =
      .ok (l.rowsTo (i + 2)) := by
  refine joinRows_eq_ok_iff.mpr ⟨fun left hleft right hright => ?_, ?_⟩
  · obtain ⟨row, hrow, rfl⟩ := List.mem_map.mp hleft
    exact h.hasValue (fun j _ => length_along hwidths (List.mem_of_mem_filter hrow) j)
      (hwidths.rowsAt (i + 1) right hright) hl hbranch
  rw [joined_inner, rowsTo, rowsTo, pairsOf, List.flatMap_map, List.map_eq_flatMap,
    filter_flatMap_if, filter_flatMap_if]
  -- both sides go through the rows of the root, and each of them has one row more or none
  refine List.flatMap_congr fun row hrow => ?_
  rw [reachesTo_succ (i + 1)]
  cases hreaches : l.reachesTo (i + 1) row with
  | false => rfl
  | true =>
    rw [if_pos rfl, filter_holdsOn_eq_reach hl hwidths hone hbranch h hrow hreaches]
    cases hreach : l.reach 0 row (i + 1) with
    | none => rfl
    | some target =>
      rw [layTo_succ (i + 1), along_eq hreach]
      rfl

end

/-! ## The join of the tables of a lattice -/

/-- The node joins the root with the tables of so many branches, one after the other, each on the keys of
its step. -/
inductive LeftDeep (l : Lattice) (c : Cluster) : Nat → NodeId → Prop
  | root {id : NodeId} {convention : Convention}
      (scan : c.operator id = .scan convention l.root) : LeftDeep l c 0 id
  | join {k : Nat} {id left right : NodeId} {convention : Convention} {branch : Branch}
      {algorithm : JoinAlgorithm} {condition : Expr} (before : LeftDeep l c k left)
      (branch_eq : l.branch? (k + 1) = some branch)
      (scan : c.operator right = .scan convention branch.table)
      (operator_eq : c.operator id = .join algorithm .inner condition) (pairs : algorithm ≠ .semi)
      (inputs_eq : c.inputs id = [left, right])
      (equates : l.EquatesKeys (k + 1) branch condition) : LeftDeep l c (k + 1) id

theorem evaluate_scan {id : NodeId} {convention : Convention} {table : Table}
    (h : c.operator id = .scan convention table) : c.evaluate false id = table.scan := by
  rw [Cluster.evaluate_eq, Cluster.inputs_eq_nil_of_scan h]
  show c.nodeRows false id [] = _
  rw [Cluster.nodeRows_eq (by rw [h]; rfl), h]
  rfl

theorem evaluate_join {id left right : NodeId} {algorithm : JoinAlgorithm} {condition : Expr}
    (hop : c.operator id = .join algorithm .inner condition) (hpairs : algorithm ≠ .semi)
    (hinputs : c.inputs id = [left, right]) : c.evaluate false id =
      (c.evaluate false left >>= fun lefts => c.evaluate false right >>= fun rights =>
        (joinRows .inner condition (c.arity left) (c.arity right) lefts rights).mapError
          .evaluation) := by
  rw [Cluster.evaluate_eq, hinputs]
  simp only [List.mapM_cons, List.mapM_nil, bind_assoc, pure_bind]
  refine congrArg _ (funext fun lefts => congrArg _ (funext fun rights => ?_))
  rw [Cluster.nodeRows_eq (by rw [hop]; rfl), hop, hinputs]
  cases algorithm with
  | semi => exact absurd rfl hpairs
  | _ => rfl

namespace LeftDeep

variable {k : Nat} {id : NodeId}

theorem le_length (h : l.LeftDeep c k id) : k ≤ l.branches.length := by
  cases h with
  | root => exact Nat.zero_le _
  | join _ hbranch => exact (List.getElem?_eq_some_iff.mp hbranch).1

theorem plain (h : l.LeftDeep c k id) : c.Plain id := by
  have hscan : ∀ {id convention table}, c.operator id = .scan convention table → c.Plain id :=
    fun h => .node (by rw [Cluster.inputs_eq_nil_of_scan h]; simp) (by rw [h]; rfl)
  induction h with
  | root hop => exact hscan hop
  | join _ _ hop hjoin _ hinputs _ ih =>
    refine .node ?_ (by rw [hjoin]; rfl)
    rw [hinputs]
    exact List.forall_mem_cons.mpr ⟨ih, List.forall_mem_singleton.mpr (hscan hop)⟩

/-- Along each number of branches, the join of their tables ends with what the star table has so far. -/
theorem evaluate_eq (hl : l.Formed) (hwidths : l.StoresWidths) (hone : l.LeadsToOne)
    (h : l.LeftDeep c k id) : c.evaluate false id = l.starTo k := by
  induction h with
  | root hop => rw [evaluate_scan hop, starTo_zero]
  | @join k id left right _ branch _ condition hbefore hbranch hop hjoin hpairs hinputs hequates ih =>
    rw [evaluate_join hjoin hpairs hinputs, ih, evaluate_scan hop, starTo_succ hbranch]
    rcases starTo_cases hl hwidths hbefore.le_length with hrows | ⟨e, herror, -⟩
    · rw [hrows]
      cases hscan : branch.table.scan with
      | error e => rfl
      | ok targets =>
        show (joinRows .inner condition (c.arity left) (c.arity right) (l.rowsTo (k + 1))
          targets).mapError _ = extendRows _ _ targets (l.rowsTo (k + 1))
        rw [← rowsAt_eq (getElem?_tables_succ hbranch) hscan, extendRows_next hl hwidths hbranch,
          joinRows_next hl hwidths hone hbranch hequates]
        rfl
    · rw [herror]
      rfl

end LeftDeep

/-! ## The star table -/

/-- The row of the star table that a row of the root becomes, if it reaches every table. -/
def starOf (l : Lattice) (fact : Row) : Option Row :=
  if l.reachesTo l.tables.length fact then some (l.starRow 0 fact) else none

theorem rowsTo_eq_filterMap (l : Lattice) :
    l.rowsTo l.tables.length = (l.rowsAt 0).filterMap l.starOf := by
  rw [rowsTo, ← List.filterMap_eq_map, List.filterMap_filter]
  rfl

/-- The row of the star table starts with that of the root. -/
theorem prefix_starOf {fact row : Row} (h : l.starOf fact = some row) : fact <+: row := by
  unfold starOf at h
  split at h
  · cases h
    rw [starRow, layTo, length_tables, List.range_succ_eq_map, List.flatMap_cons, along_self]
    exact List.prefix_append _ _
  · cases h

/-- Scanning the star table fails only where scanning a table of the lattice does, so never on a column
that is not there. Each fact has at most one row in it, which the fact starts. And if steps lead to
unique keys, and no double to several integers, then every left-deep join of all tables ends with
what scanning the star table ends with. -/
theorem starScan_joins {d : Draft} {starName : List String} (hbuild : d.build starName = .ok l)
    (hwidths : l.StoresWidths) :
    (∀ e, l.star.scan = .error e → ∃ table ∈ l.tables, table.scan = .error e) ∧
    (∀ rows, l.star.scan = .ok rows → ∃ facts, l.root.scan = .ok facts ∧
      ∃ f : Row → Option Row, rows = facts.filterMap f ∧
        ∀ fact row, f fact = some row → fact <+: row) ∧
    (l.HasUniqueKeys → l.SeparatesIntegers → ∀ (c : Cluster) (id : NodeId), id < c.size →
      l.LeftDeep c l.branches.length id → c.outcome id false = l.star.scan) := by
  have hl := d.formed_of_build hbuild
  have hstar : l.star.scan = l.starTo l.branches.length := (starTo_length l).symm
  rw [hstar]
  refine ⟨fun e he => ?_, fun rows hrows => ?_, fun hkeys hintegers c id hid hjoin => ?_⟩
  · rcases starTo_cases hl hwidths (Nat.le_refl l.branches.length) with hrows | ⟨e', he', hfails⟩
    · cases hrows.symm.trans he
    · cases he'.symm.trans he
      exact hfails
  · rw [starTo_length] at hrows
    obtain ⟨facts, hscan, -⟩ := Outcome.bind_eq_ok.mp hrows
    refine ⟨facts, hscan, l.starOf, ?_, fun _ _ => prefix_starOf⟩
    rw [starRows_eq hl hwidths hrows, rowsTo_eq_filterMap, rowsAt_eq rfl hscan]
  · rw [Cluster.outcome_plain hid hjoin.plain,
      hjoin.evaluate_eq hl hwidths (hkeys.leadsToOne hintegers)]

/-! ## Stays in rooms -/

namespace StaysInRooms

def integers (values : List Int64) : Row := values.map .integer

/-- Stays of guests, by hotel and room. One has no room yet. -/
def stays : Table :=
  { name := ["STAYS"], rowType := ⟨[⟨"hotel", .bigint, true⟩, ⟨"room", .bigint, true⟩,
      ⟨"guest", .bigint, true⟩]⟩,
    source := some (.ok [integers [1, 10, 7], [.integer 1, .null, .integer 7], integers [2, 10, 8],
      integers [1, 10, 9]]) }

/-- Rooms of hotels. One has no number, another one no kind. -/
def rooms : Table :=
  { name := ["ROOMS"], rowType := ⟨[⟨"hotel", .bigint, true⟩, ⟨"number", .bigint, true⟩,
      ⟨"kind", .bigint, true⟩]⟩,
    source := some (.ok [[.integer 1, .null, .integer 5], integers [1, 10, 5],
      [.integer 2, .integer 10, .null]]) }

def guests : Table :=
  { name := ["GUESTS"], rowType := ⟨[⟨"id", .bigint, true⟩]⟩,
    source := some (.ok [integers [7], integers [8]]) }

def kinds : Table :=
  { name := ["KINDS"], rowType := ⟨[⟨"id", .bigint, true⟩]⟩, source := some (.ok [integers [5]]) }

/-- Stays lead to rooms and to guests, and rooms to their kinds. -/
def draft : Draft :=
  ⟨stays, [rooms, guests, kinds], [⟨0, 1, [(0, 0), (1, 1)]⟩, ⟨0, 2, [(2, 0)]⟩, ⟨1, 3, [(2, 0)]⟩]⟩

def lattice : Lattice :=
  ⟨stays, [⟨rooms, 0, [(0, 0), (1, 1)]⟩, ⟨kinds, 1, [(2, 0)]⟩, ⟨guests, 0, [(2, 0)]⟩], ["STAR"]⟩

def equal (a b : Nat) : Expr := .apply .equals [.column a .bigint, .column b .bigint] .boolean

def joinAll : Planning NodeId := do
  let stays ← Cluster.createDefault (.scan .none stays) []
  let rooms ← Cluster.createDefault (.scan .none rooms) []
  let kinds ← Cluster.createDefault (.scan .none kinds) []
  let guests ← Cluster.createDefault (.scan .none guests) []
  let both := .apply .and [equal 0 3, equal 1 4] .boolean
  let join ← Cluster.createDefault (.join .logical .inner both) [stays, rooms]
  let join ← Cluster.createDefault (.join .logical .inner (equal 5 6)) [join, kinds]
  Cluster.createDefault (.join .logical .inner (equal 7 2)) [join, guests]

def session : Cluster :=
  (joinAll.run.run (Cluster.start ⟨[stays, rooms, guests, kinds]⟩ default default)).2

theorem leftDeep_session : lattice.LeftDeep session 3 6 := by
  have hrooms : session.operator 1 = .scan .none rooms := rfl
  have hkinds : session.operator 2 = .scan .none kinds := rfl
  have hguests : session.operator 3 = .scan .none guests := rfl
  have hroot : lattice.LeftDeep session 0 0 := .root rfl
  have hjoin : lattice.LeftDeep session 1 4 :=
    .join hroot rfl hrooms rfl (by decide) rfl (.cons (by decide) (.cons (by decide) .nil))
  have hjoin' : lattice.LeftDeep session 2 5 :=
    .join hjoin rfl hkinds rfl (by decide) rfl (.cons (by decide) .nil)
  exact .join hjoin' rfl hguests rfl (by decide) rfl (.cons (by decide) .nil)

theorem hasUniqueKeys_lattice : lattice.HasUniqueKeys := by
  intro i branch h
  rcases i with _ | _ | _ | _ | i
  · cases h
  · cases h
    decide +kernel
  · cases h
    decide +kernel
  · cases h
    decide +kernel
  · cases h

theorem separatesIntegers_lattice : lattice.SeparatesIntegers := by
  refine separatesIntegers_of_lacks (.inr rfl) fun i => ?_
  rcases i with _ | _ | _ | _ | i
  · decide +kernel
  · decide +kernel
  · decide +kernel
  · decide +kernel
  · exact fun row hrow => by cases hrow

end StaysInRooms

section

open StaysInRooms

/-- Of four stays only one is of a guest in a room of a kind: the star table has it, and so has the join. -/
theorem starScan_joins_stays :
    lattice.star.scan = .ok [integers [1, 10, 7, 1, 10, 5, 5, 7]] ∧
      session.outcome 6 false = lattice.star.scan := by
  have hbuild : draft.build ["STAR"] = .ok lattice := rfl
  have hwidths : lattice.StoresWidths := by decide +kernel
  obtain ⟨-, -, hjoins⟩ := starScan_joins hbuild hwidths
  exact ⟨by with_unfolding_all exact rfl, hjoins hasUniqueKeys_lattice separatesIntegers_lattice session 6
    (by decide +kernel) leftDeep_session⟩

end

namespace ReadingsOfCounts

/-- A reading, in doubles. -/
def readings : Table :=
  { name := ["READINGS"], rowType := ⟨[⟨"x", .double, true⟩]⟩,
    source := some (.ok [[.double 9007199254740992]]) }

/-- Counts, each an integer of its own. -/
def counts : Table :=
  { name := ["COUNTS"], rowType := ⟨[⟨"n", .bigint, true⟩]⟩,
    source := some (.ok [[.integer 9007199254740992], [.integer 9007199254740993]]) }

def draft : Draft := ⟨readings, [counts], [⟨0, 1, [(0, 0)]⟩]⟩

def lattice : Lattice := ⟨readings, [⟨counts, 0, [(0, 0)]⟩], ["STAR"]⟩

def joinReadings : Planning NodeId := do
  let readings ← Cluster.createDefault (.scan .none readings) []
  let counts ← Cluster.createDefault (.scan .none counts) []
  let equal := .apply .equals [.column 0 .double, .column 1 .bigint] .boolean
  Cluster.createDefault (.join .logical .inner equal) [readings, counts]

def session : Cluster :=
  (joinReadings.run.run (Cluster.start ⟨[readings, counts]⟩ default default)).2

end ReadingsOfCounts

section

open ReadingsOfCounts

/-- No two counts are equal, but a double equals both, so that the join has two rows for a reading and the
star table has one. -/
theorem starScan_misses_counts :
    draft.build ["STAR"] = .ok lattice ∧ lattice.StoresWidths ∧
      lattice.HasUniqueKeys ∧ lattice.LeftDeep session 1 2 ∧
      lattice.star.scan = .ok [[.double 9007199254740992, .integer 9007199254740992]] ∧
      session.outcome 2 false = .ok [[.double 9007199254740992, .integer 9007199254740992],
        [.double 9007199254740992, .integer 9007199254740993]] ∧
      session.outcome 2 false ≠ lattice.star.scan := by
  have hkeys : lattice.HasUniqueKeys := by
    intro i branch h
    rcases i with _ | _ | i
    · cases h
    · cases h
      decide +kernel
    · cases h
  have hroot : lattice.LeftDeep session 0 0 := .root rfl
  have hcounts : session.operator 1 = .scan .none counts := rfl
  have hjoin : lattice.LeftDeep session 1 2 :=
    .join hroot rfl hcounts rfl (by decide) rfl (.cons (by decide) .nil)
  have hrun : session.ranRows 2 = [[.double 9007199254740992, .integer 9007199254740992],
      [.double 9007199254740992, .integer 9007199254740993]] := by decide +kernel
  have houtcome : session.outcome 2 false = .ok (session.ranRows 2) :=
    congrArg Prod.fst (Cluster.runs_ranRows (by decide +kernel))
  have hstar : lattice.star.scan = .ok [[.double 9007199254740992, .integer 9007199254740992]] := by
    with_unfolding_all exact rfl
  rw [houtcome, hrun, hstar]
  refine ⟨rfl, by decide +kernel, hkeys, hjoin, rfl, rfl, fun h => ?_⟩
  cases congrArg List.length (Except.ok.inj h)

end

end Lattice

end QueryPlan
