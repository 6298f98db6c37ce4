import QueryPlan.Lattice.Basic
import QueryPlan.Proofs.Execution.Width
import QueryPlan.Proofs.Expr.Equated
/-!
# Rows of the star table

A row of one table of a lattice leads to at most one row of every table below it: `reach` follows the
branches and takes the first partner in each table. The rows of the star table are those of the root
that reach every table, each with all the rows that it reaches.
-/
namespace QueryPlan

namespace Value

theorem compare_null {v : Value} (h : v.isNull = false) : compare v null = .gt := by
  cases v with
  | null => cases h
  | _ => rfl

/-- The comparison that finds partners is the one that joins make. -/
theorem equates_iff {v w : Value} : v.Equates w ↔ v.isNull = false ∧ (v == w) = true := by
  have hbeq : (v == w) = true ↔ compare v w = .eq := by
    show (compare v w == .eq) = true ↔ _
    rw [beq_iff_eq]
  rw [Equates, hbeq]
  refine and_congr_right fun hv => and_iff_right_of_imp fun heq => ?_
  cases w with
  | null =>
    rw [compare_null hv] at heq
    cases heq
  | _ => rfl

end Value

namespace Lattice

/-- A row of a parent leads to a row of a branch if they agree on all keys, none of them null. -/
def leads (keys : List (Nat × Nat)) (parent target : Row) : Bool :=
  keys.all fun key => decide ((parent.valueAt key.1).Equates (target.valueAt key.2))

section

variable {offset : Nat} {keys : List (Nat × Nat)} {row parent : Row}
  (hparent : ∀ key ∈ keys, key.1 < parent.length ∧ row[offset + key.1]? = parent[key.1]?)

include hparent

theorem agrees_eq {target : Row} (htarget : ∀ key ∈ keys, key.2 < target.length) :
    agrees offset row target keys = .ok (leads keys parent target) := by
  induction keys with
  | nil => rfl
  | cons key keys ih =>
    obtain ⟨⟨hlt, hrow⟩, hparent⟩ := List.forall_mem_cons.mp hparent
    obtain ⟨hlt', htarget⟩ := List.forall_mem_cons.mp htarget
    have ih := ih hparent htarget
    have hv : row[offset + key.1]? = some (parent.valueAt key.1) := by
      rw [hrow, List.getElem?_eq_getElem hlt, Row.valueAt_eq (List.getElem?_eq_getElem hlt)]
    have hw : target[key.2]? = some (target.valueAt key.2) := by
      rw [List.getElem?_eq_getElem hlt', Row.valueAt_eq (List.getElem?_eq_getElem hlt')]
    have hiff : decide ((parent.valueAt key.1).Equates (target.valueAt key.2)) =
        (!(parent.valueAt key.1).isNull && parent.valueAt key.1 == target.valueAt key.2) := by
      rw [Bool.eq_iff_iff, decide_eq_true_iff, Value.equates_iff, Bool.and_eq_true,
        Bool.not_eq_true']
    rw [agrees, hv, hw, ih, leads, leads, List.all_cons, hiff]
    dsimp only
    cases (parent.valueAt key.1).isNull with
    | true => rfl
    | false => cases parent.valueAt key.1 == target.valueAt key.2 <;> rfl

theorem partner_eq {targets : List Row}
    (htargets : ∀ target ∈ targets, ∀ key ∈ keys, key.2 < target.length) :
    partner offset keys row targets = .ok (targets.find? (leads keys parent)) := by
  induction targets with
  | nil => rfl
  | cons target targets ih =>
    obtain ⟨htarget, htargets⟩ := List.forall_mem_cons.mp htargets
    rw [partner, agrees_eq hparent htarget, ih htargets, List.find?_cons]
    cases leads keys parent target <;> rfl

end

/-- Rows are extended by the rows that they lead to, if there are any. -/
theorem extendRows_map {α : Type} {offset : Nat} {keys : List (Nat × Nat)} {targets : List Row}
    {as : List α} (row parent : α → Row)
    (hparent : ∀ a ∈ as, ∀ key ∈ keys,
      key.1 < (parent a).length ∧ (row a)[offset + key.1]? = (parent a)[key.1]?)
    (htargets : ∀ target ∈ targets, ∀ key ∈ keys, key.2 < target.length) :
    extendRows offset keys targets (as.map row) =
      .ok ((as.filter fun a => (targets.find? (leads keys (parent a))).isSome).map fun a =>
        row a ++ (targets.find? (leads keys (parent a))).getD []) := by
  induction as with
  | nil => rfl
  | cons a as ih =>
    obtain ⟨ha, hparent⟩ := List.forall_mem_cons.mp hparent
    rw [List.map_cons, extendRows, partner_eq ha htargets, ih hparent, List.filter_cons]
    cases hfind : targets.find? (leads keys (parent a)) with
    | none => rfl
    | some target =>
      rw [Option.isSome_some, if_pos rfl, List.map_cons, hfind, Option.getD_some]
      rfl

/-! ## The layout of the star table -/

/-- Number of columns of the table at a position. -/
def arityAt (l : Lattice) (i : Nat) : Nat := (l.tables[i]?.map (·.rowType.arity)).getD 0

variable {l : Lattice}

theorem start_succ (i : Nat) : l.start (i + 1) = l.start i + l.arityAt i := by
  rw [start, start, arityAt, List.take_add_one, List.flatMap_append, List.length_append]
  cases l.tables[i]? with
  | none => rfl
  | some table => simp [RowType.arity]

theorem start_mono {i j : Nat} (h : i ≤ j) : l.start i ≤ l.start j := by
  induction h with
  | refl => exact Nat.le_refl _
  | step _ ih =>
    rw [start_succ]
    exact Nat.le_trans ih (Nat.le_add_right _ _)

/-- The rows at the first positions, side by side. -/
def layTo (k : Nat) (f : Nat → Row) : Row := (List.range k).flatMap f

theorem layTo_succ (k : Nat) (f : Nat → Row) : layTo (k + 1) f = layTo k f ++ f k := by
  rw [layTo, layTo, List.range_succ, List.flatMap_append, List.flatMap_singleton]

variable {f : Nat → Row}

theorem length_layTo {k : Nat} (hwidth : ∀ i < k, (f i).length = l.arityAt i) :
    (layTo k f).length = l.start k := by
  induction k with
  | zero => rfl
  | succ k ih =>
    rw [layTo_succ, List.length_append, start_succ, hwidth k (Nat.lt_succ_self k),
      ih fun i hi => hwidth i (Nat.lt_succ_of_lt hi)]

/-- Each row is found at the columns of its table. -/
theorem getElem?_layTo {n i k : Nat} (hwidth : ∀ i < n, (f i).length = l.arityAt i) (hi : i < n)
    (hk : k < l.arityAt i) : (layTo n f)[l.start i + k]? = (f i)[k]? := by
  induction n with
  | zero => cases hi
  | succ n ih =>
    have hlength := length_layTo fun i hi => hwidth i (Nat.lt_succ_of_lt hi)
    rw [layTo_succ]
    rcases Nat.lt_succ_iff_lt_or_eq.mp hi with hlt | rfl
    · have hstart : l.start i + k < l.start n := by
        have hle := start_mono (l := l) (Nat.succ_le_of_lt hlt)
        rw [start_succ] at hle
        omega
      rw [List.getElem?_append_left (by rwa [hlength])]
      exact ih (fun i hi => hwidth i (Nat.lt_succ_of_lt hi)) hlt
    · rw [List.getElem?_append_right (by rw [hlength]; exact Nat.le_add_right _ _), hlength,
        Nat.add_sub_cancel_left]

/-! ## The rows that a row leads to -/

/-- Branches come after their parents, and their keys are columns of the tables that they connect. -/
structure Formed (l : Lattice) : Prop where
  parent_lt : ∀ i branch, l.branch? i = some branch → branch.parent < i
  keys_lt : ∀ i branch, l.branch? i = some branch →
    ∀ key ∈ branch.keys, key.1 < l.arityAt branch.parent ∧ key.2 < l.arityAt i

/-- The tables of the lattice store rows of the declared widths. -/
def StoresWidths (l : Lattice) : Prop := ∀ table ∈ l.tables, table.StoresWidth

instance (l : Lattice) : Decidable l.StoresWidths :=
  inferInstanceAs (Decidable (∀ table ∈ l.tables, table.StoresWidth))

/-- The stored rows of the table at a position, none if they cannot be read. -/
def rowsAt (l : Lattice) (i : Nat) : List Row :=
  ((l.tables[i]?.bind (·.scan.toOption))).getD []

/-- What the row of one table leads to in another one: its first partner there, if it leads to a row of
the parent table. -/
def reach (l : Lattice) (top : Nat) (row : Row) (i : Nat) : Option Row :=
  if i = top then some row
  else
    match l.branch? i with
    | none => none
    | some branch =>
      if branch.parent < i then
        (l.reach top row branch.parent).bind fun parent =>
          (l.rowsAt i).find? (leads branch.keys parent)
      else none
termination_by i

/-- The row that is reached at a position, nulls if there is none. -/
def along (l : Lattice) (top : Nat) (row : Row) (i : Nat) : Row :=
  (l.reach top row i).getD (Row.nulls (l.arityAt i))

variable {top i : Nat} {row : Row}

theorem rowsAt_eq {table : Table} {rows : List Row} (htable : l.tables[i]? = some table)
    (hscan : table.scan = .ok rows) : l.rowsAt i = rows := by
  rw [rowsAt, htable, Option.bind_some, hscan]
  rfl

theorem StoresWidths.rowsAt (h : l.StoresWidths) (i : Nat) : HaveWidth (l.arityAt i) (l.rowsAt i) := by
  intro row hrow
  unfold Lattice.rowsAt at hrow
  unfold arityAt
  cases htable : l.tables[i]? with
  | none =>
    rw [htable] at hrow
    cases hrow
  | some table =>
    rw [htable, Option.bind_some] at hrow
    cases hscan : table.scan with
    | error e =>
      rw [hscan] at hrow
      cases hrow
    | ok rows =>
      rw [hscan] at hrow
      exact (h table (List.mem_of_getElem? htable)).scan hscan row hrow

theorem reach_self (l : Lattice) (top : Nat) (row : Row) : l.reach top row top = some row := by
  rw [reach, if_pos rfl]

theorem reach_branch (hl : l.Formed) {branch : Branch} (hi : i ≠ top)
    (hbranch : l.branch? i = some branch) : l.reach top row i =
      (l.reach top row branch.parent).bind fun parent =>
        (l.rowsAt i).find? (leads branch.keys parent) := by
  rw [reach, if_neg hi, hbranch]
  dsimp only
  rw [if_pos (hl.parent_lt i branch hbranch)]

theorem reach_mem (hrow : row ∈ l.rowsAt top) {reached : Row}
    (h : l.reach top row i = some reached) : reached ∈ l.rowsAt i := by
  unfold reach at h
  split at h
  · next hi =>
    cases h
    rw [hi]
    exact hrow
  · split at h
    · cases h
    · split at h
      · obtain ⟨parent, -, hfind⟩ := Option.bind_eq_some_iff.mp h
        exact List.mem_of_find?_eq_some hfind
      · cases h

theorem along_eq {reached : Row} (h : l.reach top row i = some reached) :
    l.along top row i = reached := by
  rw [along, h]
  rfl

theorem along_self (l : Lattice) (top : Nat) (row : Row) : l.along top row top = row :=
  along_eq (l.reach_self top row)

theorem length_along (hwidths : l.StoresWidths) (hrow : row ∈ l.rowsAt top) (i : Nat) :
    (l.along top row i).length = l.arityAt i := by
  cases h : l.reach top row i with
  | none =>
    rw [along, h]
    exact Row.length_nulls _
  | some reached =>
    rw [along_eq h]
    exact hwidths.rowsAt i reached (reach_mem hrow h)

/-! ## The rows of the star table -/

/-- The row reaches the tables at the first positions. -/
def reachesTo (l : Lattice) (k : Nat) (row : Row) : Bool :=
  (List.range k).all fun i => (l.reach 0 row i).isSome

theorem reachesTo_iff {k : Nat} :
    l.reachesTo k row = true ↔ ∀ i < k, (l.reach 0 row i).isSome = true := by
  simp [reachesTo]

theorem reachesTo_succ (k : Nat) (row : Row) :
    l.reachesTo (k + 1) row = (l.reachesTo k row && (l.reach 0 row k).isSome) := by
  rw [reachesTo, List.range_succ, List.all_append, List.all_cons, List.all_nil, Bool.and_true]
  rfl

/-- The rows of the root that reach the tables at the first positions, with what they reach. -/
def rowsTo (l : Lattice) (k : Nat) : List Row :=
  ((l.rowsAt 0).filter (l.reachesTo k)).map fun row => layTo k (l.along 0 row)

/-- A row that reaches the tables before the next position reaches there what its parent leads to. -/
theorem find?_leads_along (hl : l.Formed) {branch : Branch} (hbranch : l.branch? (i + 1) = some branch)
    (hreaches : l.reachesTo (i + 1) row = true) :
    (l.rowsAt (i + 1)).find? (leads branch.keys (l.along 0 row branch.parent)) =
      l.reach 0 row (i + 1) := by
  obtain ⟨parent, hreach⟩ :=
    Option.isSome_iff_exists.mp (reachesTo_iff.mp hreaches _ (hl.parent_lt (i + 1) branch hbranch))
  rw [reach_branch hl (Nat.succ_ne_zero i) hbranch, along_eq hreach, hreach]
  rfl

/-- Extending rows of the root along a branch takes them to the next position. -/
theorem extendRows_next (hl : l.Formed) (hwidths : l.StoresWidths) {branch : Branch}
    (hbranch : l.branch? (i + 1) = some branch) :
    extendRows (l.start branch.parent) branch.keys (l.rowsAt (i + 1)) (l.rowsTo (i + 1)) =
      .ok (l.rowsTo (i + 2)) := by
  have hparent := hl.parent_lt (i + 1) branch hbranch
  have hkeys := hl.keys_lt (i + 1) branch hbranch
  rw [rowsTo, extendRows_map (fun row => layTo (i + 1) (l.along 0 row)) (l.along 0 · branch.parent)]
  · have hfilter : ((l.rowsAt 0).filter (l.reachesTo (i + 1))).filter (fun row =>
        ((l.rowsAt (i + 1)).find? (leads branch.keys (l.along 0 row branch.parent))).isSome) =
        (l.rowsAt 0).filter (l.reachesTo (i + 2)) := by
      rw [List.filter_filter]
      refine List.filter_congr fun row hrow => ?_
      rw [reachesTo_succ (i + 1)]
      cases hreaches : l.reachesTo (i + 1) row with
      | false => rw [Bool.and_false, Bool.false_and]
      | true => rw [find?_leads_along hl hbranch hreaches, Bool.and_true, Bool.true_and]
    rw [hfilter]
    refine congrArg Except.ok (List.map_congr_left fun row hrow => ?_)
    obtain ⟨hrow, hreaches⟩ := List.mem_filter.mp hrow
    rw [reachesTo_succ (i + 1), Bool.and_eq_true] at hreaches
    obtain ⟨reached, hreach⟩ := Option.isSome_iff_exists.mp hreaches.2
    rw [find?_leads_along hl hbranch hreaches.1, layTo_succ (i + 1), along_eq hreach, hreach]
    rfl
  · intro row hrow key hkey
    have hrow := List.mem_of_mem_filter hrow
    refine ⟨?_, getElem?_layTo (fun i _ => length_along hwidths hrow i) hparent (hkeys key hkey).1⟩
    rw [length_along hwidths hrow]
    exact (hkeys key hkey).1
  · intro target htarget key hkey
    rw [hwidths.rowsAt (i + 1) target htarget]
    exact (hkeys key hkey).2

theorem extendAlong_append (rows : List Row) (before after : List Branch) :
    l.extendAlong rows (before ++ after) =
      (l.extendAlong rows before >>= fun extended => l.extendAlong extended after) := by
  induction before generalizing rows with
  | nil => rfl
  | cons branch before ih =>
    rw [List.cons_append, extendAlong, extendAlong, bind_assoc]
    refine congrArg _ (funext fun targets => ?_)
    rw [bind_assoc]
    exact congrArg _ (funext fun extended => ih extended)

/-- The rows of the root extended along so many branches. -/
def starTo (l : Lattice) (k : Nat) : Except PlanError (List Row) :=
  l.root.scan >>= fun facts => l.extendAlong facts (l.branches.take k)

theorem starTo_length (l : Lattice) : l.starTo l.branches.length = l.starRows := by
  rw [starTo, List.take_length]
  rfl

theorem starTo_zero (l : Lattice) : l.starTo 0 = l.root.scan := bind_pure _

theorem starTo_succ {k : Nat} {branch : Branch} (hbranch : l.branch? (k + 1) = some branch) :
    l.starTo (k + 1) = (l.starTo k >>= fun rows => branch.table.scan >>= fun targets =>
      extendRows (l.start branch.parent) branch.keys targets rows) := by
  have hget : l.branches[k]? = some branch := hbranch
  rw [starTo, starTo, bind_assoc, List.take_add_one, hget]
  refine congrArg _ (funext fun facts => ?_)
  rw [Option.toList_some, extendAlong_append]
  refine congrArg _ (funext fun rows => ?_)
  rw [extendAlong]
  exact congrArg _ (funext fun targets => bind_pure _)

theorem getElem?_tables_succ {i : Nat} {branch : Branch} (h : l.branch? (i + 1) = some branch) :
    l.tables[i + 1]? = some branch.table := by
  rw [tables, List.getElem?_cons_succ, List.getElem?_map]
  exact congrArg (Option.map Branch.table) h

theorem rowsTo_one {facts : List Row} (hscan : l.root.scan = .ok facts) : l.rowsTo 1 = facts := by
  have hreaches : ∀ row, l.reachesTo 1 row = true := fun row => reachesTo_iff.mpr fun i hi => by
    rw [Nat.lt_one_iff.mp hi, reach_self]
    rfl
  have hlay : ∀ row, layTo 1 (l.along 0 row) = row := fun row => by
    rw [layTo_succ, along_self]
    rfl
  rw [rowsTo, List.filter_eq_self.mpr fun row _ => hreaches row,
    List.map_congr_left fun row _ => hlay row, List.map_id']
  exact rowsAt_eq rfl hscan

/-- Along each number of branches there are the rows that reach so far, unless a table has none to read:
partners are never looked for in columns that are not there. -/
theorem starTo_cases (hl : l.Formed) (hwidths : l.StoresWidths) {k : Nat}
    (hk : k ≤ l.branches.length) : l.starTo k = .ok (l.rowsTo (k + 1)) ∨
      ∃ e, l.starTo k = .error e ∧ ∃ table ∈ l.tables, table.scan = .error e := by
  induction k with
  | zero =>
    rw [starTo_zero]
    cases hscan : l.root.scan with
    | error e => exact .inr ⟨e, rfl, l.root, List.mem_cons_self, hscan⟩
    | ok facts => exact .inl (by rw [rowsTo_one hscan])
  | succ k ih =>
    have hbranch : l.branch? (k + 1) = some l.branches[k] := List.getElem?_eq_getElem hk
    have htable := getElem?_tables_succ hbranch
    rw [starTo_succ hbranch]
    rcases ih (Nat.le_of_succ_le hk) with hrows | ⟨e, herror, hfails⟩
    · rw [hrows]
      cases hscan : l.branches[k].table.scan with
      | error e => exact .inr ⟨e, rfl, _, List.mem_of_getElem? htable, hscan⟩
      | ok targets =>
        left
        rw [← rowsAt_eq htable hscan]
        exact extendRows_next hl hwidths hbranch
    · rw [herror]
      exact .inr ⟨e, rfl, hfails⟩

theorem length_tables (l : Lattice) : l.tables.length = l.branches.length + 1 := by
  rw [tables, List.length_cons, List.length_map]

/-- The star table has the rows of the root that reach every table, each with all that it reaches. -/
theorem starRows_eq (hl : l.Formed) (hwidths : l.StoresWidths) {rows : List Row}
    (h : l.starRows = .ok rows) : rows = l.rowsTo l.tables.length := by
  rw [← starTo_length] at h
  rw [length_tables]
  rcases starTo_cases hl hwidths (Nat.le_refl _) with hrows | ⟨e, herror, -⟩
  · exact (Except.ok.inj (hrows.symm.trans h)).symm
  · cases herror.symm.trans h

end Lattice

end QueryPlan
