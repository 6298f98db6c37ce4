import QueryPlan.Proofs.Lattice.Trees
/-!
# What a lattice lists

A lattice lists the tables of its draft in the order of the walk from the root: each of them once, every
table but the root with the step that leads to it, after the table that the step comes from. Its star
table has their columns one table after the other.
-/
namespace QueryPlan.Lattice

open Relation

/-! ## Tables that are added -/

namespace Draft

/-- The draft of a root to which tables and then steps are added, one after the other. -/
def collect (root : Table) (added : List Table) (steps : List Step) : Draft :=
  steps.foldl addStep (added.foldl (fun d table => (d.addTable table).1) { root })

theorem addTable_tables (d : Draft) (table : Table) : (d.addTable table).1.tables =
    if d.tables.any (·.same table) then d.tables else d.tables ++ [table] := by
  unfold addTable
  cases hfind : d.tables.findIdx? (·.same table) with
  | none =>
    have hnone : d.tables.any (·.same table) = false := by
      rw [List.any_eq_false]
      simpa using List.findIdx?_eq_none_iff.mp hfind
    rw [hnone]
    rfl
  | some i =>
    obtain ⟨hlt, hsame, -⟩ := List.findIdx?_eq_some_iff_getElem.mp hfind
    rw [List.any_eq_true.mpr ⟨_, List.getElem_mem hlt, hsame⟩]
    rfl

theorem addTable_root (d : Draft) (table : Table) :
    (d.addTable table).1.root = d.root ∧ (d.addTable table).1.steps = d.steps := by
  unfold addTable
  split <;> exact ⟨rfl, rfl⟩

/-- The tables of the draft are some of the given ones, one for each name. -/
structure Collects (d : Draft) (tables : List Table) : Prop where
  subset : d.tables ⊆ tables
  once : ∀ table ∈ tables, d.tables.countP (·.same table) = 1

theorem Table.same_congr {t u v : Table} (h : t.same u = true) : v.same t = v.same u := by
  rw [Table.same, Table.same, beq_iff_eq.mp h]

theorem Collects.addTable {d : Draft} {tables : List Table} (h : d.Collects tables) (table : Table) :
    (d.addTable table).1.Collects (tables ++ [table]) := by
  have htables := d.addTable_tables table
  by_cases hany : d.tables.any (·.same table) = true
  · rw [if_pos hany] at htables
    refine ⟨htables ▸ fun t ht => List.mem_append_left _ (h.subset ht), ?_⟩
    rw [htables]
    intro t ht
    rcases List.mem_append.mp ht with ht | ht
    · exact h.once t ht
    · -- the one table of that name stands for the new one
      obtain ⟨u, hu, hsame⟩ := List.any_eq_true.mp hany
      rw [List.mem_singleton.mp ht, ← h.once u (h.subset hu)]
      exact List.countP_congr fun v _ => by rw [Table.same_congr hsame]
  · rw [if_neg hany] at htables
    have hnone : d.tables.countP (·.same table) = 0 := by
      rw [List.countP_eq_zero]
      simpa using hany
    refine ⟨htables ▸ fun t ht => ?_, ?_⟩
    · rcases List.mem_append.mp ht with ht | ht
      · exact List.mem_append_left _ (h.subset ht)
      · exact List.mem_append_right _ ht
    · rw [htables]
      intro t ht
      rw [List.countP_append]
      rcases List.mem_append.mp ht with ht | ht
      · have hother : ¬table.same t = true := fun hsame => by
          have := h.once t ht
          rw [List.countP_congr fun v _ => by rw [← Table.same_congr hsame], hnone] at this
          cases this
        rw [h.once t ht, List.countP_singleton, if_neg hother]
      · rw [List.mem_singleton.mp ht, hnone]
        simp [Table.same]

theorem collects_foldl (added : List Table) {tables : List Table} {d : Draft} (h : d.Collects tables) :
    (added.foldl (fun d table => (d.addTable table).1) d).Collects (tables ++ added) ∧
      (added.foldl (fun d table => (d.addTable table).1) d).root = d.root ∧
      (added.foldl (fun d table => (d.addTable table).1) d).steps = d.steps := by
  induction added generalizing d tables with
  | nil => exact ⟨by rwa [List.append_nil], rfl, rfl⟩
  | cons table added ih =>
    obtain ⟨hcollects, hroot, hsteps⟩ := ih (h.addTable table)
    obtain ⟨hroot', hsteps'⟩ := d.addTable_root table
    rw [List.append_assoc] at hcollects
    exact ⟨hcollects, hroot.trans hroot', hsteps.trans hsteps'⟩

theorem foldl_addStep (steps : List Step) (d : Draft) :
    steps.foldl addStep d = { d with steps := d.steps ++ steps } := by
  induction steps generalizing d with
  | nil => simp
  | cons step steps ih => simp [ih, addStep]

theorem collect_spec (root : Table) (added : List Table) (steps : List Step) :
    (collect root added steps).root = root ∧ (collect root added steps).steps = steps ∧
      (collect root added steps).Collects (root :: added) := by
  have hstart : Collects { root } [root] := by
    refine ⟨fun t ht => ht, fun t ht => ?_⟩
    rw [List.mem_singleton.mp ht]
    simp [tables, Table.same]
  obtain ⟨hcollects, hroot, hsteps⟩ := collects_foldl added hstart
  rw [collect, foldl_addStep, hsteps]
  exact ⟨hroot, rfl, ⟨hcollects.subset, hcollects.once⟩⟩

/-! ## The tables of the lattice -/

variable {d : Draft} {l : Lattice} {below : List Nat}

theorem LaidOut.tables_eq (h : d.LaidOut below l) :
    l.tables = d.layout.filterMap (d.tables[·]?) := by
  have hbelow : below.filterMap (fun position => (d.branchAt? (0 :: below) position).map Branch.table) =
      below.filterMap (d.tables[·]?) := by
    refine List.filterMap_congr fun position hposition => ?_
    obtain ⟨i, hi⟩ := List.getElem?_of_mem hposition
    obtain ⟨step, -, table, parent, htable, -, -, -, heq⟩ := h.branchAt? hi
    rw [heq, htable]
    rfl
  rw [Lattice.tables, h.root_eq, h.branches_eq, List.map_filterMap, hbelow, h.layout_eq]
  rfl

theorem filterMap_getElem?_range {α : Type} (l : List α) :
    (List.range l.length).filterMap (l[·]?) = l := by
  have hmap : (List.range l.length).map (l[·]?) = l.map some := by
    refine List.ext_getElem (by simp) fun i hi _ => ?_
    have hlt : i < l.length := by simpa using hi
    simp [hlt]
  have heq := congrArg (List.filterMap id) hmap
  simpa [List.filterMap_map] using heq

/-- The layout of a tree has every position once. -/
theorem IsTree.layout_perm (h : d.IsTree) : d.layout.Perm (List.range d.tables.length) := by
  obtain ⟨hchecked, hreached⟩ := isTree_iff.mp h
  refine (List.perm_ext_iff_of_nodup hchecked.nodup_layout List.nodup_range).mpr fun i => ?_
  rw [hchecked.mem_layout_iff, List.mem_range]
  refine ⟨fun hway => ?_, hreached i⟩
  rcases hway.cases_tail with rfl | ⟨j, -, hj⟩
  · exact Nat.succ_pos _
  · exact hchecked.lt_of_leads hj

/-- The lattice lists the tables of the draft, each once. -/
theorem LaidOut.tables_perm (h : d.LaidOut below l) (htree : d.IsTree) : l.tables.Perm d.tables := by
  rw [h.tables_eq]
  have hperm := htree.layout_perm.filterMap (d.tables[·]?)
  rwa [filterMap_getElem?_range] at hperm

/-- What a lattice lists: the root and the other tables of its draft, each of these with the step that
leads to it and after the table that the step comes from, and their columns one table after the
other. -/
structure Lists (d : Draft) (l : Lattice) : Prop where
  root : l.tables[0]? = some d.root
  perm : l.tables.Perm d.tables
  parent : ∀ i, 0 < i → i < l.tables.length → ∃ branch, l.branch? i = some branch ∧ branch.parent < i ∧
    ∃ step ∈ d.steps, branch.keys = step.keys ∧ l.tables[i]? = d.tables[step.target]? ∧
      l.tables[branch.parent]? = d.tables[step.source]?
  start_zero : l.start 0 = 0
  start_stop : ∀ i, l.start (i + 1) = l.stop i
  width : ∀ i table, l.tables[i]? = some table → l.stop i - l.start i = table.rowType.arity
  starType : l.star.rowType.fields = l.tables.flatMap (·.rowType.fields)

theorem LaidOut.lists (h : d.LaidOut below l) (htree : d.IsTree) : d.Lists l where
  root := by
    rw [Lattice.tables, h.root_eq]
    rfl
  perm := h.tables_perm htree
  parent i hpos hlt := by
    obtain ⟨i, rfl⟩ := Nat.exists_eq_succ_of_ne_zero (Nat.pos_iff_ne_zero.mp hpos)
    have hlength : i < below.length := by
      have hperm := (h.tables_perm htree).length_eq
      have hlayout := htree.layout_perm.length_eq
      rw [List.length_range, h.layout_eq, List.length_cons] at hlayout
      omega
    have hi : below[i]? = some below[i] := List.getElem?_eq_getElem hlength
    obtain ⟨step, hstep, table, parent, -, htarget, hle, hparent, heq⟩ := h.branchAt? hi
    refine ⟨⟨table, parent, step.keys⟩, ?_, Nat.lt_succ_of_le hle, step, hstep, rfl, ?_,
      h.getElem?_tables hparent⟩
    · rw [h.branch?_succ, hi, Option.bind_some, heq]
    · rw [htarget]
      exact h.getElem?_tables (i := i + 1) hi
  start_zero := rfl
  start_stop _ := rfl
  width i table htable := by
    rw [stop, start_succ, Nat.add_sub_cancel_left, Lattice.arityAt, htable]
    rfl
  starType := rfl

/-- A draft becomes a lattice exactly if its steps are the edges of a tree with the first table as the
root. The walk that lays the tables out ends, and the lattice lists each table that was added once,
after the table that a step leads from, with their columns one table after the other. -/
theorem build_trees (root : Table) (added : List Table) (steps : List Step) (starName : List String) :
    ((collect root added steps).checkSteps [] steps = .ok () →
      (collect root added steps).Visits [0] (collect root added steps).layout) ∧
    ((∃ l, (collect root added steps).build starName = .ok l) ↔ (collect root added steps).IsTree) ∧
    ∀ l, (collect root added steps).build starName = .ok l →
      (collect root added steps).Lists l ∧ l.tables[0]? = some root ∧
        ∀ table ∈ root :: added, l.tables.countP (·.same table) = 1 := by
  obtain ⟨hroot, hsteps, hcollects⟩ := collect_spec root added steps
  refine ⟨fun hchecked => ?_, ?_, fun l hbuild => ?_⟩
  · exact (checkSteps_iff.mp (by rwa [hsteps])).visits_layout
  · simp only [build_eq_ok_iff, exists_and_left, exists_eq', and_true]
  · obtain ⟨below, hlaid⟩ := laidOut_of_build hbuild
    have htree := (build_eq_ok_iff.mp hbuild).1
    have hlists := hlaid.lists htree
    refine ⟨hlists, by rw [hlists.root, hroot], fun table htable => ?_⟩
    rw [hlists.perm.countP_eq]
    exact hcollects.once table htable

/-- A table of keys. -/
def keyTable (name : String) (columns : List String) : Table :=
  { name := [name], rowType := ⟨columns.map fun column => ⟨column, .bigint, false⟩⟩ }

/-- What visits of pets to vets lead to, and visits once more. -/
def besideVisits : List Table :=
  [keyTable "pets" ["pet", "owner"], keyTable "visits" [], keyTable "vets" ["vet"],
    keyTable "owners" ["owner"]]

/-- Visits of pets to vets, and owners of the pets. -/
def vetDraft : Draft :=
  collect (keyTable "visits" ["pet", "vet"]) besideVisits
    [⟨0, 1, [(0, 0)]⟩, ⟨0, 2, [(1, 0)]⟩, ⟨1, 3, [(1, 0)]⟩]

theorem build_trees_vets : vetDraft.Visits [0] [0, 1, 3, 2] ∧ vetDraft.IsTree ∧
    ∃ l, vetDraft.build ["star"] = .ok l ∧ vetDraft.Lists l ∧
      l.tables.countP (·.same (keyTable "pets" [])) = 1 := by
  obtain ⟨hvisits, htree, hlists⟩ := build_trees (keyTable "visits" ["pet", "vet"]) besideVisits
    [⟨0, 1, [(0, 0)]⟩, ⟨0, 2, [(1, 0)]⟩, ⟨1, 3, [(1, 0)]⟩] ["star"]
  obtain ⟨l, hbuild⟩ : ∃ l, vetDraft.build ["star"] = .ok l := ⟨_, rfl⟩
  obtain ⟨hlisted, -, honce⟩ := hlists l hbuild
  refine ⟨hvisits rfl, htree.mp ⟨l, hbuild⟩, l, hbuild, hlisted, ?_⟩
  exact honce (keyTable "pets" ["pet", "owner"]) (List.mem_cons_of_mem _ List.mem_cons_self)

end Draft

end QueryPlan.Lattice
