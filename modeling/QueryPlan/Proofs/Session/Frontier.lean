import QueryPlan.Proofs.Session.Levels
/-!
# Walks that go node by node

A walk that visits one node after the other has two stacks, the rest of a level and what has been found of
the next one. Visiting all of a level finds the level after it, on a stack that has it from last to first,
and turning that stack around when the level is done puts it back in sequence. So the nodes that are
visited are those of one level after the other, and as levels become empty at last, the walk ends.
-/
namespace QueryPlan

open BreadthFirst

namespace Frontier

variable {next : NodeId → List NodeId} {f f' : Frontier} {root id : NodeId} {ids : List NodeId}

/-- Visiting one node after the other until there is none gives these nodes. -/
inductive Yields (next : NodeId → List NodeId) : Frontier → List NodeId → Prop
  | done {f : Frontier} (last : f.visit? next = none) : Yields next f []
  | visit {f f' : Frontier} {id : NodeId} {ids : List NodeId} (first : f.visit? next = some (id, f'))
    (rest : Yields next f' ids) : Yields next f (id :: ids)

theorem Yields.congr (h : Yields next f ids) (hvisit : f'.visit? next = f.visit? next) :
    Yields next f' ids := by
  cases h with
  | done last => exact .done (hvisit.trans last)
  | visit first rest => exact .visit (hvisit.trans first) rest

/-- A walk that may visit no fewer nodes than there are visits them all. -/
theorem Yields.visits_eq (h : Yields next f ids) {count : Nat} (hcount : ids.length ≤ count) :
    f.visits next count = ids := by
  induction h generalizing count with
  | done last =>
    cases count with
    | zero => rfl
    | succ count => rw [visits, last]
  | visit first rest ih =>
    obtain ⟨count, rfl⟩ := Nat.exists_eq_add_of_lt hcount
    rw [visits, first]
    exact congrArg _ (ih (Nat.le_add_right _ _))

/-! ## Level by level -/

/-- The frontier of a walk that has some nodes of a level yet to visit and so far found these nodes of the
next one, given as a walk by levels has them. -/
def reading (level : List NodeId) (found : List NodeId × List NodeId) : Frontier :=
  ⟨level, found.1.reverse, found.2⟩

theorem find_reading (level : List NodeId) (found : List NodeId × List NodeId) (id : NodeId) :
    (reading level found).find id = reading level (discover found id) := by
  by_cases hseen : id ∈ found.2
  · rw [discover, if_pos hseen]
    exact if_pos hseen
  · rw [discover, if_neg hseen]
    have hpush : (found.1 ++ [id]).reverse = id :: found.1.reverse := List.reverse_append
    rw [reading, reading, hpush]
    exact if_neg hseen

theorem foldl_find_reading (level ids : List NodeId) (found : List NodeId × List NodeId) :
    ids.foldl find (reading level found) = reading level (ids.foldl discover found) := by
  induction ids generalizing found with
  | nil => rfl
  | cons id ids ih => rw [List.foldl_cons, List.foldl_cons, find_reading, ih]

theorem visit?_reading (rest : List NodeId) (found : List NodeId × List NodeId) :
    (reading (id :: rest) found).visit? next =
      some (id, reading rest ((next id).foldl discover found)) := by
  rw [← foldl_find_reading]
  rfl

/-- Once a level is done, the stack of the next one is turned around. -/
theorem visit?_turned (level seen : List NodeId) :
    (reading [] (level, seen)).visit? next = (reading level ([], seen)).visit? next := by
  have hturned : (reading [] (level, seen)).refill = reading level ([], seen) := by
    show (⟨level.reverse.reverse, [], seen⟩ : Frontier) = ⟨level, [], seen⟩
    rw [List.reverse_reverse]
  have hsame : (reading level ([], seen)).refill = reading level ([], seen) := by
    cases level <;> rfl
  rw [visit?, visit?, hturned, hsame]

/-- A walk visits the rest of a level and then goes on from what that leads to. -/
theorem Yields.level {level : List NodeId} {found : List NodeId × List NodeId}
    (h : Yields next (reading [] ((level.flatMap next).foldl discover found)) ids) :
    Yields next (reading level found) (level ++ ids) := by
  induction level generalizing found with
  | nil => exact h
  | cons id rest ih =>
    rw [List.flatMap_cons, List.foldl_append] at h
    exact .visit (visit?_reading rest found) (ih h)

/-- From a level on, a walk visits one level after the other until one is empty. -/
theorem yields_levels (count n : Nat) (hend : BreadthFirst.level next root (n + count) = []) :
    Yields next (reading [] (stage next root n))
      ((List.range' n count).flatMap (BreadthFirst.level next root)) := by
  induction count generalizing n with
  | zero =>
    refine .congr (.done ?_) (visit?_turned _ _)
    rw [show (stage next root n).1 = [] from hend]
    rfl
  | succ count ih =>
    have hnext := ih (n + 1) (by rwa [Nat.succ_add])
    rw [List.range'_succ, List.flatMap_cons]
    exact (Yields.level hnext).congr (visit?_turned _ _)

/-- Going node by node visits what going by levels does. -/
theorem yields_walk {count : Nat} (hend : BreadthFirst.level next root count = []) :
    (start root).Yields next (walk next count root) := by
  rw [walk_eq_flatMap, List.range_eq_range']
  exact (yields_levels count 0 (by rwa [Nat.zero_add])).congr (visit?_turned _ _).symm

end Frontier

namespace Cluster

variable {c : Cluster} {root id : NodeId}

/-! ## The nodes under a root in breadth first order -/

/-- No node of a plan is further away from its root than there are nodes. -/
theorem level_eq_nil_of_size_lt (hroot : root < c.size) {n : Nat} (hn : c.size < n) :
    level c.inputs root n = [] := by
  refine List.eq_nil_iff_forall_not_mem.mpr fun id hid => ?_
  have hdistance := mem_level.mp hid
  have hplan : c.InPlan root id := by
    have hreaches := hdistance.reaches
    clear hdistance hid hn
    induction hreaches with
    | root => exact .root
    | step _ hmem ih => exact .input ih hmem
  obtain ⟨m, hm, hdistance'⟩ := hplan.exists_isDistance hroot
  rw [hdistance.unique hdistance'] at hn
  exact Nat.not_lt.mpr hm hn

theorem length_walk_le (hroot : root < c.size) (count : Nat) :
    (walk c.inputs count root).length ≤ c.size := by
  have hsub : walk c.inputs count root ⊆ List.range c.size := fun i hi =>
    List.mem_range.mpr (walk_subset (fun _ _ _ hj => inputs_lt_size hj) hroot i hi)
  simpa using ((nodup_walk count).subperm hsub).length_le

theorem yields_walk_inputs (hroot : root < c.size) :
    (Frontier.start root).Yields c.inputs (walk c.inputs (c.size + 1) root) :=
  Frontier.yields_walk (level_eq_nil_of_size_lt hroot (Nat.lt_succ_self _))

theorem breadthFirst_eq_walk (hroot : root < c.size) :
    c.breadthFirst root = walk c.inputs (c.size + 1) root :=
  (yields_walk_inputs hroot).visits_eq (Nat.le_succ_of_le (length_walk_le hroot _))

theorem mem_breadthFirst_iff (hroot : root < c.size) : id ∈ c.breadthFirst root ↔ c.InPlan root id := by
  rw [breadthFirst_eq_walk hroot]
  exact mem_walk_iff (fun _ _ => Iff.rfl) hroot

/-- Nodes of a level stand in the sequence in which the level before, read from left to right, leads to
them for the first time. -/
def FoundInSequence (next : NodeId → List NodeId) (before after : List NodeId) : Prop :=
  ∀ i ∈ after, ∀ j ∈ after, after.idxOf i < after.idxOf j ↔
    (before.flatMap next).idxOf i < (before.flatMap next).idxOf j

/-- Visiting one node after the other from a root, until there is no more, gives the root and the nodes
that are read from it through inputs, and each of them once. They go by their distance from the root,
level by level, and within a level by the sequence in which the level before leads to them. -/
theorem breadthFirst_exact (c : Cluster) {root : NodeId} (hroot : root < c.size) :
    (Frontier.start root).Yields c.inputs (c.breadthFirst root) ∧
    (c.breadthFirst root).Nodup ∧ (∀ id, id ∈ c.breadthFirst root ↔ c.InPlan root id) ∧
    ∃ (levels : Nat → List NodeId) (count : Nat),
      c.breadthFirst root = (List.range count).flatMap levels ∧
      (∀ n id, id ∈ levels n ↔ IsDistance c.inputs root id n) ∧
      ∀ n, FoundInSequence c.inputs (levels n) (levels (n + 1)) := by
  have hwalk := breadthFirst_eq_walk hroot
  refine ⟨hwalk ▸ yields_walk_inputs hroot, hwalk ▸ nodup_walk _,
    fun id => mem_breadthFirst_iff hroot, level c.inputs root, c.size + 1, ?_, fun n id => mem_level, ?_⟩
  · rw [hwalk, walk_eq_flatMap]
  · exact fun n i hi j hj => idxOf_level_lt_iff (mem_level.mp hi) (mem_level.mp hj)

/-- Late loans sorted by days, together with all loans. -/
def loanReport : Planning NodeId := do
  let all ← createDefault (.scan .none loans) []
  let late ← createDefault
    (.filter .none (.call .greaterThan [.column 0 .bigint, .literal (.integer 30)])) [all]
  let sorted ← createDefault (.sort .none ⟨[.ascending 0]⟩ 0 none) [late]
  createDefault (.union .none true) [sorted, all]

def loanReportSession : Cluster := loanReport.leaves (start ⟨[loans]⟩ default default)

/-- All loans are read at the first level and again at the third one. -/
theorem breadthFirst_exact_loanReport :
    (3 < loanReportSession.size ∧ loanReportSession.breadthFirst 3 = [3, 2, 0, 1]) ∧
    (Frontier.start 3).Yields loanReportSession.inputs [3, 2, 0, 1] ∧
    ∀ id, loanReportSession.InPlan 3 id ↔ id ∈ [3, 2, 0, 1] := by
  have hroot : 3 < loanReportSession.size := by decide +kernel
  have hnodes : loanReportSession.breadthFirst 3 = [3, 2, 0, 1] := by decide +kernel
  obtain ⟨hyields, -, hmem, -⟩ := breadthFirst_exact loanReportSession hroot
  rw [hnodes] at hyields hmem
  exact ⟨⟨hroot, hnodes⟩, hyields, fun id => (hmem id).symm⟩

end Cluster

end QueryPlan
