import Mathlib.Data.Finset.Card
import QueryPlan.Cluster.Graph
import QueryPlan.Proofs.Session.Extension
/-!
# Which nodes a walk visits

A breadth first walk visits the nodes that are read from its root through inputs, and no other ones. It
stays within whatever is closed under steps, and it misses nothing because every level but the last one
has a node that was not seen before, so that there are fewer levels than nodes.
-/
namespace QueryPlan

namespace BreadthFirst

/-! ## Walks stay within what is closed under steps -/

theorem mem_discover_foldl {ids : List NodeId} {found : List NodeId × List NodeId} {id : NodeId}
    (h : id ∈ (ids.foldl discover found).1) : id ∈ ids ∨ id ∈ found.1 := by
  induction ids generalizing found with
  | nil => exact .inr h
  | cons i ids ih =>
    rcases ih h with h | h
    · exact .inl (List.mem_cons_of_mem _ h)
    · unfold discover at h
      split at h
      · exact .inr h
      · rcases List.mem_append.mp h with h | h
        · exact .inr h
        · rw [List.mem_singleton.mp h]
          exact .inl List.mem_cons_self

theorem levels_subset {next : NodeId → List NodeId} {P : NodeId → Prop}
    (hnext : ∀ i, P i → ∀ j ∈ next i, P j) (count : Nat) {level seen : List NodeId}
    (hlevel : ∀ i ∈ level, P i) : ∀ i ∈ levels next count level seen, P i := by
  induction count generalizing level seen with
  | zero => intro i hi; cases hi
  | succ count ih =>
    intro i hi
    unfold levels at hi
    cases level with
    | nil => cases hi
    | cons first level =>
      dsimp only at hi
      rcases List.mem_append.mp hi with hi | hi
      · exact hlevel i hi
      · refine ih (fun j hj => ?_) i hi
        rcases mem_discover_foldl hj with hj | hj
        · obtain ⟨k, hk, hj⟩ := List.mem_flatMap.mp hj
          exact hnext k (hlevel k hk) j hj
        · cases hj

/-- What holds of a root and passes from a node to the next ones holds of all nodes on a walk. -/
theorem walk_subset {next : NodeId → List NodeId} {P : NodeId → Prop}
    (hnext : ∀ i, P i → ∀ j ∈ next i, P j) {count : Nat} {root : NodeId} (hroot : P root) :
    ∀ i ∈ walk next count root, P i :=
  levels_subset hnext count fun i hi => by rw [List.mem_singleton.mp hi]; exact hroot

/-! ## Walks miss nothing -/

/-- Nodes are seen once they are found, and what was seen before stays seen. -/
theorem mem_seen_discover_foldl (ids : List NodeId) (found : List NodeId × List NodeId) (id : NodeId) :
    id ∈ (ids.foldl discover found).2 ↔ id ∈ ids ∨ id ∈ found.2 := by
  induction ids generalizing found with
  | nil => simp
  | cons i ids ih =>
    have hstep : id ∈ (discover found i).2 ↔ id = i ∨ id ∈ found.2 := by
      unfold discover
      split
      · next hmem =>
        constructor
        · exact .inr
        · rintro (rfl | h)
          · exact hmem
          · exact h
      · exact List.mem_cons
    rw [List.foldl_cons, ih, hstep, List.mem_cons]
    tauto

/-- What is found is what was not seen before. -/
theorem mem_found_discover_foldl (ids : List NodeId) {found : List NodeId × List NodeId}
    (hfound : ∀ i ∈ found.1, i ∈ found.2) (id : NodeId) :
    id ∈ (ids.foldl discover found).1 ↔ id ∈ found.1 ∨ id ∈ ids ∧ id ∉ found.2 := by
  induction ids generalizing found with
  | nil => simp
  | cons i ids ih =>
    rw [List.foldl_cons]
    by_cases hmem : i ∈ found.2
    · have hsame : discover found i = found := if_pos hmem
      rw [hsame, ih hfound, List.mem_cons]
      constructor
      · rintro (h | ⟨h, hnew⟩)
        · exact .inl h
        · exact .inr ⟨.inr h, hnew⟩
      · rintro (h | ⟨rfl | h, hnew⟩)
        · exact .inl h
        · exact absurd hmem hnew
        · exact .inr ⟨h, hnew⟩
    · have hnext : discover found i = (found.1 ++ [i], i :: found.2) := if_neg hmem
      rw [hnext, ih (fun j hj => ?_)]
      · simp only [List.mem_append, List.mem_cons, List.not_mem_nil, or_false, not_or]
        constructor
        · rintro ((h | rfl) | ⟨h, -, hnew⟩)
          · exact .inl h
          · exact .inr ⟨.inl rfl, hmem⟩
          · exact .inr ⟨.inr h, hnew⟩
        · rintro (h | ⟨rfl | h, hnew⟩)
          · exact .inl (.inl h)
          · exact .inl (.inr rfl)
          · by_cases hi : id = i
            · exact .inl (.inr hi)
            · exact .inr ⟨h, hi, hnew⟩
      · rcases List.mem_append.mp hj with hj | hj
        · exact List.mem_cons_of_mem _ (hfound j hj)
        · rw [List.mem_singleton.mp hj]
          exact List.mem_cons_self

variable {next : NodeId → List NodeId} {level seen : List NodeId} {id : NodeId}

theorem mem_nextLevel : id ∈ (nextLevel next level seen).1 ↔
    (∃ i ∈ level, id ∈ next i) ∧ id ∉ seen := by
  rw [nextLevel, mem_found_discover_foldl _ (by simp), List.mem_flatMap]
  simp

theorem mem_seen_nextLevel : id ∈ (nextLevel next level seen).2 ↔
    (∃ i ∈ level, id ∈ next i) ∨ id ∈ seen := by
  rw [nextLevel, mem_seen_discover_foldl, List.mem_flatMap]

/-- The nodes below a bound that have not been seen. -/
def unseen (bound : Nat) (seen : List NodeId) : Finset NodeId :=
  (Finset.range bound).filter (· ∉ seen)

/-- A level that is not empty leaves fewer nodes unseen. -/
theorem unseen_nextLevel_lt {bound : Nat} (hbound : ∀ i ∈ level, ∀ j ∈ next i, j < bound)
    (h : (nextLevel next level seen).1 ≠ []) :
    (unseen bound (nextLevel next level seen).2).card < (unseen bound seen).card := by
  obtain ⟨j, hj⟩ := List.exists_mem_of_ne_nil _ h
  obtain ⟨⟨i, hi, hij⟩, hnew⟩ := mem_nextLevel.mp hj
  apply Finset.card_lt_card
  refine Finset.ssubset_iff_of_subset ?_ |>.mpr ⟨j, ?_, ?_⟩
  · intro k hk
    simp only [unseen, Finset.mem_filter, mem_seen_nextLevel, not_or] at hk ⊢
    exact ⟨hk.1, hk.2.2⟩
  · exact Finset.mem_filter.mpr ⟨Finset.mem_range.mpr (hbound i hi j hij), hnew⟩
  · intro hk
    simp only [unseen, Finset.mem_filter, mem_seen_nextLevel, not_or] at hk
    exact hk.2.1 ⟨i, hi, hij⟩

theorem level_subset_levels {count : Nat} (hcount : level ≠ [] → 0 < count) :
    ∀ i ∈ level, i ∈ levels next count level seen := by
  intro i hi
  obtain ⟨count, rfl⟩ := Nat.exists_eq_succ_of_ne_zero
    (Nat.pos_iff_ne_zero.mp (hcount (List.ne_nil_of_mem hi)))
  cases level with
  | nil => cases hi
  | cons first level => exact List.mem_append_left _ hi

/-- Steps from the levels of a walk lead to these levels or to what was seen before. -/
theorem levels_closed {bound : Nat} (hbound : ∀ i < bound, ∀ j ∈ next i, j < bound) (count : Nat)
    (hlevel : ∀ i ∈ level, i < bound) (hcount : level ≠ [] → (unseen bound seen).card < count) :
    ∀ i ∈ levels next count level seen, ∀ j ∈ next i,
      j ∈ levels next count level seen ∨ j ∈ seen := by
  induction count generalizing level seen with
  | zero => intro i hi; cases hi
  | succ count ih =>
    intro i hi j hj
    have hsteps : ∀ i ∈ level, ∀ j ∈ next i, j < bound := fun i hi => hbound i (hlevel i hi)
    have hlevel' : ∀ k ∈ (nextLevel next level seen).1, k < bound := by
      intro k hk
      obtain ⟨⟨i, hi, hik⟩, -⟩ := mem_nextLevel.mp hk
      exact hsteps i hi k hik
    have hcount' : level ≠ [] → (nextLevel next level seen).1 ≠ [] →
        (unseen bound (nextLevel next level seen).2).card < count :=
      fun hne hne' => Nat.lt_of_lt_of_le (unseen_nextLevel_lt hsteps hne') (Nat.lt_succ_iff.mp (hcount hne))
    have hlevels : ∀ first rest, level = first :: rest → levels next (count + 1) level seen =
        level ++ levels next count (nextLevel next level seen).1 (nextLevel next level seen).2 := by
      rintro first rest rfl
      rfl
    cases hlevelEq : level with
    | nil =>
      rw [hlevelEq] at hi
      cases hi
    | cons first rest =>
      have hne : level ≠ [] := by rw [hlevelEq]; exact List.cons_ne_nil _ _
      rw [hlevels first rest hlevelEq] at hi
      rw [← hlevelEq, hlevels first rest hlevelEq, List.mem_append]
      have hfound : ∀ k ∈ (nextLevel next level seen).1,
          k ∈ levels next count (nextLevel next level seen).1 (nextLevel next level seen).2 :=
        level_subset_levels fun hne' => Nat.zero_lt_of_lt (hcount' hne hne')
      rcases List.mem_append.mp hi with hi | hi
      · by_cases hseen : j ∈ seen
        · exact .inr hseen
        · exact .inl (.inr (hfound j (mem_nextLevel.mpr ⟨⟨i, hi, hj⟩, hseen⟩)))
      · rcases ih hlevel' (hcount' hne) i hi j hj with h | h
        · exact .inl (.inr h)
        · by_cases hseen : j ∈ seen
          · exact .inr hseen
          · rcases mem_seen_nextLevel.mp h with hstep | h
            · exact .inl (.inr (hfound j (mem_nextLevel.mpr ⟨hstep, hseen⟩)))
            · exact absurd h hseen

/-- A walk that may have as many levels as there are nodes contains its root and every next node of its
nodes. -/
theorem walk_closed {bound root : Nat} (hbound : ∀ i < bound, ∀ j ∈ next i, j < bound)
    (hroot : root < bound) :
    root ∈ walk next (bound + 1) root ∧
      ∀ i ∈ walk next (bound + 1) root, ∀ j ∈ next i, j ∈ walk next (bound + 1) root := by
  have hmem : root ∈ walk next (bound + 1) root :=
    level_subset_levels (fun _ => Nat.succ_pos _) root List.mem_cons_self
  refine ⟨hmem, fun i hi j hj => ?_⟩
  have hcount : (unseen bound [root]).card < bound + 1 := by
    refine Nat.lt_succ_of_le (le_trans (Finset.card_filter_le _ _) ?_)
    rw [Finset.card_range]
  have hlevel : ∀ i ∈ [root], i < bound := by simpa using hroot
  rcases levels_closed hbound (bound + 1) hlevel (fun _ => hcount) i hi j hj with h | h
  · exact h
  · rw [List.mem_singleton.mp h]
    exact hmem

end BreadthFirst

namespace Cluster

/-! ## The nodes of a plan -/

/-- The nodes of the plan under a root: the root, and what they read as inputs. -/
inductive InPlan (c : Cluster) (root : NodeId) : NodeId → Prop
  | root : InPlan c root root
  | input {id j : NodeId} (user : InPlan c root id) (mem : j ∈ c.inputs id) : InPlan c root j

variable {c c' : Cluster} {root id : NodeId}

theorem InPlan.lt_size (hroot : root < c.size) (h : c.InPlan root id) : id < c.size := by
  cases h with
  | root => exact hroot
  | input _ hj => exact inputs_lt_size hj

theorem InPlan.trans {j : NodeId} (h : c.InPlan root id) (h' : c.InPlan id j) : c.InPlan root j := by
  induction h' with
  | root => exact h
  | input _ hj ih => exact .input ih hj

/-- A node below the root of a plan is in the plan of one of the inputs. -/
theorem InPlan.eq_or_input (h : c.InPlan root id) :
    id = root ∨ ∃ j ∈ c.inputs root, c.InPlan j id := by
  induction h with
  | root => exact .inl rfl
  | @input user j _ hj ih =>
    rcases ih with rfl | ⟨k, hk, huser⟩
    · exact .inr ⟨j, hj, .root⟩
    · exact .inr ⟨k, hk, .input huser hj⟩

theorem InPlan.le (h : c.InPlan root id) : id ≤ root := by
  induction h with
  | root => exact Nat.le_refl _
  | input _ hj ih => exact Nat.le_trans (Nat.le_of_lt (c.inputs_lt hj)) ih

theorem Extends.inPlan_iff (hc : c.Extends c') (hroot : root < c.size) :
    c'.InPlan root id ↔ c.InPlan root id := by
  constructor
  · intro h
    induction h with
    | root => exact .root
    | input _ hj ih =>
      rw [hc.inputs_eq (ih.lt_size hroot)] at hj
      exact .input ih hj
  · intro h
    induction h with
    | root => exact .root
    | input hid hj ih =>
      rw [← hc.inputs_eq (hid.lt_size hroot)] at hj
      exact .input ih hj

/-- What holds of a root and passes from a node to its inputs holds of all nodes of the plan. -/
theorem nodesIn_subset {P : NodeId → Prop} (hinputs : ∀ i, P i → ∀ j ∈ c.inputs i, P j) (hroot : P root)
    (order : MatchOrder) : ∀ i ∈ c.nodesIn root order, P i := by
  have htop : ∀ i ∈ c.topDown root, P i :=
    BreadthFirst.walk_subset (fun i hi j hj => hinputs i hi j (List.mem_reverse.mp hj)) hroot
  cases order with
  | topDown => exact htop
  | bottomUp => exact fun i hi => htop i (List.mem_reverse.mp hi)

/-- A walk over the inputs, each node's in whatever sequence, visits the nodes of the plan. -/
theorem mem_walk_iff {next : NodeId → List NodeId} (hnext : ∀ i j, j ∈ next i ↔ j ∈ c.inputs i)
    (hroot : root < c.size) : id ∈ BreadthFirst.walk next (c.size + 1) root ↔ c.InPlan root id := by
  constructor
  · intro h
    exact BreadthFirst.walk_subset (fun i hi j hj => .input hi ((hnext i j).mp hj)) .root id h
  · intro h
    have hbound : ∀ i < c.size, ∀ j ∈ next i, j < c.size :=
      fun i _ j hj => inputs_lt_size ((hnext i j).mp hj)
    obtain ⟨hmem, hclosed⟩ := BreadthFirst.walk_closed hbound hroot
    induction h with
    | root => exact hmem
    | input _ hj ih => exact hclosed _ ih _ ((hnext _ _).mpr hj)

theorem mem_nodesIn_iff (hroot : root < c.size) (order : MatchOrder) :
    id ∈ c.nodesIn root order ↔ c.InPlan root id := by
  have htop : id ∈ c.topDown root ↔ c.InPlan root id := mem_walk_iff (fun _ _ => List.mem_reverse) hroot
  cases order with
  | topDown => exact htop
  | bottomUp => exact List.mem_reverse.trans htop

end Cluster

end QueryPlan
