import Mathlib.Data.List.Nodup
import QueryPlan.Proofs.Session.Runs
import QueryPlan.Proofs.Session.Walks
/-!
# Walks go by distance

A breadth first walk is the sequence of its levels, and a level has the nodes at one distance from the
root: those that a number of steps leads to and no smaller number does. So a walk has no node twice and
goes by distance, and nodes of one distance stand in the sequence in which the walk comes to them first.
For the match orders of a plan this says which nodes come before their inputs. Inputs that are shared at
different distances do not keep to it.
-/
namespace QueryPlan

/-! ## Places in a list -/

section Places

variable {xs ys zs : List Nat} {a b : Nat}

theorem idxOf_append_lt (ha : a ∈ xs) (hb : b ∉ xs) : (xs ++ ys).idxOf a < (xs ++ ys).idxOf b := by
  rw [List.idxOf_append_of_mem ha, List.idxOf_append_of_notMem hb]
  exact Nat.lt_of_lt_of_le (List.idxOf_lt_length_of_mem ha) (Nat.le_add_right _ _)

/-- The sequence of what stands in the middle of a list only. -/
theorem idxOf_append_append_lt_iff (hxs : a ∉ xs ∧ b ∉ xs) (hys : a ∈ ys ∧ b ∈ ys) :
    (xs ++ ys ++ zs).idxOf a < (xs ++ ys ++ zs).idxOf b ↔ ys.idxOf a < ys.idxOf b := by
  rw [List.append_assoc, List.idxOf_append_of_notMem hxs.1, List.idxOf_append_of_notMem hxs.2,
    List.idxOf_append_of_mem hys.1, List.idxOf_append_of_mem hys.2]
  exact Nat.add_lt_add_iff_left

theorem idxOf_reverse (h : xs.Nodup) (ha : a ∈ xs) :
    xs.reverse.idxOf a = xs.length - 1 - xs.idxOf a := by
  have hlt := List.idxOf_lt_length_of_mem ha
  have hplace : xs.length - 1 - xs.idxOf a < xs.reverse.length := by
    rw [List.length_reverse]
    omega
  have hget : xs.reverse[xs.length - 1 - xs.idxOf a] = a := by
    rw [List.getElem_reverse]
    have hback : xs.length - 1 - (xs.length - 1 - xs.idxOf a) = xs.idxOf a := by omega
    simp only [hback, List.getElem_idxOf]
  have hfound := (List.nodup_reverse.mpr h).idxOf_getElem _ hplace
  rwa [hget] at hfound

theorem idxOf_reverse_lt_iff (h : xs.Nodup) (ha : a ∈ xs) (hb : b ∈ xs) :
    xs.reverse.idxOf b < xs.reverse.idxOf a ↔ xs.idxOf a < xs.idxOf b := by
  have hlt := List.idxOf_lt_length_of_mem ha
  have hlt' := List.idxOf_lt_length_of_mem hb
  rw [idxOf_reverse h ha, idxOf_reverse h hb]
  omega

theorem exists_flatMap_range (f : Nat → List Nat) {n count : Nat} (h : n < count) :
    ∃ rest, (List.range count).flatMap f = (List.range n).flatMap f ++ f n ++ rest := by
  obtain ⟨k, rfl⟩ := Nat.exists_eq_add_of_lt h
  refine ⟨((List.range k).map (n + 1 + ·)).flatMap f, ?_⟩
  rw [Nat.add_right_comm, List.range_add, List.range_succ, List.flatMap_append, List.flatMap_append,
    List.flatMap_singleton]

end Places

namespace BreadthFirst

/-! ## Distances -/

/-- A number of steps leads from a root to a node. -/
inductive Reaches (next : NodeId → List NodeId) (root : NodeId) : Nat → NodeId → Prop
  | root : Reaches next root 0 root
  | step {n : Nat} {i j : NodeId} (before : Reaches next root n i) (mem : j ∈ next i) :
    Reaches next root (n + 1) j

/-- The least number of steps that leads from a root to a node. -/
structure IsDistance (next : NodeId → List NodeId) (root id : NodeId) (n : Nat) : Prop where
  reaches : Reaches next root n id
  least : ∀ m, Reaches next root m id → n ≤ m

variable {next : NodeId → List NodeId} {root id : NodeId}

theorem IsDistance.unique {m n : Nat} (h : IsDistance next root id m) (h' : IsDistance next root id n) :
    m = n :=
  Nat.le_antisymm (h.least n h'.reaches) (h'.least m h.reaches)

theorem isDistance_root : IsDistance next root root 0 := ⟨.root, fun _ _ => Nat.zero_le _⟩

theorem isDistance_one (hne : id ≠ root) (hid : id ∈ next root) : IsDistance next root id 1 where
  reaches := Reaches.root.step hid
  least m hm := by
    cases hm with
    | root => exact absurd rfl hne
    | step _ _ => exact Nat.succ_pos _

/-- A step leads at most one further away. -/
theorem IsDistance.le_succ {j : NodeId} {m n : Nat} (h : IsDistance next root id m) (hj : j ∈ next id)
    (h' : IsDistance next root j n) : n ≤ m + 1 :=
  h'.least _ (h.reaches.step hj)

/-- Steps that lead to the same nodes in other sequences. -/
theorem Reaches.congr {next' : NodeId → List NodeId} (hnext : ∀ i j, j ∈ next i ↔ j ∈ next' i) {n : Nat}
    (h : Reaches next root n id) : Reaches next' root n id := by
  induction h with
  | root => exact .root
  | step _ hj ih => exact .step ih ((hnext _ _).mp hj)

theorem isDistance_congr {next' : NodeId → List NodeId} (hnext : ∀ i j, j ∈ next i ↔ j ∈ next' i)
    {n : Nat} : IsDistance next root id n ↔ IsDistance next' root id n := by
  have hback : ∀ i j, j ∈ next' i ↔ j ∈ next i := fun i j => (hnext i j).symm
  exact ⟨fun h => ⟨h.reaches.congr hnext, fun m hm => h.least m (hm.congr hback)⟩,
    fun h => ⟨h.reaches.congr hback, fun m hm => h.least m (hm.congr hnext)⟩⟩

/-! ## Levels -/

/-- A level of a walk, counted from the root, and the nodes seen up to it. -/
def stage (next : NodeId → List NodeId) (root : NodeId) : Nat → List NodeId × List NodeId
  | 0 => ([root], [root])
  | n + 1 => nextLevel next (stage next root n).1 (stage next root n).2

/-- The nodes of a level of a walk, counted from the root. -/
def level (next : NodeId → List NodeId) (root : NodeId) (n : Nat) : List NodeId := (stage next root n).1

/-- A level has the nodes at its distance, and seen are those that no more steps lead to. -/
theorem mem_stage (next : NodeId → List NodeId) (root : NodeId) (n : Nat) :
    (∀ id, id ∈ (stage next root n).1 ↔ IsDistance next root id n) ∧
      ∀ id, id ∈ (stage next root n).2 ↔ ∃ m ≤ n, Reaches next root m id := by
  induction n with
  | zero =>
    have hzero : ∀ {id}, Reaches next root 0 id → id = root := fun h => by cases h; rfl
    refine ⟨fun id => List.mem_singleton.trans ⟨?_, fun h => hzero h.reaches⟩,
      fun id => List.mem_singleton.trans ⟨?_, ?_⟩⟩
    · rintro rfl
      exact isDistance_root
    · rintro rfl
      exact ⟨0, Nat.le_refl _, .root⟩
    · rintro ⟨m, hm, h⟩
      obtain rfl := Nat.le_zero.mp hm
      exact hzero h
  | succ n ih =>
    obtain ⟨hlevel, hseen⟩ := ih
    -- who is a step away from what no more than `n` steps lead to, is seen unless from the level itself
    have hstep : ∀ {id m}, Reaches next root m id → m ≤ n + 1 →
        id ∈ (stage next root n).2 ∨ m = n + 1 ∧ ∃ i ∈ (stage next root n).1, id ∈ next i := by
      intro id m h hm
      rcases Nat.lt_or_eq_of_le hm with hlt | rfl
      · exact .inl ((hseen id).mpr ⟨m, Nat.lt_succ_iff.mp hlt, h⟩)
      · cases h with
        | @step _ i _ hi hmem =>
          by_cases hdistance : IsDistance next root i n
          · exact .inr ⟨rfl, i, (hlevel i).mpr hdistance, hmem⟩
          · have : ∃ k, Reaches next root k i ∧ k < n := by
              by_contra hnone
              exact hdistance ⟨hi, fun k hk => Nat.le_of_not_lt fun hlt => hnone ⟨k, hk, hlt⟩⟩
            obtain ⟨k, hk, hlt⟩ := this
            exact .inl ((hseen id).mpr ⟨k + 1, hlt, hk.step hmem⟩)
    constructor
    · intro id
      rw [stage, mem_nextLevel, hseen]
      constructor
      · rintro ⟨⟨i, hi, hmem⟩, hnew⟩
        refine ⟨((hlevel i).mp hi).reaches.step hmem, fun m hm => ?_⟩
        by_contra hlt
        exact hnew ⟨m, by omega, hm⟩
      · intro h
        have hnew : ¬∃ m ≤ n, Reaches next root m id := fun ⟨m, hm, hreaches⟩ =>
          Nat.not_succ_le_self n (Nat.le_trans (h.least m hreaches) hm)
        rcases hstep h.reaches (Nat.le_refl _) with hold | ⟨-, hfound⟩
        · exact absurd ((hseen id).mp hold) hnew
        · exact ⟨hfound, hnew⟩
    · intro id
      rw [stage, mem_seen_nextLevel]
      constructor
      · rintro (⟨i, hi, hmem⟩ | hold)
        · exact ⟨n + 1, Nat.le_refl _, ((hlevel i).mp hi).reaches.step hmem⟩
        · obtain ⟨m, hm, h⟩ := (hseen id).mp hold
          exact ⟨m, Nat.le_succ_of_le hm, h⟩
      · rintro ⟨m, hm, h⟩
        rcases hstep h hm with hold | ⟨-, hfound⟩
        · exact .inr hold
        · exact .inl hfound

theorem mem_level {n : Nat} : id ∈ level next root n ↔ IsDistance next root id n :=
  (mem_stage next root n).1 id

theorem nodup_discover_foldl (ids : List NodeId) {found : List NodeId × List NodeId}
    (hfound : ∀ i ∈ found.1, i ∈ found.2) (h : found.1.Nodup) : (ids.foldl discover found).1.Nodup := by
  induction ids generalizing found with
  | nil => exact h
  | cons i ids ih =>
    rw [List.foldl_cons]
    by_cases hmem : i ∈ found.2
    · rw [show discover found i = found from if_pos hmem]
      exact ih hfound h
    · rw [show discover found i = (found.1 ++ [i], i :: found.2) from if_neg hmem]
      refine ih (fun j hj => ?_) (h.append (List.nodup_singleton i) ?_)
      · rcases List.mem_append.mp hj with hj | hj
        · exact List.mem_cons_of_mem _ (hfound j hj)
        · exact List.mem_singleton.mp hj ▸ List.mem_cons_self
      · exact List.disjoint_singleton.mpr fun hi => hmem (hfound i hi)

theorem nodup_level (n : Nat) : (level next root n).Nodup := by
  cases n with
  | zero => exact List.nodup_singleton root
  | succ n => exact nodup_discover_foldl _ (by simp) List.nodup_nil

theorem level_eq_nil {m n : Nat} (hmn : m ≤ n) (h : level next root m = []) : level next root n = [] := by
  induction hmn with
  | refl => exact h
  | step _ ih =>
    rw [level, stage, show (stage next root _).1 = [] from ih]
    rfl

theorem levels_stage (count n : Nat) : levels next count (stage next root n).1 (stage next root n).2 =
    (List.range' n count).flatMap (level next root) := by
  induction count generalizing n with
  | zero => rfl
  | succ count ih =>
    cases hlevel : (stage next root n).1 with
    | nil =>
      rw [List.flatMap_eq_nil_iff.mpr fun m hm => level_eq_nil (List.mem_range'_1.mp hm).1 hlevel]
      rfl
    | cons first rest =>
      have hstep : ∀ seen, levels next (count + 1) (first :: rest) seen = (first :: rest) ++
          levels next count (nextLevel next (first :: rest) seen).1
            (nextLevel next (first :: rest) seen).2 := fun _ => rfl
      rw [hstep, ← hlevel, List.range'_succ, List.flatMap_cons, ← ih (n + 1)]
      rfl

/-- A walk is the sequence of its levels. -/
theorem walk_eq_flatMap (count : Nat) :
    walk next count root = (List.range count).flatMap (level next root) := by
  rw [List.range_eq_range', ← levels_stage]
  rfl

theorem mem_walk {count : Nat} :
    id ∈ walk next count root ↔ ∃ n < count, IsDistance next root id n := by
  simp only [walk_eq_flatMap, List.mem_flatMap, List.mem_range, mem_level]

theorem nodup_walk (count : Nat) : (walk next count root).Nodup := by
  rw [walk_eq_flatMap, List.nodup_flatMap]
  refine ⟨fun n _ => nodup_level n, List.nodup_range.imp fun hne => ?_⟩
  exact fun id hm hn => hne ((mem_level.mp hm).unique (mem_level.mp hn))

/-! ## The sequence of a walk -/

/-- What a walk comes to from the levels before one is nearer to the root. -/
theorem not_mem_before {m n : Nat} (h : IsDistance next root id n) (hmn : m ≤ n) :
    id ∉ (List.range m).flatMap (level next root) := by
  intro hid
  obtain ⟨k, hk, hid⟩ := List.mem_flatMap.mp hid
  have := (mem_level.mp hid).unique h
  have := List.mem_range.mp hk
  omega

/-- Nearer nodes come first. -/
theorem idxOf_walk_lt {i j : NodeId} {m n count : Nat} (hi : IsDistance next root i m)
    (hj : IsDistance next root j n) (hmn : m < n) (hm : m < count) :
    (walk next count root).idxOf i < (walk next count root).idxOf j := by
  obtain ⟨rest, hrest⟩ := exists_flatMap_range (level next root) hm
  rw [walk_eq_flatMap, hrest]
  refine idxOf_append_lt (List.mem_append_right _ (mem_level.mpr hi)) fun hmem => ?_
  rcases List.mem_append.mp hmem with hmem | hmem
  · exact not_mem_before hj (Nat.le_of_lt hmn) hmem
  · exact Nat.ne_of_lt hmn ((mem_level.mp hmem).unique hj)

theorem exists_discover_foldl (ids : List NodeId) (found : List NodeId × List NodeId) :
    ∃ rest, (ids.foldl discover found).1 = found.1 ++ rest := by
  induction ids generalizing found with
  | nil => exact ⟨[], (List.append_nil _).symm⟩
  | cons k ids ih =>
    obtain ⟨rest, hrest⟩ := ih (discover found k)
    rw [List.foldl_cons, hrest]
    unfold discover
    split
    · exact ⟨rest, rfl⟩
    · exact ⟨k :: rest, List.append_assoc _ _ _⟩

/-- New nodes are found in the sequence in which they come up first. -/
theorem idxOf_discover_foldl_lt_iff (ids : List NodeId) {found : List NodeId × List NodeId} {i j : NodeId}
    (hne : i ≠ j) (hfound : ∀ k ∈ found.1, k ∈ found.2) (hi : i ∉ found.2) (hj : j ∉ found.2) :
    (ids.foldl discover found).1.idxOf i < (ids.foldl discover found).1.idxOf j ↔
      ids.idxOf i < ids.idxOf j := by
  induction ids generalizing found with
  | nil =>
    rw [List.foldl_nil, List.idxOf_of_notMem fun h => hi (hfound i h),
      List.idxOf_of_notMem fun h => hj (hfound j h)]
    exact iff_of_false (Nat.lt_irrefl _) (Nat.lt_irrefl _)
  | cons k ids ih =>
    rw [List.foldl_cons]
    by_cases hmem : k ∈ found.2
    · have hki : k ≠ i := fun h => hi (h ▸ hmem)
      have hkj : k ≠ j := fun h => hj (h ▸ hmem)
      rw [show discover found k = found from if_pos hmem, ih hfound hi hj, List.idxOf_cons_ne _ hki,
        List.idxOf_cons_ne _ hkj]
      exact Nat.succ_lt_succ_iff.symm
    · rw [show discover found k = (found.1 ++ [k], k :: found.2) from if_neg hmem]
      obtain ⟨rest, hrest⟩ := exists_discover_foldl ids (found.1 ++ [k], k :: found.2)
      -- whichever of the two comes up first is put behind all that were found, and there it stays
      have hfirst : ∀ {l : NodeId}, l ∉ found.2 → l ≠ k →
          (found.1 ++ [k] ++ rest).idxOf k < (found.1 ++ [k] ++ rest).idxOf l := by
        intro l hl hlk
        refine idxOf_append_lt (List.mem_append_right _ List.mem_cons_self) fun h => ?_
        rcases List.mem_append.mp h with h | h
        · exact hl (hfound l h)
        · exact hlk (List.mem_singleton.mp h)
      by_cases hki : k = i
      · subst hki
        rw [hrest, List.idxOf_cons_self, List.idxOf_cons_ne _ hne]
        exact iff_of_true (hfirst hj hne.symm) (Nat.succ_pos _)
      · by_cases hkj : k = j
        · subst hkj
          rw [hrest, List.idxOf_cons_self, List.idxOf_cons_ne _ (Ne.symm hne)]
          exact iff_of_false (Nat.lt_asymm (hfirst hi hne)) (Nat.not_lt_zero _)
        · rw [ih, List.idxOf_cons_ne _ hki, List.idxOf_cons_ne _ hkj]
          · exact Nat.succ_lt_succ_iff.symm
          · intro l hl
            rcases List.mem_append.mp hl with hl | hl
            · exact List.mem_cons_of_mem _ (hfound l hl)
            · exact List.mem_singleton.mp hl ▸ List.mem_cons_self
          · exact fun h => (List.mem_cons.mp h).elim (fun h => hki h.symm) hi
          · exact fun h => (List.mem_cons.mp h).elim (fun h => hkj h.symm) hj

/-- Nodes of one distance stand in the sequence in which what the level before leads to comes up. -/
theorem idxOf_level_lt_iff {i j : NodeId} {n : Nat} (hi : IsDistance next root i (n + 1))
    (hj : IsDistance next root j (n + 1)) :
    (level next root (n + 1)).idxOf i < (level next root (n + 1)).idxOf j ↔
      ((level next root n).flatMap next).idxOf i < ((level next root n).flatMap next).idxOf j := by
  have hnew : ∀ {k}, IsDistance next root k (n + 1) → k ∉ (stage next root n).2 := by
    intro k hk hseen
    obtain ⟨m, hm, hreaches⟩ := ((mem_stage next root n).2 k).mp hseen
    exact Nat.not_succ_le_self n (Nat.le_trans (hk.least m hreaches) hm)
  by_cases hne : i = j
  · subst hne
    exact iff_of_false (Nat.lt_irrefl _) (Nat.lt_irrefl _)
  · exact idxOf_discover_foldl_lt_iff _ hne (by simp) (hnew hi) (hnew hj)

/-- Nodes of one distance stand in the sequence in which what the walk leads to comes up. -/
theorem idxOf_walk_lt_iff {i j : NodeId} {n count : Nat} (hi : IsDistance next root i (n + 1))
    (hj : IsDistance next root j (n + 1)) (hn : n + 1 < count) :
    (walk next count root).idxOf i < (walk next count root).idxOf j ↔
      ((walk next count root).flatMap next).idxOf i < ((walk next count root).flatMap next).idxOf j := by
  obtain ⟨rest, hrest⟩ := exists_flatMap_range (level next root) hn
  obtain ⟨rest', hrest'⟩ := exists_flatMap_range (fun m => (level next root m).flatMap next)
    (Nat.lt_of_succ_lt hn)
  have hbefore : ∀ {k}, IsDistance next root k (n + 1) →
      k ∉ (List.range n).flatMap fun m => (level next root m).flatMap next := by
    intro k hk hmem
    obtain ⟨m, hm, hmem⟩ := List.mem_flatMap.mp hmem
    obtain ⟨l, hl, hmem⟩ := List.mem_flatMap.mp hmem
    have := (mem_level.mp hl).le_succ hmem hk
    have := List.mem_range.mp hm
    omega
  have hled : ∀ {k}, IsDistance next root k (n + 1) → k ∈ (level next root n).flatMap next := by
    intro k hk
    have hmem := (mem_nextLevel.mp (show k ∈ (stage next root (n + 1)).1 from mem_level.mpr hk)).1
    exact List.mem_flatMap.mpr hmem
  rw [walk_eq_flatMap, List.flatMap_assoc, hrest, hrest',
    idxOf_append_append_lt_iff ⟨not_mem_before hi (Nat.le_refl _), not_mem_before hj (Nat.le_refl _)⟩
      ⟨mem_level.mpr hi, mem_level.mpr hj⟩,
    idxOf_append_append_lt_iff ⟨hbefore hi, hbefore hj⟩ ⟨hled hi, hled hj⟩]
  exact idxOf_level_lt_iff hi hj

end BreadthFirst

/-! ## The match orders of a plan -/

/-- In a list of nodes an input has the place that a match order asks for: after the node that reads it
top down, before it bottom up. -/
def MatchOrder.Keeps (nodes : List NodeId) (user input : NodeId) : MatchOrder → Prop
  | .topDown => nodes.idxOf user < nodes.idxOf input
  | .bottomUp => nodes.idxOf input < nodes.idxOf user

namespace Cluster

open BreadthFirst

variable {c : Cluster} {root user input : NodeId} {m n : Nat}

/-- What the nodes of a plan read, in the sequence in which its match orders come to it. -/
def readings (c : Cluster) (root : NodeId) : List NodeId :=
  (c.topDown root).flatMap fun id => (c.inputs id).reverse

theorem isDistance_inputs_iff {id : NodeId} :
    IsDistance (fun id => (c.inputs id).reverse) root id n ↔ IsDistance c.inputs root id n :=
  isDistance_congr fun _ _ => List.mem_reverse

theorem InPlan.exists_isDistance {id : NodeId} (hroot : root < c.size) (h : c.InPlan root id) :
    ∃ n ≤ c.size, IsDistance c.inputs root id n := by
  obtain ⟨n, hn, hdistance⟩ := mem_walk.mp ((mem_nodesIn_iff hroot .topDown).mpr h)
  exact ⟨n, Nat.lt_succ_iff.mp hn, isDistance_inputs_iff.mp hdistance⟩

theorem nodup_nodesIn (c : Cluster) (root : NodeId) (order : MatchOrder) :
    (c.nodesIn root order).Nodup := by
  cases order with
  | topDown => exact nodup_walk _
  | bottomUp => exact List.nodup_reverse.mpr (nodup_walk _)

/-- Top down a node comes before an input that is further away, and before one that is as far away if it is
read first. -/
theorem keeps_topDown_iff (hinput : input ∈ c.inputs user) (hm : m ≤ c.size) (hn : n ≤ c.size)
    (huser : IsDistance c.inputs root user m) (hdistance : IsDistance c.inputs root input n) :
    MatchOrder.topDown.Keeps (c.topDown root) user input ↔
      m < n ∨ m = n ∧ (c.readings root).idxOf user < (c.readings root).idxOf input := by
  have huser' := isDistance_inputs_iff.mpr huser
  have hdistance' := isDistance_inputs_iff.mpr hdistance
  rcases Nat.lt_trichotomy m n with hlt | rfl | hgt
  · exact iff_of_true (idxOf_walk_lt huser' hdistance' hlt (Nat.lt_succ_of_le hm)) (.inl hlt)
  · cases m with
    | zero =>
      -- only the root is at distance zero, and it does not read itself
      cases huser'.reaches
      cases hdistance'.reaches
      exact absurd (c.inputs_lt hinput) (Nat.lt_irrefl _)
    | succ k =>
      rw [MatchOrder.Keeps, topDown, idxOf_walk_lt_iff huser' hdistance' (Nat.lt_succ_of_le hm)]
      simp only [Nat.lt_irrefl, false_or, true_and, readings, topDown]
  · refine iff_of_false (Nat.lt_asymm ?_) fun h => ?_
    · exact idxOf_walk_lt hdistance' huser' hgt (Nat.lt_succ_of_le hn)
    · rcases h with hlt | ⟨heq, -⟩
      · exact Nat.lt_asymm hlt hgt
      · exact Nat.ne_of_gt hgt heq

theorem keeps_bottomUp_iff (hroot : root < c.size) (huser : c.InPlan root user)
    (hinput : input ∈ c.inputs user) : MatchOrder.bottomUp.Keeps (c.bottomUp root) user input ↔
      MatchOrder.topDown.Keeps (c.topDown root) user input :=
  idxOf_reverse_lt_iff (nodup_nodesIn c root .topDown) ((mem_nodesIn_iff hroot .topDown).mpr huser)
    ((mem_nodesIn_iff hroot .topDown).mpr (huser.input hinput))

/-- A match order has every node of a plan once. It keeps to a node and an input of it if the input is
further away from the root, or as far away and read later for the first time, and only then. -/
theorem nodesIn_byDistance (c : Cluster) {root : NodeId} (hroot : root < c.size) (order : MatchOrder) :
    (c.nodesIn root order).Nodup ∧ (∀ id, id ∈ c.nodesIn root order ↔ c.InPlan root id) ∧
      ∀ user, c.InPlan root user → ∀ input ∈ c.inputs user,
        ∃ m n, IsDistance c.inputs root user m ∧ IsDistance c.inputs root input n ∧
          (order.Keeps (c.nodesIn root order) user input ↔
            m < n ∨ m = n ∧ (c.readings root).idxOf user < (c.readings root).idxOf input) := by
  refine ⟨nodup_nodesIn c root order, fun id => mem_nodesIn_iff hroot order, ?_⟩
  intro user huser input hinput
  obtain ⟨m, hm, hdistance⟩ := huser.exists_isDistance hroot
  obtain ⟨n, hn, hdistance'⟩ := (huser.input hinput).exists_isDistance hroot
  have htop := keeps_topDown_iff hinput hm hn hdistance hdistance'
  refine ⟨m, n, hdistance, hdistance', ?_⟩
  cases order with
  | topDown => exact htop
  | bottomUp => exact (keeps_bottomUp_iff hroot huser hinput).trans htop

/-- How long books have been lent. -/
def loans : Table :=
  { name := ["LOANS"]
    rowType := ⟨[⟨"days", .bigint, true⟩]⟩
    source := some (.ok [[.integer 3], [.integer 40]]) }

/-- The loans together with the late ones, which are read last or first. -/
def loanUnions : Planning NodeId := do
  let all ← createDefault (.scan .none loans) []
  let late ← createDefault
    (.filter .none (.call .greaterThan [.column 0 .bigint, .literal (.integer 30)])) [all]
  let _ ← createDefault (.union .none true) [late, all]
  createDefault (.union .none true) [all, late]

def loanSession : Cluster := loanUnions.leaves (start ⟨[loans]⟩ default default)

/-- All loans are as far from the second union as the late ones are, and come up after them, since inputs are
visited from the last to the first. -/
theorem nodesIn_byDistance_loans :
    (3 < loanSession.size ∧ loanSession.InPlan 3 1 ∧ 0 ∈ loanSession.inputs 1) ∧
    ∀ order : MatchOrder, order.Keeps (loanSession.nodesIn 3 order) 1 0 := by
  have hroot : 3 < loanSession.size := by decide +kernel
  have hlate : 1 ∈ loanSession.inputs 3 := by decide +kernel
  have hall : 0 ∈ loanSession.inputs 3 := by decide +kernel
  have hinput : 0 ∈ loanSession.inputs 1 := by decide +kernel
  have huser : loanSession.InPlan 3 1 := InPlan.root.input hlate
  refine ⟨⟨hroot, huser, hinput⟩, fun order => ?_⟩
  obtain ⟨m, n, hm, hn, hkeeps⟩ := (nodesIn_byDistance loanSession hroot order).2.2 1 huser 0 hinput
  have hsame : m = n := by
    rw [hm.unique (isDistance_one (by decide) hlate), hn.unique (isDistance_one (by decide) hall)]
  exact hkeeps.mpr (.inr ⟨hsame, by decide +kernel⟩)

/-- The first union comes to all loans before it comes to the late ones, which read them. -/
theorem nodesIn_input_first :
    (2 < loanSession.size ∧ loanSession.InPlan 2 1 ∧ loanSession.inputs 1 = [0]) ∧
    (loanSession.nodesIn 2 .topDown = [2, 0, 1] ∧ loanSession.nodesIn 2 .bottomUp = [1, 0, 2]) ∧
    ∀ order : MatchOrder, ¬order.Keeps (loanSession.nodesIn 2 order) 1 0 := by
  have hlate : 1 ∈ loanSession.inputs 2 := by decide +kernel
  have htop : loanSession.nodesIn 2 .topDown = [2, 0, 1] := by decide +kernel
  have hbottom : loanSession.nodesIn 2 .bottomUp = [1, 0, 2] := by decide +kernel
  refine ⟨⟨by decide +kernel, InPlan.root.input hlate, by decide +kernel⟩, ⟨htop, hbottom⟩,
    fun order => ?_⟩
  cases order with
  | topDown =>
    rw [htop]
    exact (by decide : ¬[2, 0, 1].idxOf 1 < [2, 0, 1].idxOf 0)
  | bottomUp =>
    rw [hbottom]
    exact (by decide : ¬[1, 0, 2].idxOf 0 < [1, 0, 2].idxOf 1)

end Cluster

end QueryPlan
