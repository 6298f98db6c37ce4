import QueryPlan.Proofs.Execution.JoinRows
/-!
# Laws of joins

Where a filter on the rows of a join may go, and when a function on its rows may be applied to its
inputs instead. A filter on one side of the rows goes below the join if that side is not padded: a
padded row says that nothing matched, which a filter below would make true of more rows.
-/
namespace QueryPlan.Execution

open OutcomeRow

variable {padsLeft padsRight : Bool} {m n : Nat} {hit hit' : OutcomeRow → OutcomeRow → Bool}
  {lefts rights : List OutcomeRow}

/-! ## Filters -/

theorem filter_flatMap_if {α β : Type} (p : α → Bool) (f : α → List β) (as : List α) :
    (as.filter p).flatMap f = as.flatMap fun a => if p a then f a else [] := by
  induction as with
  | nil => rfl
  | cons a as ih =>
    by_cases h : p a = true
    · simp [h, ih]
    · simp [h, ih]

theorem filter_const {α : Type} {p : α → Bool} {as : List α} {b : Bool} (h : ∀ a ∈ as, p a = b) :
    as.filter p = if b then as else [] := by
  cases b with
  | true => exact List.filter_eq_self.mpr h
  | false => exact List.filter_eq_nil_iff.mpr fun a ha => by simp [h a ha]

/-- A filter on the left part of the rows filters the left rows, if these are not padded. -/
theorem filter_joinOn_left {f p : OutcomeRow → Bool}
    (hrights : ∀ l ∈ lefts, ∀ r ∈ rights, f (l ++ r) = p l)
    (hnulls : padsRight = true → ∀ l ∈ lefts, f (l ++ nulls n) = p l) :
    (joinOn false padsRight m n hit lefts rights).filter f =
      joinOn false padsRight m n hit (lefts.filter p) rights := by
  unfold joinOn
  simp only [Bool.false_eq_true, if_false, List.append_nil]
  rw [List.filter_flatMap, filter_flatMap_if]
  refine List.flatMap_congr fun l hl => ?_
  apply filter_const
  intro row hrow
  split at hrow
  · next hpads =>
    rw [Bool.and_eq_true] at hpads
    rw [List.mem_singleton.mp hrow, hnulls hpads.1 l hl]
  · obtain ⟨r, hr, rfl⟩ := List.mem_map.mp hrow
    exact hrights l hl r (List.mem_of_mem_filter hr)

/-- A filter on the right part of the rows filters the right rows, if these are not padded. -/
theorem filter_joinOn_right {f p : OutcomeRow → Bool}
    (hlefts : ∀ l ∈ lefts, ∀ r ∈ rights, f (l ++ r) = p r)
    (hnulls : padsLeft = true → ∀ r ∈ rights, f (nulls m ++ r) = p r) :
    (joinOn padsLeft false m n hit lefts rights).filter f =
      joinOn padsLeft false m n hit lefts (rights.filter p) := by
  unfold joinOn
  simp only [Bool.false_and, Bool.false_eq_true, if_false]
  rw [List.filter_append, List.filter_flatMap]
  congr 1
  · refine List.flatMap_congr fun l hl => ?_
    rw [List.filter_map, List.filter_filter, List.filter_filter]
    congr 1
    refine List.filter_congr fun r hr => ?_
    rw [Function.comp_apply, hlefts l hl r hr, Bool.and_comm]
  · cases padsLeft with
    | false => rfl
    | true =>
      simp only [if_true]
      rw [List.filter_map, List.filter_filter, List.filter_filter]
      congr 1
      refine List.filter_congr fun r hr => ?_
      rw [Function.comp_apply, hnulls rfl r hr, Bool.and_comm]

/-- A filter on the rows of an inner join is part of its condition. -/
theorem filter_joinOn_inner {f : OutcomeRow → Bool} :
    (joinOn false false m n hit lefts rights).filter f =
      joinOn false false m n (fun l r => hit l r && f (l ++ r)) lefts rights := by
  unfold joinOn
  simp only [Bool.false_and, Bool.false_eq_true, if_false, List.append_nil]
  rw [List.filter_flatMap]
  refine List.flatMap_congr fun l _ => ?_
  rw [List.filter_map, List.filter_filter]
  congr 1
  exact List.filter_congr fun r _ => Bool.and_comm _ _

theorem any_congr {α : Type} {p q : α → Bool} {as : List α} (h : ∀ a ∈ as, p a = q a) :
    as.any p = as.any q := by
  rw [Bool.eq_iff_iff, List.any_eq_true, List.any_eq_true]
  exact ⟨fun ⟨a, ha, hp⟩ => ⟨a, ha, h a ha ▸ hp⟩, fun ⟨a, ha, hq⟩ => ⟨a, ha, (h a ha).symm ▸ hq⟩⟩

theorem all_congr {α : Type} {p q : α → Bool} {as : List α} (h : ∀ a ∈ as, p a = q a) :
    as.all p = as.all q := by
  rw [Bool.eq_iff_iff, List.all_eq_true, List.all_eq_true]
  exact forall₂_congr fun a ha => by rw [h a ha]

/-- Only what a join condition is of pairs of its rows matters. -/
theorem joinOn_congr (h : ∀ l ∈ lefts, ∀ r ∈ rights, hit l r = hit' l r) :
    joinOn padsLeft padsRight m n hit lefts rights =
      joinOn padsLeft padsRight m n hit' lefts rights := by
  unfold joinOn
  congr 1
  · refine List.flatMap_congr fun l hl => ?_
    rw [any_congr (h l hl), List.filter_congr (h l hl)]
  · have hunmatched : (rights.filter fun r => !lefts.any (hit · r)) =
        rights.filter fun r => !lefts.any (hit' · r) :=
      List.filter_congr fun r hr => by rw [any_congr fun l hl => h l hl r hr]
    rw [hunmatched]

/-! ## Functions on rows -/

/-- A function on the rows of a join does to both parts of a row what two others do to each, also
where a part is padding. -/
structure Splits (padsLeft padsRight : Bool) (m n m' n' : Nat) (f g h : OutcomeRow → OutcomeRow)
    (lefts rights : List OutcomeRow) : Prop where
  pair : ∀ l ∈ lefts, ∀ r ∈ rights, h (l ++ r) = f l ++ g r
  padded_right : padsRight = true → ∀ l ∈ lefts, h (l ++ nulls n') = f l ++ nulls n
  padded_left : padsLeft = true → ∀ r ∈ rights, h (nulls m' ++ r) = nulls m ++ g r

variable {m' n' : Nat} {f g h : OutcomeRow → OutcomeRow}

theorem Splits.subset (hsplits : Splits padsLeft padsRight m n m' n' f g h lefts rights)
    {lefts' rights' : List OutcomeRow} (hlefts : ∀ row ∈ lefts', row ∈ lefts)
    (hrights : ∀ row ∈ rights', row ∈ rights) :
    Splits padsLeft padsRight m n m' n' f g h lefts' rights' where
  pair l hl r hr := hsplits.pair l (hlefts l hl) r (hrights r hr)
  padded_right hpads l hl := hsplits.padded_right hpads l (hlefts l hl)
  padded_left hpads r hr := hsplits.padded_left hpads r (hrights r hr)

/-- Such a function comes out of a join of the two others' rows. -/
theorem joinOn_map (hsplits : Splits padsLeft padsRight m n m' n' f g h lefts rights)
    (hhit : ∀ l ∈ lefts, ∀ r ∈ rights, hit (f l) (g r) = hit' l r) :
    joinOn padsLeft padsRight m n hit (lefts.map f) (rights.map g) =
      (joinOn padsLeft padsRight m' n' hit' lefts rights).map h := by
  unfold joinOn
  rw [List.map_append, List.map_flatMap, List.flatMap_map]
  congr 1
  · refine List.flatMap_congr fun l hl => ?_
    have hany : (rights.map g).any (hit (f l)) = rights.any (hit' l) := by
      rw [List.any_map]
      exact any_congr (hhit l hl)
    rw [hany]
    split
    · next hpads =>
      rw [Bool.and_eq_true] at hpads
      rw [List.map_singleton, hsplits.padded_right hpads.1 l hl]
    · rw [List.filter_map, List.map_map, List.map_map]
      have hfilter : rights.filter (hit (f l) ∘ g) = rights.filter (hit' l) :=
        List.filter_congr (hhit l hl)
      rw [hfilter]
      exact List.map_congr_left fun r hr =>
        (hsplits.pair l hl r (List.mem_of_mem_filter hr)).symm
  · cases padsLeft with
    | false => rfl
    | true =>
      simp only [if_true]
      rw [List.filter_map, List.map_map, List.map_map]
      have hfilter : rights.filter ((fun r => !(lefts.map f).any (hit · r)) ∘ g) =
          rights.filter fun r => !lefts.any (hit' · r) := by
        refine List.filter_congr fun r hr => ?_
        rw [Function.comp_apply, List.any_map]
        exact congrArg (!·) (any_congr fun l hl => hhit l hl r hr)
      rw [hfilter]
      exact List.map_congr_left fun r hr =>
        (hsplits.padded_left rfl r (List.mem_of_mem_filter hr)).symm

theorem pairs_map (hsplits : Splits padsLeft padsRight m n m' n' f g h lefts rights) :
    pairs padsLeft padsRight m n (lefts.map f) (rights.map g) =
      (pairs padsLeft padsRight m' n' lefts rights).map h := by
  unfold pairs
  rw [List.map_append, List.map_append, List.map_flatMap, List.flatMap_map]
  congr 1
  · refine List.flatMap_congr fun l hl => ?_
    rw [List.map_map, List.map_map]
    exact List.map_congr_left fun r hr => (hsplits.pair l hl r hr).symm
  · congr 1
    · cases padsRight with
      | false => rfl
      | true =>
        simp only [if_true]
        rw [List.map_map, List.map_map]
        exact List.map_congr_left fun l hl => (hsplits.padded_right rfl l hl).symm
    · cases padsLeft with
      | false => rfl
      | true =>
        simp only [if_true]
        rw [List.map_map, List.map_map]
        exact List.map_congr_left fun r hr => (hsplits.padded_left rfl r hr).symm

end QueryPlan.Execution
