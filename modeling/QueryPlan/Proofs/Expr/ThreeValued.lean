import QueryPlan.Proofs.Execution.Success
/-!
# Conjunctions in three-valued logic

A conjunction of truth values is FALSE if one of them is, else unknown if one of them is null, and
TRUE otherwise, in whatever order and grouping they are put together. Taking predicates apart and
putting them together regroups their conjuncts, drops those that are TRUE, and leaves only a FALSE
among them. So where every conjunct has a truth value, none of that changes the value.
-/
namespace QueryPlan

open OutcomeRow

namespace Value

/-- TRUE, FALSE and the unknown. -/
def isTruth : Value → Bool
  | boolean _ | null => true
  | _ => false

def isFalse : Value → Bool
  | boolean b => !b
  | _ => false

/-- The three-valued conjunction of truth values. -/
def conjunction (vs : List Value) : Value :=
  if vs.any isFalse then boolean false else if vs.any isNull then null else boolean true

theorem isTruth_conjunction (vs : List Value) : (conjunction vs).isTruth = true := by
  unfold conjunction
  repeat' split
  all_goals rfl

/-- A conjunction is FALSE exactly if an operand is. -/
theorem isFalse_conjunction (vs : List Value) : (conjunction vs).isFalse = vs.any isFalse := by
  unfold conjunction
  split
  · next hfalse => exact hfalse.symm
  · next hnone =>
    rw [Bool.eq_false_iff.mpr hnone]
    split <;> rfl

theorem conjunction_of_any_isFalse {vs : List Value} (h : vs.any isFalse = true) :
    conjunction vs = boolean false := if_pos h

/-- A conjunction is TRUE exactly if no operand is FALSE or null. -/
theorem conjunction_eq_true_iff {vs : List Value} :
    conjunction vs = boolean true ↔ ∀ v ∈ vs, v.isFalse = false ∧ v.isNull = false := by
  have hall (p : Value → Bool) : (∀ v ∈ vs, p v = false) ↔ vs.any p = false := by
    simp only [List.any_eq_false, Bool.not_eq_true]
  rw [conjunction, forall₂_and, hall, hall]
  cases vs.any isFalse <;> cases vs.any isNull <;> simp

theorem conjunction_cons_null (vs : List Value) :
    conjunction (null :: vs) = if vs.any isFalse then boolean false else null := rfl

/-- The order of the operands does not matter. -/
theorem conjunction_perm {vs ws : List Value} (h : vs.Perm ws) : conjunction vs = conjunction ws := by
  rw [conjunction, conjunction, h.any_eq, h.any_eq]

/-- Nor does their grouping. -/
theorem conjunction_append (vs ws : List Value) :
    conjunction (vs ++ ws) = conjunction [conjunction vs, conjunction ws] := by
  have hnull {us : List Value} (h : us.any isFalse = false) :
      (conjunction us).isNull = us.any isNull := by
    rw [conjunction, h, if_neg Bool.false_ne_true]
    cases us.any isNull <;> rfl
  rw [conjunction, conjunction, List.any_append, List.any_append, List.any_cons, List.any_cons,
    List.any_nil, isFalse_conjunction, isFalse_conjunction, Bool.or_false]
  cases hvs : vs.any isFalse with
  | true => rfl
  | false =>
    cases hws : ws.any isFalse with
    | true => rfl
    | false => simp [hnull hvs, hnull hws]

end Value

namespace Outcome

/-- Reading truth values from left to right up to the first FALSE gives their conjunction. -/
theorem allOf_values {vs : List Value} (h : ∀ v ∈ vs, v.isTruth = true) :
    allOf false (vs.map .ok) = .ok (Value.conjunction vs) := by
  induction vs with
  | nil => rfl
  | cons v vs ih =>
    obtain ⟨hv, hvs⟩ := List.forall_mem_cons.mp h
    cases v with
    | boolean b =>
      cases b with
      | false => rfl
      | true => exact ih hvs
    | null =>
      -- the null is remembered until something decides
      show allOf true (vs.map .ok) = _
      rw [allOf_true, ih hvs, Value.conjunction_cons_null, Value.conjunction]
      repeat' split
      all_goals rfl
    | _ => cases hv

end Outcome

namespace Expr

/-- Every conjunct of the predicate is TRUE, FALSE or null on the row. -/
def TruthValued (row : Row) (e : Expr) : Prop :=
  ∀ k ∈ e.conjuncts, ∃ v, k.eval row = .ok v ∧ v.isTruth = true

variable {e k : Expr} {ps : List Expr} {row : Row}

theorem valueOn_of_eval {v : Value} (h : e.eval row = .ok v) : e.valueOn row = v := by
  rw [valueOn, h]
  rfl

theorem TruthValued.splitsOn (h : e.TruthValued row) : e.splitsOn (ofRow row) = true := by
  refine splitsOn_iff.mpr fun k hk => ?_
  obtain ⟨v, hv, htruth⟩ := h k hk
  rw [evalOn_ofRow, hv]
  cases v with
  | boolean b => rfl
  | null => rfl
  | _ => cases htruth

theorem TruthValued.of_mem_conjuncts (h : e.TruthValued row) (hk : k ∈ e.conjuncts) :
    k.TruthValued row := by
  intro k' hk'
  rw [conjuncts_of_mem_conjuncts hk, List.mem_singleton] at hk'
  exact hk' ▸ h k hk

theorem truthValued_of_mem_conjunctsOf (h : ∀ p ∈ ps, p.TruthValued row) (hk : k ∈ conjunctsOf ps) :
    k.TruthValued row := by
  rw [conjunctsOf_eq] at hk
  obtain ⟨p, hp, hk⟩ := List.mem_flatMap.mp hk
  exact (h p hp).of_mem_conjuncts hk

/-- A predicate has the conjunction of the values of its conjuncts. -/
theorem TruthValued.eval_eq (h : e.TruthValued row) :
    e.eval row = .ok (Value.conjunction (e.conjuncts.map (valueOn row))) := by
  have hvalues : e.conjuncts.map (evalOn (ofRow row)) = (e.conjuncts.map (valueOn row)).map .ok := by
    rw [List.map_map]
    refine List.map_congr_left fun k hk => ?_
    obtain ⟨v, hv, -⟩ := h k hk
    rw [evalOn_ofRow, Function.comp_apply, valueOn_of_eval hv, hv]
  rw [← evalOn_ofRow, ← allOf_conjuncts h.splitsOn, hvalues]
  refine Outcome.allOf_values fun v hv => ?_
  obtain ⟨k, hk, rfl⟩ := List.mem_map.mp hv
  obtain ⟨v, hv, htruth⟩ := h k hk
  rw [valueOn_of_eval hv]
  exact htruth

theorem TruthValued.exists_value (h : e.TruthValued row) :
    e.eval row = .ok (e.valueOn row) ∧ (e.valueOn row).isTruth = true := by
  rw [valueOn_of_eval h.eval_eq]
  exact ⟨h.eval_eq, Value.isTruth_conjunction _⟩

/-- A predicate with the literal FALSE among its conjuncts is FALSE. -/
theorem TruthValued.isFalse_valueOn (h : e.TruthValued row) (hk : k ∈ e.conjuncts)
    (hfalse : k.isAlwaysFalse = true) : (e.valueOn row).isFalse = true := by
  rw [valueOn_of_eval h.eval_eq, Value.isFalse_conjunction, List.any_map]
  refine List.any_eq_true.mpr ⟨k, hk, ?_⟩
  rw [eq_of_isAlwaysFalse hfalse]
  rfl

/-- Predicates that are put together have the conjunction of their values. -/
theorem eval_conjunction (h : ∀ p ∈ ps, p.TruthValued row) :
    (conjunction ps).eval row = .ok (Value.conjunction (ps.map (valueOn row))) := by
  rw [← evalOn_ofRow, evalOn_conjunction fun p hp => (h p hp).splitsOn]
  split
  · next hany =>
    obtain ⟨k, hk, hfalse⟩ := List.any_eq_true.mp hany
    rw [conjunctsOf_eq] at hk
    obtain ⟨p, hp, hk⟩ := List.mem_flatMap.mp hk
    rw [Value.conjunction_of_any_isFalse]
    rw [List.any_map]
    exact List.any_eq_true.mpr ⟨p, hp, (h p hp).isFalse_valueOn hk hfalse⟩
  · have hvalues : ps.map (evalOn (ofRow row)) = (ps.map (valueOn row)).map .ok := by
      rw [List.map_map]
      exact List.map_congr_left fun p hp =>
        (evalOn_ofRow row p).trans (h p hp).exists_value.1
    rw [hvalues]
    refine Outcome.allOf_values fun v hv => ?_
    obtain ⟨p, hp, rfl⟩ := List.mem_map.mp hv
    exact (h p hp).exists_value.2

/-- Among truth values only TRUE is neither FALSE nor null. -/
theorem conjunction_valueOn_eq_true_iff {ks : List Expr}
    (h : ∀ k ∈ ks, ∃ v, k.eval row = .ok v ∧ v.isTruth = true) :
    Value.conjunction (ks.map (valueOn row)) = .boolean true ↔
      ∀ k ∈ ks, k.eval row = .ok (.boolean true) := by
  rw [Value.conjunction_eq_true_iff, List.forall_mem_map]
  refine forall₂_congr fun k hk => ?_
  obtain ⟨v, hv, htruth⟩ := h k hk
  rw [valueOn_of_eval hv, hv, Except.ok.injEq]
  cases v with
  | boolean b => simp [Value.isFalse, Value.isNull]
  | null => simp [Value.isNull]
  | _ => cases htruth

/-- A predicate is true exactly if all of its conjuncts are. -/
theorem TruthValued.eval_true_iff (h : e.TruthValued row) :
    e.eval row = .ok (.boolean true) ↔ ∀ k ∈ e.conjuncts, k.eval row = .ok (.boolean true) := by
  rw [h.eval_eq, Except.ok.injEq]
  exact conjunction_valueOn_eq_true_iff h

/-- Predicates that are put together, if anything is left of them, are true exactly if all of them are. -/
theorem eval_conjunction?_true_iff (h : ∀ p ∈ ps, p.TruthValued row) :
    (∀ e, conjunction? ps = some e → e.eval row = .ok (.boolean true)) ↔
      ∀ p ∈ ps, p.eval row = .ok (.boolean true) := by
  have htogether : (conjunction ps).eval row = .ok (.boolean true) ↔
      ∀ p ∈ ps, p.eval row = .ok (.boolean true) := by
    rw [eval_conjunction h, Except.ok.injEq]
    exact conjunction_valueOn_eq_true_iff fun p hp => ⟨_, (h p hp).exists_value⟩
  rw [← htogether, conjunction]
  cases conjunction? ps with
  | none =>
    refine iff_of_true (fun e he => ?_) rfl
    cases he
  | some e => simp

/-- What is put together can be taken apart again. -/
theorem truthValued_conjunction (h : ∀ p ∈ ps, p.TruthValued row) :
    (conjunction ps).TruthValued row := by
  have hparts : ∀ k ∈ conjunctsOf ps, k.TruthValued row := fun k hk =>
    truthValued_of_mem_conjunctsOf h hk
  unfold conjunction conjunction?
  dsimp only
  split
  · intro k hk
    obtain rfl := List.mem_singleton.mp hk
    exact ⟨.boolean false, rfl, rfl⟩
  · generalize conjunctsOf ps = parts at hparts
    match parts with
    | [] => exact fun k hk => absurd hk List.not_mem_nil
    | [part] => exact hparts part List.mem_cons_self
    | part :: part' :: rest =>
      intro k hk
      rw [Option.getD_some, call, conjuncts_apply_and] at hk
      obtain ⟨p, hp, hk⟩ := List.mem_flatMap.mp hk
      exact hparts p hp k hk

theorem conjunction?_eq_none_iff : conjunction? ps = none ↔ ∀ p ∈ ps, p.conjuncts = [] := by
  have hnil : conjunctsOf ps = [] ↔ ∀ p ∈ ps, p.conjuncts = [] := by
    rw [conjunctsOf_eq, List.flatMap_eq_nil_iff]
  rw [← hnil, conjunction?]
  generalize conjunctsOf ps = parts
  rcases parts with _ | ⟨part, _ | ⟨part', rest⟩⟩
  · exact iff_of_true rfl rfl
  all_goals
    dsimp only
    split <;> simp

/-- The conjuncts of a predicate may be put together in two groups, whatever the groups are. -/
theorem TruthValued.eval_regrouped (h : e.TruthValued row) {pushed kept : List Expr}
    (hgroups : (pushed ++ kept).Perm e.conjuncts) :
    (conjunction (pushed ++ kept)).eval row = e.eval row ∧
      (conjunction [conjunction pushed, conjunction kept]).eval row = e.eval row := by
  have hparts : ∀ k ∈ pushed ++ kept, k.TruthValued row := fun k hk =>
    h.of_mem_conjuncts (hgroups.mem_iff.mp hk)
  have hpushed : ∀ k ∈ pushed, k.TruthValued row := fun k hk => hparts k (List.mem_append_left _ hk)
  have hkept : ∀ k ∈ kept, k.TruthValued row := fun k hk => hparts k (List.mem_append_right _ hk)
  have hvalue : Value.conjunction ((pushed ++ kept).map (valueOn row)) =
      Value.conjunction (e.conjuncts.map (valueOn row)) :=
    Value.conjunction_perm (hgroups.map _)
  refine ⟨by rw [eval_conjunction hparts, hvalue, h.eval_eq], ?_⟩
  have hgrouped : ∀ p ∈ [conjunction pushed, conjunction kept], p.TruthValued row :=
    List.forall_mem_cons.mpr ⟨truthValued_conjunction hpushed,
      List.forall_mem_singleton.mpr (truthValued_conjunction hkept)⟩
  rw [eval_conjunction hgrouped, List.map_cons, List.map_cons, List.map_nil,
    valueOn_of_eval (eval_conjunction hpushed), valueOn_of_eval (eval_conjunction hkept),
    ← Value.conjunction_append, ← List.map_append, hvalue, h.eval_eq]

/-- Predicates whose conjuncts have truth values on a row have truth values there. Put together, also
where nothing is made of them if no conjunct is left, they have the three-valued conjunction of these;
and what a predicate is split into for any set of columns has the value of the predicate once it is put
together again, at once or part by part. -/
theorem conjunctions_keep_value (h : ∀ p ∈ ps, p.TruthValued row) :
    ∃ vs, List.Forall₂ (fun p v => p.eval row = .ok v ∧ v.isTruth = true) ps vs ∧
      (conjunction ps).eval row = .ok (Value.conjunction vs) ∧
      (conjunction? ps = none ↔ ∀ p ∈ ps, p.conjuncts = []) ∧
      (∀ e, conjunction? ps = some e → e.eval row = .ok (Value.conjunction vs)) ∧
      ∀ p ∈ ps, ∀ available pushed kept, splitBy available (some p) = (pushed, kept) →
        (conjunction (pushed ++ kept)).eval row = p.eval row ∧
        (conjunction [conjunction pushed, conjunction kept]).eval row = p.eval row := by
  refine ⟨ps.map (valueOn row), ?_, eval_conjunction h, conjunction?_eq_none_iff, ?_, ?_⟩
  · exact List.forall₂_map_right_iff.mpr (List.forall₂_same.mpr fun p hp => (h p hp).exists_value)
  · intro e he
    rw [← eval_conjunction h, conjunction, he, Option.getD_some]
  · intro p hp available pushed kept hsplit
    rw [splitBy, List.partition_eq_filter_filter] at hsplit
    cases hsplit
    exact (h p hp).eval_regrouped (List.filter_append_perm _ _)

/-- Loans of more than 30 days by the reader with number 5. -/
def lateLoanOfReader : Expr :=
  call .and [call .greaterThan [column 0 .bigint, literal (.integer 30)],
    call .and [bool true, call .equals [column 1 .bigint, literal (.integer 5)]]]

/-- Of a late loan whose reader is not known it is unknown. -/
theorem conjunctions_keep_value_lateLoanOfReader :
    (conjunction [lateLoanOfReader, bool true]).eval [.integer 40, .null] = .ok .null ∧
    (conjunction [conjunction (splitBy (.ofList [0]) (some lateLoanOfReader)).1,
      conjunction (splitBy (.ofList [0]) (some lateLoanOfReader)).2]).eval [.integer 40, .null] =
        .ok .null := by
  have hunknown : lateLoanOfReader.eval [.integer 40, .null] = .ok .null := rfl
  have htruth : ∀ p ∈ [lateLoanOfReader, bool true], p.TruthValued [.integer 40, .null] := by
    refine List.forall_mem_cons.mpr ⟨?_, List.forall_mem_singleton.mpr fun k hk => nomatch hk⟩
    exact List.forall_mem_cons.mpr ⟨⟨_, rfl, rfl⟩, List.forall_mem_singleton.mpr ⟨_, rfl, rfl⟩⟩
  obtain ⟨vs, hvs, hconjunction, -, -, hsplit⟩ := conjunctions_keep_value htruth
  constructor
  · obtain _ | ⟨⟨hv, -⟩, _ | ⟨⟨hw, -⟩, _ | _⟩⟩ := hvs
    cases hunknown.symm.trans hv
    cases hw
    exact hconjunction
  · exact ((hsplit lateLoanOfReader List.mem_cons_self (.ofList [0]) _ _ rfl).2).trans hunknown

end Expr

end QueryPlan
