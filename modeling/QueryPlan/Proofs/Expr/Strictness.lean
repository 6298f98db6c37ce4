import QueryPlan.Proofs.Expr.Equality
/-!
# Errors of conjunctions

A conjunction is read from left to right up to its first FALSE. So taking a predicate apart and
putting its conjuncts together again keeps not only when it is true but also when it fails, and
conjuncts that are true may be left out. `DecidedOn` says of predicates that, read in sequence, they
have a value on a row.
-/
namespace QueryPlan

namespace Outcome

/-- What comes of an outcome before the rest of a conjunction is read. `unknown` says whether a null
was seen before it. -/
def andThen (unknown : Bool) (o : Outcome) (rest : Bool → Outcome) : Outcome :=
  match o with
  | .error e => .error e
  | .ok (.boolean false) => .ok (.boolean false)
  | .ok .null => rest true
  | .ok _ => rest unknown

theorem allOf_cons (unknown : Bool) (o : Outcome) (os : List Outcome) :
    allOf unknown (o :: os) = andThen unknown o fun u => allOf u os := by
  rcases o with e | v
  · rfl
  · cases v with
    | boolean b => cases b <;> rfl
    | _ => rfl

/-- A truth value alone is its own conjunction. -/
theorem allOf_singleton {o : Outcome} (h : o.isTruth = true) : allOf false [o] = o := by
  rcases o with e | v
  · rfl
  · cases v with
    | boolean b => cases b <;> rfl
    | null => rfl
    | _ => cases h

theorem andThen_andThen_unknown {unknown : Bool} {o : Outcome} {rest : Bool → Outcome} :
    andThen unknown (andThen true o fun _ => .ok .null) rest = andThen true o rest := by
  rcases o with e | v
  · rfl
  · cases v with
    | boolean b => cases b <;> rfl
    | _ => rfl

/-- A null seen before a conjunction matters only if nothing in it decides. -/
theorem allOf_true (os : List Outcome) :
    allOf true os = andThen true (allOf false os) fun _ => .ok .null := by
  induction os with
  | nil => rfl
  | cons o os ih =>
    rw [allOf_cons, allOf_cons]
    rcases o with e | v
    · rfl
    · cases v with
      | boolean b =>
        cases b with
        | false => rfl
        | true => exact ih
      | null =>
        show allOf true os = andThen true (allOf true os) fun _ => .ok .null
        rw [ih, andThen_andThen_unknown]
      | _ => exact ih

/-- A conjunction may be read in two parts. -/
theorem allOf_append (unknown : Bool) (os os' : List Outcome) :
    allOf unknown (os ++ os') = andThen unknown (allOf false os) fun u => allOf u os' := by
  induction os generalizing unknown with
  | nil => rfl
  | cons o os ih =>
    rw [List.cons_append, allOf_cons, allOf_cons]
    rcases o with e | v
    · rfl
    · cases v with
      | boolean b =>
        cases b with
        | false => rfl
        | true => exact ih unknown
      | null =>
        show allOf true (os ++ os') = andThen unknown (allOf true os) fun u => allOf u os'
        rw [ih, allOf_true os, andThen_andThen_unknown]
      | _ => exact ih unknown

end Outcome

namespace Expr

variable {row : List Outcome}

/-! ## Conjuncts -/

theorem allOf_flatMap_conjuncts {es : List Expr}
    (h : ∀ e ∈ es, Outcome.allOf false (e.conjuncts.map (evalOn row)) = e.evalOn row)
    (unknown : Bool) :
    Outcome.allOf unknown ((es.flatMap conjuncts).map (evalOn row)) =
      Outcome.allOf unknown (es.map (evalOn row)) := by
  induction es generalizing unknown with
  | nil => rfl
  | cons e es ih =>
    obtain ⟨he, hes⟩ := List.forall_mem_cons.mp h
    rw [List.flatMap_cons, List.map_append, List.map_cons, Outcome.allOf_append, Outcome.allOf_cons,
      he]
    exact congrArg _ (funext fun u => ih hes u)

/-- A condition splits on a row if its conjuncts have truth values there, as far as they have values. -/
def splitsOn (row : List Outcome) (e : Expr) : Bool :=
  e.conjuncts.all fun k => (k.evalOn row).isTruth

theorem splitsOn_iff {e : Expr} :
    e.splitsOn row = true ↔ ∀ k ∈ e.conjuncts, (k.evalOn row).isTruth = true :=
  List.all_eq_true

theorem splitsOn_of_isPredicateOn {e : Expr} (h : e.isPredicateOn row = true) :
    e.splitsOn row = true :=
  splitsOn_iff.mpr fun _ hk => (isPredicateOn_iff.mp (isPredicateOn_of_mem_conjuncts h hk)).1

/-- The conjuncts of a condition, read in sequence, have its outcome. -/
theorem allOf_conjuncts {e : Expr} (h : e.splitsOn row = true) :
    Outcome.allOf false (e.conjuncts.map (evalOn row)) = e.evalOn row := by
  induction e using induct_and with
  | and es t ih =>
    rw [conjuncts_apply_and, allOf_flatMap_conjuncts, evalOn, evalOnEach_eq]
    · rfl
    · refine fun e he => ih e he (splitsOn_iff.mpr fun k hk => splitsOn_iff.mp h k ?_)
      rw [conjuncts_apply_and]
      exact List.mem_flatMap_of_mem he hk
  | other e hne =>
    rw [splitsOn, conjuncts_of_not_and hne] at h
    rw [conjuncts_of_not_and hne]
    split at h
    · next htrue =>
      rw [if_pos htrue, eq_of_isAlwaysTrue htrue]
      rfl
    · next hother =>
      rw [if_neg hother]
      exact Outcome.allOf_singleton (List.all_eq_true.mp h e List.mem_cons_self)

theorem isTruth_of_splitsOn {e : Expr} (h : e.splitsOn row = true) : (e.evalOn row).isTruth = true := by
  rw [← allOf_conjuncts h]
  exact Outcome.isTruth_allOf _ _

/-- A condition that splits is true of a row if all of its conjuncts are. -/
theorem all_holdsOn_of_splitsOn {e : Expr} (h : e.splitsOn row = true) :
    e.conjuncts.all (holdsOn row) = e.holdsOn row := by
  have htruth : ∀ o ∈ e.conjuncts.map (evalOn row), o.isTruth = true := by
    intro o ho
    obtain ⟨k, hk, rfl⟩ := List.mem_map.mp ho
    exact splitsOn_iff.mp h k hk
  rw [holdsOn, ← allOf_conjuncts h, Outcome.isTrue_allOf htruth, List.all_map]
  rfl

/-- What conditions that split are put together to has their outcome in sequence, unless a literal FALSE
among the conjuncts decides it before anything is read. -/
theorem evalOn_conjunction {ps : List Expr} (h : ∀ p ∈ ps, p.splitsOn row = true) :
    (conjunction ps).evalOn row =
      if (conjunctsOf ps).any isAlwaysFalse then .ok (.boolean false)
      else Outcome.allOf false (ps.map (evalOn row)) := by
  have hparts : Outcome.allOf false ((conjunctsOf ps).map (evalOn row)) =
      Outcome.allOf false (ps.map (evalOn row)) := by
    rw [conjunctsOf_eq, allOf_flatMap_conjuncts fun p hp => allOf_conjuncts (h p hp)]
  have htruth : ∀ k ∈ conjunctsOf ps, (k.evalOn row).isTruth = true := by
    intro k hk
    rw [conjunctsOf_eq] at hk
    obtain ⟨p, hp, hk⟩ := List.mem_flatMap.mp hk
    exact splitsOn_iff.mp (h p hp) k hk
  rw [conjunction, Expr.conjunction?]
  split
  · rfl
  · rw [← hparts]
    generalize conjunctsOf ps = parts at htruth
    match parts with
    | [] => rfl
    | [part] => exact (Outcome.allOf_singleton (htruth part List.mem_cons_self)).symm
    | part :: part' :: rest =>
      rw [Option.getD_some, call, evalOn, evalOnEach_eq]
      rfl

/-- It is true where all of them are. -/
theorem holdsOn_conjunction {ps : List Expr} (h : ∀ p ∈ ps, p.splitsOn row = true) :
    (conjunction ps).holdsOn row = ps.all (holdsOn row) := by
  rw [holdsOn, evalOn_conjunction h]
  split
  · next hfalse =>
    obtain ⟨k, hk, hkfalse⟩ := List.any_eq_true.mp hfalse
    rw [conjunctsOf_eq] at hk
    obtain ⟨p, hp, hk⟩ := List.mem_flatMap.mp hk
    symm
    show _ = false
    rw [List.all_eq_false]
    refine ⟨p, hp, ?_⟩
    rw [← all_holdsOn_of_splitsOn (h p hp), Bool.not_eq_true, List.all_eq_false]
    exact ⟨k, hk, by rw [holdsOn_of_isAlwaysFalse hkfalse]; exact Bool.false_ne_true⟩
  · have htruth : ∀ o ∈ ps.map (evalOn row), o.isTruth = true := by
      intro o ho
      obtain ⟨p, hp, rfl⟩ := List.mem_map.mp ho
      exact isTruth_of_splitsOn (h p hp)
    rw [Outcome.isTrue_allOf htruth, List.all_map]
    rfl

/-! ## Predicates with a value -/

/-- Predicates that have a value on the row when they are read from left to right up to the first
FALSE. -/
structure DecidedOn (row : List Outcome) (ps : List Expr) : Prop where
  predicates : ∀ p ∈ ps, p.isPredicateOn row = true
  value : ∃ v, Outcome.allOf false (ps.map (evalOn row)) = .ok v

/-- A predicate with a value has decided conjuncts. -/
theorem decidedOn_conjuncts {e : Expr} (h : e.isPredicateOn row = true)
    (hvalue : ∃ v, e.evalOn row = .ok v) : DecidedOn row e.conjuncts where
  predicates _ hk := isPredicateOn_of_mem_conjuncts h hk
  value := by
    rw [allOf_conjuncts (splitsOn_of_isPredicateOn h)]
    exact hvalue

/-- What decided predicates are put together to has a value. -/
theorem DecidedOn.conjunction? {ps : List Expr} (h : DecidedOn row ps) {e : Expr}
    (he : conjunction? ps = some e) : ∃ v, e.evalOn row = .ok v := by
  have hparts : ∃ v, Outcome.allOf false ((conjunctsOf ps).map (evalOn row)) = .ok v := by
    rw [conjunctsOf_eq, allOf_flatMap_conjuncts fun p hp =>
      allOf_conjuncts (splitsOn_of_isPredicateOn (h.predicates p hp))]
    exact h.value
  have hpredicates : ∀ k ∈ conjunctsOf ps, k.isPredicateOn row = true := fun k hk =>
    isPredicateOn_of_mem_conjunctsOf h.predicates hk
  unfold Expr.conjunction? at he
  dsimp only at he
  split at he
  · cases he
    exact ⟨.boolean false, rfl⟩
  · split at he
    · cases he
    · next k hk =>
      cases he
      rw [hk] at hparts hpredicates
      rw [← Outcome.allOf_singleton (isPredicateOn_iff.mp (hpredicates e (by simp))).1]
      exact hparts
    · cases he
      rw [call, evalOn, evalOnEach_eq]
      exact hparts

/-- Predicates that hold may be left out. -/
theorem DecidedOn.filter {ps : List Expr} (h : DecidedOn row ps) {kept : Expr → Bool}
    (hdropped : ∀ p ∈ ps, kept p = false → p.holdsOn row = true) :
    DecidedOn row (ps.filter kept) where
  predicates p hp := h.predicates p (List.mem_of_mem_filter hp)
  value := by
    suffices ∀ unknown, Outcome.allOf unknown ((ps.filter kept).map (evalOn row)) =
        Outcome.allOf unknown (ps.map (evalOn row)) by
      rw [this]
      exact h.value
    clear h
    induction ps with
    | nil => exact fun _ => rfl
    | cons p ps ih =>
      intro unknown
      obtain ⟨hp, hps⟩ := List.forall_mem_cons.mp hdropped
      rw [List.filter_cons]
      by_cases hkept : kept p = true
      · rw [if_pos hkept, List.map_cons, List.map_cons, Outcome.allOf_cons, Outcome.allOf_cons]
        exact congrArg _ (funext fun u => ih hps u)
      · -- an operand that is TRUE passes on what is known
        have htrue := hp (by simpa using hkept)
        rw [holdsOn] at htrue
        rw [if_neg hkept, ih hps, List.map_cons, Outcome.allOf_cons]
        rcases hvalue : evalOn row p with err | v
        · rw [hvalue] at htrue
          cases htrue
        · rw [hvalue] at htrue
          cases v with
          | boolean b =>
            cases htrue
            rfl
          | _ => cases htrue

/-- Predicates with the outcomes of decided ones on another row are decided there. -/
theorem DecidedOn.restate {row' : List Outcome} {ps ps' : List Expr}
    (h : DecidedOn row ps) (hps : ps'.map (evalOn row') = ps.map (evalOn row))
    (hpredicates : ∀ p ∈ ps', p.isPredicateOn row' = true) : DecidedOn row' ps' where
  predicates := hpredicates
  value := by
    rw [hps]
    exact h.value

end Expr
end QueryPlan
