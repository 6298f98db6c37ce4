import QueryPlan.Proofs.Expr.Substitution
/-!
# Predicates and their conjuncts

A conjunction counts an operand that is neither Boolean nor null as TRUE, while a filter on that
operand alone drops the row. So a predicate is true of a row exactly if all of its conjuncts are
only where the operands of every conjunction in it are truth values: `andsTruthful` says so of an
expression on a row.
-/
namespace QueryPlan

namespace Outcome

/-- A Boolean or null, if there is a value at all. -/
def isTruth : Outcome → Bool
  | .ok (.boolean _) | .ok .null | .error _ => true
  | _ => false

/-- The Boolean TRUE. -/
def isTrue : Outcome → Bool
  | .ok (.boolean b) => b
  | _ => false

theorem isTruth_allOf (unknown : Bool) (outcomes : List Outcome) :
    (allOf unknown outcomes).isTruth = true := by
  fun_induction allOf unknown outcomes with
  | case1 unknown => cases unknown <;> rfl
  | case2 => rfl
  | case3 => rfl
  | case4 _ _ ih => exact ih
  | case5 _ _ _ _ _ ih => exact ih

theorem isTruth_anyOf (unknown : Bool) (outcomes : List Outcome) :
    (anyOf unknown outcomes).isTruth = true := by
  fun_induction anyOf unknown outcomes with
  | case1 unknown => cases unknown <;> rfl
  | case2 => rfl
  | case3 => rfl
  | case4 _ _ ih => exact ih
  | case5 _ _ _ _ _ ih => exact ih

/-- A conjunction that no operand decides is TRUE, or unknown because an operand or what came before
it is. -/
theorem allOf_cases (unknown : Bool) (outcomes : List Outcome) :
    allOf unknown outcomes ∈ outcomes ∨ allOf unknown outcomes = .ok (.boolean true) ∨
      allOf unknown outcomes = .ok .null ∧ (unknown = true ∨ .ok .null ∈ outcomes) := by
  fun_induction allOf unknown outcomes with
  | case1 unknown => cases unknown <;> simp
  | case2 unknown e rest => exact .inl List.mem_cons_self
  | case3 unknown rest => exact .inl List.mem_cons_self
  | case4 unknown rest ih =>
    rcases ih with h | h | ⟨h, -⟩
    · exact .inl (List.mem_cons_of_mem _ h)
    · exact .inr (.inl h)
    · exact .inr (.inr ⟨h, .inr List.mem_cons_self⟩)
  | case5 unknown v rest _ _ ih =>
    rcases ih with h | h | ⟨h, hunknown⟩
    · exact .inl (List.mem_cons_of_mem _ h)
    · exact .inr (.inl h)
    · exact .inr (.inr ⟨h, hunknown.imp_right (List.mem_cons_of_mem _)⟩)

theorem anyOf_cases (unknown : Bool) (outcomes : List Outcome) :
    anyOf unknown outcomes ∈ outcomes ∨ anyOf unknown outcomes = .ok (.boolean false) ∨
      anyOf unknown outcomes = .ok .null ∧ (unknown = true ∨ .ok .null ∈ outcomes) := by
  fun_induction anyOf unknown outcomes with
  | case1 unknown => cases unknown <;> simp
  | case2 unknown e rest => exact .inl List.mem_cons_self
  | case3 unknown rest => exact .inl List.mem_cons_self
  | case4 unknown rest ih =>
    rcases ih with h | h | ⟨h, -⟩
    · exact .inl (List.mem_cons_of_mem _ h)
    · exact .inr (.inl h)
    · exact .inr (.inr ⟨h, .inr List.mem_cons_self⟩)
  | case5 unknown v rest _ _ ih =>
    rcases ih with h | h | ⟨h, hunknown⟩
    · exact .inl (List.mem_cons_of_mem _ h)
    · exact .inr (.inl h)
    · exact .inr (.inr ⟨h, hunknown.imp_right (List.mem_cons_of_mem _)⟩)

/-- A conjunction of truth values is true if all of them are. -/
theorem isTrue_allOf {unknown : Bool} {outcomes : List Outcome}
    (h : ∀ o ∈ outcomes, o.isTruth = true) :
    (allOf unknown outcomes).isTrue = (!unknown && outcomes.all isTrue) := by
  fun_induction allOf unknown outcomes with
  | case1 unknown => cases unknown <;> rfl
  | case2 unknown e rest => simp [isTrue]
  | case3 unknown rest => simp [isTrue]
  | case4 unknown rest ih =>
    rw [ih fun o ho => h o (List.mem_cons_of_mem _ ho)]
    simp [isTrue]
  | case5 unknown v rest hfalse hnull ih =>
    have hv := h (.ok v) List.mem_cons_self
    rw [ih fun o ho => h o (List.mem_cons_of_mem _ ho)]
    cases v with
    | boolean b =>
      cases b with
      | true => simp [isTrue]
      | false => exact absurd rfl hfalse
    | null => exact absurd rfl hnull
    | _ => cases hv

end Outcome

namespace Expr

mutual

/-- On the row, the operands of every conjunction within the expression are truth values. -/
def andsTruthful (row : List Outcome) : Expr → Bool
  | apply op es _ => (op != .and || (evalOnEach row es).all Outcome.isTruth) && areAndsTruthful row es
  | _ => true

/-- The same of every expression of a list. -/
def areAndsTruthful (row : List Outcome) : List Expr → Bool
  | [] => true
  | e :: es => andsTruthful row e && areAndsTruthful row es

end

theorem areAndsTruthful_iff {row : List Outcome} {es : List Expr} :
    areAndsTruthful row es = true ↔ ∀ e ∈ es, e.andsTruthful row = true := by
  induction es with
  | nil => simp [areAndsTruthful]
  | cons e es ih => simp [areAndsTruthful, ih]

theorem andsTruthful_apply {row : List Outcome} {op : Op} {es : List Expr} {t : DataType} :
    (apply op es t).andsTruthful row = true ↔
      (op = .and → ∀ e ∈ es, (e.evalOn row).isTruth = true) ∧
        ∀ e ∈ es, e.andsTruthful row = true := by
  rw [andsTruthful, Bool.and_eq_true, areAndsTruthful_iff, evalOnEach_eq]
  by_cases hop : op = .and
  · simp [hop]
  · simp [hop]

/-- A predicate on a row: its value, if it has one, is a truth value, and so are those of the
operands of the conjunctions in it. -/
def isPredicateOn (row : List Outcome) (e : Expr) : Bool :=
  (e.evalOn row).isTruth && e.andsTruthful row

theorem isPredicateOn_iff {row : List Outcome} {e : Expr} :
    e.isPredicateOn row = true ↔ (e.evalOn row).isTruth = true ∧ e.andsTruthful row = true := by
  rw [isPredicateOn, Bool.and_eq_true]

/-- Whether a predicate is true of a row. -/
def holdsOn (row : List Outcome) (e : Expr) : Bool := (e.evalOn row).isTrue

/-- A predicate on a row of values is true of it if it is `satisfied`. -/
theorem satisfied_eq_ok {row : Row} {e : Expr} {b : Bool} (h : e.satisfied row = .ok b) :
    e.holdsOn (row.map .ok) = b := by
  unfold satisfied at h
  rw [holdsOn, evalOn_map_ok]
  cases hv : e.eval row with
  | error err =>
    rw [hv] at h
    cases h
  | ok v =>
    rw [hv] at h
    cases h
    cases v <;> rfl

/-! ## Literal truth values -/

theorem eq_of_isAlwaysTrue {e : Expr} (h : e.isAlwaysTrue = true) : e = bool true := by
  cases e with
  | literal v =>
    cases v with
    | boolean b => cases h; rfl
    | _ => cases h
  | _ => cases h

theorem eq_of_isAlwaysFalse {e : Expr} (h : e.isAlwaysFalse = true) : e = bool false := by
  cases e with
  | literal v =>
    cases v with
    | boolean b =>
      cases b with
      | true => cases h
      | false => rfl
    | _ => cases h
  | _ => cases h

theorem holdsOn_of_isAlwaysFalse {row : List Outcome} {e : Expr} (h : e.isAlwaysFalse = true) :
    e.holdsOn row = false := by
  rw [eq_of_isAlwaysFalse h]
  rfl

/-! ## Taking predicates apart -/

theorem conjuncts_apply_and (es : List Expr) (t : DataType) :
    (apply .and es t).conjuncts = es.flatMap conjuncts := by
  rw [conjuncts, conjunctsOf_eq]

theorem conjuncts_of_not_and {e : Expr} (h : ∀ es t, e ≠ apply .and es t) :
    e.conjuncts = if e.isAlwaysTrue then [] else [e] := by
  unfold conjuncts
  split
  · next es t => exact absurd rfl (h es t)
  · rfl

/-- Induction over a predicate along its conjunctions. -/
theorem induct_and {motive : Expr → Prop}
    (and : ∀ es t, (∀ e ∈ es, motive e) → motive (apply .and es t))
    (other : ∀ e, (∀ es t, e ≠ apply .and es t) → motive e) (e : Expr) : motive e := by
  induction e using induct with
  | column i t => exact other _ fun es t h => by cases h
  | literal v => exact other _ fun es t h => by cases h
  | apply op es t ih =>
    by_cases hop : op = .and
    · subst hop
      exact and es t ih
    · exact other _ fun es' t' h => by cases h; exact hop rfl
  | tableColumn r i t => exact other _ fun es t h => by cases h

/-! ## Conjuncts of conjuncts -/

/-- A conjunct has no conjuncts but itself. -/
theorem conjuncts_of_mem_conjuncts {e k : Expr} (hk : k ∈ e.conjuncts) : k.conjuncts = [k] := by
  induction e using induct_and with
  | and es t ih =>
    rw [conjuncts_apply_and] at hk
    obtain ⟨e, he, hk⟩ := List.mem_flatMap.mp hk
    exact ih e he hk
  | other e hne =>
    have hconjuncts := conjuncts_of_not_and hne
    rw [hconjuncts] at hk
    split at hk
    · cases hk
    · next htrue =>
      obtain rfl := List.mem_singleton.mp hk
      rw [hconjuncts, if_neg htrue]

theorem conjunctsOf_eq_self {ps : List Expr} (hps : ∀ p ∈ ps, p.conjuncts = [p]) :
    conjunctsOf ps = ps := by
  rw [conjunctsOf_eq, List.flatMap_congr hps]
  exact List.flatMap_singleton' ps

/-- The conjunction of predicates that cannot be taken apart has no more conjuncts than these are. -/
theorem length_conjuncts_conjunction? {ps : List Expr} {e : Expr} (hps : ∀ p ∈ ps, p.conjuncts = [p])
    (h : conjunction? ps = some e) : e.conjuncts.length ≤ ps.length := by
  have hparts := conjunctsOf_eq_self hps
  unfold conjunction? at h
  dsimp only at h
  rw [hparts] at h
  split at h
  · next hfalse =>
    cases h
    obtain ⟨p, hp, -⟩ := List.any_eq_true.mp hfalse
    exact List.length_pos_of_mem hp
  · split at h
    · cases h
    · cases h
      exact Nat.le_of_eq (congrArg List.length (hps _ List.mem_cons_self))
    · cases h
      have hconjuncts : (call .and ps).conjuncts = ps := by
        rw [call, conjuncts_apply_and, ← conjunctsOf_eq, hparts]
      exact Nat.le_of_eq (congrArg List.length hconjuncts)

/-- Replacing columns by columns takes the conjuncts along. -/
theorem conjuncts_mapColumns {g : Nat → Nat} {e : Expr} :
    (e.mapColumns fun i t => column (g i) t).conjuncts =
      e.conjuncts.map (mapColumns fun i t => column (g i) t) := by
  induction e using induct_and with
  | and es t ih =>
    rw [mapColumns, mapColumnsEach_eq, conjuncts_apply_and, conjuncts_apply_and, List.flatMap_map,
      List.map_flatMap]
    exact List.flatMap_congr ih
  | other e hne =>
    cases e with
    | literal v =>
      rw [mapColumns, conjuncts_of_not_and hne]
      split <;> rfl
    | apply op es t =>
      rw [conjuncts_of_not_and hne, mapColumns, conjuncts_of_not_and fun es' t' h => by
        cases h
        exact hne es t rfl]
      rfl
    | _ => rfl

/-! ## Predicates on a row -/

/-- Conjuncts of a predicate are predicates. -/
theorem isPredicateOn_of_mem_conjuncts {row : List Outcome} {e k : Expr}
    (h : e.isPredicateOn row = true) (hk : k ∈ e.conjuncts) : k.isPredicateOn row = true := by
  induction e using induct_and with
  | and es t ih =>
    obtain ⟨-, hands⟩ := isPredicateOn_iff.mp h
    obtain ⟨htruth, hands⟩ := andsTruthful_apply.mp hands
    rw [conjuncts_apply_and] at hk
    obtain ⟨e, he, hk⟩ := List.mem_flatMap.mp hk
    exact ih e he (isPredicateOn_iff.mpr ⟨htruth rfl e he, hands e he⟩) hk
  | other e hne =>
    rw [conjuncts_of_not_and hne] at hk
    split at hk
    · cases hk
    · rw [List.mem_singleton.mp hk]
      exact h

/-- A predicate is true of a row if all of its conjuncts are. -/
theorem all_holdsOn_conjuncts {row : List Outcome} {e : Expr} (h : e.isPredicateOn row = true) :
    e.conjuncts.all (holdsOn row) = e.holdsOn row := by
  induction e using induct_and with
  | and es t ih =>
    obtain ⟨-, hands⟩ := isPredicateOn_iff.mp h
    obtain ⟨htruth, hands⟩ := andsTruthful_apply.mp hands
    have hes : ∀ e ∈ es, e.conjuncts.all (holdsOn row) = e.holdsOn row := fun e he =>
      ih e he (isPredicateOn_iff.mpr ⟨htruth rfl e he, hands e he⟩)
    have hall : (apply .and es t).holdsOn row = es.all (holdsOn row) := by
      rw [holdsOn, evalOn, evalOnEach_eq]
      show (Outcome.allOf false _).isTrue = _
      rw [Outcome.isTrue_allOf]
      · rw [List.all_map]
        rfl
      · intro o ho
        obtain ⟨e, he, rfl⟩ := List.mem_map.mp ho
        exact htruth rfl e he
    rw [conjuncts_apply_and, List.all_flatMap, hall, Bool.eq_iff_iff, List.all_eq_true,
      List.all_eq_true]
    constructor
    · intro hconj e he
      rw [← hes e he]
      exact hconj e he
    · intro hhold e he
      rw [hes e he]
      exact hhold e he
  | other e hne =>
    rw [conjuncts_of_not_and hne]
    split
    · next htrue =>
      rw [eq_of_isAlwaysTrue htrue]
      rfl
    · simp

theorem columnList_of_mem_conjuncts {e k : Expr} (hk : k ∈ e.conjuncts) :
    ∀ i ∈ k.columnList, i ∈ e.columnList := by
  induction e using induct_and with
  | and es t ih =>
    intro i hi
    rw [conjuncts_apply_and] at hk
    obtain ⟨e, he, hk⟩ := List.mem_flatMap.mp hk
    exact mem_columnList_apply.mpr ⟨e, he, ih e he hk i hi⟩
  | other e hne =>
    rw [conjuncts_of_not_and hne] at hk
    split at hk
    · cases hk
    · rw [List.mem_singleton.mp hk]
      exact fun i hi => hi

/-! ## Putting predicates together -/

theorem all_holdsOn_conjunctsOf {row : List Outcome} {ps : List Expr}
    (h : ∀ p ∈ ps, p.isPredicateOn row = true) :
    (conjunctsOf ps).all (holdsOn row) = ps.all (holdsOn row) := by
  rw [conjunctsOf_eq, List.all_flatMap, Bool.eq_iff_iff, List.all_eq_true, List.all_eq_true]
  constructor
  · intro hconj p hp
    rw [← all_holdsOn_conjuncts (h p hp)]
    exact hconj p hp
  · intro hhold p hp
    rw [all_holdsOn_conjuncts (h p hp)]
    exact hhold p hp

theorem isPredicateOn_of_mem_conjunctsOf {row : List Outcome} {ps : List Expr} {k : Expr}
    (h : ∀ p ∈ ps, p.isPredicateOn row = true) (hk : k ∈ conjunctsOf ps) :
    k.isPredicateOn row = true := by
  rw [conjunctsOf_eq] at hk
  obtain ⟨p, hp, hk⟩ := List.mem_flatMap.mp hk
  exact isPredicateOn_of_mem_conjuncts (h p hp) hk

/-- What becomes of predicates that are put together. -/
theorem conjunction?_spec {row : List Outcome} {ps : List Expr}
    (h : ∀ p ∈ ps, p.isPredicateOn row = true) :
    match conjunction? ps with
    | none => ps.all (holdsOn row) = true
    | some e => e.isPredicateOn row = true ∧ e.holdsOn row = ps.all (holdsOn row) := by
  have hall := all_holdsOn_conjunctsOf h
  have hpreds : ∀ k ∈ conjunctsOf ps, k.isPredicateOn row = true := fun k hk =>
    isPredicateOn_of_mem_conjunctsOf h hk
  rw [← hall]
  unfold conjunction?
  dsimp only
  by_cases hfalse : (conjunctsOf ps).any isAlwaysFalse = true
  · rw [if_pos hfalse]
    obtain ⟨k, hk, hkfalse⟩ := List.any_eq_true.mp hfalse
    refine ⟨rfl, ?_⟩
    symm
    show _ = false
    rw [List.all_eq_false]
    exact ⟨k, hk, by simp [holdsOn_of_isAlwaysFalse hkfalse]⟩
  · rw [if_neg hfalse]
    generalize conjunctsOf ps = ks at hpreds
    match ks with
    | [] => rfl
    | [e] => exact ⟨hpreds e (by simp), by simp⟩
    | e :: e' :: es =>
      have htruth : ∀ o ∈ evalOnEach row (e :: e' :: es), o.isTruth = true := by
        intro o ho
        rw [evalOnEach_eq] at ho
        obtain ⟨k, hk, rfl⟩ := List.mem_map.mp ho
        exact (isPredicateOn_iff.mp (hpreds k hk)).1
      refine ⟨isPredicateOn_iff.mpr ⟨Outcome.isTruth_allOf _ _, andsTruthful_apply.mpr ⟨?_, ?_⟩⟩, ?_⟩
      · exact fun _ k hk => (isPredicateOn_iff.mp (hpreds k hk)).1
      · exact fun k hk => (isPredicateOn_iff.mp (hpreds k hk)).2
      · show (Outcome.allOf false (evalOnEach row (e :: e' :: es))).isTrue = _
        rw [Outcome.isTrue_allOf htruth, evalOnEach_eq, List.all_map]
        rfl

theorem conjunction_spec {row : List Outcome} {ps : List Expr}
    (h : ∀ p ∈ ps, p.isPredicateOn row = true) :
    (conjunction ps).isPredicateOn row = true ∧
      (conjunction ps).holdsOn row = ps.all (holdsOn row) := by
  have hspec := conjunction?_spec h
  unfold conjunction
  cases hc : conjunction? ps with
  | none =>
    rw [hc] at hspec
    exact ⟨rfl, hspec.symm⟩
  | some e =>
    rw [hc] at hspec
    exact hspec

/-! ## Replacing columns keeps predicates -/

theorem andsTruthful_mapColumns {f : Nat → DataType → Expr} {row row' : List Outcome} {e : Expr}
    (h : ∀ i ∈ e.columnList, ∀ t, evalOn row (f i t) = evalOn row' (column i t))
    (hf : ∀ i ∈ e.columnList, ∀ t, (f i t).andsTruthful row = true)
    (he : e.andsTruthful row' = true) : (e.mapColumns f).andsTruthful row = true := by
  induction e using induct with
  | column i t => exact hf i (by simp [columnList]) t
  | literal v => rfl
  | apply op es t ih =>
    obtain ⟨htruth, hands⟩ := andsTruthful_apply.mp he
    rw [mapColumns, mapColumnsEach_eq, andsTruthful_apply]
    have hcolumns : ∀ e ∈ es, ∀ i ∈ e.columnList, i ∈ (apply op es t).columnList :=
      fun e he i hi => mem_columnList_apply.mpr ⟨e, he, hi⟩
    refine ⟨fun hop k hk => ?_, fun k hk => ?_⟩
    · obtain ⟨e, he, rfl⟩ := List.mem_map.mp hk
      rw [evalOn_mapColumns fun i hi => h i (hcolumns e he i hi)]
      exact htruth hop e he
    · obtain ⟨e, he, rfl⟩ := List.mem_map.mp hk
      exact ih e he (fun i hi => h i (hcolumns e he i hi)) (fun i hi => hf i (hcolumns e he i hi))
        (hands e he)
  | tableColumn r i t => rfl

theorem mapColumns_column (e : Expr) : e.mapColumns column = e := by
  induction e using induct with
  | column i t => rfl
  | literal v => rfl
  | apply op es t ih =>
    rw [mapColumns, mapColumnsEach_eq, List.map_congr_left ih, List.map_id']
  | tableColumn r i t => rfl

theorem andsTruthful_congr {row row' : List Outcome} {e : Expr}
    (h : ∀ i ∈ e.columnList, ∀ t, evalOn row (column i t) = evalOn row' (column i t)) :
    e.andsTruthful row = e.andsTruthful row' := by
  have himplies : ∀ {row row' : List Outcome},
      (∀ i ∈ e.columnList, ∀ t, evalOn row (column i t) = evalOn row' (column i t)) →
        e.andsTruthful row' = true → e.andsTruthful row = true := by
    intro row row' h he
    have := andsTruthful_mapColumns h (fun _ _ _ => rfl) he
    rwa [mapColumns_column] at this
  rw [Bool.eq_iff_iff]
  exact ⟨himplies fun i hi t => (h i hi t).symm, himplies h⟩

/-- A predicate turned through a projection is one, if the projected expressions are truthful. -/
theorem andsTruthful_throughProjection {projected : List Expr} {e e' : Expr} {row : List Outcome}
    (h : e.throughProjection? projected = some e')
    (hprojected : ∀ p ∈ projected, p.andsTruthful row = true)
    (he : e.andsTruthful (projected.map (evalOn row)) = true) : e'.andsTruthful row = true := by
  obtain ⟨rfl, hcolumns⟩ := mapColumns?_eq_some h
  refine andsTruthful_mapColumns (fun i hi t => ?_) (fun i hi t => ?_) he
  · obtain ⟨-, p, hp⟩ := hcolumns i hi
    rw [hp, Option.getD_some, evalOn_column (by rw [List.getElem?_map, hp]; rfl)]
  · obtain ⟨-, p, hp⟩ := hcolumns i hi
    rw [hp, Option.getD_some]
    exact hprojected p (List.mem_of_getElem? hp)

theorem isPredicateOn_throughProjection {projected : List Expr} {e e' : Expr} {row : List Outcome}
    (h : e.throughProjection? projected = some e')
    (hprojected : ∀ p ∈ projected, p.andsTruthful row = true)
    (he : e.isPredicateOn (projected.map (evalOn row)) = true) : e'.isPredicateOn row = true := by
  rw [isPredicateOn_iff] at he ⊢
  rw [evalOn_throughProjection h]
  exact ⟨he.1, andsTruthful_throughProjection h hprojected he.2⟩

theorem holdsOn_throughProjection {projected : List Expr} {e e' : Expr} {row : List Outcome}
    (h : e.throughProjection? projected = some e') :
    e'.holdsOn row = e.holdsOn (projected.map (evalOn row)) := by
  rw [holdsOn, holdsOn, evalOn_throughProjection h]

/-! ## Predicates on a part of a row -/

section

variable {left right : List Outcome} {e : Expr}

theorem andsTruthful_append_left (h : ∀ i ∈ e.columnList, i < left.length) :
    e.andsTruthful (left ++ right) = e.andsTruthful left :=
  andsTruthful_congr fun i hi _ => evalOn_append_left fun j hj => by
    rw [columnList, List.mem_singleton] at hj
    exact hj ▸ h i hi

theorem isPredicateOn_append_left (h : ∀ i ∈ e.columnList, i < left.length) :
    e.isPredicateOn (left ++ right) = e.isPredicateOn left := by
  rw [isPredicateOn, isPredicateOn, evalOn_append_left h, andsTruthful_append_left h]

theorem holdsOn_append_left (h : ∀ i ∈ e.columnList, i < left.length) :
    e.holdsOn (left ++ right) = e.holdsOn left := by
  rw [holdsOn, holdsOn, evalOn_append_left h]

theorem andsTruthful_shift_neg (hwords : right.length ≤ UInt64.size)
    (h : ∀ i ∈ e.columnList, left.length ≤ i ∧ i < left.length + right.length)
    (he : e.andsTruthful (left ++ right) = true) :
    (e.shift (-(left.length : Int))).andsTruthful right = true := by
  refine andsTruthful_mapColumns (fun i hi t => ?_) (fun _ _ _ => rfl) he
  exact evalOn_shift_neg (e := column i t) hwords fun j hj => by
    rw [columnList, List.mem_singleton] at hj
    exact hj ▸ h i hi

theorem isPredicateOn_shift_neg (hwords : right.length ≤ UInt64.size)
    (h : ∀ i ∈ e.columnList, left.length ≤ i ∧ i < left.length + right.length)
    (he : e.isPredicateOn (left ++ right) = true) :
    (e.shift (-(left.length : Int))).isPredicateOn right = true := by
  rw [isPredicateOn_iff] at he ⊢
  rw [evalOn_shift_neg hwords h]
  exact ⟨he.1, andsTruthful_shift_neg hwords h he.2⟩

theorem holdsOn_shift_neg (hwords : right.length ≤ UInt64.size)
    (h : ∀ i ∈ e.columnList, left.length ≤ i ∧ i < left.length + right.length) :
    (e.shift (-(left.length : Int))).holdsOn right = e.holdsOn (left ++ right) := by
  rw [holdsOn, holdsOn, evalOn_shift_neg hwords h]

theorem andsTruthful_shift_length (hwords : left.length + right.length ≤ UInt64.size)
    (h : ∀ i ∈ e.columnList, i < right.length) (he : e.andsTruthful right = true) :
    (e.shift left.length).andsTruthful (left ++ right) = true := by
  refine andsTruthful_mapColumns (fun i hi t => ?_) (fun _ _ _ => rfl) he
  exact evalOn_shift_length (e := column i t) hwords fun j hj => by
    rw [columnList, List.mem_singleton] at hj
    exact hj ▸ h i hi

end

end Expr

end QueryPlan
