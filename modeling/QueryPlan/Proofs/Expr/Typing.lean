import QueryPlan.Proofs.Expr.Conjunction
/-!
# Typed expressions

An expression is typed over the columns that it reads if every column reference carries the type of its
column, and every operand of a conjunction in it is a condition. It stays so when its columns are replaced
by typed expressions of the same types, which is all that rules do to expressions besides taking
conjunctions apart and putting them together.
-/
namespace QueryPlan.Expr

/-- Whether the type is that of a truth value. -/
def isCondition (e : Expr) : Bool := e.dataType = .boolean || e.dataType = .null

mutual

/-- Whether columns have the types that the expression says, and operands of conjunctions are
conditions. -/
def isTyped (types : List DataType) : Expr → Bool
  | column i t => types[i]? = some t
  | apply op es _ => (op != .and || es.all isCondition) && areTyped types es
  | _ => true

/-- The same of every expression of a list. -/
def areTyped (types : List DataType) : List Expr → Bool
  | [] => true
  | e :: es => isTyped types e && areTyped types es

end

variable {types types' : List DataType} {e e' k : Expr} {es ps : List Expr}

theorem areTyped_iff : areTyped types es = true ↔ ∀ e ∈ es, e.isTyped types = true := by
  induction es with
  | nil => simp [areTyped]
  | cons e es ih => simp [areTyped, ih]

theorem isTyped_apply {op : Op} {t : DataType} : (apply op es t).isTyped types = true ↔
    (op = .and → ∀ e ∈ es, e.isCondition = true) ∧ ∀ e ∈ es, e.isTyped types = true := by
  rw [isTyped, Bool.and_eq_true, areTyped_iff]
  by_cases hop : op = .and
  · simp [hop]
  · simp [hop]

theorem isTyped_column {i : Nat} {t : DataType} :
    (column i t).isTyped types = true ↔ types[i]? = some t := by
  rw [isTyped, decide_eq_true_eq]

theorem isCondition_iff : e.isCondition = true ↔ e.dataType = .boolean ∨ e.dataType = .null := by
  rw [isCondition, Bool.or_eq_true, decide_eq_true_eq, decide_eq_true_eq]

theorem isCondition_congr (h : e'.dataType = e.dataType) : e'.isCondition = e.isCondition := by
  rw [isCondition, isCondition, h]

/-- A typed expression reads columns that are there. -/
theorem lt_of_isTyped (h : e.isTyped types = true) : ∀ i ∈ e.columnList, i < types.length := by
  induction e using induct with
  | column i t =>
    intro j hj
    rw [columnList, List.mem_singleton] at hj
    exact hj ▸ (List.getElem?_eq_some_iff.mp (isTyped_column.mp h)).1
  | literal v => exact fun i hi => absurd hi List.not_mem_nil
  | apply op es t ih =>
    intro i hi
    obtain ⟨e, he, hi⟩ := mem_columnList_apply.mp hi
    exact ih e he ((isTyped_apply.mp h).2 e he) i hi
  | tableColumn r j t => exact fun i hi => absurd hi List.not_mem_nil

theorem checkColumns_of_isTyped {arity : Nat} (what : String) (h : e.isTyped types = true)
    (harity : types.length = arity) : e.checkColumns what arity = .ok () := by
  have hnone : e.unknownColumn? arity = none := by
    refine List.find?_eq_none.mpr fun i hi => ?_
    have hlt := lt_of_isTyped h i (mem_columns.mp hi)
    simpa [harity] using hlt
  unfold checkColumns
  rw [hnone]

/-! ## Replacing columns -/

/-- With its columns replaced by typed expressions of their types, a typed expression is typed and keeps
its type. -/
theorem isTyped_mapColumns {f : Nat → DataType → Expr} (he : e.isTyped types = true)
    (h : ∀ i ∈ e.columnList, ∀ t, types[i]? = some t →
      (f i t).isTyped types' = true ∧ (f i t).dataType = t) :
    (e.mapColumns f).isTyped types' = true ∧ (e.mapColumns f).dataType = e.dataType := by
  induction e using induct with
  | column i t => exact h i (by simp [columnList]) t (isTyped_column.mp he)
  | literal v => exact ⟨rfl, rfl⟩
  | apply op es t ih =>
    obtain ⟨hconditions, htyped⟩ := isTyped_apply.mp he
    have hoperands : ∀ e ∈ es, (e.mapColumns f).isTyped types' = true ∧
        (e.mapColumns f).dataType = e.dataType := fun e he =>
      ih e he (htyped e he) fun i hi => h i (mem_columnList_apply.mpr ⟨e, he, hi⟩)
    rw [mapColumns, mapColumnsEach_eq]
    refine ⟨isTyped_apply.mpr ⟨fun hop k hk => ?_, fun k hk => ?_⟩, rfl⟩
    · obtain ⟨e, he, rfl⟩ := List.mem_map.mp hk
      rw [isCondition_congr (hoperands e he).2]
      exact hconditions hop e he
    · obtain ⟨e, he, rfl⟩ := List.mem_map.mp hk
      exact (hoperands e he).1
  | tableColumn r i t => exact ⟨rfl, rfl⟩

/-- Only the types of the columns that are read matter. -/
theorem isTyped_congr (he : e.isTyped types = true)
    (h : ∀ i ∈ e.columnList, ∀ t, types[i]? = some t → types'[i]? = some t) : e.isTyped types' = true := by
  have hmap := isTyped_mapColumns (f := column) he fun i hi t ht =>
    ⟨isTyped_column.mpr (h i hi t ht), rfl⟩
  rw [mapColumns_column] at hmap
  exact hmap.1

theorem mapColumns?_succeeds {f : Nat → DataType → Option Expr}
    (h : ∀ i ∈ e.columnList, ∀ t, ∃ p, f i t = some p) : ∃ e', e.mapColumns? f = some e' := by
  induction e using induct with
  | column i t => exact h i (by simp [columnList]) t
  | literal v => exact ⟨_, rfl⟩
  | apply op es t ih =>
    have hoperands : ∀ e ∈ es, ∃ e', e.mapColumns? f = some e' := fun e he =>
      ih e he fun i hi => h i (mem_columnList_apply.mpr ⟨e, he, hi⟩)
    choose! g hg using hoperands
    refine ⟨apply op (es.map g) t, ?_⟩
    rw [mapColumns?, mapColumnsEach?_eq, Outcome.mapM_eq_some_map hg]
    rfl
  | tableColumn r i t => exact ⟨_, rfl⟩

/-! ## Expressions through a projection -/

section

variable {projected : List Expr}

theorem throughProjection?_succeeds (he : e.isTyped (projected.map dataType) = true) :
    ∃ e', e.throughProjection? projected = some e' := by
  refine mapColumns?_succeeds fun i hi t => ?_
  have hlt := lt_of_isTyped he i hi
  rw [List.length_map] at hlt
  exact ⟨projected[i], List.getElem?_eq_getElem hlt⟩

/-- An expression over the outputs of a projection, turned into one over its input. -/
theorem isTyped_throughProjection (h : e.throughProjection? projected = some e')
    (he : e.isTyped (projected.map dataType) = true) (hprojected : ∀ p ∈ projected, p.isTyped types = true) :
    e'.isTyped types = true ∧ e'.dataType = e.dataType := by
  obtain ⟨rfl, -⟩ := mapColumns?_eq_some h
  refine isTyped_mapColumns he fun i hi t ht => ?_
  rw [List.getElem?_map] at ht
  obtain ⟨p, hp, rfl⟩ := Option.map_eq_some_iff.mp ht
  rw [hp]
  exact ⟨hprojected p (List.mem_of_getElem? hp), rfl⟩

end

/-! ## Expressions over one side of a join -/

section

variable {left right : List DataType}

theorem isTyped_of_append_left (he : e.isTyped (left ++ right) = true)
    (h : ∀ i ∈ e.columnList, i < left.length) : e.isTyped left = true := by
  refine isTyped_congr he fun i hi t ht => ?_
  rw [List.getElem?_append_left (h i hi)] at ht
  exact ht

theorem isTyped_append_left (he : e.isTyped left = true) : e.isTyped (left ++ right) = true := by
  refine isTyped_congr he fun i hi t ht => ?_
  rw [List.getElem?_append_left (lt_of_isTyped he i hi)]
  exact ht

theorem dataType_shift (offset : Int) (e : Expr) : (e.shift offset).dataType = e.dataType := by
  cases e <;> rfl

theorem isTyped_shift_neg (hwords : right.length ≤ UInt64.size) (he : e.isTyped (left ++ right) = true)
    (h : ∀ i ∈ e.columnList, left.length ≤ i) : (e.shift (-(left.length : Int))).isTyped right = true := by
  refine (isTyped_mapColumns he fun i hi t ht => ⟨isTyped_column.mpr ?_, rfl⟩).1
  have hlow := h i hi
  have hhigh := lt_of_isTyped he i hi
  rw [List.length_append] at hhigh
  rw [List.getElem?_append_right hlow] at ht
  have heq : ((i : Int) + -(left.length : Int)).toNat = i - left.length := by omega
  rw [shiftOrdinal_of_lt (by omega) (by omega), heq]
  exact ht

theorem isTyped_shift_length (hwords : left.length + right.length ≤ UInt64.size)
    (he : e.isTyped right = true) : (e.shift left.length).isTyped (left ++ right) = true := by
  refine (isTyped_mapColumns he fun i hi t ht => ⟨isTyped_column.mpr ?_, rfl⟩).1
  have hlt := lt_of_isTyped he i hi
  have heq : ((i : Int) + (left.length : Int)).toNat = i + left.length := by omega
  rw [shiftOrdinal_of_lt (by omega) (by omega), heq, List.getElem?_append_right (by omega),
    Nat.add_sub_cancel]
  exact ht

end

/-! ## Conjunctions -/

/-- A typed condition. -/
def isTypedCondition (types : List DataType) (e : Expr) : Bool := e.isCondition && e.isTyped types

theorem isTypedCondition_iff :
    e.isTypedCondition types = true ↔ e.isCondition = true ∧ e.isTyped types = true := by
  rw [isTypedCondition, Bool.and_eq_true]

theorem isTypedCondition_of_mem_conjuncts (h : e.isTypedCondition types = true) (hk : k ∈ e.conjuncts) :
    k.isTypedCondition types = true := by
  induction e using induct_and with
  | and es t ih =>
    obtain ⟨hconditions, htyped⟩ := isTyped_apply.mp (isTypedCondition_iff.mp h).2
    rw [conjuncts_apply_and] at hk
    obtain ⟨e, he, hk⟩ := List.mem_flatMap.mp hk
    exact ih e he (isTypedCondition_iff.mpr ⟨hconditions rfl e he, htyped e he⟩) hk
  | other e hne =>
    rw [conjuncts_of_not_and hne] at hk
    split at hk
    · cases hk
    · rw [List.mem_singleton.mp hk]
      exact h

theorem isTypedCondition_bool (b : Bool) : (bool b).isTypedCondition types = true := by
  cases b <;> rfl

theorem isTypedCondition_conjunction? (h : ∀ p ∈ ps, p.isTypedCondition types = true)
    (he : conjunction? ps = some e) : e.isTypedCondition types = true := by
  have hparts : ∀ k ∈ conjunctsOf ps, k.isTypedCondition types = true := by
    intro k hk
    rw [conjunctsOf_eq] at hk
    obtain ⟨p, hp, hk⟩ := List.mem_flatMap.mp hk
    exact isTypedCondition_of_mem_conjuncts (h p hp) hk
  unfold conjunction? at he
  dsimp only at he
  split at he
  · cases he
    exact isTypedCondition_bool false
  · generalize conjunctsOf ps = ks at he hparts
    match ks with
    | [] => cases he
    | [k] =>
      cases he
      exact hparts _ List.mem_cons_self
    | k :: k' :: ks =>
      cases he
      refine isTypedCondition_iff.mpr ⟨rfl, isTyped_apply.mpr ⟨fun _ k hk => ?_, fun k hk => ?_⟩⟩
      · exact (isTypedCondition_iff.mp (hparts k hk)).1
      · exact (isTypedCondition_iff.mp (hparts k hk)).2

theorem isTypedCondition_conjunction (h : ∀ p ∈ ps, p.isTypedCondition types = true) :
    (conjunction ps).isTypedCondition types = true := by
  unfold conjunction
  cases hconj : conjunction? ps with
  | none => exact isTypedCondition_bool true
  | some e => exact isTypedCondition_conjunction? h hconj

end QueryPlan.Expr
