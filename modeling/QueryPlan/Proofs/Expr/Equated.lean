import QueryPlan.Proofs.Expr.ThreeValued
/-!
# Equalities that a true condition implies

A conjunction is true if every operand counts as true, that is, has a value which is neither FALSE
nor null. An equality of two columns has a truth value where it has one at all, so that the
equalities among the conjuncts of a true condition are true, whatever else the condition says. The
keys of a join are such equalities. Where all conjuncts have truth values, equal keys and the other
conjuncts together say what the condition says.
-/
namespace QueryPlan

open OutcomeRow

namespace Value

/-- Neither value is null, and they compare as equal. -/
def Equates (v w : Value) : Prop := v.isNull = false ∧ w.isNull = false ∧ compare v w = .eq

instance (v w : Value) : Decidable (v.Equates w) :=
  inferInstanceAs (Decidable (_ ∧ _ ∧ _))

theorem Equates.symm {v w : Value} (h : v.Equates w) : w.Equates v :=
  ⟨h.2.1, h.1, by rw [compare_swap, h.2.2]; rfl⟩

theorem compareBy_eq (op : Op) (v w : Value) :
    compareBy op v w = .null ∨ ∃ b, compareBy op v w = .boolean b := by
  unfold compareBy
  split <;> simp

theorem compareBy_equals_iff {v w : Value} : compareBy .equals v w = .boolean true ↔ v.Equates w := by
  unfold compareBy Equates
  cases v.isNull <;> cases w.isNull <;> simp [Op.holdsOf]

end Value

namespace Outcome

/-- What a conjunction counts as true: a value that is neither FALSE nor null. -/
def passes : Outcome → Bool
  | .ok (.boolean false) | .ok .null | .error _ => false
  | _ => true

theorem isTrue_allOf_eq (unknown : Bool) (outcomes : List Outcome) :
    (allOf unknown outcomes).isTrue = (!unknown && outcomes.all passes) := by
  fun_induction allOf unknown outcomes with
  | case1 unknown => cases unknown <;> rfl
  | case2 | case3 => simp [isTrue, passes]
  | case4 unknown rest ih => simpa [passes] using ih
  | case5 unknown v rest hfalse hnull ih =>
    rw [ih, List.all_cons]
    cases v with
    | boolean b =>
      cases b with
      | true => rfl
      | false => exact absurd rfl hfalse
    | null => exact absurd rfl hnull
    | _ => rfl

theorem isTrue_of_passes {o : Outcome} (htruth : o.isTruth = true) (h : o.passes = true) :
    o.isTrue = true := by
  match o with
  | .ok (.boolean true) => rfl
  | .ok (.boolean false) | .ok .null | .error _ => cases h
  | .ok (.integer _) | .ok (.double _) | .ok (.varchar _) => cases htruth

theorem isTrue_iff {o : Outcome} : o.isTrue = true ↔ o = .ok (.boolean true) := by
  match o with
  | .ok (.boolean b) => cases b <;> simp [isTrue]
  | .ok .null | .error _ | .ok (.integer _) | .ok (.double _) | .ok (.varchar _) => simp [isTrue]

theorem passes_of_isTrue {o : Outcome} (h : o.isTrue = true) : o.passes = true := by
  match o with
  | .ok (.boolean true) => rfl
  | .ok (.boolean false) | .ok .null | .error _ => cases h
  | .ok (.integer _) | .ok (.double _) | .ok (.varchar _) => cases h

end Outcome

namespace Expr

theorem isTrue_of_mem_conjuncts {row : List Outcome} {e k : Expr}
    (h : (e.evalOn row).passes = true) (hk : k ∈ e.conjuncts)
    (htruth : (k.evalOn row).isTruth = true) : k.holdsOn row = true := by
  induction e using induct_and with
  | and es t ih =>
    have hvalue : (apply .and es t).evalOn row = Outcome.allOf false (es.map (evalOn row)) := by
      rw [evalOn, evalOnEach_eq]
      rfl
    rw [hvalue] at h
    have hall := Outcome.isTrue_of_passes (Outcome.isTruth_allOf _ _) h
    rw [Outcome.isTrue_allOf_eq, Bool.not_false, Bool.true_and, List.all_map,
      List.all_eq_true] at hall
    rw [conjuncts_apply_and] at hk
    obtain ⟨e, he, hk⟩ := List.mem_flatMap.mp hk
    exact ih e he (hall e he) hk
  | other e hne =>
    rw [conjuncts_of_not_and hne] at hk
    split at hk
    · cases hk
    · rw [List.mem_singleton.mp hk] at htruth ⊢
      exact Outcome.isTrue_of_passes htruth h

theorem exists_of_columnEquality? {k : Expr} {i j : Nat}
    (h : k.columnEquality? = some (some (i, j))) :
    ∃ s u es t, k = apply .equals (column i s :: column j u :: es) t := by
  unfold columnEquality? at h
  split at h
  · split at h
    · next ha hb =>
      cases h
      obtain ⟨s, rfl⟩ := asColumn?_eq_some ha
      obtain ⟨u, rfl⟩ := asColumn?_eq_some hb
      exact ⟨s, u, _, _, rfl⟩
    · cases h
  · cases h
  · cases h

/-- An equality of columns compares the values that the row has there. -/
theorem eval_columnEquality {k : Expr} {i j : Nat} (h : k.columnEquality? = some (some (i, j)))
    (row : Row) : ∃ s u, k.eval row = ((column i s).eval row >>= fun v => (column j u).eval row >>=
      fun w => .ok (Value.compareBy .equals v w)) := by
  obtain ⟨s, u, es, t, rfl⟩ := exists_of_columnEquality? h
  exact ⟨s, u, rfl⟩

/-- An equality of columns is true of a row exactly if the row has equal values there. -/
theorem holdsOn_columnEquality {k : Expr} {i j : Nat} (h : k.columnEquality? = some (some (i, j)))
    (row : Row) : (k.evalOn (row.map .ok)).isTruth = true ∧
      (k.holdsOn (row.map .ok) = true ↔ (row.valueAt i).Equates (row.valueAt j)) := by
  obtain ⟨s, u, hvalue⟩ := eval_columnEquality h row
  rw [holdsOn, evalOn_map_ok, hvalue, eval, eval, Row.valueAt, Row.valueAt]
  cases row[i]? with
  | none => exact ⟨rfl, ⟨(fun h => by cases h), (fun h => by cases h.1)⟩⟩
  | some v =>
    cases row[j]? with
    | none => exact ⟨rfl, ⟨(fun h => by cases h), (fun h => by cases h.2.1)⟩⟩
    | some w =>
      rw [Option.getD_some, Option.getD_some, ← Value.compareBy_equals_iff]
      show Outcome.isTruth (.ok (Value.compareBy .equals v w)) = true ∧
        (Outcome.isTrue (.ok (Value.compareBy .equals v w)) = true ↔ _)
      rcases Value.compareBy_eq .equals v w with hnull | ⟨b, hb⟩
      · rw [hnull]
        exact ⟨rfl, ⟨(fun h => by cases h), (fun h => by cases h)⟩⟩
      · rw [hb]
        exact ⟨rfl, by cases b <;> simp [Outcome.isTrue]⟩

/-- The equalities of columns among the conjuncts of a condition hold where it does. -/
theorem equates_of_holdsOn {e k : Expr} {row : Row} {i j : Nat} (h : e.holdsOn (row.map .ok) = true)
    (hk : k ∈ e.conjuncts) (heq : k.columnEquality? = some (some (i, j))) :
    (row.valueAt i).Equates (row.valueAt j) := by
  obtain ⟨htruth, hiff⟩ := holdsOn_columnEquality heq row
  exact hiff.mp (isTrue_of_mem_conjuncts (Outcome.passes_of_isTrue h) hk htruth)

/-- The expression says that the columns are equal. -/
def EquatesColumns (k : Expr) (a b : Nat) : Prop :=
  k.columnEquality? = some (some (a, b)) ∨ k.columnEquality? = some (some (b, a))

instance (k : Expr) (a b : Nat) : Decidable (k.EquatesColumns a b) :=
  inferInstanceAs (Decidable (_ ∨ _))

variable {k : Expr} {row : Row} {a b : Nat}

/-- An equality of columns of a row has a value. -/
theorem hasValue_columnEquality (h : k.columnEquality? = some (some (a, b))) (ha : a < row.length)
    (hb : b < row.length) : k.HasValue row := by
  obtain ⟨s, u, hvalue⟩ := eval_columnEquality h row
  rw [HasValue, hvalue, eval, eval, List.getElem?_eq_getElem ha, List.getElem?_eq_getElem hb]
  exact ⟨_, rfl⟩

namespace EquatesColumns

theorem mem_columnList (h : k.EquatesColumns a b) : a ∈ k.columnList ∧ b ∈ k.columnList := by
  rcases h with h | h
  all_goals
    obtain ⟨s, u, es, t, rfl⟩ := exists_of_columnEquality? h
    simp [columnList, columnListOf]

theorem hasValue (h : k.EquatesColumns a b) (ha : a < row.length) (hb : b < row.length) :
    k.HasValue row :=
  h.elim (hasValue_columnEquality · ha hb) (hasValue_columnEquality · hb ha)

theorem isTruth (h : k.EquatesColumns a b) (row : Row) : (k.evalOn (ofRow row)).isTruth = true :=
  h.elim (holdsOn_columnEquality · row |>.1) (holdsOn_columnEquality · row |>.1)

theorem holdsOn_eq (h : k.EquatesColumns a b) (row : Row) :
    k.holdsOn (ofRow row) = decide ((row.valueAt a).Equates (row.valueAt b)) := by
  rw [Bool.eq_iff_iff, decide_eq_true_iff]
  rcases h with h | h
  · exact (holdsOn_columnEquality h row).2
  · exact (holdsOn_columnEquality h row).2.trans ⟨.symm, .symm⟩

end EquatesColumns

/-- An equality with a value has operands to compare. -/
theorem HasValue.isSome_columnEquality? (h : k.HasValue row) : k.columnEquality?.isSome = true := by
  obtain ⟨v, hv⟩ := h
  unfold columnEquality?
  split
  · split <;> rfl
  · next es t hshort =>
    rcases es with - | ⟨e, - | ⟨e', es⟩⟩
    · cases hv
    · have hvalue : (apply .equals [e] t).eval row =
          (e.eval row >>= fun _ => .error .missingOperand) := rfl
      rw [hvalue] at hv
      cases he : e.eval row <;> rw [he] at hv <;> cases hv
    · exact absurd rfl (hshort e e' es)
  · rfl

end Expr

namespace JoinInfo

variable {leftCount a b : Nat} {condition k : Expr} {conjuncts : List Expr} {info : JoinInfo}
  {left right row : Row}

/-! ## Which conjuncts become keys -/

/-- The left and the right one of two columns that are on different sides, whichever is named first. -/
def sides? (leftCount : Nat) : Option (Nat × Nat) → Option (Nat × Nat)
  | some (a, b) =>
    if a < leftCount ∧ leftCount ≤ b then some (a, b - leftCount)
    else if b < leftCount ∧ leftCount ≤ a then some (b, a - leftCount)
    else none
  | none => none

/-- The left and the right column that a conjunct equates, the right one numbered from the first right
one. -/
def keyPair? (leftCount : Nat) (k : Expr) : Option (Nat × Nat) :=
  k.columnEquality?.bind (sides? leftCount)

theorem keyPair?_eq_some_iff :
    keyPair? leftCount k = some (a, b) ↔ a < leftCount ∧ k.EquatesColumns a (leftCount + b) := by
  unfold keyPair? Expr.EquatesColumns
  rcases k.columnEquality? with - | - | ⟨i, j⟩
  · simp
  · simp [sides?]
  · simp only [Option.bind_some, sides?, Option.some.injEq, Prod.mk.injEq]
    split
    · simp only [Option.some.injEq, Prod.mk.injEq]
      omega
    · split
      · simp only [Option.some.injEq, Prod.mk.injEq]
        omega
      · simp only [reduceCtorEq, false_iff]
        omega

/-- The keys that conjuncts give, and the conjuncts that give none. -/
def classified (leftCount : Nat) (conjuncts : List Expr) : JoinInfo where
  leftKeys := (conjuncts.filterMap (keyPair? leftCount)).map Prod.fst
  rightKeys := (conjuncts.filterMap (keyPair? leftCount)).map Prod.snd
  others := conjuncts.filter fun k => (keyPair? leftCount k).isNone

theorem addConjunct_classified {equality : Option (Nat × Nat)} (h : k.columnEquality? = some equality) :
    (classified leftCount conjuncts).addConjunct leftCount k equality =
      classified leftCount (k :: conjuncts) := by
  have hpair : keyPair? leftCount k = sides? leftCount equality := by
    rw [keyPair?, h, Option.bind_some]
  unfold addConjunct classified
  rw [List.filterMap_cons, List.filter_cons, hpair]
  rcases equality with - | ⟨i, j⟩
  · rfl
  · dsimp only [sides?]
    split
    · rfl
    · split <;> rfl

/-- A list of conjuncts can be taken apart if every equality in it has operands to compare. -/
theorem ofConjuncts?_eq_some_iff : ofConjuncts? leftCount conjuncts = some info ↔
    (∀ k ∈ conjuncts, k.columnEquality?.isSome = true) ∧ info = classified leftCount conjuncts := by
  induction conjuncts generalizing info with
  | nil =>
    refine ⟨fun h => ⟨fun k hk => absurd hk List.not_mem_nil, (Option.some.inj h).symm⟩, ?_⟩
    exact fun h => congrArg some h.2.symm
  | cons k conjuncts ih =>
    rw [ofConjuncts?, List.forall_mem_cons]
    simp only [Option.bind_eq_bind, Option.bind_eq_some_iff, Option.some.injEq, ih]
    constructor
    · rintro ⟨equality, hequality, rest, ⟨hrest, rfl⟩, rfl⟩
      exact ⟨⟨by rw [hequality]; rfl, hrest⟩, addConjunct_classified hequality⟩
    · rintro ⟨⟨hk, hrest⟩, rfl⟩
      obtain ⟨equality, hequality⟩ := Option.isSome_iff_exists.mp hk
      exact ⟨equality, hequality, _, ⟨hrest, rfl⟩, addConjunct_classified hequality⟩

theorem eq_classified (h : of? condition leftCount = some info) :
    info = classified leftCount condition.conjuncts :=
  (ofConjuncts?_eq_some_iff.mp h).2

theorem zip_keys_classified : (classified leftCount conjuncts).leftKeys.zip
    (classified leftCount conjuncts).rightKeys = conjuncts.filterMap (keyPair? leftCount) := by
  rw [classified, List.zip_map', List.map_id']

/-- What becomes of the conjuncts of a join condition. -/
structure Divides (condition : Expr) (leftCount : Nat) (info : JoinInfo) : Prop where
  /-- Keys come in pairs. -/
  length_eq : info.leftKeys.length = info.rightKeys.length
  /-- The pairs are the left and right columns that conjuncts equate. Right columns are numbered from the
  first right one. -/
  mem_keys_iff : ∀ a b, (a, b) ∈ info.leftKeys.zip info.rightKeys ↔
    a < leftCount ∧ ∃ k ∈ condition.conjuncts, k.EquatesColumns a (leftCount + b)
  /-- No other conjunct equates a left with a right column. -/
  others_equate : ∀ k ∈ info.others, ∀ a < leftCount, ∀ b, ¬k.EquatesColumns a (leftCount + b)
  leftKeys_lt : ∀ a ∈ info.leftKeys, a < leftCount
  /-- Right keys are columns of the right input of any join that the condition is valid for. -/
  rightKeys_lt : ∀ algorithm joinType (leftType rightType : RowType), leftType.arity = leftCount →
    (Operator.join algorithm joinType condition).check [leftType, rightType] = .ok () →
    ∀ b ∈ info.rightKeys, b < rightType.arity

theorem divides_of? (h : of? condition leftCount = some info) : info.Divides condition leftCount := by
  obtain rfl := eq_classified h
  have hpair : ∀ a b, (a, b) ∈ condition.conjuncts.filterMap (keyPair? leftCount) ↔
      a < leftCount ∧ ∃ k ∈ condition.conjuncts, k.EquatesColumns a (leftCount + b) := by
    intro a b
    simp only [List.mem_filterMap, keyPair?_eq_some_iff]
    exact ⟨fun ⟨k, hk, hlt, heq⟩ => ⟨hlt, k, hk, heq⟩, fun ⟨hlt, k, hk, heq⟩ => ⟨k, hk, hlt, heq⟩⟩
  constructor
  case length_eq => simp [classified]
  case mem_keys_iff =>
    rw [zip_keys_classified]
    exact hpair
  case others_equate =>
    intro k hk a ha b heq
    have hnone := (List.mem_filter.mp hk).2
    rw [keyPair?_eq_some_iff.mpr ⟨ha, heq⟩] at hnone
    cases hnone
  case leftKeys_lt =>
    intro a ha
    obtain ⟨key, hkey, rfl⟩ := List.mem_map.mp ha
    exact ((hpair _ _).mp hkey).1
  case rightKeys_lt =>
    intro algorithm joinType leftType rightType hleft hcheck b hb
    obtain ⟨key, hkey, rfl⟩ := List.mem_map.mp hb
    obtain ⟨-, k, hk, heq⟩ := (hpair _ _).mp hkey
    have hcolumn := Expr.columnList_of_mem_conjuncts hk _ (Expr.EquatesColumns.mem_columnList heq).2
    have hlt : leftCount + key.2 < leftType.arity + rightType.arity :=
      Expr.lt_of_checkColumns hcheck _ hcolumn
    omega

/-! ## What keys and the rest say of a pair of rows -/

/-- A conjunct that gives a pair of keys is true exactly if the key columns are equal. -/
theorem eval_true_iff_of_keyPair? (h : keyPair? left.length k = some (a, b)) :
    k.eval (left ++ right) = .ok (.boolean true) ↔ (left.valueAt a).Equates (right.valueAt b) := by
  obtain ⟨hlt, heq⟩ := keyPair?_eq_some_iff.mp h
  rw [← Outcome.isTrue_iff, ← evalOn_ofRow, ← Expr.holdsOn, heq.holdsOn_eq, decide_eq_true_iff,
    Row.valueAt_append_left hlt, Row.valueAt_append_right]

/-- The key columns of a pair of rows that meet a join condition are equal. -/
theorem equates_of_holdsOn (hinfo : of? condition left.length = some info)
    (hkey : (a, b) ∈ info.leftKeys.zip info.rightKeys)
    (h : condition.holdsOn ((left ++ right).map .ok) = true) :
    (left.valueAt a).Equates (right.valueAt b) := by
  obtain ⟨hlt, k, hk, heq⟩ := ((divides_of? hinfo).mem_keys_iff a b).mp hkey
  rw [← Row.valueAt_append_left hlt right, ← Row.valueAt_append_right left right b]
  rcases heq with heq | heq
  · exact Expr.equates_of_holdsOn h hk heq
  · exact (Expr.equates_of_holdsOn h hk heq).symm

/-- A condition that has a truth value on a row can be taken apart. -/
theorem exists_of? (h : condition.TruthValued row) (leftCount : Nat) :
    ∃ info, of? condition leftCount = some info := by
  refine ⟨_, ofConjuncts?_eq_some_iff.mpr ⟨fun k hk => ?_, rfl⟩⟩
  obtain ⟨v, hv, -⟩ := h k hk
  exact Expr.HasValue.isSome_columnEquality? ⟨v, hv⟩

/-- Conjuncts are true of a pair of rows exactly if the keys that they give are equal and the others are
true. -/
theorem forall_conjuncts_iff :
    (∀ k ∈ conjuncts, k.eval (left ++ right) = .ok (.boolean true)) ↔
      (∀ a b, (a, b) ∈ (classified left.length conjuncts).leftKeys.zip
        (classified left.length conjuncts).rightKeys → (left.valueAt a).Equates (right.valueAt b)) ∧
      ∀ k ∈ (classified left.length conjuncts).others, k.eval (left ++ right) = .ok (.boolean true) := by
  rw [zip_keys_classified]
  constructor
  · intro h
    refine ⟨fun a b hkey => ?_, fun k hk => h k (List.mem_filter.mp hk).1⟩
    obtain ⟨k, hk, hpair⟩ := List.mem_filterMap.mp hkey
    exact (eval_true_iff_of_keyPair? hpair).mp (h k hk)
  · rintro ⟨hkeys, hothers⟩ k hk
    cases hpair : keyPair? left.length k with
    | none => exact hothers k (List.mem_filter.mpr ⟨hk, by rw [hpair]; rfl⟩)
    | some key =>
      exact (eval_true_iff_of_keyPair? hpair).mpr (hkeys _ _ (List.mem_filterMap.mpr ⟨k, hk, hpair⟩))

/-- A join condition taken apart has a pair of keys for every left and right column that it equates, and
the other conjuncts. Of a pair of rows on which every conjunct has a truth value it is true exactly if the
keys are equal in each pair and what remains, if anything does, is true. -/
theorem condition_decomposes (condition : Expr) (leftCount : Nat) :
    (∀ info, of? condition leftCount = some info → info.Divides condition leftCount) ∧
    ∀ left right : Row, left.length = leftCount → condition.TruthValued (left ++ right) →
      ∃ info, of? condition leftCount = some info ∧
        (condition.eval (left ++ right) = .ok (.boolean true) ↔
          (∀ a b, (a, b) ∈ info.leftKeys.zip info.rightKeys →
            (left.valueAt a).Equates (right.valueAt b)) ∧
          ∀ e, info.remaining? = some e → e.eval (left ++ right) = .ok (.boolean true)) := by
  refine ⟨fun info => divides_of?, ?_⟩
  rintro left right rfl htruth
  obtain ⟨info, hinfo⟩ := exists_of? htruth left.length
  refine ⟨info, hinfo, ?_⟩
  obtain rfl := eq_classified hinfo
  have hothers : ∀ k ∈ (classified left.length condition.conjuncts).others,
      k.TruthValued (left ++ right) := fun k hk =>
    htruth.of_mem_conjuncts (List.mem_filter.mp hk).1
  rw [htruth.eval_true_iff, forall_conjuncts_iff, remaining?, Expr.eval_conjunction?_true_iff hothers]

/-- A guest who stays for more than 2 nights gets the kind of room and the bed that he asked for, the bed
being named twice. Rooms have the bed first. -/
def suits : Expr :=
  .call .and [.call .equals [.column 4 .bigint, .column 0 .bigint],
    .call .and [.bool true, .call .equals [.column 1 .varchar, .column 3 .varchar]],
    .call .equals [.column 3 .varchar, .column 1 .varchar],
    .call .greaterThan [.column 2 .bigint, .literal (.integer 2)]]

def guestType : RowType :=
  ⟨[⟨"kind", .bigint, false⟩, ⟨"bed", .varchar, true⟩, ⟨"nights", .bigint, false⟩]⟩

def roomType : RowType := ⟨[⟨"bed", .varchar, true⟩, ⟨"kind", .bigint, false⟩]⟩

def guest : Row := [.integer 7, .varchar "king", .integer 3]

def room : Row := [.varchar "king", .integer 7]

/-- The guest gets the room, which has the kind and the bed. -/
theorem condition_decomposes_suits :
    (suits.TruthValued (guest ++ room) ∧
      (Operator.join .hash .inner suits).check [guestType, roomType] = .ok ()) ∧
    ∃ info, of? suits 3 = some info ∧ info.leftKeys = [0, 1, 1] ∧ info.rightKeys = [1, 0, 0] ∧
      (∀ b ∈ info.rightKeys, b < 2) ∧ suits.eval (guest ++ room) = .ok (.boolean true) := by
  have htruth : suits.TruthValued (guest ++ room) :=
    List.forall_mem_cons.mpr ⟨⟨_, rfl, rfl⟩, List.forall_mem_cons.mpr ⟨⟨_, rfl, rfl⟩,
      List.forall_mem_cons.mpr ⟨⟨_, rfl, rfl⟩, List.forall_mem_singleton.mpr ⟨_, rfl, rfl⟩⟩⟩⟩
  have hvalid : (Operator.join .hash .inner suits).check [guestType, roomType] = .ok () := rfl
  obtain ⟨hdivides, hdecomposes⟩ := condition_decomposes suits 3
  obtain ⟨info, hinfo, hiff⟩ := hdecomposes guest room rfl htruth
  have hgiven : of? suits 3 = some ⟨[0, 1, 1], [1, 0, 0],
      [.call .greaterThan [.column 2 .bigint, .literal (.integer 2)]]⟩ := rfl
  have hright := (hdivides info hinfo).rightKeys_lt .hash .inner guestType roomType rfl hvalid
  cases hinfo.symm.trans hgiven
  refine ⟨⟨htruth, hvalid⟩, _, hinfo, rfl, rfl, hright, hiff.mpr ⟨fun a b hkey => ?_, fun e he => ?_⟩⟩
  · have hkey : (a, b) ∈ [(0, 1), (1, 0), (1, 0)] := hkey
    simp only [List.mem_cons, Prod.mk.injEq, List.not_mem_nil, or_false] at hkey
    obtain ⟨rfl, rfl⟩ | ⟨rfl, rfl⟩ | ⟨rfl, rfl⟩ := hkey
    all_goals decide +kernel
  · cases he
    rfl

end JoinInfo

end QueryPlan
