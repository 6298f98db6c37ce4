import Mathlib.Algebra.BigOperators.Group.List.Basic
import Mathlib.Algebra.Ring.Int.Defs
import QueryPlan.Proofs.Execution.Grouping
/-!
# Totals of values

What an aggregate function makes of values, said without an order in which they come: counts and sums
are sums of integers up to the wrap of machine words, and a minimum is a value that no other one is
below. A total of totals over parts is then a total over the whole.
-/
namespace QueryPlan

namespace Value

/-- The value is an integer or null. -/
def isIntegerOrNull : Value → Bool
  | null | integer _ => true
  | _ => false

/-- What a value adds to a count. -/
def countWeight (v : Value) : Int := if v.isNull then 0 else 1

/-- What a value adds to a sum. -/
def sumWeight : Value → Int
  | integer i => i.toInt
  | _ => 0

theorem eq_null {v : Value} (h : v.isNull = true) : v = null := by cases v <;> first | rfl | cases h

end Value

namespace AggFunction

/-- A value that is at least as good as all others, nulls left out; null if there are only nulls. -/
def Best (le : Value → Value → Prop) (values : List Value) (v : Value) : Prop :=
  (v = .null ∧ ∀ w ∈ values, w.isNull = true) ∨
    v ∈ values ∧ v.isNull = false ∧ ∀ w ∈ values, w.isNull = false → le v w

/-- The one value is at least as good as the other: as great for a maximum, and as small otherwise. -/
def Wins (rank : Value → Nat) (f : AggFunction) (v w : Value) : Prop :=
  if f = max then rank w ≤ rank v else rank v ≤ rank w

theorem Wins.refl {rank : Value → Nat} {f : AggFunction} (v : Value) : Wins rank f v v := by
  unfold Wins
  split <;> exact Nat.le_refl _

theorem Wins.trans {rank : Value → Nat} {f : AggFunction} {u v w : Value} (h : Wins rank f u v)
    (h' : Wins rank f v w) : Wins rank f u w := by
  unfold Wins at h h' ⊢
  split at h
  · next hmax =>
    rw [if_pos hmax] at h' ⊢
    exact Nat.le_trans h' h
  · next hmin =>
    rw [if_neg hmin] at h' ⊢
    exact Nat.le_trans h h'

/-- A total of values whose order is that of their numbers. -/
def IsTotal (rank : Value → Nat) (f : AggFunction) (values : List Value) (v : Value) : Prop :=
  match f with
  | count => v = .integer (Int64.ofInt (values.map Value.countWeight).sum)
  | sum0 => v = .integer (Int64.ofInt (values.map Value.sumWeight).sum)
  | sum => v = if values.all Value.isNull then .null
      else .integer (Int64.ofInt (values.map Value.sumWeight).sum)
  | min => Best (Wins rank min) values v
  | max => Best (Wins rank max) values v

/-- The function adds values up. -/
def adds (f : AggFunction) : Bool := f = sum || f = sum0

/-- The function picks one of the values by their order. -/
def picks (f : AggFunction) : Bool := f = min || f = max

/-! ## Folds -/

theorem foldlM_step_cons {f : AggFunction} {acc result : Option Value} {v : Value}
    {values : List Value} : (v :: values).foldlM f.step acc = .ok result ↔
      ∃ next, f.step acc v = .ok next ∧ values.foldlM f.step next = .ok result := by
  rw [List.foldlM_cons, Outcome.bind_eq_ok]

theorem step_null {f : AggFunction} {acc next : Option Value} (h : f.step acc .null = .ok next) :
    next = acc := by
  cases h
  rfl

theorem step_of_not_null {f : AggFunction} {acc : Option Value} {v : Value}
    (hv : v.isNull = false) : f.step acc v = f.accumulate acc v := by
  rw [step, hv]
  rfl

theorem foldlM_count {values : List Value} {n : Int64} {acc : Option Value}
    (h : values.foldlM count.step (some (.integer n)) = .ok acc) :
    acc = some (.integer (n + Int64.ofInt (values.map Value.countWeight).sum)) := by
  induction values generalizing n with
  | nil =>
    cases h
    simp
  | cons v values ih =>
    obtain ⟨next, hnext, h⟩ := foldlM_step_cons.mp h
    by_cases hv : v.isNull = true
    · obtain rfl := Value.eq_null hv
      obtain rfl := step_null hnext
      simpa [Value.countWeight, hv] using ih h
    · rw [step_of_not_null (by simpa using hv)] at hnext
      cases hnext
      rw [ih h]
      simp [Value.countWeight, hv, Int64.add_assoc]

theorem addValues_integer {x y : Int64} {v : Value}
    (h : addValues (.integer x) (.integer y) = .ok v) : v = .integer (x + y) := by
  unfold addValues at h
  dsimp only at h
  split at h <;> cases h
  rfl

theorem foldlM_adds {f : AggFunction} (hf : f.adds = true) {values : List Value} {n : Int64}
    {acc : Option Value} (hvalues : ∀ v ∈ values, v.isIntegerOrNull = true)
    (h : values.foldlM f.step (some (.integer n)) = .ok acc) :
    acc = some (.integer (n + Int64.ofInt (values.map Value.sumWeight).sum)) := by
  induction values generalizing n with
  | nil =>
    cases h
    simp
  | cons v values ih =>
    obtain ⟨next, hnext, h⟩ := foldlM_step_cons.mp h
    obtain ⟨hv, hrest⟩ := List.forall_mem_cons.mp hvalues
    cases v with
    | null =>
      obtain rfl := step_null hnext
      simpa [Value.sumWeight] using ih hrest h
    | integer i =>
      rw [step_of_not_null rfl] at hnext
      have hadd : ∃ w, addValues (.integer n) (.integer i) = .ok w ∧ some w = next := by
        cases f with
        | sum | sum0 => exact Outcome.map_eq_ok.mp hnext
        | count | min | max => cases hf
      obtain ⟨w, hw, rfl⟩ := hadd
      obtain rfl := addValues_integer hw
      rw [ih hrest h]
      simp [Value.sumWeight, Int64.add_assoc]
    | boolean | double | varchar => cases hv

theorem foldlM_sum {values : List Value} {acc : Option Value}
    (hvalues : ∀ v ∈ values, v.isIntegerOrNull = true)
    (h : values.foldlM sum.step none = .ok acc) :
    acc.getD .null = if values.all Value.isNull then .null
      else .integer (Int64.ofInt (values.map Value.sumWeight).sum) := by
  induction values with
  | nil =>
    cases h
    rfl
  | cons v values ih =>
    obtain ⟨next, hnext, h⟩ := foldlM_step_cons.mp h
    obtain ⟨hv, hrest⟩ := List.forall_mem_cons.mp hvalues
    cases v with
    | null =>
      obtain rfl := step_null hnext
      rw [ih hrest h]
      simp [Value.sumWeight, Value.isNull]
    | integer i =>
      -- the first value starts the sum
      cases hnext
      rw [foldlM_adds rfl hrest h]
      simp [Value.sumWeight, Value.isNull]
    | boolean | double | varchar => cases hv

section

variable {f : AggFunction} {le : Value → Value → Prop} {pool : List Value}
  (htrans : ∀ u v w, le u v → le v w → le u w)
  (hbetter : ∀ b ∈ pool, ∀ v ∈ pool, ∃ b', f.accumulate (some b) v = .ok (some b') ∧
    (b' = b ∨ b' = v) ∧ le b' b ∧ le b' v)

include htrans hbetter

/-- Keeping the better one of two values ends with the best of the first value and all others. -/
theorem exists_best_of_foldlM {values : List Value} {b : Value} {acc : Option Value}
    (hrefl : ∀ v, le v v) (hmem : b ∈ pool) (hb : b.isNull = false)
    (hpool : ∀ v ∈ values, v.isNull = false → v ∈ pool)
    (h : values.foldlM f.step (some b) = .ok acc) :
    ∃ b', acc = some b' ∧ b' ∈ b :: values ∧ b'.isNull = false ∧
      ∀ w ∈ b :: values, w.isNull = false → le b' w := by
  induction values generalizing b with
  | nil =>
    cases h
    exact ⟨b, rfl, List.mem_cons_self, hb, by simpa using fun _ => hrefl b⟩
  | cons v values ih =>
    obtain ⟨next, hnext, h⟩ := foldlM_step_cons.mp h
    obtain ⟨hv, hrest⟩ := List.forall_mem_cons.mp hpool
    cases hnull : v.isNull with
    | true =>
      obtain rfl := Value.eq_null hnull
      obtain rfl := step_null hnext
      obtain ⟨b', hacc, hb', hnotNull, hall⟩ := ih hmem hb hrest h
      obtain ⟨hle, hall⟩ := List.forall_mem_cons.mp hall
      refine ⟨b', hacc, ?_, hnotNull, List.forall_mem_cons.mpr ⟨hle, ?_⟩⟩
      · rcases List.mem_cons.mp hb' with rfl | hb'
        · exact List.mem_cons_self
        · exact List.mem_cons_of_mem _ (List.mem_cons_of_mem _ hb')
      · exact List.forall_mem_cons.mpr ⟨fun hw => Bool.noConfusion hw, hall⟩
    | false =>
      rw [step_of_not_null hnull] at hnext
      obtain ⟨b₁, hb₁, hchoice, hleb, hlev⟩ := hbetter b hmem v (hv hnull)
      rw [hb₁] at hnext
      cases hnext
      obtain ⟨hmem₁, hnull₁⟩ : b₁ ∈ pool ∧ b₁.isNull = false := by
        rcases hchoice with rfl | rfl
        · exact ⟨hmem, hb⟩
        · exact ⟨hv hnull, hnull⟩
      obtain ⟨b', hacc, hb', hnotNull, hall⟩ := ih hmem₁ hnull₁ hrest h
      obtain ⟨hle, hall⟩ := List.forall_mem_cons.mp hall
      refine ⟨b', hacc, ?_, hnotNull, List.forall_mem_cons.mpr
        ⟨fun _ => htrans _ _ _ (hle hnull₁) hleb, List.forall_mem_cons.mpr
          ⟨fun _ => htrans _ _ _ (hle hnull₁) hlev, hall⟩⟩⟩
      rcases List.mem_cons.mp hb' with rfl | hb'
      · rcases hchoice with rfl | rfl <;> simp
      · exact List.mem_cons_of_mem _ (List.mem_cons_of_mem _ hb')

theorem best_of_foldlM {values : List Value} {acc : Option Value} (hrefl : ∀ v, le v v)
    (hfirst : ∀ v, f.accumulate none v = .ok (some v))
    (hpool : ∀ v ∈ values, v.isNull = false → v ∈ pool)
    (h : values.foldlM f.step none = .ok acc) : Best le values (acc.getD .null) := by
  induction values with
  | nil =>
    cases h
    exact .inl ⟨rfl, by simp⟩
  | cons v values ih =>
    obtain ⟨next, hnext, h⟩ := foldlM_step_cons.mp h
    obtain ⟨hv, hrest⟩ := List.forall_mem_cons.mp hpool
    cases hnull : v.isNull with
    | true =>
      obtain rfl := Value.eq_null hnull
      obtain rfl := step_null hnext
      rcases ih hrest h with ⟨heq, hall⟩ | ⟨hmem, hnotNull, hall⟩
      · exact .inl ⟨heq, List.forall_mem_cons.mpr ⟨hnull, hall⟩⟩
      · refine .inr ⟨List.mem_cons_of_mem _ hmem, hnotNull, ?_⟩
        exact List.forall_mem_cons.mpr ⟨fun hw => Bool.noConfusion hw, hall⟩
    | false =>
      rw [step_of_not_null hnull, hfirst] at hnext
      cases hnext
      obtain ⟨b', rfl, hb', hnotNull, hall⟩ :=
        exists_best_of_foldlM htrans hbetter hrefl (hv hnull) hnull hrest h
      exact .inr ⟨hb', hnotNull, hall⟩

end

/-- The outcome of a function over values is a total of them. Values that are added up are integers
or null, and values that are compared have numbers in their order. -/
theorem isTotal_of_foldlM {rank : Value → Nat} {f : AggFunction} {pool values : List Value}
    {acc : Option Value} (hadds : f.adds = true → ∀ v ∈ values, v.isIntegerOrNull = true)
    (hrank : f.picks = true → Value.Ranks rank pool)
    (hpool : f.picks = true → ∀ v ∈ values, v.isNull = false → v ∈ pool)
    (h : values.foldlM f.step f.start = .ok acc) : IsTotal rank f values (acc.getD .null) := by
  cases f with
  | count =>
    rw [foldlM_count h]
    simp [IsTotal]
  | sum => exact foldlM_sum (hadds rfl) h
  | sum0 =>
    rw [foldlM_adds rfl (hadds rfl) h]
    simp [IsTotal]
  | min =>
    have htrans : ∀ u v w, Wins rank min u v → Wins rank min v w → Wins rank min u w :=
      fun _ _ _ => Wins.trans
    refine best_of_foldlM htrans (fun b hb v hv => ?_) Wins.refl (fun _ => rfl)
      (hpool rfl) h
    refine ⟨_, rfl, ?_⟩
    rw [hrank rfl v hv b hb]
    by_cases hlt : rank v < rank b
    · simp [Wins, Nat.compare_eq_lt.mpr hlt, Nat.le_of_lt hlt]
    · have hle : rank b ≤ rank v := by omega
      simp [Wins, Nat.compare_eq_lt, hlt, hle]
  | max =>
    have htrans : ∀ u v w, Wins rank max u v → Wins rank max v w → Wins rank max u w :=
      fun _ _ _ => Wins.trans
    refine best_of_foldlM htrans (fun b hb v hv => ?_) Wins.refl (fun _ => rfl)
      (hpool rfl) h
    refine ⟨_, rfl, ?_⟩
    rw [hrank rfl v hv b hb]
    by_cases hlt : rank b < rank v
    · simp [Wins, Nat.compare_eq_gt.mpr hlt, Nat.le_of_lt hlt]
    · have hle : rank v ≤ rank b := by omega
      simp [Wins, Nat.compare_eq_gt, hlt, hle]

/-! ## Totals of totals -/

theorem Best.perm {le : Value → Value → Prop} {values values' : List Value} {v : Value}
    (h : Best le values v) (hperm : values.Perm values') : Best le values' v := by
  rcases h with ⟨rfl, hall⟩ | ⟨hmem, hnotNull, hall⟩
  · exact .inl ⟨rfl, fun w hw => hall w (hperm.mem_iff.mpr hw)⟩
  · exact .inr ⟨hperm.mem_iff.mp hmem, hnotNull, fun w hw => hall w (hperm.mem_iff.mpr hw)⟩

/-- Totals do not depend on the order of values. -/
theorem IsTotal.perm {rank : Value → Nat} {f : AggFunction} {values values' : List Value} {v : Value}
    (h : IsTotal rank f values v) (hperm : values.Perm values') : IsTotal rank f values' v := by
  cases f with
  | count =>
    have hsum := (hperm.map Value.countWeight).sum_eq
    simpa only [IsTotal, hsum] using h
  | sum0 =>
    have hsum := (hperm.map Value.sumWeight).sum_eq
    simpa only [IsTotal, hsum] using h
  | sum =>
    have hsum := (hperm.map Value.sumWeight).sum_eq
    have hall := hperm.all_eq (f := Value.isNull)
    simpa only [IsTotal, hsum, hall] using h
  | min | max => exact Best.perm h hperm

theorem sum_sumWeight_of_null {values : List Value} (h : values.all Value.isNull = true) :
    (values.map Value.sumWeight).sum = 0 := by
  induction values with
  | nil => rfl
  | cons v values ih =>
    rw [List.all_cons, Bool.and_eq_true] at h
    rw [List.map_cons, List.sum_cons, ih h.2, Value.eq_null h.1]
    rfl

/-- Sums of parts, up to the wrap of words, add up to the sum of the whole. -/
theorem ofInt_sum_flatten {weight : Value → Int} {parts : List (List Value)} {values : List Value}
    (h : List.Forall₂ (fun part v => Int64.ofInt v.sumWeight = Int64.ofInt (part.map weight).sum)
      parts values) :
    Int64.ofInt (values.map Value.sumWeight).sum = Int64.ofInt (parts.flatten.map weight).sum := by
  induction h with
  | nil => rfl
  | cons hpart _ ih =>
    simp only [List.map_cons, List.sum_cons, List.flatten_cons, List.map_append, List.sum_append,
      Int64.ofInt_add]
    rw [hpart, ih]

theorem Best.flatten {le : Value → Value → Prop} (htrans : ∀ u v w, le u v → le v w → le u w)
    {parts : List (List Value)} {values : List Value} {v : Value}
    (hparts : List.Forall₂ (Best le) parts values) (h : Best le values v) :
    Best le parts.flatten v := by
  have hpart : ∀ w ∈ parts.flatten, w.isNull = false →
      ∃ u ∈ values, u.isNull = false ∧ le u w := by
    clear h
    intro w hw hnotNull
    induction hparts with
    | nil => cases hw
    | @cons part u parts values hu _ ih =>
      rcases List.mem_append.mp (List.flatten_cons ▸ hw) with hw | hw
      · rcases hu with ⟨-, hall⟩ | ⟨-, hu, hall⟩
        · rw [hall w hw] at hnotNull
          cases hnotNull
        · exact ⟨u, List.mem_cons_self, hu, hall w hw hnotNull⟩
      · obtain ⟨u', hu', hrest⟩ := ih hw
        exact ⟨u', List.mem_cons_of_mem _ hu', hrest⟩
  have hmem : ∀ u ∈ values, u.isNull = false → u ∈ parts.flatten := by
    clear h hpart
    induction hparts with
    | nil => simp
    | @cons part u parts values hu _ ih =>
      rw [List.flatten_cons]
      refine List.forall_mem_cons.mpr ⟨fun hnotNull => ?_, fun u' hu' hnotNull => ?_⟩
      · rcases hu with ⟨rfl, -⟩ | ⟨hu, -⟩
        · cases hnotNull
        · exact List.mem_append_left _ hu
      · exact List.mem_append_right _ (ih u' hu' hnotNull)
  rcases h with ⟨rfl, hall⟩ | ⟨hv, hnotNull, hall⟩
  · refine .inl ⟨rfl, fun w hw => ?_⟩
    by_contra hnotNull
    obtain ⟨u, hu, hunull, -⟩ := hpart w hw (by simpa using hnotNull)
    rw [hall u hu] at hunull
    cases hunull
  · refine .inr ⟨hmem v hv hnotNull, hnotNull, fun w hw hw' => ?_⟩
    obtain ⟨u, hu, hunull, hle⟩ := hpart w hw hw'
    exact htrans _ _ _ (hall u hu hunull) hle

/-- Totals that are combined are totals of all values. -/
theorem IsTotal.rollUp {rank : Value → Nat} {f : AggFunction} {parts : List (List Value)}
    {values : List Value} {v : Value} (hparts : List.Forall₂ (IsTotal rank f) parts values)
    (h : IsTotal rank f.rollUp values v) : IsTotal rank f parts.flatten v := by
  cases f with
  | count =>
    refine h.trans (congrArg Value.integer (ofInt_sum_flatten (hparts.imp fun part w hw => ?_)))
    rw [show w = _ from hw]
    exact Int64.ofInt_toInt _
  | sum0 =>
    refine h.trans (congrArg Value.integer (ofInt_sum_flatten (hparts.imp fun part w hw => ?_)))
    rw [show w = _ from hw]
    exact Int64.ofInt_toInt _
  | sum =>
    have hsum : Int64.ofInt (values.map Value.sumWeight).sum =
        Int64.ofInt (parts.flatten.map Value.sumWeight).sum := by
      refine ofInt_sum_flatten (hparts.imp fun part w hw => ?_)
      obtain rfl : w = _ := hw
      split
      · next hall =>
        rw [sum_sumWeight_of_null hall]
        rfl
      · exact Int64.ofInt_toInt _
    have hnull : values.all Value.isNull = parts.flatten.all Value.isNull := by
      clear h hsum
      induction hparts with
      | nil => rfl
      | @cons part w _ _ hw _ ih =>
        obtain rfl : w = _ := hw
        rw [List.all_cons, List.flatten_cons, List.all_append, ih]
        congr 1
        split
        · next hall => exact hall.symm
        · next hsome => simpa [Value.isNull] using hsome
    refine h.trans ?_
    rw [hsum, hnull]
  | min =>
    have htrans : ∀ u v w, Wins rank min u v → Wins rank min v w → Wins rank min u w :=
      fun _ _ _ => Wins.trans
    exact Best.flatten htrans hparts h
  | max =>
    have htrans : ∀ u v w, Wins rank max u v → Wins rank max v w → Wins rank max u w :=
      fun _ _ _ => Wins.trans
    exact Best.flatten htrans hparts h

/-- A count or a sum is an integer or null. -/
theorem IsTotal.isIntegerOrNull {rank : Value → Nat} {f : AggFunction} {values : List Value}
    {v : Value} (hf : f.picks = false) (h : IsTotal rank f values v) :
    v.isIntegerOrNull = true := by
  cases f with
  | count | sum0 =>
    obtain rfl : v = _ := h
    rfl
  | sum =>
    obtain rfl : v = _ := h
    split <;> rfl
  | min | max => cases hf

/-- A least or greatest value that is not null is one of the values. -/
theorem IsTotal.mem {rank : Value → Nat} {f : AggFunction} {values : List Value} {v : Value}
    (hf : f.picks = true) (h : IsTotal rank f values v) (hv : v.isNull = false) :
    v ∈ values := by
  cases f with
  | count | sum | sum0 => cases hf
  | min | max =>
    rcases h with ⟨rfl, -⟩ | ⟨hmem, -⟩
    · cases hv
    · exact hmem

/-- Two totals of the same values are equal. -/
theorem IsTotal.compare_eq {rank : Value → Nat} {f : AggFunction} {pool values : List Value}
    {v w : Value} (hrank : f.picks = true → Value.Ranks rank pool)
    (hpool : ∀ v ∈ values, v ∈ pool) (h : IsTotal rank f values v)
    (h' : IsTotal rank f values w) : compare v w = .eq := by
  have hbest : f.picks = true → Best (Wins rank f) values v → Best (Wins rank f) values w →
      compare v w = .eq := by
    rintro hf (⟨rfl, hall⟩ | ⟨hv, hnull, hall⟩) (⟨rfl, hall'⟩ | ⟨hw, hnull', hall'⟩)
    · rfl
    · rw [hall w hw] at hnull'
      cases hnull'
    · rw [hall' v hv] at hnull
      cases hnull
    · rw [hrank hf v (hpool v hv) w (hpool w hw), Nat.compare_eq_eq]
      have hvw := hall w hw hnull'
      have hwv := hall' v hv hnull
      unfold Wins at hvw hwv
      split at hvw
      · next hmax =>
        rw [if_pos hmax] at hwv
        omega
      · next hmin =>
        rw [if_neg hmin] at hwv
        omega
  cases f with
  | count | sum0 | sum => rw [show v = w from h.trans h'.symm, Value.compare_self]
  | min | max => exact hbest rfl h h'

end AggFunction

namespace Execution

/-! ## Totals of a call -/

/-- The values that a call takes from rows. -/
def argumentsIn (rows : List Row) (call : AggregateCall) : List Value :=
  rows.filterMap fun row => (argumentValue call row).toOption

theorem argument_mem_argumentsIn {rows : List Row} {call : AggregateCall} {row : Row}
    (hrow : row ∈ rows) (h : argumentValue call row = .ok (argument call row)) :
    argument call row ∈ argumentsIn rows call :=
  List.mem_filterMap.mpr ⟨row, hrow, by rw [h]; rfl⟩

/-- The value is a total of those that a call takes from rows, which are among given ones. -/
structure Totalled (pool : AggregateCall → List Value) (call : AggregateCall) (rows : List Row)
    (v : Value) : Prop where
  reads : ∀ row ∈ rows, argument call row ∈ pool call
  total : call.function.IsTotal (Value.below (pool call)) (rows.map (argument call)) v

/-- What a call ends with after some of the rows is a total. -/
theorem Accumulated.totalled {all rows : List Row} {call : AggregateCall} {v : Value}
    (hadds : call.function.adds = true → ∀ v ∈ argumentsIn all call, v.isIntegerOrNull = true)
    (hpicks : call.function.picks = true → Value.Ordered (argumentsIn all call))
    (hrows : ∀ row ∈ rows, row ∈ all) (h : Accumulated call rows v) :
    Totalled (argumentsIn all) call rows v := by
  obtain ⟨acc, rfl, hacc⟩ := h
  have hreads : ∀ row ∈ rows, argument call row ∈ argumentsIn all call :=
    fun row hrow => argument_mem_argumentsIn (hrows row hrow) (hacc.reads row hrow)
  have hvalues : ∀ v ∈ rows.map (argument call), v ∈ argumentsIn all call :=
    List.forall_mem_map.mpr hreads
  refine ⟨hreads, AggFunction.isTotal_of_foldlM ?_ (fun hf => (hpicks hf).ranks) ?_ hacc.folds⟩
  · exact fun hf v hv => hadds hf v (hvalues v hv)
  · exact fun _ v hv _ => hvalues v hv

/-- Two totals over the same rows are equal. -/
theorem Totalled.compare_eq {pool : AggregateCall → List Value} {call : AggregateCall}
    {rows : List Row} {v w : Value}
    (hpicks : call.function.picks = true → Value.Ordered (pool call))
    (h : Totalled pool call rows v) (h' : Totalled pool call rows w) : compare v w = .eq :=
  AggFunction.IsTotal.compare_eq (fun hf => (hpicks hf).ranks) (List.forall_mem_map.mpr h.reads)
    h.total h'.total

theorem Totalled.perm {pool : AggregateCall → List Value} {call : AggregateCall}
    {rows rows' : List Row} {v : Value} (h : Totalled pool call rows v) (hperm : rows.Perm rows') :
    Totalled pool call rows' v where
  reads row hrow := h.reads row (hperm.mem_iff.mpr hrow)
  total := h.total.perm (hperm.map _)

/-- A call that combines the totals of another one over parts has a total over all. Each of its rows
stands for a part and has the total of the part as argument. -/
theorem Totalled.rollUp {pool : AggregateCall → List Value} {call rolled : AggregateCall}
    {rows : List Row} {part : Row → List Row} {v : Value}
    (hfunction : rolled.function = call.function.rollUp)
    (hpicks : call.function.picks = true → Value.Ordered (pool call))
    (hparts : ∀ row ∈ rows, Totalled pool call (part row) (argument rolled row))
    (h : Accumulated rolled rows v) : Totalled pool call (rows.flatMap part) v := by
  obtain ⟨acc, rfl, hacc⟩ := h
  have hreads : ∀ row ∈ rows.flatMap part, argument call row ∈ pool call := by
    intro row hrow
    obtain ⟨t, ht, hrow⟩ := List.mem_flatMap.mp hrow
    exact (hparts t ht).reads row hrow
  have hrollUp : call.function.rollUp.picks = call.function.picks := by
    cases call.function <;> rfl
  have htotal : AggFunction.IsTotal (Value.below (pool call)) call.function.rollUp
      (rows.map (argument rolled)) (acc.getD .null) := by
    have hfolds := hacc.folds
    rw [hfunction] at hfolds
    refine AggFunction.isTotal_of_foldlM (fun hf => List.forall_mem_map.mpr fun row hrow => ?_)
      (fun hf => (hpicks (hrollUp ▸ hf)).ranks)
      (fun hf => List.forall_mem_map.mpr fun row hrow hnull => ?_) hfolds
    · refine (hparts row hrow).total.isIntegerOrNull ?_
      revert hf
      cases call.function <;> decide
    · have hmem := (hparts row hrow).total.mem (hrollUp ▸ hf) hnull
      obtain ⟨r, hr, heq⟩ := List.mem_map.mp hmem
      rw [← heq]
      exact (hparts row hrow).reads r hr
  refine ⟨hreads, ?_⟩
  have hforall : List.Forall₂ (AggFunction.IsTotal (Value.below (pool call)) call.function)
      (rows.map fun row => (part row).map (argument call)) (rows.map (argument rolled)) := by
    exact Outcome.forall₂_map_same.mpr fun row hrow => (hparts row hrow).total
  have := htotal.rollUp hforall
  rwa [List.map_flatMap, List.flatMap_def]

end Execution

end QueryPlan
