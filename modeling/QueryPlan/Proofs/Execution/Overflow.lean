import QueryPlan.Proofs.Execution.Totals
/-!
# When aggregates have rows

An aggregate that finds its columns and adds up integers only has rows unless a sum leaves the machine
words. `Outcome.Yields` says of one computation what it returns where no sum does.
-/
namespace QueryPlan

namespace Outcome

variable {α β : Type} {p : α → Prop} {q : β → Prop}

/-- The computation stops at a sum that is no machine word. -/
def Overflows (x : Except EvalError α) : Prop := ∃ a b, x = .error (.sumOverflow a b)

theorem Overflows.bind {x : Except EvalError α} (h : Overflows x) (f : α → Except EvalError β) :
    Overflows (x >>= f) := by
  obtain ⟨a, b, rfl⟩ := h
  exact ⟨a, b, rfl⟩

/-- The computation returns a value with the property, unless a sum overflows. -/
def Yields (p : α → Prop) : Except EvalError α → Prop
  | .ok a => p a
  | .error e => ∃ a b, e = .sumOverflow a b

theorem Yields.bind {x : Except EvalError α} {f : α → Except EvalError β} (h : Yields p x)
    (hf : ∀ a, p a → Yields q (f a)) : Yields q (x >>= f) := by
  cases x with
  | error e => exact h
  | ok a => exact hf a h

theorem Yields.map {x : Except EvalError α} {f : α → β} (h : Yields p x)
    (hf : ∀ a, p a → q (f a)) : Yields q (f <$> x) := by
  cases x with
  | error e => exact h
  | ok a => exact hf a h

theorem yields_foldlM {f : α → β → Except EvalError α} {bs : List β}
    (hf : ∀ b ∈ bs, ∀ a, p a → Yields p (f a b)) {a : α} (ha : p a) : Yields p (bs.foldlM f a) := by
  induction bs generalizing a with
  | nil => exact ha
  | cons b bs ih =>
    obtain ⟨hb, hbs⟩ := List.forall_mem_cons.mp hf
    rw [List.foldlM_cons]
    exact (hb a ha).bind fun a' ha' => ih hbs ha'

theorem Yields.exists_ok {x : Except EvalError α} (h : Yields p x) (hx : ¬ Overflows x) :
    ∃ a, x = .ok a ∧ p a := by
  cases x with
  | ok a => exact ⟨a, rfl, h⟩
  | error e =>
    obtain ⟨a, b, rfl⟩ := h
    exact absurd ⟨a, b, rfl⟩ hx

end Outcome

open Outcome

namespace AggFunction

/-- An accumulator of a function that adds values up holds an integer or nothing. -/
def Sums (f : AggFunction) (acc : Option Value) : Prop :=
  f.adds = true → ∀ v, acc = some v → ∃ i, v = .integer i

theorem sums_start (f : AggFunction) : f.Sums f.start := by
  cases f with
  | sum0 =>
    rintro - _ ⟨⟩
    exact ⟨0, rfl⟩
  | count | min | max => nofun
  | sum => exact fun _ => nofun

theorem yields_addValues (x y : Int64) :
    Yields (fun v => ∃ i, v = .integer i) (addValues (.integer x) (.integer y)) := by
  unfold addValues
  dsimp only
  split
  · exact ⟨_, rfl⟩
  · exact ⟨x, y, rfl⟩

theorem exists_integer {v : Value} (h : v.isIntegerOrNull = true) (hnull : v.isNull = false) :
    ∃ i, v = .integer i := by
  cases v with
  | integer i => exact ⟨i, rfl⟩
  | null => cases hnull
  | boolean | double | varchar => cases h

/-- One more value of those that the function takes. -/
theorem yields_step {f : AggFunction} {acc : Option Value} {v : Value}
    (hv : f.adds = true → v.isIntegerOrNull = true) (hacc : f.Sums acc) :
    Yields f.Sums (f.step acc v) := by
  cases hnull : v.isNull with
  | true =>
    rw [Value.eq_null hnull]
    exact hacc
  | false =>
    rw [step_of_not_null hnull]
    cases f with
    | count | min | max =>
      -- no sum to keep
      rcases acc with - | (_ | _ | _ | _ | _) <;> exact nofun
    | sum | sum0 =>
      obtain ⟨i, rfl⟩ := exists_integer (hv rfl) hnull
      cases acc with
      | none =>
        rintro - _ ⟨⟩
        exact ⟨i, rfl⟩
      | some total =>
        obtain ⟨n, rfl⟩ := hacc rfl total rfl
        refine (yields_addValues n i).map fun w hw => ?_
        rintro - _ ⟨⟩
        exact hw

end AggFunction

namespace Execution

/-- The call finds its argument in the row, and can add it up if it adds. -/
def Takes (call : AggregateCall) (row : Row) : Prop :=
  ∃ v, argumentValue call row = .ok v ∧ (call.function.adds = true → v.isIntegerOrNull = true)

/-- The accumulators of some calls. -/
abbrev AllSum (calls : List AggregateCall) (accs : List (Option Value)) : Prop :=
  List.Forall₂ (fun call acc => call.function.Sums acc) calls accs

theorem allSum_emptyGroup (calls : List AggregateCall) : AllSum calls (emptyGroup calls) :=
  List.forall₂_map_right_iff.mpr (List.forall₂_same.mpr fun call _ => call.function.sums_start)

theorem yields_addRow {calls : List AggregateCall} {accs : List (Option Value)} {row : Row}
    (htakes : ∀ call ∈ calls, Takes call row) (haccs : AllSum calls accs) :
    Yields (AllSum calls) (addRow row calls accs) := by
  induction haccs with
  | nil => exact .nil
  | cons hacc _ ih =>
    obtain ⟨⟨v, hv, hadds⟩, htakes⟩ := List.forall_mem_cons.mp htakes
    rw [addRow, hv]
    refine (AggFunction.yields_step hadds hacc).bind fun acc' hacc' => ?_
    exact (ih htakes).bind fun accs' haccs' => .cons hacc' haccs'

theorem yields_addToGroups {calls : List AggregateCall} {key row : Row}
    {groups : List (Row × List (Option Value))} (htakes : ∀ call ∈ calls, Takes call row)
    (hgroups : ∀ g ∈ groups, AllSum calls g.2) :
    Yields (fun groups => ∀ g ∈ groups, AllSum calls g.2) (addToGroups calls key row groups) := by
  have hnew := yields_addRow htakes (allSum_emptyGroup calls)
  induction groups with
  | nil => exact hnew.bind fun accs haccs => List.forall_mem_singleton.mpr haccs
  | cons group groups ih =>
    obtain ⟨k, accs⟩ := group
    obtain ⟨hgroup, hrest⟩ := List.forall_mem_cons.mp hgroups
    unfold addToGroups
    split
    · exact hnew.bind fun accs' haccs' => List.forall_mem_cons.mpr ⟨haccs', hgroups⟩
    · exact (yields_addRow htakes hgroup).bind fun accs' haccs' =>
        List.forall_mem_cons.mpr ⟨haccs', hrest⟩
    · exact (ih hrest).bind fun groups' hgroups' => List.forall_mem_cons.mpr ⟨hgroup, hgroups'⟩

theorem groupKey_eq_select {group : ColumnSet} {row : Row}
    (h : ∀ i ∈ group.toList, i < row.length) : groupKey group row = .ok (row.select group.toList) := by
  refine Outcome.mapM_eq_ok_map fun i hi => ?_
  rw [columnValue, Row.valueAt, List.getElem?_eq_getElem (h i hi)]
  rfl

/-- An aggregate that finds its columns and adds up integers only fails where a sum overflows. -/
theorem yields_aggregateRows {group : ColumnSet} {calls : List AggregateCall} {rows : List Row}
    (hkeys : ∀ row ∈ rows, ∀ i ∈ group.toList, i < row.length)
    (htakes : ∀ row ∈ rows, ∀ call ∈ calls, Takes call row) :
    Yields (fun _ => True) (aggregateRows group calls rows) := by
  have hgroups : Yields (fun groups => ∀ g ∈ groups, AllSum calls g.2)
      (groupRows group calls rows) := by
    refine yields_foldlM (fun row hrow groups hgroups => ?_) (by simp)
    rw [groupKey_eq_select (hkeys row hrow)]
    exact yields_addToGroups (htakes row hrow) hgroups
  exact hgroups.bind fun groups _ => trivial

end Execution

end QueryPlan
