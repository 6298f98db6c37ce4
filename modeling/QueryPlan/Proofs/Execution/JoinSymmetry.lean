import Mathlib.Data.Multiset.Bind
import QueryPlan.Proofs.Execution.JoinLaws
import QueryPlan.Proofs.Execution.NodeRuns
import QueryPlan.Proofs.Execution.Success
import QueryPlan.Proofs.Execution.Width
/-!
# Joins from either side

A right join is a left join of the exchanged inputs: it sends the same rows with their blocks of columns
exchanged, in another sequence, since each join goes through its own left rows first. A full join sends
what the left join does and then the right rows without a match. Where the condition is true of every pair,
joins send what correlates do.
-/
namespace QueryPlan

/-! ## Exchanged columns -/

/-- Where a column of a row of `m` and then `n` columns is when the two blocks are exchanged. -/
def exchangedIndex (m n i : Nat) : Nat :=
  if i < m then i + n else if i < m + n then i - m else i

/-- A condition on rows of `m` and then `n` columns for rows with the two blocks exchanged. -/
def Expr.exchanged (m n : Nat) (e : Expr) : Expr :=
  e.mapColumns fun i t => .column (exchangedIndex m n i) t

/-- A row with its first columns at its end. -/
def Row.exchanged (n : Nat) (row : Row) : Row := row.drop n ++ row.take n

theorem Row.exchanged_append {n : Nat} {right left : Row} (h : right.length = n) :
    Row.exchanged n (right ++ left) = left ++ right := by
  rw [Row.exchanged, List.drop_left' h, List.take_left' h]

theorem getElem?_exchanged {α : Type} {left right : List α} (i : Nat) :
    (right ++ left)[exchangedIndex left.length right.length i]? = (left ++ right)[i]? := by
  unfold exchangedIndex
  split
  · next h => rw [List.getElem?_append_right (by omega), List.getElem?_append_left h,
      Nat.add_sub_cancel]
  · next h =>
    split
    · next h' => rw [List.getElem?_append_left (by omega), List.getElem?_append_right (by omega)]
    · next h' => rw [List.getElem?_eq_none (by simp; omega), List.getElem?_eq_none (by simp; omega)]

/-- An exchanged expression has on the exchanged row the outcome of the expression. -/
theorem Expr.evalOn_exchanged (e : Expr) (left right : OutcomeRow) :
    (e.exchanged left.length right.length).evalOn (right ++ left) = e.evalOn (left ++ right) := by
  refine Expr.evalOn_mapColumns fun i _ t => ?_
  rw [Expr.evalOn, Expr.evalOn, getElem?_exchanged]
  cases hi : (left ++ right)[i]? with
  | some v => rfl
  | none =>
    have hlength : left.length + right.length ≤ i := by simpa using List.getElem?_eq_none_iff.mp hi
    have hindex : exchangedIndex left.length right.length i = i := by
      unfold exchangedIndex
      rw [if_neg (by omega), if_neg (by omega)]
    rw [hindex, List.length_append, List.length_append, Nat.add_comm]

namespace Execution

open OutcomeRow

section

variable {condition : Expr} {left right : Row} {m n : Nat}

theorem meets_exchanged (hleft : left.length = m) (hright : right.length = n) :
    meets (condition.exchanged m n) right left = meets condition left right := by
  have heval := condition.evalOn_exchanged (ofRow left) (ofRow right)
  rw [length_ofRow, length_ofRow, hleft, hright] at heval
  unfold meets joins Expr.holdsOn
  rw [heval]

theorem hasValue_exchanged (hleft : left.length = m) (hright : right.length = n)
    (h : condition.HasValue (left ++ right)) : (condition.exchanged m n).HasValue (right ++ left) := by
  obtain ⟨v, hv⟩ := h
  refine ⟨v, ?_⟩
  have heval := condition.evalOn_exchanged (ofRow left) (ofRow right)
  rw [length_ofRow, length_ofRow, hleft, hright, ← ofRow_append, ← ofRow_append, evalOn_ofRow,
    evalOn_ofRow] at heval
  rw [heval, hv]

end

/-! ## Pairs in either sequence -/

section

variable {α β γ : Type}

/-- Pairs may be gone through by their left or by their right parts. -/
theorem flatMap_flatMap_perm (f : α → β → List γ) (as : List α) (bs : List β) :
    (as.flatMap fun a => bs.flatMap (f a)).Perm (bs.flatMap fun b => as.flatMap (f · b)) := by
  have h := Multiset.bind_bind (as : Multiset α) (bs : Multiset β) (f := fun a b => (f a b : Multiset γ))
  simpa only [Multiset.coe_bind, Multiset.coe_eq_coe] using h

/-- What is sent in place of nothing may be sent at the end. -/
theorem flatMap_ite_perm {p : α → Bool} {f : α → List β} {g : α → β} (as : List α)
    (h : ∀ a ∈ as, p a = true → f a = []) :
    (as.flatMap fun a => if p a then [g a] else f a).Perm
      (as.flatMap f ++ (as.filter p).map g) := by
  induction as with
  | nil => exact .nil
  | cons a as ih =>
    obtain ⟨ha, has⟩ := List.forall_mem_cons.mp h
    rw [List.flatMap_cons, List.flatMap_cons, List.filter_cons]
    cases hp : p a with
    | true =>
      rw [ha hp]
      exact (List.Perm.cons _ (ih has)).trans List.perm_middle.symm
    | false =>
      rw [List.append_assoc]
      exact List.Perm.append_left _ (ih has)

end

/-! ## Runs that succeed -/

section

variable {condition : Expr} {m n : Nat} {lefts rights : List Row}
  (hvalues : ∀ left ∈ lefts, ∀ right ∈ rights, condition.HasValue (left ++ right))

include hvalues

theorem completes_joined (joinType : JoinType) :
    Completes (runJoin false joinType condition m n lefts rights)
      (.ok (joined joinType condition m n lefts rights)) := by
  have h := completes_runJoin joinType condition m n lefts rights
  rwa [joinRows_eq_ok_iff.mpr ⟨hvalues, rfl⟩] at h

omit hvalues in
theorem hasMatch_of_hasValue {left : Row} (h : ∀ right ∈ rights, condition.HasValue (left ++ right)) :
    hasMatch condition left rights = .ok (rights.any (meets condition left)) := by
  induction rights with
  | nil => rfl
  | cons right rights ih =>
    obtain ⟨hright, hrights⟩ := List.forall_mem_cons.mp h
    have hmeets : condition.satisfied (left ++ right) = .ok (meets condition left right) := by
      rw [Expr.satisfied_eq_ok_iff, ofRow_append]
      exact ⟨hright, rfl⟩
    rw [hasMatch, hmeets, List.any_cons]
    cases meets condition left right with
    | true => rfl
    | false => exact ih hrights

theorem completes_matched :
    Completes (runSemiJoin false condition lefts rights)
      (.ok (lefts.filter fun left => rights.any (meets condition left))) := by
  have h := completes_runSemiJoin condition lefts rights
  have hrows : semiJoinRows condition rights lefts =
      .ok (lefts.filter fun left => rights.any (meets condition left)) := by
    clear h
    induction lefts with
    | nil => rfl
    | cons left lefts ih =>
      obtain ⟨hleft, hlefts⟩ := List.forall_mem_cons.mp hvalues
      rw [semiJoinRows, hasMatch_of_hasValue hleft, ih hlefts, List.filter_cons]
      rfl
  rwa [hrows] at h

end

/-! ## The rows of joins -/

section

variable (condition : Expr) (m n : Nat) (lefts rights : List Row)

/-- The matching pairs, left rows outermost. -/
def matchingPairs : List Row :=
  lefts.flatMap fun left => (rights.filter (meets condition left)).map (left ++ ·)

/-- Right rows without a match, with nulls on the left. -/
def unmatchedPadded : List Row :=
  (rights.filter fun right => !lefts.any (meets condition · right)).map (Row.nulls m ++ ·)

theorem joined_inner : joined .inner condition m n lefts rights = matchingPairs condition lefts rights :=
  List.append_nil _

theorem joined_right : joined .right condition m n lefts rights =
    matchingPairs condition lefts rights ++ unmatchedPadded condition m lefts rights := rfl

theorem joined_full : joined .full condition m n lefts rights =
    joined .left condition m n lefts rights ++ unmatchedPadded condition m lefts rights :=
  congrArg (· ++ unmatchedPadded condition m lefts rights) (List.append_nil _).symm

theorem matchingPairs_eq : matchingPairs condition lefts rights =
    ((lefts.product rights).filter fun (left, right) => meets condition left right).map
      fun (left, right) => left ++ right := by
  rw [List.product, List.filter_flatMap, List.map_flatMap]
  refine List.flatMap_congr fun left _ => ?_
  rw [List.filter_map, List.map_map]
  rfl

/-- The matching pairs may also be gone through by the right rows. -/
theorem matchingPairs_perm : (matchingPairs condition lefts rights).Perm
    (rights.flatMap fun right => (lefts.filter (meets condition · right)).map (· ++ right)) := by
  have hmap : ∀ (p : Row → Bool) (f : Row → Row) (rows : List Row),
      (rows.filter p).map f = rows.flatMap fun row => if p row then [f row] else [] := by
    intro p f rows
    rw [List.map_eq_flatMap, filter_flatMap_if]
  unfold matchingPairs
  simp only [hmap]
  exact flatMap_flatMap_perm (fun left right => if meets condition left right then [left ++ right] else [])
    lefts rights

/-- The left join of the exchanged inputs, with the blocks exchanged back. -/
theorem joined_left_exchanged (hlefts : HaveWidth m lefts) (hrights : HaveWidth n rights) :
    (joined .left (condition.exchanged m n) n m rights lefts).map (Row.exchanged n) =
      rights.flatMap fun right =>
        if !lefts.any (meets condition · right) then [Row.nulls m ++ right]
        else (lefts.filter (meets condition · right)).map (· ++ right) := by
  have hnone : joined .left (condition.exchanged m n) n m rights lefts = _ := List.append_nil _
  rw [hnone, List.map_flatMap]
  refine List.flatMap_congr fun right hright => ?_
  have hwidth : right.length = n := hrights right hright
  have hmeets : ∀ left ∈ lefts,
      meets (condition.exchanged m n) right left = meets condition left right :=
    fun left hleft => meets_exchanged (hlefts left hleft) hwidth
  rw [any_congr hmeets, List.filter_congr hmeets]
  show List.map _ (if !lefts.any (meets condition · right) then _ else _) = _
  split
  · rw [List.map_singleton, Row.exchanged_append hwidth]
  · rw [List.map_map]
    exact List.map_congr_left fun left _ => Row.exchanged_append hwidth

/-- The right join sends what the left join of the exchanged inputs does, with the blocks exchanged. -/
theorem joined_right_perm (hlefts : HaveWidth m lefts) (hrights : HaveWidth n rights) :
    (joined .right condition m n lefts rights).Perm
      ((joined .left (condition.exchanged m n) n m rights lefts).map (Row.exchanged n)) := by
  rw [joined_right, joined_left_exchanged condition m n lefts rights hlefts hrights]
  have hempty : ∀ right ∈ rights, (!lefts.any (meets condition · right)) = true →
      (lefts.filter (meets condition · right)).map (· ++ right) = [] := by
    intro right _ hnone
    simpa using hnone
  exact ((matchingPairs_perm condition lefts rights).append_right _).trans
    (flatMap_ite_perm rights hempty).symm

end

/-- What joins of two inputs have to do with each other and with correlates. -/
structure JoinsAgree (condition : Expr) (m n : Nat) (lefts rights : List Row) : Prop where
  mirror : ∃ right left,
    Completes (runJoin false .right condition m n lefts rights) (.ok right) ∧
    Completes (runJoin false .left (condition.exchanged m n) n m rights lefts) (.ok left) ∧
    right.Perm (left.map (Row.exchanged n))
  full : ∃ full left,
    Completes (runJoin false .full condition m n lefts rights) (.ok full) ∧
    Completes (runJoin false .left condition m n lefts rights) (.ok left) ∧
    full = left ++
      (rights.filter fun right => !lefts.any (meets condition · right)).map (Row.nulls m ++ ·)
  inner : Completes (runJoin false .inner condition m n lefts rights)
    (.ok (((lefts.product rights).filter fun (left, right) => meets condition left right).map
      fun (left, right) => left ++ right))
  semi : Completes (runSemiJoin false condition lefts rights)
    (.ok (lefts.filter fun left => rights.any (meets condition left)))

/-- Under a condition that is always true, correlates send what joins do. -/
structure CorrelatesAgree (m n : Nat) (lefts rights : List Row) : Prop where
  inner : ∃ rows, Completes (runCorrelate false .inner n lefts rights) (.ok rows) ∧
    Completes (runJoin false .inner (.bool true) m n lefts rights) (.ok rows)
  left : ∃ rows, Completes (runCorrelate false .left n lefts rights) (.ok rows) ∧
    Completes (runJoin false .left (.bool true) m n lefts rights) (.ok rows)
  semi : ∃ rows, Completes (runCorrelate false .semi n lefts rights) (.ok rows) ∧
    Completes (runSemiJoin false (.bool true) lefts rights) (.ok rows)
  anti : ∃ kept : Row → Bool,
    Completes (runCorrelate false .semi n lefts rights) (.ok (lefts.filter kept)) ∧
    Completes (runCorrelate false .anti n lefts rights) (.ok (lefts.filter (!kept ·)))

theorem correlates_agree (m n : Nat) (lefts rights : List Row) : CorrelatesAgree m n lefts rights := by
  have hvalues : ∀ left ∈ lefts, ∀ right ∈ rights, (Expr.bool true).HasValue (left ++ right) :=
    fun _ _ _ _ => ⟨_, rfl⟩
  have hall : ∀ left, rights.filter (meets (.bool true) left) = rights := fun left =>
    List.filter_eq_self.mpr fun _ _ => rfl
  have hany : ∀ left, rights.any (meets (.bool true) left) = !rights.isEmpty := fun left => by
    cases rights <;> rfl
  have hinner : joined .inner (.bool true) m n lefts rights =
      correlateRows .inner n lefts rights := by
    rw [joined_inner, matchingPairs]
    simp only [hall]
    rfl
  have hleft : joined .left (.bool true) m n lefts rights = correlateRows .left n lefts rights := by
    rw [joined, correlateRows]
    simp only [hall, hany, Bool.not_not]
    cases rights with
    | nil => simp [JoinType.padsRight, JoinType.padsLeft, List.map_eq_flatMap]
    | cons right rights => simp [JoinType.padsLeft]
  have hsemi : (lefts.filter fun left => rights.any (meets (.bool true) left)) =
      correlateRows .semi n lefts rights := by
    simp only [hany, correlateRows]
    cases rights <;> simp
  have hanti : (lefts.filter fun left => !rights.any (meets (.bool true) left)) =
      correlateRows .anti n lefts rights := by
    simp only [hany, correlateRows]
    cases rights <;> simp
  exact {
    inner := ⟨_, completes_runCorrelate .inner n lefts rights,
      hinner ▸ completes_joined hvalues .inner⟩
    left := ⟨_, completes_runCorrelate .left n lefts rights, hleft ▸ completes_joined hvalues .left⟩
    semi := ⟨_, completes_runCorrelate .semi n lefts rights, hsemi ▸ completes_matched hvalues⟩
    anti := by
      refine ⟨fun left => rights.any (meets (.bool true) left), ?_, ?_⟩
      · rw [hsemi]
        exact completes_runCorrelate .semi n lefts rights
      · rw [hanti]
        exact completes_runCorrelate .anti n lefts rights }

theorem joins_agree {condition : Expr} {m n : Nat} {lefts rights : List Row}
    (hlefts : HaveWidth m lefts) (hrights : HaveWidth n rights)
    (hvalues : ∀ left ∈ lefts, ∀ right ∈ rights, condition.HasValue (left ++ right)) :
    JoinsAgree condition m n lefts rights ∧ CorrelatesAgree m n lefts rights := by
  have hexchanged : ∀ right ∈ rights, ∀ left ∈ lefts,
      (condition.exchanged m n).HasValue (right ++ left) := fun right hright left hleft =>
    hasValue_exchanged (hlefts left hleft) (hrights right hright) (hvalues left hleft right hright)
  refine ⟨?_, correlates_agree m n lefts rights⟩
  exact {
    mirror := ⟨_, _, completes_joined hvalues .right, completes_joined hexchanged .left,
      joined_right_perm condition m n lefts rights hlefts hrights⟩
    full := ⟨_, _, completes_joined hvalues .full, completes_joined hvalues .left,
      joined_full condition m n lefts rights⟩
    inner := by
      rw [← matchingPairs_eq, ← joined_inner condition m n]
      exact completes_joined hvalues .inner
    semi := completes_matched hvalues }

/-- Guests with the floor they asked for, if they did. -/
def guests : List Row :=
  [[.integer 1, .integer 10], [.integer 2, .null], [.integer 3, .integer 10]]

/-- Rooms with their floor. -/
def rooms : List Row :=
  [[.integer 10, .varchar "A"], [.integer 20, .varchar "B"], [.integer 10, .varchar "C"]]

/-- The floor is the one that was asked for. -/
def sameFloor : Expr := .call .equals [.column 1 .bigint, .column 2 .bigint]

theorem joins_agree_guests :
    (HaveWidth 2 guests ∧ HaveWidth 2 rooms ∧
      ∀ guest ∈ guests, ∀ room ∈ rooms, sameFloor.HasValue (guest ++ room)) ∧
    (joined .right sameFloor 2 2 guests rooms).length = 5 ∧
    JoinsAgree sameFloor 2 2 guests rooms ∧ CorrelatesAgree 2 2 guests rooms := by
  have hguests : HaveWidth 2 guests := by decide
  have hrooms : HaveWidth 2 rooms := by decide
  have hvalues : ∀ guest ∈ guests, ∀ room ∈ rooms, sameFloor.HasValue (guest ++ room) := by
    have hok : ∀ guest ∈ guests, ∀ room ∈ rooms, (sameFloor.eval (guest ++ room)).isOk = true := by
      decide +kernel
    intro guest hguest room hroom
    have h := hok guest hguest room hroom
    cases heval : sameFloor.eval (guest ++ room) with
    | ok v => exact ⟨v, heval⟩
    | error e =>
      rw [heval] at h
      cases h
  exact ⟨⟨hguests, hrooms, hvalues⟩, by decide +kernel, joins_agree hguests hrooms hvalues⟩

end Execution

end QueryPlan
