import QueryPlan.Proofs.Execution.Fusion
import QueryPlan.Proofs.Execution.Ordering
/-!
# What a sort emits

A stable sort is fixed by what it does: it permutes the rows, puts them in order and leaves each class
of rows that compare as equal in sequence. A sort emits a range of the one stable sort of its input.
Without an order it skips and counts the rows that come, with one it sorts all of them and cuts the
range out, and both find the same rows.
-/
namespace QueryPlan

open Execution

namespace Collation

/-- The rows sorted: a permutation of them in order, with rows that compare as equal in sequence. -/
structure StablySorts (c : Collation) (rows sorted : List Row) : Prop where
  perm : sorted.Perm rows
  orders : c.Orders sorted
  stable : ∀ a ∈ rows, sorted.filter (c.order a · == .eq) = rows.filter (c.order a · == .eq)

variable {c : Collation} {rows sorted sorted' : List Row}

/-- Sorting by a collation is stable. -/
theorem stablySorts_sort (h : c.OnOrdered rows) : c.StablySorts rows (c.sort rows) where
  perm := List.mergeSort_perm _ _
  orders := orders_sort h
  stable := by
    intro a ha
    obtain ⟨places, hplaces, hsort⟩ := h.exists_sort_eq
    have hclass : ((rows.filter (c.order a · == .eq)).Pairwise
        fun b d => (compare (places b) (places d)).isLE = true) := by
      refine List.pairwise_of_forall_mem_list fun b hb d hd => ?_
      obtain ⟨hb, hab⟩ := List.mem_filter.mp hb
      obtain ⟨hd, had⟩ := List.mem_filter.mp hd
      rw [hplaces a ha b hb, beq_iff_eq, Std.LawfulEqCmp.compare_eq_iff_eq] at hab
      rw [hplaces a ha d hd, beq_iff_eq, Std.LawfulEqCmp.compare_eq_iff_eq] at had
      rw [← hab, ← had, Std.ReflOrd.compare_self]
      rfl
    -- the class is sorted as it is, so that sorting all rows leaves it in sequence
    have hsublist := List.sublist_mergeSort (fun _ _ _ => Std.TransCmp.isLE_trans)
      (fun b d => isLE_compare_or (places b) (places d)) hclass List.filter_sublist
    rw [← hsort] at hsublist
    have hfilter := hsublist.filter (c.order a · == .eq)
    rw [List.filter_filter] at hfilter
    simp only [Bool.and_self] at hfilter
    exact (hfilter.eq_of_length ((List.mergeSort_perm _ _).filter _).length_eq.symm).symm

/-- Rows in order are told by the sequence within each class. -/
theorem Orders.eq_of_classes (h : c.OnOrdered rows) (hrows : ∀ a ∈ sorted, a ∈ rows)
    (horders : c.Orders sorted) (horders' : c.Orders sorted') (hperm : sorted.Perm sorted')
    (hclasses : ∀ a ∈ sorted,
      sorted.filter (c.order a · == .eq) = sorted'.filter (c.order a · == .eq)) :
    sorted = sorted' := by
  obtain ⟨places, hplaces⟩ := h.exists_places
  induction sorted generalizing sorted' with
  | nil => exact hperm.nil_eq
  | cons a rest ih =>
    cases sorted' with
    | nil => exact absurd hperm.symm.nil_eq (by simp)
    | cons b rest' =>
      have ha := hrows a List.mem_cons_self
      have hb := hrows b (hperm.mem_iff.mpr List.mem_cons_self)
      have hab : c.order a b = .eq := by
        by_cases hne : a = b
        · rw [hne, order_self]
        · have hmem : a ∈ rest' :=
            (List.mem_cons.mp (hperm.mem_iff.mp List.mem_cons_self)).resolve_left hne
          have hmem' : b ∈ rest :=
            (List.mem_cons.mp (hperm.mem_iff.mpr List.mem_cons_self)).resolve_left (Ne.symm hne)
          have hle := (List.pairwise_cons.mp horders).1 b hmem'
          have hge := (List.pairwise_cons.mp horders').1 a hmem
          rw [hplaces b hb a ha, Std.OrientedOrd.eq_swap, ← hplaces a ha b hb] at hge
          cases hcompare : c.order a b with
          | lt => rw [hcompare] at hge; exact absurd rfl hge
          | eq => rfl
          | gt => exact absurd hcompare hle
      have hhead := hclasses a List.mem_cons_self
      rw [List.filter_cons_of_pos (by rw [order_self]; rfl),
        List.filter_cons_of_pos (by rw [hab]; rfl)] at hhead
      obtain ⟨rfl, -⟩ := List.cons_eq_cons.mp hhead
      congr 1
      refine ih (fun d hd => hrows d (List.mem_cons_of_mem _ hd))
        (List.pairwise_cons.mp horders).2 (List.pairwise_cons.mp horders').2
        (hperm.cons_inv) fun d hd => ?_
      have hclass := hclasses d (List.mem_cons_of_mem _ hd)
      rw [List.filter_cons, List.filter_cons] at hclass
      split at hclass
      · exact (List.cons_eq_cons.mp hclass).2
      · exact hclass

/-- There is one stable sort. -/
theorem StablySorts.unique (h : c.OnOrdered rows) (hsorted : c.StablySorts rows sorted)
    (hsorted' : c.StablySorts rows sorted') : sorted = sorted' :=
  Orders.eq_of_classes h (fun _ ha => hsorted.perm.mem_iff.mp ha) hsorted.orders hsorted'.orders
    (hsorted.perm.trans hsorted'.perm.symm) fun a ha =>
      (hsorted.stable a (hsorted.perm.mem_iff.mp ha)).trans
        (hsorted'.stable a (hsorted.perm.mem_iff.mp ha)).symm

end Collation

namespace Execution

/-! ## Ranges of rows -/

/-- The rows after an offset, up to a number. -/
def limitRows (offset : Nat) (fetch : Option Nat) (rows : List Row) : List Row :=
  match fetch with
  | some n => (rows.drop offset).take n
  | none => rows.drop offset

theorem streamRows_some (n : Nat) {sent : Nat} (hsent : sent ≤ n) (rows : List Row) :
    streamRows (some n) 0 sent rows = rows.take (n - sent) := by
  induction rows generalizing sent with
  | nil => rw [streamRows, List.take_nil]
  | cons row rows ih =>
    rw [streamRows, Option.all_some]
    by_cases hlt : sent < n
    · rw [if_pos (decide_eq_true hlt), ih hlt, show n - sent = n - (sent + 1) + 1 by omega,
        List.take_succ_cons]
    · rw [if_neg (by simpa using hlt), show n - sent = 0 by omega, List.take_zero]

theorem streamRows_drop (fetch : Option Nat) (offset : Nat) (rows : List Row) :
    streamRows fetch offset 0 rows = streamRows fetch 0 0 (rows.drop offset) := by
  induction offset generalizing rows with
  | zero => rw [List.drop_zero]
  | succ offset ih =>
    cases rows with
    | nil => rw [List.drop_nil, streamRows, streamRows]
    | cons row rows => rw [streamRows, ih, List.drop_succ_cons]

/-- Skipping and counting finds the rows of the range. -/
theorem streamRows_eq (offset : Nat) (fetch : Option Nat) (rows : List Row) :
    streamRows fetch offset 0 rows = limitRows offset fetch rows := by
  rw [streamRows_drop]
  cases fetch with
  | none => exact streamRows_none 0 _
  | some n => exact streamRows_some n n.zero_le _

/-- Cutting rows off at the end of the range finds those of the range, as the sum that stops at the
largest integer is still beyond all rows. -/
theorem drop_take_rangeEnd (offset : Nat) (fetch : Option Nat) {rows : List Row}
    (hlength : rows.length < UInt64.size) :
    (rows.take (rangeEnd offset fetch rows.length)).drop offset = limitRows offset fetch rows := by
  unfold rangeEnd limitRows
  cases fetch with
  | none => rw [List.take_length]
  | some n =>
    have hend : min rows.length (saturatingAdd offset n) = min rows.length (offset + n) := by
      unfold saturatingAdd
      omega
    dsimp only
    rw [hend, List.drop_take, List.take_eq_take_iff, List.length_drop]
    omega

/-- The rows that a sort emits are a range of all rows sorted. -/
theorem sortRows_eq (c : Collation) (offset : Nat) (fetch : Option Nat) {rows : List Row}
    (hlength : rows.length < UInt64.size) :
    sortRows c offset fetch rows = (c.sort? rows).map (limitRows offset fetch) := by
  unfold sortRows
  split
  · next hempty =>
    have hsort : c.sort? rows = .ok (c.sort rows) := by
      rw [Collation.sort?, if_pos]
      simp [Collation.reads, Collation.keys, List.isEmpty_iff.mp hempty]
    rw [hsort, sort_of_isEmpty hempty, streamRows_eq]
    rfl
  · cases hsort : c.sort? rows with
    | error e => rfl
    | ok sorted =>
      have hcount : sorted.length = rows.length := by
        rw [sort?_eq_ok hsort]
        exact List.length_mergeSort _
      have hrange := drop_take_rangeEnd offset fetch (hcount ▸ hlength)
      exact congrArg Except.ok hrange

/-- A sort emits a range of the one stable sort of its rows, whatever the range is, unless two of the
rows cannot be compared. -/
theorem sortRows_emits_range (c : Collation) (offset : Nat) (fetch : Option Nat) (rows : List Row)
    (hunmixed : ∀ k ∈ c.keys, Value.Unmixed (Row.inColumn rows k))
    (hlength : rows.length < UInt64.size) :
    ∃ sorted, (∀ other, c.StablySorts rows other ↔ other = sorted) ∧
      sortRows c offset fetch rows =
        if rows.all c.reads || c.canSort rows then .ok (limitRows offset fetch sorted)
        else .error .missingColumn := by
  have hordered : c.OnOrdered rows := fun k hk => (hunmixed k hk).ordered
  have hstable := Collation.stablySorts_sort hordered
  refine ⟨c.sort rows, fun other => ⟨fun hother => hother.unique hordered hstable, ?_⟩, ?_⟩
  · rintro rfl
    exact hstable
  · rw [sortRows_eq c offset fetch hlength, Collation.sort?]
    split
    · rfl
    · rfl

/-- The takings of the first day keep their sequence behind the first of them, and the range goes on
beyond the largest integer. -/
theorem sortRows_emits_range_takings :
    (∀ k ∈ (Collation.ofKeys [0]).keys, Value.Unmixed (Row.inColumn takings k)) ∧
      takings.length < UInt64.size ∧
      sortRows (Collation.ofKeys [0]) 1 (some (UInt64.size - 1)) takings =
        .ok [[.integer 1, .integer 2, .null], [.integer 1, .null, .integer 3],
          [.integer 2, .integer 1, .integer 5], [.integer 2, .null, .null]] := by
  have hunmixed : ∀ k ∈ (Collation.ofKeys [0]).keys, Value.Unmixed (Row.inColumn takings k) := by
    have hintegers : ∀ k ∈ (Collation.ofKeys [0]).keys, ∀ v ∈ Row.inColumn takings k,
      v.dataType ≠ .double := by decide
    exact fun k hk => ⟨.double, .inr rfl, hintegers k hk⟩
  have hlength : takings.length < UInt64.size := by decide
  have hsorted : (Collation.ofKeys [0]).StablySorts takings
      [[.integer 1, .null, .integer 4], [.integer 1, .integer 2, .null],
        [.integer 1, .null, .integer 3], [.integer 2, .integer 1, .integer 5],
        [.integer 2, .null, .null]] := by
    refine ⟨?_, by decide, by decide⟩
    exact @List.perm_middle _ [.integer 2, .integer 1, .integer 5] ((takings.drop 1).take 3)
      (takings.drop 4)
  obtain ⟨sorted, hstable, hrows⟩ :=
    sortRows_emits_range (.ofKeys [0]) 1 (some (UInt64.size - 1)) takings hunmixed hlength
  refine ⟨hunmixed, hlength, ?_⟩
  rw [hrows, ← (hstable _).mp hsorted]
  rfl

end Execution
end QueryPlan
