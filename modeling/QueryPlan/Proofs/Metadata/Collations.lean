import QueryPlan.Proofs.Execution.Ordering
import QueryPlan.Metadata.Collations
/-!
# Collations found from collations and from rows

A projection whose columns are copies or constants has the collations of its input in other columns,
and literal rows have those that are found by comparing neighbours. Either are orders of the rows.
-/
namespace QueryPlan

open Execution

theorem exists_of_forall₂ {α β : Type} {R : α → β → Prop} {as : List α} {bs : List β}
    (h : List.Forall₂ R as bs) {b : β} (hb : b ∈ bs) : ∃ a ∈ as, R a b := by
  induction h with
  | nil => cases hb
  | cons hab _ ih =>
    rcases List.mem_cons.mp hb with rfl | hb
    · exact ⟨_, List.mem_cons_self, hab⟩
    · obtain ⟨a, ha, hR⟩ := ih hb
      exact ⟨a, List.mem_cons_of_mem _ ha, hR⟩

namespace OrderedSet

theorem mem_of_mem_replace {α : Type} [Ord α] {x y : α} {set : List α} (h : y ∈ replace x set) :
    y = x ∨ y ∈ set := by
  induction set with
  | nil => exact .inl (List.mem_singleton.mp h)
  | cons z set ih =>
    unfold replace at h
    split at h
    · exact List.mem_cons.mp h
    · exact (List.mem_cons.mp h).imp_right (List.mem_cons_of_mem z)
    · rcases List.mem_cons.mp h with rfl | h
      · exact .inr List.mem_cons_self
      · exact (ih h).imp_right (List.mem_cons_of_mem z)

theorem mem_of_mem_ofList {α : Type} [Ord α] {y : α} {xs : List α} (h : y ∈ ofList xs) :
    y ∈ xs := by
  induction xs with
  | nil => cases h
  | cons x xs ih =>
    rcases mem_of_mem_replace h with rfl | h
    · exact List.mem_cons_self
    · exact List.mem_cons_of_mem x (ih h)

end OrderedSet

namespace Collation

/-- Each of the collations is over columns below the arity, and the rows are in its order. -/
def AllOrder (cs : List Collation) (arity : Nat) (rows : List Row) : Prop :=
  ∀ c ∈ cs, c.Within arity ∧ c.Orders rows

variable {cs : List Collation} {arity : Nat} {rows : List Row}

instance (cs : List Collation) (arity : Nat) (rows : List Row) : Decidable (AllOrder cs arity rows) :=
  inferInstanceAs (Decidable (∀ c ∈ cs, c.Within arity ∧ c.Orders rows))

theorem allOrder_nil : AllOrder [] arity rows := fun _ h => by cases h

theorem AllOrder.imp {arity' : Nat} {rows' : List Row} (h : AllOrder cs arity rows)
    (harity : arity ≤ arity')
    (himp : ∀ c : Collation, c ∈ cs → c.Within arity → c.Orders rows → c.Orders rows') :
    AllOrder cs arity' rows' :=
  fun c hc => ⟨fun k hk => Nat.lt_of_lt_of_le ((h c hc).1 k hk) harity,
    himp c hc (h c hc).1 (h c hc).2⟩

theorem keys_ofKeys (keys : List Nat) : (ofKeys keys).keys = keys := by
  rw [ofKeys, Collation.keys, List.map_map]
  exact List.map_id keys

/-! ### Projections -/

theorem movingFields?_of_not_calls {inputs : List Collation} {exprs : List (Expr × Nat)}
    (h : ∀ p ∈ exprs, p.1.op? = none) : movingFields? inputs exprs = some [] := by
  induction exprs with
  | nil => rfl
  | cons p exprs ih =>
    rw [List.forall_mem_cons] at h
    obtain ⟨e, i⟩ := p
    cases e with
    | apply op es t => cases h.1
    | _ => simp only [movingFields?, ih h.2]; rfl

/-- A collation of a projection without calls is one of its input in terms of columns that
copy the input's. -/
theorem exists_of_ofProjection? {exprs : List Expr} {inputs cs : List Collation}
    (hcopies : ∀ e ∈ exprs, e.op? = none)
    (h : ofProjection? exprs inputs = some cs) {c : Collation} (hc : c ∈ cs) :
    ∃ d ∈ inputs, throughProjection? exprs d = some c := by
  have hmoving : movingFields? inputs exprs.zipIdx = some [] :=
    movingFields?_of_not_calls fun p hp => hcopies p.1 (List.fst_mem_of_mem_zipIdx hp)
  unfold ofProjection? at h
  rw [hmoving] at h
  split at h
  · cases h
    cases hc
  · cases h
    have hmem := OrderedSet.mem_of_mem_ofList hc
    simp only [List.isEmpty_nil, if_true, List.append_nil, List.mem_filterMap, List.mem_filter] at hmem
    obtain ⟨d, ⟨hd, -⟩, hthrough⟩ := hmem
    exact ⟨d, hd, hthrough⟩

/-- Fields of an output and of an input that its columns copy. -/
theorem forall₂_of_throughProjection? {exprs : List Expr} {c d : Collation}
    (h : throughProjection? exprs d = some c) :
    List.Forall₂ (fun a b : FieldCollation => b = { a with field := b.field } ∧
      ∃ e, exprs[b.field]? = some e ∧ e.asColumn? = some a.field) d.fields c.fields := by
  obtain ⟨fields, hfields, rfl⟩ := Option.map_eq_some_iff.mp h
  refine (Outcome.forall₂_of_mapM_eq_some hfields).imp fun a b hab => ?_
  obtain ⟨i, hi, rfl⟩ := Option.map_eq_some_iff.mp hab
  obtain ⟨hlt, hcopy, -⟩ := List.findIdx?_eq_some_iff_getElem.mp hi
  exact ⟨rfl, exprs[i], List.getElem?_eq_getElem hlt, beq_iff_eq.mp hcopy⟩

theorem order_projectedRow {exprs : List Expr} {c d : Collation}
    (h : throughProjection? exprs d = some c) (a b : Row) :
    c.order (projectedRow exprs a) (projectedRow exprs b) = d.order a b := by
  have hfields := forall₂_of_throughProjection? h
  unfold order
  generalize d.fields = fields at hfields ⊢
  generalize c.fields = fields' at hfields ⊢
  induction hfields with
  | nil => rfl
  | @cons x y _ _ hxy _ ih =>
    obtain ⟨hy, e, he, hcopy⟩ := hxy
    rw [orderBy, orderBy, ih, FieldCollation.order_eq, FieldCollation.order_eq,
      valueAt_projectedRow he hcopy, valueAt_projectedRow he hcopy, hy]
    rfl

theorem allOrder_projection {exprs : List Expr} {inputs cs : List Collation} {arity : Nat}
    {rows : List Row} (hcopies : ∀ e ∈ exprs, e.op? = none)
    (h : AllOrder inputs arity rows) (hcs : ofProjection? exprs inputs = some cs) :
    AllOrder cs exprs.length (rows.map (projectedRow exprs)) := by
  intro c hc
  obtain ⟨d, hd, hthrough⟩ := exists_of_ofProjection? hcopies hcs hc
  refine ⟨fun k hk => ?_, (h d hd).2.map fun a _ b _ => order_projectedRow hthrough a b⟩
  obtain ⟨fc, hfc, rfl⟩ := List.mem_map.mp hk
  obtain ⟨_, -, -, e, he, -⟩ := exists_of_forall₂ (forall₂_of_throughProjection? hthrough) hfc
  exact (List.getElem?_eq_some_iff.mp he).1

/-! ### Literal rows -/

theorem sorts?_of_extendKey? {rows : List Row} {key columns longer : List Nat}
    (h : extendKey? rows key columns = some longer) (hkey : (ofKeys key).sorts? rows = some true) :
    (ofKeys longer).sorts? rows = some true ∧ ∀ k ∈ longer, k ∈ key ∨ k ∈ columns := by
  induction columns generalizing key with
  | nil =>
    cases h
    exact ⟨hkey, fun k hk => .inl hk⟩
  | cons column columns ih =>
    obtain ⟨sorted, hsorted, h⟩ := Option.bind_eq_some_iff.mp h
    cases sorted with
    | true =>
      obtain ⟨hsorts, hmem⟩ := ih h hsorted
      refine ⟨hsorts, fun k hk => ?_⟩
      rcases hmem k hk with hk | hk
      · rcases List.mem_append.mp hk with hk | hk
        · exact .inl hk
        · rw [List.mem_singleton.mp hk]
          exact .inr List.mem_cons_self
      · exact .inr (List.mem_cons_of_mem _ hk)
    | false =>
      obtain ⟨hsorts, hmem⟩ := ih h hkey
      exact ⟨hsorts, fun k hk => (hmem k hk).imp_right (List.mem_cons_of_mem _)⟩

theorem keyFrom?_eq_some {arity : Nat} {rows : List Row} {column : Nat} {c : Collation}
    (hcolumn : column < arity) (h : keyFrom? arity rows column = some (some c)) :
    ∃ keys, c = ofKeys keys ∧ (ofKeys keys).sorts? rows = some true ∧ ∀ k ∈ keys, k < arity := by
  obtain ⟨sorted, hsorted, h⟩ := Option.bind_eq_some_iff.mp h
  cases sorted with
  | false => cases h
  | true =>
    obtain ⟨keys, hkeys, h⟩ := Option.bind_eq_some_iff.mp h
    cases h
    obtain ⟨hsorts, hmem⟩ := sorts?_of_extendKey? hkeys hsorted
    refine ⟨keys, rfl, hsorts, fun k hk => ?_⟩
    rcases hmem k hk with hk | hk
    · rw [List.mem_singleton.mp hk]
      exact hcolumn
    · obtain ⟨i, hi, rfl⟩ := List.mem_map.mp hk
      have := List.mem_range.mp hi
      omega

/-- Collations that are found in literal rows are orders of the rows, where the values that they sort
are ordered. -/
theorem allOrder_ofRows? {arity : Nat} {rows : List Row} {cs : List Collation}
    (h : ofRows? arity rows = some cs) (hordered : ∀ c ∈ cs, c.OnOrdered rows) :
    AllOrder cs arity rows := by
  intro c hc
  have hon := hordered c hc
  obtain ⟨found, hfound, h⟩ := Option.bind_eq_some_iff.mp h
  cases h
  obtain ⟨c?, hc?, hsome⟩ := List.mem_filterMap.mp hc
  obtain ⟨column, hcolumn, hkey⟩ := exists_of_forall₂ (Outcome.forall₂_of_mapM_eq_some hfound) hc?
  rw [show c? = some c from hsome] at hkey
  obtain ⟨keys, rfl, hsorts, hlt⟩ := keyFrom?_eq_some (List.mem_range.mp hcolumn) hkey
  exact ⟨fun k hk => hlt k (by rwa [keys_ofKeys] at hk), orders_of_isChain hon (isChain_of_sorts? hsorts)⟩

end Collation

end QueryPlan
