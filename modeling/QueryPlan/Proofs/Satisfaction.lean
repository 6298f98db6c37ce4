import QueryPlan.Traits
import QueryPlan.Proofs.Execution.Ordering
/-!
# Traits that serve in place of others

`satisfies` is a partial order on traits, so a relation that serves where some traits are asked for serves
wherever these do. For the order of rows it means that rows are in the order asked for: what a collation
satisfies are its leading fields, and rows that are sorted by all fields are sorted by the leading ones.
-/
namespace QueryPlan

theorem Convention.satisfies_iff {a b : Convention} : a.satisfies b = true ↔ a = b := by
  simp [satisfies]

namespace Distribution

variable {a b d : Distribution}

theorem satisfies_iff : a.satisfies b = true ↔ b = any ∨ a = b := by
  simp [satisfies]

theorem satisfies_trans (h : a.satisfies b = true) (h' : b.satisfies d = true) :
    a.satisfies d = true := by
  rw [satisfies_iff] at *
  rcases h' with rfl | rfl
  · exact .inl rfl
  · exact h

theorem satisfies_antisymm (h : a.satisfies b = true) (h' : b.satisfies a = true) : a = b := by
  rw [satisfies_iff] at *
  rcases h with rfl | rfl
  · rcases h' with rfl | rfl <;> rfl
  · rfl

end Distribution

namespace Collation

variable {c d e : Collation}

/-- The collations that one satisfies are its leading fields. -/
theorem satisfies_iff : c.satisfies d = true ↔ d = c.leading d.fields.length := by
  obtain ⟨fields⟩ := d
  rw [satisfies, List.isPrefixOf_iff_prefix, List.prefix_iff_eq_take, leading, Collation.mk.injEq]

theorem satisfies_iff_fields : c.satisfies d = true ↔ d.fields <+: c.fields :=
  List.isPrefixOf_iff_prefix

theorem satisfies_refl (c : Collation) : c.satisfies c = true :=
  satisfies_iff_fields.mpr (List.prefix_refl _)

theorem satisfies_trans (h : c.satisfies d = true) (h' : d.satisfies e = true) :
    c.satisfies e = true :=
  satisfies_iff_fields.mpr ((satisfies_iff_fields.mp h').trans (satisfies_iff_fields.mp h))

theorem satisfies_antisymm (h : c.satisfies d = true) (h' : d.satisfies c = true) : c = d := by
  rw [satisfies_iff_fields] at *
  have hfields : c.fields = d.fields := h'.eq_of_length (Nat.le_antisymm h'.length_le h.length_le)
  obtain ⟨fields⟩ := c
  obtain ⟨fields'⟩ := d
  exact congrArg Collation.mk hfields

/-! ## Rows in the order of a collation -/

theorem Orders.leading {rows : List Row} (h : c.Orders rows) (n : Nat) : (c.leading n).Orders rows :=
  h.imp fun hab => leading_ne_gt hab n

theorem sorts?_leading {rows : List Row} (h : c.sorts? rows = some true) (n : Nat) :
    (c.leading n).sorts? rows = some true :=
  sorts?_eq_some_true_iff.mpr ((sorts?_eq_some_true_iff.mp h).imp fun _ _ hab =>
    ⟨canCompare_leading hab.1 n, leading_ne_gt hab.2 n⟩)

/-! ## Moving fields -/

theorem leading_shift (c : Collation) (offset : Int) (n : Nat) :
    (c.shift offset).leading n = (c.leading n).shift offset := by
  rw [leading, leading, shift, shift, List.map_take]

theorem satisfies_shift (h : c.satisfies d = true) (offset : Int) :
    (c.shift offset).satisfies (d.shift offset) = true := by
  rw [satisfies_iff] at *
  rw [leading_shift, shift, List.length_map, ← h, shift]

/-- Fields that are words are moved back by the opposite offset. -/
theorem shift_neg_shift (h : c.Within UInt64.size) (offset : Int) :
    (c.shift offset).shift (-offset) = c := by
  obtain ⟨fields⟩ := c
  rw [shift, shift, List.map_map, Collation.mk.injEq]
  refine (List.map_congr_left fun fc hfc => ?_).trans (List.map_id fields)
  have hlt : fc.field < UInt64.size := h fc.field (List.mem_map_of_mem hfc)
  have hback : shiftOrdinal (-offset) (shiftOrdinal offset fc.field) = fc.field := by
    unfold shiftOrdinal
    unfold UInt64.size at *
    omega
  rw [Function.comp_apply, FieldCollation.shift, FieldCollation.shift, hback]
  rfl

theorem satisfies_shift_eq (hc : c.Within UInt64.size) (hd : d.Within UInt64.size) (offset : Int) :
    (c.shift offset).satisfies (d.shift offset) = c.satisfies d := by
  rw [Bool.eq_iff_iff]
  refine ⟨fun h => ?_, fun h => satisfies_shift h offset⟩
  have hback := satisfies_shift h (-offset)
  rwa [shift_neg_shift hc, shift_neg_shift hd] at hback

end Collation

namespace Traits

variable {t u v : Traits}

theorem satisfies_iff : t.satisfies u = true ↔ t.convention = u.convention ∧
    t.collation.satisfies u.collation = true ∧ t.distribution.satisfies u.distribution = true := by
  rw [satisfies, Bool.and_eq_true, Bool.and_eq_true, Convention.satisfies_iff, and_assoc]

theorem satisfies_refl (t : Traits) : t.satisfies t = true :=
  satisfies_iff.mpr ⟨rfl, t.collation.satisfies_refl, Distribution.satisfies_iff.mpr (.inr rfl)⟩

theorem satisfies_trans (h : t.satisfies u = true) (h' : u.satisfies v = true) :
    t.satisfies v = true := by
  obtain ⟨hconvention, hcollation, hdistribution⟩ := satisfies_iff.mp h
  obtain ⟨hconvention', hcollation', hdistribution'⟩ := satisfies_iff.mp h'
  exact satisfies_iff.mpr ⟨hconvention.trans hconvention', Collation.satisfies_trans hcollation hcollation',
    Distribution.satisfies_trans hdistribution hdistribution'⟩

theorem satisfies_antisymm (h : t.satisfies u = true) (h' : u.satisfies t = true) : t = u := by
  obtain ⟨hconvention, hcollation, hdistribution⟩ := satisfies_iff.mp h
  obtain ⟨-, hcollation', hdistribution'⟩ := satisfies_iff.mp h'
  obtain ⟨convention, collation, distribution⟩ := t
  obtain ⟨convention', collation', distribution'⟩ := u
  rw [Traits.mk.injEq]
  exact ⟨hconvention, Collation.satisfies_antisymm hcollation hcollation',
    Distribution.satisfies_antisymm hdistribution hdistribution'⟩

/-- Satisfaction is a partial order of traits. Rows in the order of a collation are in that of each one it
satisfies, whether all pairs of rows are looked at or neighbours only, and moving all fields by an offset
keeps what it satisfies, where ordinals are words also what it does not. -/
theorem satisfies_partialOrder :
    (∀ t : Traits, t.satisfies t = true) ∧
    (∀ t u v : Traits, t.satisfies u = true → u.satisfies v = true → t.satisfies v = true) ∧
    (∀ t u : Traits, t.satisfies u = true → u.satisfies t = true → t = u) ∧
    (∀ c d : Collation, c.satisfies d = true → ∀ rows : List Row,
      (c.Orders rows → d.Orders rows) ∧
        (c.sorts? rows = some true → d.sorts? rows = some true)) ∧
    ∀ (c d : Collation) (offset : Nat),
      (c.satisfies d = true → (c.shift offset).satisfies (d.shift offset) = true) ∧
        (c.Within UInt64.size → d.Within UInt64.size →
          (c.shift offset).satisfies (d.shift offset) = c.satisfies d) := by
  refine ⟨satisfies_refl, fun _ _ _ => satisfies_trans, fun _ _ => satisfies_antisymm,
    fun c d h rows => ?_, fun c d offset => ⟨fun h => Collation.satisfies_shift h offset,
      fun hc hd => Collation.satisfies_shift_eq hc hd offset⟩⟩
  rw [Collation.satisfies_iff.mp h]
  exact ⟨fun hrows => hrows.leading _, fun hrows => Collation.sorts?_leading hrows _⟩

/-- By track, and the last departure of a track first. -/
def byTrackAndMinute : Collation := ⟨[.ascending 0, .directed 1 .descending]⟩

/-- Tracks and minutes of departures, one of which is not known. -/
def departures : List Row :=
  [[.integer 1, .null], [.integer 1, .integer 40], [.integer 1, .integer 5], [.integer 2, .integer 9]]

/-- Departures by track and minute serve where they are asked for by track, and so wherever these do. They
are in the order of tracks, also behind the columns of another row. -/
theorem satisfies_partialOrder_departures :
    (Traits.mk .enumerable byTrackAndMinute (.hash [0])).satisfies
      ⟨.enumerable, .ofKeys [0], .any⟩ = true ∧
    (Collation.ofKeys [0]).Orders departures ∧ (Collation.ofKeys [0]).sorts? departures = some true ∧
    (byTrackAndMinute.shift 3).satisfies ((Collation.ofKeys [0]).shift 3) = true ∧
    (byTrackAndMinute.shift 3).satisfies ((Collation.ofKeys [1]).shift 3) = false := by
  obtain ⟨-, htrans, -, hrows, hshift⟩ := satisfies_partialOrder
  have hsatisfies : byTrackAndMinute.satisfies (.ofKeys [0]) = true := by decide
  obtain ⟨horders, hsorts⟩ := hrows _ _ hsatisfies departures
  have hother : byTrackAndMinute.satisfies (.ofKeys [1]) = false := by decide
  exact ⟨htrans _ ⟨.enumerable, .ofKeys [0], .hash [0]⟩ _ (by decide) (by decide),
    horders (by decide +kernel), hsorts (by decide +kernel), (hshift _ _ 3).1 hsatisfies,
    ((hshift _ _ 3).2 (by decide) (by decide)).trans hother⟩

end Traits

end QueryPlan
