import Mathlib.Data.List.Forall2
import QueryPlan.Lattice.StarMatch
import QueryPlan.Proofs.Outcome
/-!
# Matches that are found

`Matching.Finds x a` says that a search ends with a match, `Matching.Ends x` that it ends with one or
without. The lemmas take a search apart along the way in which it is put together.
-/
namespace QueryPlan.Matching

variable {α β : Type}

/-- The search ends with that match. -/
def Finds (x : Matching α) (a : α) : Prop := x.run = .ok (some a)

@[simp] theorem finds_pure {a b : α} : (pure a : Matching α).Finds b ↔ a = b := by
  show (Except.ok (some a) : Except PlanError (Option α)) = .ok (some b) ↔ _
  simp

@[simp] theorem finds_bind {x : Matching α} {f : α → Matching β} {b : β} :
    (x >>= f).Finds b ↔ ∃ a, x.Finds a ∧ (f a).Finds b := by
  simp only [Finds, OptionT.run_bind]
  rcases x.run with e | _ | a
  · constructor
    · intro h; cases h
    · rintro ⟨a, h, -⟩; cases h
  · constructor
    · intro h; cases h
    · rintro ⟨a, h, -⟩; cases h
  · constructor
    · intro h; exact ⟨a, rfl, h⟩
    · rintro ⟨a', h, h'⟩; cases h; exact h'

@[simp] theorem finds_ofOption {o : Option α} {a : α} : (ofOption o).Finds a ↔ o = some a := by
  show (Except.ok o : Except PlanError (Option α)) = .ok (some a) ↔ _
  simp

@[simp] theorem finds_reading {o : Option α} {a : α} : (reading o).Finds a ↔ o = some a := by
  cases o with
  | none =>
    constructor
    · intro h; cases h
    · intro h; cases h
  | some b =>
    show (Except.ok (some b) : Except PlanError (Option α)) = .ok (some a) ↔ _
    simp

@[simp] theorem finds_require {condition : Bool} {u : Unit} :
    (require condition).Finds u ↔ condition = true := by
  cases condition <;> simp [require]

/-- Matches for each element of a list are found if every one is. -/
theorem finds_mapM {f : α → Matching β} {as : List α} {bs : List β} :
    (as.mapM f).Finds bs ↔ List.Forall₂ (fun a b => (f a).Finds b) as bs := by
  induction as generalizing bs with
  | nil =>
    rw [List.mapM_nil, List.forall₂_nil_left_iff, finds_pure]
    exact eq_comm
  | cons a as ih =>
    simp only [List.mapM_cons, finds_bind, finds_pure, List.forall₂_cons_left_iff]
    constructor
    · rintro ⟨b, hb, bs', hbs, rfl⟩
      exact ⟨b, bs', hb, ih.mp hbs, rfl⟩
    · rintro ⟨b, bs', hb, hbs, rfl⟩
      exact ⟨b, hb, bs', ih.mpr hbs, rfl⟩

/-! ## Searches that end -/

/-- The search ends, with a match or without one. -/
def Ends (x : Matching α) : Prop := ∃ o, x.run = .ok o

theorem ends_pure (a : α) : (pure a : Matching α).Ends := ⟨some a, rfl⟩

theorem ends_ofOption (o : Option α) : (ofOption o).Ends := ⟨o, rfl⟩

theorem ends_reading {o : Option α} (h : o.isSome = true) : (reading o).Ends := by
  obtain ⟨a, rfl⟩ := Option.isSome_iff_exists.mp h
  exact ⟨some a, rfl⟩

theorem Ends.bind {x : Matching α} {f : α → Matching β} (hx : x.Ends)
    (hf : ∀ a, x.Finds a → (f a).Ends) : (x >>= f).Ends := by
  unfold Ends
  rw [OptionT.run_bind]
  obtain ⟨_ | a, ha⟩ := hx
  · exact ⟨none, by rw [ha]; rfl⟩
  · obtain ⟨o, ho⟩ := hf a ha
    exact ⟨o, by rw [ha]; exact ho⟩

section

variable {attempt : α → Matching β} {as : List α}

theorem ends_first (h : ∀ a ∈ as, (attempt a).Ends) : (first attempt as).Ends := by
  induction as with
  | nil => exact ends_ofOption none
  | cons a as ih =>
    obtain ⟨ha, has⟩ := List.forall_mem_cons.mp h
    obtain ⟨_ | b, hb⟩ := ha
    · obtain ⟨o, ho⟩ := ih has
      refine ⟨o, ?_⟩
      show (attempt a).run >>= _ = _
      rw [hb]
      exact ho
    · refine ⟨some (a, b), ?_⟩
      show (attempt a).run >>= _ = _
      rw [hb]
      rfl

theorem finds_first {a : α} {b : β} (h : (first attempt as).Finds (a, b)) :
    a ∈ as ∧ (attempt a).Finds b := by
  induction as with
  | nil => cases finds_ofOption.mp h
  | cons a' as ih =>
    obtain ⟨o, ho, h⟩ := Outcome.bind_eq_ok.mp (show (attempt a').run >>= _ = _ from h)
    cases o with
    | none => exact (ih h).imp_left (List.mem_cons_of_mem _)
    | some b' =>
      cases h
      exact ⟨List.mem_cons_self, ho⟩

theorem not_finds_of_first (h : (first attempt as).run = .ok none) :
    ∀ a ∈ as, ∀ b, ¬(attempt a).Finds b := by
  induction as with
  | nil => simp
  | cons a as ih =>
    obtain ⟨o, ho, h⟩ := Outcome.bind_eq_ok.mp (show (attempt a).run >>= _ = _ from h)
    cases o with
    | none =>
      refine List.forall_mem_cons.mpr ⟨fun b hb => ?_, ih h⟩
      cases hb.symm.trans ho
    | some b => cases h

end

end QueryPlan.Matching
