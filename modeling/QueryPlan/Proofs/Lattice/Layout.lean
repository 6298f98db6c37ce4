import QueryPlan.Lattice.Draft
import QueryPlan.Proofs.Lattice.Star
/-!
# Layouts of lattices

A draft that passes the check is laid out depth first. Every table but the root is the target of one
step, which the layout has taken from a table before it, so that branches come after their parents.
-/
namespace QueryPlan.Lattice

namespace Draft

variable {d : Draft}

/-! ## Steps that pass the check -/

/-- What the check says of a step itself. -/
structure Fits (d : Draft) (step : Step) : Prop where
  target_lt : step.target < d.tables.length
  target_ne : step.target ≠ 0
  keys_lt : ∀ key ∈ step.keys, key.1 < d.arityAt step.source ∧ key.2 < d.arityAt step.target

/-- What the check says of a step and the tables that it connects. -/
structure Correct (d : Draft) (step : Step) : Prop extends d.Fits step where
  source_lt : step.source < d.tables.length
  keys_ne : step.keys ≠ []

theorem hasKeys_iff {step : Step} : d.hasKeys step = true ↔ step.keys ≠ [] ∧
    ∀ key ∈ step.keys, key.1 < d.arityAt step.source ∧ key.2 < d.arityAt step.target := by
  simp [hasKeys]

theorem checkStep_eq_ok {reached : List Nat} {step : Step} :
    d.checkStep reached step = .ok () ↔ step.target ∉ reached ∧ d.Correct step := by
  unfold checkStep
  dsimp only
  split
  · next hunknown =>
    refine ⟨nofun, fun ⟨_, h⟩ => ?_⟩
    have := h.source_lt
    have := h.target_lt
    omega
  · next hknown =>
    split
    · next hroot => exact ⟨nofun, fun ⟨_, h⟩ => absurd hroot h.target_ne⟩
    · next hroot =>
      split
      · next hreached =>
        exact ⟨nofun, fun ⟨h, _⟩ => absurd (List.contains_iff_mem.mp hreached) h⟩
      · next hreached =>
        split
        · next hkeys =>
          refine ⟨nofun, fun ⟨_, h⟩ => ?_⟩
          rw [hasKeys_iff.mpr ⟨h.keys_ne, h.keys_lt⟩] at hkeys
          cases hkeys
        · next hkeys =>
          obtain ⟨hne, hlt⟩ := hasKeys_iff.mp (show d.hasKeys step = true by simpa using hkeys)
          refine ⟨fun _ => ⟨by simpa using hreached, ⟨by omega, hroot, hlt⟩, by omega, hne⟩, fun _ => rfl⟩

theorem checkSteps_eq_ok {reached : List Nat} {steps : List Step} :
    d.checkSteps reached steps = .ok () ↔
      (∀ step ∈ steps, step.target ∉ reached ∧ d.Correct step) ∧
        steps.Pairwise (fun s t => s.target ≠ t.target) := by
  induction steps generalizing reached with
  | nil => exact ⟨fun _ => ⟨by simp, .nil⟩, fun _ => rfl⟩
  | cons step steps ih =>
    rw [checkSteps, Outcome.bind_eq_ok, List.forall_mem_cons, List.pairwise_cons]
    constructor
    · rintro ⟨⟨⟩, hstep, hsteps⟩
      obtain ⟨hsteps, hpairwise⟩ := ih.mp hsteps
      refine ⟨⟨checkStep_eq_ok.mp hstep, fun s hs => ⟨fun hmem => ?_, (hsteps s hs).2⟩⟩,
        fun s hs heq => (hsteps s hs).1 (heq ▸ List.mem_cons_self), hpairwise⟩
      exact (hsteps s hs).1 (List.mem_cons_of_mem _ hmem)
    · rintro ⟨⟨hstep, hsteps⟩, hne, hpairwise⟩
      refine ⟨(), checkStep_eq_ok.mpr hstep,
        ih.mpr ⟨fun s hs => ⟨fun hmem => ?_, (hsteps s hs).2⟩, hpairwise⟩⟩
      rcases List.mem_cons.mp hmem with heq | hmem
      · exact hne s hs heq.symm
      · exact (hsteps s hs).1 hmem

/-- A step is found by its target. -/
theorem find?_target {steps : List Step} (h : steps.Pairwise fun s t => s.target ≠ t.target)
    {step : Step} (hstep : step ∈ steps) :
    steps.find? (·.target = step.target) = some step := by
  induction steps with
  | nil => cases hstep
  | cons s steps ih =>
    obtain ⟨hs, hsteps⟩ := List.pairwise_cons.mp h
    rcases List.mem_cons.mp hstep with rfl | hmem
    · simp
    · rw [List.find?_cons_of_neg (by simpa using hs step hmem)]
      exact ih hsteps hmem

/-! ## Depth first -/

/-- Each position is a child of one that was seen or comes before it. -/
def Descends (d : Draft) (seen : List Nat) : List Nat → Prop
  | [] => True
  | position :: rest =>
    (∃ s ∈ seen, position ∈ d.children s) ∧ d.Descends (seen ++ [position]) rest

theorem Descends.append {seen positions more : List Nat} (h : d.Descends seen positions)
    (hmore : d.Descends (seen ++ positions) more) : d.Descends seen (positions ++ more) := by
  induction positions generalizing seen with
  | nil => rwa [List.append_nil] at hmore
  | cons position rest ih =>
    refine ⟨h.1, ih h.2 ?_⟩
    rwa [List.append_assoc]

/-- Children of a seen position can each be followed by what is reached from it. -/
theorem descends_children {depth : Nat} (hdepth : ∀ {seen : List Nat} {position : Nat},
      (∃ s ∈ seen, position ∈ d.children s) → d.Descends seen (d.depthFirst depth position))
    {seen children : List Nat} {position : Nat} (hmem : position ∈ seen)
    (hsub : children ⊆ d.children position) :
    d.Descends seen (children.flatMap (d.depthFirst depth)) := by
  induction children generalizing seen with
  | nil => trivial
  | cons child children ih =>
    obtain ⟨hchild, hsub⟩ := List.cons_subset.mp hsub
    rw [List.flatMap_cons]
    exact (hdepth ⟨position, hmem, hchild⟩).append (ih (List.mem_append_left _ hmem) hsub)

theorem descends_depthFirst (depth : Nat) {seen : List Nat} {position : Nat}
    (h : ∃ s ∈ seen, position ∈ d.children s) : d.Descends seen (d.depthFirst depth position) := by
  induction depth generalizing seen position with
  | zero => trivial
  | succ depth ih =>
    exact ⟨h, descends_children ih (List.mem_append_right _ List.mem_cons_self) (List.Subset.refl _)⟩

theorem Descends.getElem? {seen positions : List Nat} (h : d.Descends seen positions) {i position : Nat}
    (hi : positions[i]? = some position) :
    ∃ s ∈ seen ++ positions.take i, position ∈ d.children s := by
  induction positions generalizing seen i with
  | nil => cases hi
  | cons p rest ih =>
    cases i with
    | zero =>
      cases hi
      simpa using h.1
    | succ i =>
      have := ih h.2 hi
      rwa [List.append_assoc] at this

/-! ## The lattice of a draft -/

theorem getElem?_filterMap {α β : Type} {f : α → Option β} {as : List α}
    (h : ∀ a ∈ as, (f a).isSome = true) (i : Nat) : (as.filterMap f)[i]? = as[i]?.bind f := by
  induction as generalizing i with
  | nil => rfl
  | cons a as ih =>
    obtain ⟨ha, has⟩ := List.forall_mem_cons.mp h
    obtain ⟨b, hb⟩ := Option.isSome_iff_exists.mp ha
    rw [List.filterMap_cons, hb]
    cases i with
    | zero => exact hb.symm
    | succ i => exact ih has i

theorem findIdx?_of_mem_take {as : List Nat} {a k : Nat} (h : a ∈ as.take k) :
    ∃ i < k, as[i]? = some a ∧ as.findIdx? (· = a) = some i := by
  induction as generalizing k with
  | nil =>
    rw [List.take_nil] at h
    cases h
  | cons b as ih =>
    cases k with
    | zero => cases h
    | succ k =>
      rw [List.findIdx?_cons]
      by_cases hb : b = a
      · exact ⟨0, Nat.succ_pos k, by rw [hb]; rfl, by rw [decide_eq_true hb]; rfl⟩
      · have htail : a ∈ as.take k := by
          rcases List.mem_cons.mp h with heq | htail
          · exact absurd heq.symm hb
          · exact htail
        obtain ⟨i, hi, hget, hfind⟩ := ih htail
        exact ⟨i + 1, Nat.succ_lt_succ hi, hget, by rw [decide_eq_false hb, hfind]; rfl⟩

variable {starName : List String} {l : Lattice}

/-- What the check of a draft says of the lattice that it makes. -/
structure LaidOut (d : Draft) (below : List Nat) (l : Lattice) : Prop where
  layout_eq : d.layout = 0 :: below
  descends : d.Descends [0] below
  fits : ∀ step ∈ d.steps, d.Fits step
  distinct : d.steps.Pairwise fun s t => s.target ≠ t.target
  root_eq : l.root = d.root
  branches_eq : l.branches = below.filterMap (d.branchAt? (0 :: below))

theorem laidOut_of_build (h : d.build starName = .ok l) : ∃ below, d.LaidOut below l := by
  obtain ⟨_, hchecked, h⟩ := Outcome.bind_eq_ok.mp h
  obtain ⟨hsteps, hdistinct⟩ := checkSteps_eq_ok.mp hchecked
  have hlayout : d.layout = 0 :: (d.children 0).flatMap (d.depthFirst d.others.length) := rfl
  split at h
  · cases h
  · dsimp only at h
    split at h
    · cases h
    · cases h
      refine ⟨_, hlayout, ?_, fun step hstep => (hsteps step hstep).2.toFits, hdistinct, rfl,
        by rw [hlayout]; rfl⟩
      exact descends_children (descends_depthFirst _) List.mem_cons_self (List.Subset.refl _)

namespace LaidOut

variable {below : List Nat}

/-- A table of the layout is found with its branch, whose parent is laid out before it. -/
theorem branchAt? (h : d.LaidOut below l) {i position : Nat} (hi : below[i]? = some position) :
    ∃ step ∈ d.steps, ∃ table parent, d.tables[position]? = some table ∧
      step.target = position ∧ parent ≤ i ∧ (0 :: below)[parent]? = some step.source ∧
      d.branchAt? (0 :: below) position = some ⟨table, parent, step.keys⟩ := by
  obtain ⟨source, hsource, hchild⟩ := h.descends.getElem? hi
  obtain ⟨step, hstep, rfl⟩ := List.mem_map.mp hchild
  obtain ⟨hmem, hfrom⟩ := List.mem_filter.mp hstep
  obtain rfl : step.source = source := of_decide_eq_true hfrom
  have htable := List.getElem?_eq_getElem (h.fits step hmem).target_lt
  have htake : step.source ∈ (0 :: below).take (i + 1) := hsource
  obtain ⟨parent, hle, hparent, hfind⟩ := findIdx?_of_mem_take htake
  refine ⟨step, hmem, _, parent, htable, rfl, Nat.le_of_lt_succ hle, hparent, ?_⟩
  rw [Draft.branchAt?, htable, find?_target h.distinct hmem]
  simp only [Option.bind_eq_bind, Option.bind_some, hfind]
  rfl

theorem branch?_succ (h : d.LaidOut below l) (i : Nat) :
    l.branch? (i + 1) = below[i]?.bind (d.branchAt? (0 :: below)) := by
  rw [branch?, h.branches_eq]
  refine getElem?_filterMap (fun position hposition => ?_) i
  obtain ⟨j, hj⟩ := List.getElem?_of_mem hposition
  obtain ⟨step, -, table, parent, -, -, -, -, heq⟩ := h.branchAt? hj
  rw [heq]
  rfl

/-- Tables stand in the sequence of the layout. -/
theorem getElem?_tables (h : d.LaidOut below l) {i position : Nat}
    (hi : (0 :: below)[i]? = some position) : l.tables[i]? = d.tables[position]? := by
  cases i with
  | zero =>
    cases hi
    rw [Lattice.tables, h.root_eq]
    rfl
  | succ i =>
    obtain ⟨step, -, table, parent, htable, -, -, -, heq⟩ := h.branchAt? hi
    have hbranch : l.branches[i]? = some ⟨table, parent, step.keys⟩ := by
      have := h.branch?_succ i
      rwa [show below[i]? = some position from hi, Option.bind_some, heq] at this
    rw [Lattice.tables, htable, List.getElem?_cons_succ, List.getElem?_map, hbranch]
    rfl

theorem arityAt_eq (h : d.LaidOut below l) {i position : Nat}
    (hi : (0 :: below)[i]? = some position) : l.arityAt i = d.arityAt position := by
  rw [Lattice.arityAt, Draft.arityAt, h.getElem?_tables hi]

/-- A branch is the one of a step. -/
theorem formed (h : d.LaidOut below l) : l.Formed := by
  have hbranch : ∀ i branch, l.branch? i = some branch →
      branch.parent < i ∧
        ∀ key ∈ branch.keys, key.1 < l.arityAt branch.parent ∧ key.2 < l.arityAt i := by
    intro i branch hi
    cases i with
    | zero => cases hi
    | succ i =>
      rw [h.branch?_succ] at hi
      obtain ⟨position, hposition, hi⟩ := Option.bind_eq_some_iff.mp hi
      obtain ⟨step, hstep, table, parent, -, htarget, hle, hparent, heq⟩ := h.branchAt? hposition
      cases heq.symm.trans hi
      refine ⟨Nat.lt_succ_of_le hle, ?_⟩
      rw [h.arityAt_eq hparent, h.arityAt_eq (i := i + 1) hposition, ← htarget]
      exact (h.fits step hstep).keys_lt
  exact ⟨fun i branch hi => (hbranch i branch hi).1, fun i branch hi => (hbranch i branch hi).2⟩

end LaidOut

/-- A lattice that is built has its branches after their parents, joined by columns that they have. -/
theorem formed_of_build (h : d.build starName = .ok l) : l.Formed := by
  obtain ⟨below, hlaid⟩ := laidOut_of_build h
  exact hlaid.formed

end Draft

end QueryPlan.Lattice
