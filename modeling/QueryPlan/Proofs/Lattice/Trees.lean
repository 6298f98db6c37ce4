import Mathlib.Data.List.Nodup
import Mathlib.Data.List.Perm.Subperm
import Mathlib.Logic.Relation
import QueryPlan.Proofs.Lattice.Layout
/-!
# Drafts that are trees

The steps of a draft pass the check of each step if every table has one step that leads to it at most,
and the root none. Then ways from the root never come back: a circle could only be entered by a
second step to one of its tables. So the walk from the root ends, and it meets every table that is
reached from the root once. A step that connects two tables which other steps connect already would
close a circle too: what is reached from its target is left by no other step and entered by none.
Hence a draft becomes a lattice exactly if every table is reached from the root.
-/
namespace QueryPlan.Lattice.Draft

open Relation

/-- A step leads from one table to another one. -/
def Leads (d : Draft) (i j : Nat) : Prop := ∃ step ∈ d.steps, step.source = i ∧ step.target = j

/-- Every step passes its check and no table is the target of two steps. -/
structure Checked (d : Draft) : Prop where
  correct : ∀ step ∈ d.steps, d.Correct step
  distinct : d.steps.Pairwise fun s t => s.target ≠ t.target

variable {d : Draft} {i j k : Nat}

@[simp] theorem mem_children : j ∈ d.children i ↔ d.Leads i j := by
  simp [children, Leads, and_assoc]

theorem checkSteps_iff : d.checkSteps [] d.steps = .ok () ↔ d.Checked := by
  rw [checkSteps_eq_ok]
  constructor
  · rintro ⟨hsteps, hdistinct⟩
    exact ⟨fun step hstep => (hsteps step hstep).2, hdistinct⟩
  · rintro ⟨hsteps, hdistinct⟩
    exact ⟨fun step hstep => ⟨List.not_mem_nil, hsteps step hstep⟩, hdistinct⟩

namespace Checked

/-! ## Ways from the root -/

theorem step_unique (h : d.Checked) {s t : Step} (hs : s ∈ d.steps) (ht : t ∈ d.steps)
    (heq : s.target = t.target) : s = t := by
  have hfound := find?_target h.distinct hs
  rw [heq, find?_target h.distinct ht] at hfound
  exact (Option.some.inj hfound).symm

theorem source_unique (h : d.Checked) (hi : d.Leads i k) (hj : d.Leads j k) : i = j := by
  obtain ⟨s, hs, rfl, rfl⟩ := hi
  obtain ⟨t, ht, rfl, heq⟩ := hj
  rw [h.step_unique ht hs heq]

theorem not_leads_root (h : d.Checked) : ¬d.Leads i 0 := by
  rintro ⟨step, hstep, -, htarget⟩
  exact (h.correct step hstep).target_ne htarget

theorem lt_of_leads (h : d.Checked) (hij : d.Leads i j) : j < d.tables.length := by
  obtain ⟨step, hstep, -, rfl⟩ := hij
  exact (h.correct step hstep).target_lt

/-- A way to a table comes by the table that leads to it, unless it starts there. -/
theorem reaches_source (h : d.Checked) (hjk : d.Leads j k) (hway : ReflTransGen d.Leads i k)
    (hne : i ≠ k) : ReflTransGen d.Leads i j := by
  obtain heq | ⟨l, hway, hlk⟩ := hway.cases_tail
  · exact absurd heq.symm hne
  · rwa [h.source_unique hjk hlk]

/-- Ways from the root never come back. -/
theorem acyclic (h : d.Checked) (hreached : ReflTransGen d.Leads 0 i) : ¬TransGen d.Leads i i := by
  induction hreached with
  | refl =>
    intro hback
    obtain ⟨j, -, hj⟩ := TransGen.tail'_iff.mp hback
    exact h.not_leads_root hj
  | tail _ hstep ih =>
    -- a circle is entered by the step that it contains
    intro hback
    obtain ⟨j, hway, hj⟩ := TransGen.tail'_iff.mp hback
    obtain rfl := h.source_unique hj hstep
    exact ih (.head' hstep hway)

/-! ## Connected tables -/

end Checked

/-- Tables with one label agree on the property. -/
def Respects (labels : List Nat) (P : Nat → Prop) : Prop :=
  ∀ a b label, labels[a]? = some label → labels[b]? = some label → (P a ↔ P b)

theorem respects_range (n : Nat) (P : Nat → Prop) : Respects (List.range n) P := by
  intro a b label ha hb
  rw [List.getElem?_eq_some_iff] at ha hb
  obtain ⟨_, rfl⟩ := ha
  obtain ⟨_, hb⟩ := hb
  rw [List.getElem_range, List.getElem_range] at hb
  rw [hb]

theorem length_connect (labels : List Nat) (a b : Nat) : (connect labels a b).length = labels.length := by
  simp [connect]

/-- Two tables may be connected if they agree. -/
theorem Respects.connect {labels : List Nat} {P : Nat → Prop} (h : Respects labels P) {a b : Nat}
    (ha : a < labels.length) (hb : b < labels.length) (hab : P a ↔ P b) :
    Respects (connect labels a b) P := by
  obtain ⟨old, hold⟩ : ∃ old, labels[a]? = some old := ⟨_, List.getElem?_eq_getElem ha⟩
  obtain ⟨new, hnew⟩ : ∃ new, labels[b]? = some new := ⟨_, List.getElem?_eq_getElem hb⟩
  -- a table with the new label had it or had the old one, so it agrees with `b`
  have hlabel : ∀ c label, (Draft.connect labels a b)[c]? = some label →
      labels[c]? = some label ∧ label ≠ new ∨ label = new ∧ (P c ↔ P b) := by
    intro c label hc
    rw [Draft.connect, hold, hnew, List.getElem?_map, Option.map_eq_some_iff] at hc
    obtain ⟨before, hbefore, hc⟩ := hc
    simp only [Option.getD_some] at hc
    split at hc
    · next heq => exact .inr ⟨hc.symm, (h c a old (heq ▸ hbefore) hold).trans hab⟩
    · by_cases heq : label = new
      · exact .inr ⟨heq, h c b new (heq ▸ hc ▸ hbefore) hnew⟩
      · exact .inl ⟨hc ▸ hbefore, heq⟩
  intro c e label hc he
  rcases hlabel c label hc with ⟨hc, hne⟩ | ⟨heq, hc⟩
  · rcases hlabel e label he with ⟨he, -⟩ | ⟨heq, -⟩
    · exact h c e label hc he
    · exact absurd heq hne
  · rcases hlabel e label he with ⟨-, hne⟩ | ⟨-, he⟩
    · exact absurd heq hne
    · exact hc.trans he.symm

/-- If a step connects tables that the steps before it connect, these agree on every property on which
the tables of each step before it agree. -/
theorem exists_of_hasCycle {labels : List Nat} {steps : List Step}
    (hlt : ∀ step ∈ steps, step.source < labels.length ∧ step.target < labels.length)
    (h : hasCycle labels steps = true) :
    ∃ before step after, steps = before ++ step :: after ∧
      ∀ P, Respects labels P → (∀ s ∈ before, P s.source ↔ P s.target) →
        (P step.source ↔ P step.target) := by
  induction steps generalizing labels with
  | nil => cases h
  | cons step steps ih =>
    obtain ⟨⟨hsource, htarget⟩, hlt⟩ := List.forall_mem_cons.mp hlt
    rw [hasCycle, Bool.or_eq_true] at h
    rcases h with h | h
    · refine ⟨[], step, steps, rfl, fun P hP _ => ?_⟩
      have heq : labels[step.source]? = labels[step.target]? := beq_iff_eq.mp h
      have hlabel := List.getElem?_eq_getElem hsource
      exact hP _ _ _ hlabel (heq ▸ hlabel)
    · obtain ⟨before, s, after, rfl, hs⟩ := ih (by simpa only [length_connect] using hlt) h
      refine ⟨step :: before, s, after, rfl, fun P hP hbefore => ?_⟩
      obtain ⟨hstep, hbefore⟩ := List.forall_mem_cons.mp hbefore
      exact hs P (hP.connect hsource htarget hstep) hbefore

/-- Where every table is reached from the root, no step connects tables that are connected. -/
theorem Checked.hasCycle_eq_false (h : d.Checked)
    (hreached : ∀ i < d.tables.length, ReflTransGen d.Leads 0 i) :
    hasCycle (List.range d.tables.length) d.steps = false := by
  by_contra hcycle
  rw [Bool.not_eq_false] at hcycle
  have hlt : ∀ step ∈ d.steps, step.source < (List.range d.tables.length).length ∧
      step.target < (List.range d.tables.length).length := by
    intro step hstep
    rw [List.length_range]
    exact ⟨(h.correct step hstep).source_lt, (h.correct step hstep).target_lt⟩
  obtain ⟨before, step, after, heq, hcloses⟩ := exists_of_hasCycle hlt hcycle
  have hstep : step ∈ d.steps := by
    rw [heq]
    exact List.mem_append_right _ List.mem_cons_self
  have hdistinct : ∀ s ∈ before, s.target ≠ step.target := by
    have hpairwise := h.distinct
    rw [heq] at hpairwise
    exact fun s hs => (List.pairwise_append.mp hpairwise).2.2 s hs step List.mem_cons_self
  -- no other step enters or leaves what is reached from the target
  have hstay : ∀ s ∈ before, ReflTransGen d.Leads step.target s.source ↔
      ReflTransGen d.Leads step.target s.target := by
    intro s hs
    have hleads : d.Leads s.source s.target := by
      refine ⟨s, ?_, rfl, rfl⟩
      rw [heq]
      exact List.mem_append_left _ hs
    exact ⟨fun hway => hway.tail hleads, fun hway => h.reaches_source hleads hway (hdistinct s hs).symm⟩
  have hback : ReflTransGen d.Leads step.target step.source :=
    (hcloses _ (respects_range _ _) hstay).mpr .refl
  exact h.acyclic (hreached _ (h.correct step hstep).target_lt) (.tail' hback ⟨step, hstep, rfl, rfl⟩)

/-! ## The walk from the root -/

/-- A walk that takes a table off a stack and puts its children on it, until the stack is empty. The tables
are met in the order. -/
inductive Visits (d : Draft) : List Nat → List Nat → Prop
  | done : Visits d [] []
  | visit {position : Nat} {stack order : List Nat} (rest : Visits d (d.children position ++ stack) order) :
      Visits d (position :: stack) (position :: order)

/-- Every way from the table has fewer steps than that. -/
def Ends (d : Draft) : Nat → Nat → Prop
  | 0, _ => False
  | count + 1, position => ∀ child, d.Leads position child → Ends d count child

/-- A depth first list whose bound no way reaches is the order of a walk. -/
theorem visits_depthFirst {depth : Nat} {position : Nat} (h : d.Ends depth position)
    {stack order : List Nat} (hstack : d.Visits stack order) :
    d.Visits (position :: stack) (d.depthFirst depth position ++ order) := by
  induction depth generalizing position stack order with
  | zero => exact absurd h not_false
  | succ depth ih =>
    rw [depthFirst, List.cons_append]
    refine .visit ?_
    have hchildren : ∀ child ∈ d.children position, d.Ends depth child :=
      fun child hchild => h child (mem_children.mp hchild)
    generalize d.children position = children at hchildren ⊢
    induction children with
    | nil => exact hstack
    | cons child children ihchildren =>
      obtain ⟨hchild, hchildren⟩ := List.forall_mem_cons.mp hchildren
      rw [List.flatMap_cons, List.append_assoc]
      exact ih hchild (ihchildren hchildren)

namespace Visits

variable {stack order : List Nat}

/-- A walk has one order. -/
theorem unique {order' : List Nat} (h : d.Visits stack order) (h' : d.Visits stack order') :
    order = order' := by
  induction h generalizing order' with
  | done =>
    cases h'
    rfl
  | visit _ ih =>
    cases h' with
    | visit hrest => rw [ih hrest]

theorem mem_of_stack (h : d.Visits stack order) : ∀ i ∈ stack, i ∈ order := by
  induction h with
  | done => simp
  | visit _ ih =>
    refine List.forall_mem_cons.mpr ⟨List.mem_cons_self, fun i hi => ?_⟩
    exact List.mem_cons_of_mem _ (ih i (List.mem_append_right _ hi))

theorem mem_of_leads (h : d.Visits stack order) (hi : i ∈ order) (hij : d.Leads i j) : j ∈ order := by
  induction h with
  | done => cases hi
  | visit hrest ih =>
    rcases List.mem_cons.mp hi with rfl | hi
    · have hchild : j ∈ d.children i := mem_children.mpr hij
      exact List.mem_cons_of_mem _ (hrest.mem_of_stack j (List.mem_append_left _ hchild))
    · exact List.mem_cons_of_mem _ (ih hi)

/-- A walk meets what is reached from the stack, and nothing else. -/
theorem mem_iff (h : d.Visits stack order) :
    i ∈ order ↔ ∃ root ∈ stack, ReflTransGen d.Leads root i := by
  constructor
  · intro hi
    induction h with
    | done => cases hi
    | @visit position stack order _ ih =>
      rcases List.mem_cons.mp hi with rfl | hi
      · exact ⟨i, List.mem_cons_self, .refl⟩
      · obtain ⟨root, hroot, hway⟩ := ih hi
        rcases List.mem_append.mp hroot with hroot | hroot
        · exact ⟨position, List.mem_cons_self, .head (mem_children.mp hroot) hway⟩
        · exact ⟨root, List.mem_cons_of_mem _ hroot, hway⟩
  · rintro ⟨root, hroot, hway⟩
    induction hway with
    | refl => exact h.mem_of_stack root hroot
    | tail _ hstep ih => exact h.mem_of_leads ih hstep

end Visits

namespace Checked

/-- A way goes through different tables, so that it has fewer steps than there are tables. `way` are the
tables on the way so far. -/
theorem ends_of_way (h : d.Checked) (count : Nat) {position : Nat} {way : List Nat}
    (hreached : ReflTransGen d.Leads 0 position) (hnodup : (position :: way).Nodup)
    (hlt : ∀ i ∈ position :: way, i < d.tables.length) (hway : ∀ i ∈ way, TransGen d.Leads i position)
    (hcount : d.tables.length < (position :: way).length + count) : d.Ends count position := by
  induction count generalizing position way with
  | zero =>
    have hsub : position :: way ⊆ List.range d.tables.length :=
      fun i hi => List.mem_range.mpr (hlt i hi)
    have hlength := (hnodup.subperm hsub).length_le
    rw [List.length_range] at hlength
    exact absurd hcount (Nat.not_lt.mpr hlength)
  | succ count ih =>
    intro child hchild
    have hreached' := hreached.tail hchild
    have hway' : ∀ i ∈ position :: way, TransGen d.Leads i child :=
      List.forall_mem_cons.mpr ⟨.single hchild, fun i hi => (hway i hi).tail hchild⟩
    have hnew : child ∉ position :: way := fun hmem => h.acyclic hreached' (hway' child hmem)
    refine ih hreached' (List.nodup_cons.mpr ⟨hnew, hnodup⟩)
      (List.forall_mem_cons.mpr ⟨h.lt_of_leads hchild, hlt⟩) hway' ?_
    simp only [List.length_cons] at hcount ⊢
    omega

/-- The walk from the root ends, in the order of the layout. -/
theorem visits_layout (h : d.Checked) : d.Visits [0] d.layout := by
  have hends : d.Ends d.tables.length 0 := by
    refine h.ends_of_way _ .refl (List.nodup_singleton 0) (fun i hi => ?_) (by simp) (by simp)
    rw [List.mem_singleton.mp hi]
    exact Nat.succ_pos _
  have hvisits := visits_depthFirst hends .done
  rwa [List.append_nil] at hvisits

theorem mem_layout_iff (h : d.Checked) : i ∈ d.layout ↔ ReflTransGen d.Leads 0 i := by
  simp [h.visits_layout.mem_iff]

/-- No table on the stack is reached from another one. -/
def Apart (d : Draft) (stack : List Nat) : Prop :=
  stack.Pairwise fun i j => ¬ReflTransGen d.Leads i j ∧ ¬ReflTransGen d.Leads j i

/-- Children of a table stay apart from each other and from what the table is apart from. -/
theorem apart_children (h : d.Checked) {position : Nat} {stack : List Nat}
    (hreached : ReflTransGen d.Leads 0 position) (happart : Apart d (position :: stack)) :
    Apart d (d.children position ++ stack) := by
  obtain ⟨hfirst, hrest⟩ := List.pairwise_cons.mp happart
  -- a way to a child comes by the table
  have hback : ∀ {i child}, d.Leads position child → ReflTransGen d.Leads i child → i ≠ child →
      ReflTransGen d.Leads i position := fun hchild hway hne => h.reaches_source hchild hway hne
  refine List.pairwise_append.mpr ⟨?_, hrest, fun child hchild j hj => ⟨fun hway => ?_, fun hway => ?_⟩⟩
  · have hdistinct : (d.children position).Pairwise (· ≠ ·) :=
      List.pairwise_map.mpr (h.distinct.filter _)
    refine hdistinct.imp_of_mem fun {i j} hi hj hne => ?_
    have hapart : ∀ {k l}, d.Leads position k → d.Leads position l → k ≠ l →
        ¬ReflTransGen d.Leads k l := fun hk hl hne hway =>
      h.acyclic hreached (.head' hk (hback hl hway hne))
    rw [mem_children] at hi hj
    exact ⟨hapart hi hj hne, hapart hj hi hne.symm⟩
  · exact (hfirst j hj).1 (.head (mem_children.mp hchild) hway)
  · rcases eq_or_ne j child with rfl | hne
    · exact (hfirst j hj).1 (.single (mem_children.mp hchild))
    · exact (hfirst j hj).2 (hback (mem_children.mp hchild) hway hne)

/-- A walk from tables that stay apart meets no table twice. -/
theorem nodup_of_visits (h : d.Checked) {stack order : List Nat} (hvisits : d.Visits stack order)
    (hreached : ∀ i ∈ stack, ReflTransGen d.Leads 0 i) (happart : Apart d stack) : order.Nodup := by
  induction hvisits with
  | done => exact List.nodup_nil
  | @visit position stack order hrest ih =>
    obtain ⟨hposition, hstack⟩ := List.forall_mem_cons.mp hreached
    refine List.nodup_cons.mpr ⟨fun hmem => ?_, ih (fun i hi => ?_) (h.apart_children hposition happart)⟩
    · obtain ⟨root, hroot, hway⟩ := hrest.mem_iff.mp hmem
      rcases List.mem_append.mp hroot with hchild | hroot
      · exact h.acyclic hposition (.head' (mem_children.mp hchild) hway)
      · exact ((List.pairwise_cons.mp happart).1 root hroot).2 hway
    · rcases List.mem_append.mp hi with hchild | hi
      · exact hposition.tail (mem_children.mp hchild)
      · exact hstack i hi

theorem nodup_layout (h : d.Checked) : d.layout.Nodup :=
  h.nodup_of_visits h.visits_layout (by simp [ReflTransGen.refl]) (List.pairwise_singleton _ _)

end Checked

/-! ## Which drafts become lattices -/

/-- The steps of the draft are the edges of a tree with the first table as its root: they join tables of
the draft by columns of theirs, none leads to the root, no two lead to one table, and every table
is reached from the root. -/
structure IsTree (d : Draft) : Prop where
  known : ∀ step ∈ d.steps, step.source < d.tables.length ∧ step.target < d.tables.length
  keyed : ∀ step ∈ d.steps, step.keys ≠ [] ∧
    ∀ key ∈ step.keys, key.1 < d.arityAt step.source ∧ key.2 < d.arityAt step.target
  root : ∀ step ∈ d.steps, step.target ≠ 0
  distinct : d.steps.Pairwise fun s t => s.target ≠ t.target
  reached : ∀ i < d.tables.length, ReflTransGen d.Leads 0 i

theorem isTree_iff : d.IsTree ↔ d.Checked ∧ ∀ i < d.tables.length, ReflTransGen d.Leads 0 i := by
  constructor
  · intro h
    refine ⟨⟨fun step hstep => ?_, h.distinct⟩, h.reached⟩
    obtain ⟨hsource, htarget⟩ := h.known step hstep
    obtain ⟨hne, hlt⟩ := h.keyed step hstep
    exact ⟨⟨htarget, h.root step hstep, hlt⟩, hsource, hne⟩
  · rintro ⟨h, hreached⟩
    exact ⟨fun step hstep => ⟨(h.correct step hstep).source_lt, (h.correct step hstep).target_lt⟩,
      fun step hstep => ⟨(h.correct step hstep).keys_ne, (h.correct step hstep).keys_lt⟩,
      fun step hstep => (h.correct step hstep).target_ne, h.distinct, hreached⟩

variable {starName : List String}

theorem find?_unreached_eq_none (h : d.Checked) :
    (List.range d.tables.length).find? (!d.layout.contains ·) = none ↔
      ∀ i < d.tables.length, ReflTransGen d.Leads 0 i := by
  simp [List.find?_eq_none, h.mem_layout_iff]

/-- A draft becomes a lattice exactly if it is a tree. -/
theorem build_eq_ok_iff {l : Lattice} : d.build starName = .ok l ↔
    d.IsTree ∧ ⟨d.root, (d.layout.drop 1).filterMap (d.branchAt? d.layout), starName⟩ = l := by
  rw [isTree_iff, build, Outcome.bind_eq_ok]
  constructor
  · rintro ⟨⟨⟩, hchecked, h⟩
    rw [checkSteps_iff] at hchecked
    split at h
    · cases h
    · dsimp only at h
      split at h
      · cases h
      · next hnone => exact ⟨⟨hchecked, (find?_unreached_eq_none hchecked).mp hnone⟩, Except.ok.inj h⟩
  · rintro ⟨⟨hchecked, hreached⟩, rfl⟩
    refine ⟨(), checkSteps_iff.mpr hchecked, ?_⟩
    dsimp only
    rw [hchecked.hasCycle_eq_false hreached, (find?_unreached_eq_none hchecked).mpr hreached]
    rfl

end QueryPlan.Lattice.Draft
