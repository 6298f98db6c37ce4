import Mathlib.Data.List.Nodup
import Mathlib.Data.List.Perm.Subperm
import Mathlib.Logic.Relation
import QueryPlan.Proofs.Session.Walks
import QueryPlan.View.Materialization
/-!
# The graph of what views read

Names are interned, so that a way from name to name is a way from position to position. The walks find
the positions that a way leads to, and where no way leads back, the depth first order puts every name
before the names that ways lead to. What carries this is that names under way lead to the name that
is visited: none of them can be met again, so that every reader is ordered before the name it reads.
-/
namespace QueryPlan.ReadGraph

open Relation

/-- One position is read to fill another one. -/
def Feeds (g : ReadGraph) (i j : Nat) : Prop := (i, j) ∈ g.edges

/-- Every name is there once, and edges lead from names to names. -/
structure Proper (g : ReadGraph) : Prop where
  nodup : g.names.Nodup
  lt : ∀ {i j}, g.Feeds i j → i < g.names.length ∧ j < g.names.length

variable {g g' : ReadGraph} {i j : Nat}

@[simp] theorem mem_readers : j ∈ g.readers i ↔ g.Feeds i j := by
  simp [readers, Feeds]

/-! ## Ways -/

theorem leadsTo_iff (hg : g.Proper) (hi : i < g.names.length) :
    g.leadsTo i j = true ↔ ReflTransGen g.Feeds i j := by
  rw [leadsTo, List.contains_iff_mem]
  constructor
  · refine BreadthFirst.walk_subset (P := fun j => ReflTransGen g.Feeds i j) ?_ .refl j
    exact fun k hk l hl => hk.tail (mem_readers.mp hl)
  · intro h
    have hbound : ∀ k < g.names.length, ∀ l ∈ g.readers k, l < g.names.length :=
      fun _ _ _ hl => (hg.lt (mem_readers.mp hl)).2
    obtain ⟨hself, hclosed⟩ := BreadthFirst.walk_closed hbound hi
    induction h with
    | refl => exact hself
    | tail _ hstep ih => exact hclosed _ ih _ (mem_readers.mpr hstep)

theorem hasCycle_iff (hg : g.Proper) : g.hasCycle = true ↔ ∃ i, TransGen g.Feeds i i := by
  rw [hasCycle, List.any_eq_true]
  constructor
  · rintro ⟨⟨a, b⟩, hedge, hback⟩
    exact ⟨a, .head' hedge ((leadsTo_iff hg (hg.lt hedge).2).mp hback)⟩
  · rintro ⟨i, h⟩
    obtain ⟨j, hedge, hback⟩ := TransGen.head'_iff.mp h
    exact ⟨(i, j), hedge, (leadsTo_iff hg (hg.lt hedge).2).mpr hback⟩

/-! ## The depth first order -/

/-- Whatever reads a name in the list comes after the name. -/
inductive Settled (g : ReadGraph) : List Nat → Prop
  | nil : Settled g []
  | cons {i : Nat} {rest : List Nat} (readers : ∀ j, g.Feeds i j → j ∈ rest) (settled : Settled g rest) :
      Settled g (i :: rest)

theorem Settled.mem_of_way {order : List Nat} (h : g.Settled order) (hi : i ∈ order)
    (hway : ReflTransGen g.Feeds i j) : j ∈ order := by
  have hclosed : ∀ k ∈ order, ∀ l, g.Feeds k l → l ∈ order := by
    clear hi hway
    induction h with
    | nil => simp
    | cons hreaders _ ih =>
      refine List.forall_mem_cons.mpr ⟨fun l hl => List.mem_cons_of_mem _ (hreaders l hl), ?_⟩
      exact fun k hk l hl => List.mem_cons_of_mem _ (ih k hk l hl)
  induction hway with
  | refl => exact hi
  | tail _ hstep ih => exact hclosed _ ih _ hstep

/-- No way leads from a name back to one before it. -/
theorem Settled.pairwise {order : List Nat} (h : g.Settled order) (hnodup : order.Nodup) :
    order.Pairwise fun i j => ¬TransGen g.Feeds j i := by
  induction h with
  | nil => exact .nil
  | cons _ hrest ih =>
    obtain ⟨hnew, hnodup⟩ := List.nodup_cons.mp hnodup
    refine List.pairwise_cons.mpr ⟨fun j hj hway => ?_, ih hnodup⟩
    exact hnew (hrest.mem_of_way hj hway.to_reflTransGen)

/-- What holds of the progress of ordering names. -/
structure Orderly (g : ReadGraph) (o : Progress) : Prop where
  met_nodup : o.met.Nodup
  met_lt : ∀ i ∈ o.met, i < g.names.length
  finished_nodup : o.finished.Nodup
  finished_met : ∀ i ∈ o.finished, i ∈ o.met
  settled : g.Settled o.finished

/-- The name was met and its readers are being ordered. -/
def Pending (o : Progress) (i : Nat) : Prop := i ∈ o.met ∧ i ∉ o.finished

/-- Progress that leaves the same names pending. -/
structure Advances (o o' : Progress) : Prop where
  met : o.met.length ≤ o'.met.length
  finished : ∀ i ∈ o.finished, i ∈ o'.finished
  pending : ∀ i, Pending o' i ↔ Pending o i

theorem Advances.refl (o : Progress) : Advances o o := ⟨Nat.le_refl _, fun _ h => h, fun _ => Iff.rfl⟩

theorem Advances.trans {o₁ o₂ o₃ : Progress} (h : Advances o₁ o₂) (h' : Advances o₂ o₃) :
    Advances o₁ o₃ :=
  ⟨Nat.le_trans h.met h'.met, fun i hi => h'.finished i (h.finished i hi),
    fun i => (h'.pending i).trans (h.pending i)⟩

theorem Orderly.met_length {o : Progress} (h : g.Orderly o) : o.met.length ≤ g.names.length := by
  have hsub : o.met ⊆ List.range g.names.length := fun i hi => List.mem_range.mpr (h.met_lt i hi)
  simpa using (h.met_nodup.subperm hsub).length_le

/-- Ordering a name leaves an orderly progress with the name on it. -/
def Orders (g : ReadGraph) (o : Progress) (positions : List Nat) (o' : Progress) : Prop :=
  g.Orderly o' ∧ Advances o o' ∧ ∀ i ∈ positions, i ∈ o'.finished

section

variable {o : Progress} {depth : Nat}

theorem foldl_visit_orders (ih : ∀ {o : Progress} {i : Nat}, g.Orderly o → i < g.names.length →
      g.names.length < o.met.length + depth → (∀ k, Pending o k → TransGen g.Feeds k i) →
      g.Orders o [i] (g.visit depth o i))
    {positions : List Nat} (ho : g.Orderly o) (hlt : ∀ i ∈ positions, i < g.names.length)
    (hdepth : g.names.length < o.met.length + depth)
    (hpending : ∀ k, Pending o k → ∀ i ∈ positions, TransGen g.Feeds k i) :
    g.Orders o positions (positions.foldl (g.visit depth) o) := by
  induction positions generalizing o with
  | nil => exact ⟨ho, .refl o, by simp⟩
  | cons i positions ihpositions =>
    obtain ⟨hi, hlt⟩ := List.forall_mem_cons.mp hlt
    obtain ⟨ho₁, hadvances₁, hfinished⟩ :=
      ih ho hi hdepth fun k hk => hpending k hk i List.mem_cons_self
    obtain ⟨ho₂, hadvances₂, hrest⟩ := ihpositions ho₁ hlt
      (Nat.lt_of_lt_of_le hdepth (Nat.add_le_add_right hadvances₁.met depth))
      fun k hk j hj => hpending k ((hadvances₁.pending k).mp hk) j (List.mem_cons_of_mem _ hj)
    refine ⟨ho₂, hadvances₁.trans hadvances₂, List.forall_mem_cons.mpr ⟨?_, hrest⟩⟩
    exact hadvances₂.finished i (hfinished i List.mem_cons_self)

/-- Once its readers are ordered, so is the name. -/
theorem orders_finish {o₁ : Progress} (hi : i < g.names.length) (hnew : i ∉ o.met)
    (ho : g.Orderly o)
    (h : g.Orders { o with met := i :: o.met } (g.readers i) o₁) :
    g.Orders o [i] { o₁ with finished := i :: o₁.finished } := by
  obtain ⟨ho₁, hadvances, hreaders⟩ := h
  have hunfinished : i ∉ o.finished := fun hmem => hnew (ho.finished_met i hmem)
  obtain ⟨hmet, hpending⟩ : Pending o₁ i :=
    (hadvances.pending i).mpr ⟨List.mem_cons_self, hunfinished⟩
  refine ⟨⟨ho₁.met_nodup, ho₁.met_lt, List.nodup_cons.mpr ⟨hpending, ho₁.finished_nodup⟩,
    List.forall_mem_cons.mpr ⟨hmet, ho₁.finished_met⟩,
    .cons (fun j hj => hreaders j (mem_readers.mpr hj)) ho₁.settled⟩,
    ⟨Nat.le_of_succ_le hadvances.met, fun k hk => List.mem_cons_of_mem _ (hadvances.finished k hk),
      fun k => ?_⟩, by simp⟩
  -- pending are those that were, without the name itself
  have hk := hadvances.pending k
  simp only [Pending, List.mem_cons, not_or] at hk ⊢
  constructor
  · rintro ⟨hmem, hne, hrest⟩
    obtain ⟨hk, hkrest⟩ := hk.mp ⟨hmem, hrest⟩
    exact ⟨hk.resolve_left hne, hkrest⟩
  · rintro ⟨hmem, hrest⟩
    have hne : k ≠ i := by
      rintro rfl
      exact hnew hmem
    obtain ⟨hkmet, hkrest⟩ := hk.mpr ⟨.inr hmem, hrest⟩
    exact ⟨hkmet, hne, hkrest⟩

/-- Ordering a name orders what reads it before. The names that are pending lead to it, so that where no
way leads back it is none of them, and the bound exceeds the number of names that were not met. -/
theorem visit_orders (hg : g.Proper) (hacyclic : ∀ i, ¬TransGen g.Feeds i i) (depth : Nat) {o : Progress}
    {i : Nat} (ho : g.Orderly o) (hi : i < g.names.length)
    (hdepth : g.names.length < o.met.length + depth)
    (hpending : ∀ k, Pending o k → TransGen g.Feeds k i) :
    g.Orders o [i] (g.visit depth o i) := by
  induction depth generalizing o i with
  | zero => exact absurd ho.met_length (Nat.not_le_of_lt hdepth)
  | succ depth ih =>
    unfold visit
    split
    · next hmet =>
      have hmet : i ∈ o.met := List.contains_iff_mem.mp hmet
      refine ⟨ho, .refl o, List.forall_mem_singleton.mpr ?_⟩
      by_contra hunfinished
      exact hacyclic i (hpending i ⟨hmet, hunfinished⟩)
    · next hnew =>
      have hnew : i ∉ o.met := fun hmet => hnew (List.contains_iff_mem.mpr hmet)
      have ho₁ : g.Orderly { o with met := i :: o.met } :=
        ⟨List.nodup_cons.mpr ⟨hnew, ho.met_nodup⟩, List.forall_mem_cons.mpr ⟨hi, ho.met_lt⟩,
          ho.finished_nodup, fun k hk => List.mem_cons_of_mem _ (ho.finished_met k hk), ho.settled⟩
      refine orders_finish hi hnew ho (foldl_visit_orders ih ho₁ ?_ ?_ ?_)
      · exact fun j hj => (hg.lt (mem_readers.mp hj)).2
      · simp only [List.length_cons]
        omega
      · rintro k ⟨hk, hrest⟩ j hj
        have hstep : g.Feeds i j := mem_readers.mp hj
        rcases List.mem_cons.mp hk with rfl | hk
        · exact .single hstep
        · exact (hpending k ⟨hk, hrest⟩).tail hstep

end

/-- Where no way leads back, all names are ordered, each once, and each before what ways lead to. -/
theorem ordered_spec (hg : g.Proper) (hacyclic : ∀ i, ¬TransGen g.Feeds i i) :
    g.ordered.Nodup ∧ (∀ i, i ∈ g.ordered ↔ i < g.names.length) ∧
      g.ordered.Pairwise fun i j => ¬TransGen g.Feeds j i := by
  have hstart : g.Orderly {} := ⟨.nil, by simp, .nil, by simp, .nil⟩
  have hrange : ∀ i ∈ List.range g.names.length, i < g.names.length := fun i hi => List.mem_range.mp hi
  obtain ⟨ho, -, hall⟩ := foldl_visit_orders (visit_orders hg hacyclic (g.names.length + 1)) hstart
    hrange (by simp) (fun k hk => absurd hk.1 List.not_mem_nil)
  refine ⟨ho.finished_nodup, fun i => ⟨fun hi => ho.met_lt i (ho.finished_met i hi), fun hi => ?_⟩,
    ho.settled.pairwise ho.finished_nodup⟩
  exact hall i (List.mem_range.mpr hi)

/-! ## Ways between names -/

section

variable {a b name : List String}

/-- One name is read to fill another one. -/
def Links (g : ReadGraph) (a b : List String) : Prop :=
  ∃ i j, g.Feeds i j ∧ g.names[i]? = some a ∧ g.names[j]? = some b

theorem Proper.position_unique (hg : g.Proper) (hi : g.names[i]? = some a) (hj : g.names[j]? = some a) :
    i = j := by
  obtain ⟨hlt, -⟩ := List.getElem?_eq_some_iff.mp hi
  exact (List.getElem?_inj hlt hg.nodup).mp (hi.trans hj.symm)

theorem Proper.findIdx? (hg : g.Proper) :
    g.names.findIdx? (· == a) = some i ↔ g.names[i]? = some a := by
  rw [List.findIdx?_eq_some_iff_getElem, List.getElem?_eq_some_iff]
  constructor
  · rintro ⟨hlt, heq, -⟩
    exact ⟨hlt, beq_iff_eq.mp heq⟩
  · rintro ⟨hlt, heq⟩
    refine ⟨hlt, beq_iff_eq.mpr heq, fun j hji hj => ?_⟩
    have hsame : g.names[j] = g.names[i] := (beq_iff_eq.mp hj).trans heq.symm
    exact Nat.ne_of_lt hji ((hg.nodup.getElem_inj_iff).mp hsame)

theorem transGen_links_iff (hg : g.Proper) (hi : g.names[i]? = some a) (hj : g.names[j]? = some b) :
    TransGen g.Links a b ↔ TransGen g.Feeds i j := by
  constructor
  · intro h
    induction h generalizing j with
    | single hlink =>
      obtain ⟨i', j', hfeeds, hi', hj'⟩ := hlink
      obtain rfl := hg.position_unique hi hi'
      obtain rfl := hg.position_unique hj hj'
      exact .single hfeeds
    | tail _ hlink ih =>
      obtain ⟨k, j', hfeeds, hk, hj'⟩ := hlink
      obtain rfl := hg.position_unique hj hj'
      exact (ih hk).tail hfeeds
  · intro h
    induction h generalizing b with
    | single hfeeds => exact .single ⟨i, _, hfeeds, hi, hj⟩
    | tail _ hfeeds ih =>
      have hk := List.getElem?_eq_getElem (hg.lt hfeeds).1
      exact (ih hk).tail ⟨_, _, hfeeds, hk, hj⟩

theorem reflTransGen_links_iff (hg : g.Proper) (hi : g.names[i]? = some a)
    (hj : g.names[j]? = some b) : ReflTransGen g.Links a b ↔ ReflTransGen g.Feeds i j := by
  have hsame : b = a ↔ j = i := by
    constructor
    · rintro rfl
      exact hg.position_unique hj hi
    · rintro rfl
      exact Option.some.inj (hj.symm.trans hi)
  rw [reflTransGen_iff_eq_or_transGen, reflTransGen_iff_eq_or_transGen, transGen_links_iff hg hi hj,
    hsame]

/-- Names in a circle are positions in a circle. -/
theorem exists_circle_iff (hg : g.Proper) : (∃ a, TransGen g.Links a a) ↔ ∃ i, TransGen g.Feeds i i := by
  constructor
  · rintro ⟨a, h⟩
    obtain ⟨b, ⟨i, j, -, hi, -⟩, -⟩ := TransGen.head'_iff.mp h
    exact ⟨i, (transGen_links_iff hg hi hi).mp h⟩
  · rintro ⟨i, h⟩
    obtain ⟨j, hfeeds, -⟩ := TransGen.head'_iff.mp h
    have hi := List.getElem?_eq_getElem (hg.lt hfeeds).1
    exact ⟨_, (transGen_links_iff hg hi hi).mpr h⟩

/-! ## Building the graph -/

/-- One graph is the other one with more names and links. Names keep their positions. -/
structure Adds (g g' : ReadGraph) (name : List String → Prop) (link : List String → List String → Prop) :
    Prop where
  proper : g'.Proper
  kept : ∀ {i : Nat} {a : List String}, g.names[i]? = some a → g'.names[i]? = some a
  mem_names : ∀ a, a ∈ g'.names ↔ a ∈ g.names ∨ name a
  links : ∀ a b, g'.Links a b ↔ g.Links a b ∨ link a b

theorem Adds.trans {g₁ g₂ : ReadGraph} {n n₁ n₂ : List String → Prop}
    {l l₁ l₂ : List String → List String → Prop} (h : Adds g g₁ n₁ l₁) (h' : Adds g₁ g₂ n₂ l₂)
    (hn : ∀ a, n a ↔ n₁ a ∨ n₂ a) (hl : ∀ a b, l a b ↔ l₁ a b ∨ l₂ a b) : Adds g g₂ n l where
  proper := h'.proper
  kept hi := h'.kept (h.kept hi)
  mem_names a := by rw [h'.mem_names, h.mem_names, hn, or_assoc]
  links a b := by rw [h'.links, h.links, hl, or_assoc]

theorem Adds.refl (hg : g.Proper) : Adds g g (fun _ => False) fun _ _ => False :=
  ⟨hg, fun hi => hi, by simp, by simp⟩

theorem addName_adds (hg : g.Proper) (name : List String) :
    Adds g (g.addName name).1 (· = name) (fun _ _ => False) ∧
      (g.addName name).1.names[(g.addName name).2]? = some name := by
  unfold addName
  split
  · next i hfound =>
    have hi : g.names[i]? = some name := hg.findIdx?.mp hfound
    refine ⟨⟨hg, fun hj => hj, fun a => ?_, by simp⟩, hi⟩
    refine ⟨.inl, ?_⟩
    rintro (ha | rfl)
    · exact ha
    · exact List.mem_of_getElem? hi
  · next hnone =>
    have hnew : name ∉ g.names := fun hmem => by
      simpa using List.findIdx?_eq_none_iff.mp hnone name hmem
    refine ⟨⟨⟨?_, fun hfeeds => ?_⟩, fun hi => ?_, by simp, fun a b => ?_⟩, by simp⟩
    · exact List.nodup_append.mpr ⟨hg.nodup, List.nodup_singleton _, by
        rintro a ha b hb rfl
        exact hnew (List.mem_singleton.mp hb ▸ ha)⟩
    · obtain ⟨hi, hj⟩ := hg.lt hfeeds
      simp only [List.length_append]
      exact ⟨Nat.lt_add_right _ hi, Nat.lt_add_right _ hj⟩
    · exact (List.getElem?_append_left (List.getElem?_eq_some_iff.mp hi).1).trans hi
    · -- edges lead from old names to old names
      have hold : ∀ i < g.names.length, (g.names ++ [name])[i]? = g.names[i]? :=
        fun i hi => List.getElem?_append_left hi
      simp only [Links, or_false]
      refine exists_congr fun i => exists_congr fun j => and_congr_right fun hfeeds => ?_
      have hfeeds : g.Feeds i j := hfeeds
      rw [hold i (hg.lt hfeeds).1, hold j (hg.lt hfeeds).2]

theorem addEdge_adds (hg : g.Proper) (hi : g.names[i]? = some a) (hj : g.names[j]? = some b) :
    Adds g (g.addEdge (i, j)) (fun _ => False) fun x y => x = a ∧ y = b := by
  have hlink : ∀ {g' : ReadGraph}, g'.names = g.names →
      (∀ k l, g'.Feeds k l ↔ g.Feeds k l ∨ k = i ∧ l = j) →
      ∀ x y, g'.Links x y ↔ g.Links x y ∨ x = a ∧ y = b := by
    intro g' hnames hedges x y
    simp only [Links, hnames, hedges]
    constructor
    · rintro ⟨k, l, hfeeds | ⟨rfl, rfl⟩, hk, hl⟩
      · exact .inl ⟨k, l, hfeeds, hk, hl⟩
      · exact .inr ⟨Option.some.inj (hk.symm.trans hi), Option.some.inj (hl.symm.trans hj)⟩
    · rintro (⟨k, l, hfeeds, hk, hl⟩ | ⟨rfl, rfl⟩)
      · exact ⟨k, l, .inl hfeeds, hk, hl⟩
      · exact ⟨i, j, .inr ⟨rfl, rfl⟩, hi, hj⟩
  unfold addEdge
  split
  · next hthere =>
    have hfeeds : g.Feeds i j := List.contains_iff_mem.mp hthere
    refine ⟨hg, fun hk => hk, by simp, hlink rfl fun k l => ⟨.inl, ?_⟩⟩
    rintro (h | ⟨rfl, rfl⟩)
    · exact h
    · exact hfeeds
  · have hedges : ∀ k l, (k, l) ∈ g.edges ++ [(i, j)] ↔ g.Feeds k l ∨ k = i ∧ l = j := by
      intro k l
      simp [Feeds]
    refine ⟨⟨hg.nodup, fun hfeeds => ?_⟩, fun hk => hk, by simp, hlink rfl hedges⟩
    rcases (hedges _ _).mp hfeeds with h | ⟨rfl, rfl⟩
    · exact hg.lt h
    · exact ⟨(List.getElem?_eq_some_iff.mp hi).1, (List.getElem?_eq_some_iff.mp hj).1⟩

theorem addReads_adds (hg : g.Proper) {view : Nat} (hview : g.names[view]? = some name)
    (reads : List (List String)) :
    Adds g (addReads view reads g) (· ∈ reads) fun x y => x ∈ reads ∧ y = name := by
  induction reads generalizing g with
  | nil => exact (Adds.refl hg).trans (.refl hg) (by simp) (by simp)
  | cons a reads ih =>
    obtain ⟨hname, ha⟩ := addName_adds hg a
    have hview₁ := hname.kept hview
    have hedge := addEdge_adds hname.proper ha hview₁
    have hview₂ := hedge.kept hview₁
    have hfirst : Adds g (((g.addName a).1).addEdge ((g.addName a).2, view)) (· = a)
        fun x y => x = a ∧ y = name := hname.trans hedge (by simp) (by simp)
    refine hfirst.trans (ih hedge.proper hview₂) (by simp) fun x y => ?_
    rw [List.mem_cons, or_and_right]

theorem addView_adds (hg : g.Proper) (name : List String) (reads : List (List String)) :
    Adds g (g.addView name reads) (fun a => a = name ∨ a ∈ reads) fun x y => x ∈ reads ∧ y = name := by
  obtain ⟨hname, hview⟩ := addName_adds hg name
  exact hname.trans (addReads_adds hname.proper hview reads) (fun _ => Iff.rfl) (by simp)

end

end QueryPlan.ReadGraph
