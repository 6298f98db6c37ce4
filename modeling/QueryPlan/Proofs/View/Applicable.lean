import QueryPlan.Proofs.Session.Frontier
import QueryPlan.Proofs.View.ReadGraph
/-!
# Which views apply to a query

A view with a name is filled from the tables that its defining query reads. It applies to a query if
a table of the query leads to it, over any number of views that are filled from one another. Of the
views with one name the last one applies, and a view applies after the views that it is filled from;
if some names are filled from one another in a circle, no view applies.
-/
namespace QueryPlan

open Relation ReadGraph

/-! ## The tables under a plan -/

/-- Names of tables survive when only the first table of each name is kept. -/
theorem Table.mem_names_eraseDupsBy {tables : List Table} {name : List String} :
    name ∈ (tables.eraseDupsBy (·.same ·)).map Table.name ↔ name ∈ tables.map Table.name := by
  -- the rest is filtered before it is gone through, so on the length of the list
  induction hn : tables.length using Nat.strongRecOn generalizing tables with
  | ind n ih =>
    cases tables with
    | nil => rfl
    | cons first tables =>
      have hlen : (tables.filter fun t => t.same first = false).length < n := by
        have := List.length_filter_le (fun t : Table => decide (t.same first = false)) tables
        simp only [List.length_cons] at hn
        omega
      rw [List.eraseDupsBy_cons, List.map_cons, List.map_cons, List.mem_cons, List.mem_cons,
        ih _ hlen rfl]
      refine or_congr_right' fun hne => ?_
      simp only [List.mem_map, List.mem_filter, Table.same]
      constructor
      · rintro ⟨t, ⟨ht, -⟩, rfl⟩
        exact ⟨t, ht, rfl⟩
      · rintro ⟨t, ht, rfl⟩
        exact ⟨t, ⟨ht, decide_eq_true (beq_eq_false_iff_ne.mpr hne)⟩, rfl⟩

namespace Cluster

/-- The plan under a node scans a table of that name. -/
def ReadsTable (c : Cluster) (root : NodeId) (name : List String) : Prop :=
  ∃ id table, c.InPlan root id ∧ (c.operator id).table? = some table ∧ table.name = name

/-- Some view of the second name is filled by a query that scans a table of the first one. -/
def Fills (c : Cluster) (views : List Materialization) (a b : List String) : Prop :=
  ∃ view ∈ views, view.findableName? = some b ∧ c.ReadsTable view.query a

variable {c : Cluster} {query : NodeId} {views : List Materialization} {name : List String} {i : Nat}

theorem mem_tables_iff {root : NodeId} (hroot : root < c.size) :
    name ∈ (c.tables root).map Table.name ↔ c.ReadsTable root name := by
  rw [tables, Table.mem_names_eraseDupsBy]
  simp only [List.mem_map, List.mem_filterMap, mem_breadthFirst_iff hroot, ReadsTable]
  constructor
  · rintro ⟨table, ⟨id, hid, htable⟩, rfl⟩
    exact ⟨id, table, hid, htable, rfl⟩
  · rintro ⟨id, table, hid, htable, rfl⟩
    exact ⟨table, ⟨id, hid, htable⟩, rfl⟩

/-! ## The graph of the views -/

theorem fills_cons {view : Materialization} {a b : List String} :
    c.Fills (view :: views) a b ↔
      view.findableName? = some b ∧ c.ReadsTable view.query a ∨ c.Fills views a b := by
  simp [Fills]

/-- A name that the views deal with: one of theirs, or of a table that fills one. -/
def Concerns (c : Cluster) (views : List Materialization) (a : List String) : Prop :=
  (∃ view ∈ views, view.findableName? = some a) ∨ ∃ b, c.Fills views a b

theorem concerns_cons {view : Materialization} {a : List String} :
    c.Concerns (view :: views) a ↔ (view.findableName? = some a ∨
      ∃ b, view.findableName? = some b ∧ c.ReadsTable view.query a) ∨ c.Concerns views a := by
  simp only [Concerns, List.mem_cons, exists_eq_or_imp, fills_cons, exists_or]
  exact or_or_or_comm

/-- Adding the views one after the other adds their names, and a link for each table that one of them
reads. -/
theorem foldl_views_adds {g : ReadGraph} (hg : g.Proper) (hviews : ∀ view ∈ views, view.query < c.size) :
    Adds g
      (views.foldl (fun g view => match view.findableName? with
        | some name => g.addView name ((c.tables view.query).map Table.name)
        | none => g) g)
      (c.Concerns views) (c.Fills views) := by
  induction views generalizing g with
  | nil => exact (Adds.refl hg).trans (.refl hg) (by simp [Concerns, Fills]) (by simp [Fills])
  | cons view views ih =>
    obtain ⟨hquery, hviews⟩ := List.forall_mem_cons.mp hviews
    rw [List.foldl_cons]
    cases hname : view.findableName? with
    | none =>
      exact (Adds.refl hg).trans (ih hg hviews) (fun a => by simp [concerns_cons, hname])
        fun a b => by simp [fills_cons, hname]
    | some v =>
      have hview := addView_adds hg v ((c.tables view.query).map Table.name)
      refine hview.trans (ih hview.proper hviews) (fun a => ?_) fun a b => ?_
      · rw [concerns_cons, hname, mem_tables_iff hquery]
        simp [eq_comm]
      · rw [fills_cons, hname, mem_tables_iff hquery, Option.some.injEq, and_comm, eq_comm (a := v)]

theorem readGraph_adds (hviews : ∀ view ∈ views, view.query < c.size) :
    Adds {} (c.readGraph views) (c.Concerns views) (c.Fills views) :=
  foldl_views_adds ⟨.nil, fun h => by cases h⟩ hviews

theorem readGraph_links (hviews : ∀ view ∈ views, view.query < c.size) :
    (c.readGraph views).Links = c.Fills views := by
  funext a b
  rw [(readGraph_adds hviews).links, eq_iff_iff]
  exact or_iff_right fun ⟨_, _, hfeeds, _⟩ => by cases hfeeds

theorem mem_readGraph_names (hviews : ∀ view ∈ views, view.query < c.size) :
    name ∈ (c.readGraph views).names ↔ c.Concerns views name := by
  rw [(readGraph_adds hviews).mem_names]
  exact or_iff_right List.not_mem_nil

/-! ## The last view of a name -/

/-- The view at the position goes by the name. -/
def NamedAt (views : List Materialization) (name : List String) (i : Nat) : Prop :=
  ∃ view, views[i]? = some view ∧ view.findableName? = some name

/-- The view at the position is the last one that goes by the name. -/
def LastNamed (views : List Materialization) (name : List String) (i : Nat) : Prop :=
  NamedAt views name i ∧ ∀ j, NamedAt views name j → j ≤ i

theorem NamedAt.lt {views : List Materialization} (h : NamedAt views name i) : i < views.length :=
  let ⟨_, hview, _⟩ := h
  (List.getElem?_eq_some_iff.mp hview).1

theorem namedAt_concat {view : Materialization} : NamedAt (views ++ [view]) name i ↔
    NamedAt views name i ∨ i = views.length ∧ view.findableName? = some name := by
  rcases Nat.lt_trichotomy i views.length with hlt | rfl | hgt
  · simp [NamedAt, List.getElem?_append_left hlt, Nat.ne_of_lt hlt]
  · simp [NamedAt]
  · have hnone : (views ++ [view])[i]? = none :=
      List.getElem?_eq_none (by simpa using Nat.succ_le_of_lt hgt)
    simp [NamedAt, hnone, List.getElem?_eq_none (Nat.le_of_lt hgt), Nat.ne_of_gt hgt]

theorem viewNamed?_concat {view : Materialization} : viewNamed? (views ++ [view]) name =
    if view.findableName? = some name then some views.length else viewNamed? views name := by
  unfold viewNamed?
  rw [List.zipIdx_append, List.reverse_append]
  by_cases h : view.findableName? = some name <;> simp [h]

theorem viewNamed?_eq_some_iff : viewNamed? views name = some i ↔ LastNamed views name i := by
  induction views using List.reverseRecOn with
  | nil =>
    constructor
    · intro h
      cases h
    · rintro ⟨h, -⟩
      exact absurd h.lt (Nat.not_lt_zero i)
  | append_singleton views view ih =>
    rw [viewNamed?_concat]
    simp only [LastNamed, namedAt_concat]
    split
    · next hname =>
      constructor
      · rintro ⟨⟩
        refine ⟨.inr ⟨rfl, hname⟩, ?_⟩
        rintro j (hj | ⟨rfl, -⟩)
        · exact Nat.le_of_lt hj.lt
        · exact Nat.le_refl _
      · rintro ⟨hi | ⟨rfl, -⟩, hlast⟩
        · exact absurd (hlast views.length (.inr ⟨rfl, hname⟩)) (Nat.not_le_of_lt hi.lt)
        · rfl
    · next hname =>
      have hdrop : ∀ j, NamedAt views name j ∨ j = views.length ∧ view.findableName? = some name ↔
          NamedAt views name j := fun j => or_iff_left fun h => hname h.2
      simp only [hdrop]
      exact ih

theorem LastNamed.unique {j : Nat} (h : LastNamed views name i) (h' : LastNamed views name j) : i = j :=
  Nat.le_antisymm (h'.2 i h.1) (h.2 j h'.1)

/-- A view goes by one name. -/
theorem NamedAt.name_unique {a b : List String} (h : NamedAt views a i) (h' : NamedAt views b i) : a = b := by
  obtain ⟨view, hview, ha⟩ := h
  obtain ⟨view', hview', hb⟩ := h'
  rw [hview] at hview'
  cases hview'
  exact Option.some.inj (ha.symm.trans hb)

/-! ## The views that apply -/

/-- Some table of the query leads to the name. -/
def LeadsFrom (c : Cluster) (query : NodeId) (views : List Materialization) (name : List String) :
    Prop :=
  ∃ scanned, c.ReadsTable query scanned ∧ ReflTransGen (c.Fills views) scanned name

/-- What a position of the graph offers: the last view of its name, if some table of the query leads
there. -/
def Offered (c : Cluster) (query : NodeId) (views : List Materialization) (position i : Nat) : Prop :=
  ∃ name, (c.readGraph views).names[position]? = some name ∧ LastNamed views name i ∧
    c.LeadsFrom query views name

section

variable (hquery : query < c.size) (hviews : ∀ view ∈ views, view.query < c.size)

include hviews in
theorem readGraph_hasCycle :
    (c.readGraph views).hasCycle = true ↔ ∃ name, TransGen (c.Fills views) name name := by
  have hg := (readGraph_adds hviews).proper
  rw [hasCycle_iff hg, ← exists_circle_iff hg, readGraph_links hviews]

include hquery hviews in
/-- A source is the position of a table of the query. -/
theorem any_leadsTo_iff {position : Nat} (hname : (c.readGraph views).names[position]? = some name) :
    ((c.tables query).filterMap fun table =>
        (c.readGraph views).names.findIdx? (· == table.name)).any
      (fun source => (c.readGraph views).leadsTo source position) = true ↔
    c.LeadsFrom query views name := by
  have hg := (readGraph_adds hviews).proper
  simp only [List.any_eq_true, List.mem_filterMap, hg.findIdx?]
  constructor
  · rintro ⟨source, ⟨table, htable, hsource⟩, hway⟩
    refine ⟨table.name, (mem_tables_iff hquery).mp (List.mem_map_of_mem htable), ?_⟩
    rw [leadsTo_iff hg (List.getElem?_eq_some_iff.mp hsource).1,
      ← reflTransGen_links_iff hg hsource hname, readGraph_links hviews] at hway
    exact hway
  · rintro ⟨scanned, hscanned, hway⟩
    obtain ⟨table, htable, rfl⟩ := List.mem_map.mp ((mem_tables_iff hquery).mpr hscanned)
    -- a name that leads to one of the graph is one of the graph
    have hmem : table.name ∈ (c.readGraph views).names := by
      rcases hway.cases_head with heq | ⟨b, hfills, -⟩
      · exact heq ▸ List.mem_of_getElem? hname
      · exact (mem_readGraph_names hviews).mpr (.inr ⟨b, hfills⟩)
    obtain ⟨source, hsource⟩ := List.mem_iff_getElem?.mp hmem
    refine ⟨source, ⟨table, htable, hsource⟩, ?_⟩
    rw [leadsTo_iff hg (List.getElem?_eq_some_iff.mp hsource).1,
      ← reflTransGen_links_iff hg hsource hname, readGraph_links hviews]
    exact hway

include hviews in
/-- One position of the graph offers a view: that of its name. -/
theorem Offered.position_eq {p q : Nat} {a : List String} (h : c.Offered query views p i)
    (hnamed : NamedAt views a i) (hq : (c.readGraph views).names[q]? = some a) : p = q := by
  obtain ⟨name, hp, hlast, -⟩ := h
  obtain rfl := hlast.1.name_unique hnamed
  exact (readGraph_adds hviews).proper.position_unique hp hq

/-- A position that offers a view has the name of the view. -/
theorem Offered.getElem?_names {p : Nat} {a : List String} (h : c.Offered query views p i)
    (hnamed : NamedAt views a i) : (c.readGraph views).names[p]? = some a := by
  obtain ⟨name, hp, hlast, -⟩ := h
  rwa [hlast.1.name_unique hnamed] at hp

section

variable (hacyclic : ¬∃ name, TransGen (c.Fills views) name name)

include hquery hviews hacyclic

/-- Where no names are filled in a circle, the views that apply are offered by the positions of the graph
in their order. -/
theorem applicableViews_eq : ∃ offer : Nat → Option Nat,
    c.applicableViews query views = (c.readGraph views).ordered.filterMap offer ∧
      ∀ position i, offer position = some i ↔ c.Offered query views position i := by
  refine ⟨_, if_neg fun hcycle => hacyclic ((readGraph_hasCycle hviews).mp hcycle), fun position i => ?_⟩
  simp only [Option.bind_eq_bind, Option.bind_eq_some_iff, viewNamed?_eq_some_iff, Offered]
  refine exists_congr fun name => and_congr_right fun hname => ?_
  simp only [Option.ite_none_right_eq_some, any_leadsTo_iff hquery hviews hname, Option.some.injEq]
  constructor
  · rintro ⟨view, hlast, hleads, rfl⟩
    exact ⟨hlast, hleads⟩
  · rintro ⟨hlast, hleads⟩
    exact ⟨i, hlast, hleads, rfl⟩

omit hquery in
/-- The graph has all its positions in order, each once. -/
theorem readGraph_ordered : (c.readGraph views).ordered.Nodup ∧
    (∀ p, p ∈ (c.readGraph views).ordered ↔ p < (c.readGraph views).names.length) ∧
      (c.readGraph views).ordered.Pairwise fun p q => ¬TransGen (c.readGraph views).Feeds q p := by
  have hg := (readGraph_adds hviews).proper
  rw [← readGraph_links hviews, exists_circle_iff hg] at hacyclic
  exact ordered_spec hg (not_exists.mp hacyclic)

theorem nodup_applicableViews : (c.applicableViews query views).Nodup := by
  obtain ⟨offer, heq, hoffer⟩ := applicableViews_eq hquery hviews hacyclic
  rw [heq]
  refine (readGraph_ordered hviews hacyclic).1.filterMap fun p q i hp hq => ?_
  obtain ⟨name, hname, hlast, -⟩ := (hoffer q i).mp hq
  exact ((hoffer p i).mp hp).position_eq hviews hlast.1 hname

theorem mem_applicableViews_iff : i ∈ c.applicableViews query views ↔
    ∃ name, LastNamed views name i ∧ c.LeadsFrom query views name := by
  obtain ⟨offer, heq, hoffer⟩ := applicableViews_eq hquery hviews hacyclic
  rw [heq, List.mem_filterMap]
  constructor
  · rintro ⟨p, -, hp⟩
    obtain ⟨name, -, hlast, hleads⟩ := (hoffer p i).mp hp
    exact ⟨name, hlast, hleads⟩
  · rintro ⟨name, hlast, hleads⟩
    obtain ⟨view, hview, hname⟩ := hlast.1
    have hmem : name ∈ (c.readGraph views).names :=
      (mem_readGraph_names hviews).mpr (.inl ⟨view, List.mem_of_getElem? hview, hname⟩)
    obtain ⟨p, hp⟩ := List.mem_iff_getElem?.mp hmem
    have hordered : p ∈ (c.readGraph views).ordered :=
      ((readGraph_ordered hviews hacyclic).2.1 p).mpr (List.getElem?_eq_some_iff.mp hp).1
    exact ⟨p, hordered, (hoffer p i).mpr ⟨name, hp, hlast, hleads⟩⟩

/-- No view is filled from one that comes after it. -/
theorem pairwise_applicableViews : (c.applicableViews query views).Pairwise fun i j =>
    ∀ a b, NamedAt views a i → NamedAt views b j → ¬TransGen (c.Fills views) b a := by
  obtain ⟨offer, heq, hoffer⟩ := applicableViews_eq hquery hviews hacyclic
  have hg := (readGraph_adds hviews).proper
  rw [heq]
  refine (readGraph_ordered hviews hacyclic).2.2.filterMap offer fun p q hnot i hi j hj a b ha hb hway =>
    hnot ?_
  have hp := ((hoffer p i).mp hi).getElem?_names ha
  have hq := ((hoffer q j).mp hj).getElem?_names hb
  exact (transGen_links_iff hg hq hp).mp (readGraph_links hviews ▸ hway)

end

end

/-- In a list whose elements are related to all later ones, an element comes before one that is not
related to it. -/
theorem idxOf_lt_of_pairwise {R : Nat → Nat → Prop} {l : List Nat} (h : l.Pairwise R) {i j : Nat}
    (hi : i ∈ l) (hj : j ∈ l) (hne : i ≠ j) (hnot : ¬R j i) : l.idxOf i < l.idxOf j := by
  have hi' := List.idxOf_lt_length_of_mem hi
  have hj' := List.idxOf_lt_length_of_mem hj
  rcases Nat.lt_trichotomy (l.idxOf i) (l.idxOf j) with hlt | heq | hgt
  · exact hlt
  · exact absurd ((List.idxOf_inj hi).mp heq) hne
  · have hrel := List.pairwise_iff_getElem.mp h _ _ hj' hi' hgt
    rw [List.getElem_idxOf, List.getElem_idxOf] at hrel
    exact absurd hrel hnot

/-- The views that apply to a query are the last ones of the names that a table of the query leads to, each
once, and a view comes after those that it is filled from. Where names are filled in a circle, no
view applies. -/
theorem applicableViews_exact (hquery : query < c.size) (hviews : ∀ view ∈ views, view.query < c.size) :
    ((∃ name, TransGen (c.Fills views) name name) → c.applicableViews query views = []) ∧
    ((¬∃ name, TransGen (c.Fills views) name name) →
      (c.applicableViews query views).Nodup ∧
      (∀ i, i ∈ c.applicableViews query views ↔
        ∃ name, LastNamed views name i ∧ c.LeadsFrom query views name) ∧
      ∀ i ∈ c.applicableViews query views, ∀ j ∈ c.applicableViews query views, ∀ a b,
        NamedAt views a i → NamedAt views b j → TransGen (c.Fills views) a b →
        (c.applicableViews query views).idxOf i < (c.applicableViews query views).idxOf j) := by
  refine ⟨fun hcycle => if_pos ((readGraph_hasCycle hviews).mpr hcycle), fun hacyclic => ?_⟩
  refine ⟨nodup_applicableViews hquery hviews hacyclic,
    fun i => mem_applicableViews_iff hquery hviews hacyclic, fun i hi j hj a b ha hb hway => ?_⟩
  have hordered := pairwise_applicableViews hquery hviews hacyclic
  refine idxOf_lt_of_pairwise hordered hi hj ?_ fun h => h b a hb ha hway
  rintro rfl
  exact hacyclic ⟨a, ha.name_unique hb ▸ hway⟩

/-- A table of names. -/
def nameTable (name : List String) : Table := { name, rowType := ⟨[⟨"name", .varchar, false⟩]⟩ }

/-- People and pets, both of them in a view, and that view through a filter in another one. -/
def petPlans : Planning NodeId := do
  let people ← createDefault (.scan .none (nameTable ["town", "people"])) []
  let pets ← createDefault (.scan .none (nameTable ["town", "pets"])) []
  let _ ← createDefault (.union .none true) [people, pets]
  let both ← createDefault (.scan .none (nameTable ["view", "both"])) []
  let _ ← createDefault (.filter .none (.bool true)) [both]
  createDefault (.scan .none (nameTable ["view", "kept"])) []

def petSession : Cluster := petPlans.leaves (Cluster.start ⟨[]⟩ default default)

/-- The view over the other one is listed first. -/
def petViews : List Materialization :=
  [⟨5, 4, some ["view", "kept"], none⟩, ⟨3, 2, some ["view", "both"], none⟩]

theorem applicableViews_exact_pets :
    ((1 < petSession.size ∧ ∀ view ∈ petViews, view.query < petSession.size) ∧
      petSession.applicableViews 1 petViews = [1, 0] ∧
      (∃ name, LastNamed petViews name 0 ∧ petSession.LeadsFrom 1 petViews name) ∧
      (petSession.applicableViews 1 petViews).idxOf 1 < (petSession.applicableViews 1 petViews).idxOf 0) ∧
    petSession.applicableViews 3 [⟨3, 3, some ["view", "both"], none⟩] = [] := by
  have hquery : 1 < petSession.size := by decide +kernel
  have hviews : ∀ view ∈ petViews, view.query < petSession.size := by decide +kernel
  have happly : petSession.applicableViews 1 petViews = [1, 0] := by decide +kernel
  obtain ⟨hcircle, hexact⟩ := applicableViews_exact hquery hviews
  obtain ⟨-, hmem, horder⟩ := hexact fun h => by
    have hnone := hcircle h
    rw [happly] at hnone
    cases hnone
  have hfills : petSession.Fills petViews ["view", "both"] ["view", "kept"] :=
    ⟨_, List.mem_cons_self, rfl, 3, nameTable ["view", "both"],
      .input .root (by decide +kernel), by rfl, rfl⟩
  refine ⟨⟨⟨hquery, hviews⟩, happly, (hmem 0).mp (by rw [happly]; decide), ?_⟩, ?_⟩
  · exact horder 1 (by rw [happly]; decide) 0 (by rw [happly]; decide) _ _ ⟨_, rfl, rfl⟩ ⟨_, rfl, rfl⟩
      (.single hfills)
  · refine (applicableViews_exact (by decide +kernel) (by decide +kernel)).1 ⟨["view", "both"], .single ?_⟩
    exact ⟨_, List.mem_cons_self, rfl, 3, nameTable ["view", "both"], .root, by rfl, rfl⟩

end Cluster

end QueryPlan
