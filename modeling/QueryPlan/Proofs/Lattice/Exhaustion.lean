import QueryPlan.Proofs.Lattice.Typing
import QueryPlan.Proofs.Session.Replacement
import QueryPlan.Proofs.View.Substitution
/-!
# All trees are read off the star table

A replacement puts a scan of the star table under whatever was above the tree. The star table is none of
the tables that the lattice is made of, so nothing above that scan matches: what still matches did so
before, and the tree that was replaced is gone. Each round takes a node off the list of those that may
match, and the replacements end with no tree left.
-/
namespace QueryPlan.Lattice

open Cluster

variable {l : Lattice} {c c' : Cluster} {id : NodeId} {m : StarMatch}

/-! ## Plans over one scan -/

theorem Matches.inPlan (h : l.Matches c id m) {j : NodeId} (hj : c.InPlan id j) :
    ∃ m', l.Matches c j m' := by
  induction hj with
  | root => exact ⟨m, h⟩
  | input _ hmem ih =>
    obtain ⟨_, h⟩ := ih
    exact h.input hmem

/-- Everything in the plan stands over the scan of a table, and is no join. -/
structure ReadsOnly (c : Cluster) (table : Table) (scan root : NodeId) : Prop where
  scan_eq : ∃ convention, c.operator scan = .scan convention table
  inPlan_scan : ∀ id, c.InPlan root id → c.InPlan id scan
  join?_eq : ∀ id, c.InPlan root id → (c.operator id).join? = none

namespace ReadsOnly

variable {table : Table} {scan root : NodeId}

theorem of_scan {convention : Convention} (h : c.IsNode scan (.scan convention table) []) :
    ReadsOnly c table scan scan := by
  have heq : ∀ id, c.InPlan scan id → id = scan := by
    intro id hid
    rcases hid.eq_or_input with rfl | ⟨j, hj, -⟩
    · rfl
    · rw [h.inputs_eq] at hj
      cases hj
  refine ⟨⟨convention, h.operator_eq⟩, fun id hid => heq id hid ▸ .root, fun id hid => ?_⟩
  rw [heq id hid, h.operator_eq]
  rfl

theorem above (h : ReadsOnly c table scan root) {o : Operator} (hnode : c.IsNode id o [root])
    (hjoin : o.join? = none) : ReadsOnly c table scan id := by
  have hinput : c.InPlan id root := .input .root (hnode.inputs_eq ▸ List.mem_cons_self)
  have hplan : ∀ j, c.InPlan id j → j = id ∨ c.InPlan root j := by
    intro j hj
    refine hj.eq_or_input.imp_right fun ⟨k, hk, hj⟩ => ?_
    rw [hnode.inputs_eq, List.mem_singleton] at hk
    exact hk ▸ hj
  refine ⟨h.scan_eq, fun j hj => ?_, fun j hj => ?_⟩
  · rcases hplan j hj with rfl | hj
    · exact hinput.trans (h.inPlan_scan root .root)
    · exact h.inPlan_scan j hj
  · rcases hplan j hj with rfl | hj
    · rw [hnode.operator_eq, hjoin]
    · exact h.join?_eq j hj

theorem mono (h : ReadsOnly c table scan root) (hroot : root < c.size) (hc : c.Extends c') :
    ReadsOnly c' table scan root := by
  have hplan : ∀ id, c'.InPlan root id → c.InPlan root id := fun id => (hc.inPlan_iff hroot).mp
  have hscan := (h.inPlan_scan root .root).lt_size hroot
  obtain ⟨convention, hop⟩ := h.scan_eq
  refine ⟨⟨convention, (hc.operator_eq hscan).trans hop⟩, fun id hid => ?_, fun id hid => ?_⟩
  · exact (hc.inPlan_iff ((hplan id hid).lt_size hroot)).mpr (h.inPlan_scan id (hplan id hid))
  · rw [hc.operator_eq ((hplan id hid).lt_size hroot)]
    exact h.join?_eq id (hplan id hid)

/-- Nothing over a scan of a foreign table matches. -/
theorem not_matches (h : ReadsOnly c table scan root) (htable : l.position? table = none)
    (hid : c.InPlan id scan) : ¬l.Matches c id m := by
  intro hm
  obtain ⟨m', hm'⟩ := hm.inPlan hid
  obtain ⟨convention, hop⟩ := h.scan_eq
  cases hm' with
  | scan hop' hposition =>
    cases hop.symm.trans hop'
    cases htable.symm.trans hposition
  | filter hop' => cases hop.symm.trans hop'
  | join hop' => cases hop.symm.trans hop'

end ReadsOnly

theorem readsOnly_starPlan {star : NodeId} (h : (l.starPlan id m).Runs c star c') :
    ∃ scan, ReadsOnly c' l.star scan star := by
  obtain ⟨scan, c₁, input, c₂, hscan, hkeep, hfields⟩ := runs_starPlan.mp h
  obtain ⟨-, hscan⟩ := runs_createDefault hscan
  obtain ⟨hgrow, hkept⟩ := Rule.runs_keeping hscan.lt_size hkeep
  obtain ⟨_, -, hproject⟩ := Unification.runs_fieldsOver.mp hfields
  obtain ⟨hgrow', hprojected⟩ := Unification.runs_projectOver hproject
  have hinput : ReadsOnly c₂ l.star scan input := by
    have hscan := ReadsOnly.of_scan (hscan.mono hgrow)
    rcases hkept.cases with ⟨-, rfl⟩ | ⟨e, -, hnode⟩
    · exact hscan
    · exact hscan.above hnode rfl
  refine ⟨scan, ?_⟩
  rcases hprojected with hnode | ⟨rfl, -⟩
  · exact (hinput.mono hkept.lt_size hgrow').above hnode rfl
  · exact hinput.mono hkept.lt_size hgrow'

/-! ## One replacement -/

/-- Only listed nodes of the plan match. -/
def MatchAmong (l : Lattice) (c : Cluster) (root : NodeId) (nodes : List NodeId) : Prop :=
  ∀ id, c.InPlan root id → ∀ m, (l.matchStar c id).Finds m → id ∈ nodes

section

variable {C : Cluster} {root target star scan result : NodeId} (hc : c.Extends C) (hroot : root < c.size)
  (h : C.Replaced (· = target) star root result) (hstar : ReadsOnly C l.star scan star)

include hc hroot h hstar

/-- A node of the new plan stands over the scan of the star table, and then it is no join but one of the
old plan, or it is a node of the old plan that does not read what was replaced. -/
theorem cases_of_replaced {j : NodeId} (hj : C.InPlan result j) :
    (C.InPlan j scan ∧ ((C.operator j).join? = none ∨
      ∃ k, c.InPlan root k ∧ C.operator j = c.operator k)) ∨
    (c.InPlan root j ∧ ¬c.InPlan j target) := by
  rcases h.of_inPlan hj with hj | ⟨k, hk, hnot, hreplaced⟩
  · exact .inl ⟨hstar.inPlan_scan j hj, .inl (hstar.join?_eq j hj)⟩
  · have hk := (hc.inPlan_iff hroot).mp hk
    have hklt := hk.lt_size hroot
    by_cases hbelow : C.InPlan k target
    · refine .inl ⟨(hreplaced.inPlan_other hbelow rfl).trans (hstar.inPlan_scan star .root), .inr ⟨k, hk, ?_⟩⟩
      rw [hreplaced.operator_eq hnot, hc.operator_eq hklt]
    · have heq : j = k := hreplaced.eq_of_forall_not fun n hn heq => hbelow (heq ▸ hn)
      rw [heq]
      exact .inr ⟨hk, fun hn => hbelow ((hc.inPlan_iff hklt).mpr hn)⟩

/-- What matches after a replacement matched before, and is not what was replaced. -/
theorem matches_of_replaced (hforeign : l.position? l.star = none) {j : NodeId}
    (hj : C.InPlan result j) (hm : l.Matches C j m) : c.InPlan root j ∧ j ≠ target ∧ l.Matches c j m := by
  rcases cases_of_replaced hc hroot h hstar hj with ⟨hover, -⟩ | ⟨hj, hnot⟩
  · exact absurd hm (hstar.not_matches hforeign hover)
  · exact ⟨hj, fun heq => hnot (heq ▸ .root), hm.of_extends hc (hj.lt_size hroot)⟩

theorem typedOver_of_replaced (hforeign : l.position? l.star = none) (hplan : l.TypedOver c root) :
    l.TypedOver C result where
  scans id hid convention table i hop hposition := by
    obtain ⟨hid, -⟩ := matches_of_replaced hc hroot h hstar hforeign hid (.scan hop hposition)
    rw [hc.operator_eq (hid.lt_size hroot)] at hop
    exact hplan.scans id hid convention table i hop hposition
  equalities id hid algorithm condition hop := by
    rcases cases_of_replaced hc hroot h hstar hid with ⟨-, hjoin | ⟨k, hk, heq⟩⟩ | ⟨hid, -⟩
    · rw [hop] at hjoin
      cases hjoin
    · exact hplan.equalities k hk algorithm condition (heq ▸ hop)
    · rw [hc.operator_eq (hid.lt_size hroot)] at hop
      exact hplan.equalities id hid algorithm condition hop
  pairs id hid condition hop m hm := by
    obtain ⟨hid, -, hm⟩ :=
      matches_of_replaced hc hroot h hstar hforeign hid (matches_of_finds hm)
    rw [hc.operator_eq (hid.lt_size hroot)] at hop
    exact hplan.pairs id hid condition hop m (finds_of_matches hm)

theorem matchAmong_of_replaced (hforeign : l.position? l.star = none) {nodes : List NodeId}
    (hnodes : l.MatchAmong c root nodes) : l.MatchAmong C result (nodes.erase target) := by
  intro j hj m hfinds
  obtain ⟨hm, hout⟩ := finds_matchStar.mp hfinds
  obtain ⟨hj, hne, hm⟩ := matches_of_replaced hc hroot h hstar hforeign hj hm
  exact (List.mem_erase_of_ne hne).mpr (hnodes j hj m (finds_matchStar.mpr ⟨hm, hout⟩))

end

/-- A tree that matches can be replaced by the plan over the star table. -/
theorem replace_starPlan_succeeds {root : NodeId} (hroot : root < c.size) (hplan : l.TypedOver c root)
    (hid : c.InPlan root id) (hm : l.Matches c id m) :
    ∃ star c₁ result c₂ scan, (l.starPlan id m).Runs c star c₁ ∧
      (Cluster.replace root id star).Runs c₁ result c₂ ∧ result < c₂.size ∧ c.Extends c₂ ∧
      c₂.Replaced (· = id) star root result ∧ ReadsOnly c₂ l.star scan star := by
  have hlt := hid.lt_size hroot
  obtain ⟨star, c₁, hrun, htypes⟩ := starPlan_succeeds hm hlt (hplan.inPlan hid)
  have hgrow := (l.grows_starPlan id m).runs hrun
  have hstar := lt_size_of_starPlan hrun
  obtain ⟨scan, hreads⟩ := readsOnly_starPlan hrun
  have hroot' := hgrow.lt_size hroot
  have hlt' := hgrow.lt_size hlt
  obtain ⟨result, c₂, hreplace⟩ := replace_succeeds hroot' hlt' hstar
    (RowType.isCompatible_iff.mpr ((hgrow.types_eq hlt).trans htypes.symm))
  have hgrow' := (grows_replace root id star).runs hreplace
  obtain ⟨hresult, hreplaced⟩ :=
    replace_steps hroot' (steps_replaced hlt' hstar) hreplace (.refl c₂)
  exact ⟨star, c₁, result, c₂, scan, hrun, hreplace, hresult, hgrow.trans hgrow', hreplaced,
    hreads.mono hstar hgrow'⟩

/-! ## All replacements -/

/-- Nothing in the plan is left to be read off the star table. -/
def Exhausted (l : Lattice) (c : Cluster) (root : NodeId) : Prop :=
  ∀ id, c.InPlan root id → ∀ m, ¬(l.matchStar c id).Finds m

section

variable {count : Nat} {root star replaced : NodeId} {changed : Bool} {c₁ c₂ : Cluster}
  {result : Option NodeId}

theorem runs_useStarWithin_none
    (hfound : (Matching.first (l.matchStar c) (c.breadthFirst root)).run = .ok none) :
    (l.useStarWithin (count + 1) root changed).Runs c (if changed then some root else none) c := by
  rw [useStarWithin, Planning.runs_bind]
  exact ⟨none, c, Planning.runs_inspect.mpr ⟨hfound, rfl⟩, Planning.runs_pure.mpr ⟨rfl, rfl⟩⟩

theorem runs_useStarWithin_some
    (hfound : (Matching.first (l.matchStar c) (c.breadthFirst root)).run = .ok (some (id, m)))
    (hstar : (l.starPlan id m).Runs c star c₁) (hreplace : (Cluster.replace root id star).Runs c₁ replaced c₂)
    (hrest : (l.useStarWithin count replaced true).Runs c₂ result c') :
    (l.useStarWithin (count + 1) root changed).Runs c result c' := by
  rw [useStarWithin, Planning.runs_bind]
  refine ⟨some (id, m), c, Planning.runs_inspect.mpr ⟨hfound, rfl⟩, ?_⟩
  simp only [Planning.runs_bind]
  exact ⟨star, c₁, hstar, replaced, c₂, hreplace, hrest⟩

end

/-- The rounds end with nothing left to replace if there are more of them than nodes that may match. -/
theorem useStarWithin_succeeds (hforeign : l.position? l.star = none) {count : Nat} {root : NodeId}
    (changed : Bool) {nodes : List NodeId} (hroot : root < c.size) (hplan : l.TypedOver c root)
    (hnodes : l.MatchAmong c root nodes) (hcount : nodes.length < count) :
    ∃ result c', (l.useStarWithin count root changed).Runs c result c' ∧
      l.Exhausted c' (result.getD root) ∧
      (result = none ↔ changed = false ∧ l.Exhausted c root) := by
  -- on the rounds: each takes the node that it replaces off the list
  induction count generalizing c root changed nodes with
  | zero => exact absurd hcount (Nat.not_lt_zero _)
  | succ count ih =>
    have hmem : ∀ id, id ∈ c.breadthFirst root ↔ c.InPlan root id := fun id =>
      mem_breadthFirst_iff hroot
    obtain ⟨found, hfound⟩ : (Matching.first (l.matchStar c) (c.breadthFirst root)).Ends :=
      Matching.ends_first fun id hid => ends_matchStar (hplan.inPlan ((hmem id).mp hid))
    cases found with
    | none =>
      have hexhausted : l.Exhausted c root := fun id hid =>
        Matching.not_finds_of_first hfound id ((hmem id).mpr hid)
      refine ⟨if changed then some root else none, c, runs_useStarWithin_none hfound, ?_, ?_⟩
      · cases changed <;> exact hexhausted
      · cases changed <;> simp [hexhausted]
    | some p =>
      obtain ⟨id, m⟩ := p
      obtain ⟨hid, hfinds⟩ := Matching.finds_first hfound
      have hid := (hmem id).mp hid
      obtain ⟨star, c₁, replaced, c₂, scan, hstar, hreplace, hlt, hgrow, hreplaced, hreads⟩ :=
        replace_starPlan_succeeds hroot hplan hid (finds_matchStar.mp hfinds).1
      have hcount' : (nodes.erase id).length < count := by
        have hmem := hnodes id hid m hfinds
        have hpos := List.length_pos_of_mem hmem
        rw [List.length_erase_of_mem hmem]
        omega
      obtain ⟨result, c', hrun, hexhausted, hnone⟩ := ih true hlt
        (typedOver_of_replaced hgrow hroot hreplaced hreads hforeign hplan)
        (matchAmong_of_replaced hgrow hroot hreplaced hreads hforeign hnodes) hcount'
      obtain ⟨last, rfl⟩ : ∃ last, result = some last :=
        Option.ne_none_iff_exists'.mp fun h => Bool.noConfusion (hnone.mp h).1
      refine ⟨some last, c', runs_useStarWithin_some hfound hstar hreplace hrun, hexhausted, fun h => ?_, fun h => ?_⟩
      · cases h
      · exact absurd hfinds (h.2 id hid m)

/-- Reading a plan off the star table never fails and leaves nothing to be read off it, if the star table
is none of those that the lattice is made of, the plan reads these with the types that the lattice was
built with, its inner joins equate what there is to compare, and no inner semi join in it matches. There
is no new plan if nothing in the plan matches. -/
theorem useStar_exhausts (hforeign : l.position? l.star = none) (hid : id < c.size)
    (hplan : l.TypedOver c id) :
    ∃ result c', (l.useStar id).Runs c result c' ∧ l.Exhausted c' (result.getD id) ∧
      (result = none ↔ l.Exhausted c id) := by
  obtain ⟨result, c', hrun, hexhausted, hnone⟩ := useStarWithin_succeeds hforeign false hid
    hplan (fun j hj _ _ => (mem_breadthFirst_iff hid).mpr hj) (Nat.lt_succ_self _)
  refine ⟨result, c', ?_, hexhausted, hnone.trans (and_iff_right rfl)⟩
  simp only [useStar, Planning.runs_bind, Planning.runs_read]
  exact ⟨_, c, ⟨rfl, rfl⟩, hrun⟩

namespace OrdersAtShops

theorem typedOver_session : (lattice [1, 9]).TypedOver session 3 := by
  have hids : ∀ id : Nat, session.InPlan 3 id → id = 0 ∨ id = 1 ∨ id = 2 ∨ id = 3 := by
    intro id hid
    have hlt : id < 4 := hid.lt_size (by decide +kernel)
    omega
  refine ⟨fun id hid convention table i hop hposition => ?_, fun id hid algorithm condition hop => ?_,
    fun id hid condition hop m hm => ?_⟩
  · obtain rfl | rfl | rfl | rfl := hids id hid
    · cases hop
      cases hposition
      rfl
    · cases hop
      cases hposition
      rfl
    · cases hop
    · cases hop
  · obtain rfl | rfl | rfl | rfl := hids id hid
    · cases hop
    · cases hop
    · cases hop
      decide +kernel
    · cases hop
  · obtain rfl | rfl | rfl | rfl := hids id hid <;> cases hop

/-- The order is one of the item. -/
def ofItem : Expr := .apply .equals [.column 0 .bigint, .column 2 .bigint] .boolean

/-- A join of orders with items. -/
def joinOn (convention : Convention) (algorithm : JoinAlgorithm) (condition : Expr) : Planning NodeId := do
  let left ← Cluster.createDefault (.scan convention orders) []
  let right ← Cluster.createDefault (.scan convention items) []
  Cluster.createDefault (.join algorithm .inner condition) [left, right]

/-- A join of orders with items, joined with orders on a condition on the former. -/
def joinAgain : Planning NodeId := do
  let left ← joinOn .none .logical ofItem
  let right ← Cluster.createDefault (.scan .none orders) []
  let equal := .apply .equals [.column 0 .bigint, .column 1 .bigint] .boolean
  Cluster.createDefault (.join .logical .inner equal) [left, right]

def sessionOf (plan : Planning NodeId) : Cluster :=
  plan.leaves (Cluster.start ⟨[orders, items]⟩ default default)

/-- Orders lead to items. -/
def itemDraft : Draft := ⟨orders, [items], [⟨0, 1, [(0, 0)]⟩]⟩

/-- Orders with their items under a name. -/
def itemLattice (starName : List String) : Lattice := ⟨orders, [⟨items, 0, [(0, 0)]⟩], starName⟩

end OrdersAtShops

open OrdersAtShops

theorem useStar_exhausts_orders :
    ∃ result c', ((lattice [1, 9]).useStar 3).Runs session (some result) c' ∧
      (lattice [1, 9]).Exhausted c' result := by
  have hmatch : ((lattice [1, 9]).matchStar session 3).Finds (joined [beyond]) := by
    with_unfolding_all exact rfl
  obtain ⟨result, c', hrun, hexhausted, hnone⟩ :=
    useStar_exhausts (by decide +kernel) (by decide +kernel) typedOver_session
  cases result with
  | none => exact absurd hmatch (hnone.mp rfl 3 .root _)
  | some result => exact ⟨result, c', hrun, hexhausted⟩

/-- An inner semi join matches, though it has the columns of its left side only; an equality of one
operand is compared as if it had two; and a scan of the star table is taken for a table of the lattice
that it has the name of. -/
theorem useStar_fails :
    (itemDraft.build ["STAR"] = .ok (itemLattice ["STAR"]) ∧
      (sessionOf (joinOn .enumerable .semi ofItem)).WellTyped 2 ∧
      ¬∃ result c', ((itemLattice ["STAR"]).useStar 2).Runs
        (sessionOf (joinOn .enumerable .semi ofItem)) result c') ∧
    ((sessionOf (joinOn .none .logical (.apply .equals [.column 0 .bigint] .boolean))).WellTyped 2 ∧
      ¬∃ result c', ((itemLattice ["STAR"]).useStar 2).Runs
        (sessionOf (joinOn .none .logical (.apply .equals [.column 0 .bigint] .boolean))) result c') ∧
    (itemDraft.build ["ITEMS"] = .ok (itemLattice ["ITEMS"]) ∧ (sessionOf joinAgain).WellTyped 4 ∧
      ¬∃ result c', ((itemLattice ["ITEMS"]).useStar 4).Runs (sessionOf joinAgain) result c') := by
  have hfails : ∀ {x : Planning (Option NodeId)} {c : Cluster}, (x.run.run c).1.toOption = none →
      ¬∃ result c', x.Runs c result c' := by
    rintro x c h ⟨result, c', hrun⟩
    rw [show x.run.run c = _ from hrun] at h
    cases h
  refine ⟨⟨rfl, .of_all (by decide +kernel) (by decide +kernel), hfails (by decide +kernel)⟩,
    ⟨.of_all (by decide +kernel) (by decide +kernel), hfails (by decide +kernel)⟩,
    ⟨rfl, .of_all (by decide +kernel) (by decide +kernel), hfails (by decide +kernel)⟩⟩

end QueryPlan.Lattice
