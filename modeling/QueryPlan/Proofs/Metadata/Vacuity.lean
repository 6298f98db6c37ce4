import QueryPlan.Proofs.Metadata.Tracing
import QueryPlan.Proofs.Expr.Alike
/-!
# Lineages without an expression

A known lineage has an expression, except where a projection computes TRUE. What an expression becomes with
its columns replaced is split into conjuncts, and TRUE has none. A lineage is empty exactly if it is passed
on from a projection through which an expression vanishes in this way.
-/
namespace QueryPlan

namespace OrderedSet

variable {α : Type} [Ord α] {xs : List α}

theorem ofList_eq_nil : ofList xs = [] ↔ xs = [] := by
  have hreplace : ∀ (x : α) (ys : List α), replace x ys ≠ [] := by
    intro x ys
    cases ys with
    | nil => exact List.cons_ne_nil _ _
    | cons y ys =>
      unfold replace
      split <;> exact List.cons_ne_nil _ _
  cases xs with
  | nil => exact Iff.rfl
  | cons x xs => exact ⟨fun h => absurd h (hreplace x _), fun h => absurd h (List.cons_ne_nil _ _)⟩

end OrderedSet

/-! ## Expressions without conjuncts -/

namespace Expr

/-- Whether the expression has no conjuncts: it is TRUE or a conjunction of such expressions. -/
def isVacuous (e : Expr) : Bool := e.conjuncts.isEmpty

theorem isVacuous_iff {e : Expr} : e.isVacuous = true ↔ e.conjuncts = [] := List.isEmpty_iff

theorem isVacuous_and (es : List Expr) (t : DataType) :
    (apply .and es t).isVacuous = es.all isVacuous := by
  rw [Bool.eq_iff_iff, isVacuous_iff, conjuncts_apply_and, List.flatMap_eq_nil_iff, List.all_eq_true]
  exact forall₂_congr fun e _ => isVacuous_iff.symm

/-- Conjunctions are vacuous alike if their operands are. -/
theorem isVacuous_and_map {f g : Expr → Expr} {es : List Expr}
    (h : ∀ e ∈ es, (f e).isVacuous = (g e).isVacuous) (t : DataType) :
    (apply .and (es.map f) t).isVacuous = (apply .and (es.map g) t).isVacuous := by
  rw [isVacuous_and, isVacuous_and, List.all_map, List.all_map, Bool.eq_iff_iff, List.all_eq_true,
    List.all_eq_true]
  exact forall₂_congr fun e he => by rw [Function.comp_apply, Function.comp_apply, h e he]

theorem isVacuous_of_not_and {e : Expr} (h : ∀ es t, e ≠ apply .and es t) :
    e.isVacuous = e.isAlwaysTrue := by
  rw [isVacuous, conjuncts_of_not_and h]
  cases e.isAlwaysTrue <;> rfl

theorem isVacuous_of_mem_conjuncts {e k : Expr} (h : k ∈ e.conjuncts) : k.isVacuous = false := by
  rw [isVacuous, conjuncts_of_mem_conjuncts h]
  rfl

/-- An expression that reads a column is not vacuous. -/
theorem columnList_eq_nil_of_isVacuous {e : Expr} (h : e.isVacuous = true) : e.columnList = [] := by
  induction e using induct_and with
  | and es t ih =>
    rw [isVacuous_and, List.all_eq_true] at h
    rw [columnList, columnListOf_eq, List.flatMap_eq_nil_iff]
    exact fun e he => ih e he (h e he)
  | other e hother =>
    rw [isVacuous_of_not_and hother] at h
    cases e with
    | literal v => rfl
    | _ => cases h

/-- Of all calls only conjunctions may be vacuous. -/
theorem isVacuous_call {op : Op} (hop : op ≠ .and) (es : List Expr) (t : DataType) :
    (apply op es t).isVacuous = false :=
  isVacuous_of_not_and fun _ _ h => hop (by cases h; rfl)

theorem Alike.isVacuous {e e' : Expr} (h : Alike e e') : e.isVacuous = e'.isVacuous := by
  have hconjuncts := h.conjuncts
  unfold Expr.isVacuous
  generalize e.conjuncts = ks at hconjuncts ⊢
  generalize e'.conjuncts = ks' at hconjuncts ⊢
  cases hconjuncts with
  | nil => rfl
  | cons _ _ => rfl

theorem isVacuous_mapTables (f : TableRef → TableRef) (e : Expr) :
    (e.mapTables f).isVacuous = e.isVacuous := by
  induction e using induct with
  | apply op es t ih =>
    rw [mapTables, mapTablesEach_eq]
    by_cases hop : op = .and
    · subst hop
      nth_rewrite 2 [← List.map_id es]
      exact isVacuous_and_map ih t
    · rw [isVacuous_call hop, isVacuous_call hop]
  | _ => rfl

/-- Whether an expression is vacuous after its columns are replaced depends on nothing but whether the
replacements are. -/
theorem isVacuous_substitute_congr {f g : Nat → Option Expr} {e : Expr}
    (h : ∀ i ∈ e.columnList, (f i).any isVacuous = (g i).any isVacuous) :
    (e.substitute f).isVacuous = (e.substitute g).isVacuous := by
  have hcolumn : ∀ (o : Option Expr) i t, (o.getD (column i t)).isVacuous = o.any isVacuous := by
    intro o i t
    cases o <;> rfl
  unfold substitute
  induction e using induct with
  | column i t =>
    rw [mapColumns, mapColumns, hcolumn, hcolumn]
    exact h i (by simp [columnList])
  | apply op es t ih =>
    rw [mapColumns, mapColumns, mapColumnsEach_eq, mapColumnsEach_eq]
    by_cases hop : op = .and
    · subst hop
      refine isVacuous_and_map (fun e he => ih e he fun i hi => h i ?_) t
      rw [columnList, columnListOf_eq]
      exact List.mem_flatMap.mpr ⟨e, he, hi⟩
    · rw [isVacuous_call hop, isVacuous_call hop]
  | _ => rfl

/-- A column without a replacement stays. -/
theorem substitute_none (e : Expr) : (e.substitute fun _ => none) = e := mapColumns_column e

/-- Let the origins of a column be vacuous exactly if its replacement is. Then a lineage is empty exactly
if the expression reads columns and is vacuous with these replaced, and all that it has is vacuous as the
expression is. -/
theorem lineageOver_spec {origins : Nat → Lineage} {g : Nat → Option Expr} {e : Expr} {es : List Expr}
    (horigins : ∀ i found, origins i = some found → ∀ a ∈ found, a.isVacuous = (g i).any isVacuous)
    (h : e.lineageOver origins = some es) :
    (es = [] ↔ e.columnList ≠ [] ∧ (e.substitute g).isVacuous = true) ∧
      ∀ a ∈ es, a.isVacuous = e.isVacuous := by
  rcases lineageOver_cases h with ⟨hnone, rfl⟩ | ⟨hsome, picks, hpicks, hpick, rfl⟩
  · refine ⟨⟨fun hnil => absurd hnil (List.cons_ne_nil _ _), fun hreads => absurd hnone hreads.1⟩, ?_⟩
    exact List.forall_mem_singleton.mpr rfl
  · have halike : ∀ pick ∈ picks,
        (e.substitute fun i => pick.lookup i).isVacuous = (e.substitute g).isVacuous := by
      refine fun pick hmem => isVacuous_substitute_congr fun i hi => ?_
      obtain ⟨a, found, ha, hfound, hafound⟩ := hpick pick hmem i hi
      rw [ha]
      exact horigins i found hfound a hafound
    refine ⟨?_, fun a ha => ?_⟩
    · rw [OrderedSet.ofList_eq_nil, List.flatMap_eq_nil_iff]
      constructor
      · intro hnil
        obtain ⟨pick, hmem⟩ := List.exists_mem_of_ne_nil picks hpicks
        exact ⟨hsome, (halike pick hmem).symm.trans (isVacuous_iff.mpr (hnil pick hmem))⟩
      · rintro ⟨-, hvacuous⟩ pick hmem
        exact isVacuous_iff.mp ((halike pick hmem).trans hvacuous)
    -- Conjuncts are never vacuous, nor is an expression that reads columns.
    · obtain ⟨pick, -, hconjunct⟩ := List.mem_flatMap.mp (OrderedSet.mem_of_mem_ofList ha)
      rw [isVacuous_of_mem_conjuncts hconjunct]
      cases hvacuous : e.isVacuous with
      | false => rfl
      | true => exact absurd (columnList_eq_nil_of_isVacuous hvacuous) hsome

end Expr

/-! ## What lineages over a node are like -/

namespace Cluster

variable (c : Cluster)

/-- The expression is passed on from a projection after which nothing is left of it. -/
inductive Vanishes : NodeId → Expr → Prop
  | project {id : NodeId} {e : Expr} {columns : List (Expr × String)}
      (hmethod : c.methods.lineage.methodFor (c.kind id) = .project)
      (hop : (c.operator id).projection? = some columns) (hreads : e.columnList ≠ [])
      (hvacuous : (e.substitute fun i => columns[i]?.map Prod.fst).isVacuous = true) : Vanishes id e
  | firstInput {id input : NodeId} {e : Expr}
      (hmethod : c.methods.lineage.methodFor (c.kind id) = .firstInput)
      (hinput : c.input? id 0 = some input) (h : Vanishes input e) : Vanishes id e
  | member {id m : NodeId} {e : Expr} (hmethod : c.methods.lineage.methodFor (c.kind id) = .subset)
      (hchosen : (c.node id).chosenMember? = some m) (h : Vanishes m e) : Vanishes id e

variable {c} {id : NodeId} {e e' : Expr}

/-- Whether an expression vanishes depends on the columns it reads and on what replacing them leaves. -/
theorem Vanishes.of_substitute (h : c.Vanishes id e) (hcolumns : e.columnList = e'.columnList)
    (hvacuous : ∀ g, (e.substitute g).isVacuous = (e'.substitute g).isVacuous) : c.Vanishes id e' := by
  induction h with
  | project hmethod hop hreads hleft =>
    exact .project hmethod hop (hcolumns ▸ hreads) ((hvacuous _).symm.trans hleft)
  | firstInput hmethod hinput _ ih => exact .firstInput hmethod hinput (ih hcolumns hvacuous)
  | member hmethod hchosen _ ih => exact .member hmethod hchosen (ih hcolumns hvacuous)

/-- Expressions that compare as equal vanish alike. -/
theorem vanishes_congr (h : e.Alike e') : c.Vanishes id e ↔ c.Vanishes id e' := by
  have hvacuous : ∀ g, (e.substitute g).isVacuous = (e'.substitute g).isVacuous := fun g =>
    (h.mapColumns _).isVacuous
  exact ⟨fun hv => hv.of_substitute h.columnList hvacuous,
    fun hv => hv.of_substitute h.columnList.symm fun g => (hvacuous g).symm⟩

variable (c) in
/-- The lineage, if it is known, is empty exactly if the expression vanishes, and what it has is vacuous
exactly if the expression is. -/
def Accounts (id : NodeId) (e : Expr) (found : Lineage) : Prop :=
  ∀ es, found = some es → (es = [] ↔ c.Vanishes id e) ∧ ∀ a ∈ es, a.isVacuous = e.isVacuous

theorem Accounts.of_alike {found : Lineage} (h : c.Accounts id e' found) (halike : e.Alike e') :
    c.Accounts id e found := by
  intro es hes
  rw [vanishes_congr halike, halike.isVacuous]
  exact h es hes

/-- Nothing vanishes over a node that neither projects nor passes on. -/
theorem not_vanishes {m : LineageMethod} (hmethod : c.methods.lineage.methodFor (c.kind id) = m)
    (hm : m ≠ .project ∧ m ≠ .firstInput ∧ m ≠ .subset) : ¬c.Vanishes id e := by
  subst hmethod
  rintro (⟨hproject, -⟩ | ⟨hfirst, -⟩ | ⟨hsubset, -⟩)
  · exact hm.1 hproject
  · exact hm.2.1 hfirst
  · exact hm.2.2 hsubset

theorem vanishes_project {columns : List (Expr × String)}
    (hmethod : c.methods.lineage.methodFor (c.kind id) = .project)
    (hop : (c.operator id).projection? = some columns) :
    c.Vanishes id e ↔ e.columnList ≠ [] ∧
      (e.substitute fun i => columns[i]?.map Prod.fst).isVacuous = true := by
  refine ⟨fun h => ?_, fun h => .project hmethod hop h.1 h.2⟩
  cases h with
  | project _ hop' hreads hvacuous =>
    cases hop.symm.trans hop'
    exact ⟨hreads, hvacuous⟩
  | firstInput hmethod' => cases hmethod.symm.trans hmethod'
  | member hmethod' => cases hmethod.symm.trans hmethod'

theorem vanishes_firstInput {input : NodeId}
    (hmethod : c.methods.lineage.methodFor (c.kind id) = .firstInput)
    (hinput : c.input? id 0 = some input) : c.Vanishes id e ↔ c.Vanishes input e := by
  refine ⟨fun h => ?_, .firstInput hmethod hinput⟩
  cases h with
  | firstInput _ hinput' h =>
    cases hinput.symm.trans hinput'
    exact h
  | project hmethod' => cases hmethod.symm.trans hmethod'
  | member hmethod' => cases hmethod.symm.trans hmethod'

theorem vanishes_member {m : NodeId} (hmethod : c.methods.lineage.methodFor (c.kind id) = .subset)
    (hchosen : (c.node id).chosenMember? = some m) : c.Vanishes id e ↔ c.Vanishes m e := by
  refine ⟨fun h => ?_, .member hmethod hchosen⟩
  cases h with
  | member _ hchosen' h =>
    cases hchosen.symm.trans hchosen'
    exact h
  | project hmethod' => cases hmethod.symm.trans hmethod'
  | firstInput hmethod' => cases hmethod.symm.trans hmethod'

/-- Origins that are vacuous as the replacements are account for what vanishes through these. -/
theorem accounts_over {g : Nat → Option Expr} {found : Lineage}
    (hvanishes : c.Vanishes id e ↔ e.columnList ≠ [] ∧ (e.substitute g).isVacuous = true)
    (h : Lineage.Over (fun i a => a.isVacuous = (g i).any Expr.isVacuous) e found) :
    c.Accounts id e found := by
  intro es hes
  obtain ⟨origins, horigins, hover⟩ := h es hes
  rw [hvanishes]
  exact Expr.lineageOver_spec horigins hover

/-- Nothing is left out of a lineage over origins that are not vacuous. -/
theorem accounts_kept {found : Lineage} (hvanishes : ¬c.Vanishes id e)
    (h : Lineage.Over (fun _ a => a.isVacuous = false) e found) : c.Accounts id e found := by
  refine accounts_over (g := fun _ => none) (iff_of_false hvanishes ?_) h
  rintro ⟨hreads, hvacuous⟩
  rw [Expr.substitute_none] at hvacuous
  exact hreads (Expr.columnList_eq_nil_of_isVacuous hvacuous)

end Cluster

/-! ## One step of tracing, and every one -/

namespace LineageMethod

open Querying Lineage

variable {c : Cluster} {I : Memory → Prop} {ask : Asking} {id : NodeId} {e : Expr}

/-- Columns of a scan are traced to columns of its table. -/
theorem tells_ofScan_kept : Tells I (Over (fun _ a => a.isVacuous = false) e) (ofScan c id e) := by
  unfold ofScan
  split
  · exact tells_pure nofun
  · refine tells_ofColumns e fun i => tells_pure fun es hes a ha => ?_
    obtain ⟨field, -, rfl⟩ := Option.map_eq_some_iff.mp hes
    rw [List.mem_singleton.mp ha]
    rfl

variable (hask : ∀ j e, Tells I (c.Accounts j e) (ask.lineage j e))

include hask

/-- The lineage of a field has nothing vacuous. -/
theorem tells_field_kept (j : NodeId) (i : Nat) :
    Tells I (Each fun a => a.isVacuous = false) (ofField c ask j i) := by
  unfold ofField Expr.field?
  cases (c.rowType j).fields[i]? with
  | none => exact tells_pure nofun
  | some field => exact (hask j (.column i field.dataType)).imp fun found h es hes => (h es hes).2

/-- No origin of a group column is vacuous. -/
theorem tells_ofAggregate_kept :
    Tells I (Over (fun _ a => a.isVacuous = false) e) (ofAggregate c ask id e) := by
  unfold ofAggregate
  split
  · exact tells_pure nofun
  dsimp only
  split
  · exact tells_pure nofun
  refine tells_input fun j _ => tells_ofColumns e fun i => ?_
  split
  · exact tells_field_kept hask j _
  · exact tells_pure nofun

/-- No origin of a column of a join is vacuous. -/
theorem tells_ofJoin_kept (hrefs : ∀ j, Tells I (fun _ => True) (ask.tableRefs j)) :
    Tells I (Over (fun _ a => a.isVacuous = false) e) (ofJoin c ask id e) := by
  unfold ofJoin
  split
  · exact tells_pure nofun
  refine tells_input fun left _ => tells_input fun right _ => ?_
  dsimp only
  split
  · exact tells_pure nofun
  refine (hrefs left).bind fun leftRefs? _ => ?_
  cases leftRefs? with
  | none => exact tells_pure nofun
  | some leftRefs =>
  refine (hrefs right).bind fun rightRefs? _ => ?_
  cases rightRefs? with
  | none => exact tells_pure nofun
  | some rightRefs =>
    refine tells_ofColumns e fun i => ?_
    split
    · exact tells_field_kept hask left i
    · refine (tells_field_kept hask right _).bind fun found hfound => tells_pure fun es hes a ha => ?_
      obtain ⟨es₀, rfl, rfl⟩ := Option.map_eq_some_iff.mp hes
      obtain ⟨a₀, ha₀, rfl⟩ := List.mem_map.mp (OrderedSet.mem_of_mem_latestOf ha)
      rw [Expr.isVacuous_mapTables]
      exact hfound es₀ rfl a₀ ha₀

/-- No origin of a column of a union is vacuous. -/
theorem tells_ofUnion_kept (hrefs : ∀ j, Tells I (fun _ => True) (ask.tableRefs j)) :
    Tells I (Over (fun _ a => a.isVacuous = false) e) (ofUnion c ask id e) := by
  have hunion : Tells I
      (Over (c.UnionOrigin (fun _ e a => a.isVacuous = e.isVacuous) (fun _ _ => True) id) e)
      (ofUnion c ask id e) :=
    tells_ofUnion (K := fun _ => True) (fun j => (hrefs j).imp fun _ _ _ _ => trivial)
      (fun _ _ => trivial) fun j e _ => (hask j e).imp fun found h es hes => (h es hes).2
  refine hunion.imp fun found h es hes => ?_
  obtain ⟨origins, horigins, hover⟩ := h es hes
  refine ⟨origins, fun i as has a ha => ?_, hover⟩
  obtain ⟨-, -, -, -, -, a₀, -, -, -, ⟨field, -, hfield⟩, rfl⟩ := horigins i as has a ha
  rw [Expr.isVacuous_mapTables]
  exact hfield

/-- One method accounts for what vanishes if the answers it asks for do. -/
theorem tells_accounts (hrefs : ∀ j, Tells I (fun _ => True) (ask.tableRefs j)) {m : LineageMethod}
    (hmethod : c.methods.lineage.methodFor (c.kind id) = m) :
    Tells I (c.Accounts id e) (m.answer c ask id e) := by
  cases m with
  | unknown => exact tells_pure nofun
  | tableScan =>
    exact tells_ofScan_kept.imp fun found =>
      Cluster.accounts_kept (Cluster.not_vanishes hmethod ⟨nofun, nofun, nofun⟩)
  | aggregate =>
    exact (tells_ofAggregate_kept hask).imp fun found =>
      Cluster.accounts_kept (Cluster.not_vanishes hmethod ⟨nofun, nofun, nofun⟩)
  | join =>
    exact (tells_ofJoin_kept hask hrefs).imp fun found =>
      Cluster.accounts_kept (Cluster.not_vanishes hmethod ⟨nofun, nofun, nofun⟩)
  | union =>
    exact (tells_ofUnion_kept hask hrefs).imp fun found =>
      Cluster.accounts_kept (Cluster.not_vanishes hmethod ⟨nofun, nofun, nofun⟩)
  | project =>
    show Tells _ _ (ofProjection c ask id e)
    unfold ofProjection
    split
    · exact tells_pure nofun
    · next columns hop =>
      refine tells_input fun j _ => (tells_ofColumns e fun i => ?_).imp
        fun found => Cluster.accounts_over (Cluster.vanishes_project hmethod hop)
      split
      · next expr name hcolumn =>
        rw [hcolumn]
        exact (hask j expr).imp fun found h es hes => (h es hes).2
      · exact tells_pure nofun
  | firstInput =>
    refine tells_input fun j hj => (hask j e).imp fun found h es hes => ?_
    rw [Cluster.vanishes_firstInput hmethod hj]
    exact h es hes
  | subset =>
    unfold answer
    dsimp only
    split
    · next m hchosen =>
      refine (hask m e).imp fun found h es hes => ?_
      rw [Cluster.vanishes_member hmethod hchosen]
      exact h es hes
    · exact tells_pure nofun
  | again => exact hask id e

end LineageMethod

namespace Asking

open Querying

variable {c : Cluster}

variable (c) in
/-- Lineages account for what vanishes. Nothing is said of other answers. -/
def AccountsFor : (topic : Topic) → topic.Key → topic.Answer → Prop
  | .lineage, key, found => c.Accounts key.node key.expr found
  | .rowCount, _, _ | .collations, _, _ | .distinct, _, _ | .tableRefs, _, _ => True

theorem within_accounts (depth : Nat) (topic : Topic) (key : topic.Key) :
    Tells (Memory.Remembers (AccountsFor c)) (AccountsFor c topic key)
      ((within c depth).about topic key) := by
  induction depth generalizing topic key with
  | zero =>
    rw [within, exhausted_about]
    exact tells_throw _
  | succ depth ih =>
    rw [within, through_about]
    have hdirect := about_directly (c := c) (congruence_tells _)
      (fun topic key => (ih topic key).imp fun _ _ => trivial) topic key
    cases topic with
    | lineage =>
      refine tells_memoize (fun key' found heq h => ?_) ?_
      · obtain ⟨hnode, hexpr⟩ := Bool.and_eq_true_iff.mp heq
        rw [beq_iff_eq] at hnode
        exact Cluster.Accounts.of_alike (hnode ▸ h) (Expr.alike_of_beq hexpr)
      · exact LineageMethod.tells_accounts (fun j e => ih .lineage ⟨j, e⟩)
          (fun j => (ih .tableRefs j).imp fun _ _ => trivial) rfl
    | _ => exact tells_memoize (fun _ _ _ _ => trivial) (hdirect.imp fun _ _ => trivial)

/-- A known lineage is empty exactly if nothing is left of the expression after a projection that it is
passed on from, whatever was asked before. -/
theorem lineage_eq_nil_iff (asked : List ((topic : Topic) × topic.Key)) {id : NodeId} {e : Expr}
    {es : List Expr}
    (h : (((of c).lineage id e).run ((of c).memoryOf asked)).1 = .ok (some es)) :
    es = [] ↔ c.Vanishes id e := by
  have haccounts : Answering (AccountsFor c .lineage ⟨id, e⟩)
      (((of c).about .lineage ⟨id, e⟩).run ((of c).memoryOf asked)).1 :=
    answering_after (fun call _ => within_accounts _ call.1 call.2) (within_accounts _ _ _)
  rw [show (((of c).about .lineage ⟨id, e⟩).run _).1 = .ok (some es) from h] at haccounts
  exact (haccounts es rfl).1

/-- Who is a member, and who is active. -/
def members : Table :=
  { name := ["MEMBERS"], rowType := ⟨[⟨"active", .boolean, true⟩]⟩
    source := some (.ok [[.boolean true]]) }

/-- That members are listed, and whether they are active. -/
def listedPlans : Planning NodeId := do
  let scan ← Cluster.createDefault (.scan .none members) []
  Cluster.createDefault (.project .none
    [(.literal (.boolean true), "listed"), (.column 0 .boolean, "active")]) [scan]

def listedSession : Cluster := (listedPlans.run.run (Cluster.start ⟨[members]⟩ default default)).2

/-- That a member is listed and active. -/
def listedAndActive : Expr := .call .and [.column 0 .boolean, .column 1 .boolean]

/-- Being listed and active is traced to being active, also after the question about being listed, which
nothing is left of. -/
theorem lineage_eq_nil_iff_listed :
    (((of listedSession).lineage 1 listedAndActive).run
      ((of listedSession).memoryOf [⟨.lineage, ⟨1, .column 0 .boolean⟩⟩])).1 =
        .ok (some [.tableColumn ⟨["MEMBERS"], 0⟩ 0 .boolean]) ∧
    ¬listedSession.Vanishes 1 listedAndActive := by
  have hlineage : (((of listedSession).lineage 1 listedAndActive).run
      ((of listedSession).memoryOf [⟨.lineage, ⟨1, .column 0 .boolean⟩⟩])).1 =
        .ok (some [.tableColumn ⟨["MEMBERS"], 0⟩ 0 .boolean]) := by rfl
  exact ⟨hlineage, fun hv => List.cons_ne_nil _ _ ((lineage_eq_nil_iff _ hlineage).mpr hv)⟩

/-- TRUE is its own lineage over the scan, but the column of the projection that returns it has an empty
one, though the plan passes its checks. -/
theorem lineage_of_true_empty :
    listedSession.methods = .builtin ∧ (∀ id < 2, (listedSession.check id).isOk = true) ∧
    (((of listedSession).lineage 0 (.literal (.boolean true))).run {}).1 =
      .ok (some [.literal (.boolean true)]) ∧
    (((of listedSession).lineage 1 (.column 0 .boolean)).run {}).1 = .ok (some []) :=
  ⟨rfl, by decide +kernel, rfl, rfl⟩

end Asking

end QueryPlan
