import QueryPlan.Proofs.Metadata.Distinct
import QueryPlan.Proofs.Metadata.Tracing
import QueryPlan.Proofs.Execution.Proper
/-!
# Without cycles every question has an answer

Where no subset is made of itself, the number of nodes that a node is made of grows from each node to
those that read it. A method asks about nodes that its own node is made of, or, for a number of distinct
rows, about the row count of its own node, so that the questions inside one another go down. What is being
answered when a question is met is above it, so it is not that question; and as each question that is
asked is about fields that are there, none breaks off.
-/
namespace QueryPlan

open Relation Querying

/-! ## Tracing succeeds -/

section

variable {c : Cluster} {ask : Asking} {id : NodeId} {I : Memory → Prop} {blocked : Prop} {e : Expr}

theorem Querying.composition_succeeds (I : Memory → Prop) (blocked : Prop) :
    Composition fun x _ => Gives I (Succeeds blocked) x :=
  ⟨fun _ => gives_pure trivial, Gives.bind_succeeds⟩

namespace Lineage

theorem gives_ofColumns {origin : Nat → Querying Lineage}
    (h : ∀ i, Gives I (Succeeds blocked) (origin i)) :
    Gives I (Succeeds blocked) (ofColumns origin e) :=
  @related_ofColumns _ (composition_succeeds I blocked) e origin origin h

theorem gives_ofField (h : ∀ e, Gives I (Succeeds blocked) (ask.lineage id e)) (index : Nat) :
    Gives I (Succeeds blocked) (ofField c ask id index) :=
  @related_ofField _ (composition_succeeds I blocked) c ask ask id h index

end Lineage

variable (hlineage : ∀ j, c.MadeOf id j → ∀ e, Gives I (Succeeds blocked) (ask.lineage j e))
  (hrefs : ∀ j, c.MadeOf id j → Gives I (Succeeds blocked) (ask.tableRefs j))

include hlineage hrefs in
/-- Tracing through a node does not break off if tracing through what it is made of does not. -/
theorem LineageMethod.gives_answer :
    Gives I (Succeeds blocked) ((c.operator id).lineageMethod.answer c ask id e) := by
  have hfield : ∀ j ∈ c.inputs id, ∀ i, Gives I (Succeeds blocked) (Lineage.ofField c ask j i) :=
    fun j hj => Lineage.gives_ofField (hlineage j (.inl hj))
  cases hop : c.operator id with
  | values | correlate | intersect | minus => exact gives_pure trivial
  | scan => exact @related_ofScan _ (composition_succeeds I blocked) c id e
  | filter | sort | exchange | sortExchange =>
    exact gives_input (by rw [hop]; rfl) Nat.one_pos fun j hj => hlineage j (.inl hj) e
  | aggregate v group calls =>
    unfold Operator.lineageMethod answer ofAggregate
    simp only [hop, Operator.aggregate?]
    split
    · exact gives_pure trivial
    · refine gives_input (by rw [hop]; rfl) Nat.one_pos fun j hj => Lineage.gives_ofColumns fun i => ?_
      split
      · exact hfield j hj _
      · exact gives_pure trivial
  | project v projected =>
    unfold Operator.lineageMethod answer ofProjection
    simp only [hop, Operator.projection?]
    refine gives_input (by rw [hop]; rfl) Nat.one_pos fun j hj => Lineage.gives_ofColumns fun i => ?_
    split
    · exact hlineage j (.inl hj) _
    · exact gives_pure trivial
  | union =>
    exact @related_ofUnion _ (composition_succeeds I blocked) c ask ask id e
      (fun j hj => hlineage j (.inl hj)) fun j hj => hrefs j (.inl hj)
  | join algorithm joinType condition =>
    cases algorithm with
    | semi => exact gives_pure trivial
    | _ =>
      unfold Operator.lineageMethod answer ofJoin
      simp only [hop, Operator.join?]
      refine gives_input (by rw [hop]; rfl) Nat.two_pos fun left hleft => ?_
      refine gives_input (by rw [hop]; rfl) Nat.one_lt_two fun right hright => ?_
      split
      · exact gives_pure trivial
      refine (hrefs left (.inl hleft)).bind_succeeds fun leftRefs? => ?_
      cases leftRefs? with
      | none => exact gives_pure trivial
      | some leftRefs =>
      refine (hrefs right (.inl hright)).bind_succeeds fun rightRefs? => ?_
      cases rightRefs? with
      | none => exact gives_pure trivial
      | some rightRefs =>
        refine Lineage.gives_ofColumns fun i => ?_
        split
        · exact hfield left hleft _
        · exact (hfield right hright _).bind_succeeds fun _ => gives_pure trivial
  | subset =>
    unfold Operator.lineageMethod answer
    dsimp only
    split
    · next member hmember => exact hlineage member (.inr (Cluster.chosenMember?_mem hmember)) e
    · exact gives_pure trivial

include hrefs in
theorem TableRefsMethod.gives_answer :
    Gives I (Succeeds blocked) ((c.operator id).tableRefsMethod.answer c ask id) := by
  have hall : ∀ refs, Gives I (Succeeds blocked) (ofInputs ask refs (c.inputs id)) := fun refs =>
    @related_ofInputs _ (composition_succeeds I blocked) ask ask refs _ fun j hj => hrefs j (.inl hj)
  cases hop : c.operator id with
  | scan | values | correlate | intersect | minus => exact gives_pure trivial
  | aggregate | project | filter | sort | exchange | sortExchange =>
    exact gives_input (by rw [hop]; rfl) Nat.one_pos fun j hj => hrefs j (.inl hj)
  | union => exact hall []
  | join algorithm =>
    cases algorithm with
    | semi => exact gives_input (by rw [hop]; rfl) Nat.two_pos fun j hj => hrefs j (.inl hj)
    | _ => exact hall []
  | subset =>
    unfold Operator.tableRefsMethod answer
    dsimp only
    split
    · next member hmember => exact hrefs member (.inr (Cluster.chosenMember?_mem hmember))
    · exact gives_pure trivial

end

/-! ## Nodes above what they are made of -/

namespace Cluster

variable {c : Cluster} {id j : NodeId}

/-- No subset is made of itself. -/
def Acyclic (c : Cluster) : Prop :=
  ∀ s < c.size, (c.operator s).isSubset = true → ¬TransGen c.MadeOf s s

theorem Acyclic.not_madeOf_self (h : c.Acyclic) : ¬TransGen c.MadeOf id id :=
  LoopFree.not_madeOf_self (fun s _ hsubset => h s (lt_size_of_isSubset hsubset) hsubset) .refl

theorem MadeOf.right_lt_size (h : c.MadeOf id j) : j < c.size :=
  h.elim inputs_lt_size members_lt_size

theorem lt_size_of_transGen (h : TransGen c.MadeOf id j) : j < c.size := by
  cases h with
  | single h => exact h.right_lt_size
  | tail _ h => exact h.right_lt_size

/-- The number of nodes that a node is made of. -/
noncomputable def height (c : Cluster) (id : NodeId) : Nat := {j | TransGen c.MadeOf id j}.ncard

theorem finite_madeOf (c : Cluster) (id : NodeId) : {j | TransGen c.MadeOf id j}.Finite :=
  (Set.finite_lt_nat c.size).subset fun _ h => lt_size_of_transGen h

theorem height_le (c : Cluster) (id : NodeId) : c.height id ≤ c.size := by
  have hle := Set.ncard_le_ncard
    (show {j | TransGen c.MadeOf id j} ⊆ (Finset.range c.size : Set NodeId) from
      fun j h => Finset.mem_coe.mpr (Finset.mem_range.mpr (lt_size_of_transGen h)))
    (Finset.finite_toSet _)
  rwa [Set.ncard_coe_finset, Finset.card_range] at hle

theorem Acyclic.height_lt (h : c.Acyclic) (hj : c.MadeOf id j) : c.height j < c.height id :=
  Set.ncard_lt_ncard
    ⟨fun _ hk => .head hj hk, fun hsub => h.not_madeOf_self (hsub (TransGen.single hj))⟩
    (c.finite_madeOf id)

/-- The level of a question: numbers of distinct rows are above everything else that is asked of the
same node, and below everything that is asked of the nodes made of it. -/
noncomputable def level (c : Cluster) (topic : Topic) (id : NodeId) : Nat :=
  2 * c.height id + if topic = .distinct then 1 else 0

theorem Acyclic.level_lt (h : c.Acyclic) (hj : c.MadeOf id j) (topic topic' : Topic) :
    c.level topic' j < c.level topic id := by
  have hlt := h.height_lt hj
  unfold level
  split <;> split <;> omega

theorem level_lt_distinct (c : Cluster) : c.level .rowCount id < c.level .distinct id :=
  Nat.lt_succ_self _

theorem level_lt_bound (c : Cluster) (topic : Topic) (id : NodeId) :
    c.level topic id < 64 * (c.size + 1) := by
  have hle := c.height_le id
  unfold level
  split <;> omega

/-- The way that uniqueness is judged along ends before the number of nodes is used up. -/
theorem Acyclic.uniqueWithin_eq (h : c.Acyclic) {depth depth' : Nat} (hdepth : c.height id < depth)
    (hdepth' : c.height id < depth') (columns : ColumnSet) :
    c.uniqueWithin depth id columns = c.uniqueWithin depth' id columns := by
  induction depth generalizing depth' id columns with
  | zero => omega
  | succ depth ih =>
    obtain ⟨depth', rfl⟩ : ∃ d, depth' = d + 1 := ⟨depth' - 1, by omega⟩
    have hbelow : ∀ j, c.MadeOf id j → ∀ columns,
        c.uniqueWithin depth j columns = c.uniqueWithin depth' j columns := by
      intro j hj columns
      have hlt := h.height_lt hj
      exact ih (by omega) (by omega) columns
    have hinput : ∀ columns, (c.node id).inputs.head?.bind (c.uniqueWithin depth · columns) =
        (c.node id).inputs.head?.bind (c.uniqueWithin depth' · columns) := fun columns =>
      Option.bind_congr fun j hj => hbelow j (.inl (List.mem_of_mem_head? hj)) columns
    unfold uniqueWithin
    dsimp only
    split
    · rfl
    · rfl
    · rw [hinput]
    · exact Option.bind_congr fun j hj => hbelow j (.inr (chosenMember?_mem hj)) columns
    · exact hinput columns
    · exact hinput columns
    · exact hinput columns
    · exact hinput columns
    · rfl

end Cluster

namespace Operator

/-- Collations can be told of a checked operator whose calls have their operands. -/
theorem tellsCollations_of_check {o : Operator} {types : List RowType} (hcheck : o.check types = .ok ())
    (hoperands : ∀ e ∈ o.exprs, e.hasOperands = true)
    (hmerge : o.kind ≠ .enumerableMergeJoin) : o.TellsCollations := by
  cases o with
  | values v rowType tuples =>
    rw [check] at hcheck
    split at hcheck
    · cases hcheck
    · next hnone =>
      intro row hrow
      have hwidth := List.find?_eq_none.mp hnone row hrow
      simp only [decide_not, Bool.not_eq_true', decide_eq_false_iff_not, Decidable.not_not] at hwidth
      exact Nat.le_of_eq hwidth.symm
  | project v columns =>
    exact fun p hp => Expr.hasMovement_of_hasOperands (hoperands p.1 (List.mem_map_of_mem hp))
  | join algorithm joinType condition =>
    rintro rfl
    exact hmerge rfl
  | _ => trivial

end Operator

/-! ## Questions go down -/

theorem Topic.node_of_beq {topic : Topic} {key key' : topic.Key} (h : (key == key') = true) :
    topic.node key = topic.node key' := by
  cases topic with
  | rowCount | collations | tableRefs => exact eq_of_beq (α := Nat) h
  | distinct => exact (DistinctKey.of_beq h).1
  | lineage => exact eq_of_beq (Bool.and_eq_true_iff.mp h).1

/-- The question is about fields of its node. Expressions may be traced whatever they read. -/
def Topic.HasFields (c : Cluster) : (topic : Topic) → topic.Key → Prop
  | .distinct, key => c.HasFields key.node key.columns key.predicate
  | .rowCount, _ | .collations, _ | .lineage, _ | .tableRefs, _ => True

/-- Every question that is being answered is at that level or above. -/
def Memory.Above (c : Cluster) (level : Nat) (m : Memory) : Prop :=
  ∀ topic key, m.Pending topic key → level ≤ c.level topic (topic.node key)

theorem Memory.Above.mono {c : Cluster} {level level' : Nat} {m : Memory} (h : m.Above c level)
    (hle : level' ≤ level) : m.Above c level' :=
  fun topic key hpending => Nat.le_trans hle (h topic key hpending)

/-- A query whose outcome is as said where everything that is being answered is high enough leaves it
so. -/
theorem Querying.Contained.gives {c : Cluster} {level : Nat} {α : Type} {x : Querying α}
    {Q : Except QueryError α → Prop} (hx : Contained x)
    (h : ∀ m, m.Above c level → Q (x.run m).1) : Gives (Memory.Above c level) Q x :=
  fun m hm => ⟨fun topic key hpending => hm topic key (hx m topic key hpending), h m hm⟩

/-- A question below all that is being answered is not one of those, so it is answered if it can be
answered while it is itself being answered. -/
theorem Querying.memoize_succeeds {c : Cluster} {topic : Topic} {key : topic.Key}
    {x : Querying topic.Answer}
    (hx : ∀ m, m.Above c (c.level topic (topic.node key)) → Succeeds False (x.run m).1) {m : Memory}
    (hm : m.Above c (c.level topic (topic.node key) + 1)) :
    Succeeds False ((topic.shelf.memoize key (topic.node key) topic x).run m).1 := by
  unfold Shelf.memoize
  rw [ExceptT.run_mk]
  rcases hremembered : topic.shelf.remembered? key m with _ | ⟨_ | answer⟩
  · dsimp only
    have hbegun : (topic.shelf.note key .inProgress m).Above c (c.level topic (topic.node key)) := by
      intro other key' hpending
      by_cases heq : other = topic
      · subst heq
        rcases Topic.mem_note.mp hpending with hkey | hbefore
        · cases hkey
          exact Nat.le_refl _
        · exact Nat.le_of_succ_le (hm other key' hbefore.1)
      · have hbefore := hpending.of_entries (Topic.entries_note_of_ne heq)
        exact Nat.le_of_succ_le (hm other key' hbefore)
    have hcomputed := hx _ hbegun
    generalize x.run (topic.shelf.note key .inProgress m) = outcome at *
    obtain ⟨e | answer, m'⟩ := outcome
    · exact hcomputed
    · trivial
  · obtain ⟨key', hmem, heq⟩ := Entries.mem_of_lookup hremembered
    have habove := hm topic key' hmem
    rw [← Topic.node_of_beq heq] at habove
    exact absurd habove (Nat.not_succ_le_self _)
  · trivial

namespace Asking

variable {c : Cluster}

section

variable {ask : Asking} {I : Memory → Prop} {id : NodeId}

/-- Every question about fields of the node is answered. -/
def AnswersAll (c : Cluster) (I : Memory → Prop) (ask : Asking) (id : NodeId) : Prop :=
  ∀ topic key, topic.node key = id → topic.HasFields c key →
    Gives I (Succeeds False) (ask.about topic key)

variable (hmethods : c.methods = .builtin) (hbelow : ∀ j, c.MadeOf id j → AnswersAll c I ask j)

include hbelow

theorem distinct_of_madeOf {j : NodeId} (hj : c.MadeOf id j) {columns : ColumnSet} {p : Option Expr}
    (h : c.HasFields j columns p) : Gives I (Succeeds False) (ask.distinct j columns p) :=
  hbelow j hj .distinct ⟨j, columns, p⟩ rfl h

include hmethods

theorem rowCount_directly (hid : id < c.size) (hcheck : c.check id = .ok ()) :
    Gives I (Succeeds False) ((directly c ask).rowCount id) := by
  have hrowCount : ∀ j, c.MadeOf id j → Gives I (Succeeds False) (ask.rowCount j) := fun j hj =>
    hbelow j hj .rowCount j rfl trivial
  have hanswer : Gives I (Succeeds False) ((c.operator id).rowCountMethod.answer c ask id) := by
    refine RowCountMethod.gives_answer (fun group calls hop j hj => ?_) (fun j hj => hrowCount j (.inl hj))
      fun j hj => (hrowCount j (.inr hj)).imp fun r hr => hr.imp False.elim
    obtain ⟨v, hop⟩ := Operator.aggregate?_eq_some hop
    obtain ⟨input, hnode⟩ := Cluster.exists_isNode_one hid hop rfl
    refine distinct_of_madeOf hbelow (.inl hj) ⟨?_, nofun⟩
    obtain rfl := List.mem_singleton.mp (hnode.inputs_eq ▸ hj)
    exact (hnode.lt_of_aggregate hcheck).1
  rw [← Operator.rowCount_methodFor_kind, ← hmethods] at hanswer
  exact hanswer.bind_succeeds fun rows => gives_pure trivial

theorem collations_directly (htells : (c.operator id).TellsCollations) :
    Gives I (Succeeds False) ((directly c ask).collations id) := by
  have hcollations : ∀ j, c.MadeOf id j → Gives I (Succeeds False) (ask.collations j) := fun j hj =>
    hbelow j hj .collations j rfl trivial
  have hanswer : Gives I (Succeeds False) ((c.operator id).collationsMethod.answer c ask id) :=
    CollationsMethod.gives_answer (fun j hj => hcollations j (.inl hj))
      (fun j hj => hcollations j (.inr (Cluster.best_mem_members hj))) htells
      fun j hj => (hcollations j (.inr hj)).imp fun r hr => hr.imp False.elim
  rwa [← Operator.methodFor_kind, ← hmethods] at hanswer

theorem distinct_directly {columns : ColumnSet} {p : Option Expr} (hid : id < c.size)
    (hcheck : c.check id = .ok ()) (hoperands : ∀ e ∈ (c.operator id).exprs, e.hasOperands = true)
    (hfields : c.HasFields id columns p) (hrows : Gives I (Succeeds False) (ask.rowCount id)) :
    Gives I (Succeeds False) ((directly c ask).distinct id columns p) := by
  have hprojected : ∀ columns, (c.operator id).projection? = some columns →
      ∀ e ∈ columns.map Prod.fst, e.hasOperands = true := by
    intro columns hprojection
    obtain ⟨v, hop⟩ := Operator.projection?_eq_some hprojection
    rw [hop] at hoperands
    exact hoperands
  have hanswer : Gives I (Succeeds False)
      ((c.operator id).distinctMethod.answer c ask id columns p) :=
    DistinctMethod.gives_answer hid hcheck hprojected hfields hrows
      (fun j hj _ _ => distinct_of_madeOf hbelow (.inl hj))
      (fun j hj => distinct_of_madeOf hbelow (.inr (Cluster.best_mem_members hj)))
      fun j hj h => (distinct_of_madeOf hbelow (.inr hj) h).imp fun r hr => hr.imp False.elim
  rwa [← Operator.distinct_methodFor_kind, ← hmethods] at hanswer

theorem lineage_directly (e : Expr) : Gives I (Succeeds False) ((directly c ask).lineage id e) := by
  have hanswer : Gives I (Succeeds False) ((c.operator id).lineageMethod.answer c ask id e) :=
    LineageMethod.gives_answer (fun j hj e => hbelow j hj .lineage ⟨j, e⟩ rfl trivial)
      fun j hj => hbelow j hj .tableRefs j rfl trivial
  rwa [← Operator.lineage_methodFor_kind, ← hmethods] at hanswer

theorem tableRefs_directly : Gives I (Succeeds False) ((directly c ask).tableRefs id) := by
  have hanswer : Gives I (Succeeds False) ((c.operator id).tableRefsMethod.answer c ask id) :=
    TableRefsMethod.gives_answer fun j hj => hbelow j hj .tableRefs j rfl trivial
  rwa [← Operator.tableRefs_methodFor_kind, ← hmethods] at hanswer

end

/-- Questions that are asked while only higher ones are being answered have an answer, as long as there
are as many questions left as their level is high. -/
theorem within_succeeds (hmethods : c.methods = .builtin) (hvalid : ∀ id < c.size, c.check id = .ok ())
    (hacyclic : c.Acyclic) (hoperands : ∀ id < c.size, ∀ e ∈ (c.operator id).exprs, e.hasOperands = true)
    (hmerge : ∀ id < c.size, c.kind id ≠ .enumerableMergeJoin)
    {depth : Nat} {topic : Topic} {key : topic.Key} (hdepth : c.level topic (topic.node key) < depth)
    (hid : topic.node key < c.size) (hfields : topic.HasFields c key) {m : Memory}
    (hm : m.Above c (c.level topic (topic.node key) + 1)) :
    Succeeds False (((within c depth).about topic key).run m).1 := by
  induction depth generalizing topic m with
  | zero => exact absurd hdepth (Nat.not_lt_zero _)
  | succ depth ih =>
    have hlower : ∀ (other : Topic) (key' : other.Key), other.node key' < c.size →
        other.HasFields c key' → c.level other (other.node key') < c.level topic (topic.node key) →
        Gives (Memory.Above c (c.level topic (topic.node key))) (Succeeds False)
          ((within c depth).about other key') := fun other key' hid' hfields' hlt =>
      (within_contained c depth other key').gives fun m hm =>
        ih (by omega) hid' hfields' (hm.mono hlt)
    have hbelow : ∀ j, c.MadeOf (topic.node key) j →
        AnswersAll c (Memory.Above c (c.level topic (topic.node key))) (within c depth) j := by
      rintro j hj other key' rfl hfields'
      exact hlower other key' hj.right_lt_size hfields' (hacyclic.level_lt hj topic other)
    rw [within, through_about]
    refine memoize_succeeds (fun m hm => ?_) hm
    refine (?_ : Gives (Memory.Above c (c.level topic (topic.node key))) (Succeeds False)
      ((directly c (within c depth)).about topic key)) m hm |>.2
    cases topic with
    | rowCount => exact rowCount_directly hmethods hbelow hid (hvalid _ hid)
    | collations =>
      exact collations_directly hmethods hbelow (Operator.tellsCollations_of_check
        (Outcome.mapError_eq_ok.mp (hvalid _ hid)) (hoperands _ hid) (hmerge _ hid))
    | distinct =>
      refine distinct_directly hmethods hbelow hid (hvalid _ hid) (hoperands _ hid) hfields ?_
      exact hlower .rowCount _ hid trivial c.level_lt_distinct
    | lineage => exact lineage_directly hmethods hbelow _
    | tableRefs => exact tableRefs_directly hmethods hbelow

theorem above_memoryOf (c : Cluster) (asked : List ((topic : Topic) × topic.Key)) (level : Nat) :
    ((of c).memoryOf asked).Above c level :=
  fun topic key hpending => absurd hpending (not_pending_after c asked topic key)

/-- Where no subset is made of itself, nodes pass their checks, calls have their operands and joins do not
merge, every question about fields of a node has an answer, whatever was asked before: none needs its
own answer, and none breaks off. Judging whether columns are unique on the way is not cut short by the
bound on its length either. -/
theorem every_question_answered (c : Cluster) (hmethods : c.methods = .builtin)
    (hvalid : ∀ id < c.size, c.check id = .ok ())
    (hacyclic : ∀ s < c.size, (c.operator s).isSubset = true → ¬TransGen c.MadeOf s s)
    (hoperands : ∀ id < c.size, ∀ e ∈ (c.operator id).exprs, e.hasOperands = true)
    (hmerge : ∀ id < c.size, c.kind id ≠ .enumerableMergeJoin) :
    (∀ (asked : List ((topic : Topic) × topic.Key)) (topic : Topic) (key : topic.Key),
      topic.node key < c.size → topic.HasFields c key →
      ∃ answer, (((of c).about topic key).run ((of c).memoryOf asked)).1 = .ok answer) ∧
    ∀ depth > c.size, ∀ id columns, c.uniqueWithin depth id columns = c.areUnique id columns := by
  have hacyclic : c.Acyclic := hacyclic
  refine ⟨fun asked topic key hid hfields => ?_, fun depth hdepth id columns => ?_⟩
  · have hsucceeds := within_succeeds hmethods hvalid hacyclic hoperands hmerge
      (c.level_lt_bound topic (topic.node key)) hid hfields (above_memoryOf c asked _)
    cases hanswer : (((of c).about topic key).run ((of c).memoryOf asked)).1 with
    | ok answer => exact ⟨answer, rfl⟩
    | error e =>
      rw [show within c (64 * (c.size + 1)) = of c from rfl, hanswer] at hsucceeds
      cases e <;> cases hsucceeds
  · have hle := c.height_le id
    exact hacyclic.uniqueWithin_eq (by omega) (by omega) columns

/-! ## A plan whose questions ask all others -/

/-- Amounts sold by region. -/
def regionSales : Table :=
  { name := ["SALES"], rowType := ⟨[⟨"region", .bigint, true⟩, ⟨"amount", .bigint, true⟩]⟩,
    source := some (.ok [[.integer 1, .integer 20], [.integer 1, .integer 30]]) }

/-- The different sums of two amounts of one region, the second of which is looked up in the table or
among the large ones. -/
def regionSums : Planning NodeId := do
  let scan ← Cluster.createDefault (.scan .enumerable regionSales) []
  let large ← Cluster.createDefault (.filter .enumerable
    (.call .greaterThan [.column 1 .bigint, .literal (.integer 25)])) [scan]
  let place ← Cluster.createSubset regionSales.rowType (.ofConvention .enumerable)
  Cluster.addMember place scan
  Cluster.addMember place large
  let pairs ← Cluster.createDefault (.join .hash .inner
    (.call .equals [.column 0 .bigint, .column 2 .bigint])) [scan, place]
  let sums ← Cluster.createDefault (.project .enumerable
    [(.column 0 .bigint, "region"), (.call .plus [.column 1 .bigint, .column 3 .bigint], "sum")]) [pairs]
  Cluster.createDefault (.aggregate .enumerable (.ofList [0, 1]) [⟨.count, [], "n"⟩]) [sums]

def regionSession : Cluster :=
  (regionSums.run.run (Cluster.start ⟨[regionSales]⟩ default default)).2

/-- How many different sums there are is asked for after a question about a column that is not there and
one that is answered. -/
theorem every_question_answered_sums :
    regionSession.size = 6 ∧
    ∃ rows, (((of regionSession).about .rowCount (5 : Nat)).run ((of regionSession).memoryOf
      [⟨.distinct, ⟨4, .ofList [7], none⟩⟩, ⟨.lineage, ⟨5, .column 1 .bigint⟩⟩])).1 = .ok rows := by
  have hchecked : ∀ id < regionSession.size, (regionSession.check id).toOption = some () := by
    decide +kernel
  refine ⟨by decide +kernel, (every_question_answered regionSession rfl
    (fun id hid => Outcome.toOption_eq_some.mp (hchecked id hid)) (fun s _ hsubset => ?_)
    (by decide +kernel) (by decide +kernel)).1 _ .rowCount (5 : Nat) (by decide +kernel) trivial⟩
  exact Cluster.loopFree_of_members_lt (by decide +kernel) s s .refl hsubset

end Asking

end QueryPlan
