import QueryPlan.Proofs.Execution.Proper
import QueryPlan.Proofs.Metadata.Collations
import QueryPlan.Proofs.Metadata.History
/-!
# Collations of plans

The collations that are reported of a plan without merge joins and without computed columns are
orders of its rows. A node's collations are those of its first input, its own or found in its rows,
and its operator keeps them. So they are orders by induction on the number of questions inside one
another, for a query without a memory; and a query with one answers alike about plans whose subsets
do not reach themselves.
-/
namespace QueryPlan

open Relation Execution

/-! ## Operators that are told to keep orders -/

namespace Operator

/-- The method that collations of an operator's nodes are found by. -/
def collationsMethod : Operator → CollationsMethod
  | scan _ _ => .tableScan
  | values _ _ _ => .values
  | filter _ _ | exchange _ | join .semi _ _ | correlate _ _ _ _ => .firstInput
  | project _ _ => .project
  | join .merge _ _ => .mergeJoin
  | join .hash _ _ | join .nestedLoop _ _ => .orderedLeft
  | sort _ _ _ _ => .sort
  | sortExchange _ _ => .sortExchange
  | subset _ => .subset
  | join .logical _ _ | aggregate _ _ _ | union _ _ | intersect _ | minus _ => .unknown

theorem methodFor_kind (o : Operator) :
    Methods.builtin.collations.methodFor o.kind = o.collationsMethod := by
  cases o with
  | join algorithm _ _ => cases algorithm <;> rfl
  | scan v _ | values v _ _ | filter v _ | project v _ | correlate v _ _ _ | aggregate v _ _
  | sort v _ _ _ | union v _ => cases v <;> rfl
  | _ => rfl

/-- What it takes to tell the orders of an operator's rows, whose first input has the given rows.
Stored rows follow the orders declared of the table, which are over its columns. A projection has no
calls, and a join does not merge. The values of a column that is sorted, or by which literal rows are
found to be sorted, are ordered, which they are if no integers and doubles are mixed. -/
def TellsOrders (rows : List Row) : Operator → Prop
  | scan _ table => Collation.AllOrder table.collations table.rowType.arity
      (table.scan.toOption.getD [])
  | values _ rowType tuples =>
    ∀ k ∈ (Collation.ofRows? rowType.arity tuples).getD [], k.OnOrdered tuples
  | project _ columns => ∀ p ∈ columns, p.1.op? = none
  | join algorithm _ _ => algorithm ≠ .merge
  | sort _ collation _ _ | sortExchange _ collation => collation.OnOrdered rows
  | _ => True

instance (rows : List Row) (o : Operator) : Decidable (o.TellsOrders rows) :=
  match o with
  | scan _ table => inferInstanceAs (Decidable (Collation.AllOrder table.collations
      table.rowType.arity (table.scan.toOption.getD [])))
  | values _ rowType tuples => inferInstanceAs (Decidable
      (∀ k ∈ (Collation.ofRows? rowType.arity tuples).getD [], k.OnOrdered tuples))
  | project _ columns => inferInstanceAs (Decidable (∀ p ∈ columns, p.1.op? = none))
  | join algorithm _ _ => inferInstanceAs (Decidable (algorithm ≠ .merge))
  | sort _ collation _ _ | sortExchange _ collation =>
    inferInstanceAs (Decidable (collation.OnOrdered rows))
  | filter _ _ | correlate _ _ _ _ | aggregate _ _ _ | union _ _ | intersect _ | minus _
  | exchange _ | subset _ => .isTrue trivial

end Operator

namespace Cluster

variable {c : Cluster} {id : NodeId} {rows : List Row}

/-- The rows of a node's first input. -/
def firstRows (c : Cluster) (id : NodeId) : List Row :=
  ((c.inputs id).map c.ranRows)[0]?.getD []

/-- The orders of a node's rows can be told. A subset takes none from its own traits. -/
structure TellsOrders (c : Cluster) (id : NodeId) : Prop where
  operator : (c.operator id).TellsOrders (c.firstRows id)
  subset : (c.operator id).isSubset = true → (c.traits id).collation.isEmpty = true

instance (c : Cluster) (id : NodeId) : Decidable (c.TellsOrders id) :=
  decidable_of_iff ((c.operator id).TellsOrders (c.firstRows id) ∧
      ((c.operator id).isSubset = true → (c.traits id).collation.isEmpty = true))
    ⟨fun h => ⟨h.1, h.2⟩, fun h => ⟨h.1, h.2⟩⟩

theorem Delivers.of_scan {v : Convention} {table : Table} (h : c.Delivers id rows)
    (hop : c.operator id = .scan v table) : table.scan = .ok rows := by
  cases h with
  | node rowsOf _ hrows =>
    have hop : (c.node id).operator = .scan v table := hop
    simpa only [nodeRows, hop, Bool.false_and, Bool.false_eq_true, if_false] using hrows
  | member hsub => rw [hop] at hsub; cases hsub

/-- The rows of a node that is neither a scan nor a subset are those of its operator over the rows of
its inputs. -/
theorem Delivers.operatorRows (h : c.Delivers id rows)
    (hscan : (c.operator id).table? = none) (hsubset : (c.operator id).isSubset = false) :
    (∀ j ∈ c.inputs id, c.Delivers j (c.ranRows j)) ∧
      Execution.operatorRows (c.operator id) ((c.inputs id).map c.arity)
        ((c.inputs id).map c.ranRows) = .ok rows := by
  obtain ⟨hinputs, hrows⟩ := (delivers_iff hsubset).mp h
  refine ⟨hinputs, ?_⟩
  rw [nodeRows_eq hsubset, hscan] at hrows
  exact Outcome.mapError_eq_ok.mp hrows

end Cluster

/-! ## Answers that are reported -/

namespace Querying

variable {α β : Type}

theorem exists_answers_ofOption (o : Option α) : ∃ r, (ofOption o).Answers r := by
  cases o with
  | some a => exact ⟨_, answers_pure a⟩
  | none => exact ⟨_, answers_throw _⟩

theorem exists_of_answers_input {c : Cluster} {id : NodeId} {i : Nat} {f : NodeId → Querying β} {b : β}
    (h : (input c id i >>= f).Answers (.ok b)) :
    ∃ j, c.input? id i = some j ∧ (f j).Answers (.ok b) := by
  obtain ⟨j, hj, hf⟩ := exists_of_answers_bind (exists_answers_ofOption _) h
  exact ⟨j, answers_ofOption hj, hf⟩

theorem Constant.exists_answers {x y : Querying α} (h : Constant x y) : ∃ r, x.Answers r :=
  h.2.imp fun _ hr => hr.1

theorem Answers.skipCyclic {x : Querying α} {r : Except QueryError α} (h : x.Answers r) :
    (skipCyclic x).Answers (skipped r) := fun m => by rw [run_skipCyclic, h m]

end Querying

namespace CollationsMethod

open Querying

/-- What a join keeps of the left collations has nulls last if right rows are padded. -/
theorem mem_of_mem_ofOrderedLeft {joinType : JoinType} {lefts : List Collation} {k : Collation}
    (h : k ∈ ofOrderedLeft joinType lefts) :
    k ∈ lefts ∧ (joinType.padsLeft = true → ∀ fc ∈ k.fields, fc.nulls = .last) := by
  unfold ofOrderedLeft at h
  split at h
  · split at h
    · next hall =>
      exact ⟨h, fun _ fc hfc =>
        of_decide_eq_true (List.all_eq_true.mp (List.all_eq_true.mp hall k h) fc hfc)⟩
    · cases h
  · next hpads => exact ⟨h, fun hpads' => absurd hpads' hpads⟩

variable {ask : Asking} (hask : ∀ j, Constant (ask.collations j) (ask.collations j))

include hask

/-- Collations that members share are among those of each member, and among those shared before. -/
theorem mem_of_sharedBy {shared : Option (List Collation)} {members : List NodeId}
    {cs : List Collation} (h : (sharedBy ask shared members).Answers (.ok cs)) {k : Collation}
    (hk : k ∈ cs) : (∀ before, shared = some before → k ∈ before) ∧
      ∀ j ∈ members, ∃ own, (ask.collations j).Answers (.ok own) ∧ k ∈ own := by
  induction members generalizing shared with
  | nil =>
    cases h.unique (answers_pure _)
    refine ⟨?_, nofun⟩
    rintro before rfl
    exact hk
  | cons j members ih =>
    obtain ⟨-, r, hr, hcyclic⟩ := hask j
    obtain ⟨own?, hown, h⟩ := exists_of_answers_bind ⟨_, hr.skipCyclic⟩ h
    rcases r with (⟨node, topic⟩ | e) | own
    · exact absurd rfl (hcyclic node topic)
    · cases hown.unique hr.skipCyclic
    · cases hown.unique hr.skipCyclic
      obtain ⟨hshared, hmembers⟩ := ih h
      have hnarrowed := hshared _ rfl
      cases shared with
      | none => exact ⟨nofun, List.forall_mem_cons.mpr ⟨⟨own, hr, hnarrowed⟩, hmembers⟩⟩
      | some previous =>
        obtain ⟨hbefore, hcontains⟩ := List.mem_filter.mp hnarrowed
        refine ⟨?_, List.forall_mem_cons.mpr ⟨⟨own, hr, ?_⟩, hmembers⟩⟩
        · rintro _ ⟨⟩
          exact hbefore
        · exact List.contains_iff_mem.mp hcontains

end CollationsMethod

namespace Operator

variable {o : Operator} {arities : List Nat} {inputs : List (List Row)} {rows : List Row}
  {n : Nat} {c : Collation}

theorem arity_le_of_leading {types : List RowType}
    (h : o.collationsMethod = .firstInput ∨ o.collationsMethod = .orderedLeft) :
    (types[0]?.getD default).arity ≤ (o.rowType types).arity := by
  cases o with
  | filter | exchange => exact Nat.le_refl _
  | join algorithm joinType condition =>
    cases algorithm with
    | semi => exact Nat.le_refl _
    | _ =>
      rw [rowType, RowType.arity_join]
      · exact Nat.le_add_right _ _
      · intro h
        cases h
  | correlate =>
    unfold rowType
    dsimp only
    split
    · rw [RowType.arity_join]
      exact Nat.le_add_right _ _
    · exact Nat.le_refl _
  | _ => rcases h with h | h <;> cases h

/-- An operator that is told to follow the orders of its first input does. -/
theorem orders_of_firstInput (hmethod : o.collationsMethod = .firstInput)
    (hrows : operatorRows o arities inputs = .ok rows) (hwidth : HaveWidth n (inputs[0]?.getD []))
    (hc : c.Within n) (h : c.Orders (inputs[0]?.getD [])) : c.Orders rows := by
  cases o with
  | filter => exact h.filterRows hrows
  | exchange =>
    cases hrows
    exact h
  | join algorithm joinType condition =>
    cases algorithm with
    | semi => exact h.semiJoinRows hrows
    | _ => cases hmethod
  | correlate =>
    cases hrows
    exact h.correlateRows hwidth hc _
  | _ => cases hmethod

/-- What a join is told to follow of the orders of its left input, it follows. -/
theorem orders_of_orderedLeft (hmethod : o.collationsMethod = .orderedLeft)
    {joinType : JoinType} {condition : Expr} (hjoin : o.join? = some (joinType, condition))
    (hrows : operatorRows o arities inputs = .ok rows)
    (hwidth : HaveWidth (arities[0]?.getD 0) (inputs[0]?.getD []))
    (hc : c.Within (arities[0]?.getD 0))
    (hlast : joinType.padsLeft = true → ∀ fc ∈ c.fields, fc.nulls = .last)
    (h : c.Orders (inputs[0]?.getD [])) : c.Orders rows := by
  cases o with
  | join algorithm _ _ =>
    cases hjoin
    cases algorithm with
    | hash | nestedLoop => exact h.joinRows hwidth hc hlast hrows
    | _ => cases hmethod
  | _ => cases hjoin

end Operator

namespace Cluster

open Querying

variable {c : Cluster} {id j : NodeId} {rows : List Row} {cs : List Collation} {ask : Asking}

theorem rowType_getElem?_inputs (h : c.input? id 0 = some j) :
    ((c.inputs id).map c.rowType)[0]?.getD default = c.rowType j := by
  rw [List.getElem?_map, show (c.inputs id)[0]? = some j from h]
  rfl

theorem arity_getElem?_inputs (h : c.input? id 0 = some j) :
    ((c.inputs id).map c.arity)[0]?.getD 0 = c.arity j := by
  rw [List.getElem?_map, show (c.inputs id)[0]? = some j from h]
  rfl

theorem ranRows_getElem?_inputs (h : c.input? id 0 = some j) :
    ((c.inputs id).map c.ranRows)[0]?.getD [] = c.ranRows j := by
  rw [List.getElem?_map, show (c.inputs id)[0]? = some j from h]
  rfl

/-- The collations that are answered of a node are orders of its rows. -/
def Reports (c : Cluster) (ask : Asking) (id : NodeId) : Prop :=
  ∀ rows cs, c.Delivers id rows → (ask.collations id).Answers (.ok cs) →
    Collation.AllOrder cs (c.arity id) rows

section

variable (hask : ∀ j, Constant (ask.collations j) (ask.collations j))
  (hid : id < c.size) (hchecked : c.Checked id) (htells : c.TellsOrders id)
  (hbelow : ∀ j, j ∈ c.inputs id ∨ (c.node id).chosenMember? = some j → c.Reports ask j)
  (hrows : c.Delivers id rows)

include hchecked hbelow hrows in
/-- What is answered of the first input of an operator are orders of the rows that it reads. -/
theorem allOrder_input (hscan : (c.operator id).table? = none)
    (hsubset : (c.operator id).isSubset = false) (hinput : c.input? id 0 = some j)
    (h : (ask.collations j).Answers (.ok cs)) :
    HaveWidth (c.arity j) (c.ranRows j) ∧ Collation.AllOrder cs (c.arity j) (c.ranRows j) := by
  have hmem := mem_inputs_of_input? hinput
  have hdel := (hrows.operatorRows hscan hsubset).1 j hmem
  exact ⟨hdel.width (inputs_lt_size hmem) (hchecked.under (.input .root hmem)),
    hbelow j (.inl hmem) _ _ hdel h⟩

include hid in
theorem arity_le_of_leading (hinput : c.input? id 0 = some j)
    (h : (c.operator id).collationsMethod = .firstInput ∨
      (c.operator id).collationsMethod = .orderedLeft) : c.arity j ≤ c.arity id := by
  have hle : (((c.inputs id).map c.rowType)[0]?.getD default).arity ≤
      ((c.operator id).rowType ((c.inputs id).map c.rowType)).arity := Operator.arity_le_of_leading h
  rwa [rowType_getElem?_inputs hinput, ← arity_eq hid] at hle

include hid hchecked hbelow hrows in
theorem allOrder_firstInput (hmethod : (c.operator id).collationsMethod = .firstInput)
    (h : (CollationsMethod.firstInput.answer c ask id).Answers (.ok cs)) :
    Collation.AllOrder cs (c.arity id) rows := by
  have hscan : (c.operator id).table? = none := by
    cases hop : c.operator id with
    | scan => rw [hop] at hmethod; cases hmethod
    | _ => rfl
  have hsubset : (c.operator id).isSubset = false := by
    cases hop : c.operator id with
    | subset => rw [hop] at hmethod; cases hmethod
    | _ => rfl
  obtain ⟨j, hinput, hj⟩ := exists_of_answers_input h
  obtain ⟨hwidth, hfirst⟩ := allOrder_input hchecked hbelow hrows hscan hsubset hinput hj
  refine hfirst.imp (arity_le_of_leading hid hinput (.inl hmethod)) fun k _ hk horders => ?_
  refine Operator.orders_of_firstInput hmethod (hrows.operatorRows hscan hsubset).2 ?_ hk ?_
  · rwa [ranRows_getElem?_inputs hinput]
  · rwa [ranRows_getElem?_inputs hinput]

include hask hid hchecked hbelow hrows in
theorem allOrder_orderedLeft {algorithm : JoinAlgorithm} {joinType : JoinType} {condition : Expr}
    (hop : c.operator id = .join algorithm joinType condition)
    (hmethod : (c.operator id).collationsMethod = .orderedLeft)
    (h : (CollationsMethod.orderedLeft.answer c ask id).Answers (.ok cs)) :
    Collation.AllOrder cs (c.arity id) rows := by
  have hscan : (c.operator id).table? = none := by rw [hop]; rfl
  have hsubset : (c.operator id).isSubset = false := by rw [hop]; rfl
  have hjoin : (c.operator id).join? = some (joinType, condition) := by rw [hop]; rfl
  obtain ⟨j, hinput, h⟩ := exists_of_answers_input h
  obtain ⟨lefts, hj, h⟩ := exists_of_answers_bind (hask j).exists_answers h
  rw [hjoin] at h
  cases h.unique (answers_pure _)
  obtain ⟨hwidth, hfirst⟩ := allOrder_input hchecked hbelow hrows hscan hsubset hinput hj
  have hle := arity_le_of_leading hid hinput (.inr hmethod)
  have harity := arity_getElem?_inputs hinput
  have hread := ranRows_getElem?_inputs hinput
  intro k hk
  obtain ⟨hleft, hlast⟩ := CollationsMethod.mem_of_mem_ofOrderedLeft hk
  obtain ⟨hwithin, horders⟩ := hfirst k hleft
  refine ⟨fun i hi => Nat.lt_of_lt_of_le (hwithin i hi) hle, ?_⟩
  exact Operator.orders_of_orderedLeft hmethod hjoin (hrows.operatorRows hscan hsubset).2
    (by rwa [hread, harity]) (by rwa [harity]) hlast (by rwa [hread])

include hask hid hchecked htells hbelow hrows in
theorem allOrder_project {v : Convention} {columns : List (Expr × String)}
    (hop : c.operator id = .project v columns)
    (h : (CollationsMethod.project.answer c ask id).Answers (.ok cs)) :
    Collation.AllOrder cs (c.arity id) rows := by
  have hscan : (c.operator id).table? = none := by rw [hop]; rfl
  have hsubset : (c.operator id).isSubset = false := by rw [hop]; rfl
  have hcopies : ∀ e ∈ columns.map Prod.fst, e.op? = none := by
    have htell := htells.operator
    rw [hop] at htell
    intro e he
    obtain ⟨p, hp, rfl⟩ := List.mem_map.mp he
    exact htell p hp
  unfold CollationsMethod.answer at h
  rw [hop] at h
  obtain ⟨j, hinput, h⟩ := exists_of_answers_input h
  obtain ⟨inputs, hj, h⟩ := exists_of_answers_bind (hask j).exists_answers h
  obtain ⟨-, hfirst⟩ := allOrder_input hchecked hbelow hrows hscan hsubset hinput hj
  have hown := (hrows.operatorRows hscan hsubset).2
  rw [hop] at hown
  have hprojected := projectRows_eq_ok_iff.mp hown
  rw [ranRows_getElem?_inputs hinput] at hprojected
  have harity : c.arity id = (columns.map Prod.fst).length := by
    rw [arity_eq hid, hop]
    simp [Operator.rowType, RowType.arity]
  rw [harity, hprojected.2]
  exact Collation.allOrder_projection hcopies hfirst (answers_ofOption h)

include hid hchecked htells hrows in
theorem allOrder_sort {collation : Collation} {offset : Nat} {fetch : Option Nat}
    (hop : (∃ v, c.operator id = .sort v collation offset fetch) ∨
      offset = 0 ∧ fetch = none ∧ ∃ d, c.operator id = .sortExchange d collation) :
    Collation.AllOrder [collation] (c.arity id) rows := by
  have hoperator := htells.operator
  have hcheck := hchecked.check id .root
  rw [check, Outcome.mapError_eq_ok] at hcheck
  have harity := arity_eq hid
  intro k hk
  cases List.mem_singleton.mp hk
  rcases hop with ⟨v, hop⟩ | ⟨rfl, rfl, d, hop⟩
  · have hown := (hrows.operatorRows (by rw [hop]; rfl) (by rw [hop]; rfl)).2
    rw [hop] at hoperator hcheck harity hown
    rw [harity]
    exact ⟨Operator.lt_of_checkOrdinals hcheck, Collation.orders_sortRows hoperator hown⟩
  · have hown := (hrows.operatorRows (by rw [hop]; rfl) (by rw [hop]; rfl)).2
    rw [hop] at hoperator hcheck harity hown
    obtain ⟨-, -, hcheck⟩ := Outcome.bind_eq_ok.mp hcheck
    rw [harity]
    exact ⟨Operator.lt_of_checkOrdinals hcheck, Collation.orders_sortRows hoperator hown⟩

include hid htells hrows in
theorem allOrder_values {v : Convention} {rowType : RowType} {tuples : List Row}
    (hop : c.operator id = .values v rowType tuples)
    (h : Collation.ofRows? (c.arity id) tuples = some cs) :
    Collation.AllOrder cs (c.arity id) rows := by
  have hoperator := htells.operator
  have harity := arity_eq hid
  have hown := (hrows.operatorRows (by rw [hop]; rfl) (by rw [hop]; rfl)).2
  rw [hop] at hoperator harity hown
  cases hown
  rw [harity] at h ⊢
  rw [Operator.TellsOrders, show Collation.ofRows? rowType.arity rows = some cs from h] at hoperator
  exact Collation.allOrder_ofRows? h hoperator

include htells hrows hid in
theorem allOrder_scan {v : Convention} {table : Table} (hop : c.operator id = .scan v table) :
    Collation.AllOrder table.collations (c.arity id) rows := by
  have hoperator := htells.operator
  have harity := arity_eq hid
  have hscan := hrows.of_scan hop
  rw [hop] at hoperator harity
  rw [harity]
  rw [Operator.TellsOrders, hscan] at hoperator
  exact hoperator

include hask htells hbelow hrows in
theorem allOrder_subset (hsubset : (c.operator id).isSubset = true)
    (h : (CollationsMethod.subset.answer c ask id).Answers (.ok cs)) :
    Collation.AllOrder cs (c.arity id) rows := by
  cases hrows with
  | node rowsOf _ hown =>
    rw [nodeRows_subset hown] at hsubset
    cases hsubset
  | member _ hchosen hmember =>
    rw [(chosenMember?_spec hchosen).2]
    have hreports := hbelow _ (.inr hchosen) rows
    unfold CollationsMethod.answer at h
    unfold Node.chosenMember? at hchosen
    dsimp only at h
    cases hbest : (c.node id).best with
    | some best =>
      rw [hbest] at h hchosen
      cases hchosen
      exact hreports cs hmember h
    | none =>
      rw [hbest] at h hchosen
      dsimp only at h
      rw [if_pos (show (c.node id).traits.collation.isEmpty = true from htells.subset hsubset)] at h
      intro k hk
      obtain ⟨own, hown, hkown⟩ := (CollationsMethod.mem_of_sharedBy hask h hk).2 _
        (List.mem_of_mem_head? hchosen)
      exact hreports own hmember hown k hkown

include hask hid hchecked htells hbelow hrows in
/-- The collations that a node's method finds are orders of its rows, if the answers about its inputs
and about the member that stands for it are. -/
theorem allOrder_of_answer (h : ((c.operator id).collationsMethod.answer c ask id).Answers (.ok cs)) :
    Collation.AllOrder cs (c.arity id) rows := by
  cases hop : c.operator id with
  | scan v table =>
    rw [hop] at h
    cases h.unique (answers_pure _)
    rw [hop]
    exact allOrder_scan hid htells hrows hop
  | values v rowType tuples =>
    rw [hop, Operator.collationsMethod, CollationsMethod.answer, hop] at h
    exact allOrder_values hid htells hrows hop (answers_ofOption h)
  | filter | exchange | correlate =>
    rw [hop] at h
    exact allOrder_firstInput hid hchecked hbelow hrows (by rw [hop]; rfl) h
  | project v columns =>
    rw [hop] at h
    exact allOrder_project hask hid hchecked htells hbelow hrows hop h
  | join algorithm joinType condition =>
    rw [hop] at h
    cases algorithm with
    | semi => exact allOrder_firstInput hid hchecked hbelow hrows (by rw [hop]; rfl) h
    | hash | nestedLoop =>
      exact allOrder_orderedLeft hask hid hchecked hbelow hrows hop (by rw [hop]; rfl) h
    | merge =>
      have hoperator := htells.operator
      rw [hop] at hoperator
      exact absurd rfl hoperator
    | logical =>
      cases h.unique (answers_pure _)
      exact Collation.allOrder_nil
  | sort v collation offset fetch =>
    rw [hop, Operator.collationsMethod, CollationsMethod.answer, hop] at h
    cases h.unique (answers_pure _)
    exact allOrder_sort hid hchecked htells hrows (.inl ⟨v, hop⟩)
  | sortExchange d collation =>
    rw [hop, Operator.collationsMethod, CollationsMethod.answer, hop] at h
    cases h.unique (answers_pure _)
    exact allOrder_sort hid hchecked htells hrows (.inr ⟨rfl, rfl, d, hop⟩)
  | subset rowType =>
    rw [hop] at h
    exact allOrder_subset hask htells hbelow hrows (by rw [hop]; rfl) h
  | aggregate | union | intersect | minus =>
    rw [hop] at h
    cases h.unique (answers_pure _)
    exact Collation.allOrder_nil

end

/-! ## Plans whose subsets do not reach themselves -/

/-- The second node is an input or a member of the first. -/
def MadeOf (c : Cluster) (i j : NodeId) : Prop := j ∈ c.inputs i ∨ j ∈ (c.node i).members

/-- No subset is met on the way from a node that is made of itself. -/
def LoopFree (c : Cluster) (id : NodeId) : Prop :=
  ∀ s, ReflTransGen c.MadeOf id s → (c.operator s).isSubset = true → ¬TransGen c.MadeOf s s

theorem isSubset_of_mem_members (h : j ∈ (c.node id).members) : (c.operator id).isSubset = true := by
  cases hsubset : (c.operator id).isSubset with
  | true => rfl
  | false =>
    cases hn : c.nodes[id]? with
    | none => simp [node, hn, default, instInhabitedNode.default] at h
    | some n =>
      have hnode : c.node id = n := by simp [node, hn]
      rw [operator, hnode] at hsubset
      rw [hnode, (c.wellFormed id n hn).members_nil hsubset] at h
      cases h

/-- Without a subset on the way, what a node is made of comes before it. -/
theorem lt_or_exists_subset {i : NodeId} (h : TransGen c.MadeOf i j) :
    j < i ∨ ∃ s, ReflTransGen c.MadeOf i s ∧ (c.operator s).isSubset = true ∧ TransGen c.MadeOf s j := by
  induction h with
  | single h =>
    rcases h with hinput | hmember
    · exact .inl (c.inputs_lt hinput)
    · exact .inr ⟨i, .refl, isSubset_of_mem_members hmember, .single (.inr hmember)⟩
  | @tail j k hto h ih =>
    rcases ih with hlt | ⟨s, his, hsubset, hsj⟩
    · rcases h with hinput | hmember
      · exact .inl (Nat.lt_trans (c.inputs_lt hinput) hlt)
      · exact .inr ⟨j, hto.to_reflTransGen, isSubset_of_mem_members hmember, .single (.inr hmember)⟩
    · exact .inr ⟨s, his, hsubset, hsj.tail h⟩

theorem LoopFree.not_madeOf_self (h : c.LoopFree id) (hj : ReflTransGen c.MadeOf id j) :
    ¬TransGen c.MadeOf j j := by
  intro hloop
  rcases lt_or_exists_subset hloop with hlt | ⟨s, hjs, hsubset, hsj⟩
  · exact Nat.lt_irrefl j hlt
  · exact h s (hj.trans hjs) hsubset (hsj.trans_left hjs)

theorem loopFree_of_members_lt (h : ∀ i < c.size, ∀ j ∈ (c.node i).members, j < i) (id : NodeId) :
    c.LoopFree id := by
  intro s _ hsubset hloop
  have hlt : ∀ {i j}, TransGen c.MadeOf i j → j < i := by
    intro i j hij
    have hstep : ∀ {i j}, c.MadeOf i j → j < i := by
      rintro i j (hinput | hmember)
      · exact c.inputs_lt hinput
      · exact h i (lt_size_of_isSubset (isSubset_of_mem_members hmember)) j hmember
    induction hij with
    | single hij => exact hstep hij
    | tail _ hjk ih => exact Nat.lt_trans (hstep hjk) ih
  exact Nat.lt_irrefl s (hlt hloop)

variable (hmethods : c.methods.collations = Methods.builtin.collations)

include hmethods

/-- The collations of a node are found through those of what it is made of. -/
theorem madeOf_of_needs {q q' : Question} (hq : q.aspect = .collations) (h : c.Needs q q') :
    q'.aspect = .collations ∧ c.MadeOf q.node q'.node := by
  obtain ⟨aspect, id⟩ := q
  cases hq
  have hask : q' ∈ ((c.operator id).collationsMethod).asks c id := by
    have hmem : q' ∈ (c.methods.collations.methodFor (c.kind id)).asks c id := h
    rwa [hmethods, show c.kind id = (c.operator id).kind from rfl, Operator.methodFor_kind] at hmem
  have hof : ∀ (nodes : List NodeId), (∀ j ∈ nodes, c.MadeOf id j) →
      q' ∈ nodes.map (Question.mk .collations) → q'.aspect = .collations ∧ c.MadeOf id q'.node := by
    intro nodes hnodes hmem
    obtain ⟨j, hj, rfl⟩ := List.mem_map.mp hmem
    exact ⟨rfl, hnodes j hj⟩
  have hfirst : ∀ j ∈ c.firstInput id, c.MadeOf id j := fun j hj =>
    .inl (mem_inputs_of_mem_firstInput hj)
  cases hmethod : (c.operator id).collationsMethod with
  | firstInput | project | orderedLeft =>
    rw [hmethod] at hask
    exact hof _ hfirst hask
  | mergeJoin =>
    rw [hmethod] at hask
    exact hof _ (fun j => .inl) hask
  | subset =>
    rw [hmethod, CollationsMethod.asks] at hask
    split at hask
    · next best hbest =>
      exact hof [best] (List.forall_mem_singleton.mpr (.inr (best_mem_members hbest))) hask
    · split at hask
      · exact hof _ (fun j => .inr) hask
      · cases hask
  | again => cases hop : c.operator id with
    | join algorithm => cases algorithm <;> (rw [hop] at hmethod; cases hmethod)
    | _ => rw [hop] at hmethod; cases hmethod
  | unknown | tableScan | sort | sortExchange | values =>
    rw [hmethod] at hask
    cases hask

theorem LoopFree.settled (h : c.LoopFree id) : c.Settled ⟨.collations, id⟩ := by
  have hon : ∀ q, ReflTransGen c.Needs ⟨.collations, id⟩ q →
      q.aspect = .collations ∧ ReflTransGen c.MadeOf id q.node := by
    intro q hq
    induction hq with
    | refl => exact ⟨rfl, .refl⟩
    | tail _ hneed ih =>
      obtain ⟨haspect, hmade⟩ := madeOf_of_needs hmethods ih.1 hneed
      exact ⟨haspect, ih.2.tail hmade⟩
  intro q hq hloop
  obtain ⟨haspect, hmade⟩ := hon q hq
  have hback : ∀ q', TransGen c.Needs q q' → q'.aspect = .collations ∧ TransGen c.MadeOf q.node q'.node := by
    intro q' hq'
    induction hq' with
    | single hneed => exact (madeOf_of_needs hmethods haspect hneed).imp_right .single
    | tail _ hneed ih =>
      obtain ⟨haspect', hmade'⟩ := madeOf_of_needs hmethods ih.1 hneed
      exact ⟨haspect', ih.2.tail hmade'⟩
  exact h.not_madeOf_self hmade (hback q hloop).2

/-- Collations that are answered without a memory are orders of a node's rows. -/
theorem reports_memoryless (depth : Nat) (hid : id < c.size) (hchecked : c.Checked id)
    (htells : ∀ j, c.Under id j → c.TellsOrders j) : c.Reports (Asking.memoryless c depth) id := by
  induction depth generalizing id with
  | zero => exact fun rows cs _ h => by cases h.unique (answers_throw _)
  | succ depth ih =>
    intro rows cs hrows h
    have hask : ∀ j, Constant ((Asking.memoryless c depth).collations j)
        ((Asking.memoryless c depth).collations j) := fun j =>
      (Asking.memoryless_constant c depth).collations j trivial
    refine allOrder_of_answer hask hid hchecked (htells id .root) (fun j hj => ?_) hrows ?_
    · have hunder : c.Under id j := hj.elim (.input .root) (.member .root)
      exact ih (hunder.lt_size hid) (hchecked.under hunder) fun k hk => htells k (hunder.trans hk)
    · have hanswer : ((c.methods.collations.methodFor (c.kind id)).answer c
        (Asking.memoryless c depth) id).Answers (.ok cs) := h
      rwa [hmethods, show c.kind id = (c.operator id).kind from rfl, Operator.methodFor_kind] at hanswer

/-- The collations that are reported of a plan, whatever was asked before, are orders of the rows that
running it returns: where plans have no merge joins and no computed columns, tables have rows of their
declared width in the declared orders of their columns, and subsets without an order of their own do
not reach themselves. -/
theorem collations_order_rows (hid : id < c.size) (hchecked : c.Checked id)
    (htells : ∀ j, c.Under id j → c.TellsOrders j) (hfree : c.LoopFree id)
    (asked : List ((aspect : Aspect) × aspect.Key)) (hrows : c.Returns id rows)
    (hcs : (((Asking.of c).collations id).run ((Asking.of c).memoryAfter asked)).1 = .ok cs) :
    ∀ k ∈ cs, k.Orders rows := by
  have hanswer : ((Asking.plain c).collations id).Answers
      (((Asking.of c).collations id).run ((Asking.of c).memoryAfter asked)).1 :=
    Asking.ask_after c asked .collations id (hfree.settled hmethods)
  rw [hcs] at hanswer
  intro k hk
  exact (reports_memoryless hmethods _ hid hchecked htells rows cs (hrows.delivers hid) hanswer k hk).2

omit hmethods

/-! ## A plan with an order that is kept -/

/-- Scores by player. -/
def playerScores : Table :=
  { name := ["SCORES"], rowType := ⟨[⟨"player", .bigint, true⟩, ⟨"score", .bigint, true⟩]⟩,
    collations := [.ofKeys [0]],
    source := some (.ok [[.integer 1, .integer 20], [.integer 2, .integer 10], [.integer 2, .integer 5]]) }

/-- A join that pads of the scores by player, as they are stored or sorted again, with the scores of
ten, in terms of score and player. -/
def tiedScores : Planning NodeId := do
  let scan ← createDefault (.scan .enumerable playerScores) []
  let sorted ← createDefault (.sort .enumerable (.ofKeys [0]) 0 none) [scan]
  let place ← createSubset playerScores.rowType (.ofConvention .enumerable)
  addMember place scan
  addMember place sorted
  let ten ← createDefault (.values .enumerable ⟨[⟨"score", .bigint, false⟩]⟩ [[.integer 10]]) []
  let joined ← createDefault (.join .nestedLoop .left
    (.apply .equals [.column 1 .bigint, .column 2 .bigint] .boolean)) [place, ten]
  createDefault (.project .enumerable [(.column 1 .bigint, "score"), (.column 0 .bigint, "player")])
    [joined]

def scoreSession : Cluster := (tiedScores.run.run (Cluster.start ⟨[playerScores]⟩ default default)).2

theorem collations_order_rows_players :
    scoreSession.Returns 5 [[.integer 20, .integer 1], [.integer 10, .integer 2],
      [.integer 5, .integer 2]] ∧
    (((Asking.of scoreSession).collations 5).run ((Asking.of scoreSession).memoryAfter [])).1 =
      .ok [.ofKeys [1]] ∧
    ∀ k ∈ [Collation.ofKeys [1]], k.Orders [[.integer 20, .integer 1], [.integer 10, .integer 2],
      [.integer 5, .integer 2]] := by
  have hrows : scoreSession.Returns 5 [[.integer 20, .integer 1], [.integer 10, .integer 2],
      [.integer 5, .integer 2]] := returns_of_ranRows (by decide +kernel) (by decide +kernel)
  have hcs : (((Asking.of scoreSession).collations 5).run
      ((Asking.of scoreSession).memoryAfter [])).1 = .ok [.ofKeys [1]] :=
    Outcome.toOption_eq_some.mp (by decide +kernel)
  have htells : ∀ j < scoreSession.size, scoreSession.TellsOrders j := by decide +kernel
  refine ⟨hrows, hcs, collations_order_rows rfl (by decide +kernel)
    (.of_all (by decide +kernel) (by decide +kernel)) (fun j hj => htells j (hj.lt_size ?_))
    (loopFree_of_members_lt (by decide +kernel) 5) [] hrows hcs⟩
  decide +kernel

/-- One number, in a table that declares an order on a second column. -/
def misdeclared : Table :=
  { name := ["T"], rowType := ⟨[⟨"a", .bigint, true⟩]⟩, collations := [.ofKeys [1]],
    source := some (.ok [[.integer 1]]) }

/-- Two numbers in descending order. -/
def descendingNumbers : Table :=
  { name := ["R"], rowType := ⟨[⟨"b", .bigint, true⟩]⟩,
    source := some (.ok [[.integer 2], [.integer 1]]) }

/-- All pairs of the one number with the two. -/
def misdeclaredJoin : Planning NodeId := do
  let left ← createDefault (.scan .enumerable misdeclared) []
  let right ← createDefault (.scan .enumerable descendingNumbers) []
  createDefault (.join .nestedLoop .inner (.bool true)) [left, right]

def misdeclaredSession : Cluster :=
  (misdeclaredJoin.run.run (Cluster.start ⟨[misdeclared, descendingNumbers]⟩ default default)).2

/-- A table may declare an order on a column that it does not have. The one row of the table follows
it, but in a join the column is one of the right rows, which do not. -/
theorem misdeclared_order_reported :
    (∀ id < misdeclaredSession.size, (misdeclaredSession.check id).isOk = true) ∧
    (∀ table ∈ misdeclaredSession.catalog.tables, ∀ k ∈ table.collations,
      k.Orders (table.scan.toOption.getD [])) ∧
    (((Asking.of misdeclaredSession).collations 2).run {}).1.toOption = some [.ofKeys [1]] ∧
    misdeclaredSession.Returns 2 [[.integer 1, .integer 2], [.integer 1, .integer 1]] ∧
    ¬(Collation.ofKeys [1]).Orders [[.integer 1, .integer 2], [.integer 1, .integer 1]] :=
  ⟨by decide +kernel, by decide +kernel, by decide +kernel,
    returns_of_ranRows (by decide +kernel) (by decide +kernel), by decide +kernel⟩

end Cluster

end QueryPlan
