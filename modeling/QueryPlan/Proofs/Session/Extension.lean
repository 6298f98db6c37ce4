import QueryPlan.Proofs.Session.Runs
/-!
# Sessions that grow

Planning only adds nodes: a session *extends* another one if it has all its nodes, unchanged and
under the same numbers. What is asked of a node of the smaller session has the same answer in the
larger one. `Created` says what creating a node does, and `Copied` what is common to a copy and to a
node that is returned because nothing changed. Where subsets are filled, a session *evolves*: its
nodes are still there, with more members at most.
-/
namespace QueryPlan.Cluster

/-- Every node of one session is the same node of the other one. -/
def Extends (c c' : Cluster) : Prop :=
  ∀ (id : NodeId) (n : Node), c.nodes[id]? = some n → c'.nodes[id]? = some n

theorem Extends.refl (c : Cluster) : c.Extends c := fun _ _ h => h

theorem Extends.trans {c₁ c₂ c₃ : Cluster} (h : c₁.Extends c₂) (h' : c₂.Extends c₃) :
    c₁.Extends c₃ := fun id n hn => h' id n (h id n hn)

theorem getElem?_eq_some_node {c : Cluster} {id : NodeId} (h : id < c.size) :
    c.nodes[id]? = some (c.node id) := by
  have h' : id < c.nodes.size := h
  simp [node, h']

namespace Extends

variable {c c' : Cluster}

theorem node_eq (h : c.Extends c') {id : NodeId} (hid : id < c.size) : c'.node id = c.node id := by
  have := h id _ (getElem?_eq_some_node hid)
  simp [node, this]

theorem lt_size (h : c.Extends c') {id : NodeId} (hid : id < c.size) : id < c'.size :=
  (Array.getElem?_eq_some_iff.mp (h id _ (getElem?_eq_some_node hid))).1

theorem size_le (h : c.Extends c') : c.size ≤ c'.size := by
  rcases Nat.eq_zero_or_pos c.size with h0 | h0
  · rw [h0]; exact Nat.zero_le _
  · have hlast : c.size - 1 < c.size := Nat.sub_one_lt_of_lt h0
    have := h.lt_size hlast
    exact Nat.le_of_pred_lt this

theorem operator_eq (h : c.Extends c') {id : NodeId} (hid : id < c.size) :
    c'.operator id = c.operator id := by
  rw [operator, operator, h.node_eq hid]

theorem inputs_eq (h : c.Extends c') {id : NodeId} (hid : id < c.size) :
    c'.inputs id = c.inputs id := by
  rw [inputs, inputs, h.node_eq hid]

theorem traits_eq (h : c.Extends c') {id : NodeId} (hid : id < c.size) :
    c'.traits id = c.traits id := by
  rw [traits, traits, h.node_eq hid]

theorem kind_eq (h : c.Extends c') {id : NodeId} (hid : id < c.size) :
    c'.kind id = c.kind id := by
  rw [kind, kind, h.node_eq hid]

theorem rowType_eq (h : c.Extends c') {id : NodeId} (hid : id < c.size) :
    c'.rowType id = c.rowType id := by
  rw [rowType, rowType, h.node_eq hid]

theorem arity_eq (h : c.Extends c') {id : NodeId} (hid : id < c.size) :
    c'.arity id = c.arity id := by
  rw [arity, arity, h.rowType_eq hid]

end Extends

/-! ## Nodes and their inputs -/

theorem inputs_eq_nil {c : Cluster} {id : NodeId} (h : ¬id < c.size) : c.inputs id = [] := by
  have : c.nodes[id]? = none := Array.getElem?_eq_none (Nat.le_of_not_lt h)
  simp [inputs, node, this, default, instInhabitedNode.default]

theorem operator_eq_default {c : Cluster} {id : NodeId} (h : ¬id < c.size) :
    c.operator id = default := by
  have hnone : c.nodes[id]? = none := Array.getElem?_eq_none (Nat.le_of_not_lt h)
  rw [operator, node, hnone]
  rfl

/-- Inputs of a node exist. -/
theorem inputs_lt_size {c : Cluster} {id j : NodeId} (h : j ∈ c.inputs id) : j < c.size := by
  have hid : id < c.size := by
    rcases Nat.lt_or_ge id c.size with hid | hid
    · exact hid
    · rw [inputs_eq_nil (Nat.not_lt.mpr hid)] at h
      cases h
  exact Nat.lt_trans (c.inputs_lt h) hid

theorem rowTypeAt_eq (c : Cluster) (id : NodeId) : Arena.rowTypeAt c.nodes id = c.rowType id := by
  unfold Arena.rowTypeAt rowType node
  cases c.nodes[id]? <;> rfl

/-- The row type of a node is its operator's over the row types of its inputs. -/
theorem rowType_eq {c : Cluster} {id : NodeId} (h : id < c.size) :
    c.rowType id = (c.operator id).rowType ((c.inputs id).map c.rowType) := by
  have := (c.wellFormed id _ (getElem?_eq_some_node h)).rowType_eq
  rw [rowType, this]
  exact congrArg _ (List.map_congr_left fun j _ => c.rowTypeAt_eq j)

/-- A node has as many inputs as its operator takes. -/
theorem takes_inputs {c : Cluster} {id : NodeId} (h : id < c.size) :
    (c.operator id).takes (c.inputs id).length = true :=
  (c.wellFormed id _ (getElem?_eq_some_node h)).takes

/-- Only nodes of the session are subsets. -/
theorem lt_size_of_isSubset {c : Cluster} {id : NodeId} (h : (c.operator id).isSubset = true) :
    id < c.size := by
  rcases Nat.lt_or_ge id c.size with hid | hid
  · exact hid
  · rw [operator_eq_default (Nat.not_lt.mpr hid)] at h
    cases h

/-- Subsets have members in place of inputs. -/
theorem inputs_eq_nil_of_isSubset {c : Cluster} {id : NodeId}
    (h : (c.operator id).isSubset = true) :
    c.inputs id = [] := by
  have htakes := takes_inputs (lt_size_of_isSubset h)
  cases hop : c.operator id <;> simp_all [Operator.isSubset, Operator.takes, Operator.inputCount?]

theorem inputs_eq_nil_of_scan {c : Cluster} {id : NodeId} {convention : Convention} {table : Table}
    (h : c.operator id = .scan convention table) : c.inputs id = [] := by
  by_cases hid : id < c.size
  · have htakes := takes_inputs hid
    rw [h] at htakes
    exact List.length_eq_zero_iff.mp (by simpa [Operator.takes, Operator.inputCount?] using htakes)
  · exact inputs_eq_nil hid

theorem inputsBelow_map_val (c : Cluster) (id : NodeId) :
    (c.inputsBelow id).map Subtype.val = c.inputs id := by
  simp [inputsBelow]

theorem Extends.check_eq {c c' : Cluster} (h : c.Extends c') {id : NodeId} (hid : id < c.size) :
    c'.check id = c.check id := by
  rw [check, check, h.operator_eq hid, h.inputs_eq hid]
  congr 2
  exact List.map_congr_left fun j hj => h.rowType_eq (inputs_lt_size hj)

/-! ## Sessions in which members are added and chosen -/

/-- The nodes of a session are there in the other one, under their numbers, and differ at most in
members that were added at the end and in a best member that was chosen. -/
structure Evolves (c c' : Cluster) : Prop where
  size_le : c.size ≤ c'.size
  operator_eq : ∀ id < c.size, c'.operator id = c.operator id
  traits_eq : ∀ id < c.size, c'.traits id = c.traits id
  inputs_eq : ∀ id < c.size, c'.inputs id = c.inputs id
  rowType_eq : ∀ id < c.size, c'.rowType id = c.rowType id
  members : ∀ id < c.size, (c.node id).members <+: (c'.node id).members
  best : ∀ id < c.size, (c.node id).best.isSome = true → (c'.node id).best.isSome = true

theorem Extends.evolves {c c' : Cluster} (h : c.Extends c') : c.Evolves c' where
  size_le := h.size_le
  operator_eq _ := h.operator_eq
  traits_eq _ := h.traits_eq
  inputs_eq _ := h.inputs_eq
  rowType_eq _ := h.rowType_eq
  members _ hid := by simp [h.node_eq hid]
  best _ hid := by rw [h.node_eq hid]; exact id

namespace Evolves

variable {c c' c'' : Cluster} {id : NodeId}

theorem refl (c : Cluster) : c.Evolves c := (Extends.refl c).evolves

theorem lt_size (h : c.Evolves c') (hid : id < c.size) : id < c'.size :=
  Nat.lt_of_lt_of_le hid h.size_le

theorem trans (h : c.Evolves c') (h' : c'.Evolves c'') : c.Evolves c'' where
  size_le := Nat.le_trans h.size_le h'.size_le
  operator_eq id hid := (h'.operator_eq id (h.lt_size hid)).trans (h.operator_eq id hid)
  traits_eq id hid := (h'.traits_eq id (h.lt_size hid)).trans (h.traits_eq id hid)
  inputs_eq id hid := (h'.inputs_eq id (h.lt_size hid)).trans (h.inputs_eq id hid)
  rowType_eq id hid := (h'.rowType_eq id (h.lt_size hid)).trans (h.rowType_eq id hid)
  members id hid := (h.members id hid).trans (h'.members id (h.lt_size hid))
  best id hid hbest := h'.best id (h.lt_size hid) (h.best id hid hbest)

theorem kind_eq (h : c.Evolves c') (hid : id < c.size) : c'.kind id = c.kind id :=
  congrArg Operator.kind (h.operator_eq id hid)

theorem inputText_eq (h : c.Evolves c') (hid : id < c.size) : c'.inputText id = c.inputText id := by
  rw [inputText, inputText, h.kind_eq hid]

theorem inputAttributes_eq (h : c.Evolves c') {operator : Operator} {inputs : List NodeId}
    (hin : ∀ j ∈ inputs, j < c.size) :
    c'.inputAttributes operator inputs = c.inputAttributes operator inputs := by
  have hzip : inputs.zipIdx.map (fun (x : NodeId × Nat) =>
        ("input#" ++ toString x.2, c'.inputText x.1)) =
      inputs.zipIdx.map (fun (x : NodeId × Nat) =>
        ("input#" ++ toString x.2, c.inputText x.1)) := by
    apply List.map_congr_left
    rintro ⟨j, i⟩ hj
    rw [h.inputText_eq (hin j (List.fst_mem_of_mem_zipIdx hj))]
  unfold inputAttributes
  split
  · rw [h.inputText_eq (hin _ (by simp))]
  · split
    · rw [h.inputText_eq (hin _ (by simp)), h.inputText_eq (hin _ (by simp))]
    · exact hzip

/-- A digest names no members. -/
theorem digest_eq (h : c.Evolves c') (hid : id < c.size) : c'.digest id = c.digest id := by
  have hin : ∀ j ∈ (c.node id).inputs, j < c.size := fun j hj => inputs_lt_size hj
  have hoperator : (c'.node id).operator = (c.node id).operator := h.operator_eq id hid
  have htraits : (c'.node id).traits = (c.node id).traits := h.traits_eq id hid
  have hinputs : (c'.node id).inputs = (c.node id).inputs := h.inputs_eq id hid
  have hkind : (c'.node id).kind = (c.node id).kind := h.kind_eq hid
  simp only [digest, hoperator, htraits, hinputs, hkind, h.inputAttributes_eq hin]

end Evolves

theorem Extends.digest_eq {c c' : Cluster} (h : c.Extends c') {id : NodeId} (hid : id < c.size) :
    c'.digest id = c.digest id := h.evolves.digest_eq hid

/-! ## Members of subsets -/

section

variable {c : Cluster} {id m : NodeId}

theorem lt_size_of_mem_members (h : m ∈ (c.node id).members) : id < c.size := by
  rcases Nat.lt_or_ge id c.size with hid | hid
  · exact hid
  · rw [node, Array.getElem?_eq_none hid] at h
    cases h

theorem members_lt_size (h : m ∈ (c.node id).members) : m < c.size :=
  (c.wellFormed id _ (getElem?_eq_some_node (lt_size_of_mem_members h))).members_lt m h

/-- Members have the column types of their subset. -/
theorem isCompatible_of_mem_members (h : m ∈ (c.node id).members) :
    (c.rowType id).isCompatible (c.rowType m) = true :=
  c.rowTypeAt_eq m ▸
    (c.wellFormed id _ (getElem?_eq_some_node (lt_size_of_mem_members h))).members_compatible m h

theorem best_mem_members (h : (c.node id).best = some m) : m ∈ (c.node id).members := by
  rcases Nat.lt_or_ge id c.size with hid | hid
  · exact (c.wellFormed id _ (getElem?_eq_some_node hid)).best_mem m h
  · rw [node, Array.getElem?_eq_none hid] at h
    cases h

theorem chosenMember?_mem (h : (c.node id).chosenMember? = some m) : m ∈ (c.node id).members := by
  unfold Node.chosenMember? at h
  cases hbest : (c.node id).best with
  | none =>
    rw [hbest, Option.none_or] at h
    exact List.mem_of_mem_head? h
  | some best =>
    rw [hbest, Option.some_or] at h
    cases h
    exact best_mem_members hbest

end

/-! ## Creating and copying nodes -/

/-- What a session is after a node was created in it. -/
structure Created (c : Cluster) (operator : Operator) (traits : Traits) (inputs : List NodeId)
    (id : NodeId) (c' : Cluster) : Prop where
  grows : c.Extends c'
  id_eq : id = c.size
  size_eq : c'.size = c.size + 1
  operator_eq : c'.operator id = operator
  traits_eq : c'.traits id = traits
  inputs_eq : c'.inputs id = inputs
  inputs_lt : ∀ j ∈ inputs, j < c.size

theorem Created.lt_size {c c' : Cluster} {operator : Operator} {traits : Traits}
    {inputs : List NodeId} {id : NodeId} (h : Created c operator traits inputs id c') :
    id < c'.size := by
  rw [h.id_eq, h.size_eq]
  exact Nat.lt_succ_self _

theorem created_push (c : Cluster) {operator : Operator} {traits : Traits} {inputs : List NodeId}
    (h : c.Admits operator traits inputs) :
    Created c operator traits inputs c.size (c.push operator traits inputs h) := by
  have hnode :
      (c.push operator traits inputs h).node c.size = c.newNode operator traits inputs := by
    simp [node, push, size]
  refine ⟨?_, rfl, by simp [push, size], by rw [Cluster.operator, hnode]; rfl,
    by rw [Cluster.traits, hnode]; rfl, by rw [Cluster.inputs, hnode]; rfl, ?_⟩
  · intro id n hn
    have hid := (Array.getElem?_eq_some_iff.mp hn).1
    simp [push, Array.getElem?_push, Nat.ne_of_lt hid, hn]
  · intro j hj
    have := List.find?_eq_none.mp h.known j hj
    simpa using this

theorem runs_create {operator : Operator} {traits : Traits} {inputs : List NodeId} {c c' : Cluster}
    {id : NodeId} (h : (create operator traits inputs).Runs c id c') :
    Created c operator traits inputs id c' := by
  unfold create Planning.Runs ExceptT.mk ExceptT.run StateT.run at h
  dsimp only at h
  split at h
  · cases h
    exact created_push c _
  · cases h

/-- A node that has an operator over inputs, be it new or not. -/
structure Copied (c : Cluster) (id : NodeId) (inputs : List NodeId) (id' : NodeId) (c' : Cluster) :
    Prop where
  grows : c.Extends c'
  lt_size : id' < c'.size
  operator_eq : c'.operator id' = c.operator id
  inputs_eq : c'.inputs id' = inputs
  eq_of_inputs : inputs = c.inputs id → id' = id ∧ c' = c
  eq_or_new : id' = id ∨ id' = c.size ∧ (c.operator id).isSubset = false

theorem runs_copy {id id' : NodeId} {traits : Traits} {inputs : List NodeId} {c c' : Cluster}
    (h : (copy id traits inputs).Runs c id' c') :
    (c.traits id = traits ∧ c.inputs id = inputs ∧ id' = id ∧ c' = c) ∨
      ((c.operator id).isSubset = false ∧ ¬(c.traits id = traits ∧ c.inputs id = inputs) ∧
        Created c (c.operator id) traits inputs id' c') := by
  simp only [copy, Planning.runs_bind, Planning.runs_read] at h
  obtain ⟨n, c₁, ⟨rfl, rfl⟩, h⟩ := h
  split at h
  · next heq =>
    obtain ⟨rfl, rfl⟩ := Planning.runs_pure.mp h
    exact .inl ⟨heq.1, heq.2, rfl, rfl⟩
  · next hne =>
    split at h
    · exact absurd h Planning.runs_throw
    · next hconv =>
      split at h
      · exact absurd h Planning.runs_throw
      · refine .inr ⟨?_, hne, runs_create h⟩
        simp only [not_or] at hconv
        exact Bool.eq_false_iff.mpr hconv.1

theorem runs_copyOver {id id' : NodeId} {inputs : List NodeId} {c c' : Cluster} (hid : id < c.size)
    (h : (copyOver id inputs).Runs c id' c') : Copied c id inputs id' c' := by
  simp only [copyOver, Planning.runs_bind, Planning.runs_read] at h
  obtain ⟨traits, c₁, ⟨rfl, rfl⟩, h⟩ := h
  rcases runs_copy h with ⟨-, hin, rfl, rfl⟩ | ⟨hsub, hne, hnew⟩
  · exact ⟨.refl _, hid, rfl, hin, fun _ => ⟨rfl, rfl⟩, .inl rfl⟩
  · refine ⟨hnew.grows, hnew.lt_size, hnew.operator_eq, hnew.inputs_eq, fun heq => ?_,
      .inr ⟨hnew.id_eq, hsub⟩⟩
    exact absurd ⟨rfl, heq.symm⟩ hne

/-- A node over other inputs is new, with its operator and its traits. -/
theorem created_of_runs_copyOver {id id' : NodeId} {inputs : List NodeId} {c c' : Cluster}
    (h : (copyOver id inputs).Runs c id' c') :
    (inputs = c.inputs id ∧ id' = id ∧ c' = c) ∨
      (inputs ≠ c.inputs id ∧ Created c (c.operator id) (c.traits id) inputs id' c') := by
  simp only [copyOver, Planning.runs_bind, Planning.runs_read] at h
  obtain ⟨traits, c₁, ⟨rfl, rfl⟩, h⟩ := h
  rcases runs_copy h with ⟨-, hin, rfl, rfl⟩ | ⟨-, hne, hnew⟩
  · exact .inl ⟨hin.symm, rfl, rfl⟩
  · exact .inr ⟨fun heq => hne ⟨rfl, heq.symm⟩, hnew⟩

/-- A node keeps its traits over other inputs. -/
theorem traits_eq_of_runs_copyOver {id id' : NodeId} {inputs : List NodeId} {c c' : Cluster}
    (h : (copyOver id inputs).Runs c id' c') : c'.traits id' = c.traits id := by
  simp only [copyOver, Planning.runs_bind, Planning.runs_read] at h
  obtain ⟨traits, c₁, ⟨rfl, rfl⟩, h⟩ := h
  rcases runs_copy h with ⟨-, -, rfl, rfl⟩ | ⟨-, -, hnew⟩
  · rfl
  · exact hnew.traits_eq

/-- An operator that a session admits over inputs becomes a node. -/
theorem create_succeeds {c : Cluster} {operator : Operator} {traits : Traits}
    {inputs : List NodeId} (h : c.Admits operator traits inputs) :
    ∃ id c', (create operator traits inputs).Runs c id c' := by
  have hcheck : ∃ h, c.checkNew operator traits inputs = .ok h := by
    unfold checkNew
    rw [dif_pos h.takes]
    split
    · next input hknown =>
      rw [h.known] at hknown
      cases hknown
    · rw [dif_pos h.convention]
      exact ⟨_, rfl⟩
  obtain ⟨⟨hadmits⟩, hcheck⟩ := hcheck
  refine ⟨c.size, c.push operator traits inputs hadmits, ?_⟩
  unfold create Planning.Runs ExceptT.mk ExceptT.run StateT.run
  dsimp only
  rw [hcheck]

/-- A node that is no subset can be copied over as many inputs. -/
theorem copyOver_succeeds {c : Cluster} {id : NodeId} {inputs : List NodeId} (hid : id < c.size)
    (hsub : (c.operator id).isSubset = false) (hlen : inputs.length = (c.inputs id).length)
    (hin : ∀ j ∈ inputs, j < c.size) : ∃ id' c', (copyOver id inputs).Runs c id' c' := by
  have hfits := c.wellFormed id _ (getElem?_eq_some_node hid)
  have hconvention := hfits.convention
  simp only [copyOver, copy, Planning.runs_bind, Planning.runs_read]
  by_cases heq : (c.node id).traits = c.traits id ∧ (c.node id).inputs = inputs
  · refine ⟨id, c, _, c, ⟨rfl, rfl⟩, _, c, ⟨rfl, rfl⟩, ?_⟩
    rw [if_pos heq]
    exact Planning.runs_pure.mpr ⟨rfl, rfl⟩
  · have hadmits : c.Admits (c.operator id) (c.traits id) inputs := by
      refine ⟨?_, ?_, hconvention⟩
      · rw [hlen]
        exact takes_inputs hid
      · rw [unknownInput?, List.find?_eq_none]
        intro j hj
        simpa using hin j hj
    obtain ⟨id', c', hcreate⟩ := create_succeeds hadmits
    refine ⟨id', c', _, c, ⟨rfl, rfl⟩, _, c, ⟨rfl, rfl⟩, ?_⟩
    have hcopies : ¬((c.node id).operator.isSubset = true ∨
        (c.node id).traits.convention ≠ (c.traits id).convention) := by
      rintro (h | h)
      · rw [show (c.node id).operator.isSubset = false from hsub] at h
        cases h
      · exact h rfl
    rw [if_neg heq, if_neg hcopies, if_neg fun h => h hlen.symm]
    exact hcreate

theorem convention_defaultTraits (o : Operator) : o.defaultTraits.convention = o.convention := by
  cases o <;> rfl

/-- An operator becomes a node with its default traits over as many existing inputs as it takes. -/
theorem createDefault_succeeds {c : Cluster} (operator : Operator) (inputs : List NodeId)
    (htakes : operator.takes inputs.length = true) (hin : ∀ j ∈ inputs, j < c.size) :
    ∃ id c', (createDefault operator inputs).Runs c id c' := by
  refine create_succeeds ⟨htakes, ?_, .inr (convention_defaultTraits operator)⟩
  rw [unknownInput?, List.find?_eq_none]
  exact fun j hj => by simpa using hin j hj

/-- Any node can be copied over as many existing inputs. A subset has none, so it stays. -/
theorem copyOver_succeeds_of_length {c : Cluster} {id : NodeId} {inputs : List NodeId}
    (hid : id < c.size) (hlen : inputs.length = (c.inputs id).length)
    (hin : ∀ j ∈ inputs, j < c.size) :
    ∃ id' c', (copyOver id inputs).Runs c id' c' := by
  cases hsub : (c.operator id).isSubset with
  | false => exact copyOver_succeeds hid hsub hlen hin
  | true =>
    have hcount : (c.operator id).inputCount? = some 0 := by
      cases hop : c.operator id with
      | subset _ => rfl
      | _ => rw [hop] at hsub; cases hsub
    have htakes := takes_inputs hid
    rw [Operator.takes, hcount, decide_eq_true_eq] at htakes
    rw [htakes] at hlen
    refine ⟨id, c, ?_⟩
    simp only [copyOver, copy, Planning.runs_bind, Planning.runs_read]
    refine ⟨_, c, ⟨rfl, rfl⟩, _, c, ⟨rfl, rfl⟩, ?_⟩
    have hsame : (c.node id).traits = c.traits id ∧ (c.node id).inputs = inputs :=
      ⟨rfl, (List.length_eq_zero_iff.mp htakes).trans (List.length_eq_zero_iff.mp hlen).symm⟩
    rw [if_pos hsame]
    exact Planning.runs_pure.mpr ⟨rfl, rfl⟩

end QueryPlan.Cluster
