import QueryPlan.Cluster.Basic
/-!
Operations that change a session: creating and copying nodes, and filling subsets.

A request that fails leaves behind the nodes it created before it failed, so the session is the
state and the error the outcome. The single operations below change nothing when they fail.
-/
namespace QueryPlan

/-- A request to a session: an outcome, and the session afterwards. -/
abbrev Planning (α : Type) := ExceptT PlanError (StateM Cluster) α

namespace Planning

/-- A request that reads the session or fails. -/
def inspect {α : Type} (f : Cluster → Except PlanError α) : Planning α :=
  ExceptT.mk fun c => (f c, c)

/-- A request that reads the session. -/
def read {α : Type} (f : Cluster → α) : Planning α := inspect fun c => .ok (f c)

/-- A request without a session. -/
def ofExcept {α : Type} (outcome : Except PlanError α) : Planning α := inspect fun _ => outcome

/-- A value that is there, or else the fault of reading beyond an end. -/
def ofOption {α : Type} (value : Option α) : Planning α :=
  match value with
  | some a => pure a
  | none => throw .outOfRange

/-- Replaces the session, if the change succeeds. -/
def change (f : Cluster → Except PlanError Cluster) : Planning Unit :=
  ExceptT.mk fun c =>
    match f c with
    | .ok c' => (.ok (), c')
    | .error e => (.error e, c)

end Planning

namespace Cluster

/-- Creates a node and returns its number. The inputs must exist, as many as the operator takes,
and the convention must be the operator's. -/
def create (operator : Operator) (traits : Traits) (inputs : List NodeId) : Planning NodeId :=
  ExceptT.mk fun c =>
    match c.checkNew operator traits inputs with
    | .ok ⟨h⟩ => (.ok c.size, c.push operator traits inputs h)
    | .error e => (.error e, c)

/-- Creates a node with the default traits of its operator. -/
def createDefault (operator : Operator) (inputs : List NodeId) : Planning NodeId :=
  create operator operator.defaultTraits inputs

/-- A node like another one with other traits or inputs; the node itself if both stay. A node cannot
be copied to another convention, and a subset not at all. -/
def copy (id : NodeId) (traits : Traits) (inputs : List NodeId) : Planning NodeId := do
  let n ← Planning.read (·.node id)
  if n.traits = traits ∧ n.inputs = inputs then
    return id
  else if n.operator.isSubset ∨ n.traits.convention ≠ traits.convention then
    throw (.copyNotSupported n.kind n.traits traits)
  else if n.inputs.length ≠ inputs.length then
    throw (.invalidNode id (.copyInputCount inputs.length n.inputs.length))
  else
    create n.operator traits inputs

/-- A node like another one over other inputs. -/
def copyOver (id : NodeId) (inputs : List NodeId) : Planning NodeId := do
  let traits ← Planning.read (·.traits id)
  copy id traits inputs

/-- Creates a subset without members. -/
def createSubset (rowType : RowType) (traits : Traits) : Planning NodeId :=
  create (.subset rowType) traits []

/-- A subset with one more member fits where the subset is. -/
theorem fits_addMember (c : Cluster) {id member : NodeId} {n : Node} (hn : c.nodes[id]? = some n)
    (hsubset : n.operator.isSubset = true) (hlt : member < c.nodes.size)
    (hrow : n.rowType.isCompatible (Arena.rowTypeAt c.nodes member) = true)
    (htraits : (Arena.traitsAt c.nodes member).satisfies n.traits = true)
    (hnew : member ∉ n.members) :
    Arena.Fits c.nodes id { n with members := n.members ++ [member] } :=
  have h := c.wellFormed id n hn
  { inputs_lt := h.inputs_lt
    takes := h.takes
    convention := h.convention
    rowType_eq := h.rowType_eq
    members_nil := fun hs => by
      have : n.operator.isSubset = false := hs
      rw [hsubset] at this
      cases this
    members_nodup := by
      show (n.members ++ [member]).Nodup
      rw [List.nodup_append]
      refine ⟨h.members_nodup, by simp, ?_⟩
      intro a ha b hb heq
      simp only [List.mem_singleton] at hb
      exact hnew (hb ▸ heq ▸ ha)
    members_lt := fun m hm => by
      rcases List.mem_append.mp hm with hm | hm
      · exact h.members_lt m hm
      · rw [List.mem_singleton.mp hm]
        exact hlt
    members_compatible := fun m hm => by
      rcases List.mem_append.mp hm with hm | hm
      · exact h.members_compatible m hm
      · rw [List.mem_singleton.mp hm]
        exact hrow
    members_satisfy := fun m hm => by
      rcases List.mem_append.mp hm with hm | hm
      · exact h.members_satisfy m hm
      · rw [List.mem_singleton.mp hm]
        exact htraits
    best_mem := fun m hm => List.mem_append_left _ (h.best_mem m hm) }

/-- Adds a member to a subset, at the end. It must have compatible column types and satisfy the
subset's traits; a member that is there already stays where it is. -/
def withMember (c : Cluster) (subset member : NodeId) : Except PlanError Cluster :=
  match hn : c.nodes[subset]? with
  | none => .error .outOfRange
  | some n =>
    if hsubset : n.operator.isSubset = true then
      if hlt : member < c.nodes.size then
        if hrow : n.rowType.isCompatible (Arena.rowTypeAt c.nodes member) = true then
          if htraits : (Arena.traitsAt c.nodes member).satisfies n.traits = true then
            if hnew : member ∈ n.members then .ok c
            else
              .ok { c with
                nodes := c.nodes.setIfInBounds subset { n with members := n.members ++ [member] }
                wellFormed := c.wellFormed.set hn rfl rfl
                  (c.fits_addMember hn hsubset hlt hrow htraits hnew) }
          else
            .error (.invalidNode member
              (.unsatisfiedTraits (Arena.traitsAt c.nodes member) n.traits))
        else .error (.rowTypeMismatch member n.rowType (Arena.rowTypeAt c.nodes member))
      else .error .outOfRange
    else .error (.invalidNode subset .notSubset)

/-- A subset with a member chosen as its best fits where the subset is. -/
theorem fits_setBest (c : Cluster) {id member : NodeId} {n : Node} (hn : c.nodes[id]? = some n)
    (hmem : member ∈ n.members) : Arena.Fits c.nodes id { n with best := some member } :=
  have h := c.wellFormed id n hn
  { inputs_lt := h.inputs_lt
    takes := h.takes
    convention := h.convention
    rowType_eq := h.rowType_eq
    members_nil := h.members_nil
    members_nodup := h.members_nodup
    members_lt := h.members_lt
    members_compatible := h.members_compatible
    members_satisfy := h.members_satisfy
    best_mem := fun m hm => by
      cases hm
      exact hmem }

/-- Chooses the best member of a subset among its members. -/
def withBest (c : Cluster) (subset member : NodeId) : Except PlanError Cluster :=
  match hn : c.nodes[subset]? with
  | none => .error .outOfRange
  | some n =>
    if hmem : member ∈ n.members then
      .ok { c with
        nodes := c.nodes.setIfInBounds subset { n with best := some member }
        wellFormed := c.wellFormed.set hn rfl rfl (c.fits_setBest hn hmem) }
    else .error (.invalidNode subset (.notMember member))

/-- Adds a member to a subset. -/
def addMember (subset member : NodeId) : Planning Unit :=
  Planning.change (·.withMember subset member)

/-- Chooses the best member of a subset. -/
def setBest (subset member : NodeId) : Planning Unit :=
  Planning.change (·.withBest subset member)

end Cluster

end QueryPlan
