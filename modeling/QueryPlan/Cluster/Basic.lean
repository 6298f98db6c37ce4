import QueryPlan.Operator.Schema
import QueryPlan.Config.Basic
import QueryPlan.Metadata.Methods
/-!
The arena of a planning session.

Nodes are numbered in the order of their creation and stay as they were created, except that a
subset gains members and may get a best one. That every node fits the nodes before it is part of
the type: inputs come before their users, so walking from a node through its inputs ends.
-/
namespace QueryPlan

/-- One relational expression. The row type is the operator's over the inputs' row types; it may be
far wider than the plan is long, so it is not derived before it is asked for. Members and best
member are those of a subset; members are not inputs, so one may lead back to its subset. -/
structure Node where
  operator : Operator
  traits : Traits
  inputs : List NodeId
  derivedType : Thunk RowType
  members : List NodeId := []
  best : Option NodeId := none
  deriving Inhabited

namespace Node

def kind (n : Node) : Kind := n.operator.kind

def rowType (n : Node) : RowType := n.derivedType.get

/-- The member that stands for a subset: the best one if chosen, else the first one. -/
def chosenMember? (n : Node) : Option NodeId := n.best.or n.members.head?

/-- Members and best member as attributes. -/
def memberAttributes (n : Node) : Attributes :=
  ("members", "[" ++ ", ".intercalate (n.members.map fun m => "#" ++ toString m) ++ "]") ::
    (n.best.map fun b => ("best", "#" ++ toString b)).toList

/-- The attributes that plans show of a node. -/
def attributes (n : Node) : Attributes :=
  if n.operator.isSubset then n.memberAttributes else n.operator.attributes

end Node

namespace Arena

/-- Row type of a node; no columns where there is no node. -/
def rowTypeAt (nodes : Array Node) (id : NodeId) : RowType :=
  (nodes[id]?.map Node.rowType).getD default

/-- Row type of a node, not yet derived. -/
def derivedTypeAt (nodes : Array Node) (id : NodeId) : Thunk RowType :=
  (nodes[id]?.map Node.derivedType).getD (Thunk.pure default)

theorem derivedTypeAt_get (nodes : Array Node) (id : NodeId) :
    (derivedTypeAt nodes id).get = rowTypeAt nodes id := by
  unfold derivedTypeAt rowTypeAt
  cases nodes[id]? <;> rfl

/-- Traits of a node. -/
def traitsAt (nodes : Array Node) (id : NodeId) : Traits :=
  (nodes[id]?.map Node.traits).getD default

/-- A node fits at a position: its inputs come before it, it has as many as its operator takes, its
convention is its operator's, its row type is the derived one, and its members, if it is a subset,
are different nodes that have its column types and satisfy its traits. -/
structure Fits (nodes : Array Node) (id : NodeId) (n : Node) : Prop where
  inputs_lt : ∀ j ∈ n.inputs, j < id
  takes : n.operator.takes n.inputs.length = true
  convention : n.operator.isSubset = true ∨ n.traits.convention = n.operator.convention
  rowType_eq : n.rowType = n.operator.rowType (n.inputs.map (rowTypeAt nodes))
  members_nil : n.operator.isSubset = false → n.members = []
  members_nodup : n.members.Nodup
  members_lt : ∀ m ∈ n.members, m < nodes.size
  members_compatible : ∀ m ∈ n.members, n.rowType.isCompatible (rowTypeAt nodes m) = true
  members_satisfy : ∀ m ∈ n.members, (traitsAt nodes m).satisfies n.traits = true
  best_mem : ∀ m, n.best = some m → m ∈ n.members

/-- Every node fits at its position. -/
def WellFormed (nodes : Array Node) : Prop :=
  ∀ id n, nodes[id]? = some n → Fits nodes id n

/-- Whether a node fits depends only on the row types and the traits of other nodes. -/
theorem Fits.mono {nodes nodes' : Array Node} {id : NodeId} {n : Node}
    (h : Fits nodes id n) (hid : id ≤ nodes.size) (hsize : nodes.size ≤ nodes'.size)
    (hrow : ∀ j, j < nodes.size → rowTypeAt nodes' j = rowTypeAt nodes j)
    (htraits : ∀ j, j < nodes.size → traitsAt nodes' j = traitsAt nodes j) :
    Fits nodes' id n where
  inputs_lt := h.inputs_lt
  takes := h.takes
  convention := h.convention
  rowType_eq := by
    rw [h.rowType_eq]
    congr 1
    apply List.map_congr_left
    intro j hj
    exact (hrow j (Nat.lt_of_lt_of_le (h.inputs_lt j hj) hid)).symm
  members_nil := h.members_nil
  members_nodup := h.members_nodup
  members_lt := fun m hm => Nat.lt_of_lt_of_le (h.members_lt m hm) hsize
  members_compatible := fun m hm => by
    rw [hrow m (h.members_lt m hm)]
    exact h.members_compatible m hm
  members_satisfy := fun m hm => by
    rw [htraits m (h.members_lt m hm)]
    exact h.members_satisfy m hm
  best_mem := h.best_mem

theorem WellFormed.empty : WellFormed #[] := by
  intro id n h
  simp at h

theorem rowTypeAt_push {nodes : Array Node} {n : Node} {j : NodeId} (h : j < nodes.size) :
    rowTypeAt (nodes.push n) j = rowTypeAt nodes j := by
  simp [rowTypeAt, Array.getElem?_push, Nat.ne_of_lt h]

theorem traitsAt_push {nodes : Array Node} {n : Node} {j : NodeId} (h : j < nodes.size) :
    traitsAt (nodes.push n) j = traitsAt nodes j := by
  simp [traitsAt, Array.getElem?_push, Nat.ne_of_lt h]

/-- A node that fits after all others can be added. -/
theorem WellFormed.push {nodes : Array Node} (h : WellFormed nodes) {n : Node}
    (hn : Fits nodes nodes.size n) : WellFormed (nodes.push n) := by
  intro id n' hid
  have mono : ∀ {i : NodeId} {m : Node}, Fits nodes i m → i ≤ nodes.size →
      Fits (nodes.push n) i m := fun hm hi =>
    hm.mono hi (by simp) (fun _ hj => rowTypeAt_push hj) (fun _ hj => traitsAt_push hj)
  rw [Array.getElem?_push] at hid
  split at hid
  · next heq =>
    cases hid
    rw [heq]
    exact mono hn (Nat.le_refl _)
  · have hlt := (Array.getElem?_eq_some_iff.mp hid).1
    exact mono (h id n' hid) (Nat.le_of_lt hlt)

/-- A node may be replaced by one that fits in its place and has the same row type and traits. -/
theorem WellFormed.set {nodes : Array Node} (h : WellFormed nodes) {id : NodeId} {n n' : Node}
    (hn : nodes[id]? = some n) (hrow : n'.rowType = n.rowType) (htraits : n'.traits = n.traits)
    (hfits : Fits nodes id n') : WellFormed (nodes.setIfInBounds id n') := by
  have rows : ∀ j, rowTypeAt (nodes.setIfInBounds id n') j = rowTypeAt nodes j := by
    intro j
    by_cases hj : id = j
    · subst hj
      obtain ⟨hlt, rfl⟩ := Array.getElem?_eq_some_iff.mp hn
      simp [rowTypeAt, hlt, hrow]
    · simp [rowTypeAt, hj]
  have traits : ∀ j, traitsAt (nodes.setIfInBounds id n') j = traitsAt nodes j := by
    intro j
    by_cases hj : id = j
    · subst hj
      obtain ⟨hlt, rfl⟩ := Array.getElem?_eq_some_iff.mp hn
      simp [traitsAt, hlt, htraits]
    · simp [traitsAt, hj]
  intro j m hm
  have mono : Fits nodes j m → j ≤ nodes.size → Fits (nodes.setIfInBounds id n') j m := fun hf hj =>
    hf.mono hj (by simp) (fun i _ => rows i) (fun i _ => traits i)
  have hlt : j < nodes.size := by
    have := (Array.getElem?_eq_some_iff.mp hm).1
    simpa using this
  rw [Array.getElem?_setIfInBounds] at hm
  split at hm
  · next heq =>
    subst heq
    simp only [hlt, if_true, Option.some.injEq] at hm
    subst hm
    exact mono hfits (Nat.le_of_lt hlt)
  · exact mono (h j m hm) (Nat.le_of_lt hlt)

end Arena

/-- A planning session: its nodes, the tables and settings they refer to, and the methods that
answer questions about them. -/
structure Cluster where
  nodes : Array Node
  catalog : Catalog
  config : Config
  methods : Methods
  wellFormed : Arena.WellFormed nodes

namespace Cluster

/-- A session without nodes. -/
def start (catalog : Catalog) (config : Config) (methods : Methods) : Cluster :=
  ⟨#[], catalog, config, methods, .empty⟩

instance : Inhabited Cluster := ⟨start default default default⟩

/-- Number of nodes. -/
def size (c : Cluster) : Nat := c.nodes.size

/-- The node of that number; a scan of a table without columns where there is none. -/
def node (c : Cluster) (id : NodeId) : Node := c.nodes[id]?.getD default

def operator (c : Cluster) (id : NodeId) : Operator := (c.node id).operator

def kind (c : Cluster) (id : NodeId) : Kind := (c.node id).kind

def traits (c : Cluster) (id : NodeId) : Traits := (c.node id).traits

def inputs (c : Cluster) (id : NodeId) : List NodeId := (c.node id).inputs

def rowType (c : Cluster) (id : NodeId) : RowType := (c.node id).rowType

/-- Number of columns of a node. -/
def arity (c : Cluster) (id : NodeId) : Nat := (c.rowType id).arity

/-- Inputs come before the node that reads them. -/
theorem inputs_lt (c : Cluster) {id j : NodeId} (h : j ∈ c.inputs id) : j < id := by
  unfold inputs node at h
  cases hn : c.nodes[id]? with
  | none =>
    rw [hn] at h
    simp [default, instInhabitedNode.default] at h
  | some n =>
    rw [hn] at h
    exact (c.wellFormed id n hn).inputs_lt j h

/-- The inputs of a node, each with the fact that it comes before the node. -/
def inputsBelow (c : Cluster) (id : NodeId) : List { j : NodeId // j < id } :=
  (c.inputs id).attach.map fun j => ⟨j.1, c.inputs_lt j.2⟩

/-- The input at a position, if there is one. -/
def input? (c : Cluster) (id : NodeId) (position : Nat) : Option NodeId :=
  (c.inputs id)[position]?

/-- Checks the attributes of a node against its inputs. -/
def check (c : Cluster) (id : NodeId) : Except PlanError Unit :=
  ((c.operator id).check ((c.inputs id).map c.rowType)).mapError (.invalidNode id)

/-- Kind and number of an input. -/
def inputText (c : Cluster) (id : NodeId) : String := (c.kind id).text ++ "#" ++ toString id

/-- Inputs as attributes: one is called `input`, the two of a join `left` and `right`, and all
others are numbered. -/
def inputAttributes (c : Cluster) (operator : Operator) (inputs : List NodeId) : Attributes :=
  match inputs with
  | [input] => [("input", c.inputText input)]
  | inputs =>
    match operator.inputCount?, inputs with
    | some 2, [left, right] => [("left", c.inputText left), ("right", c.inputText right)]
    | _, inputs => inputs.zipIdx.map fun (input, i) => ("input#" ++ toString i, c.inputText input)

/-- The digest of a node: kind and traits, then its inputs, then its attributes, in place of which a
subset has its number. -/
def digest (c : Cluster) (id : NodeId) : String :=
  let n := c.node id
  let own := if n.operator.isSubset then [("id", toString id)] else n.operator.attributes
  n.kind.text ++ "." ++ n.traits.text ++ "(" ++
    (c.inputAttributes n.operator n.inputs ++ own : Attributes).render ++ ")"

/-- Whether every input exists. -/
def unknownInput? (c : Cluster) (inputs : List NodeId) : Option NodeId :=
  inputs.find? (c.size ≤ ·)

/-- The node that an operator makes over inputs. -/
def newNode (c : Cluster) (operator : Operator) (traits : Traits) (inputs : List NodeId) : Node :=
  { operator, traits, inputs
    derivedType := operator.deriveType (inputs.map (Arena.derivedTypeAt c.nodes)) }

/-- What an operator needs to become a node over inputs: they exist, as many as it takes, and the
convention is its own. -/
structure Admits (c : Cluster) (operator : Operator) (traits : Traits) (inputs : List NodeId) :
    Prop where
  takes : operator.takes inputs.length = true
  known : c.unknownInput? inputs = none
  convention : operator.isSubset = true ∨ traits.convention = operator.convention

/-- Whether an operator can become a node over inputs, or else why not. -/
def checkNew (c : Cluster) (operator : Operator) (traits : Traits) (inputs : List NodeId) :
    Except PlanError (PLift (c.Admits operator traits inputs)) :=
  if takes : operator.takes inputs.length = true then
    match known : c.unknownInput? inputs with
    | some input => .error (.invalidNode c.size (.unknownInput input))
    | none =>
      if convention : operator.isSubset = true ∨ traits.convention = operator.convention then
        .ok ⟨⟨takes, known, convention⟩⟩
      else .error (.invalidNode c.size (.convention operator.kind traits.convention))
  else
    match operator.inputCount? with
    | some n => .error (.invalidNode c.size (.inputCount operator.kind n inputs.length))
    | none => .error (.invalidNode c.size (.noInput operator.kind))

theorem fits_newNode (c : Cluster) {operator : Operator} {traits : Traits} {inputs : List NodeId}
    (h : c.Admits operator traits inputs) :
    Arena.Fits c.nodes c.nodes.size (c.newNode operator traits inputs) where
  inputs_lt := fun j hj => by
    have := List.find?_eq_none.mp h.known j hj
    exact Nat.lt_of_not_le fun hle => this (decide_eq_true hle)
  takes := h.takes
  convention := h.convention
  rowType_eq := by
    simp only [newNode, Node.rowType, Operator.deriveType_get, List.map_map]
    exact congrArg _ (List.map_congr_left fun j _ => Arena.derivedTypeAt_get c.nodes j)
  members_nil := fun _ => rfl
  members_nodup := .nil
  members_lt := fun m hm => by simp [newNode] at hm
  members_compatible := fun m hm => by simp [newNode] at hm
  members_satisfy := fun m hm => by simp [newNode] at hm
  best_mem := fun m hm => by simp [newNode] at hm

/-- Adds a node, whose number is the former size. -/
def push (c : Cluster) (operator : Operator) (traits : Traits) (inputs : List NodeId)
    (h : c.Admits operator traits inputs) : Cluster :=
  { c with
    nodes := c.nodes.push (c.newNode operator traits inputs)
    wellFormed := c.wellFormed.push (c.fits_newNode h) }

end Cluster

end QueryPlan
