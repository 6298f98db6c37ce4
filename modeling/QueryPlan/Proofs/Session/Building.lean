import QueryPlan.Builder
import QueryPlan.Proofs.Session.Growth
/-!
# Building only adds nodes

`Offered` are the steps that a builder offers. Each of them adds one node at most, over nodes on the
stack.
-/
namespace QueryPlan

namespace Building

/-- The step adds nodes at most, whatever is on the stack. -/
def Grows {α : Type} (step : Building α) : Prop := ∀ stack, (StateT.run step stack).Grows

variable {α β : Type}

theorem grows_pure (a : α) : (pure a : Building α).Grows := fun _ => Planning.grows_pure _

theorem grows_throw (e : PlanError) : (throw e : Building α).Grows :=
  fun _ => Planning.grows_throw e

theorem grows_get : (get : Building (List NodeId)).Grows := fun _ => Planning.grows_pure _

theorem grows_set (stack : List NodeId) : (set stack : Building PUnit).Grows := fun _ =>
  Planning.grows_pure _

theorem Grows.bind {step : Building α} {f : α → Building β} (h : step.Grows)
    (hf : ∀ a, (f a).Grows) : (step >>= f).Grows := by
  intro stack
  rw [StateT.run_bind]
  exact (h stack).bind fun p => hf p.1 p.2

theorem grows_lift {x : Planning α} (hx : x.Grows) : (liftM x : Building α).Grows := fun stack =>
  hx.lift_run stack

theorem grows_pop : pop.Grows := by
  refine grows_get.bind fun stack => ?_
  cases stack with
  | nil => exact grows_throw _
  | cons id rest => exact (grows_set rest).bind fun _ => grows_pure id

theorem grows_popMany (count : Nat) : (popMany count).Grows := by
  refine grows_get.bind fun stack => ?_
  split
  · exact (grows_throw _).bind fun _ => (grows_set _).bind fun _ => grows_pure _
  · exact (grows_pure _).bind fun _ => (grows_set _).bind fun _ => grows_pure _

theorem grows_push (id : NodeId) : (push id).Grows := fun _ => Planning.grows_pure _

theorem grows_pushNew (operator : Operator) (inputs : List NodeId) :
    (pushNew operator inputs).Grows :=
  (grows_lift (Cluster.grows_createDefault _ _)).bind fun id => grows_push id

theorem grows_projectNamed (exprs : List Expr) (names : List String) :
    (projectNamed exprs names).Grows := grows_pop.bind fun _ => grows_pushNew _ _

/-- A step that a builder offers. -/
inductive Offered : {α : Type} → Building α → Prop
  | push (id : NodeId) : Offered (push id)
  | field (index : Nat) : Offered (field index)
  | joinField (side : Side) (index : Nat) : Offered (joinField side index)
  | scan (name : List String) : Offered (scan name)
  | values (rowType : RowType) (tuples : List Row) : Offered (values rowType tuples)
  | filter (condition : Expr) : Offered (filter condition)
  | projectNamed (exprs : List Expr) (names : List String) : Offered (projectNamed exprs names)
  | project (exprs : List Expr) : Offered (project exprs)
  | join (joinType : JoinType) (condition : Expr) : Offered (join joinType condition)
  | aggregate (group : ColumnSet) (calls : List AggregateCall) : Offered (aggregate group calls)
  | sort (collation : Collation) (offset : Nat) (fetch : Option Nat) :
      Offered (sort collation offset fetch)
  | union (all : Bool) (count : Nat) : Offered (union all count)
  | intersect (all : Bool) (count : Nat) : Offered (intersect all count)
  | minus (all : Bool) (count : Nat) : Offered (minus all count)
  | exchange (distribution : Distribution) : Offered (exchange distribution)
  | build : Offered build

theorem Offered.grows {step : Building α} (h : Offered step) : step.Grows := by
  cases h with
  | push id => exact grows_push id
  | field index =>
    refine grows_get.bind fun stack => ?_
    cases stack with
    | nil => exact grows_throw _
    | cons top _ =>
      exact (grows_lift (Planning.grows_read _)).bind fun _ =>
        grows_lift (Planning.grows_ofOption _)
  | joinField side index =>
    refine grows_get.bind fun stack => ?_
    split
    · refine (grows_lift (Planning.grows_read _)).bind fun _ => ?_
      cases side with
      | left => exact grows_lift (Planning.grows_ofOption _)
      | right =>
        exact (grows_lift (Planning.grows_read _)).bind fun _ =>
          grows_lift (Planning.grows_ofOption _)
    · exact grows_throw _
  | scan name => exact (grows_lift (Planning.grows_inspect _)).bind fun _ => grows_pushNew _ _
  | values rowType tuples => exact grows_pushNew _ _
  | projectNamed exprs names => exact grows_projectNamed exprs names
  | project exprs =>
    refine grows_get.bind fun stack => ?_
    cases stack with
    | nil => exact grows_throw _
    | cons top _ =>
      exact (grows_lift (Planning.grows_read _)).bind fun _ => grows_projectNamed _ _
  | join joinType condition =>
    exact grows_pop.bind fun _ => grows_pop.bind fun _ => grows_pushNew _ _
  | filter _ | aggregate _ _ | sort _ _ _ | exchange _ =>
    exact grows_pop.bind fun _ => grows_pushNew _ _
  | union _ count | intersect _ count | minus _ count =>
    exact (grows_popMany count).bind fun _ => grows_pushNew _ _
  | build =>
    refine grows_pop.bind fun root => (grows_lift (Planning.grows_read _)).bind fun plan => ?_
    refine Grows.bind ?_ fun _ => grows_pure _
    induction plan with
    | nil => exact grows_pure _
    | cons id plan ih =>
      exact (grows_lift (Planning.grows_inspect _)).bind fun _ => ih

end Building

end QueryPlan
