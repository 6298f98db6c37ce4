import QueryPlan.Proofs.Planner.HashConsing
/-!
# What a planner has registered after any requests

A planner may be asked to register nodes, to take one as root and to find the best plan, in any sequence,
while the session it works in gets new nodes in between. Whatever fails on the way, the registered nodes
stay hash-consed.
-/
namespace QueryPlan

namespace Planner

open Registering Registry Cluster

/-- What a planner may be asked. -/
inductive Request where
  | register (id : NodeId)
  | setRoot (id : NodeId)
  | findBest
  deriving DecidableEq, Repr

namespace Request

/-- The node that a request is about. -/
def node? : Request → Option NodeId
  | register id | setRoot id => some id
  | findBest => none

/-- The planner after a request. -/
def perform (p : Planner) : Request → Registering Planner
  | register id => do
    let _ ← ensureRegistered id
    return p
  | setRoot id => p.setRoot id
  | findBest => p.findBest

end Request

/-- A planner between requests: what it has registered, in which session. -/
structure State where
  planner : Planner
  registry : Registry
  session : Cluster

namespace State

/-- The state after a request. A request that fails leaves the planner as it is, with whatever was
created and registered before it failed. -/
def after (s : State) (request : Request) : State :=
  match ((request.perform s.planner).run.run s.registry).run s.session with
  | ((.ok planner, registry), session) => ⟨planner, registry, session⟩
  | ((.error _, registry), session) => ⟨s.planner, registry, session⟩

/-- What is registered is hash-consed, and the root is registered. -/
structure Consistent (s : State) : Prop where
  hashConses : s.registry.HashConses s.session
  root : ∀ root, s.planner.root = some root → s.registry.Represents root

end State

/-- The states that a planner for a program may get to by requests about existing nodes. -/
inductive Reached (program : Program) : State → Prop
  | start (c : Cluster) : Reached program ⟨new program c.config, {}, c⟩
  | request {s : State} (request : Request) (before : Reached program s)
      (known : ∀ id ∈ request.node?, id < s.session.size) : Reached program (s.after request)
  | grown {s : State} {c : Cluster} (before : Reached program s) (grows : s.session.Extends c) :
      Reached program { s with session := c }

variable {r r' : Registry} {c c' : Cluster}

/-- A request keeps the registry hash-consed, and the root after it is registered. -/
theorem conses_perform {p : Planner} {request : Request} (known : ∀ id ∈ request.node?, id < c.size)
    (hroot : ∀ root, p.root = some root → r.Represents root) :
    (request.perform p).Conses r c fun p' r' _ =>
      ∀ root, p'.root = some root → r'.Represents root := by
  cases request with
  | register id =>
    refine (conses_ensureRegistered (known id rfl)).bind fun _ r₁ c₁ hgrown _ => conses_pure ?_
    exact fun root h => hgrown.registry.represents (hroot root h)
  | setRoot id =>
    refine (conses_ensureRegistered (known id rfl)).bind fun registered r₁ c₁ _ hreg => conses_pure ?_
    rintro _ ⟨⟩
    exact hreg
  | findBest =>
    intro hr
    unfold Request.perform findBest
    cases h : p.root with
    | none => exact conses_throw _ hr
    | some root =>
      have hregistered := hroot root h
      refine (conses_iterate p p.limit (hr.lt_size hregistered) hregistered).bind
        (fun result r₁ c₁ _ hresult => conses_pure ?_) hr
      rintro _ ⟨⟩
      exact hresult

theorem State.Consistent.after {s : State} (h : s.Consistent) {request : Request}
    (known : ∀ id ∈ request.node?, id < s.session.size) : (s.after request).Consistent := by
  have hconses := conses_perform (r := s.registry) known h.root
  obtain ⟨hgrown, -⟩ := hconses h.hashConses
  unfold State.after
  rcases hrun : ((request.perform s.planner).run.run s.registry).run s.session with
    ⟨⟨e | planner, registry⟩, session⟩
  · rw [hrun] at hgrown
    exact ⟨hgrown.hashConses, fun root hroot => hgrown.registry.represents (h.root root hroot)⟩
  · rw [hrun] at hgrown
    exact ⟨hgrown.hashConses, (hconses.runs h.hashConses hrun).2⟩

theorem Reached.consistent {program : Program} {s : State} (h : Reached program s) : s.Consistent := by
  induction h with
  | start c => exact ⟨.empty c, nofun⟩
  | request request _ known ih => exact ih.after known
  | grown _ grows ih => exact ⟨ih.hashConses.mono grows, ih.root⟩

/-- Whatever a planner was asked, successfully or not: registered nodes have digests of their own,
inputs of registered nodes are registered, a registered node is registered as it is, and a node of the
structure of a registered one is registered as that one. -/
theorem registered_hashConsed {program : Program} {s : State} (h : Reached program s) :
    (∀ i j, s.registry.Represents i → s.registry.Represents j →
      s.session.digest i = s.session.digest j → i = j) ∧
    (∀ i, s.registry.Represents i → ∀ j ∈ s.session.inputs i, s.registry.Represents j) ∧
    (∀ i, s.registry.Represents i →
      (ensureRegistered i).Runs s.registry s.session i s.registry s.session) ∧
    ∀ i n, s.registry.Represents i → n < s.session.size → s.session.SameStructure n i →
      ∀ result r' c', (ensureRegistered n).Runs s.registry s.session result r' c' → result = i := by
  have hcons := h.consistent.hashConses
  refine ⟨fun i j hi hj => hcons.eq_of_digest_eq hi hj, fun i hi => hcons.closed hi, fun i hi => ?_,
    fun i n hi hn hsame result r' c' hrun => ensureRegistered_finds n hcons hn hi hsame hrun⟩
  exact runs_ensureRegistered_of_holds (hcons.holds hi)

/-! ## Filters that are written alike -/

/-- Two scans of a table, and a filter on the same condition over each of them. The last filter reads a
column that does not exist. -/
def alikeFilters : Planning NodeId := do
  let scan := Operator.scan .none { name := ["T"], rowType := ⟨[⟨"a", .bigint, true⟩]⟩ }
  let known := Expr.call .isNotNull [.column 0 .bigint]
  let first ← createDefault scan []
  let second ← createDefault scan []
  let _ ← createDefault (.filter .none known) [first]
  let _ ← createDefault (.filter .none known) [second]
  createDefault (.filter .none (.call .isNotNull [.column 7 .bigint])) [second]

def alikeSession : Cluster := (alikeFilters.run.run (start default default default)).2

/-- A planner that has registered the filter over the first scan, and then failed to register the last
one. -/
def alikeState : State :=
  (State.mk (new { rules := Rule.normalize } alikeSession.config) {} alikeSession
    |>.after (.register 2)
    |>.after (.setRoot 4)
    |>.after .findBest)

theorem alikeState_reached : Reached { rules := Rule.normalize } alikeState :=
  .request .findBest (.request (.setRoot 4) (.request (.register 2) (.start alikeSession)
    (by decide +kernel)) (by decide +kernel)) (by decide +kernel)

/-- The filter over the second scan is registered as the one over the first scan. -/
theorem registered_hashConsed_alikeFilters :
    alikeState.planner.root = none ∧ alikeState.registry.Represents 2 ∧
    alikeState.session.SameStructure 3 2 ∧
    ∃ result r' c', (ensureRegistered 3).Runs alikeState.registry alikeState.session result r' c' ∧
      result = 2 := by
  have hregistered : alikeState.registry.Represents 2 :=
    ⟨alikeState.session.digest 2, by decide +kernel⟩
  have hsame : alikeState.session.SameStructure 3 2 :=
    sameStructure_of_looksLike 2 (by decide +kernel)
  have hrun := runs_of_toOption (x := ensureRegistered 3) (r := alikeState.registry)
    (c := alikeState.session) (a := 2) (by decide +kernel)
  refine ⟨by decide +kernel, hregistered, hsame, _, _, _, hrun, ?_⟩
  exact (registered_hashConsed alikeState_reached).2.2.2 2 3 hregistered (by decide +kernel) hsame _ _ _
    hrun

end Planner

end QueryPlan
