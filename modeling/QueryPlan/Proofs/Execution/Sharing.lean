import QueryPlan.Proofs.Execution.Conformity
import QueryPlan.Proofs.Expr.Equality
/-!
# The journal of a run

A run of a plan keeps a sink for every node that it has run. Together they tell the whole run: which nodes
were run, each of them once, what each one signalled, and where the run broke off if it failed. The outcome
is that of evaluating the plan as a tree, in which a node is computed again for every user.
-/
namespace QueryPlan.Cluster

open Execution (Sink)

variable {c : Cluster} {cancelled : Bool} {root id : NodeId} {sinks : List Sink} {sink : Sink}

/-- What a run of the plan under a root leaves: one sink for each node that was run, whose signals are
told by what the node evaluates to. If the root has rows, every node of the plan was run and has rows. If
it fails, the latest sink is that of the node that failed first, and the nodes before it have rows. -/
structure Journal (c : Cluster) (cancelled : Bool) (root : NodeId) (sinks : List Sink) : Prop where
  once : (sinks.map Sink.node).Nodup
  inPlan : ∀ sink ∈ sinks, c.InPlan root sink.node
  tells : ∀ sink ∈ sinks, sink.Tells (c.evaluate cancelled sink.node)
  complete : ∀ rows, c.evaluate cancelled root = .ok rows →
    ∀ id, c.InPlan root id → id ∈ sinks.map Sink.node ∧ (c.evaluate cancelled id).isOk = true
  brokenOff : ∀ e, c.evaluate cancelled root = .error e → ∃ broken before, sinks = broken :: before ∧
    c.evaluate cancelled broken.node = .error e ∧
    ∀ sink ∈ before, (c.evaluate cancelled sink.node).isOk = true

theorem Kept.mem_of_inPlan (h : c.Kept cancelled sinks)
    (hroot : root ∈ sinks.map Sink.node) (hid : c.InPlan root id) : id ∈ sinks.map Sink.node := by
  induction hid with
  | root => exact hroot
  | input _ hinput ih =>
    obtain ⟨sink, hsink, rfl⟩ := List.mem_map.mp ih
    exact h.closed sink hsink _ hinput

theorem Kept.isOk (h : c.Kept cancelled sinks)
    (hid : id ∈ sinks.map Sink.node) : (c.evaluate cancelled id).isOk = true := by
  obtain ⟨sink, hsink, rfl⟩ := List.mem_map.mp hid
  obtain ⟨rows, hrows, -⟩ := h.tells sink hsink
  rw [hrows]
  rfl

theorem Kept.tells_evaluate (h : c.Kept cancelled sinks)
    (hsink : sink ∈ sinks) : sink.Tells (c.evaluate cancelled sink.node) := by
  obtain ⟨rows, hrows, htells⟩ := h.tells sink hsink
  rwa [hrows]

/-- A run has the outcome of the evaluation without sinks, and it leaves a journal. -/
theorem execute_journal (c : Cluster) (cancelled : Bool) (root : NodeId) :
    ∃ sinks, (c.execute cancelled root).run.run [] = (c.evaluate cancelled root, sinks) ∧
      c.Journal cancelled root sinks := by
  obtain ⟨sinks, hrun, hreads, hleaves⟩ := journals_execute c cancelled root [] (kept_nil c cancelled)
  rw [List.append_nil] at hrun hleaves
  have hroot : ∀ sink ∈ sinks, c.InPlan root sink.node := fun sink hsink => by
    simpa using hreads sink hsink
  refine ⟨sinks, hrun, ?_⟩
  cases hrows : c.evaluate cancelled root with
  | ok rows =>
    rw [hrows] at hleaves
    obtain ⟨hkept, hall⟩ := hleaves
    have hmem : ∀ id, c.InPlan root id → id ∈ sinks.map Sink.node :=
      fun id hid => hkept.mem_of_inPlan (hall root (by simp)) hid
    exact {
      once := hkept.once
      inPlan := hroot
      tells := fun sink hsink => hkept.tells_evaluate hsink
      complete := fun _ _ id hid => ⟨hmem id hid, hkept.isOk (hmem id hid)⟩
      brokenOff := fun e he => by rw [hrows] at he; cases he }
  | error e =>
    rw [hrows] at hleaves
    obtain ⟨broken, before, rfl, hbroken⟩ := hleaves
    exact {
      once := List.nodup_cons.mpr ⟨hbroken.new, hbroken.kept.once⟩
      inPlan := hroot
      tells := List.forall_mem_cons.mpr ⟨by rw [hbroken.fails]; exact hbroken.tells,
        fun sink hsink => hbroken.kept.tells_evaluate hsink⟩
      complete := fun rows hok => by rw [hrows] at hok; cases hok
      brokenOff := fun e' he' => by
        rw [hrows] at he'
        cases he'
        exact ⟨broken, before, rfl, hbroken.fails, fun sink hsink =>
          hbroken.kept.isOk (List.mem_map_of_mem hsink)⟩ }

/-- A plan without subsets is run as it is: each node at most once, and with the outcome of the tree. -/
theorem run_shares (hroot : root < c.size) (hplain : c.Plain root) (cancelled : Bool) :
    (run root cancelled).run.run c = (c.evaluate cancelled root, c) ∧
      ∃ sinks, (c.execute cancelled root).run.run [] = (c.evaluate cancelled root, sinks) ∧
        c.Journal cancelled root sinks :=
  ⟨run_plain hroot hplain cancelled, execute_journal c cancelled root⟩

/-- Sizes of crews, one of which is empty. -/
def crews : Table :=
  { name := ["CREWS"]
    rowType := ⟨[⟨"size", .bigint, false⟩]⟩
    source := some (.ok [[.integer 5], [.integer 0]]) }

/-- A union that reads all crews twice and the larger ones once, and a union that reads it after the larger
crews and what each crew member gets of a payment. -/
def crewUses : Planning NodeId := do
  let size := Expr.column 0 .bigint
  let all ← createDefault (.scan .none crews) []
  let large ← createDefault (.filter .none (.call .greaterThan [size, .literal (.integer 1)])) [all]
  let both ← createDefault (.union .none true) [all, large, all]
  let shares ←
    createDefault (.project .none [(.call .divide [.literal (.integer 10), size], "share")]) [all]
  createDefault (.union .none true) [large, shares, both]

def crewUsesSession : Cluster := crewUses.leaves (start ⟨[crews]⟩ default default)

/-- The first union has five rows although each node is run once. The second one fails at the payment of the
empty crew, once that of the other one was sent, and does not come to the first union. -/
theorem run_shares_crews :
    (4 < crewUsesSession.size ∧ crewUsesSession.Plain 4 ∧ crewUsesSession.Plain 2) ∧
    crewUsesSession.ranRows 2 =
      [[.integer 5], [.integer 0], [.integer 5], [.integer 5], [.integer 0]] ∧
    (∃ sinks, crewUsesSession.Journal false 2 sinks ∧ sinks.map Sink.node = [2, 1, 0]) ∧
    ∃ sinks, crewUsesSession.Journal false 4 sinks ∧ sinks.map Sink.node = [3, 1, 0] ∧
      sinks.map Sink.rows = [[[.integer 2]], [[.integer 5]], [[.integer 5], [.integer 0]]] := by
  have hroot : 4 < crewUsesSession.size := by decide +kernel
  have hunion : 2 < crewUsesSession.size := by decide +kernel
  have hsubsets : ∀ i < crewUsesSession.size, (crewUsesSession.operator i).isSubset = false := by
    decide +kernel
  have hplain : crewUsesSession.Plain 4 := .of_all hroot hsubsets
  have hplain' : crewUsesSession.Plain 2 := .of_all hunion hsubsets
  obtain ⟨-, sinks, hrun, hjournal⟩ := run_shares hunion hplain' false
  obtain ⟨-, sinks', hrun', hjournal'⟩ := run_shares hroot hplain false
  have hsinks : ((crewUsesSession.execute false 2).run.run []).2 = sinks := by rw [hrun]
  have hsinks' : ((crewUsesSession.execute false 4).run.run []).2 = sinks' := by rw [hrun']
  subst hsinks hsinks'
  exact ⟨⟨hroot, hplain, hplain'⟩, by decide +kernel, ⟨_, hjournal, by decide +kernel⟩,
    _, hjournal', by decide +kernel, by decide +kernel⟩

end QueryPlan.Cluster
