import QueryPlan.Proofs.Session.Walks
import QueryPlan.Execution.Run
import QueryPlan.Proofs.Execution.NodeRuns
/-!
# Running shared nodes once

`execute` runs a node on the streams of its inputs and keeps its sink for other users, while `evaluate`
computes the rows of a node again for every user. They have the same outcome, errors included: what a kept
sink holds was evaluated. The kept sinks are a journal of the run, with one sink for each node that was run;
after a failure the latest one is that of the node that failed.
-/
namespace QueryPlan.Cluster

open Execution (Sink)

variable {c : Cluster} {cancelled : Bool} {id root : NodeId} {inputs : List (List Row)}

theorem evaluate_eq (c : Cluster) (cancelled : Bool) (id : NodeId) :
    c.evaluate cancelled id =
      (c.inputs id).mapM (c.evaluate cancelled) >>= c.nodeRows cancelled id := by
  rw [evaluate, ← inputsBelow_map_val, List.mapM_map]
  rfl

/-! ## Runs of nodes -/

theorem nodeRows_eq_delivered (c : Cluster) (cancelled : Bool) (id : NodeId) (inputs : List (List Row)) :
    c.nodeRows cancelled id inputs =
      if cancelled && Execution.receives (c.operator id) then .error .interrupted
      else Execution.delivered id (c.operator id) ((c.inputs id).map c.arity) inputs := rfl

/-- The run of a node on the rows of its inputs computes its rows. -/
theorem completes_nodeRows (cancelled : Bool) (hinputs : inputs.length = (c.inputs id).length) :
    Execution.Completes (Execution.runOperator cancelled id (c.operator id)
      ((c.inputs id).map c.arity) inputs) (c.nodeRows cancelled id inputs) := by
  have htakes : (c.operator id).takes inputs.length = true := by
    rw [hinputs]
    by_cases hid : id < c.size
    · exact takes_inputs hid
    · rw [operator_eq_default hid, inputs_eq_nil hid]
      rfl
  rw [nodeRows_eq_delivered]
  cases cancelled with
  | false => exact Execution.completes_runOperator id _ htakes
  | true =>
    cases hreceives : Execution.receives (c.operator id) with
    | true => exact Execution.completes_runOperator_cancelled id _ htakes hreceives
    | false =>
      rw [Execution.runOperator_of_not_receives id _ hreceives]
      exact Execution.completes_runOperator id _ htakes

theorem runNode_eq (cancelled : Bool) (hinputs : inputs.length = (c.inputs id).length) :
    ∃ sink, c.runNode cancelled id inputs =
        ((c.nodeRows cancelled id inputs).map fun _ => (), sink) ∧
      sink.node = id ∧ sink.Tells (c.nodeRows cancelled id inputs) := by
  have hcompletes := completes_nodeRows cancelled hinputs
  obtain ⟨sink, hrun, hnode, hended, htells⟩ := hcompletes.exists_sink id
  refine ⟨sink, ?_, hnode, htells⟩
  unfold runNode
  rw [hrun]
  dsimp only
  rw [hended]
  cases c.nodeRows cancelled id inputs <;> rfl

/-- What is kept of a run are the rows of the node. -/
theorem runKept_run (cancelled : Bool) (hinputs : inputs.length = (c.inputs id).length)
    (sinks : List Sink) :
    ∃ sink, (c.runKept cancelled id inputs).run.run sinks =
        (c.nodeRows cancelled id inputs, sink :: sinks) ∧
      sink.node = id ∧ sink.Tells (c.nodeRows cancelled id inputs) := by
  obtain ⟨sink, hrun, hnode, htells⟩ := runNode_eq cancelled hinputs
  refine ⟨sink, ?_, hnode, htells⟩
  have hkept : (c.runKept cancelled id inputs).run.run sinks =
      ((c.runNode cancelled id inputs).1.map fun _ => (c.runNode cancelled id inputs).2.rows,
        (c.runNode cancelled id inputs).2 :: sinks) := rfl
  rw [hkept, hrun]
  cases hrows : c.nodeRows cancelled id inputs with
  | error e => rfl
  | ok rows =>
    rw [hrows] at htells
    show ((.ok sink.rows : Except PlanError (List Row)), sink :: sinks) = _
    rw [htells.rows_eq]

/-! ## Journals of runs -/

/-- What was kept of nodes that have rows: one sink for each, and not without those of its inputs. -/
structure Kept (c : Cluster) (cancelled : Bool) (sinks : List Sink) : Prop where
  once : (sinks.map Sink.node).Nodup
  closed : ∀ sink ∈ sinks, ∀ input ∈ c.inputs sink.node, input ∈ sinks.map Sink.node
  tells : ∀ sink ∈ sinks, ∃ rows, c.evaluate cancelled sink.node = .ok rows ∧ sink.Tells (.ok rows)

/-- The sink of a node that fails on top of those of nodes that have rows. -/
structure BrokenOff (c : Cluster) (cancelled : Bool) (e : PlanError) (broken : Sink)
    (sinks : List Sink) : Prop where
  kept : c.Kept cancelled sinks
  new : broken.node ∉ sinks.map Sink.node
  fails : c.evaluate cancelled broken.node = .error e
  tells : broken.Tells (.error e)

/-- What is kept after nodes have been run with an outcome. -/
def Leaves {α : Type} (c : Cluster) (cancelled : Bool) (ids : List NodeId) (sinks : List Sink) :
    Except PlanError α → Prop
  | .ok _ => c.Kept cancelled sinks ∧ ∀ id ∈ ids, id ∈ sinks.map Sink.node
  | .error e => ∃ broken rest, sinks = broken :: rest ∧ c.BrokenOff cancelled e broken rest

/-- Running nodes has the given outcome. It only adds sinks of nodes of their plans. -/
def Journals {α : Type} (c : Cluster) (cancelled : Bool) (ids : List NodeId) (x : Executing α)
    (y : Except PlanError α) : Prop :=
  ∀ sinks, c.Kept cancelled sinks → ∃ new, x.run.run sinks = (y, new ++ sinks) ∧
    (∀ sink ∈ new, ∃ id ∈ ids, c.InPlan id sink.node) ∧ c.Leaves cancelled ids (new ++ sinks) y

section

variable {α β : Type} {ids ids' : List NodeId} {x : Executing α} {y : Except PlanError α}

theorem journals_pure (a : α) : Journals c cancelled [] (pure a) (.ok a) :=
  fun _ hsinks => ⟨[], rfl, by simp, hsinks, by simp⟩

/-- What has been run stays on record while other nodes are run. -/
theorem Journals.bind {f : α → Executing β} {g : α → Except PlanError β}
    (hx : Journals c cancelled ids x y)
    (hf : ∀ a, y = .ok a → Journals c cancelled ids' (f a) (g a)) :
    Journals c cancelled (ids ++ ids') (x >>= f) (y >>= g) := by
  intro sinks hsinks
  obtain ⟨new, hrun, hreads, hleaves⟩ := hx sinks hsinks
  have hreads' : ∀ sink ∈ new, ∃ id ∈ ids ++ ids', c.InPlan id sink.node := fun sink hsink => by
    obtain ⟨id, hid, h⟩ := hreads sink hsink
    exact ⟨id, List.mem_append_left _ hid, h⟩
  rw [ExceptT.run_bind, StateT.run_bind, hrun]
  cases y with
  | error e => exact ⟨new, rfl, hreads', hleaves⟩
  | ok a =>
    obtain ⟨more, hrun', hmore, hleaves'⟩ := hf a rfl (new ++ sinks) hleaves.1
    refine ⟨more ++ new, by rw [List.append_assoc]; exact hrun', fun sink hsink => ?_, ?_⟩
    · rcases List.mem_append.mp hsink with h | h
      · obtain ⟨id, hid, h⟩ := hmore sink h
        exact ⟨id, List.mem_append_right _ hid, h⟩
      · exact hreads' sink h
    · rw [List.append_assoc]
      show c.Leaves cancelled (ids ++ ids') _ (g a)
      cases hg : g a with
      | error e =>
        rw [hg] at hleaves'
        exact hleaves'
      | ok b =>
        rw [hg] at hleaves'
        refine ⟨hleaves'.1, fun id hid => ?_⟩
        rcases List.mem_append.mp hid with h | h
        · rw [List.map_append]
          exact List.mem_append_right _ (hleaves.2 id h)
        · exact hleaves'.2 id h

theorem journals_mapM {f : NodeId → Executing α} {g : NodeId → Except PlanError α}
    (h : ∀ id ∈ ids, Journals c cancelled [id] (f id) (g id)) :
    Journals c cancelled ids (ids.mapM f) (ids.mapM g) := by
  induction ids with
  | nil => exact journals_pure []
  | cons id ids ih =>
    obtain ⟨hid, hids⟩ := List.forall_mem_cons.mp h
    rw [List.mapM_cons, List.mapM_cons]
    have hrest := hid.bind fun a _ => (ih hids).bind fun as _ => journals_pure (a :: as)
    rwa [List.append_nil] at hrest

end

/-- A node that was run before is not run again. -/
theorem execute_run (c : Cluster) (cancelled : Bool) (id : NodeId) (sinks : List Sink) :
    (c.execute cancelled id).run.run sinks =
      match sinks.find? (·.node == id) with
      | some sink => (.ok sink.rows, sinks)
      | none => ((c.inputs id).mapM (c.execute cancelled) >>= c.runKept cancelled id).run.run
          sinks := by
  rw [execute, ← inputsBelow_map_val, List.mapM_map, ExceptT.run_bind, StateT.run_bind]
  show StateT.run (ExceptT.run (match sinks.find? (·.node == id) with | some _ => _ | none => _)) _ = _
  cases sinks.find? (·.node == id) <;> rfl

theorem kept_nil (c : Cluster) (cancelled : Bool) : c.Kept cancelled [] :=
  ⟨List.nodup_nil, by simp, by simp⟩

theorem Kept.cons {sinks : List Sink} (h : c.Kept cancelled sinks) {sink : Sink}
    {rows : List Row} (hnew : sink.node ∉ sinks.map Sink.node)
    (hinputs : ∀ input ∈ c.inputs sink.node, input ∈ sinks.map Sink.node)
    (hrows : c.evaluate cancelled sink.node = .ok rows) (htells : sink.Tells (.ok rows)) :
    c.Kept cancelled (sink :: sinks) where
  once := List.nodup_cons.mpr ⟨hnew, h.once⟩
  closed := by
    rintro other hother input hinput
    rw [List.map_cons]
    rcases List.mem_cons.mp hother with rfl | hother
    · exact .tail _ (hinputs input hinput)
    · exact .tail _ (h.closed other hother input hinput)
  tells := List.forall_mem_cons.mpr ⟨⟨rows, hrows, htells⟩, h.tells⟩

/-- A node that has not been run is run after its inputs. -/
theorem journals_runKept (hinputs : Journals c cancelled (c.inputs id)
      ((c.inputs id).mapM (c.execute cancelled)) ((c.inputs id).mapM (c.evaluate cancelled)))
    {sinks : List Sink} (hsinks : c.Kept cancelled sinks) (hnew : id ∉ sinks.map Sink.node) :
    ∃ new, ((c.inputs id).mapM (c.execute cancelled) >>= c.runKept cancelled id).run.run sinks =
        (c.evaluate cancelled id, new ++ sinks) ∧
      (∀ sink ∈ new, ∃ i ∈ [id], c.InPlan i sink.node) ∧
      c.Leaves cancelled [id] (new ++ sinks) (c.evaluate cancelled id) := by
  obtain ⟨new, hrun, hreads, hleaves⟩ := hinputs sinks hsinks
  -- The new sinks are of nodes under an input, so that none of them is that of the node itself.
  have hbelow : ∀ sink ∈ new, c.InPlan id sink.node ∧ sink.node < id := fun sink hsink => by
    obtain ⟨input, hinput, h⟩ := hreads sink hsink
    exact ⟨.trans (.input .root hinput) h, Nat.lt_of_le_of_lt h.le (c.inputs_lt hinput)⟩
  have hnot : id ∉ (new ++ sinks).map Sink.node := by
    rw [List.map_append, List.mem_append, List.mem_map]
    rintro (⟨sink, hsink, rfl⟩ | h)
    · exact absurd (hbelow sink hsink).2 (Nat.lt_irrefl _)
    · exact hnew h
  rw [ExceptT.run_bind, StateT.run_bind, hrun, evaluate_eq]
  cases hbefore : (c.inputs id).mapM (c.evaluate cancelled) with
  | error e =>
    rw [hbefore] at hleaves
    exact ⟨new, rfl, fun sink hsink => ⟨id, by simp, (hbelow sink hsink).1⟩, hleaves⟩
  | ok inputs =>
    rw [hbefore] at hleaves
    obtain ⟨sink, hkept, rfl, htells⟩ :=
      runKept_run cancelled (Outcome.length_of_mapM_eq_ok hbefore) (new ++ sinks)
    have heval : c.evaluate cancelled sink.node = c.nodeRows cancelled sink.node inputs := by
      rw [evaluate_eq, hbefore]
      rfl
    refine ⟨sink :: new, hkept, fun other hother => ⟨sink.node, by simp, ?_⟩, ?_⟩
    · rcases List.mem_cons.mp hother with rfl | hother
      · exact .root
      · exact (hbelow other hother).1
    · show c.Leaves cancelled [sink.node] (sink :: (new ++ sinks))
        (c.nodeRows cancelled sink.node inputs)
      rw [← heval] at htells ⊢
      cases hrows : c.evaluate cancelled sink.node with
      | error e =>
        rw [hrows] at htells
        exact ⟨sink, _, rfl, hleaves.1, hnot, hrows, htells⟩
      | ok rows =>
        rw [hrows] at htells
        exact ⟨hleaves.1.cons hnot hleaves.2 hrows htells, by simp⟩

theorem journals_execute (c : Cluster) (cancelled : Bool) (id : NodeId) :
    Journals c cancelled [id] (c.execute cancelled id) (c.evaluate cancelled id) := by
  -- on the number of the node: its inputs have smaller numbers
  induction id using Nat.strongRecOn with
  | ind id ih =>
    intro sinks hsinks
    rw [execute_run]
    cases hfind : sinks.find? (·.node == id) with
    | some sink =>
      have hmem : sink ∈ sinks := List.mem_of_find?_eq_some hfind
      have hnode : sink.node = id := by simpa using List.find?_some hfind
      obtain ⟨rows, hrows, htells⟩ := hsinks.tells sink hmem
      subst hnode
      refine ⟨[], ?_, by simp, ?_⟩
      · rw [hrows]
        show ((.ok sink.rows : Except PlanError (List Row)), sinks) = _
        rw [htells.rows_eq]
        rfl
      · rw [hrows]
        exact ⟨hsinks, by simpa using ⟨sink, hmem, rfl⟩⟩
    | none =>
      have hnew : id ∉ sinks.map Sink.node := by
        simpa using List.find?_eq_none.mp hfind
      exact journals_runKept (journals_mapM fun j hj => ih j (c.inputs_lt hj)) hsinks hnew

/-- Keeping sinks does not change the outcome. -/
theorem execute_eq_evaluate (c : Cluster) (cancelled : Bool) (id : NodeId) :
    ((c.execute cancelled id).run.run []).1 = c.evaluate cancelled id := by
  obtain ⟨new, hrun, -⟩ := journals_execute c cancelled id [] (kept_nil c cancelled)
  rw [hrun]

end QueryPlan.Cluster
