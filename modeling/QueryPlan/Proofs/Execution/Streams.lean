import QueryPlan.Execution.Stream
import QueryPlan.Proofs.Outcome
/-!
# What a run of a node signals

As long as a sink has not ended it takes rows, so that what a run does is told by its outcome and the rows
that it sends: runs in sequence send their rows in sequence. A run completes if it signals the end after
its rows and then nothing more; one that fails leaves the stream open.
-/
namespace QueryPlan.Execution

open Sending

namespace Sink

/-- The sink after rows. -/
def append (sink : Sink) (rows : List Row) : Sink :=
  { sink with signals := sink.signals ++ (rows.map Signal.row).toArray }

variable {sink : Sink}

theorem append_nil : sink.append [] = sink := by simp [append]

theorem append_append (rows more : List Row) :
    (sink.append rows).append more = sink.append (rows ++ more) := by simp [append]

theorem push_row (row : Row) : sink.push (.row row) = sink.append [row] := by
  simp [append, push]

/-- Rows do not end a stream. -/
theorem ended_append (h : sink.ended = false) (rows : List Row) :
    (sink.append rows).ended = false := by
  rcases List.eq_nil_or_concat rows with rfl | ⟨rows, row, rfl⟩
  · rwa [append_nil]
  · simp [append, ended]

theorem ended_push_ended : (sink.push .ended).ended = true := by simp [push, ended]

/-- What the outcome of a node says about its sink: it holds the rows, and then the end. The sink of a
node that fails may hold rows, but it has not ended. -/
def Tells (sink : Sink) : Except PlanError (List Row) → Prop
  | .ok rows => sink.signals.toList = rows.map .row ++ [.ended]
  | .error _ => ∃ rows : List Row, sink.signals.toList = rows.map .row

theorem Tells.rows_eq {rows : List Row} (h : sink.Tells (.ok rows)) : sink.rows = rows := by
  have hrows : (rows.map Signal.row).filterMap Signal.row? = rows := by
    rw [List.filterMap_map]
    exact List.filterMap_some
  have hsignals : sink.signals.toList = rows.map .row ++ [.ended] := h
  rw [Sink.rows, hsignals, List.filterMap_append, hrows]
  exact List.append_nil rows

end Sink

variable {α β : Type} {p : Sending α} {a : α} {rows more : List Row} {e : PlanError}

/-- A run on an open stream sends rows and has a value, or it fails after some rows. -/
def Sends (p : Sending α) (x : Except PlanError (α × List Row)) : Prop :=
  ∀ sink : Sink, sink.ended = false →
    match x with
    | .ok (a, rows) => p.run.run sink = (.ok a, sink.append rows)
    | .error e => ∃ rows, p.run.run sink = (.error e, sink.append rows)

/-- A run on an open stream sends rows and ends the stream, or it fails after some rows. -/
def Completes (p : Sending Unit) (x : Except PlanError (List Row)) : Prop :=
  ∀ sink : Sink, sink.ended = false →
    match x with
    | .ok rows => p.run.run sink = (.ok (), (sink.append rows).push .ended)
    | .error e => ∃ rows, p.run.run sink = (.error e, sink.append rows)

/-- Rows sent before a run. -/
def after (rows : List Row) (x : Except PlanError (α × List Row)) :
    Except PlanError (α × List Row) := x.map fun (a, more) => (a, rows ++ more)

theorem sends_pure (a : α) : Sends (pure a) (.ok (a, [])) := by
  intro sink _
  show _ = (_, sink.append [])
  rw [Sink.append_nil]
  rfl

theorem sends_computed (x : Except PlanError α) : Sends (computed x) (x.map (·, [])) := by
  intro sink _
  cases x with
  | ok a =>
    show _ = (_, sink.append [])
    rw [Sink.append_nil]
    rfl
  | error e => exact ⟨[], by rw [Sink.append_nil]; rfl⟩

theorem sends_send (row : Row) : Sends (send row) (.ok ((), [row])) := by
  intro sink hsink
  show (if sink.ended then _ else _) = _
  rw [if_neg (by simp [hsink]), Sink.push_row]

/-- A row that is sent on a condition. -/
def rowsWhen (condition : Bool) (row : Row) : List Row := if condition then [row] else []

theorem sends_sendWhen (condition : Bool) (row : Row) :
    Sends (sendWhen condition row) (.ok ((), rowsWhen condition row)) := by
  cases condition with
  | true => exact sends_send row
  | false => exact sends_pure ()

theorem run_bind_of_ok {f : α → Sending β} {sink sink' : Sink} (h : p.run.run sink = (.ok a, sink')) :
    (p >>= f).run.run sink = (f a).run.run sink' := by
  rw [ExceptT.run_bind, StateT.run_bind, h]
  rfl

theorem run_bind_of_error {f : α → Sending β} {sink sink' : Sink}
    (h : p.run.run sink = (.error e, sink')) : (p >>= f).run.run sink = (.error e, sink') := by
  rw [ExceptT.run_bind, StateT.run_bind, h]
  rfl

theorem Sends.bind {f : α → Sending β} {y : Except PlanError (β × List Row)}
    (hp : Sends p (.ok (a, rows))) (hf : Sends (f a) y) : Sends (p >>= f) (after rows y) := by
  intro sink hsink
  rw [run_bind_of_ok (hp sink hsink)]
  have h := hf _ (Sink.ended_append hsink rows)
  cases y with
  | ok b => exact h.trans (by rw [Sink.append_append])
  | error e =>
    obtain ⟨more, h⟩ := h
    exact ⟨rows ++ more, h.trans (by rw [Sink.append_append])⟩

theorem Sends.bind_ok {f : α → Sending β} {b : β} (hp : Sends p (.ok (a, rows)))
    (hf : Sends (f a) (.ok (b, more))) : Sends (p >>= f) (.ok (b, rows ++ more)) := hp.bind hf

theorem Sends.before {p : Sending Unit} {q : Sending β} {y : Except PlanError (β × List Row)}
    (hp : Sends p (.ok ((), rows))) (hq : Sends q y) : Sends (p >>= fun _ => q) (after rows y) :=
  hp.bind hq

/-- What sends nothing may come first. -/
theorem Sends.bind_silent {f : α → Sending β} {y : Except PlanError (β × List Row)}
    (hp : Sends p (.ok (a, []))) (hf : Sends (f a) y) : Sends (p >>= f) y := by
  have h := hp.bind hf
  cases y <;> exact h

/-- What only changes the value sends no more. -/
theorem Sends.bind_pure (f : α → β) (hp : Sends p (.ok (a, rows))) :
    Sends (p >>= fun x => pure (f x)) (.ok (f a, rows)) := by
  have h := hp.bind_ok (f := fun x => pure (f x)) (sends_pure (f a))
  rwa [List.append_nil] at h

theorem Sends.bind_error {f : α → Sending β} (hp : Sends p (.error e)) :
    Sends (p >>= f) (.error e) := by
  intro sink hsink
  obtain ⟨rows, h⟩ := hp sink hsink
  exact ⟨rows, run_bind_of_error h⟩

/-- Runs in sequence: the second one depends on the value of the first. -/
theorem Sends.seq {f : α → Sending β} {x : Except PlanError (α × List Row)}
    {g : α → Except PlanError (β × List Row)} (hp : Sends p x) (hf : ∀ a, Sends (f a) (g a)) :
    Sends (p >>= f) (x >>= fun (a, rows) => after rows (g a)) := by
  cases x with
  | ok a => exact hp.bind (hf a.1)
  | error e => exact hp.bind_error

/-- What the run of a node leaves in a new sink. -/
theorem Completes.exists_sink {p : Sending Unit} {x : Except PlanError (List Row)}
    (h : Completes p x) (node : NodeId) :
    ∃ sink, p.run.run { node := node } = (x.map fun _ => (), sink) ∧ sink.node = node ∧
      sink.ended = x.isOk ∧ sink.Tells x := by
  have hrun := h { node := node } rfl
  cases x with
  | ok rows =>
    exact ⟨_, hrun, rfl, Sink.ended_push_ended, by simp [Sink.Tells, Sink.push, Sink.append]⟩
  | error e =>
    obtain ⟨rows, hrun⟩ := hrun
    exact ⟨_, hrun, rfl, Sink.ended_append rfl rows, rows, by simp [Sink.append]⟩

theorem completes_finish : Completes finish (.ok []) := by
  intro sink hsink
  show (if sink.ended then _ else _) = _
  rw [if_neg (by simp [hsink]), Sink.append_nil]

theorem Sends.completes {p : Sending α} {x : Except PlanError (α × List Row)} (hp : Sends p x) :
    Completes (p >>= fun _ => finish) (x.map Prod.snd) := by
  intro sink hsink
  have h := hp sink hsink
  cases x with
  | ok a =>
    refine (run_bind_of_ok h).trans ?_
    show (if (sink.append a.2).ended then _ else _) = _
    rw [if_neg (by simp [Sink.ended_append hsink])]
  | error e =>
    obtain ⟨rows, h⟩ := h
    exact ⟨rows, run_bind_of_error h⟩

theorem Sends.bind_completes {f : α → Sending Unit} {y : Except PlanError (List Row)}
    (hp : Sends p (.ok (a, []))) (hf : Completes (f a) y) : Completes (p >>= f) y := by
  intro sink hsink
  rw [run_bind_of_ok (hp sink hsink), Sink.append_nil]
  exact hf sink hsink

theorem Sends.then_completes {f : α → Sending Unit} (hp : Sends p (.ok (a, rows)))
    (hf : Completes (f a) (.ok more)) : Completes (p >>= f) (.ok (rows ++ more)) := by
  intro sink hsink
  rw [run_bind_of_ok (hp sink hsink)]
  have h := hf _ (Sink.ended_append hsink rows)
  exact h.trans (by rw [Sink.append_append])

theorem Sends.error_completes {f : α → Sending Unit} (hp : Sends p (.error e)) :
    Completes (p >>= f) (.error e) := by
  intro sink hsink
  obtain ⟨rows, h⟩ := hp sink hsink
  exact ⟨rows, run_bind_of_error h⟩

/-! ## Receiving rows -/

theorem sends_ask : Sends (ask false) (.ok ((), [])) := sends_computed (.ok ())

theorem sends_ask_cancelled : Sends (ask true) (.error .interrupted) :=
  sends_computed (.error .interrupted)

theorem sends_receiveAll (rows : List Row) : Sends (receiveAll false rows) (.ok (rows, [])) := by
  induction rows with
  | nil =>
    rw [receiveAll]
    exact sends_ask.bind_silent (sends_pure [])
  | cons row rows ih =>
    rw [receiveAll]
    exact sends_ask.bind_silent (ih.bind_silent (sends_pure (row :: rows)))

theorem sends_receiveAll_cancelled (rows : List Row) :
    Sends (receiveAll true rows) (.error .interrupted) := by
  cases rows with
  | nil => exact sends_ask_cancelled.bind_error
  | cons row rows => exact sends_ask_cancelled.bind_error

theorem sends_sendAll (rows : List Row) : Sends (sendAll rows) (.ok ((), rows)) := by
  induction rows with
  | nil => exact sends_pure ()
  | cons row rows ih =>
    rw [sendAll]
    exact (sends_send row).bind_ok ih

variable {σ : Type} {step : σ → Row → Sending σ} {g : σ → Row → Except PlanError (σ × List Row)}

theorem sends_receiveEach_cancelled (s : σ) (rows : List Row) :
    Sends (receiveEach true step s rows) (.error .interrupted) := by
  cases rows with
  | nil => exact sends_ask_cancelled.bind_error
  | cons row rows => exact sends_ask_cancelled.bind_error

/-- State and rows after steps for each row. -/
def foldRows (g : σ → Row → Except PlanError (σ × List Row)) :
    σ → List Row → Except PlanError (σ × List Row)
  | s, [] => .ok (s, [])
  | s, row :: rows => g s row >>= fun (s, sent) => after sent (foldRows g s rows)

/-- A step for each row that is received. -/
theorem sends_receiveEach (h : ∀ s row, Sends (step s row) (g s row)) (s : σ) (rows : List Row) :
    Sends (receiveEach false step s rows) (foldRows g s rows) := by
  induction rows generalizing s with
  | nil =>
    rw [receiveEach]
    exact sends_ask.bind_silent (sends_pure s)
  | cons row rows ih =>
    rw [receiveEach]
    exact sends_ask.bind_silent ((h s row).seq ih)

end QueryPlan.Execution
