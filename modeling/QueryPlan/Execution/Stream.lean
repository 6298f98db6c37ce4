import QueryPlan.Error
/-!
Streams between the nodes of a running plan.

A node receives the rows of its inputs one by one, sends rows of its own and signals the end of them.
What it signals goes to its sink, which refuses everything after the end.
-/
namespace QueryPlan.Execution

/-- What a node signals to those that read its rows. -/
inductive Signal where
  | row (row : Row)
  | ended

/-- The row that is sent, if one is. -/
def Signal.row? : Signal → Option Row
  | row r => some r
  | ended => none

/-- The output side of a node: what it has signalled, in sequence. -/
structure Sink where
  node : NodeId
  signals : Array Signal := #[]

namespace Sink

/-- The rows that were sent. -/
def rows (sink : Sink) : List Row := sink.signals.toList.filterMap Signal.row?

/-- Whether the end was signalled. Nothing follows it, so it is the last signal. -/
def ended (sink : Sink) : Bool :=
  match sink.signals.back? with
  | some .ended => true
  | _ => false

/-- The sink after another signal. -/
def push (sink : Sink) (signal : Signal) : Sink := { sink with signals := sink.signals.push signal }

end Sink

/-- The run of a node: it fills a sink, and it may fail. -/
abbrev Sending (α : Type) := ExceptT PlanError (StateM Sink) α

namespace Sending

/-- Passes a signal to the sink, which must not have seen the end. -/
def signal (signal : Signal) (fault : StreamFault) : Sending Unit :=
  ExceptT.mk fun sink =>
    if sink.ended then (.error (.invalidNode sink.node (.stream fault)), sink)
    else (.ok (), sink.push signal)

/-- Sends a row. -/
def send (row : Row) : Sending Unit := signal (.row row) (.sentAfterEnd row)

/-- Sends rows in sequence. -/
def sendAll : List Row → Sending Unit
  | [] => return ()
  | row :: rows => do
    send row
    sendAll rows

/-- Sends a row on a condition. -/
def sendWhen (condition : Bool) (row : Row) : Sending Unit :=
  if condition then send row else pure ()

/-- Signals the end of the rows. -/
def finish : Sending Unit := signal .ended .endedTwice

/-- Goes on with a value that is already computed, or fails as it did. -/
def computed {α : Type} (x : Except PlanError α) : Sending α := ExceptT.mk fun sink => (x, sink)

/-- Goes on with the value of an expression or an aggregate. -/
def evaluating {α : Type} (x : Except EvalError α) : Sending α :=
  computed (x.mapError PlanError.evaluation)

/-- Sends a row if a test that may fail says so. -/
def sendIf (test : Except EvalError Bool) (row : Row) : Sending Unit := do
  let keep ← evaluating test
  sendWhen keep row

/-- Turns to an input for its next row, which fails once the run is cancelled. -/
def ask (cancelled : Bool) : Sending Unit :=
  computed (if cancelled then .error .interrupted else .ok ())

/-- Receives the rows of an input, each of which changes a state. -/
def receiveEach {σ : Type} (cancelled : Bool) (step : σ → Row → Sending σ) :
    σ → List Row → Sending σ
  | s, [] => do
    ask cancelled
    return s
  | s, row :: rows => do
    ask cancelled
    let s ← step s row
    receiveEach cancelled step s rows

/-- Receives the rows of an input, without a state. -/
def forEach (cancelled : Bool) (step : Row → Sending Unit) (rows : List Row) : Sending Unit :=
  receiveEach cancelled (fun _ => step) () rows

/-- Receives all rows of an input. -/
def receiveAll (cancelled : Bool) : List Row → Sending (List Row)
  | [] => do
    ask cancelled
    return []
  | row :: rows => do
    ask cancelled
    let rows ← receiveAll cancelled rows
    return row :: rows

end Sending

end QueryPlan.Execution
