import QueryPlan.Execution.Interpreter
import QueryPlan.Proofs.Execution.Streams
/-!
# Runs of operators compute their rows

Each operator is run on streams, and its rows are also given as a function of the rows of its inputs. On an
open stream the run sends just these rows and ends the stream, or it fails with the same error before it
ends it. A run that is cancelled fails as soon as it turns to an input.
-/
namespace QueryPlan.Execution

open Sending

/-- What is computed with rows, in a run of a plan. -/
def lifted {α : Type} (x : Except EvalError α) : Except PlanError α := x.mapError .evaluation

theorem sends_evaluating {α : Type} (x : Except EvalError α) :
    Sends (evaluating x) ((lifted x).map (·, [])) := sends_computed _

theorem map_snd {x : Except PlanError (List Row)} : (x.map ((), ·)).map Prod.snd = x := by
  cases x <;> rfl

theorem completes_runRows (rows : List Row) : Completes (runRows rows) (.ok rows) :=
  (sends_sendAll rows).completes

theorem completes_computed (x : Except PlanError (List Row)) :
    Completes (computed x >>= runRows) x := by
  have hsends := sends_computed x
  cases x with
  | ok rows => exact hsends.bind_completes (completes_runRows rows)
  | error e => exact hsends.error_completes

/-- Rows that are computed from all rows of an input. -/
theorem completes_buffered (f : List Row → Except EvalError (List Row)) (rows : List Row) :
    Completes (receiveAll false rows >>= fun received => evaluating (f received) >>= runRows)
      (lifted (f rows)) :=
  (sends_receiveAll rows).bind_completes (completes_computed _)

/-! ## Filters, projections, semi joins and correlates -/

/-- A loop without a state computes what each row adds to the rows that are sent. -/
theorem completes_forEach (step : Row → Sending Unit) (f : Row → Except EvalError (List Row))
    (out : List Row → Except EvalError (List Row)) (hnil : out [] = .ok [])
    (hcons : ∀ row rows, out (row :: rows) =
      f row >>= fun sent => out rows >>= fun rest => .ok (sent ++ rest))
    (hstep : ∀ row, Sends (step row) ((lifted (f row)).map ((), ·))) (rows : List Row) :
    Completes (forEach false step rows >>= fun _ => finish) (lifted (out rows)) := by
  have hfold : ∀ rows, foldRows (fun _ row => (lifted (f row)).map ((), ·)) () rows =
      (lifted (out rows)).map ((), ·) := by
    intro rows
    induction rows with
    | nil => rw [hnil]; rfl
    | cons row rows ih =>
      rw [foldRows, hcons]
      cases f row with
      | error e => rfl
      | ok sent =>
        show after sent (foldRows _ () rows) = _
        rw [ih]
        cases out rows <;> rfl
  have hsends := sends_receiveEach (fun _ row => hstep row) () rows
  rw [hfold] at hsends
  have hcompletes := hsends.completes
  rwa [map_snd] at hcompletes

/-- What a test sends of a row. -/
def kept (test : Except EvalError Bool) (row : Row) : Except EvalError (List Row) :=
  test.map (rowsWhen · row)

theorem sends_sendIf (test : Except EvalError Bool) (row : Row) :
    Sends (sendIf test row) ((lifted (kept test row)).map ((), ·)) := by
  have hsends := sends_evaluating test
  cases test with
  | error e => exact hsends.bind_error
  | ok keep => exact hsends.bind_silent (sends_sendWhen keep row)

theorem completes_runFilter (condition : Expr) (rows : List Row) :
    Completes (runFilter false condition rows) (lifted (filterRows condition rows)) := by
  refine completes_forEach _ (fun row => kept (condition.satisfied row) row) (filterRows condition) rfl
    (fun row rows => ?_) (fun row => sends_sendIf _ row) rows
  rw [filterRows, kept]
  rcases condition.satisfied row with e | keep
  · rfl
  · cases keep <;> cases filterRows condition rows <;> rfl

theorem completes_runProject (exprs : List Expr) (rows : List Row) :
    Completes (runProject false exprs rows) (lifted (rows.mapM (projectRow exprs))) := by
  refine completes_forEach _ (fun row => (projectRow exprs row).map ([·]))
    (fun rows => rows.mapM (projectRow exprs)) rfl (fun row rows => ?_) (fun row => ?_) rows
  · rw [List.mapM_cons]
    cases projectRow exprs row with
    | error e => rfl
    | ok values => cases rows.mapM (projectRow exprs) <;> rfl
  · have hsends := sends_evaluating (projectRow exprs row)
    unfold sendProjected
    cases h : projectRow exprs row with
    | error e => exact (h ▸ hsends).bind_error
    | ok values => exact (h ▸ hsends).bind_silent (sends_send values)

theorem completes_runSemiJoin (condition : Expr) (lefts rights : List Row) :
    Completes (runSemiJoin false condition lefts rights)
      (lifted (semiJoinRows condition rights lefts)) := by
  refine (sends_receiveAll rights).bind_completes ?_
  refine completes_forEach _ (fun left => kept (hasMatch condition left rights) left)
    (semiJoinRows condition rights) rfl (fun left lefts => ?_) (fun left => sends_sendIf _ left) lefts
  rw [semiJoinRows, kept]
  rcases hasMatch condition left rights with e | keep
  · rfl
  · cases keep <;> cases semiJoinRows condition rights lefts <;> rfl

/-- The rows that a left row contributes to a correlate. -/
def correlated (joinType : CorrelateType) (rightCount : Nat) (rights : List Row) (left : Row) :
    List Row :=
  match joinType with
  | .inner => rights.map (left ++ ·)
  | .left => rights.map (left ++ ·) ++ rowsWhen rights.isEmpty (left ++ Row.nulls rightCount)
  | .semi => rowsWhen (!rights.isEmpty) left
  | .anti => rowsWhen rights.isEmpty left

theorem correlateRows_eq (joinType : CorrelateType) (rightCount : Nat) (lefts rights : List Row) :
    correlateRows joinType rightCount lefts rights =
      lefts.flatMap (correlated joinType rightCount rights) := by
  unfold correlateRows correlated
  cases joinType <;> cases rights <;> simp [List.map_eq_flatMap, rowsWhen]

theorem sends_correlateLeft (joinType : CorrelateType) (rightCount : Nat) (rights : List Row)
    (left : Row) : Sends (correlateLeft joinType rightCount rights left)
      (.ok ((), correlated joinType rightCount rights left)) := by
  unfold correlateLeft correlated
  cases joinType with
  | inner => exact sends_sendAll _
  | left => exact (sends_sendAll _).before (sends_sendWhen _ _)
  | semi => exact sends_sendWhen _ _
  | anti => exact sends_sendWhen _ _

theorem completes_runCorrelate (joinType : CorrelateType) (rightCount : Nat)
    (lefts rights : List Row) :
    Completes (runCorrelate false joinType rightCount lefts rights)
      (.ok (correlateRows joinType rightCount lefts rights)) := by
  refine (sends_receiveAll rights).bind_completes ?_
  refine completes_forEach _ (fun left => .ok (correlated joinType rightCount rights left))
    (fun lefts => .ok (correlateRows joinType rightCount lefts rights))
    (by rw [correlateRows_eq]; rfl) (fun left lefts => ?_)
    (fun left => sends_correlateLeft joinType rightCount rights left) lefts
  rw [correlateRows_eq, correlateRows_eq, List.flatMap_cons]
  rfl

/-! ## Sorts and aggregates -/

theorem sends_pass (fetch : Option Nat) (sent : Nat) (rows : List Row) :
    Sends (pass false fetch sent rows) (.ok ((), streamRows fetch 0 sent rows)) := by
  induction rows generalizing sent with
  | nil =>
    rw [pass, streamRows]
    split
    · exact sends_ask
    · exact sends_pure ()
  | cons row rows ih =>
    rw [pass, streamRows]
    split
    · exact sends_ask.bind_silent ((sends_send row).bind_ok (ih (sent + 1)))
    · exact sends_pure ()

theorem completes_runLimit (offset : Nat) (fetch : Option Nat) (rows : List Row) :
    Completes (runLimit false offset fetch rows) (.ok (streamRows fetch offset 0 rows)) := by
  unfold runLimit
  induction offset generalizing rows with
  | zero =>
    rw [skip]
    exact (sends_pure (some rows)).bind_completes (sends_pass fetch 0 rows).completes
  | succ offset ih =>
    cases rows with
    | nil =>
      rw [skip, streamRows]
      have hskip : Sends (ask false >>= fun _ => pure (none : Option (List Row))) (.ok (none, [])) :=
        sends_ask.bind_silent (sends_pure none)
      exact hskip.bind_completes completes_finish
    | cons row rows =>
      rw [skip, streamRows, bind_assoc]
      exact sends_ask.bind_completes (ih rows)

theorem completes_runSort (collation : Collation) (offset : Nat) (fetch : Option Nat)
    (rows : List Row) : Completes (runSort false collation offset fetch rows)
      (lifted (sortRows collation offset fetch rows)) := by
  unfold runSort
  split
  · next hempty =>
    rw [sortRows, if_pos hempty]
    exact completes_runLimit offset fetch rows
  · exact completes_buffered _ rows

theorem streamRows_none (sent : Nat) (rows : List Row) : streamRows none 0 sent rows = rows := by
  induction rows generalizing sent with
  | nil => rfl
  | cons row rows ih => rw [streamRows, Option.all_none, if_pos rfl, ih]

/-- Rows that are not sorted come through as they are. -/
theorem sortRows_empty (rows : List Row) : sortRows .empty 0 none rows = .ok rows := by
  rw [sortRows, if_pos (by rfl), streamRows_none]
  rfl

theorem completes_runAggregate (group : ColumnSet) (calls : List AggregateCall) (rows : List Row) :
    Completes (runAggregate false group calls rows) (lifted (aggregateRows group calls rows)) :=
  completes_buffered _ rows

/-! ## Joins -/

/-- Right rows after a left row with these matches. -/
def flagged (rights : List (Row × Bool)) (hits : List Bool) : List (Row × Bool) :=
  List.zipWith (fun right hit => (right.1, right.2 || hit)) rights hits

/-- The matches of a left row. -/
def matchesOf (left : Row) (rights : List Row) (hits : List Bool) : List Row :=
  (rights.zip hits).filterMap fun (right, hit) => if hit then some (left ++ right) else none

theorem sends_matchRights (condition : Expr) (left : Row) (rights : List (Row × Bool)) :
    Sends (matchRights condition left rights)
      ((lifted (matchFlags condition (rights.map Prod.fst) left)).map fun hits =>
        ((hits.contains true, flagged rights hits), matchesOf left (rights.map Prod.fst) hits)) := by
  induction rights with
  | nil => exact sends_pure (false, [])
  | cons right rights ih =>
    obtain ⟨right, flag⟩ := right
    have htest := sends_evaluating (condition.satisfied (left ++ right))
    unfold matchFlags at ih ⊢
    rw [matchRights, List.map_cons, List.mapM_cons]
    rcases hhit : condition.satisfied (left ++ right) with e | hit
    · rw [hhit] at htest
      exact htest.bind_error
    · rw [hhit] at htest
      refine htest.bind_silent ?_
      have hsend := sends_sendWhen hit (left ++ right)
      rcases hhits : (rights.map Prod.fst).mapM fun right => condition.satisfied (left ++ right)
        with e | hits
      · rw [hhits] at ih
        exact hsend.before ih.bind_error
      · rw [hhits] at ih
        have hall := hsend.before
          (ih.bind_pure fun rest => (hit || rest.1, (right, flag || hit) :: rest.2))
        cases hit <;> exact hall

/-- A left row is padded after no matches. -/
theorem matchesOf_append (padsRight : Bool) (rightCount : Nat) (rights : List Row) (left : Row)
    (hits : List Bool) :
    matchesOf left rights hits ++
      rowsWhen (!hits.contains true && padsRight) (left ++ Row.nulls rightCount) =
        leftRows padsRight rightCount rights left hits := by
  unfold leftRows
  rw [Bool.and_comm padsRight]
  cases hcontains : hits.contains true with
  | true => exact List.append_nil _
  | false =>
    have hnone : matchesOf left rights hits = [] := by
      refine List.filterMap_eq_nil_iff.mpr fun (right, hit) hmem => ?_
      cases hit with
      | false => rfl
      | true => exact absurd (List.of_mem_zip hmem).2 (by simpa using hcontains)
    rw [hnone]
    cases padsRight
    · exact hnone.symm
    · rfl

/-- What a left row contributes to a join, and the right rows after it. -/
theorem sends_joinLeft (condition : Expr) (padsRight : Bool) (rightCount : Nat)
    (rights : List (Row × Bool)) (left : Row) :
    Sends (joinLeft condition padsRight rightCount rights left)
      ((lifted (matchFlags condition (rights.map Prod.fst) left)).map fun hits =>
        (flagged rights hits, leftRows padsRight rightCount (rights.map Prod.fst) left hits)) := by
  have hmatches := sends_matchRights condition left rights
  unfold joinLeft
  cases hhits : matchFlags condition (rights.map Prod.fst) left with
  | error e =>
    rw [hhits] at hmatches
    exact hmatches.bind_error
  | ok hits =>
    rw [hhits] at hmatches
    have hpadded := sends_sendWhen (!hits.contains true && padsRight) (left ++ Row.nulls rightCount)
    have hall := hmatches.bind_ok (f := fun p =>
      sendWhen (!p.1 && padsRight) (left ++ Row.nulls rightCount) >>= fun _ => pure p.2)
      (hpadded.bind_pure fun _ => flagged rights hits)
    rw [matchesOf_append] at hall
    exact hall

theorem sends_sendUnmatched (leftCount : Nat) (rights : List (Row × Bool)) :
    Sends (sendUnmatched leftCount rights) (.ok ((), rights.filterMap fun (right, flag) =>
      if flag then none else some (Row.nulls leftCount ++ right))) := by
  induction rights with
  | nil => exact sends_pure ()
  | cons right rights ih =>
    obtain ⟨right, flag⟩ := right
    rw [sendUnmatched]
    have hall := (sends_sendWhen (!flag) (Row.nulls leftCount ++ right)).before ih
    cases flag <;> exact hall

theorem flagged_zip {rights : List Row} {flags hits : List Bool} :
    flagged (rights.zip flags) hits = rights.zip (List.zipWith or flags hits) := by
  unfold flagged
  induction rights generalizing flags hits with
  | nil => rfl
  | cons right rights ih =>
    cases flags with
    | nil => rfl
    | cons flag flags =>
      cases hits with
      | nil => rfl
      | cons hit hits => exact congrArg _ ih

/-- The loop over the left rows: its invariant is that the flags are those of the left rows so far. -/
theorem foldRows_joinLeft (condition : Expr) (padsRight : Bool) (rightCount : Nat)
    (rights : List Row) {flags : List Bool} (hflags : flags.length = rights.length)
    (lefts : List Row) :
    foldRows (fun flaggedRights left =>
        (lifted (matchFlags condition (flaggedRights.map Prod.fst) left)).map fun hits =>
          (flagged flaggedRights hits,
            leftRows padsRight rightCount (flaggedRights.map Prod.fst) left hits))
      (rights.zip flags) lefts =
    (lifted (lefts.mapM (matchFlags condition rights))).map fun hits =>
      (rights.zip (hits.foldl (List.zipWith or) flags),
        (lefts.zip hits).flatMap fun (left, hits) => leftRows padsRight rightCount rights left hits) := by
  induction lefts generalizing flags with
  | nil => rfl
  | cons left lefts ih =>
    have hfst : (rights.zip flags).map Prod.fst = rights := List.map_fst_zip (by omega)
    rw [foldRows, hfst, List.mapM_cons]
    cases hhits : matchFlags condition rights left with
    | error e => rfl
    | ok hits =>
      have hlength : hits.length = rights.length := Outcome.length_of_mapM_eq_ok hhits
      have hflags' : (List.zipWith or flags hits).length = rights.length := by
        rw [List.length_zipWith, hflags, hlength, Nat.min_self]
      have hrest := ih hflags'
      show after _ (foldRows _ (flagged (rights.zip flags) hits) lefts) = _
      rw [flagged_zip, hrest]
      cases lefts.mapM (matchFlags condition rights) <;> rfl

theorem completes_runJoin (joinType : JoinType) (condition : Expr) (leftCount rightCount : Nat)
    (lefts rights : List Row) :
    Completes (runJoin false joinType condition leftCount rightCount lefts rights)
      (lifted (joinRows joinType condition leftCount rightCount lefts rights)) := by
  have hflags : rights.map (·, false) = rights.zip (List.replicate rights.length false) := by
    rw [List.map_prod_left_eq_zip, List.map_const']
  refine (sends_receiveAll rights).bind_completes ?_
  have hlefts := sends_receiveEach (sends_joinLeft condition joinType.padsRight rightCount)
    (rights.zip (List.replicate rights.length false)) lefts
  rw [foldRows_joinLeft _ _ _ _ List.length_replicate, ← hflags] at hlefts
  rw [joinRows]
  cases hhits : lefts.mapM (matchFlags condition rights) with
  | error e =>
    rw [hhits] at hlefts
    exact hlefts.error_completes
  | ok hits =>
    rw [hhits] at hlefts
    have hunmatched := sends_sendUnmatched leftCount (if joinType.padsLeft then
      rights.zip (hits.foldl (List.zipWith or) (List.replicate rights.length false)) else [])
    have hall := hlefts.then_completes (f := fun flagged =>
      sendUnmatched leftCount (if joinType.padsLeft then flagged else []) >>= fun _ => finish)
      hunmatched.completes
    cases hpads : joinType.padsLeft <;> rw [hpads] at hall <;> exact hall

/-! ## Unions, intersections and differences -/

/-- The rows that a union sends after it has seen others. -/
def unseen (all : Bool) : (seen : List Row) → List Row → List Row
  | _, [] => []
  | seen, row :: rows =>
    if all then row :: unseen all seen rows
    else if seen.any row.same then unseen all seen rows
    else row :: unseen all (row :: seen) rows

theorem unionRows_eq (all : Bool) (inputs : List (List Row)) :
    unionRows all inputs = unseen all [] inputs.flatten := by
  have hall : ∀ seen rows, unseen true seen rows = rows := by
    intro seen rows
    induction rows with
    | nil => rfl
    | cons row rows ih => rw [unseen, if_pos rfl, ih]
  have hdistinct : ∀ rows seen,
      List.eraseDupsBy.loop Row.same rows seen = seen.reverse ++ unseen false seen rows := by
    intro rows
    induction rows with
    | nil => intro seen; exact (List.append_nil _).symm
    | cons row rows ih =>
      intro seen
      rw [List.eraseDupsBy.loop, unseen]
      cases hseen : seen.any row.same with
      | true => exact ih seen
      | false =>
        show List.eraseDupsBy.loop Row.same rows (row :: seen) = _
        simp [ih]
  unfold unionRows List.eraseDupsBy
  cases all with
  | true => exact (hall [] _).symm
  | false => exact hdistinct _ []

theorem sends_sendNew (all : Bool) (seen : List Row) (row : Row) :
    Sends (sendNew all seen row) (.ok (if all then (seen, [row])
      else if seen.any row.same then (seen, []) else (row :: seen, [row]))) := by
  unfold sendNew
  split
  · exact (sends_send row).bind_pure fun _ => seen
  · split
    · exact sends_pure seen
    · exact (sends_send row).bind_pure fun _ => row :: seen

/-- A union goes on after an input with the rows that it has seen by then. -/
theorem sends_receiveEach_sendNew (all : Bool) (seen rows : List Row) :
    ∃ seen' sent, Sends (receiveEach false (sendNew all) seen rows) (.ok (seen', sent)) ∧
      ∀ rest, unseen all seen (rows ++ rest) = sent ++ unseen all seen' rest := by
  induction rows generalizing seen with
  | nil => exact ⟨seen, [], sends_ask.bind_silent (sends_pure seen), fun _ => rfl⟩
  | cons row rows ih =>
    -- Whether the row is sent decides what has been seen after it.
    have hstep : ∀ next sent, Sends (sendNew all seen row) (.ok (next, sent)) →
        (∀ rest, unseen all seen (row :: rest) = sent ++ unseen all next rest) →
        ∃ seen' sent, Sends (receiveEach false (sendNew all) seen (row :: rows)) (.ok (seen', sent)) ∧
          ∀ rest, unseen all seen (row :: rows ++ rest) = sent ++ unseen all seen' rest := by
      intro next sent hsends hunseen
      obtain ⟨seen', more, hrest, hmore⟩ := ih next
      refine ⟨seen', sent ++ more, sends_ask.bind_silent (hsends.bind_ok hrest), fun rest => ?_⟩
      rw [List.cons_append, hunseen, hmore, List.append_assoc]
    have hsends := sends_sendNew all seen row
    cases all with
    | true => exact hstep seen [row] hsends fun _ => rfl
    | false =>
      cases hseen : seen.any row.same with
      | true =>
        rw [hseen] at hsends
        exact hstep seen [] hsends fun rest => by simp [unseen, hseen]
      | false =>
        rw [hseen] at hsends
        exact hstep (row :: seen) [row] hsends fun rest => by simp [unseen, hseen]

theorem completes_runUnion (all : Bool) (inputs : List (List Row)) :
    Completes (runUnion false all inputs) (.ok (unionRows all inputs)) := by
  have hinputs : ∀ seen, ∃ seen', Sends (inputs.foldlM (receiveEach false (sendNew all)) seen)
      (.ok (seen', unseen all seen inputs.flatten)) := by
    induction inputs with
    | nil => exact fun seen => ⟨seen, sends_pure seen⟩
    | cons rows inputs ih =>
      intro seen
      obtain ⟨next, sent, hrows, hsent⟩ := sends_receiveEach_sendNew all seen rows
      obtain ⟨seen', hrest⟩ := ih next
      refine ⟨seen', ?_⟩
      rw [List.foldlM_cons, List.flatten_cons, hsent]
      exact hrows.bind_ok hrest
  obtain ⟨seen', hsends⟩ := hinputs []
  rw [unionRows_eq]
  exact hsends.completes

theorem completes_runReduce (all : Bool) (leave : Nat → Nat → Nat) (inputs : List (List Row)) :
    Completes (runReduce false all leave inputs) (.ok (reduceRows all leave inputs)) := by
  have hinputs : Sends (inputs.mapM (receiveAll false)) (.ok (inputs, [])) := by
    induction inputs with
    | nil => exact sends_pure []
    | cons rows inputs ih =>
      rw [List.mapM_cons]
      exact (sends_receiveAll rows).bind_silent (ih.bind_silent (sends_pure (rows :: inputs)))
  exact hinputs.bind_completes (completes_runRows _)

/-! ## Operators -/

section

variable (id : NodeId) {operator : Operator} (arities : List Nat) {inputs : List (List Row)}

/-- The rows that an operator delivers in a run that is not cancelled. -/
def delivered (id : NodeId) (operator : Operator) (arities : List Nat) (inputs : List (List Row)) :
    Except PlanError (List Row) :=
  match operator with
  | .scan _ table => table.scan
  | .subset _ => .error (.subsetInPlan id)
  | operator => lifted (operatorRows operator arities inputs)

theorem exists_eq_one (htakes : decide (inputs.length = 1) = true) : ∃ rows, inputs = [rows] :=
  List.length_eq_one_iff.mp (of_decide_eq_true htakes)

theorem exists_eq_two (htakes : decide (inputs.length = 2) = true) :
    ∃ lefts rights, inputs = [lefts, rights] := List.length_eq_two.mp (of_decide_eq_true htakes)

theorem completes_runOperator (htakes : operator.takes inputs.length = true) :
    Completes (runOperator false id operator arities inputs)
      (delivered id operator arities inputs) := by
  cases operator with
  | scan convention table => exact completes_computed table.scan
  | values convention rowType tuples => exact completes_runRows tuples
  | subset type => exact fun sink _ => ⟨[], by rw [Sink.append_nil]; rfl⟩
  | filter convention condition =>
    obtain ⟨rows, rfl⟩ := exists_eq_one htakes
    exact completes_runFilter condition rows
  | project convention columns =>
    obtain ⟨rows, rfl⟩ := exists_eq_one htakes
    exact completes_runProject _ rows
  | join algorithm joinType condition =>
    obtain ⟨lefts, rights, rfl⟩ := exists_eq_two htakes
    cases algorithm with
    | semi => exact completes_runSemiJoin condition lefts rights
    | _ => exact completes_runJoin joinType condition _ _ lefts rights
  | correlate convention correlation required joinType =>
    obtain ⟨lefts, rights, rfl⟩ := exists_eq_two htakes
    exact completes_runCorrelate joinType _ lefts rights
  | aggregate convention group calls =>
    obtain ⟨rows, rfl⟩ := exists_eq_one htakes
    exact completes_runAggregate group calls rows
  | sort convention collation offset fetch =>
    obtain ⟨rows, rfl⟩ := exists_eq_one htakes
    exact completes_runSort collation offset fetch rows
  | union convention all => exact completes_runUnion all inputs
  | intersect all => exact completes_runReduce all commonNumber inputs
  | minus all => exact completes_runReduce all (remainingNumber all) inputs
  | exchange distribution =>
    obtain ⟨rows, rfl⟩ := exists_eq_one htakes
    have hsort := completes_runSort .empty 0 none rows
    rwa [sortRows_empty] at hsort
  | sortExchange distribution collation =>
    obtain ⟨rows, rfl⟩ := exists_eq_one htakes
    exact completes_runSort collation 0 none rows

/-! ## Cancelled runs -/

/-- A limit asks for a row unless there is nothing to skip and nothing to send. -/
theorem completes_runLimit_cancelled {offset : Nat} {fetch : Option Nat} (rows : List Row)
    (hasks : ¬(offset = 0 ∧ fetch = some 0)) :
    Completes (runLimit true offset fetch rows) (.error .interrupted) := by
  unfold runLimit
  cases offset with
  | zero =>
    have hfetch : fetch.all (0 < ·) = true := by
      rcases fetch with _ | _ | n
      · rfl
      · exact absurd ⟨rfl, rfl⟩ hasks
      · simp
    have hpass : Sends (pass true fetch 0 rows) (.error .interrupted) := by
      cases rows with
      | nil =>
        rw [pass, if_pos hfetch]
        exact sends_ask_cancelled
      | cons row rows =>
        rw [pass, if_pos hfetch]
        exact sends_ask_cancelled.bind_error
    rw [skip]
    exact (sends_pure (some rows)).bind_completes hpass.error_completes
  | succ offset =>
    have hskip : Sends (skip true (offset + 1) rows) (.error .interrupted) := by
      cases rows <;> exact sends_ask_cancelled.bind_error
    exact hskip.error_completes

theorem completes_runSort_cancelled {collation : Collation} {offset : Nat} {fetch : Option Nat}
    (rows : List Row) (hasks : ¬(collation.isEmpty = true ∧ offset = 0 ∧ fetch = some 0)) :
    Completes (runSort true collation offset fetch rows) (.error .interrupted) := by
  unfold runSort
  split
  · next hempty => exact completes_runLimit_cancelled rows fun h => hasks ⟨hempty, h⟩
  · exact (sends_receiveAll_cancelled rows).error_completes

/-- A cancelled run fails if the operator asks an input for rows. -/
theorem completes_runOperator_cancelled (htakes : operator.takes inputs.length = true)
    (hreceives : receives operator = true) :
    Completes (runOperator true id operator arities inputs) (.error .interrupted) := by
  cases operator with
  | scan | values | subset => cases hreceives
  | filter convention condition =>
    obtain ⟨rows, rfl⟩ := exists_eq_one htakes
    exact (sends_receiveEach_cancelled () rows).error_completes
  | project convention columns =>
    obtain ⟨rows, rfl⟩ := exists_eq_one htakes
    exact (sends_receiveEach_cancelled () rows).error_completes
  | join algorithm joinType condition =>
    obtain ⟨lefts, rights, rfl⟩ := exists_eq_two htakes
    cases algorithm <;> exact (sends_receiveAll_cancelled rights).error_completes
  | correlate convention correlation required joinType =>
    obtain ⟨lefts, rights, rfl⟩ := exists_eq_two htakes
    exact (sends_receiveAll_cancelled rights).error_completes
  | aggregate convention group calls =>
    obtain ⟨rows, rfl⟩ := exists_eq_one htakes
    exact (sends_receiveAll_cancelled rows).error_completes
  | sort convention collation offset fetch =>
    obtain ⟨rows, rfl⟩ := exists_eq_one htakes
    exact completes_runSort_cancelled rows fun ⟨hempty, hoffset, hfetch⟩ => by
      simp [receives, hempty, hoffset, hfetch] at hreceives
  | union convention all =>
    cases inputs with
    | nil => cases htakes
    | cons rows inputs => exact (sends_receiveEach_cancelled [] rows).bind_error.error_completes
  | intersect all | minus all =>
    cases inputs with
    | nil => cases htakes
    | cons rows inputs =>
      have hinputs : Sends ((rows :: inputs).mapM (receiveAll true)) (.error .interrupted) := by
        rw [List.mapM_cons]
        exact (sends_receiveAll_cancelled rows).bind_error
      exact hinputs.error_completes
  | exchange distribution =>
    obtain ⟨rows, rfl⟩ := exists_eq_one htakes
    exact completes_runSort_cancelled rows (by simp)
  | sortExchange distribution collation =>
    obtain ⟨rows, rfl⟩ := exists_eq_one htakes
    exact completes_runSort_cancelled rows (by simp)

/-- What asks no input does not notice that the run is cancelled. -/
theorem runOperator_of_not_receives (hreceives : receives operator = false) :
    runOperator true id operator arities inputs = runOperator false id operator arities inputs := by
  cases operator with
  | scan | values | subset => rfl
  | sort convention collation offset fetch =>
    simp only [receives, Bool.not_eq_false', Bool.and_eq_true, decide_eq_true_eq] at hreceives
    obtain ⟨⟨hempty, rfl⟩, rfl⟩ := hreceives
    unfold runOperator
    cases inputs.reverse with
    | nil => rfl
    | cons rows _ =>
      show runSort true collation 0 (some 0) rows = runSort false collation 0 (some 0) rows
      unfold runSort runLimit
      rw [if_pos hempty, if_pos hempty]
      cases rows <;> rfl
  | _ => cases hreceives

end

end QueryPlan.Execution
