import QueryPlan.Proofs.Metadata.Settled
/-!
# Answers without a memory

The session's methods also answer questions without remembering any. Such an answer depends on the
question and on how many questions may be inside one another, and for settled questions not even on
that.
-/
namespace QueryPlan

namespace Querying

variable {α β : Type}

/-- The query has that outcome whatever is remembered, and remembers nothing. -/
def Answers (x : Querying α) (r : Except QueryError α) : Prop := ∀ m, x.run m = (r, m)

theorem Answers.unique {x : Querying α} {r r' : Except QueryError α} (h : x.Answers r)
    (h' : x.Answers r') : r = r' :=
  congrArg Prod.fst ((h {}).symm.trans (h' {}))

theorem answers_pure (a : α) : (pure a : Querying α).Answers (.ok a) := fun _ => rfl

theorem answers_throw (e : QueryError) : (throw e : Querying α).Answers (.error e) := fun _ => rfl

theorem run_bind (x : Querying α) (f : α → Querying β) (m : Memory) :
    (x >>= f).run m = match x.run m with
      | (.ok a, m') => (f a).run m'
      | (.error e, m') => (.error e, m') := by
  show (match x.run m with | (r, m') => ExceptT.bindCont f r m') = _
  rcases x.run m with ⟨_ | a, m'⟩ <;> rfl

theorem run_bind_eq_ok {x : Querying α} {f : α → Querying β} {m : Memory} {b : β} :
    ((x >>= f).run m).1 = .ok b ↔
      ∃ a, (x.run m).1 = .ok a ∧ ((f a).run (x.run m).2).1 = .ok b := by
  rw [run_bind]
  rcases x.run m with ⟨_ | a, m'⟩
  · exact ⟨nofun, nofun⟩
  · exact ⟨fun h => ⟨a, rfl, h⟩, fun ⟨a', ha, h⟩ => by cases ha; exact h⟩

theorem run_ofOption {o : Option α} {a : α} {m : Memory} :
    ((ofOption o).run m).1 = .ok a ↔ o = some a := by
  cases o with
  | none => exact ⟨nofun, nofun⟩
  | some b => exact ⟨fun h => by cases h; rfl, fun h => by cases h; rfl⟩

theorem run_ofOption_snd (o : Option α) (m : Memory) : ((ofOption o).run m).2 = m := by
  cases o <;> rfl

theorem Answers.bind_ok {x : Querying α} {f : α → Querying β} {a : α} {r : Except QueryError β}
    (hx : x.Answers (.ok a)) (hf : (f a).Answers r) : (x >>= f).Answers r := by
  intro m
  rw [run_bind, hx m]
  exact hf m

theorem Answers.bind_error {x : Querying α} {e : QueryError} (hx : x.Answers (.error e))
    (f : α → Querying β) : (x >>= f).Answers (.error e) := by
  intro m
  rw [run_bind, hx m]

/-- A query that has an answer, put together of one that has an outcome and another one. -/
theorem exists_of_answers_bind {x : Querying α} {f : α → Querying β} {b : β}
    (hx : ∃ r, x.Answers r) (h : (x >>= f).Answers (.ok b)) :
    ∃ a, x.Answers (.ok a) ∧ (f a).Answers (.ok b) := by
  obtain ⟨r, hr⟩ := hx
  cases r with
  | ok a =>
    refine ⟨a, hr, fun m => ?_⟩
    have hrun := h m
    rwa [run_bind, hr m] at hrun
  | error e => cases h.unique (hr.bind_error f)

theorem answers_ofOption {o : Option α} {a : α} (h : (ofOption o).Answers (.ok a)) :
    o = some a := by
  cases o with
  | some b => cases h.unique (answers_pure b); rfl
  | none => cases h.unique (answers_throw _)

/-- What `skipCyclic` makes of an outcome. -/
def skipped : Except QueryError α → Except QueryError (Option α)
  | .ok a => .ok (some a)
  | .error (.cyclic _ _) => .ok none
  | .error (.fault e) => .error (.fault e)

theorem run_skipCyclic (x : Querying α) (m : Memory) :
    (skipCyclic x).run m = (skipped (x.run m).1, (x.run m).2) := by
  unfold skipCyclic
  rw [ExceptT.run_mk]
  show (match x.run m with | _ => _) = _
  rcases x.run m with ⟨(_ | _) | a, m'⟩ <;> rfl

/-- The queries are the same, and have one outcome whatever is remembered, which is not that they
need their own answer. -/
def Constant (x y : Querying α) : Prop :=
  x = y ∧ ∃ r, x.Answers r ∧ ∀ node topic, r ≠ .error (.cyclic node topic)

theorem congruence_constant : Congruence (fun x y => Constant x y) where
  pure a := ⟨rfl, .ok a, answers_pure a, nofun⟩
  fault e := ⟨rfl, .error (.fault e), answers_throw _, nofun⟩
  bind := by
    rintro α β x y f g ⟨rfl, r, hr, hcyclic⟩ hf
    obtain rfl : f = g := funext fun a => (hf a).1
    refine ⟨rfl, ?_⟩
    cases r with
    | ok a =>
      obtain ⟨-, r', hr', hcyclic'⟩ := hf a
      exact ⟨r', hr.bind_ok hr', hcyclic'⟩
    | error e =>
      refine ⟨.error e, hr.bind_error f, fun node topic heq => hcyclic node topic ?_⟩
      cases heq
      rfl
  skipCyclic := by
    rintro α x y ⟨rfl, r, hr, hcyclic⟩
    refine ⟨rfl, skipped r, fun m => by rw [run_skipCyclic, hr m], fun node topic heq => ?_⟩
    rcases r with (_ | _) | a <;> cases heq

theorem congruence_eq : Congruence (fun x y => x = y) where
  pure _ := rfl
  fault _ := rfl
  bind := by
    rintro α β x y f g rfl hf
    rw [funext hf]
  skipCyclic := by
    rintro α x y rfl
    rfl

end Querying

namespace Asking

variable {c : Cluster}

/-- Answers questions by the session's methods as `through` does, and remembers nothing. -/
def directly (c : Cluster) (next : Asking) : Asking where
  rowCount := fun id => do
    let rows ← (c.methods.rowCount.methodFor (c.kind id)).answer c next id
    return Double.max rows 0.0
  collations := fun id => (c.methods.collations.methodFor (c.kind id)).answer c next id
  distinct := fun id columns predicate =>
    (c.methods.distinct.methodFor (c.kind id)).answer c next id columns predicate
  lineage := fun id e => (c.methods.lineage.methodFor (c.kind id)).answer c next id e
  tableRefs := fun id => (c.methods.tableRefs.methodFor (c.kind id)).answer c next id

/-- Answers questions without a memory, with at most the given number of questions inside one
another. -/
def memoryless (c : Cluster) : Nat → Asking
  | 0 => exhausted
  | depth + 1 => directly c (memoryless c depth)

/-- The answers of a session's questions. -/
def plain (c : Cluster) : Asking := memoryless c (64 * (c.size + 1))

theorem Related.of_forall {R : {α : Type} → Querying α → Querying α → Prop} {Q : Question → Prop}
    {ask ask' : Asking} (h : ∀ q, Q q → Related R (· = q) ask ask') : Related R Q ask ask' where
  rowCount j hj := (h _ hj).rowCount j rfl
  collations j hj := (h _ hj).collations j rfl
  distinct j columns p p' hj hp := (h _ hj).distinct j columns p p' rfl hp

/-- Ways of asking that are related at the questions that a question needs give related answers
to it. -/
theorem related_directly {R : {α : Type} → Querying α → Querying α → Prop}
    (hR : Querying.Congruence R) {ask ask' : Asking} {q : Question}
    (h : Related R (c.Needs q) ask ask') :
    Related R (· = q) (directly c ask) (directly c ask') where
  rowCount := by
    rintro j rfl
    exact hR.bind (RowCountMethod.related_answer hR _ h) fun rows => hR.pure _
  collations := by
    rintro j rfl
    exact CollationsMethod.related_answer hR _ h
  distinct := by
    rintro j columns p p' rfl hp
    exact DistinctMethod.related_answer hR _ hp h

theorem memoryless_constant (c : Cluster) (depth : Nat) :
    Related (fun x y => Querying.Constant x y) (fun _ => True) (memoryless c depth)
      (memoryless c depth) := by
  induction depth with
  | zero =>
    exact
      { rowCount := fun _ _ => Querying.congruence_constant.fault _
        collations := fun _ _ => Querying.congruence_constant.fault _
        distinct := fun _ _ _ _ _ _ => Querying.congruence_constant.fault _ }
  | succ depth ih =>
    refine .of_forall fun q _ => related_directly Querying.congruence_constant (.of_forall ?_)
    exact fun q' _ =>
      { rowCount := fun j _ => ih.rowCount j trivial
        collations := fun j _ => ih.collations j trivial
        distinct := fun j columns p p' _ hp => ih.distinct j columns p p' trivial hp }

theorem plain_constant : Related (fun x y => Querying.Constant x y) (fun _ => True) (plain c) (plain c) :=
  memoryless_constant c _

/-- For a settled question any bound is long enough that is longer than the number of questions
ahead of it. -/
theorem memoryless_eq {depth depth' : Nat} {q : Question} (hq : c.Settled q)
    (h : c.rank q < depth) (h' : c.rank q < depth') :
    Related (fun x y => x = y) (· = q) (memoryless c depth) (memoryless c depth') := by
  induction depth generalizing depth' q with
  | zero => omega
  | succ depth ih =>
    obtain ⟨depth', rfl⟩ : ∃ d, depth' = d + 1 := ⟨depth' - 1, by omega⟩
    refine related_directly Querying.congruence_eq (.of_forall fun q' hneed => ?_)
    have hrank := hq.rank_lt hneed
    exact ih (hq.of_needs hneed) (by omega) (by omega)

/-- The answer of a settled question is made of the answers of the questions it needs. -/
theorem plain_eq {q : Question} (hq : c.Settled q) :
    Related (fun x y => x = y) (· = q) (plain c) (directly c (plain c)) :=
  have hlt := c.rank_lt_bound q
  memoryless_eq hq hlt (Nat.lt_succ_of_lt hlt)

end Asking

end QueryPlan
