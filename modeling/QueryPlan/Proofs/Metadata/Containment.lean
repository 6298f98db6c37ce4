import QueryPlan.Proofs.Metadata.Topics
import QueryPlan.Proofs.Metadata.Orders
/-!
# Cycles are contained

A question that leads back to itself through the members of a subset fails where it is met again, and
the failure is passed on to the nodes that read that one, up to a subset, which leaves out the member.
Inputs come before the nodes that read them, so a failure escapes from a node only if a question that
was being answered before is about one of the nodes under it. Every question that is being answered
is about another node, so there are no more inside one another than nodes.
-/
namespace QueryPlan

open Relation

/-! ## Questions that stay in progress -/

/-- The question is being answered. -/
def Memory.Pending (m : Memory) (topic : Topic) (key : topic.Key) : Prop :=
  (key, .inProgress) ∈ topic.shelf.entries m

theorem Memory.Pending.of_entries {m m' : Memory} {topic : Topic} {key : topic.Key}
    (h : topic.shelf.entries m' = topic.shelf.entries m) (hpending : m'.Pending topic key) :
    m.Pending topic key := by
  rwa [Memory.Pending, h] at hpending

namespace Querying

variable {α : Type}

/-- What is being answered after the query was so before. -/
def Contained (x : Querying α) : Prop :=
  ∀ m topic key, (x.run m).2.Pending topic key → m.Pending topic key

theorem congruence_contained : Congruence fun x _ => Contained x where
  pure _ := fun _ _ _ h => h
  fault _ := fun _ _ _ h => h
  bind := by
    intro α β x _ f _ hx hf m topic key h
    rw [run_bind] at h
    have hfirst := hx m topic key
    generalize x.run m = outcome at *
    obtain ⟨e | a, m'⟩ := outcome
    · exact hfirst h
    · exact hfirst (hf a m' topic key h)
  skipCyclic := by
    intro α x _ hx m topic key h
    rw [run_skipCyclic] at h
    exact hx m topic key h

/-- A question is not in progress any more when it has its outcome. -/
theorem contained_memoize {topic : Topic} {key : topic.Key} {x : Querying topic.Answer}
    (hx : Contained x) : Contained (topic.shelf.memoize key (topic.node key) topic x) := by
  intro m other key' h
  unfold Shelf.memoize at h
  rw [ExceptT.run_mk] at h
  rcases hremembered : topic.shelf.remembered? key m with _ | ⟨_ | answer⟩
  · rw [hremembered] at h
    dsimp only at h
    have hbegun := hx (topic.shelf.note key .inProgress m) other key'
    generalize x.run (topic.shelf.note key .inProgress m) = outcome at *
    obtain ⟨r, m'⟩ := outcome
    by_cases heq : other = topic
    · subst heq
      have hended : m'.Pending other key' ∧ ¬(key' == key) = true := by
        cases r with
        | ok answer => exact (Topic.mem_note.mp h).resolve_left nofun
        | error e => exact Topic.mem_forget.mp h
      rcases Topic.mem_note.mp (hbegun hended.1) with hkey | hbefore
      · cases hkey
        exact absurd (other.key_beq_self _) hended.2
      · exact hbefore.1
    · have hended : m'.Pending other key' := by
        cases r with
        | ok answer => exact .of_entries (Topic.entries_note_of_ne heq) h
        | error e => exact .of_entries (Topic.entries_forget_of_ne heq) h
      exact (hbegun hended).of_entries (Topic.entries_note_of_ne heq)
  · rwa [hremembered] at h
  · rwa [hremembered] at h

end Querying

/-- Whatever is asked, and whatever its outcome, no question is left in progress. -/
theorem Asking.within_contained (c : Cluster) (depth : Nat) (topic : Topic) (key : topic.Key) :
    ((within c depth).about topic key).Contained := by
  induction depth generalizing topic key with
  | zero =>
    rw [within, exhausted_about]
    exact Querying.congruence_contained.fault _
  | succ depth ih =>
    rw [within, through_about]
    exact Querying.contained_memoize (about_directly Querying.congruence_contained ih topic key)

/-- No question is left in progress by any questions that are asked one after the other. -/
theorem Asking.not_pending_after (c : Cluster) (asked : List ((topic : Topic) × topic.Key)) (topic : Topic)
    (key : topic.Key) : ¬((of c).memoryOf asked).Pending topic key := by
  refine Querying.holds_after (I := fun m => ∀ topic key, ¬m.Pending topic key) (fun topic key h => ?_)
    (fun call _ m hm topic key hpending => ?_) topic key
  · cases topic <;> cases h
  · exact hm topic key (within_contained c _ call.1 call.2 m topic key hpending)

/-! ## Failures that escape -/

namespace Shelf

variable {α : Type} (shelf : Shelf NodeId α)

/-- The nodes that a question is being answered about. -/
def pending (m : Memory) : Set NodeId := {id | (id, .inProgress) ∈ shelf.entries m}

variable {shelf} (hstore : ∀ m entries, shelf.entries (shelf.store m entries) = entries)
  {id : NodeId} {m : Memory}

include hstore

theorem pending_begin : shelf.pending (shelf.note id .inProgress m) = insert id (shelf.pending m) := by
  ext j
  show (j, Entry.inProgress) ∈ shelf.entries (shelf.note id .inProgress m) ↔ _
  rw [note, hstore, Entries.mem_put, Set.mem_insert_iff, beq_iff_eq, Prod.mk.injEq]
  by_cases h : j = id <;> simp [h, pending]

theorem pending_done {answer : α} :
    shelf.pending (shelf.note id (.done answer) m) = shelf.pending m \ {id} := by
  ext j
  show (j, Entry.inProgress) ∈ shelf.entries (shelf.note id (.done answer) m) ↔ _
  rw [note, hstore, Entries.mem_put, beq_iff_eq, Prod.mk.injEq]
  simp [pending]

theorem pending_forget : shelf.pending (shelf.forget id m) = shelf.pending m \ {id} := by
  ext j
  show (j, Entry.inProgress) ∈ shelf.entries (shelf.forget id m) ↔ _
  rw [forget, hstore, Entries.mem_erase, beq_iff_eq]
  simp [pending]

end Shelf

namespace Querying

variable {α β : Type} {I : Memory → Prop} {blocked blocked' : Prop}

/-- There is an answer, or else a question that needs its own answer, which is only where there
can be one. -/
def Succeeds (blocked : Prop) : Except QueryError α → Prop
  | .ok _ => True
  | .error (.cyclic _ _) => blocked
  | .error (.fault _) => False

theorem Succeeds.imp {r : Except QueryError α} (h : Succeeds blocked r)
    (himp : blocked → blocked') : Succeeds blocked' r := by
  cases r with
  | ok a => trivial
  | error e =>
    cases e with
    | cyclic node topic => exact himp h
    | fault f => exact h

theorem Succeeds.skipped {r : Except QueryError α} (h : Succeeds blocked r) :
    Succeeds blocked' (skipped r) := by
  cases r with
  | ok a => trivial
  | error e =>
    cases e with
    | cyclic node topic => trivial
    | fault f => exact h

theorem Gives.bind_succeeds {x : Querying α} {f : α → Querying β}
    (hx : Gives I (Succeeds blocked) x) (hf : ∀ a, Gives I (Succeeds blocked) (f a)) :
    Gives I (Succeeds blocked) (x >>= f) :=
  hx.bind (fun a _ => hf a) fun e he => by cases e <;> exact he

theorem gives_ofOption {o : Option α} (h : o.isSome = true) :
    Gives I (Succeeds blocked) (ofOption o) := by
  cases o with
  | some a => exact gives_pure trivial
  | none => cases h

theorem gives_mapM {f : α → Querying β} {as : List α}
    (h : ∀ a ∈ as, Gives I (Succeeds blocked) (f a)) : Gives I (Succeeds blocked) (as.mapM f) := by
  induction as with
  | nil => exact gives_pure trivial
  | cons a as ih =>
    rw [List.forall_mem_cons] at h
    rw [List.mapM_cons]
    exact h.1.bind_succeeds fun b => (ih h.2).bind_succeeds fun bs => gives_pure trivial

/-- A question about a node that is not being asked about is answered through others while it is. -/
theorem gives_memoize {shelf : Shelf NodeId α}
    (hstore : ∀ m entries, shelf.entries (shelf.store m entries) = entries) {id node : NodeId}
    {topic : Topic} {A : Set NodeId} {x : Querying α} (hself : id ∈ A → blocked)
    (hx : id ∉ A → Gives (shelf.pending · = insert id A) (Succeeds blocked) x) :
    Gives (shelf.pending · = A) (Succeeds blocked) (shelf.memoize id node topic x) := by
  rintro m rfl
  unfold Shelf.memoize
  rw [ExceptT.run_mk]
  rcases hremembered : shelf.remembered? id m with _ | ⟨_ | answer⟩
  · dsimp only
    have hnew : id ∉ shelf.pending m := by
      intro hmem
      have hne := List.lookup_eq_none_iff.mp hremembered _ hmem
      simp at hne
    have hcomputed := hx hnew (shelf.note id .inProgress m) (Shelf.pending_begin hstore)
    generalize x.run (shelf.note id .inProgress m) = outcome at *
    obtain ⟨e | a, m'⟩ := outcome
    · refine ⟨?_, hcomputed.2⟩
      rw [Shelf.pending_forget hstore, hcomputed.1, Set.insert_sdiff_self_of_notMem hnew]
    · refine ⟨?_, trivial⟩
      rw [Shelf.pending_done hstore, hcomputed.1, Set.insert_sdiff_self_of_notMem hnew]
  · obtain ⟨key, hmem, heq⟩ := Entries.mem_of_lookup hremembered
    rw [beq_iff_eq] at heq
    subst heq
    exact ⟨rfl, hself hmem⟩
  · exact ⟨rfl, trivial⟩

end Querying

/-! ## Collations that can be told -/

/-- Number of operands that the movement of a call is read off. -/
def Op.movers : Op → Nat
  | plus | minus | times | divide => 2
  | unaryMinus | floor | ceil | cast => 1
  | _ => 0

namespace Expr

mutual

/-- Whether every call that the movement is read off has the operands that its operator reads. -/
def hasMovement : Expr → Bool
  | apply op es _ => haveMovement op.movers es
  | _ => true

/-- Whether so many expressions that have a movement lead a list. -/
def haveMovement : Nat → List Expr → Bool
  | 0, _ => true
  | _ + 1, [] => false
  | count + 1, e :: es => hasMovement e && haveMovement count es

end

theorem exists_of_haveMovement {count i : Nat} {es : List Expr} (h : haveMovement count es = true)
    (hi : i < count) : ∃ e, es[i]? = some e ∧ e.hasMovement = true := by
  induction es generalizing count i with
  | nil =>
    cases count with
    | zero => cases hi
    | succ count => cases h
  | cons e es ih =>
    cases count with
    | zero => cases hi
    | succ count =>
      obtain ⟨he, hes⟩ := Bool.and_eq_true_iff.mp h
      cases i with
      | zero => exact ⟨e, rfl, he⟩
      | succ i => exact ih hes (Nat.lt_of_succ_lt_succ hi)

theorem monotonicities_getElem? (collations : List Collation) (es : List Expr) (i : Nat) :
    (monotonicities collations es)[i]?.join = es[i]? >>= monotonicity? collations := by
  induction es generalizing i with
  | nil => rfl
  | cons e es ih =>
    cases i with
    | zero => rfl
    | succ i => exact ih i

theorem exists_movement {e : Expr} (h : e.hasMovement = true) (collations : List Collation) :
    ∃ m, e.monotonicity? collations = some m := by
  induction e using Expr.induct with
  | column | literal | tableColumn => exact ⟨_, rfl⟩
  | apply op es t ih =>
    have hoperand : ∀ i < op.movers, ∃ m, (monotonicities collations es)[i]?.join = some m := by
      intro i hi
      obtain ⟨e, he, hmoves⟩ := exists_of_haveMovement h hi
      obtain ⟨m, hm⟩ := ih e (List.mem_of_getElem? he) hmoves
      exact ⟨m, by rw [monotonicities_getElem?, he]; exact hm⟩
    rw [monotonicity?]
    unfold callMonotonicity?
    cases op with
    | plus | minus | times | divide =>
      obtain ⟨m₀, h₀⟩ := hoperand 0 (by decide)
      obtain ⟨m₁, h₁⟩ := hoperand 1 (by decide)
      exact ⟨_, by simp only [h₀, h₁]; rfl⟩
    | unaryMinus | floor | ceil | cast =>
      obtain ⟨m₀, h₀⟩ := hoperand 0 (by decide)
      exact ⟨_, by simp only [h₀]; rfl⟩
    | _ => exact ⟨_, rfl⟩

end Expr

namespace Collation

theorem exists_movingFields {exprs : List (Expr × Nat)} (inputs : List Collation)
    (h : ∀ p ∈ exprs, p.1.hasMovement = true) : ∃ fields, movingFields? inputs exprs = some fields := by
  induction exprs with
  | nil => exact ⟨[], rfl⟩
  | cons p exprs ih =>
    rw [List.forall_mem_cons] at h
    obtain ⟨e, i⟩ := p
    obtain ⟨there, hthere⟩ := ih h.2
    obtain ⟨m, hm⟩ := Expr.exists_movement h.1 inputs
    unfold movingFields?
    cases e with
    | apply op es t => exact ⟨_, by simp only [hm, hthere]; rfl⟩
    | _ => exact ⟨_, by simp only [hthere]; rfl⟩

theorem exists_ofProjection {exprs : List Expr} (inputs : List Collation)
    (h : ∀ e ∈ exprs, e.hasMovement = true) : (ofProjection? exprs inputs).isSome = true := by
  have hzip : ∀ p ∈ exprs.zipIdx, p.1.hasMovement = true := fun p hp =>
    h p.1 (List.fst_mem_of_mem_zipIdx hp)
  obtain ⟨moving, hmoving⟩ := exists_movingFields inputs hzip
  unfold ofProjection?
  split
  · rfl
  · rw [hmoving]
    rfl

variable {rows : List Row} {n : Nat}

/-- Rows that have every column that is sorted can be compared. -/
theorem exists_sorts {c : Collation} (h : ∀ row ∈ rows, ∀ k ∈ c.keys, k < row.length) :
    ∃ sorted, c.sorts? rows = some sorted := by
  have hcompares : ∀ a ∈ rows, ∀ b ∈ rows, c.canCompare a b = true := by
    intro a ha b hb
    have hkeys : ∀ fc ∈ c.fields, fc.field < a.length ∧ fc.field < b.length := fun fc hfc =>
      ⟨h a ha _ (List.mem_map_of_mem hfc), h b hb _ (List.mem_map_of_mem hfc)⟩
    unfold canCompare
    generalize c.fields = fields at hkeys
    induction fields with
    | nil => rfl
    | cons fc fields ih =>
      rw [List.forall_mem_cons] at hkeys
      simp [canCompareBy, hkeys.1, ih hkeys.2]
  induction rows with
  | nil => exact ⟨true, rfl⟩
  | cons a rows ih =>
    cases rows with
    | nil => exact ⟨true, rfl⟩
    | cons b rest =>
      obtain ⟨sorted, hsorted⟩ := ih (fun row hrow => h row (List.mem_cons_of_mem _ hrow))
        fun x hx y hy => hcompares x (List.mem_cons_of_mem _ hx) y (List.mem_cons_of_mem _ hy)
      have hcompare := hcompares a List.mem_cons_self b (List.mem_cons_of_mem _ List.mem_cons_self)
      rw [sorts?, hcompare]
      cases c.order a b == .gt with
      | true => exact ⟨false, rfl⟩
      | false => exact ⟨sorted, hsorted⟩

theorem exists_sorts_ofKeys (h : ∀ row ∈ rows, n ≤ row.length) {keys : List Nat}
    (hkeys : ∀ k ∈ keys, k < n) : ∃ sorted, (ofKeys keys).sorts? rows = some sorted :=
  exists_sorts fun row hrow k hk =>
    Nat.lt_of_lt_of_le (hkeys k (by rwa [keys_ofKeys] at hk)) (h row hrow)

theorem exists_extendKey (h : ∀ row ∈ rows, n ≤ row.length) {key columns : List Nat}
    (hkey : ∀ k ∈ key, k < n) (hcolumns : ∀ k ∈ columns, k < n) :
    ∃ longer, extendKey? rows key columns = some longer := by
  induction columns generalizing key with
  | nil => exact ⟨key, rfl⟩
  | cons column columns ih =>
    rw [List.forall_mem_cons] at hcolumns
    have hlonger : ∀ k ∈ key ++ [column], k < n := by
      intro k hk
      rcases List.mem_append.mp hk with hk | hk
      · exact hkey k hk
      · rw [List.mem_singleton.mp hk]
        exact hcolumns.1
    obtain ⟨sorted, hsorted⟩ := exists_sorts_ofKeys h hlonger
    rw [extendKey?, hsorted]
    cases sorted with
    | true => exact ih hlonger hcolumns.2
    | false => exact ih hkey hcolumns.2

theorem exists_ofRows (h : ∀ row ∈ rows, n ≤ row.length) : (ofRows? n rows).isSome = true := by
  have hfound : ∀ column ∈ List.range n, ∃ found, keyFrom? n rows column = some found := by
    intro column hcolumn
    rw [List.mem_range] at hcolumn
    have hkey : ∀ k ∈ [column], k < n := List.forall_mem_singleton.mpr hcolumn
    have hlater : ∀ k ∈ (List.range (n - column - 1)).map (column + 1 + ·), k < n := by
      intro k hk
      obtain ⟨i, hi, rfl⟩ := List.mem_map.mp hk
      have := List.mem_range.mp hi
      omega
    obtain ⟨sorted, hsorted⟩ := exists_sorts_ofKeys h hkey
    obtain ⟨longer, hlonger⟩ := exists_extendKey h hkey hlater
    unfold keyFrom?
    rw [hsorted]
    cases sorted with
    | false => exact ⟨none, rfl⟩
    | true => exact ⟨some (ofKeys longer), by simp [hlonger]⟩
  choose! found hfound using hfound
  unfold ofRows?
  rw [Outcome.mapM_eq_some_map hfound]
  rfl

end Collation

/-! ## Methods that succeed -/

namespace Operator

/-- Finding the collations of a node with this operator does not break off: projected calls have
operands, literal rows have every column, and a join does not merge. -/
def TellsCollations : Operator → Prop
  | values _ rowType tuples => ∀ row ∈ tuples, rowType.arity ≤ row.length
  | project _ columns => ∀ p ∈ columns, p.1.hasMovement = true
  | join algorithm _ _ => algorithm ≠ .merge
  | _ => True

instance : (o : Operator) → Decidable o.TellsCollations
  | values _ rowType tuples =>
    inferInstanceAs (Decidable (∀ row ∈ tuples, rowType.arity ≤ row.length))
  | project _ columns => inferInstanceAs (Decidable (∀ p ∈ columns, p.1.hasMovement = true))
  | join algorithm _ _ => inferInstanceAs (Decidable (algorithm ≠ .merge))
  | scan _ _ | filter _ _ | correlate _ _ _ _ | aggregate _ _ _ | sort _ _ _ _ | union _ _
  | intersect _ | minus _ | exchange _ | sortExchange _ _ | subset _ => .isTrue trivial

/-- The method that row counts of an operator's nodes are found by. -/
def rowCountMethod : Operator → RowCountMethod
  | scan _ _ => .tableScan
  | values _ _ _ => .values
  | filter _ _ => .filter
  | project _ _ | exchange _ | sortExchange _ _ => .firstInput
  | join .semi _ _ => .semiJoin
  | join _ _ _ => .join
  | correlate _ _ _ _ => .correlate
  | aggregate _ _ _ => .aggregate
  | sort _ _ _ _ => .sort
  | union _ _ | intersect _ | minus _ => .setOperation
  | subset _ => .subset

theorem rowCount_methodFor_kind (o : Operator) :
    Methods.builtin.rowCount.methodFor o.kind = o.rowCountMethod := by
  cases o with
  | join algorithm _ _ => cases algorithm <;> rfl
  | scan v _ | values v _ _ | filter v _ | project v _ | correlate v _ _ _ | aggregate v _ _
  | sort v _ _ _ | union v _ => cases v <;> rfl
  | _ => rfl

end Operator

section

open Querying

variable {c : Cluster} {ask : Asking} {id : NodeId} {I : Memory → Prop} {blocked : Prop} {α : Type}

theorem Cluster.length_inputs {n : Nat} (h : (c.operator id).inputCount? = some n) :
    (c.inputs id).length = n := by
  by_cases hid : id < c.size
  · have htakes := Cluster.takes_inputs hid
    rw [Operator.takes, h] at htakes
    exact of_decide_eq_true htakes
  · rw [Cluster.operator_eq_default hid] at h
    cases h
    rw [Cluster.inputs_eq_nil hid]
    rfl

theorem gives_input {n i : Nat} {f : NodeId → Querying α}
    (hcount : (c.operator id).inputCount? = some n) (hi : i < n)
    (hf : ∀ j ∈ c.inputs id, Gives I (Succeeds blocked) (f j)) :
    Gives I (Succeeds blocked) (input c id i >>= f) := by
  have hlt : i < (c.inputs id).length := by rwa [Cluster.length_inputs hcount]
  have hinput : input c id i = pure (c.inputs id)[i] := by
    rw [input, Cluster.input?, List.getElem?_eq_getElem hlt]
    rfl
  rw [hinput, pure_bind]
  exact hf _ (List.getElem_mem hlt)

namespace CollationsMethod

/-- Members that fail since a question needs its own answer are left out. -/
theorem gives_sharedBy {members : List NodeId} (shared : Option (List Collation))
    (h : ∀ j ∈ members, Gives I (Succeeds True) (ask.collations j)) :
    Gives I (Succeeds blocked) (sharedBy ask shared members) := by
  induction members generalizing shared with
  | nil => exact gives_pure trivial
  | cons member members ih =>
    rw [List.forall_mem_cons] at h
    refine (h.1.skipCyclic fun r hr => hr.skipped).bind_succeeds fun collations? => ?_
    cases collations? with
    | some collations => exact ih _ h.2
    | none => exact ih _ h.2

variable (hinputs : ∀ j ∈ c.inputs id, Gives I (Succeeds blocked) (ask.collations j))

include hinputs

theorem gives_firstInput {n : Nat} (hcount : (c.operator id).inputCount? = some n) (hn : 0 < n) :
    Gives I (Succeeds blocked) (firstInput.answer c ask id) :=
  gives_input hcount hn hinputs

/-- The collations of a node are found if those of its inputs are. -/
theorem gives_answer
    (hbest : ∀ j, (c.node id).best = some j → Gives I (Succeeds blocked) (ask.collations j))
    (htells : (c.operator id).TellsCollations)
    (hmembers : ∀ j ∈ (c.node id).members, Gives I (Succeeds True) (ask.collations j)) :
    Gives I (Succeeds blocked) ((c.operator id).collationsMethod.answer c ask id) := by
  cases hop : c.operator id with
  | scan | aggregate | union | intersect | minus => exact gives_pure trivial
  | values v rowType tuples =>
    rw [hop] at htells
    have hid : id < c.size := by
      by_contra hid
      rw [Cluster.operator_eq_default hid] at hop
      cases hop
    have harity : c.arity id = rowType.arity := by
      rw [Cluster.arity, Cluster.rowType_eq hid, hop]
      rfl
    unfold Operator.collationsMethod answer
    simp only [hop, harity]
    exact gives_ofOption (Collation.exists_ofRows htells)
  | filter | exchange | correlate =>
    exact gives_firstInput hinputs (by rw [hop]; rfl) (by decide)
  | project v columns =>
    rw [hop] at htells
    unfold Operator.collationsMethod answer
    simp only [hop, Operator.projection?]
    refine gives_input (by rw [hop]; rfl) Nat.one_pos fun j hj => ?_
    refine (hinputs j hj).bind_succeeds fun collations => gives_ofOption ?_
    refine Collation.exists_ofProjection _ fun e he => ?_
    obtain ⟨p, hp, rfl⟩ := List.mem_map.mp he
    exact htells p hp
  | join algorithm joinType condition =>
    cases algorithm with
    | logical => exact gives_pure trivial
    | semi => exact gives_firstInput hinputs (by rw [hop]; rfl) (by decide)
    | hash | nestedLoop =>
      exact gives_input (by rw [hop]; rfl) Nat.two_pos fun j hj =>
        (hinputs j hj).bind_succeeds fun lefts => gives_pure trivial
    | merge =>
      rw [hop] at htells
      exact absurd rfl htells
  | sort | sortExchange =>
    unfold Operator.collationsMethod answer
    simp only [hop]
    exact gives_pure trivial
  | subset rowType =>
    unfold Operator.collationsMethod answer
    dsimp only
    split
    · next best hchosen => exact hbest best hchosen
    · split
      · exact gives_sharedBy none hmembers
      · exact gives_pure trivial

end CollationsMethod

namespace RowCountMethod

theorem gives_leastOf {members : List NodeId} (best : Option Float)
    (h : ∀ j ∈ members, Gives I (Succeeds True) (ask.rowCount j)) :
    Gives I (Succeeds blocked) (leastOf ask best members) := by
  induction members generalizing best with
  | nil => exact gives_pure trivial
  | cons member members ih =>
    rw [List.forall_mem_cons] at h
    refine (h.1.skipCyclic fun r hr => hr.skipped).bind_succeeds fun rows? => ?_
    cases rows? with
    | some rows => exact ih _ h.2
    | none => exact ih _ h.2

/-- The row count of a node is found if those of its inputs are, and for an aggregate also how many
groups there are. -/
theorem gives_answer
    (hgroups : ∀ group calls, (c.operator id).aggregate? = some (group, calls) →
      ∀ j ∈ c.inputs id, Gives I (Succeeds blocked) (ask.distinct j group none))
    (hinputs : ∀ j ∈ c.inputs id, Gives I (Succeeds blocked) (ask.rowCount j))
    (hmembers : ∀ j ∈ (c.node id).members, Gives I (Succeeds True) (ask.rowCount j)) :
    Gives I (Succeeds blocked) ((c.operator id).rowCountMethod.answer c ask id) := by
  have hof : ∀ {n i : Nat} {α : Type} {f : Float → Querying α},
      (c.operator id).inputCount? = some n → i < n →
      (∀ rows, Gives I (Succeeds blocked) (f rows)) →
      Gives I (Succeeds blocked) (input c id i >>= fun j => ask.rowCount j >>= f) :=
    fun hcount hi hf => gives_input hcount hi fun j hj => (hinputs j hj).bind_succeeds hf
  cases hop : c.operator id with
  | scan | values =>
    unfold Operator.rowCountMethod answer
    simp only [hop]
    exact gives_pure trivial
  | filter => exact hof (by rw [hop]; rfl) Nat.one_pos fun rows => gives_pure trivial
  | project | exchange | sortExchange =>
    exact gives_input (by rw [hop]; rfl) Nat.one_pos hinputs
  | sort v collation offset fetch =>
    refine hof (by rw [hop]; rfl) Nat.one_pos fun rows => ?_
    simp only [hop]
    exact gives_pure trivial
  | join algorithm joinType condition =>
    cases algorithm with
    | semi => exact hof (by rw [hop]; rfl) Nat.two_pos fun rows => gives_pure trivial
    | _ =>
      unfold Operator.rowCountMethod answer
      simp only [hop]
      exact hof (by rw [hop]; rfl) Nat.two_pos fun left =>
        hof (by rw [hop]; rfl) Nat.one_lt_two fun right => gives_pure trivial
  | correlate v correlation required joinType =>
    refine hof (by rw [hop]; rfl) Nat.two_pos fun left => ?_
    simp only [hop]
    split
    · exact hof (by rw [hop]; rfl) Nat.one_lt_two fun right => gives_pure trivial
    · exact gives_pure trivial
  | aggregate v group calls =>
    unfold Operator.rowCountMethod answer
    simp only [hop, Operator.aggregate?]
    split
    · exact gives_pure trivial
    · refine gives_input (by rw [hop]; rfl) Nat.one_pos fun j hj => ?_
      refine (hgroups group calls (by rw [hop]; rfl) j hj).bind_succeeds fun groups? => ?_
      cases groups? with
      | some groups => exact gives_pure trivial
      | none => exact (hinputs j hj).bind_succeeds fun rows => gives_pure trivial
  | union | intersect | minus =>
    exact (gives_mapM hinputs).bind_succeeds fun counts => gives_pure trivial
  | subset => exact (gives_leastOf none hmembers).bind_succeeds fun best => gives_pure trivial

end RowCountMethod

end

/-! ## Nodes that a failure escapes from -/

namespace Cluster

variable {c : Cluster} {A : Set NodeId} {id j : NodeId}

/-- A node of the set is under this one. -/
def Blocked (c : Cluster) (A : Set NodeId) (id : NodeId) : Prop :=
  ∃ k ∈ A, ReflTransGen (fun i j => j ∈ c.inputs i) id k

theorem MadeOf.lt_size (h : c.MadeOf id j) : id < c.size := by
  by_contra hid
  rcases h with hinput | hmember
  · rw [inputs_eq_nil hid] at hinput
    cases hinput
  · exact hid (lt_size_of_isSubset (isSubset_of_mem_members hmember))

theorem blocked_of_mem (h : id ∈ A) : c.Blocked A id := ⟨id, h, .refl⟩

theorem not_blocked_empty : ¬c.Blocked ∅ id := fun ⟨_, hk, _⟩ => hk

/-- A node is not under its inputs. -/
theorem Blocked.of_input (h : c.Blocked (insert id A) j) (hj : j ∈ c.inputs id) : c.Blocked A id := by
  obtain ⟨k, hk, hunder⟩ := h
  have hle : k ≤ j := by
    clear hk
    induction hunder with
    | refl => exact Nat.le_refl j
    | tail _ hinput ih => exact Nat.le_trans (Nat.le_of_lt (c.inputs_lt hinput)) ih
  have hne : k ≠ id := Nat.ne_of_lt (Nat.lt_of_le_of_lt hle (c.inputs_lt hj))
  exact ⟨k, hk.resolve_left hne, .head hj hunder⟩

/-- Number of nodes that are not in a set. -/
noncomputable def idle (c : Cluster) (A : Set NodeId) : Nat := {j | j < c.size ∧ j ∉ A}.ncard

theorem finite_idle : {j | j < c.size ∧ j ∉ A}.Finite :=
  (Set.finite_lt_nat c.size).subset fun _ h => h.1

theorem idle_insert_lt (hid : id < c.size) (hnew : id ∉ A) : c.idle (insert id A) < c.idle A := by
  refine Set.ncard_lt_ncard ⟨fun k hk => ⟨hk.1, fun h => hk.2 (.inr h)⟩, fun hsub => ?_⟩ finite_idle
  exact (hsub ⟨hid, hnew⟩).2 (.inl rfl)

theorem idle_lt_bound : c.idle A < 64 * (c.size + 1) := by
  have hle : c.idle A ≤ (Finset.range c.size : Set NodeId).ncard :=
    Set.ncard_le_ncard (fun k hk => Finset.mem_coe.mpr (Finset.mem_range.mpr hk.1))
      (Finset.finite_toSet _)
  rw [Set.ncard_coe_finset, Finset.card_range] at hle
  omega

end Cluster

namespace Querying

variable {c : Cluster} {α : Type} {shelf : Shelf NodeId α}

/-- Questions of nodes that are answered through those of their inputs and members have an answer, as
long as there are enough questions left, unless a node under them is being asked about. -/
theorem gives_question (topic : Topic) (question compute : Nat → NodeId → Querying α)
    {P : NodeId → Prop}
    (hstore : ∀ m entries, shelf.entries (shelf.store m entries) = entries)
    (hquestion : ∀ depth id,
      question (depth + 1) id = shelf.memoize id id topic (compute depth id))
    (hcompute : ∀ (I : Memory → Prop) (blocked : Prop) depth id, P id →
      (∀ j ∈ c.inputs id, Gives I (Succeeds blocked) (question depth j)) →
      (∀ j ∈ (c.node id).members, Gives I (Succeeds True) (question depth j)) →
      Gives I (Succeeds blocked) (compute depth id))
    (hP : ∀ id j, P id → c.MadeOf id j → P j)
    {depth : Nat} {A : Set NodeId} {id : NodeId} (hidle : c.idle A < depth) (hid : P id) :
    Gives (shelf.pending · = A) (Succeeds (c.Blocked A id)) (question depth id) := by
  induction depth generalizing A id with
  | zero => exact absurd hidle (Nat.not_lt_zero _)
  | succ depth ih =>
    rw [hquestion]
    refine gives_memoize hstore Cluster.blocked_of_mem fun hnew => ?_
    have hbelow : ∀ j, c.MadeOf id j → Gives (shelf.pending · = insert id A)
        (Succeeds (c.Blocked (insert id A) j)) (question depth j) := by
      intro j hj
      have hlt := Cluster.idle_insert_lt hj.lt_size hnew
      exact ih (by omega) (hP id j hid hj)
    refine hcompute _ _ depth id hid (fun j hj => ?_) fun j hj => ?_
    · exact (hbelow j (.inl hj)).imp fun r hr => hr.imp fun h => h.of_input hj
    · exact (hbelow j (.inr hj)).imp fun r hr => hr.imp fun _ => trivial

/-- Where nothing is being asked, such a question has an answer. -/
theorem Gives.exists_answer {x : Querying α} {id : NodeId}
    (h : Gives (shelf.pending · = ∅) (Succeeds (c.Blocked ∅ id)) x) (hempty : shelf.pending {} = ∅) :
    ∃ a, (x.run {}).1 = .ok a := by
  obtain ⟨-, hsucceeds⟩ := h {} hempty
  cases hanswer : (x.run {}).1 with
  | ok a => exact ⟨a, rfl⟩
  | error e =>
    rw [hanswer] at hsucceeds
    cases e with
    | cyclic node topic => exact absurd hsucceeds Cluster.not_blocked_empty
    | fault f => exact hsucceeds.elim

end Querying

namespace Asking

open Querying

variable {c : Cluster}

theorem exists_collations (hmethods : c.methods = .builtin) (hbest : ∀ id, (c.node id).best = none)
    (htells : ∀ id, (c.operator id).TellsCollations) (id : NodeId) :
    ∃ collations, (((of c).collations id).run {}).1 = .ok collations := by
  have hgives : Gives (Shelf.collations.pending · = ∅) (Succeeds (c.Blocked ∅ id))
      ((of c).collations id) := by
    refine gives_question .collations (fun depth id => (within c depth).collations id)
      (fun depth id => (c.operator id).collationsMethod.answer c (within c depth) id)
      (fun _ _ => rfl) (fun depth id => ?_) (fun I blocked depth id _ hinputs hmembers => ?_)
      (fun _ _ _ _ => trivial) Cluster.idle_lt_bound (P := fun _ => True) trivial
    · rw [← Operator.methodFor_kind, ← hmethods]
      rfl
    · exact CollationsMethod.gives_answer hinputs (fun j hj => by cases (hbest id).symm.trans hj) (htells id) hmembers
  exact hgives.exists_answer (Set.eq_empty_of_forall_notMem fun _ => List.not_mem_nil)

theorem exists_rowCount (hmethods : c.methods = .builtin) {id : NodeId}
    (haggregate : ∀ j, ReflTransGen c.MadeOf id j → (c.operator j).aggregate? = none) :
    ∃ rows, (((of c).rowCount id).run {}).1 = .ok rows := by
  have hgives : Gives (Shelf.rowCount.pending · = ∅) (Succeeds (c.Blocked ∅ id))
      ((of c).rowCount id) := by
    refine gives_question .rowCount (fun depth id => (within c depth).rowCount id)
      (fun depth id => do
        let rows ← (c.operator id).rowCountMethod.answer c (within c depth) id
        return Double.max rows 0.0)
      (fun _ _ => rfl) (fun depth id => ?_) (fun I blocked depth j hj hinputs hmembers => ?_)
      (fun j k hj hk => hj.tail hk) Cluster.idle_lt_bound (P := ReflTransGen c.MadeOf id) .refl
    · rw [← Operator.rowCount_methodFor_kind, ← hmethods]
      rfl
    · have hgroups : ∀ group calls, (c.operator j).aggregate? = some (group, calls) →
          ∀ k ∈ c.inputs j, Gives I (Succeeds blocked) ((within c depth).distinct k group none) :=
        fun group calls h => by cases (haggregate j hj).symm.trans h
      exact (RowCountMethod.gives_answer hgroups hinputs hmembers).bind_succeeds
        fun rows => gives_pure trivial
  exact hgives.exists_answer (Set.eq_empty_of_forall_notMem fun _ => List.not_mem_nil)

/-- Whatever cycles subsets form, as long as none of them has a best member: every node has collations,
and every node that is not made of an aggregate has a row count; and no question of any topic, whatever
was asked before and whatever its outcome, leaves a question in progress. Collations of projections
are told of calls with operands, and those of literal rows of rows with every column. -/
theorem cycles_contained (c : Cluster) (hmethods : c.methods = .builtin)
    (hbest : ∀ id < c.size, (c.node id).best = none) :
    ((∀ id < c.size, (c.operator id).TellsCollations) →
      ∀ id, ∃ collations, (((of c).collations id).run {}).1 = .ok collations) ∧
    (∀ id, (∀ j, ReflTransGen c.MadeOf id j → (c.operator j).aggregate? = none) →
      ∃ rows, (((of c).rowCount id).run {}).1 = .ok rows) ∧
    ∀ (m : Memory) (topic : Topic) (key : topic.Key) (other : Topic) (key' : other.Key),
      (((of c).about topic key).run m).2.Pending other key' → m.Pending other key' := by
  refine ⟨fun htells id => ?_, fun id haggregate => exists_rowCount hmethods haggregate,
    fun m topic key other key' h => within_contained c _ topic key m other key' h⟩
  refine exists_collations hmethods (fun j => ?_) (fun j => ?_) id
  · by_cases hj : j < c.size
    · exact hbest j hj
    · rw [Cluster.node, show c.nodes[j]? = none from Array.getElem?_eq_none (Nat.le_of_not_lt hj)]
      rfl
  · by_cases hj : j < c.size
    · exact htells j hj
    · rw [Cluster.operator_eq_default hj]
      trivial

/-- In the session with two subsets that are members of each other through filters, the first one,
asked about on its own, has its collations and its row count. -/
theorem cycles_contained_orders :
    (∃ collations, (((of orderSession).collations 1).run {}).1 = .ok collations) ∧
    (∃ rows, (((of orderSession).rowCount 1).run {}).1 = .ok rows) ∧
    ¬(((of orderSession).about .collations (1 : Nat)).run {}).2.Pending .collations (1 : Nat) := by
  obtain ⟨hcollations, hrows, hpending⟩ :=
    cycles_contained orderSession rfl (by decide +kernel)
  refine ⟨hcollations (by decide +kernel) 1, hrows 1 fun j _ => ?_, fun h => ?_⟩
  · by_cases hj : j < orderSession.size
    · have hall : ∀ k < orderSession.size, (orderSession.operator k).aggregate? = none := by
        decide +kernel
      exact hall j hj
    · rw [Cluster.operator_eq_default hj]
      rfl
  · cases hpending {} .collations (1 : Nat) .collations (1 : Nat) h

/-! ## Plans whose collations can not be told -/

/-- A table of numbers in ascending order. -/
def ascendingNumbers : Table :=
  { name := ["T"], rowType := ⟨[⟨"a", .bigint, true⟩]⟩, source := some (.ok [[.integer 1]])
    collations := [.ofKeys [0]] }

/-- A sum without operands over a sorted table, and rows that lack the second of two columns. -/
def incompletePlans : Planning NodeId := do
  let scan ← Cluster.createDefault (.scan .none ascendingNumbers) []
  let _ ← Cluster.createDefault (.project .none [(.call .plus [], "s")]) [scan]
  Cluster.createDefault (.values .none ⟨[⟨"a", .bigint, true⟩, ⟨"b", .bigint, true⟩]⟩
    [[.integer 1], [.integer 2]]) []

def incompleteSession : Cluster :=
  (incompletePlans.run.run (Cluster.start ⟨[ascendingNumbers]⟩ default default)).2

/-- Without cycles and merge joins, asking for the collations of a sum that lacks its operands or of rows
that lack a column breaks off. -/
theorem collations_break_off :
    incompleteSession.methods = .builtin ∧ incompleteSession.size = 3 ∧
    (∀ id < incompleteSession.size, (incompleteSession.node id).best = none ∧
      (incompleteSession.operator id).join? = none) ∧
    (((of incompleteSession).collations 1).run {}).1.toOption = none ∧
    (((of incompleteSession).collations 2).run {}).1.toOption = none :=
  ⟨rfl, by decide +kernel⟩

end Asking

end QueryPlan
