import QueryPlan.Proofs.Metadata.History
/-!
# Queries about all topics

What holds of the memory before a query and after it, whatever is asked in between: a query is put
together of questions, and a question looks into the memory, notes itself and in the end either its
answer or nothing. So what one question does to the memory decides what every query does to it.
-/
namespace QueryPlan

namespace LineageKey

theorem beq_eq (key key' : LineageKey) :
    (key == key') = (key.node == key'.node && key.expr == key'.expr) := rfl

theorem beq_self (key : LineageKey) : (key == key) = true := by
  rw [beq_eq]
  simp

end LineageKey

namespace Topic

/-- What is asked about a topic: a node, with columns and a predicate for distinct rows and an
expression for its lineage. -/
def Key : Topic → Type
  | rowCount | collations | tableRefs => NodeId
  | distinct => DistinctKey
  | lineage => LineageKey

def Answer : Topic → Type
  | rowCount => Float
  | collations => List Collation
  | distinct => Option Float
  | lineage => Lineage
  | tableRefs => Option (List TableRef)

instance : (topic : Topic) → BEq topic.Key
  | rowCount | collations | tableRefs => inferInstanceAs (BEq Nat)
  | distinct => inferInstanceAs (BEq DistinctKey)
  | lineage => inferInstanceAs (BEq LineageKey)

def node : (topic : Topic) → topic.Key → NodeId
  | rowCount, id | collations, id | tableRefs, id => id
  | distinct, key => key.node
  | lineage, key => key.node

/-- Where the answers about a topic are kept. -/
def shelf : (topic : Topic) → Shelf topic.Key topic.Answer
  | rowCount => Shelf.rowCount
  | collations => Shelf.collations
  | distinct => Shelf.distinct
  | lineage => Shelf.lineage
  | tableRefs => Shelf.tableRefs

theorem entries_store (topic : Topic) (m : Memory) (entries : Entries topic.Key topic.Answer) :
    topic.shelf.entries (topic.shelf.store m entries) = entries := by
  cases topic <;> rfl

theorem entries_store_of_ne {topic other : Topic} (h : other ≠ topic) (m : Memory)
    (entries : Entries topic.Key topic.Answer) :
    other.shelf.entries (topic.shelf.store m entries) = other.shelf.entries m := by
  cases topic <;> cases other <;> first | rfl | exact absurd rfl h

variable {topic other : Topic} {key : topic.Key} {entry : Entry topic.Answer} {m : Memory}

theorem mem_note {e : topic.Key × Entry topic.Answer} :
    e ∈ topic.shelf.entries (topic.shelf.note key entry m) ↔
      e = (key, entry) ∨ e ∈ topic.shelf.entries m ∧ ¬(e.1 == key) = true := by
  rw [Shelf.note, entries_store, Entries.mem_put]

theorem mem_forget {e : topic.Key × Entry topic.Answer} :
    e ∈ topic.shelf.entries (topic.shelf.forget key m) ↔
      e ∈ topic.shelf.entries m ∧ ¬(e.1 == key) = true := by
  rw [Shelf.forget, entries_store, Entries.mem_erase]

theorem entries_note_of_ne (h : other ≠ topic) :
    other.shelf.entries (topic.shelf.note key entry m) = other.shelf.entries m :=
  entries_store_of_ne h m _

theorem entries_forget_of_ne (h : other ≠ topic) :
    other.shelf.entries (topic.shelf.forget key m) = other.shelf.entries m :=
  entries_store_of_ne h m _

theorem key_beq_self (topic : Topic) (key : topic.Key) : (key == key) = true := by
  cases topic with
  | rowCount | collations | tableRefs => exact ReflBEq.rfl (α := Nat)
  | distinct => exact DistinctKey.beq_self key
  | lineage => exact LineageKey.beq_self key

end Topic

namespace Asking

/-- Asks about a topic. -/
def about (way : Asking) : (topic : Topic) → topic.Key → Querying topic.Answer
  | .rowCount, id => way.rowCount id
  | .collations, id => way.collations id
  | .distinct, key => way.distinct key.node key.columns key.predicate
  | .lineage, key => way.lineage key.node key.expr
  | .tableRefs, id => way.tableRefs id

theorem through_about (c : Cluster) (next : Asking) (topic : Topic) (key : topic.Key) :
    (through c next).about topic key =
      topic.shelf.memoize key (topic.node key) topic ((directly c next).about topic key) := by
  cases topic <;> rfl

theorem exhausted_about (topic : Topic) (key : topic.Key) :
    exhausted.about topic key = throw (.fault .unbounded) := by
  cases topic <;> rfl

/-- The memory that questions about any topics leave, asked one after the other. -/
def memoryOf (way : Asking) (asked : List ((topic : Topic) × topic.Key)) : Memory :=
  asked.foldl (fun m call => ((way.about call.1 call.2).run m).2) {}

end Asking

/-! ## Methods of tracing under two ways of asking -/

/-- A relation between queries that is kept when queries are put together that do not break off. -/
structure Querying.Composition (R : {α : Type} → Querying α → Querying α → Prop) : Prop where
  pure : ∀ {α : Type} (a : α), R (Pure.pure a) (Pure.pure a)
  bind : ∀ {α β : Type} {x y : Querying α} {f g : α → Querying β},
    R x y → (∀ a, R (f a) (g a)) → R (x >>= f) (y >>= g)

theorem Querying.Congruence.composition {R : {α : Type} → Querying α → Querying α → Prop}
    (hR : Querying.Congruence R) : Querying.Composition R :=
  ⟨hR.pure, hR.bind⟩

section

variable {R : {α : Type} → Querying α → Querying α → Prop} (hR : Querying.Composition R)
  {c : Cluster} {ask ask' : Asking} {id : NodeId} {e : Expr}

include hR

namespace Lineage

theorem related_originsOf {origin origin' : Nat → Querying Lineage} {is : List Nat}
    (h : ∀ i, R (origin i) (origin' i)) : R (originsOf origin is) (originsOf origin' is) := by
  induction is with
  | nil => exact hR.pure _
  | cons i is ih =>
    refine hR.bind (h i) fun exprs? => ?_
    cases exprs? with
    | none => exact hR.pure _
    | some exprs =>
      refine hR.bind ih fun rest? => ?_
      cases rest? with
      | none => exact hR.pure _
      | some rest => exact hR.pure _

theorem related_ofColumns {origin origin' : Nat → Querying Lineage}
    (h : ∀ i, R (origin i) (origin' i)) : R (ofColumns origin e) (ofColumns origin' e) := by
  refine hR.bind (related_originsOf hR h) fun found? => ?_
  cases found? with
  | none => exact hR.pure _
  | some found => exact hR.pure _

theorem related_ofField (h : ∀ e, R (ask.lineage id e) (ask'.lineage id e)) (index : Nat) :
    R (ofField c ask id index) (ofField c ask' id index) := by
  unfold ofField
  split
  · exact h _
  · exact hR.pure _

end Lineage

namespace LineageMethod

theorem related_ofScan : R (ofScan c id e) (ofScan c id e) := by
  unfold ofScan
  split
  · exact hR.pure _
  · exact Lineage.related_ofColumns hR fun i => hR.pure _

theorem related_originsInInput {input : NodeId} {earlier own : List TableRef}
    (hlineage : ∀ e, R (ask.lineage input e) (ask'.lineage input e))
    (origins : List (Nat × List Expr)) (is : List Nat) :
    R (originsInInput c ask input earlier own origins is)
      (originsInInput c ask' input earlier own origins is) := by
  induction is generalizing origins with
  | nil => exact hR.pure _
  | cons i is ih =>
    refine hR.bind (Lineage.related_ofField hR hlineage i) fun exprs? => ?_
    cases exprs? with
    | none => exact hR.pure _
    | some exprs => exact ih _

theorem related_originsInInputs (used : List Nat) (found : UnionOrigins) {inputs : List NodeId}
    (hlineage : ∀ j ∈ inputs, ∀ e, R (ask.lineage j e) (ask'.lineage j e))
    (hrefs : ∀ j ∈ inputs, R (ask.tableRefs j) (ask'.tableRefs j)) :
    R (originsInInputs c ask used found inputs) (originsInInputs c ask' used found inputs) := by
  induction inputs generalizing found with
  | nil => exact hR.pure _
  | cons input inputs ih =>
    rw [List.forall_mem_cons] at hlineage hrefs
    refine hR.bind hrefs.1 fun own? => ?_
    cases own? with
    | none => exact hR.pure _
    | some own =>
      refine hR.bind (related_originsInInput hR hlineage.1 _ _) fun origins? => ?_
      cases origins? with
      | none => exact hR.pure _
      | some origins => exact ih _ hlineage.2 hrefs.2

theorem related_ofUnion (hlineage : ∀ j ∈ c.inputs id, ∀ e, R (ask.lineage j e) (ask'.lineage j e))
    (hrefs : ∀ j ∈ c.inputs id, R (ask.tableRefs j) (ask'.tableRefs j)) :
    R (ofUnion c ask id e) (ofUnion c ask' id e) := by
  refine hR.bind (related_originsInInputs hR _ _ hlineage hrefs) fun found? => ?_
  cases found? with
  | none => exact hR.pure _
  | some found => exact hR.pure _

end LineageMethod

theorem TableRefsMethod.related_ofInputs (refs : List TableRef) {inputs : List NodeId}
    (hrefs : ∀ j ∈ inputs, R (ask.tableRefs j) (ask'.tableRefs j)) :
    R (ofInputs ask refs inputs) (ofInputs ask' refs inputs) := by
  induction inputs generalizing refs with
  | nil => exact hR.pure _
  | cons input inputs ih =>
    rw [List.forall_mem_cons] at hrefs
    refine hR.bind hrefs.1 fun own? => ?_
    cases own? with
    | none => exact hR.pure _
    | some own => exact ih _ hrefs.2

end

section

variable {R : {α : Type} → Querying α → Querying α → Prop} (hR : Querying.Congruence R)
  {c : Cluster} {ask ask' : Asking} {id : NodeId} {e : Expr}

include hR

namespace LineageMethod

variable (hlineage : ∀ j e, R (ask.lineage j e) (ask'.lineage j e))
  (hrefs : ∀ j, R (ask.tableRefs j) (ask'.tableRefs j))

include hlineage

theorem related_ofAggregate : R (ofAggregate c ask id e) (ofAggregate c ask' id e) := by
  unfold ofAggregate
  split
  · exact hR.pure _
  · dsimp only
    split
    · exact hR.pure _
    · refine hR.ofOption_bind _ fun j _ => Lineage.related_ofColumns hR.composition fun i => ?_
      split
      · exact Lineage.related_ofField hR.composition (hlineage j) _
      · exact hR.pure _

theorem related_ofProjection : R (ofProjection c ask id e) (ofProjection c ask' id e) := by
  unfold ofProjection
  split
  · exact hR.pure _
  · refine hR.ofOption_bind _ fun j _ => Lineage.related_ofColumns hR.composition fun i => ?_
    split
    · exact hlineage _ _
    · exact hR.pure _

include hrefs

theorem related_ofJoin : R (ofJoin c ask id e) (ofJoin c ask' id e) := by
  unfold ofJoin
  split
  · exact hR.pure _
  · refine hR.ofOption_bind _ fun left _ => hR.ofOption_bind _ fun right _ => ?_
    dsimp only
    split
    · exact hR.pure _
    refine hR.bind (hrefs left) fun leftRefs? => ?_
    cases leftRefs? with
    | none => exact hR.pure _
    | some leftRefs =>
    refine hR.bind (hrefs right) fun rightRefs? => ?_
    cases rightRefs? with
    | none => exact hR.pure _
    | some rightRefs =>
      refine Lineage.related_ofColumns hR.composition fun i => ?_
      split
      · exact Lineage.related_ofField hR.composition (hlineage left) _
      · exact hR.bind (Lineage.related_ofField hR.composition (hlineage right) _) fun _ => hR.pure _

theorem related_answer (m : LineageMethod) : R (m.answer c ask id e) (m.answer c ask' id e) := by
  cases m with
  | unknown => exact hR.pure _
  | tableScan => exact related_ofScan hR.composition
  | aggregate => exact related_ofAggregate hR hlineage
  | join => exact related_ofJoin hR hlineage hrefs
  | union => exact related_ofUnion hR.composition (fun j _ => hlineage j) fun j _ => hrefs j
  | project => exact related_ofProjection hR hlineage
  | firstInput => exact hR.ofOption_bind _ fun j _ => hlineage j e
  | subset =>
    unfold answer
    dsimp only
    split
    · exact hlineage _ e
    · exact hR.pure _
  | again => exact hlineage id e

end LineageMethod

theorem TableRefsMethod.related_answer (hrefs : ∀ j, R (ask.tableRefs j) (ask'.tableRefs j))
    (m : TableRefsMethod) : R (m.answer c ask id) (m.answer c ask' id) := by
  cases m with
  | unknown => exact hR.pure _
  | tableScan => exact hR.pure _
  | allInputs => exact related_ofInputs hR.composition _ fun j _ => hrefs j
  | firstInput => exact hR.ofOption_bind _ fun j _ => hrefs j
  | subset =>
    unfold answer
    dsimp only
    split
    · exact hrefs _
    · exact hR.pure _
  | again => exact hrefs id

end

section

variable {P : {α : Type} → Querying α → Prop} (hP : Querying.Congruence fun x _ => P x) {c : Cluster}
  {ask : Asking}

include hP

/-- A property of queries that is kept when they are put together carries over from the questions
that methods of estimating ask to their answers. -/
theorem Asking.estimates_directly (hrowCount : ∀ j, P (ask.rowCount j))
    (hcollations : ∀ j, P (ask.collations j))
    (hdistinct : ∀ j columns p, P (ask.distinct j columns p)) :
    (∀ j, P ((directly c ask).rowCount j)) ∧ (∀ j, P ((directly c ask).collations j)) ∧
      ∀ j columns p, P ((directly c ask).distinct j columns p) := by
  have hdirect : ∀ q, Related (fun x _ => P x) (· = q) (directly c ask) (directly c ask) := fun q =>
    related_directly hP
      { rowCount := fun j _ => hrowCount j
        collations := fun j _ => hcollations j
        distinct := fun j columns p _ _ _ => hdistinct j columns p }
  refine ⟨fun j => (hdirect _).rowCount j rfl, fun j => (hdirect _).collations j rfl,
    fun j columns p => (hdirect _).distinct j columns p p rfl ?_⟩
  exact (DistinctKey.of_beq (DistinctKey.beq_self ⟨j, columns, p⟩)).2.2

/-- It carries over from all questions to the answers about all topics. -/
theorem Asking.about_directly (h : ∀ topic key, P (ask.about topic key)) (topic : Topic)
    (key : topic.Key) : P ((directly c ask).about topic key) := by
  obtain ⟨hrowCount, hcollations, hdistinct⟩ := @estimates_directly P hP c ask (h .rowCount)
    (h .collations) fun j columns p => h .distinct ⟨j, columns, p⟩
  cases topic with
  | rowCount => exact hrowCount key
  | collations => exact hcollations key
  | distinct => exact hdistinct _ _ _
  | lineage =>
    exact @LineageMethod.related_answer _ hP c ask ask _ _ (fun j e => h .lineage ⟨j, e⟩)
      (h .tableRefs) _
  | tableRefs => exact @TableRefsMethod.related_answer _ hP c ask ask _ (h .tableRefs) _

end

/-! ## What a query does to the memory -/

namespace Querying

variable {α β : Type} {I : Memory → Prop} {Q Q' : Except QueryError α → Prop}
  {x : Querying α} {f : α → Querying β}

/-- If that holds of the memory it holds after the query, and the outcome is as said. -/
def Gives (I : Memory → Prop) (Q : Except QueryError α → Prop) (x : Querying α) : Prop :=
  ∀ m, I m → I (x.run m).2 ∧ Q (x.run m).1

theorem gives_pure {a : α} (h : Q (.ok a)) : Gives I Q (pure a) := fun _ hm => ⟨hm, h⟩

theorem gives_throw {e : QueryError} (h : Q (.error e)) : Gives I Q (throw e) := fun _ hm => ⟨hm, h⟩

theorem Gives.imp (h : Gives I Q x) (hQ : ∀ r, Q r → Q' r) : Gives I Q' x :=
  fun m hm => (h m hm).imp_right (hQ _)

theorem Gives.bind {Q' : Except QueryError β → Prop} (hx : Gives I Q x)
    (hok : ∀ a, Q (.ok a) → Gives I Q' (f a)) (herror : ∀ e, Q (.error e) → Q' (.error e)) :
    Gives I Q' (x >>= f) := by
  intro m hm
  obtain ⟨hm', hr⟩ := hx m hm
  rw [run_bind]
  generalize x.run m = outcome at *
  obtain ⟨e | a, m'⟩ := outcome
  · exact ⟨hm', herror e hr⟩
  · exact hok a hr m' hm'

theorem Gives.skipCyclic {Q' : Except QueryError (Option α) → Prop} (hx : Gives I Q x)
    (h : ∀ r, Q r → Q' (skipped r)) : Gives I Q' (Querying.skipCyclic x) := by
  intro m hm
  rw [run_skipCyclic]
  exact (hx m hm).imp_right (h _)

/-- What every question keeps of the memory holds after any questions. -/
theorem holds_after {ask : Asking} {asked : List ((topic : Topic) × topic.Key)} {m : Memory} (hm : I m)
    (h : ∀ call ∈ asked, ∀ m, I m → I ((ask.about call.1 call.2).run m).2) :
    I (asked.foldl (fun m call => ((ask.about call.1 call.2).run m).2) m) := by
  induction asked generalizing m with
  | nil => exact hm
  | cons call asked ih =>
    rw [List.forall_mem_cons] at h
    exact ih (h.1 m hm) h.2

end Querying

end QueryPlan
