import QueryPlan.Proofs.Metadata.Topics
import QueryPlan.Proofs.Metadata.Collations
/-!
# What lineages and uses of tables are made of

The lineage of an expression is made of those of other expressions over the nodes that its node is made
of, and the uses of tables under a node of those under its inputs. `Traced` and `Listed` say what one
method makes of given answers, so that a property of answers which is kept by one step holds of all
answers, whatever was asked before.
-/
namespace QueryPlan

namespace OrderedSet

variable {α : Type} [Ord α] {x y : α} {xs ys : List α}

theorem mem_of_mem_insert (h : y ∈ insert x xs) : y = x ∨ y ∈ xs := by
  induction xs with
  | nil => exact .inl (List.mem_singleton.mp h)
  | cons z xs ih =>
    unfold insert at h
    split at h
    · exact List.mem_cons.mp h
    · exact .inr h
    · rcases List.mem_cons.mp h with rfl | h
      · exact .inr List.mem_cons_self
      · exact (ih h).imp_right (List.mem_cons_of_mem z)

theorem mem_of_mem_latestOf (h : y ∈ latestOf xs) : y ∈ xs := by
  induction xs with
  | nil => cases h
  | cons x xs ih =>
    rcases mem_of_mem_insert h with rfl | h
    · exact List.mem_cons_self
    · exact List.mem_cons_of_mem x (ih h)

theorem mem_of_mem_union (h : y ∈ union xs ys) : y ∈ xs ∨ y ∈ ys := by
  induction xs generalizing ys with
  | nil => exact .inr h
  | cons x xs ih =>
    have hrest : ∀ {zs}, y ∈ union xs zs → y ∈ x :: xs ∨ y ∈ zs := fun h =>
      (ih h).imp_left (List.mem_cons_of_mem x)
    unfold union at h
    induction ys with
    | nil =>
      rcases List.mem_cons.mp h with rfl | h
      · exact .inl List.mem_cons_self
      · exact hrest h
    | cons z ys ihys =>
      unfold mergeAt at h
      split at h
      · rcases List.mem_cons.mp h with rfl | h
        · exact .inl List.mem_cons_self
        · exact hrest h
      · rcases List.mem_cons.mp h with rfl | h
        · exact .inl List.mem_cons_self
        · exact (hrest h).imp_right (List.mem_cons_of_mem z)
      · rcases List.mem_cons.mp h with rfl | h
        · exact .inr List.mem_cons_self
        · exact (ihys h).imp_right (List.mem_cons_of_mem z)

theorem mem_of_mem_insertAll (h : y ∈ insertAll xs ys) : y ∈ xs ∨ y ∈ ys :=
  (mem_of_mem_union h).imp_right mem_of_mem_ofList

end OrderedSet

/-! ## Expressions with their columns replaced -/

namespace Expr

/-- The second expression is what the first becomes with its columns replaced by origins of theirs, or
a conjunct of it. An expression without columns stays as it is. -/
def ReplacedBy (origin : Nat → Expr → Prop) (e e' : Expr) : Prop :=
  e.columnList = [] ∧ e' = e ∨
    ∃ choice : Nat → Option Expr,
      (∀ i ∈ e.columnList, ∃ a, choice i = some a ∧ origin i a) ∧ e' ∈ (e.substitute choice).conjuncts

theorem mem_of_mem_choices {alternatives : List (Nat × List Expr)} {choice : List (Nat × Expr)}
    (h : choice ∈ choices alternatives) :
    choice.map Prod.fst = alternatives.map Prod.fst ∧
      ∀ p ∈ choice, ∃ es, (p.1, es) ∈ alternatives ∧ p.2 ∈ es := by
  induction alternatives generalizing choice with
  | nil =>
    rw [List.mem_singleton.mp h]
    exact ⟨rfl, nofun⟩
  | cons alternative rest ih =>
    obtain ⟨i, es⟩ := alternative
    obtain ⟨a, ha, h⟩ := List.mem_flatMap.mp h
    obtain ⟨choice, hchoice, rfl⟩ := List.mem_map.mp h
    obtain ⟨hkeys, hmem⟩ := ih hchoice
    refine ⟨by rw [List.map_cons, List.map_cons, hkeys], List.forall_mem_cons.mpr ⟨?_, fun p hp => ?_⟩⟩
    · exact ⟨es, List.mem_cons_self, ha⟩
    · obtain ⟨es', hes', hp⟩ := hmem p hp
      exact ⟨es', List.mem_cons_of_mem _ hes', hp⟩

theorem exists_lookup {β : Type} {entries : List (Nat × β)} {i : Nat}
    (h : i ∈ entries.map Prod.fst) : ∃ b, entries.lookup i = some b ∧ (i, b) ∈ entries := by
  cases hlookup : entries.lookup i with
  | some b =>
    obtain ⟨before, after, rfl, -⟩ := List.lookup_eq_some_iff.mp hlookup
    exact ⟨b, rfl, List.mem_append_right _ List.mem_cons_self⟩
  | none =>
    obtain ⟨p, hp, rfl⟩ := List.mem_map.mp h
    have hne := List.lookup_eq_none_iff.mp hlookup p hp
    simp at hne

theorem choices_ne_nil {alternatives : List (Nat × List Expr)}
    (h : ∀ p ∈ alternatives, p.2 ≠ []) : choices alternatives ≠ [] := by
  induction alternatives with
  | nil => exact List.cons_ne_nil _ _
  | cons alternative rest ih =>
    obtain ⟨i, es⟩ := alternative
    obtain ⟨hes, hrest⟩ := List.forall_mem_cons.mp h
    obtain ⟨a, es, rfl⟩ := List.exists_cons_of_ne_nil hes
    rw [choices, List.flatMap_cons]
    intro hnil
    exact ih hrest (List.map_eq_nil_iff.mp (List.append_eq_nil_iff.mp hnil).1)

/-- A lineage is the expression itself if that has no columns, and else the conjuncts of what becomes of
it over every pick of one origin for each column. -/
theorem lineageOver_cases {origins : Nat → Lineage} {e : Expr} {es : List Expr}
    (h : e.lineageOver origins = some es) :
    (e.columnList = [] ∧ es = [e]) ∨
      e.columnList ≠ [] ∧ ∃ picks : List (List (Nat × Expr)), picks ≠ [] ∧
        (∀ pick ∈ picks, ∀ i ∈ e.columnList,
          ∃ a found, pick.lookup i = some a ∧ origins i = some found ∧ a ∈ found) ∧
        es = OrderedSet.ofList
          (picks.flatMap fun pick => (e.substitute fun i => pick.lookup i).conjuncts) := by
  unfold lineageOver at h
  dsimp only at h
  split at h
  · next hnone =>
    cases h
    refine .inl ⟨?_, rfl⟩
    rw [List.isEmpty_iff] at hnone
    exact List.eq_nil_iff_forall_not_mem.mpr fun i hi =>
      (List.eq_nil_iff_forall_not_mem.mp hnone) i (mem_columns.mpr hi)
  · next hsome =>
    obtain ⟨alternatives, halternatives, h⟩ := Option.bind_eq_some_iff.mp h
    cases h
    have hforall := Outcome.forall₂_of_mapM_eq_some halternatives
    have hfound : ∀ {i found}, (do
          let es ← origins i
          if es.isEmpty then none else some (i, es)) = some found →
        found.1 = i ∧ origins i = some found.2 ∧ found.2 ≠ [] := by
      intro i found h
      obtain ⟨es, hes, h⟩ := Option.bind_eq_some_iff.mp h
      split at h
      · cases h
      · next hne =>
        cases h
        exact ⟨rfl, hes, fun hnil => hne (List.isEmpty_iff.mpr hnil)⟩
    have hused : List.Forall₂ (· = ·) e.columns.toList (alternatives.map Prod.fst) :=
      List.forall₂_map_right_iff.mpr (hforall.imp fun _ _ h => (hfound h).1.symm)
    rw [List.forall₂_eq_eq_eq] at hused
    refine .inr ⟨fun hnil => hsome ?_, choices alternatives, choices_ne_nil fun p hp => ?_,
      fun pick hpick i hi => ?_, rfl⟩
    · rw [List.isEmpty_iff, List.eq_nil_iff_forall_not_mem]
      intro i hi
      have hmem := mem_columns.mp hi
      rw [hnil] at hmem
      cases hmem
    · obtain ⟨i, -, hi⟩ := exists_of_forall₂ hforall hp
      exact (hfound hi).2.2
    · obtain ⟨hkeys, hmem⟩ := mem_of_mem_choices hpick
      obtain ⟨a, ha, hpair⟩ := exists_lookup (by rw [hkeys, ← hused]; exact mem_columns.mpr hi)
      obtain ⟨found, hpair', hafound⟩ := hmem _ hpair
      obtain ⟨j, -, hj⟩ := exists_of_forall₂ hforall hpair'
      obtain ⟨hij, horigin, -⟩ := hfound hj
      cases hij
      exact ⟨a, found, ha, horigin, hafound⟩

/-- Every lineage of an expression replaces its columns by origins of theirs. -/
theorem replacedBy_of_mem_lineageOver {origins : Nat → Lineage} {origin : Nat → Expr → Prop}
    {e e' : Expr} {es : List Expr} (horigins : ∀ i found, origins i = some found → ∀ a ∈ found, origin i a)
    (h : e.lineageOver origins = some es) (he' : e' ∈ es) : e.ReplacedBy origin e' := by
  rcases lineageOver_cases h with ⟨hnone, rfl⟩ | ⟨-, picks, -, hpicks, rfl⟩
  · exact .inl ⟨hnone, List.mem_singleton.mp he'⟩
  · obtain ⟨pick, hpick, he'⟩ := List.mem_flatMap.mp (OrderedSet.mem_of_mem_ofList he')
    refine .inr ⟨fun i => pick.lookup i, fun i hi => ?_, he'⟩
    obtain ⟨a, found, ha, hfound, hmem⟩ := hpicks pick hpick i hi
    exact ⟨a, ha, horigins i found hfound a hmem⟩

end Expr

/-! ## Queries whose answer is as said -/

namespace Querying

variable {α β : Type} {I : Memory → Prop} {P P' : α → Prop} {x : Querying α}

/-- The answer, if there is one, is as said. -/
def Answering (P : α → Prop) : Except QueryError α → Prop
  | .ok a => P a
  | .error _ => True

/-- What the query answers is as said. -/
def Tells (I : Memory → Prop) (P : α → Prop) (x : Querying α) : Prop := Gives I (Answering P) x

theorem tells_pure {a : α} (h : P a) : Tells I P (pure a) := gives_pure h

theorem tells_throw (e : QueryError) : Tells I P (throw e) := gives_throw trivial

theorem Tells.imp (h : Tells I P x) (hP : ∀ a, P a → P' a) : Tells I P' x :=
  Gives.imp h fun r hr => by
    cases r with
    | ok a => exact hP a hr
    | error e => trivial

theorem Tells.bind {P' : β → Prop} {f : α → Querying β} (hx : Tells I P x)
    (hf : ∀ a, P a → Tells I P' (f a)) : Tells I P' (x >>= f) :=
  Gives.bind hx hf fun _ _ => trivial

theorem tells_ofOption (o : Option α) : Tells I (fun a => o = some a) (ofOption o) := by
  cases o with
  | some a => exact tells_pure rfl
  | none => exact tells_throw _

/-- What is known to be there is told. -/
theorem tells_input {c : Cluster} {id : NodeId} {i : Nat} {P : β → Prop} {f : NodeId → Querying β}
    (h : ∀ j, c.input? id i = some j → Tells I P (f j)) : Tells I P (input c id i >>= f) :=
  (tells_ofOption _).bind h

/-- That a query keeps what holds of the memory is kept when queries are put together. -/
theorem congruence_tells (I : Memory → Prop) : Congruence fun {α} (x : Querying α) _ =>
    Tells I (fun _ => True) x where
  pure _ := tells_pure trivial
  fault _ := tells_throw _
  bind hx hf := hx.bind fun a _ => hf a
  skipCyclic hx := Gives.skipCyclic hx fun r _ => by
    rcases r with (_ | _) | a <;> trivial

end Querying

namespace Lineage

/-- Every expression of the lineage, if there is one, is as said. -/
def Each (P : Expr → Prop) (found : Lineage) : Prop := ∀ es, found = some es → ∀ e ∈ es, P e

open Querying

variable {I : Memory → Prop} {P : Nat → Expr → Prop} {origin : Nat → Querying Lineage}

theorem tells_originsOf {is : List Nat} (h : ∀ i, Tells I (Each (P i)) (origin i)) :
    Tells I (fun found? => ∀ found, found? = some found → ∀ p ∈ found, ∀ a ∈ p.2, P p.1 a)
      (originsOf origin is) := by
  induction is with
  | nil =>
    refine tells_pure fun found hfound => ?_
    cases hfound
    nofun
  | cons i is ih =>
    refine (h i).bind fun exprs? hexprs => ?_
    cases exprs? with
    | none => exact tells_pure nofun
    | some exprs =>
      refine ih.bind fun rest? hrest => ?_
      cases rest? with
      | none => exact tells_pure nofun
      | some rest =>
        refine tells_pure fun found hfound => ?_
        cases hfound
        exact List.forall_mem_cons.mpr ⟨hexprs exprs rfl, hrest rest rfl⟩

/-- The lineage, if it is known, is that of the expression over origins of columns that are as said. -/
def Over (P : Nat → Expr → Prop) (e : Expr) (found : Lineage) : Prop :=
  ∀ es, found = some es → ∃ origins : Nat → Lineage,
    (∀ i as, origins i = some as → ∀ a ∈ as, P i a) ∧ e.lineageOver origins = some es

theorem over_lookup {e : Expr} {entries : List (Nat × List Expr)}
    (h : ∀ p ∈ entries, ∀ a ∈ p.2, P p.1 a) :
    Over P e (e.lineageOver fun i => entries.lookup i) := by
  refine fun es hes => ⟨_, fun i as has a ha => ?_, hes⟩
  obtain ⟨before, after, rfl, -⟩ := List.lookup_eq_some_iff.mp has
  exact h (i, as) (List.mem_append_right _ List.mem_cons_self) a ha

/-- A lineage over origins replaces columns by them. -/
theorem Over.each {e : Expr} {found : Lineage} (h : Over P e found) : Each (e.ReplacedBy P) found := by
  intro es hes e' he'
  obtain ⟨origins, horigins, hover⟩ := h es hes
  exact Expr.replacedBy_of_mem_lineageOver horigins hover he'

/-- A lineage from those of columns is one over their origins. -/
theorem tells_ofColumns (e : Expr) (h : ∀ i, Tells I (Each (P i)) (origin i)) :
    Tells I (Over P e) (ofColumns origin e) := by
  refine (tells_originsOf h).bind fun found? hfound => ?_
  cases found? with
  | none => exact tells_pure nofun
  | some found => exact tells_pure (over_lookup (hfound found rfl))

/-- The expression is the origin of a field of a node, by what is known of lineages. -/
def OfField (c : Cluster) (Q : NodeId → Expr → Expr → Prop) (id : NodeId) (index : Nat) (a : Expr) :
    Prop :=
  ∃ field, (c.rowType id).fields[index]? = some field ∧ Q id (.column index field.dataType) a

theorem tells_ofField {c : Cluster} {ask : Asking} {Q : NodeId → Expr → Expr → Prop} {id : NodeId}
    (h : ∀ i t, Tells I (Each (Q id (.column i t))) (ask.lineage id (.column i t))) (index : Nat) :
    Tells I (Each (OfField c Q id index)) (ofField c ask id index) := by
  unfold ofField Expr.field?
  cases hfield : (c.rowType id).fields[index]? with
  | none => exact tells_pure nofun
  | some field =>
    exact (h index field.dataType).imp fun found hfound es hes e he => ⟨field, hfield, hfound es hes e he⟩

end Lineage

namespace TableRef

/-- The uses of several inputs, those of later ones counted after those of earlier ones. -/
def together (inputs : List (List TableRef)) : List TableRef :=
  inputs.foldl (fun refs own => OrderedSet.insertAll refs (after refs own)) []

theorem together_concat (inputs : List (List TableRef)) (own : List TableRef) :
    together (inputs ++ [own]) =
      OrderedSet.insertAll (together inputs) (after (together inputs) own) := by
  rw [together, List.foldl_append]
  rfl

end TableRef

/-! ## One step of tracing -/

namespace Operator

/-- The method that lineages over an operator's nodes are found by. -/
def lineageMethod : Operator → LineageMethod
  | scan _ _ => .tableScan
  | aggregate _ _ _ => .aggregate
  | join .semi _ _ => .unknown
  | join _ _ _ => .join
  | union _ _ => .union
  | project _ _ => .project
  | filter _ _ | sort _ _ _ _ | exchange _ | sortExchange _ _ => .firstInput
  | subset _ => .subset
  | values _ _ _ | correlate _ _ _ _ | intersect _ | minus _ => .unknown

theorem lineage_methodFor_kind (o : Operator) :
    Methods.builtin.lineage.methodFor o.kind = o.lineageMethod := by
  cases o with
  | join algorithm _ _ => cases algorithm <;> rfl
  | scan v _ | values v _ _ | filter v _ | project v _ | correlate v _ _ _ | aggregate v _ _
  | sort v _ _ _ | union v _ => cases v <;> rfl
  | _ => rfl

theorem lineageMethod_of_table? {o : Operator} {table : Table} (h : o.table? = some table) :
    o.lineageMethod = .tableScan := by
  cases o with
  | scan => rfl
  | _ => cases h

theorem lineageMethod_of_projection? {o : Operator} {columns : List (Expr × String)}
    (h : o.projection? = some columns) : o.lineageMethod = .project := by
  cases o with
  | project => rfl
  | _ => cases h

theorem lineageMethod_of_aggregate? {o : Operator} {group : ColumnSet} {calls : List AggregateCall}
    (h : o.aggregate? = some (group, calls)) : o.lineageMethod = .aggregate := by
  cases o with
  | aggregate => rfl
  | _ => cases h

/-- The method that uses of tables under an operator's nodes are listed by. -/
def tableRefsMethod : Operator → TableRefsMethod
  | scan _ _ => .tableScan
  | join .semi _ _ | aggregate _ _ _ | project _ _ | filter _ _ | sort _ _ _ _ | exchange _
  | sortExchange _ _ => .firstInput
  | join _ _ _ | union _ _ => .allInputs
  | subset _ => .subset
  | values _ _ _ | correlate _ _ _ _ | intersect _ | minus _ => .unknown

theorem tableRefs_methodFor_kind (o : Operator) :
    Methods.builtin.tableRefs.methodFor o.kind = o.tableRefsMethod := by
  cases o with
  | join algorithm _ _ => cases algorithm <;> rfl
  | scan v _ | values v _ _ | filter v _ | project v _ | correlate v _ _ _ | aggregate v _ _
  | sort v _ _ _ | union v _ => cases v <;> rfl
  | _ => rfl

/-- Lineages over one input go with uses of tables under that input. -/
theorem tableRefsMethod_eq_first {o : Operator} (h : o.lineageMethod = .aggregate ∨
    o.lineageMethod = .project ∨ o.lineageMethod = .firstInput) : o.tableRefsMethod = .firstInput := by
  cases o with
  | aggregate | project | filter | sort | exchange | sortExchange => rfl
  | join algorithm => cases algorithm <;> rcases h with h | h | h <;> cases h
  | _ => rcases h with h | h | h <;> cases h

theorem tableRefsMethod_eq_all {o : Operator}
    (h : o.lineageMethod = .join ∨ o.lineageMethod = .union) : o.tableRefsMethod = .allInputs := by
  cases o with
  | union => rfl
  | join algorithm => cases algorithm <;> first | rfl | (rcases h with h | h <;> cases h)
  | _ => rcases h with h | h <;> cases h

end Operator

namespace Cluster

variable (c : Cluster) (Q : NodeId → Expr → Expr → Prop) (U : NodeId → List TableRef → Prop)

/-- The uses of tables under a node, by what is known of the uses under others. -/
inductive Listed (id : NodeId) (refs : List TableRef) : Prop
  | scan {table : Table} (htable : (c.operator id).table? = some table)
      (hrefs : refs = [⟨table.name, 0⟩])
  | allInputs {parts : List (List TableRef)} (hmethod : (c.operator id).tableRefsMethod = .allInputs)
      (hparts : List.Forall₂ U (c.inputs id) parts) (hrefs : refs = TableRef.together parts)
  | firstInput {input : NodeId} (hmethod : (c.operator id).tableRefsMethod = .firstInput)
      (hinput : c.input? id 0 = some input) (hrefs : U input refs)
  | member {m : NodeId} (hchosen : (c.node id).chosenMember? = some m) (hrefs : U m refs)

/-- An origin of a column of a union: an origin of the column of an input, with its uses of tables
counted after those of the inputs before. -/
def UnionOrigin (id : NodeId) (i : Nat) (a : Expr) : Prop :=
  ∃ before input after parts own a₀, c.inputs id = before ++ input :: after ∧
    List.Forall₂ U before parts ∧ U input own ∧ Lineage.OfField c Q input i a₀ ∧
    a = a₀.mapTables (TableRef.renumber (TableRef.together parts) own)

/-- An origin of a column of a join: an origin of the column of the input that it belongs to, with the
uses of tables on the right counted after those on the left. -/
def JoinOrigin (left right : NodeId) (leftRefs rightRefs : List TableRef) (i : Nat) (a : Expr) :
    Prop :=
  if i < c.arity left then Lineage.OfField c Q left i a
  else ∃ a₀, Lineage.OfField c Q right (i - c.arity left) a₀ ∧
    a = a₀.mapTables (TableRef.renumber leftRefs rightRefs)

/-- The second expression is in the lineage of the first over a node, by what is known of lineages
and uses of tables. -/
inductive Traced (id : NodeId) (e e' : Expr) : Prop
  | scan {table : Table} (htable : (c.operator id).table? = some table)
      (h : e.ReplacedBy (fun i a => ∃ field, (c.rowType id).fields[i]? = some field ∧
        a = .tableColumn ⟨table.name, 0⟩ i field.dataType) e')
  | aggregate {group : ColumnSet} {calls : List AggregateCall} {input : NodeId}
      (hop : (c.operator id).aggregate? = some (group, calls)) (hinput : c.input? id 0 = some input)
      (h : e.ReplacedBy (fun i a => ∃ column, group.nth? i = some column ∧
        Lineage.OfField c Q input column a) e')
  | join {joinType : JoinType} {condition : Expr} {left right : NodeId} {leftRefs rightRefs : List TableRef}
      (hmethod : (c.operator id).lineageMethod = .join)
      (hop : (c.operator id).join? = some (joinType, condition))
      (hleft : c.input? id 0 = some left) (hright : c.input? id 1 = some right)
      (htraceable : LineageMethod.isTraceable joinType (c.arity left) (c.arity id) e.columns = true)
      (hleftRefs : U left leftRefs) (hrightRefs : U right rightRefs)
      (h : e.ReplacedBy (c.JoinOrigin Q left right leftRefs rightRefs) e')
  | union (hmethod : (c.operator id).lineageMethod = .union)
      (h : e.ReplacedBy (c.UnionOrigin Q U id) e')
  | project {columns : List (Expr × String)} {input : NodeId}
      (hop : (c.operator id).projection? = some columns) (hinput : c.input? id 0 = some input)
      (h : e.ReplacedBy (fun i a => ∃ p, columns[i]? = some p ∧ Q input p.1 a) e')
  | firstInput {input : NodeId} (hmethod : (c.operator id).lineageMethod = .firstInput)
      (hinput : c.input? id 0 = some input) (h : Q input e e')
  | member {m : NodeId} (hchosen : (c.node id).chosenMember? = some m) (h : Q m e e')

end Cluster

section

open Querying Lineage

variable {c : Cluster} {I : Memory → Prop} {Q : NodeId → Expr → Expr → Prop}
  {U : NodeId → List TableRef → Prop} {ask : Asking} {id : NodeId} {e : Expr}
  (hrefs : ∀ j, Tells I (fun found => ∀ refs, found = some refs → U j refs) (ask.tableRefs j))

namespace TableRefsMethod

include hrefs

theorem tells_ofInputs {before inputs : List NodeId} {parts : List (List TableRef)}
    (hparts : List.Forall₂ U before parts) :
    Tells I (fun found => ∀ refs, found = some refs →
        ∃ parts, List.Forall₂ U (before ++ inputs) parts ∧ refs = TableRef.together parts)
      (ofInputs ask (TableRef.together parts) inputs) := by
  induction inputs generalizing before parts with
  | nil =>
    refine tells_pure fun refs h => ?_
    cases h
    exact ⟨parts, by rwa [List.append_nil], rfl⟩
  | cons input inputs ih =>
    refine (hrefs input).bind fun own? hown => ?_
    cases own? with
    | none => exact tells_pure nofun
    | some own =>
      dsimp only
      rw [← TableRef.together_concat, List.append_cons]
      exact ih (List.rel_append hparts (.cons (hown own rfl) .nil))

/-- The uses of tables under a node are listed from those under others. -/
theorem tells_answer :
    Tells I (fun found => ∀ refs, found = some refs → c.Listed U id refs)
      ((c.operator id).tableRefsMethod.answer c ask id) := by
  cases hmethod : (c.operator id).tableRefsMethod with
  | unknown => exact tells_pure nofun
  | tableScan =>
    refine tells_pure fun refs h => ?_
    obtain ⟨table, htable, rfl⟩ := Option.map_eq_some_iff.mp h
    exact .scan htable rfl
  | allInputs =>
    refine (tells_ofInputs hrefs .nil).imp fun found h refs hfound => ?_
    obtain ⟨parts, hparts, heq⟩ := h refs hfound
    exact .allInputs hmethod hparts heq
  | firstInput =>
    exact tells_input fun j hj => (hrefs j).imp fun found h refs hfound =>
      .firstInput hmethod hj (h refs hfound)
  | subset =>
    unfold answer
    dsimp only
    split
    · next m hchosen =>
      exact (hrefs m).imp fun found h refs hfound => .member hchosen (h refs hfound)
    · exact tells_pure nofun
  | again =>
    cases hop : c.operator id with
    | join algorithm => cases algorithm <;> (rw [hop] at hmethod; cases hmethod)
    | _ => rw [hop] at hmethod; cases hmethod

end TableRefsMethod

namespace LineageMethod

/-- Origins that are known of some columns, all of which are as said. -/
def KnownOrigins (P : Nat → Expr → Prop) (origins : List (Nat × List Expr)) : Prop :=
  ∀ p ∈ origins, ∀ a ∈ p.2, P p.1 a

theorem KnownOrigins.addOrigins {P : Nat → Expr → Prop} {origins : List (Nat × List Expr)}
    (h : KnownOrigins P origins) {column : Nat} {exprs : List Expr} (hexprs : ∀ a ∈ exprs, P column a) :
    KnownOrigins P (addOrigins column exprs origins) := by
  induction origins with
  | nil =>
    exact List.forall_mem_singleton.mpr fun a ha => hexprs a (OrderedSet.mem_of_mem_ofList ha)
  | cons p origins ih =>
    obtain ⟨hp, hrest⟩ := List.forall_mem_cons.mp h
    obtain ⟨i, found⟩ := p
    unfold LineageMethod.addOrigins
    split
    · next hi =>
      subst hi
      refine List.forall_mem_cons.mpr ⟨fun a ha => ?_, hrest⟩
      exact (OrderedSet.mem_of_mem_insertAll ha).elim (hp a) (hexprs a)
    · exact List.forall_mem_cons.mpr ⟨hp, ih hrest⟩

variable {K : Expr → Prop} (hcolumn : ∀ i t, K (.column i t))
  (hask : ∀ j e, K e → Tells I (Each (Q j e)) (ask.lineage j e))

include hcolumn hask

theorem tells_originsInInput {input : NodeId} {earlier own : List TableRef} {P : Nat → Expr → Prop}
    (hP : ∀ i a, OfField c Q input i a → P i (a.mapTables (TableRef.renumber earlier own)))
    {origins : List (Nat × List Expr)} (horigins : KnownOrigins P origins) (is : List Nat) :
    Tells I (fun found => ∀ origins, found = some origins → KnownOrigins P origins)
      (originsInInput c ask input earlier own origins is) := by
  induction is generalizing origins with
  | nil =>
    refine tells_pure fun found h => ?_
    cases h
    exact horigins
  | cons i is ih =>
    refine (tells_ofField (fun i t => hask input _ (hcolumn i t)) i).bind fun exprs? hexprs => ?_
    cases exprs? with
    | none => exact tells_pure nofun
    | some exprs =>
      refine ih (horigins.addOrigins fun a ha => ?_)
      obtain ⟨a₀, ha₀, rfl⟩ := List.mem_map.mp (OrderedSet.mem_of_mem_latestOf ha)
      exact hP i a₀ (hexprs exprs rfl a₀ ha₀)

include hrefs

theorem tells_originsInInputs (used : List Nat) {before inputs : List NodeId}
    {parts : List (List TableRef)} {origins : List (Nat × List Expr)}
    (hinputs : c.inputs id = before ++ inputs) (hparts : List.Forall₂ U before parts)
    (horigins : KnownOrigins (c.UnionOrigin Q U id) origins) :
    Tells I (fun found => ∀ union, found = some union → KnownOrigins (c.UnionOrigin Q U id) union.origins)
      (originsInInputs c ask used ⟨TableRef.together parts, origins⟩ inputs) := by
  induction inputs generalizing before parts origins with
  | nil =>
    refine tells_pure fun found h => ?_
    cases h
    exact horigins
  | cons input inputs ih =>
    refine (hrefs input).bind fun own? hown => ?_
    cases own? with
    | none => exact tells_pure nofun
    | some own =>
      have hU := hown own rfl
      refine (tells_originsInInput hcolumn hask (fun i a ha => ?_) horigins used).bind
        fun origins? horigins => ?_
      · exact ⟨before, input, inputs, parts, own, a, hinputs, hparts, hU, ha, rfl⟩
      cases origins? with
      | none => exact tells_pure nofun
      | some origins =>
        dsimp only
        rw [← TableRef.together_concat]
        refine ih ?_ (List.rel_append hparts (.cons hU .nil)) (horigins origins rfl)
        rw [hinputs, List.append_cons]

/-- A lineage over a union is one over origins of the columns in all inputs. -/
theorem tells_ofUnion : Tells I (Over (c.UnionOrigin Q U id) e) (ofUnion c ask id e) := by
  have hnone : KnownOrigins (c.UnionOrigin Q U id) [] := nofun
  refine (tells_originsInInputs hrefs hcolumn hask _ rfl .nil hnone).bind fun found? hfound => ?_
  cases found? with
  | none => exact tells_pure nofun
  | some found => exact tells_pure (over_lookup (hfound found rfl))

theorem tells_ofJoin (hmethod : (c.operator id).lineageMethod = .join) :
    Tells I (Each (c.Traced Q U id e)) (ofJoin c ask id e) := by
  unfold ofJoin
  split
  · exact tells_pure nofun
  next joinType condition hop =>
    refine tells_input fun left hleft => tells_input fun right hright => ?_
    dsimp only
    split
    · exact tells_pure nofun
    next htraceable =>
      refine (hrefs left).bind fun leftRefs? hleftRefs => ?_
      cases leftRefs? with
      | none => exact tells_pure nofun
      | some leftRefs =>
      refine (hrefs right).bind fun rightRefs? hrightRefs => ?_
      cases rightRefs? with
      | none => exact tells_pure nofun
      | some rightRefs =>
      have horigin : ∀ j i, Tells I (Each (OfField c Q j i)) (ofField c ask j i) := fun j =>
        tells_ofField fun i t => hask j _ (hcolumn i t)
      refine (tells_ofColumns (P := c.JoinOrigin Q left right leftRefs rightRefs) e fun i => ?_).imp
        fun found h es hes e' he' => ?_
      · unfold Cluster.JoinOrigin
        split
        · exact horigin left i
        · refine (horigin right _).bind fun found hfound => tells_pure fun es hes a ha => ?_
          obtain ⟨es₀, rfl, rfl⟩ := Option.map_eq_some_iff.mp hes
          obtain ⟨a₀, ha₀, rfl⟩ := List.mem_map.mp (OrderedSet.mem_of_mem_latestOf ha)
          exact ⟨a₀, hfound es₀ rfl a₀ ha₀, rfl⟩
      · exact .join hmethod hop hleft hright (by simpa using htraceable) (hleftRefs leftRefs rfl)
          (hrightRefs rightRefs rfl) (h.each es hes e' he')

/-- The lineages over a node are traced from those over others. -/
theorem tells_answer (he : K e) (hprojected : ∀ columns, (c.operator id).projection? = some columns →
      ∀ p ∈ columns, K p.1) :
    Tells I (Each (c.Traced Q U id e)) ((c.operator id).lineageMethod.answer c ask id e) := by
  cases hmethod : (c.operator id).lineageMethod with
  | unknown => exact tells_pure nofun
  | tableScan =>
    show Tells _ _ (ofScan c id e)
    unfold ofScan
    split
    · exact tells_pure nofun
    next table htable =>
      refine (tells_ofColumns e fun i => tells_pure fun es hes a ha => ?_).imp
        fun found h es hes e' he' => .scan htable (h.each es hes e' he')
      obtain ⟨field, hfield, rfl⟩ := Option.map_eq_some_iff.mp hes
      exact ⟨field, hfield, List.mem_singleton.mp ha⟩
  | aggregate =>
    show Tells _ _ (ofAggregate c ask id e)
    unfold ofAggregate
    split
    · exact tells_pure nofun
    next group calls hop =>
      dsimp only
      split
      · exact tells_pure nofun
      refine tells_input fun input hinput => ?_
      refine (tells_ofColumns e fun i => ?_).imp
        fun found h es hes e' he' => .aggregate hop hinput (h.each es hes e' he')
      split
      · next column hnth =>
        refine (tells_ofField (fun i t => hask input _ (hcolumn i t)) column).imp ?_
        exact fun found h es hes a ha => ⟨column, hnth, h es hes a ha⟩
      · exact tells_pure nofun
  | join => exact tells_ofJoin hrefs hcolumn hask hmethod
  | union =>
    exact (tells_ofUnion hrefs hcolumn hask).imp fun found h es hes e' he' =>
      .union hmethod (h.each es hes e' he')
  | project =>
    show Tells _ _ (ofProjection c ask id e)
    unfold ofProjection
    split
    · exact tells_pure nofun
    next columns hop =>
      refine tells_input fun input hinput => ?_
      refine (tells_ofColumns e fun i => ?_).imp
        fun found h es hes e' he' => .project hop hinput (h.each es hes e' he')
      split
      · next expr name hp =>
        refine (hask input expr (hprojected columns hop _ (List.mem_of_getElem? hp))).imp ?_
        exact fun found h es hes a ha => ⟨_, hp, h es hes a ha⟩
      · exact tells_pure nofun
  | firstInput =>
    exact tells_input fun j hj => (hask j e he).imp fun found h es hes e' he' =>
      .firstInput hmethod hj (h es hes e' he')
  | subset =>
    unfold answer
    dsimp only
    split
    · next m hchosen =>
      exact (hask m e he).imp fun found h es hes e' he' => .member hchosen (h es hes e' he')
    · exact tells_pure nofun
  | again =>
    cases hop : c.operator id with
    | join algorithm => cases algorithm <;> (rw [hop] at hmethod; cases hmethod)
    | _ => rw [hop] at hmethod; cases hmethod

end LineageMethod

end

/-! ## Every step of tracing -/

namespace Memory

/-- What is remembered to be answered is as said. -/
def Remembers (P : (topic : Topic) → topic.Key → topic.Answer → Prop) (m : Memory) : Prop :=
  ∀ topic key answer, (key, .done answer) ∈ topic.shelf.entries m → P topic key answer

variable {P : (topic : Topic) → topic.Key → topic.Answer → Prop} {m : Memory} {topic : Topic}
  {key : topic.Key}

theorem remembers_empty : ({} : Memory).Remembers P := by
  intro topic key answer h
  cases topic <;> cases h

theorem Remembers.note (h : m.Remembers P) {entry : Entry topic.Answer}
    (hentry : ∀ answer, entry = .done answer → P topic key answer) :
    (topic.shelf.note key entry m).Remembers P := by
  intro other key' answer hanswer
  by_cases heq : other = topic
  · subst heq
    rcases Topic.mem_note.mp hanswer with hkey | hold
    · cases hkey
      exact hentry answer rfl
    · exact h other key' answer hold.1
  · rw [Topic.entries_note_of_ne heq] at hanswer
    exact h other key' answer hanswer

theorem Remembers.forget (h : m.Remembers P) : (topic.shelf.forget key m).Remembers P := by
  intro other key' answer hanswer
  by_cases heq : other = topic
  · subst heq
    exact h other key' answer (Topic.mem_forget.mp hanswer).1
  · rw [Topic.entries_forget_of_ne heq] at hanswer
    exact h other key' answer hanswer

end Memory

/-- An answer from memory is as said of a question that compares as equal, one that is computed as
said of the computation. -/
theorem Querying.tells_memoize {P : (topic : Topic) → topic.Key → topic.Answer → Prop} {topic : Topic}
    {key : topic.Key} {x : Querying topic.Answer} {node : NodeId} {t : Topic}
    (hequal : ∀ key' answer, (key == key') = true → P topic key' answer → P topic key answer)
    (hx : Tells (Memory.Remembers P) (P topic key) x) :
    Tells (Memory.Remembers P) (P topic key) (topic.shelf.memoize key node t x) := by
  intro m hm
  unfold Shelf.memoize
  rw [ExceptT.run_mk]
  rcases hremembered : topic.shelf.remembered? key m with _ | ⟨_ | answer⟩
  · dsimp only
    obtain ⟨hm', hanswer⟩ := hx (topic.shelf.note key .inProgress m) (hm.note nofun)
    generalize x.run (topic.shelf.note key .inProgress m) = outcome at *
    obtain ⟨e | answer, m'⟩ := outcome
    · exact ⟨hm'.forget, trivial⟩
    · refine ⟨hm'.note fun _ h => ?_, hanswer⟩
      cases h
      exact hanswer
  · exact ⟨hm, trivial⟩
  · obtain ⟨key', hmem, heq⟩ := Entries.mem_of_lookup hremembered
    exact ⟨hm, hequal key' answer heq (hm topic key' answer hmem)⟩

/-- If what is remembered is as said, and questions keep it so, it is after any of them. -/
theorem Querying.answering_after {P : (topic : Topic) → topic.Key → topic.Answer → Prop} {ask : Asking}
    {asked : List ((topic : Topic) × topic.Key)} {topic : Topic} {key : topic.Key}
    (hasked : ∀ call ∈ asked,
      Tells (Memory.Remembers P) (P call.1 call.2) (ask.about call.1 call.2))
    (hx : Tells (Memory.Remembers P) (P topic key) (ask.about topic key)) :
    Answering (P topic key) ((ask.about topic key).run (ask.memoryOf asked)).1 := by
  exact (hx _ (holds_after Memory.remembers_empty fun call hcall m hm => (hasked call hcall m hm).1)).2

/-- What is known of lineages and uses of tables follows, step by step, from what is known of those it
is traced from. Lineages are known of some expressions only, which are all that are asked for. -/
structure Cluster.TracingLaw (c : Cluster) (K : Expr → Prop) (Q : NodeId → Expr → Expr → Prop)
    (U : NodeId → List TableRef → Prop) : Prop where
  column : ∀ i t, K (.column i t)
  projected : ∀ id columns, (c.operator id).projection? = some columns → ∀ p ∈ columns, K p.1
  equal : ∀ {id e e₁ e'}, K e → K e₁ → (e == e₁) = true → Q id e₁ e' → Q id e e'
  traced : ∀ {id e e'}, K e → c.Traced Q U id e e' → Q id e e'
  listed : ∀ {id refs}, c.Listed U id refs → U id refs

namespace Cluster.TracingLaw

open Querying

variable {c : Cluster} {K : Expr → Prop} {Q : NodeId → Expr → Expr → Prop}
  {U : NodeId → List TableRef → Prop}

variable (K Q U) in
/-- What is known of an answer. -/
def Known : (topic : Topic) → topic.Key → topic.Answer → Prop
  | .lineage, key, found => K key.expr ∧ Lineage.Each (Q key.node key.expr) found
  | .tableRefs, id, found => ∀ refs, found = some refs → U id refs
  | .rowCount, _, _ | .collations, _, _ | .distinct, _, _ => True

/-- The question is for what lineages are known of. -/
def Allows (K : Expr → Prop) : (topic : Topic) → topic.Key → Prop
  | .lineage, key => K key.expr
  | .rowCount, _ | .collations, _ | .distinct, _ | .tableRefs, _ => True

variable (hlaw : c.TracingLaw K Q U)
  (hlineage : c.methods.lineage = Methods.builtin.lineage)
  (htableRefs : c.methods.tableRefs = Methods.builtin.tableRefs)

include hlaw hlineage htableRefs

theorem within_tells (depth : Nat) (topic : Topic) (key : topic.Key) (hkey : Allows K topic key) :
    Tells (Memory.Remembers (Known K Q U)) (Known K Q U topic key)
      ((Asking.within c depth).about topic key) := by
  induction depth generalizing topic key with
  | zero =>
    rw [Asking.within, Asking.exhausted_about]
    exact tells_throw _
  | succ depth ih =>
    rw [Asking.within, Asking.through_about]
    have hestimates := Asking.estimates_directly (c := c) (congruence_tells _)
      (fun j => ih .rowCount j trivial) (fun j => ih .collations j trivial)
      (fun j columns p => ih .distinct ⟨j, columns, p⟩ trivial)
    have hrefs : ∀ j, Tells (Memory.Remembers (Known K Q U))
        (fun found => ∀ refs, found = some refs → U j refs) ((Asking.within c depth).tableRefs j) :=
      fun j => ih .tableRefs j trivial
    cases topic with
    | rowCount => exact tells_memoize (fun _ _ _ _ => trivial) (hestimates.1 key)
    | collations => exact tells_memoize (fun _ _ _ _ => trivial) (hestimates.2.1 key)
    | distinct => exact tells_memoize (fun _ _ _ _ => trivial) (hestimates.2.2 _ _ _)
    | lineage =>
      refine tells_memoize (fun key' found heq h => ?_) ?_
      · obtain ⟨hnode, hexpr⟩ := Bool.and_eq_true_iff.mp heq
        rw [beq_iff_eq] at hnode
        exact ⟨hkey, fun es hes e' he' =>
          hlaw.equal hkey h.1 hexpr (by rw [hnode]; exact h.2 es hes e' he')⟩
      · show Tells _ _ ((c.methods.lineage.methodFor (c.operator key.node).kind).answer c _ key.node key.expr)
        rw [hlineage, Operator.lineage_methodFor_kind]
        refine (LineageMethod.tells_answer hrefs hlaw.column
          (fun j e he => (ih .lineage ⟨j, e⟩ he).imp fun found h => h.2) hkey
          (hlaw.projected key.node)).imp fun found h => ?_
        exact ⟨hkey, fun es hes e' he' => hlaw.traced hkey (h es hes e' he')⟩
    | tableRefs =>
      refine tells_memoize (fun key' found heq h => ?_) ?_
      · obtain rfl : key = key' := eq_of_beq (α := Nat) heq
        exact h
      · show Tells _ _ ((c.methods.tableRefs.methodFor (c.operator key).kind).answer c _ key)
        rw [htableRefs, Operator.tableRefs_methodFor_kind]
        exact (TableRefsMethod.tells_answer hrefs).imp fun found h refs hfound =>
          hlaw.listed (h refs hfound)

/-- What is asked of questions that are allowed is known, whatever such questions were asked before. -/
theorem tells_after (asked : List ((topic : Topic) × topic.Key))
    (hasked : ∀ call ∈ asked, Allows K call.1 call.2) (topic : Topic) (key : topic.Key)
    (hkey : Allows K topic key) :
    Answering (Known K Q U topic key)
      ((((Asking.of c).about topic key).run ((Asking.of c).memoryOf asked)).1) :=
  answering_after (fun call hcall => within_tells hlaw hlineage htableRefs _ _ _ (hasked call hcall))
    (within_tells hlaw hlineage htableRefs _ topic key hkey)

theorem of_lineage {asked : List ((topic : Topic) × topic.Key)}
    (hasked : ∀ call ∈ asked, Allows K call.1 call.2) {id : NodeId} {e : Expr} (he : K e)
    {es : List Expr}
    (h : (((Asking.of c).lineage id e).run ((Asking.of c).memoryOf asked)).1 = .ok (some es)) :
    ∀ e' ∈ es, Q id e e' := by
  have hknown := tells_after hlaw hlineage htableRefs asked hasked .lineage ⟨id, e⟩ he
  rw [show (((Asking.of c).about .lineage ⟨id, e⟩).run _).1 = .ok (some es) from h] at hknown
  exact hknown.2 es rfl

theorem of_tableRefs {asked : List ((topic : Topic) × topic.Key)}
    (hasked : ∀ call ∈ asked, Allows K call.1 call.2) {id : NodeId} {refs : List TableRef}
    (h : (((Asking.of c).tableRefs id).run ((Asking.of c).memoryOf asked)).1 = .ok (some refs)) :
    U id refs := by
  have hknown := tells_after hlaw hlineage htableRefs asked hasked .tableRefs id trivial
  rw [show (((Asking.of c).about .tableRefs id).run _).1 = .ok (some refs) from h] at hknown
  exact hknown refs rfl

end Cluster.TracingLaw

end QueryPlan
