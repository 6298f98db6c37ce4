import QueryPlan.Proofs.Metadata.Tracing
import QueryPlan.Proofs.Metadata.Containment
import Mathlib.Data.List.Sort
/-!
# Collations of projections that return their input

A projection that returns the columns of its input as they are reports the collations of the input, as a
set: each once, in ascending order, without empty ones and without those over columns that the input does
not have. The two are asked about in either order and with other questions in between. That they belong
together even so is an invariant of the memory: where collations of the projection are remembered, those of
the input that they were made of are remembered as well, since entries are never replaced.
-/
namespace QueryPlan

/-! ## The order of collations -/

theorem Direction.rank_injective : Function.Injective Direction.rank := by
  intro d d' h
  cases d <;> cases d' <;> first | rfl | cases h

theorem NullPlacement.rank_injective : Function.Injective NullPlacement.rank := by
  intro n n' h
  cases n <;> cases n' <;> first | rfl | cases h

instance : Std.TransOrd Direction := inferInstanceAs (Std.TransCmp (compareOn Direction.rank))

instance : Std.TransOrd NullPlacement := inferInstanceAs (Std.TransCmp (compareOn NullPlacement.rank))

instance : Std.TransOrd FieldCollation :=
  inferInstanceAs (Std.TransCmp (compareLex (compareOn FieldCollation.field)
    (compareLex (compareOn FieldCollation.direction) (compareOn FieldCollation.nulls))))

instance : Std.LawfulEqOrd FieldCollation where
  compare_self := Std.ReflCmp.compare_self
  eq_of_compare {a b} h := by
    obtain ⟨hfield, hrest⟩ := Ordering.then_eq_eq.mp h
    obtain ⟨hdirection, hnulls⟩ := Ordering.then_eq_eq.mp hrest
    have hf : a.field = b.field := Std.LawfulEqOrd.eq_of_compare hfield
    have hd : a.direction = b.direction :=
      Direction.rank_injective (Std.LawfulEqOrd.eq_of_compare hdirection)
    have hn : a.nulls = b.nulls := NullPlacement.rank_injective (Std.LawfulEqOrd.eq_of_compare hnulls)
    cases a
    cases b
    cases hf
    cases hd
    cases hn
    rfl

namespace Collation

theorem orderFields_eq (fcs fcs' : List FieldCollation) :
    orderFields fcs fcs' = List.compareLex compare fcs fcs' := by
  induction fcs generalizing fcs' with
  | nil => cases fcs' <;> rfl
  | cons fc fcs ih =>
    cases fcs' with
    | nil => rfl
    | cons fc' fcs' => rw [orderFields, ih, List.compareLex_cons_cons]

theorem compare_eq (k k' : Collation) : compare k k' = compareOn fields k k' :=
  orderFields_eq k.fields k'.fields

instance : Std.TransOrd Collation := by
  have htrans : Std.TransCmp (compareOn fields) := inferInstance
  rwa [show compareOn fields = (compare : Collation → Collation → Ordering) from
    funext fun k => funext fun k' => (compare_eq k k').symm] at htrans

instance : Std.LawfulEqOrd Collation where
  compare_self := Std.ReflCmp.compare_self
  eq_of_compare {k k'} h := by
    rw [compare_eq] at h
    have hfields : k.fields = k'.fields := Std.LawfulEqOrd.eq_of_compare h
    cases k
    cases k'
    cases hfields
    rfl

end Collation

namespace OrderedSet

variable {α : Type} [Ord α] {x y : α} {xs : List α}

/-- Each element is below all that come after it. -/
def Ascending (xs : List α) : Prop := xs.Pairwise fun x y => compare x y = .lt

theorem mem_replace [Std.LawfulEqOrd α] : y ∈ replace x xs ↔ y = x ∨ y ∈ xs := by
  refine ⟨mem_of_mem_replace, fun h => ?_⟩
  induction xs with
  | nil => exact List.mem_singleton.mpr (h.resolve_right List.not_mem_nil)
  | cons z xs ih =>
    unfold replace
    split
    · exact List.mem_cons.mpr h
    · next heq =>
      obtain rfl := Std.LawfulEqOrd.eq_of_compare heq
      rcases h with rfl | h
      · exact List.mem_cons_self
      · exact h
    · rcases h with rfl | h
      · exact List.mem_cons_of_mem z (ih (.inl rfl))
      · rcases List.mem_cons.mp h with rfl | h
        · exact List.mem_cons_self
        · exact List.mem_cons_of_mem z (ih (.inr h))

theorem mem_ofList [Std.LawfulEqOrd α] : y ∈ ofList xs ↔ y ∈ xs := by
  induction xs with
  | nil => exact Iff.rfl
  | cons x xs ih =>
    show y ∈ replace x (ofList xs) ↔ _
    rw [mem_replace, ih, List.mem_cons]

theorem ascending_replace [Std.TransOrd α] (h : Ascending xs) : Ascending (replace x xs) := by
  induction xs with
  | nil => exact List.pairwise_singleton _ _
  | cons z xs ih =>
    obtain ⟨hz, hxs⟩ := List.pairwise_cons.mp h
    unfold replace
    split
    · next hlt =>
      exact List.pairwise_cons.mpr
        ⟨List.forall_mem_cons.mpr ⟨hlt, fun w hw => Std.TransCmp.lt_trans hlt (hz w hw)⟩, h⟩
    · next heq =>
      exact List.pairwise_cons.mpr ⟨fun w hw => Std.TransCmp.lt_of_eq_of_lt heq (hz w hw), hxs⟩
    · next hgt =>
      refine List.pairwise_cons.mpr ⟨fun w hw => ?_, ih hxs⟩
      rcases mem_of_mem_replace hw with rfl | hw
      · exact Std.OrientedCmp.lt_of_gt hgt
      · exact hz w hw

theorem ascending_ofList [Std.TransOrd α] (xs : List α) : Ascending (ofList xs) := by
  induction xs with
  | nil => exact List.Pairwise.nil
  | cons x xs ih => exact ascending_replace ih

/-- Ascending lists of the same elements are the same. -/
theorem Ascending.eq_of_mem_iff [Std.TransOrd α] {ys : List α} (hxs : Ascending xs)
    (hys : Ascending ys) (h : ∀ x, x ∈ xs ↔ x ∈ ys) : xs = ys := by
  have : Std.Irrefl fun x y : α => compare x y = .lt :=
    ⟨fun x hx => by cases hx.symm.trans (Std.ReflCmp.compare_self : compare x x = .eq)⟩
  have : Std.Antisymm fun x y : α => compare x y = .lt :=
    ⟨fun x y hxy hyx => by cases hxy.symm.trans (Std.OrientedCmp.gt_of_lt hyx)⟩
  exact List.Pairwise.eq_of_mem_iff hxs hys h

end OrderedSet

/-! ## What a projection makes of the collations -/

namespace Collation

variable {arity : Nat} {exprs : List Expr} {inputs ks : List Collation} {k : Collation}

/-- The collation says something, and all of it about columns below the arity. -/
def Applies (arity : Nat) (k : Collation) : Prop := k.isEmpty = false ∧ k.Within arity

/-- Ascending collations that apply. -/
def Canonical (arity : Nat) (ks : List Collation) : Prop :=
  OrderedSet.Ascending ks ∧ ∀ k ∈ ks, k.Applies arity

/-- The collations of a list that apply, each once, in ascending order. They are the list itself exactly if
that is so already. -/
structure CanonicalOf (arity : Nat) (inputs ks : List Collation) : Prop where
  canonical : Canonical arity ks
  mem_iff : ∀ k, k ∈ ks ↔ k ∈ inputs ∧ k.Applies arity
  eq_iff : ks = inputs ↔ Canonical arity inputs

theorem canonicalOf_ofList {chosen : List Collation} (h : ∀ k, k ∈ chosen ↔ k ∈ inputs ∧ k.Applies arity) :
    CanonicalOf arity inputs (OrderedSet.ofList chosen) := by
  have hmem : ∀ k, k ∈ OrderedSet.ofList chosen ↔ k ∈ inputs ∧ k.Applies arity := fun k =>
    OrderedSet.mem_ofList.trans (h k)
  have hcanonical : Canonical arity (OrderedSet.ofList chosen) :=
    ⟨OrderedSet.ascending_ofList chosen, fun k hk => ((hmem k).mp hk).2⟩
  refine ⟨hcanonical, hmem, fun heq => heq ▸ hcanonical, fun hinputs => ?_⟩
  refine hcanonical.1.eq_of_mem_iff hinputs.1 fun k => ?_
  rw [hmem]
  exact ⟨fun hk => hk.1, fun hk => ⟨hk, hinputs.2 k hk⟩⟩

section

variable (h : Expr.areIdentity exprs arity = true)

include h

theorem asColumn?_of_areIdentity {i : Nat} (hi : i < exprs.length) : exprs[i].asColumn? = some i := by
  have hcolumns : exprs.map Expr.asColumn? = (List.range arity).map some := by
    simpa [Expr.areIdentity] using h
  have hlength := Expr.length_of_areIdentity h
  have hget : (exprs.map Expr.asColumn?)[i]? = ((List.range arity).map some)[i]? := by rw [hcolumns]
  rw [List.getElem?_map, List.getElem?_map, List.getElem?_eq_getElem hi,
    List.getElem?_range (hlength ▸ hi)] at hget
  exact Option.some.inj hget

/-- A column that is returned as it is leads to itself. -/
theorem findIdx?_of_areIdentity (i : Nat) :
    (exprs.findIdx? fun e => e.asColumn? == some i) = if i < arity then some i else none := by
  have hlength := Expr.length_of_areIdentity h
  split
  · next hi =>
    rw [← hlength] at hi
    refine List.findIdx?_eq_some_iff_getElem.mpr ⟨hi, ?_, fun j hj => ?_⟩
    · rw [asColumn?_of_areIdentity h hi, beq_self_eq_true]
    · rw [asColumn?_of_areIdentity h (Nat.lt_trans hj hi), beq_iff_eq, Option.some.injEq]
      omega
  · next hi =>
    refine List.findIdx?_eq_none_iff.mpr fun e he => ?_
    obtain ⟨j, hj, rfl⟩ := List.getElem_of_mem he
    rw [asColumn?_of_areIdentity h hj, beq_eq_false_iff_ne, ne_eq, Option.some.injEq]
    omega

theorem throughProjection?_of_areIdentity :
    throughProjection? exprs k = if k.Within arity then some k else none := by
  obtain ⟨fields⟩ := k
  suffices hfields : (fields.mapM fun fc : FieldCollation =>
      (exprs.findIdx? fun e => e.asColumn? == some fc.field).map fun i => { fc with field := i }) =
        if (Collation.mk fields).Within arity then some fields else none by
    unfold throughProjection?
    dsimp only
    rw [hfields]
    split <;> rfl
  induction fields with
  | nil => rfl
  | cons fc fields ih =>
    have hwithin : (Collation.mk (fc :: fields)).Within arity ↔
        fc.field < arity ∧ (Collation.mk fields).Within arity := List.forall_mem_cons
    rw [List.mapM_cons, ih, findIdx?_of_areIdentity h]
    by_cases hfc : fc.field < arity
    · by_cases hrest : (Collation.mk fields).Within arity
      · rw [if_pos hfc, if_pos hrest, if_pos (hwithin.mpr ⟨hfc, hrest⟩)]
        rfl
      · rw [if_pos hfc, if_neg hrest, if_neg fun hall => hrest (hwithin.mp hall).2]
        rfl
    · rw [if_neg hfc, if_neg fun hall => hfc (hwithin.mp hall).1]
      rfl

/-- A projection that returns its input has the collations of the input that apply. -/
theorem exists_ofProjection?_of_areIdentity (inputs : List Collation) :
    ∃ ks, ofProjection? exprs inputs = some ks ∧ CanonicalOf arity inputs ks := by
  have hmoving : movingFields? inputs exprs.zipIdx = some [] := by
    refine movingFields?_of_not_calls fun p hp => ?_
    obtain ⟨i, hi, hp⟩ := List.getElem_of_mem (List.fst_mem_of_mem_zipIdx hp)
    obtain ⟨t, hcolumn⟩ := Expr.asColumn?_eq_some (asColumn?_of_areIdentity h hi)
    rw [← hp, hcolumn]
    rfl
  have hthrough : ∀ k, k ∈ (inputs.filter (!·.isEmpty)).filterMap (throughProjection? exprs) ↔
      k ∈ inputs ∧ k.Applies arity := by
    intro k
    simp only [List.mem_filterMap, List.mem_filter, throughProjection?_of_areIdentity h]
    constructor
    · rintro ⟨k', ⟨hk', hempty⟩, hwithin⟩
      split at hwithin
      · next hw =>
        cases hwithin
        exact ⟨hk', by simpa using hempty, hw⟩
      · cases hwithin
    · rintro ⟨hk, hempty, hwithin⟩
      exact ⟨k, ⟨hk, by rw [hempty]; rfl⟩, if_pos hwithin⟩
  unfold ofProjection?
  split
  · next hnone =>
    rw [List.isEmpty_iff] at hnone
    subst hnone
    have hnothing : CanonicalOf arity [] (OrderedSet.ofList []) := canonicalOf_ofList fun k => by simp
    exact ⟨[], rfl, hnothing⟩
  · rw [hmoving]
    exact ⟨_, rfl, canonicalOf_ofList (by simpa using hthrough)⟩

end

end Collation

/-! ## What is remembered stays -/

namespace Memory

/-- That is remembered of the collations of a node. -/
def Holds (m : Memory) (id : NodeId) (entry : Entry (List Collation)) : Prop :=
  Shelf.collations.remembered? id m = some entry

variable {m m' : Memory} {id other : NodeId} {entry entry' : Entry (List Collation)}

theorem Holds.unique (h : m.Holds id entry) (h' : m.Holds id entry') : entry = entry' :=
  Option.some.inj (h.symm.trans h')

theorem Holds.pending (h : m.Holds id .inProgress) : m.Pending .collations id := by
  have hlookup : m.collations.lookup id = some .inProgress := h
  obtain ⟨key, hmem, heq⟩ := Entries.mem_of_lookup hlookup
  obtain rfl : id = key := eq_of_beq (α := Nat) heq
  exact hmem

theorem holds_of_collations (h : m'.collations = m.collations) :
    m'.Holds id entry ↔ m.Holds id entry := by
  show List.lookup id m'.collations = some entry ↔ List.lookup id m.collations = some entry
  rw [h]

theorem lookup_erase_of_ne {entries : Entries NodeId (List Collation)} (h : other ≠ id) :
    (entries.erase id).lookup other = entries.lookup other := by
  unfold Entries.erase
  induction entries with
  | nil => rfl
  | cons e entries ih =>
    obtain ⟨key, entry⟩ := e
    by_cases hkey : key = id
    · subst hkey
      rw [List.filter_cons_of_neg (by simp), ih, List.lookup_cons, beq_false_of_ne h]
    · rw [List.filter_cons_of_pos (by simpa using hkey), List.lookup_cons, List.lookup_cons, ih]

theorem holds_note_self : (Shelf.collations.note id entry m).Holds id entry := by
  show List.lookup id ((id, entry) :: _) = some entry
  rw [List.lookup_cons, beq_self_eq_true]

theorem holds_note_of_ne (h : other ≠ id) :
    (Shelf.collations.note id entry m).Holds other entry' ↔ m.Holds other entry' := by
  show List.lookup other ((id, entry) :: m.collations.erase id) = some entry' ↔ _
  rw [List.lookup_cons, beq_false_of_ne h, lookup_erase_of_ne h]
  rfl

theorem holds_forget_of_ne (h : other ≠ id) :
    (Shelf.collations.forget id m).Holds other entry ↔ m.Holds other entry := by
  show List.lookup other (m.collations.erase id) = some entry ↔ _
  rw [lookup_erase_of_ne h]
  rfl

theorem not_holds_forget : ¬(Shelf.collations.forget id m).Holds id entry := by
  intro h
  have hlookup : (m.collations.erase id).lookup id = some entry := h
  obtain ⟨key, hmem, heq⟩ := Entries.mem_of_lookup hlookup
  obtain rfl : id = key := eq_of_beq (α := Nat) heq
  exact (Entries.mem_erase.mp hmem).2 (beq_self_eq_true id)

end Memory

namespace Querying

variable {I : Memory → Prop}

/-- Questions about other topics do not touch what is remembered of collations. -/
theorem tells_memoize_other (hI : ∀ {m m' : Memory}, m'.collations = m.collations → I m → I m')
    {topic : Topic} (htopic : .collations ≠ topic) {key : topic.Key} {node : NodeId}
    {x : Querying topic.Answer} (hx : Tells I (fun _ => True) x) :
    Tells I (fun _ => True) (topic.shelf.memoize key node topic x) := by
  intro m hm
  unfold Shelf.memoize
  rw [ExceptT.run_mk]
  have hnote : ∀ m entry, (topic.shelf.note key entry m).collations = m.collations := fun m entry =>
    Topic.entries_note_of_ne htopic
  rcases topic.shelf.remembered? key m with _ | ⟨_ | answer⟩
  · have hbegun := hx _ (hI (hnote m .inProgress) hm)
    dsimp only
    generalize x.run (topic.shelf.note key .inProgress m) = outcome at *
    obtain ⟨e | answer, m'⟩ := outcome
    · exact ⟨hI (Topic.entries_forget_of_ne htopic) hbegun.1, trivial⟩
    · exact ⟨hI (hnote m' (.done answer)) hbegun.1, trivial⟩
  · exact ⟨hm, trivial⟩
  · exact ⟨hm, trivial⟩

/-- What becomes of a question about the collations of a node: it is answered from memory, it is refused
since it is being answered, or it is answered by a query while it is noted as in progress. -/
inductive Memoized (id : NodeId) (x : Querying (List Collation)) (m : Memory) :
    Except QueryError (List Collation) × Memory → Prop
  | known {ks : List Collation} (h : m.Holds id (.done ks)) : Memoized id x m (.ok ks, m)
  | cyclic {e : QueryError} (h : m.Holds id .inProgress) : Memoized id x m (.error e, m)
  | found {ks : List Collation} {m' : Memory} (hnew : ∀ entry, ¬m.Holds id entry)
      (hrun : x.run (Shelf.collations.note id .inProgress m) = (.ok ks, m')) :
      Memoized id x m (.ok ks, Shelf.collations.note id (.done ks) m')
  | failed {e : QueryError} {m' : Memory} (hnew : ∀ entry, ¬m.Holds id entry)
      (hrun : x.run (Shelf.collations.note id .inProgress m) = (.error e, m')) :
      Memoized id x m (.error e, Shelf.collations.forget id m')

theorem memoized (id node : NodeId) (topic : Topic) (x : Querying (List Collation)) (m : Memory) :
    Memoized id x m ((Shelf.collations.memoize id node topic x).run m) := by
  unfold Shelf.memoize
  rw [ExceptT.run_mk]
  rcases hremembered : Shelf.collations.remembered? id m with _ | ⟨_ | ks⟩
  · have hnew : ∀ entry, ¬m.Holds id entry := fun entry h => by cases hremembered.symm.trans h
    dsimp only
    rcases hrun : x.run (Shelf.collations.note id .inProgress m) with ⟨e | ks, m'⟩
    · exact .failed hnew hrun
    · exact .found hnew hrun
  · exact .cyclic hremembered
  · exact .known hremembered

end Querying

namespace Asking

open Querying

variable {c : Cluster} {I : Memory → Prop}

theorem memoized_within (depth : Nat) (id : NodeId) (m : Memory) :
    Memoized id ((directly c (within c depth)).collations id) m
      (((within c (depth + 1)).collations id).run m) := memoized id id .collations _ m

/-- What is kept of the remembered collations by questions about collations, whatever becomes of these, is
kept by all questions. -/
theorem within_keeps (hI : ∀ {m m' : Memory}, m'.collations = m.collations → I m → I m')
    (hstep : ∀ depth id, Tells I (fun _ => True) ((directly c (within c depth)).collations id) →
      ∀ m outcome, I m → Memoized id ((directly c (within c depth)).collations id) m outcome → I outcome.2)
    (depth : Nat) (topic : Topic) (key : topic.Key) :
    Tells I (fun _ => True) ((within c depth).about topic key) := by
  induction depth generalizing topic key with
  | zero =>
    rw [within, exhausted_about]
    exact tells_throw _
  | succ depth ih =>
    have hdirect := about_directly (c := c) (congruence_tells _) ih topic key
    by_cases htopic : .collations = topic
    · subst htopic
      intro m hm
      refine ⟨hstep depth key hdirect m _ hm (memoized_within depth key m), ?_⟩
      unfold Answering
      split <;> trivial
    · rw [within, through_about]
      exact tells_memoize_other hI htopic hdirect

/-- An entry stays as it is while any question is answered, be it an answer or that one is looked for. -/
theorem within_holds (id : NodeId) (entry : Entry (List Collation)) (depth : Nat) (topic : Topic)
    (key : topic.Key) :
    Tells (fun m => m.Holds id entry) (fun _ => True) ((within c depth).about topic key) := by
  refine within_keeps (I := fun m => m.Holds id entry)
    (fun heq => (Memory.holds_of_collations heq).mpr) (fun depth other hdirect m outcome hm h => ?_)
    depth topic key
  have hbegun := fun hne : id ≠ other =>
    hdirect (Shelf.collations.note other .inProgress m) ((Memory.holds_note_of_ne hne).mpr hm)
  cases h with
  | known h => exact hm
  | cyclic h => exact hm
  | found hnew hrun =>
    have hne : id ≠ other := fun heq => hnew entry (heq ▸ hm)
    rw [hrun] at hbegun
    exact (Memory.holds_note_of_ne hne).mpr (hbegun hne).1
  | failed hnew hrun =>
    have hne : id ≠ other := fun heq => hnew entry (heq ▸ hm)
    rw [hrun] at hbegun
    exact (Memory.holds_forget_of_ne hne).mpr (hbegun hne).1

/-- What is answered is remembered. -/
theorem holds_of_run {depth : Nat} {id : NodeId} {m m' : Memory} {ks : List Collation}
    (h : ((within c depth).collations id).run m = (.ok ks, m')) : m'.Holds id (.done ks) := by
  cases depth with
  | zero => cases h
  | succ depth =>
    have hcases := memoized_within (c := c) depth id m
    rw [h] at hcases
    cases hcases with
    | known hknown => exact hknown
    | found hnew hrun => exact Memory.holds_note_self

/-- What is remembered is answered. -/
theorem run_of_holds {depth : Nat} {id : NodeId} {m : Memory} {ks : List Collation}
    (h : m.Holds id (.done ks)) : ((within c (depth + 1)).collations id).run m = (.ok ks, m) := by
  have hcases := memoized_within (c := c) depth id m
  generalize ((within c (depth + 1)).collations id).run m = outcome at *
  cases hcases with
  | known h' =>
    cases h.unique h'
    rfl
  | cyclic h' => cases h.unique h'
  | found hnew => exact absurd h (hnew _)
  | failed hnew => exact absurd h (hnew _)

/-- Answers that are remembered stay so after any questions. -/
theorem holds_later {id : NodeId} {ks : List Collation} (asked asked' : List ((topic : Topic) × topic.Key))
    (h : (((of c).collations id).run ((of c).memoryOf asked)).1 = .ok ks) :
    ((of c).memoryOf (asked ++ ⟨.collations, id⟩ :: asked')).Holds id (.done ks) := by
  have hanswered : (((of c).collations id).run ((of c).memoryOf asked)).2.Holds id (.done ks) :=
    holds_of_run (Prod.ext h rfl)
  rw [memoryOf, List.foldl_append, List.foldl_cons]
  exact holds_after (I := fun m => m.Holds id (.done ks)) hanswered
    fun call _ m hm => (within_holds id (.done ks) _ call.1 call.2 m hm).1

end Asking

/-! ## Projections and their inputs in one memory -/

/-- The node reports the columns of its input as they are, by the method of projections. -/
structure Cluster.ReturnsInput (c : Cluster) (project input : NodeId) : Prop where
  method : c.methods.collations.methodFor (c.kind project) = .project
  first : c.input? project 0 = some input
  identity : ∃ columns, (c.operator project).projection? = some columns ∧
    Expr.areIdentity (columns.map Prod.fst) (c.arity input) = true

/-- Where collations of the projection are remembered, those of its input that they were made of are. -/
def Memory.Backed (c : Cluster) (project input : NodeId) (m : Memory) : Prop :=
  ∀ ks, m.Holds project (.done ks) →
    ∃ is, m.Holds input (.done is) ∧ Collation.CanonicalOf (c.arity input) is ks

namespace Memory

variable {c : Cluster} {project input id : NodeId} {m m' : Memory}

theorem backed_empty : ({} : Memory).Backed c project input := by
  intro ks hks
  cases hks

/-- Noting a new question leaves all answers. -/
theorem Backed.begin (h : m.Backed c project input) (hnew : ∀ entry, ¬m.Holds id entry) :
    (Shelf.collations.note id .inProgress m).Backed c project input := by
  intro ks hks
  have hproject : project ≠ id := by
    rintro rfl
    cases hks.unique holds_note_self
  obtain ⟨is, his, hcanonical⟩ := h ks ((holds_note_of_ne hproject).mp hks)
  have hinput : input ≠ id := fun heq => hnew _ (heq ▸ his)
  exact ⟨is, (holds_note_of_ne hinput).mpr his, hcanonical⟩

/-- The entry that an outcome replaces was in progress, so it is not the answer about the input. -/
theorem Backed.complete (h : m.Backed c project input) (hpending : m.Holds id .inProgress)
    (hothers : ∀ other entry, other ≠ id → (m'.Holds other entry ↔ m.Holds other entry))
    (hproject : project = id → ∀ ks, m'.Holds id (.done ks) →
      ∃ is, m.Holds input (.done is) ∧ Collation.CanonicalOf (c.arity input) is ks) :
    m'.Backed c project input := by
  intro ks hks
  have hmade : ∃ is, m.Holds input (.done is) ∧ Collation.CanonicalOf (c.arity input) is ks := by
    by_cases heq : project = id
    · exact hproject heq ks (heq ▸ hks)
    · exact h ks ((hothers project _ heq).mp hks)
  obtain ⟨is, his, hcanonical⟩ := hmade
  have hinput : input ≠ id := by
    rintro rfl
    cases his.unique hpending
  exact ⟨is, (hothers input _ hinput).mpr his, hcanonical⟩

end Memory

namespace Asking

open Querying

variable {c : Cluster} {project input : NodeId} (hreturns : c.ReturnsInput project input)

include hreturns

/-- The collations of the projection are found by asking for those of the input. -/
theorem directly_project (next : Asking) : ∃ exprs, Expr.areIdentity exprs (c.arity input) = true ∧
    (directly c next).collations project =
      next.collations input >>= fun is => ofOption (Collation.ofProjection? exprs is) := by
  obtain ⟨columns, hop, hidentity⟩ := hreturns.identity
  refine ⟨_, hidentity, ?_⟩
  show (c.methods.collations.methodFor (c.kind project)).answer c next project = _
  rw [hreturns.method]
  unfold CollationsMethod.answer
  rw [hop]
  dsimp only
  unfold Querying.input
  rw [hreturns.first]
  rfl

theorem run_project {depth : Nat} {m m' : Memory} {ks : List Collation}
    (h : ((directly c (within c depth)).collations project).run m = (.ok ks, m')) :
    ∃ is, m'.Holds input (.done is) ∧ Collation.CanonicalOf (c.arity input) is ks := by
  obtain ⟨exprs, hidentity, hdirect⟩ := directly_project hreturns (within c depth)
  rw [hdirect, run_bind] at h
  rcases hrun : ((within c depth).collations input).run m with ⟨e | is, m₁⟩
  · rw [hrun] at h
    cases h
  · rw [hrun] at h
    obtain ⟨ks', hks', hcanonical⟩ := Collation.exists_ofProjection?_of_areIdentity hidentity is
    dsimp only at h
    rw [hks'] at h
    cases h
    exact ⟨is, holds_of_run hrun, hcanonical⟩

theorem within_backed (depth : Nat) (topic : Topic) (key : topic.Key) :
    Tells (Memory.Backed c project input) (fun _ => True) ((within c depth).about topic key) := by
  refine within_keeps (fun heq hm ks hks => ?_) (fun depth id hdirect m outcome hm h => ?_) depth topic key
  · obtain ⟨is, his, hcanonical⟩ := hm ks ((Memory.holds_of_collations heq).mp hks)
    exact ⟨is, (Memory.holds_of_collations heq).mpr his, hcanonical⟩
  have hpending : (((directly c (within c depth)).collations id).run
      (Shelf.collations.note id .inProgress m)).2.Holds id .inProgress :=
    (about_directly (congruence_tells _) (within_holds id .inProgress depth) .collations id _
      Memory.holds_note_self).1
  cases h with
  | known h => exact hm
  | cyclic h => exact hm
  | found hnew hrun =>
    have hbegun := (hdirect _ (hm.begin hnew)).1
    rw [hrun] at hbegun hpending
    refine hbegun.complete hpending (fun other entry => Memory.holds_note_of_ne) ?_
    rintro rfl ks hks
    cases hks.unique Memory.holds_note_self
    exact run_project hreturns hrun
  | failed hnew hrun =>
    have hbegun := (hdirect _ (hm.begin hnew)).1
    rw [hrun] at hbegun hpending
    refine hbegun.complete hpending (fun other entry => Memory.holds_forget_of_ne) ?_
    exact fun _ ks hks => absurd hks Memory.not_holds_forget

theorem backed_after (asked : List ((topic : Topic) × topic.Key)) :
    ((of c).memoryOf asked).Backed c project input :=
  holds_after Memory.backed_empty fun call _ m hm => (within_backed hreturns _ call.1 call.2 m hm).1

/-- Where the collations of the input are remembered and no question is being answered, those of the
projection are found, and are made of these. -/
theorem exists_project {depth : Nat} {m : Memory} {is : List Collation} (hm : m.Backed c project input)
    (hidle : ¬m.Pending .collations project) (his : m.Holds input (.done is)) :
    ∃ ks, (((within c (depth + 2)).collations project).run m).1 = .ok ks ∧
      Collation.CanonicalOf (c.arity input) is ks := by
  have hcases := memoized_within (c := c) (depth + 1) project m
  generalize ((within c (depth + 2)).collations project).run m = outcome at *
  obtain ⟨exprs, hidentity, hdirect⟩ := directly_project hreturns (within c (depth + 1))
  obtain ⟨ks, hks, hcanonical⟩ := Collation.exists_ofProjection?_of_areIdentity hidentity is
  have hdirectly : (∀ entry, ¬m.Holds project entry) →
      ((directly c (within c (depth + 1))).collations project).run
        (Shelf.collations.note project .inProgress m) =
          (.ok ks, Shelf.collations.note project .inProgress m) := by
    intro hnew
    have hne : input ≠ project := fun heq => hnew _ (heq ▸ his)
    rw [hdirect, run_bind, run_of_holds ((Memory.holds_note_of_ne hne).mpr his)]
    dsimp only
    rw [hks]
    rfl
  cases hcases with
  | @known ks' h =>
    obtain ⟨is', his', hcanonical'⟩ := hm ks' h
    cases his.unique his'
    exact ⟨ks', rfl, hcanonical'⟩
  | cyclic h => exact absurd h.pending hidle
  | found hnew hrun =>
    cases (hdirectly hnew).symm.trans hrun
    exact ⟨ks, rfl, hcanonical⟩
  | failed hnew hrun => cases (hdirectly hnew).symm.trans hrun

/-- Whichever of a projection that returns its input and the input is asked about first, and whatever is
asked before and in between, if the first one has collations, so has the second. Those of the projection
are the ones of the input that apply, each once, in ascending order. -/
theorem collations_returned (asked asked' : List ((topic : Topic) × topic.Key)) :
    (∀ is, (((of c).collations input).run ((of c).memoryOf asked)).1 = .ok is →
      ∃ ks, (((of c).collations project).run
          ((of c).memoryOf (asked ++ ⟨.collations, input⟩ :: asked'))).1 = .ok ks ∧
        Collation.CanonicalOf (c.arity input) is ks) ∧
    ∀ ks, (((of c).collations project).run ((of c).memoryOf asked)).1 = .ok ks →
      ∃ is, (((of c).collations input).run
          ((of c).memoryOf (asked ++ ⟨.collations, project⟩ :: asked'))).1 = .ok is ∧
        Collation.CanonicalOf (c.arity input) is ks := by
  obtain ⟨depth, hdepth⟩ : ∃ depth, 64 * (c.size + 1) = depth + 2 := ⟨64 * (c.size + 1) - 2, by omega⟩
  have hof : of c = within c (depth + 2) := congrArg (within c) hdepth
  refine ⟨fun is his => ?_, fun ks hks => ?_⟩
  · have hholds := holds_later asked asked' his
    have hidle := not_pending_after c (asked ++ ⟨.collations, input⟩ :: asked') .collations project
    have hbacked := backed_after hreturns (asked ++ ⟨.collations, input⟩ :: asked')
    generalize (of c).memoryOf (asked ++ ⟨.collations, input⟩ :: asked') = m at *
    rw [hof]
    exact exists_project hreturns hbacked hidle hholds
  · have hholds := holds_later asked asked' hks
    obtain ⟨is, his, hcanonical⟩ := backed_after hreturns _ ks hholds
    refine ⟨is, ?_, hcanonical⟩
    generalize (of c).memoryOf (asked ++ ⟨.collations, project⟩ :: asked') = m at *
    rw [hof, run_of_holds his]

omit hreturns

/-- Races by rank and by runner, the latter declared twice, with one that says nothing and one over a
column that is not there. -/
def races : Table :=
  { name := ["RACES"], rowType := ⟨[⟨"runner", .bigint, true⟩, ⟨"rank", .bigint, true⟩]⟩,
    collations := [.ofKeys [1], .ofKeys [0], .ofKeys [0], .empty, .ofKeys [2]],
    source := some (.ok [[.integer 1, .integer 1], [.integer 2, .integer 2]]) }

/-- The races as they are stored. -/
def storedRaces : Planning NodeId := do
  let scan ← Cluster.createDefault (.scan .none races) []
  Cluster.createDefault (.project .none [(.column 0 .bigint, "runner"), (.column 1 .bigint, "rank")]) [scan]

def raceSession : Cluster := (storedRaces.run.run (Cluster.start ⟨[races]⟩ default default)).2

theorem returnsInput_races : raceSession.ReturnsInput 1 0 :=
  ⟨rfl, rfl, [(.column 0 .bigint, "runner"), (.column 1 .bigint, "rank")], rfl, by decide +kernel⟩

/-- What the races report, and the projection after them or before them, once its uses of tables were
asked about. -/
theorem collations_returned_races :
    (∃ ks, (((of raceSession).collations 1).run ((of raceSession).memoryOf
        [⟨.tableRefs, (1 : Nat)⟩, ⟨.collations, (0 : Nat)⟩])).1 = .ok ks ∧
      Collation.CanonicalOf 2 races.collations ks) ∧
    ∃ is, (((of raceSession).collations 0).run ((of raceSession).memoryOf
        [⟨.tableRefs, (1 : Nat)⟩, ⟨.collations, (1 : Nat)⟩])).1 = .ok is ∧
      Collation.CanonicalOf 2 is [.ofKeys [0], .ofKeys [1]] := by
  obtain ⟨hafter, hbefore⟩ := collations_returned returnsInput_races [⟨.tableRefs, (1 : Nat)⟩] []
  exact ⟨hafter races.collations rfl, hbefore [.ofKeys [0], .ofKeys [1]] rfl⟩

/-- The projection reports neither what is declared twice a second time, nor in the order of declaration,
nor what says nothing or speaks of a column that is not there. -/
theorem collations_returned_not_eq :
    raceSession.methods = .builtin ∧ (∀ id < 2, (raceSession.check id).isOk = true) ∧
    raceSession.ReturnsInput 1 0 ∧
    (((of raceSession).collations 0).run {}).1 =
      .ok [.ofKeys [1], .ofKeys [0], .ofKeys [0], .empty, .ofKeys [2]] ∧
    (((of raceSession).collations 1).run (((of raceSession).collations 0).run {}).2).1 =
      .ok [.ofKeys [0], .ofKeys [1]] :=
  ⟨rfl, by decide +kernel, returnsInput_races, rfl, rfl⟩

end Asking

end QueryPlan
