import QueryPlan.Proofs.Metadata.Answers
import QueryPlan.Cluster.Edit
/-!
# Answers after other questions

A question is answered from memory, or through questions that may be. What is remembered of settled
questions are their answers, whatever was asked before: the questions that are being answered need
the one that is asked, so that a settled question meets none of them. Remembered answers of other
questions may come from within a cycle, where they depend on the question that came first.
-/
namespace QueryPlan

open Relation

namespace DistinctKey

theorem beq_eq (key key' : DistinctKey) :
    (key == key') = (key.node == key'.node && decide (key.columns = key'.columns) &&
      key.predicate == key'.predicate) := rfl

theorem beq_self (key : DistinctKey) : (key == key) = true := by
  rw [beq_eq]
  simp

/-- Equal keys are of one node and of the same columns, with predicates that are alike. -/
theorem of_beq {key key' : DistinctKey} (h : (key == key') = true) :
    key.node = key'.node ∧ key.columns = key'.columns ∧
      Option.Rel Expr.Alike key.predicate key'.predicate := by
  rw [beq_eq, Bool.and_eq_true, Bool.and_eq_true, beq_iff_eq, decide_eq_true_eq] at h
  obtain ⟨⟨hnode, hcolumns⟩, hpredicate⟩ := h
  refine ⟨hnode, hcolumns, ?_⟩
  revert hpredicate
  cases key.predicate with
  | none =>
    cases key'.predicate with
    | none => exact fun _ => .none
    | some p' => exact nofun
  | some p =>
    cases key'.predicate with
    | none => exact nofun
    | some p' => exact fun hpredicate => .some (Expr.alike_of_beq hpredicate)

end DistinctKey

namespace Aspect

/-- What is asked about an aspect: a node, with columns and a predicate for distinct rows. -/
def Key : Aspect → Type
  | rowCount | collations => NodeId
  | distinct => DistinctKey

def Answer : Aspect → Type
  | rowCount => Float
  | collations => List Collation
  | distinct => Option Float

instance : (aspect : Aspect) → BEq aspect.Key
  | rowCount | collations => inferInstanceAs (BEq Nat)
  | distinct => inferInstanceAs (BEq DistinctKey)

def topic : Aspect → Topic
  | rowCount => .rowCount
  | collations => .collations
  | distinct => .distinct

def node : (aspect : Aspect) → aspect.Key → NodeId
  | rowCount, id | collations, id => id
  | distinct, key => key.node

def question (aspect : Aspect) (key : aspect.Key) : Question := ⟨aspect, aspect.node key⟩

/-- Where the answers about an aspect are kept. -/
def shelf : (aspect : Aspect) → Shelf aspect.Key aspect.Answer
  | rowCount => Shelf.rowCount
  | collations => Shelf.collations
  | distinct => Shelf.distinct

theorem entries_store (aspect : Aspect) (m : Memory) (entries : Entries aspect.Key aspect.Answer) :
    aspect.shelf.entries (aspect.shelf.store m entries) = entries := by
  cases aspect <;> rfl

theorem entries_store_of_ne {aspect other : Aspect} (h : other ≠ aspect) (m : Memory)
    (entries : Entries aspect.Key aspect.Answer) :
    other.shelf.entries (aspect.shelf.store m entries) = other.shelf.entries m := by
  cases aspect <;> cases other <;> first | rfl | exact absurd rfl h

theorem key_beq_self (aspect : Aspect) (key : aspect.Key) : (key == key) = true := by
  cases aspect with
  | rowCount | collations => exact ReflBEq.rfl (α := Nat)
  | distinct => exact key.beq_self

end Aspect

namespace Asking

/-- Asks about an aspect. -/
def ask (way : Asking) : (aspect : Aspect) → aspect.Key → Querying aspect.Answer
  | .rowCount, id => way.rowCount id
  | .collations, id => way.collations id
  | .distinct, key => way.distinct key.node key.columns key.predicate

theorem through_ask (c : Cluster) (next : Asking) (aspect : Aspect) (key : aspect.Key) :
    (through c next).ask aspect key =
      aspect.shelf.memoize key (aspect.node key) aspect.topic
        ((directly c next).ask aspect key) := by
  cases aspect <;> rfl

/-- Related ways of asking give related answers to equal questions. -/
theorem Related.ask {R : {α : Type} → Querying α → Querying α → Prop} {Q : Question → Prop}
    {way way' : Asking} (h : Related R Q way way') {aspect : Aspect} {key key' : aspect.Key}
    (heq : (key == key') = true) (hQ : Q (aspect.question key)) :
    R (way.ask aspect key) (way'.ask aspect key') := by
  cases aspect with
  | rowCount =>
    obtain rfl : key = key' := eq_of_beq (α := Nat) heq
    exact h.rowCount key hQ
  | collations =>
    obtain rfl : key = key' := eq_of_beq (α := Nat) heq
    exact h.collations key hQ
  | distinct =>
    obtain ⟨node, columns, predicate⟩ := key
    obtain ⟨node', columns', predicate'⟩ := key'
    obtain ⟨rfl, rfl, hp⟩ := DistinctKey.of_beq heq
    exact h.distinct node columns predicate predicate' hQ hp

end Asking

theorem Aspect.question_of_beq {aspect : Aspect} {key key' : aspect.Key}
    (h : (key == key') = true) : aspect.question key = aspect.question key' := by
  cases aspect with
  | rowCount | collations => exact congrArg _ (eq_of_beq (α := Nat) h)
  | distinct => exact congrArg (Question.mk .distinct) (DistinctKey.of_beq h).1

/-! ## What is remembered -/

namespace Entries

variable {κ α : Type} [BEq κ] {entries : Entries κ α}

theorem mem_of_lookup {key : κ} {entry : Entry α} (h : entries.lookup key = some entry) :
    ∃ key', (key', entry) ∈ entries ∧ (key == key') = true := by
  induction entries with
  | nil => cases h
  | cons e entries ih =>
    rw [List.lookup_cons] at h
    split at h
    · next heq =>
      cases h
      exact ⟨e.1, List.mem_cons_self, heq⟩
    · obtain ⟨key', hmem, heq⟩ := ih h
      exact ⟨key', List.mem_cons_of_mem _ hmem, heq⟩

theorem mem_erase {key : κ} {e : κ × Entry α} :
    e ∈ entries.erase key ↔ e ∈ entries ∧ ¬(e.1 == key) = true := by
  simp [erase]

theorem mem_put {key : κ} {entry : Entry α} {e : κ × Entry α} :
    e ∈ entries.put key entry ↔ e = (key, entry) ∨ e ∈ entries ∧ ¬(e.1 == key) = true := by
  rw [put, List.mem_cons, mem_erase]

end Entries

namespace Memory

variable {c : Cluster} {m m' m'' : Memory}

/-- The question is being answered. -/
def Asked (m : Memory) (aspect : Aspect) (key : aspect.Key) : Prop :=
  (key, .inProgress) ∈ aspect.shelf.entries m

/-- The question was answered so. -/
def Answered (m : Memory) (aspect : Aspect) (key : aspect.Key) (answer : aspect.Answer) : Prop :=
  (key, .done answer) ∈ aspect.shelf.entries m

/-- The answers of settled questions that are remembered are their answers. -/
def Right (c : Cluster) (m : Memory) : Prop :=
  ∀ aspect key answer, m.Answered aspect key answer → c.Settled (aspect.question key) →
    ((Asking.plain c).ask aspect key).Answers (.ok answer)

/-- No more questions are being answered than before. -/
def Within (m' m : Memory) : Prop := ∀ aspect key, m'.Asked aspect key → m.Asked aspect key

/-- The questions that are being answered are among these. -/
def Under (m : Memory) (B : Question → Prop) : Prop :=
  ∀ aspect key, m.Asked aspect key → B (aspect.question key)

theorem within_self (m : Memory) : m.Within m := fun _ _ h => h

theorem Within.trans (h : m''.Within m') (h' : m'.Within m) : m''.Within m :=
  fun aspect key hasked => h' aspect key (h aspect key hasked)

theorem Within.under {B : Question → Prop} (h : m'.Within m) (hm : m.Under B) : m'.Under B :=
  fun aspect key hasked => hm aspect key (h aspect key hasked)

theorem right_empty (c : Cluster) : ({} : Memory).Right c := by
  intro aspect key answer h
  cases aspect <;> cases h

theorem under_empty (B : Question → Prop) : ({} : Memory).Under B := by
  intro aspect key h
  cases aspect <;> cases h

end Memory

namespace Shelf

variable {aspect : Aspect} {key : aspect.Key} {entry : Entry aspect.Answer} {m : Memory}

theorem entries_note_of_ne {other : Aspect} (h : other ≠ aspect) :
    other.shelf.entries (aspect.shelf.note key entry m) = other.shelf.entries m :=
  Aspect.entries_store_of_ne h m _

theorem entries_forget_of_ne {other : Aspect} (h : other ≠ aspect) :
    other.shelf.entries (aspect.shelf.forget key m) = other.shelf.entries m :=
  Aspect.entries_store_of_ne h m _

theorem mem_note {e : aspect.Key × Entry aspect.Answer} :
    e ∈ aspect.shelf.entries (aspect.shelf.note key entry m) ↔
      e = (key, entry) ∨ e ∈ aspect.shelf.entries m ∧ ¬(e.1 == key) = true := by
  rw [note, Aspect.entries_store, Entries.mem_put]

theorem mem_forget {e : aspect.Key × Entry aspect.Answer} :
    e ∈ aspect.shelf.entries (aspect.shelf.forget key m) ↔
      e ∈ aspect.shelf.entries m ∧ ¬(e.1 == key) = true := by
  rw [forget, Aspect.entries_store, Entries.mem_erase]

/-! ### Beginning with a question and ending it -/

theorem right_begin {c : Cluster} (h : m.Right c) :
    (aspect.shelf.note key .inProgress m).Right c := by
  intro other key' answer hanswered hsettled
  by_cases heq : other = aspect
  · subst heq
    rcases mem_note.mp hanswered with hkey | ⟨hold, -⟩
    · cases hkey
    · exact h other key' answer hold hsettled
  · rw [Memory.Answered, entries_note_of_ne heq] at hanswered
    exact h other key' answer hanswered hsettled

theorem under_begin {B : Question → Prop} (h : m.Under B) :
    (aspect.shelf.note key .inProgress m).Under fun q => q = aspect.question key ∨ B q := by
  intro other key' hasked
  by_cases heq : other = aspect
  · subst heq
    rcases mem_note.mp hasked with hkey | ⟨hold, -⟩
    · cases hkey
      exact .inl rfl
    · exact .inr (h other key' hold)
  · rw [Memory.Asked, entries_note_of_ne heq] at hasked
    exact .inr (h other key' hasked)

theorem right_done {c : Cluster} {answer : aspect.Answer} (h : m.Right c)
    (hanswer : c.Settled (aspect.question key) →
      ((Asking.plain c).ask aspect key).Answers (.ok answer)) :
    (aspect.shelf.note key (.done answer) m).Right c := by
  intro other key' answer' hanswered hsettled
  by_cases heq : other = aspect
  · subst heq
    rcases mem_note.mp hanswered with hkey | ⟨hold, -⟩
    · cases hkey
      exact hanswer hsettled
    · exact h other key' answer' hold hsettled
  · rw [Memory.Answered, entries_note_of_ne heq] at hanswered
    exact h other key' answer' hanswered hsettled

theorem right_forget {c : Cluster} (h : m.Right c) : (aspect.shelf.forget key m).Right c := by
  intro other key' answer hanswered hsettled
  by_cases heq : other = aspect
  · subst heq
    exact h other key' answer (mem_forget.mp hanswered).1 hsettled
  · rw [Memory.Answered, entries_forget_of_ne heq] at hanswered
    exact h other key' answer hanswered hsettled

/-- Once the entry of a question is no longer in progress, no more are than before it was asked. -/
theorem within_ended {m' ended : Memory} (h : m'.Within (aspect.shelf.note key .inProgress m))
    (hown : ∀ key', ended.Asked aspect key' → m'.Asked aspect key' ∧ ¬(key' == key) = true)
    (hothers : ∀ other, other ≠ aspect → other.shelf.entries ended = other.shelf.entries m') :
    ended.Within m := by
  intro other key' hasked
  by_cases heq : other = aspect
  · subst heq
    obtain ⟨hasked, hne⟩ := hown key' hasked
    rcases mem_note.mp (h other key' hasked) with hkey | ⟨hold, -⟩
    · cases hkey
      exact absurd (other.key_beq_self _) hne
    · exact hold
  · rw [Memory.Asked, hothers other heq] at hasked
    have hnoted := h other key' hasked
    rwa [Memory.Asked, entries_note_of_ne heq] at hnoted

theorem within_done {m' : Memory} {answer : aspect.Answer}
    (h : m'.Within (aspect.shelf.note key .inProgress m)) :
    (aspect.shelf.note key (.done answer) m').Within m := by
  refine within_ended h (fun key' hasked => ?_) fun other hne => entries_note_of_ne hne
  rcases mem_note.mp hasked with hkey | hold
  · cases hkey
  · exact hold

theorem within_forget {m' : Memory} (h : m'.Within (aspect.shelf.note key .inProgress m)) :
    (aspect.shelf.forget key m').Within m :=
  within_ended h (fun _ hasked => mem_forget.mp hasked) fun _ hne => entries_forget_of_ne hne

end Shelf

/-! ## Queries with a memory and without -/

namespace Querying

variable {c : Cluster} {B B' : Question → Prop} {claim claim' short short' : Prop} {α β : Type}

/-- An outcome is another one, or the question was cut short. -/
def Meets (short : Prop) (r r' : Except QueryError α) : Prop :=
  r = r' ∨ short ∧ r = .error (.fault .unbounded)

/-- Where what is remembered is right and only these questions are being answered, the first query
has the outcome of the second if that is claimed, and leaves a memory that is right. -/
def Follows (c : Cluster) (B : Question → Prop) (claim short : Prop) (x y : Querying α) : Prop :=
  ∀ m : Memory, m.Right c → m.Under B →
    (claim → ∃ r, y.Answers r ∧ Meets short (x.run m).1 r) ∧
      (x.run m).2.Right c ∧ (x.run m).2.Within m

theorem Follows.mono {x y : Querying α} (h : Follows c B claim short x y)
    (hB : ∀ q, B' q → B q) (hclaim : claim' → claim) (hshort : claim' → short → short') :
    Follows c B' claim' short' x y := by
  intro m hright hunder
  obtain ⟨hanswer, hafter⟩ := h m hright fun aspect key hasked => hB _ (hunder aspect key hasked)
  refine ⟨fun hclaimed => ?_, hafter⟩
  obtain ⟨r, hr, hmeets⟩ := hanswer (hclaim hclaimed)
  exact ⟨r, hr, hmeets.imp_right fun h => ⟨hshort hclaimed h.1, h.2⟩⟩

theorem Follows.congr_right {x y y' : Querying α} (h : Follows c B claim short x y)
    (hy : claim → y = y') : Follows c B claim short x y' := by
  intro m hright hunder
  obtain ⟨hanswer, hafter⟩ := h m hright hunder
  exact ⟨fun hclaimed => hy hclaimed ▸ hanswer hclaimed, hafter⟩

theorem follows_of_constant {x : Querying α} {r : Except QueryError α} (h : x.Answers r) :
    Follows c B claim short x x := by
  intro m hright _
  rw [h m]
  exact ⟨fun _ => ⟨r, h, .inl rfl⟩, hright, m.within_self⟩

theorem Follows.bind {x y : Querying α} {f g : α → Querying β} (hx : Follows c B claim short x y)
    (hf : ∀ a, Follows c B claim short (f a) (g a)) :
    Follows c B claim short (x >>= f) (y >>= g) := by
  intro m hright hunder
  have hfirst := hx m hright hunder
  rw [run_bind]
  generalize x.run m = outcome at *
  obtain ⟨r, m'⟩ := outcome
  obtain ⟨hanswer, hright', hwithin⟩ := hfirst
  have hthen := fun a => hf a m' hright' (hwithin.under hunder)
  cases r with
  | ok a =>
    obtain ⟨hanswer', hright'', hwithin'⟩ := hthen a
    refine ⟨fun hclaimed => ?_, hright'', hwithin'.trans hwithin⟩
    obtain ⟨r, hr, heq | ⟨-, heq⟩⟩ := hanswer hclaimed
    · subst heq
      obtain ⟨r', hr', hmeets⟩ := hanswer' hclaimed
      exact ⟨r', hr.bind_ok hr', hmeets⟩
    · cases heq
  | error e =>
    refine ⟨fun hclaimed => ?_, hright', hwithin⟩
    obtain ⟨r, hr, heq | ⟨hshort, heq⟩⟩ := hanswer hclaimed
    · subst heq
      exact ⟨.error e, hr.bind_error g, .inl rfl⟩
    · cases heq
      cases r with
      | ok b =>
        obtain ⟨r', hr', -⟩ := (hthen b).1 hclaimed
        exact ⟨r', hr.bind_ok hr', .inr ⟨hshort, rfl⟩⟩
      | error e' => exact ⟨.error e', hr.bind_error g, .inr ⟨hshort, rfl⟩⟩

theorem Follows.skipCyclic {x y : Querying α} (h : Follows c B claim short x y) :
    Follows c B claim short (Querying.skipCyclic x) (Querying.skipCyclic y) := by
  intro m hright hunder
  obtain ⟨hanswer, hafter⟩ := h m hright hunder
  rw [run_skipCyclic]
  refine ⟨fun hclaimed => ?_, hafter⟩
  obtain ⟨r, hr, hmeets⟩ := hanswer hclaimed
  refine ⟨skipped r, fun m' => by rw [run_skipCyclic, hr m'], ?_⟩
  rcases hmeets with heq | ⟨hshort, heq⟩
  · exact .inl (congrArg skipped heq)
  · exact .inr ⟨hshort, congrArg skipped heq⟩

theorem congruence_follows : Congruence (fun x y => Follows c B claim short x y) where
  pure a := follows_of_constant (answers_pure a)
  fault _ := follows_of_constant (answers_throw _)
  bind := Follows.bind
  skipCyclic := Follows.skipCyclic

end Querying

namespace Asking

open Querying

variable {c : Cluster}

/-- Equal questions have the same answer. -/
theorem plain_ask_eq {aspect : Aspect} {key key' : aspect.Key} (h : (key == key') = true) :
    (plain c).ask aspect key = (plain c).ask aspect key' :=
  (plain_constant.ask h trivial).1

/-- Answering a question from memory, or else by a computation that follows its answer, follows its
answer. -/
theorem follows_memoize {aspect : Aspect} {key : aspect.Key} {short : Prop}
    {x : Querying aspect.Answer}
    (hx : Follows c (fun q => q = aspect.question key ∨ TransGen c.Needs q (aspect.question key))
      (c.Settled (aspect.question key)) short x ((plain c).ask aspect key)) :
    Follows c (fun q => TransGen c.Needs q (aspect.question key))
      (c.Settled (aspect.question key)) short
      (aspect.shelf.memoize key (aspect.node key) aspect.topic x)
      ((plain c).ask aspect key) := by
  intro m hright hunder
  have hcomputed := hx (aspect.shelf.note key .inProgress m) (Shelf.right_begin hright)
    (Shelf.under_begin hunder)
  unfold Shelf.memoize
  rw [ExceptT.run_mk]
  rcases hremembered : aspect.shelf.remembered? key m with _ | ⟨_ | answer⟩
  · dsimp only
    generalize x.run (aspect.shelf.note key .inProgress m) = outcome at *
    obtain ⟨r, m'⟩ := outcome
    obtain ⟨hanswer, hright', hwithin⟩ := hcomputed
    cases r with
    | ok answer =>
      refine ⟨hanswer, Shelf.right_done hright' fun hsettled => ?_, Shelf.within_done hwithin⟩
      obtain ⟨r, hr, heq | ⟨-, heq⟩⟩ := hanswer hsettled
      · subst heq
        exact hr
      · cases heq
    | error e => exact ⟨hanswer, Shelf.right_forget hright', Shelf.within_forget hwithin⟩
  · obtain ⟨key', hmem, heq⟩ := Entries.mem_of_lookup hremembered
    refine ⟨fun hsettled => ?_, hright, m.within_self⟩
    have hloop := hunder aspect key' hmem
    rw [← Aspect.question_of_beq heq] at hloop
    exact absurd hloop hsettled.not_needs_self
  · obtain ⟨key', hmem, heq⟩ := Entries.mem_of_lookup hremembered
    refine ⟨fun hsettled => ⟨.ok answer, ?_, .inl rfl⟩, hright, m.within_self⟩
    rw [plain_ask_eq heq]
    exact hright aspect key' answer hmem (Aspect.question_of_beq heq ▸ hsettled)

/-- What follows the answers of the questions that a question needs, follows them while that question
is being answered. -/
theorem follows_ahead {depth : Nat} {q : Question} {aspect : Aspect} {key : aspect.Key}
    {x y : Querying aspect.Answer}
    (h : Follows c (fun q => TransGen c.Needs q (aspect.question key))
      (c.Settled (aspect.question key)) (depth ≤ c.rank (aspect.question key)) x y)
    (hneed : c.Needs q (aspect.question key)) :
    Follows c (fun q' => q' = q ∨ TransGen c.Needs q' q) (c.Settled q) (depth + 1 ≤ c.rank q) x y := by
  refine h.mono ?_ (fun hsettled => hsettled.of_needs hneed) fun hsettled hshort => ?_
  · rintro q' (rfl | hq')
    · exact .single hneed
    · exact hq'.tail hneed
  · have hrank := hsettled.rank_lt hneed
    omega

/-- With a memory, a question that has enough questions left inside it has its answer. -/
theorem within_follows (depth : Nat) (aspect : Aspect) (key : aspect.Key) :
    Follows c (fun q => TransGen c.Needs q (aspect.question key))
      (c.Settled (aspect.question key)) (depth ≤ c.rank (aspect.question key))
      ((within c depth).ask aspect key) ((plain c).ask aspect key) := by
  induction depth generalizing aspect key with
  | zero =>
    intro m hright _
    obtain ⟨-, r, hr, -⟩ := (plain_constant (c := c)).ask (aspect.key_beq_self key) trivial
    cases aspect <;>
      exact ⟨fun _ => ⟨r, hr, .inr ⟨Nat.zero_le _, rfl⟩⟩, hright, m.within_self⟩
  | succ depth ih =>
    have hnext : Related (fun x y => Follows c
        (fun q => q = aspect.question key ∨ TransGen c.Needs q (aspect.question key))
        (c.Settled (aspect.question key)) (depth + 1 ≤ c.rank (aspect.question key)) x y)
        (c.Needs (aspect.question key)) (within c depth) (plain c) :=
      { rowCount := fun j hj => follows_ahead (ih .rowCount j) hj
        collations := fun j hj => follows_ahead (ih .collations j) hj
        distinct := fun j columns p p' hj hp => by
          rw [← (plain_constant.distinct j columns p p' trivial hp).1]
          exact follows_ahead (ih .distinct ⟨j, columns, p⟩) hj }
    have hdirect := (related_directly congruence_follows hnext).ask (aspect.key_beq_self key) rfl
    rw [within, through_ask]
    refine follows_memoize (hdirect.congr_right fun hsettled => ?_)
    exact ((plain_eq hsettled).ask (aspect.key_beq_self key) rfl).symm

/-- With a memory, settled questions have their answers. -/
theorem of_follows (aspect : Aspect) (key : aspect.Key) :
    Follows c (fun q => TransGen c.Needs q (aspect.question key))
      (c.Settled (aspect.question key)) False
      ((of c).ask aspect key) ((plain c).ask aspect key) :=
  (within_follows (64 * (c.size + 1)) aspect key).mono (fun _ h => h) (fun h => h)
    fun _ hshort => absurd (c.rank_lt_bound (aspect.question key)) (Nat.not_lt.mpr hshort)

/-! ## Sequences of questions -/

/-- The memory that questions leave, asked one after the other. -/
def memoryAfter (way : Asking) (asked : List ((aspect : Aspect) × aspect.Key)) : Memory :=
  asked.foldl (fun m call => ((way.ask call.1 call.2).run m).2) {}

/-- After any questions, what is remembered is right and no question is being answered. -/
theorem right_memoryAfter (c : Cluster) (asked : List ((aspect : Aspect) × aspect.Key)) :
    ((of c).memoryAfter asked).Right c ∧ ((of c).memoryAfter asked).Under fun _ => False := by
  suffices h : ∀ m : Memory, m.Right c → (m.Under fun _ => False) →
      (asked.foldl (fun m call => (((of c).ask call.1 call.2).run m).2) m).Right c ∧
        (asked.foldl (fun m call => (((of c).ask call.1 call.2).run m).2) m).Under fun _ => False from
    h {} (Memory.right_empty c) (Memory.under_empty _)
  induction asked with
  | nil => exact fun m hright hunder => ⟨hright, hunder⟩
  | cons call asked ih =>
    intro m hright hunder
    obtain ⟨-, hright', hwithin⟩ := of_follows call.1 call.2 m hright
      fun aspect key hasked => (hunder aspect key hasked).elim
    exact ih _ hright' (hwithin.under hunder)

/-- Whatever was asked before, a settled question has the answer that it has without a memory. -/
theorem ask_after (c : Cluster) (asked : List ((aspect : Aspect) × aspect.Key)) (aspect : Aspect)
    (key : aspect.Key) (h : c.Settled (aspect.question key)) :
    ((plain c).ask aspect key).Answers
      (((of c).ask aspect key).run ((of c).memoryAfter asked)).1 := by
  obtain ⟨hright, hunder⟩ := right_memoryAfter c asked
  obtain ⟨hanswer, -⟩ := of_follows aspect key _ hright
    fun aspect key hasked => (hunder aspect key hasked).elim
  obtain ⟨r, hr, heq | ⟨hfalse, -⟩⟩ := hanswer h
  · exact heq ▸ hr
  · exact hfalse.elim

/-- Pairs of numbers. -/
def orderedPairs : Table :=
  { name := ["T"], rowType := ⟨[⟨"a", .bigint, true⟩, ⟨"b", .bigint, true⟩]⟩,
    source := some (.ok [[.integer 1, .integer 2], [.integer 2, .integer 1]]) }

/-- Two subsets, each with the pairs in one order and with a filter over the other subset as members,
and a filter over the pairs in the first order. -/
def twoOrders : Planning NodeId := do
  let scan ← Cluster.createDefault (.scan .none orderedPairs) []
  let first ← Cluster.createSubset orderedPairs.rowType default
  let second ← Cluster.createSubset orderedPairs.rowType default
  let byFirst ← Cluster.createDefault (.sort .none (.ofKeys [0]) 0 none) [scan]
  let bySecond ← Cluster.createDefault (.sort .none (.ofKeys [1]) 0 none) [scan]
  let fromSecond ← Cluster.createDefault (.filter .none (.bool true)) [second]
  let fromFirst ← Cluster.createDefault (.filter .none (.bool true)) [first]
  Cluster.addMember first fromSecond
  Cluster.addMember first byFirst
  Cluster.addMember second fromFirst
  Cluster.addMember second bySecond
  Cluster.createDefault (.filter .none (.bool true)) [byFirst]

def orderSession : Cluster := (twoOrders.run.run (Cluster.start ⟨[orderedPairs]⟩ default default)).2

end Asking

end QueryPlan
