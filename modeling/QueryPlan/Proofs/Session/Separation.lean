import QueryPlan.Proofs.Operator.Readability
import QueryPlan.Proofs.Session.Digest
/-!
# What a digest tells apart

A digest names the kind of a node, then its traits, and its inputs within parentheses. Each part can be read
back: kinds and conventions have no point in them, a collation and a distribution end where their brackets
close, and no part before the inputs has a parenthesis. So nodes of one digest have the same kind, traits and
inputs, whatever their operators say besides, and a copy of a node for other traits or inputs has another
digest than the node.
-/
namespace QueryPlan

theorem Convention.point_not_mem_text (v : Convention) : '.' ∉ v.text.toList := by cases v <;> decide

theorem Convention.text_inj {v w : Convention} (h : v.text = w.text) : v = w := by
  cases v <;> cases w <;> first | rfl | exact absurd h (by decide)

/-- Traits are told by their text. -/
theorem Traits.text_inj {t u : Traits} (h : t.text = u.text) : t = u := by
  have htext := congrArg String.toList h
  simp only [Traits.text, String.toList_append, List.append_assoc] at htext
  obtain ⟨hconvention, hrest⟩ := Text.eq_of_append_cons (Convention.point_not_mem_text _)
    (Convention.point_not_mem_text _) htext
  obtain ⟨hcollation, hrest⟩ := Collation.readAlike t.collation u.collation ['.']
    (Text.follows_cons _ List.mem_cons_self) (Text.follows_cons _ List.mem_cons_self) hrest
  have hend : t.distribution.text.toList ++ [] = u.distribution.text.toList ++ [] := by simpa using hrest
  obtain ⟨hdistribution, -⟩ := Distribution.readAlike t.distribution u.distribution []
    (Text.follows_nil _) (Text.follows_nil _) hend
  cases t
  cases u
  cases Convention.text_inj (String.toList_inj.mp hconvention)
  cases hcollation
  cases hdistribution
  rfl

namespace Cluster

variable {c c' : Cluster} {i j id id' : NodeId} {traits : Traits} {inputs : List NodeId}

theorem traits_of_digest_eq (h : c.digest i = c.digest j) : c.traits i = c.traits j := by
  have htext := congrArg String.toList h
  simp only [digest_eq, kind_eq_of_digest_eq h, String.toList_append, List.append_assoc,
    List.append_cancel_left_eq] at htext
  obtain ⟨htraits, -⟩ := Text.eq_of_append_cons (Traits.paren_not_mem_text (c.traits i))
    (Traits.paren_not_mem_text (c.traits j)) htext
  exact Traits.text_inj (String.toList_inj.mp htraits)

theorem inputs_of_digest_eq (hi : i < c.size) (hj : j < c.size) (h : c.digest i = c.digest j) :
    c.inputs i = c.inputs j := by
  cases hsub : (c.operator i).isSubset with
  | false => exact (inputs_and_attributes_eq hi hj hsub h).1
  | true =>
    have hsub' := (Operator.isSubset_congr (kind_eq_of_digest_eq h)).symm.trans hsub
    rw [inputs_eq_nil_of_isSubset hsub, inputs_eq_nil_of_isSubset hsub']

/-- A copy is the node itself if nothing changes, and else a node of another digest. -/
theorem digest_of_runs_copy (hid : id < c.size) (h : (copy id traits inputs).Runs c id' c') :
    (id' = id ↔ traits = c.traits id ∧ inputs = c.inputs id) ∧
      (c'.digest id' = c'.digest id ↔ id' = id) := by
  rcases runs_copy h with ⟨htraits, hinputs, rfl, rfl⟩ | ⟨-, hchanged, hnew⟩
  · exact ⟨⟨fun _ => ⟨htraits.symm, hinputs.symm⟩, fun _ => rfl⟩, ⟨fun _ => rfl, fun _ => rfl⟩⟩
  · have hne : id' ≠ id := by
      rw [hnew.id_eq]
      exact Nat.ne_of_gt hid
    refine ⟨⟨fun heq => absurd heq hne, fun heq => absurd ⟨heq.1.symm, heq.2.symm⟩ hchanged⟩,
      ⟨fun heq => absurd ?_ hchanged, fun heq => absurd heq hne⟩⟩
    -- of one digest the two would have the same traits and inputs
    have htraits := traits_of_digest_eq heq
    have hinputs := inputs_of_digest_eq hnew.lt_size (hnew.grows.lt_size hid) heq
    rw [hnew.traits_eq, hnew.grows.traits_eq hid] at htraits
    rw [hnew.inputs_eq, hnew.grows.inputs_eq hid] at hinputs
    exact ⟨htraits.symm, hinputs.symm⟩

/-- Nodes of one digest have the same kind, traits and inputs. So a copy has the digest of the node that it
is made of only if it is that node, and it is just if it is asked for with the traits and the inputs that the
node has. -/
theorem digest_separates (c : Cluster) :
    (∀ i < c.size, ∀ j < c.size, c.digest i = c.digest j →
      c.kind i = c.kind j ∧ c.traits i = c.traits j ∧ c.inputs i = c.inputs j) ∧
    ∀ id < c.size, ∀ traits inputs id' c', (copy id traits inputs).Runs c id' c' →
      (id' = id ↔ traits = c.traits id ∧ inputs = c.inputs id) ∧
        (c'.digest id' = c'.digest id ↔ id' = id) :=
  ⟨fun _ hi _ hj h =>
      ⟨kind_eq_of_digest_eq h, traits_of_digest_eq h, inputs_of_digest_eq hi hj h⟩,
    fun _ hid _ _ _ _ h => digest_of_runs_copy hid h⟩

/-- The same readings twice, and a filter over the first of them. -/
def readingPlans : Planning NodeId := do
  let readings := Operator.values .none ⟨[⟨"reading", .bigint, false⟩]⟩ [[.integer 2], [.integer 1]]
  let first ← createDefault readings []
  let _ ← createDefault readings []
  createDefault (.filter .none (.bool true)) [first]

def readingSession : Cluster := readingPlans.leaves (start default default default)

/-- The readings have one digest, and copies of the filter for readings in descending order and over the
other readings have others than the filter. -/
theorem digest_separates_readings :
    readingSession.digest 0 = readingSession.digest 1 ∧
    readingSession.traits 0 = readingSession.traits 1 ∧
    ∀ p ∈ [((⟨.none, ⟨[.directed 0 .descending]⟩, .any⟩ : Traits), [0]),
        (readingSession.traits 2, [1])],
      ∃ c', (copy 2 p.1 p.2).Runs readingSession 3 c' ∧ c'.digest 3 ≠ c'.digest 2 := by
  have hdigest : readingSession.digest 0 = readingSession.digest 1 := by decide +kernel
  have hsize : 2 < readingSession.size := by decide +kernel
  obtain ⟨htwins, hcopies⟩ := digest_separates readingSession
  refine ⟨hdigest, (htwins 0 (by decide +kernel) 1 (by decide +kernel) hdigest).2.1, fun p hp => ?_⟩
  have hruns : ∀ p ∈ [((⟨.none, ⟨[.directed 0 .descending]⟩, .any⟩ : Traits), [0]),
      (readingSession.traits 2, [1])],
      ((copy 2 p.1 p.2).run.run readingSession).1.toOption = some 3 := by decide +kernel
  have hrun := Planning.runs_of_toOption (hruns p hp)
  exact ⟨_, hrun, fun h => absurd ((hcopies 2 hsize _ _ _ _ hrun).2.mp h) (by decide)⟩

end Cluster

end QueryPlan
