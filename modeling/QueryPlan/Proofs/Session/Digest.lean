import QueryPlan.Proofs.Operator.Kind
import QueryPlan.Proofs.Session.Extension
import QueryPlan.Proofs.Text
/-!
# What a digest says about the inputs

Two nodes with one operator and equal digests have the same inputs. The inputs are written first,
each as its kind and its number, and separated by commas, which neither kinds nor numbers contain;
what follows is written from the operator and is the same for both.
-/
namespace QueryPlan

/-! ## Traits are written without parentheses -/

theorem FieldCollation.paren_not_mem_text (fc : FieldCollation) : '(' ∉ fc.text.toList := by
  have hfield := Text.not_mem_toString_nat (x := '(') (by decide) fc.field
  have hdirection : '(' ∉ fc.direction.text.toList := by cases fc.direction <;> decide
  have hnulls : '(' ∉ fc.nulls.text.toList := by cases fc.nulls <;> decide
  have hdirected : '(' ∉ (toString fc.field ++ " " ++ fc.direction.text).toList := by
    rw [String.toList_append, String.toList_append, List.mem_append, List.mem_append, not_or, not_or]
    exact ⟨⟨hfield, by decide⟩, hdirection⟩
  unfold FieldCollation.text
  split
  · exact hfield
  · dsimp only
    split
    · exact hdirected
    · rw [String.toList_append, String.toList_append, List.mem_append, List.mem_append, not_or,
        not_or]
      exact ⟨⟨hdirected, by decide⟩, hnulls⟩

theorem Collation.paren_not_mem_text (c : Collation) : '(' ∉ c.text.toList := by
  have : '(' ∉ (", ".intercalate (c.fields.map FieldCollation.text)).toList := by
    apply Text.not_mem_intercalate (by decide)
    intro s hs
    obtain ⟨fc, -, rfl⟩ := List.mem_map.mp hs
    exact fc.paren_not_mem_text
  rw [Collation.text, String.toList_append, String.toList_append, List.mem_append, List.mem_append,
    not_or, not_or]
  exact ⟨⟨by decide, this⟩, by decide⟩

theorem Distribution.paren_not_mem_text (d : Distribution) : '(' ∉ d.text.toList := by
  cases d with
  | hash keys =>
    have : '(' ∉ (", ".intercalate (keys.map toString)).toList := by
      apply Text.not_mem_intercalate (by decide)
      intro s hs
      obtain ⟨k, -, rfl⟩ := List.mem_map.mp hs
      exact Text.not_mem_toString_nat (by decide) k
    rw [Distribution.text, String.toList_append, String.toList_append, List.mem_append,
      List.mem_append, not_or, not_or]
    exact ⟨⟨by decide, this⟩, by decide⟩
  | _ => decide

theorem Traits.paren_not_mem_text (t : Traits) : '(' ∉ t.text.toList := by
  have hconvention : '(' ∉ t.convention.text.toList := by cases t.convention <;> decide
  simp only [Traits.text, String.toList_append, List.mem_append, not_or]
  exact ⟨⟨⟨⟨hconvention, by decide⟩, t.collation.paren_not_mem_text⟩, by decide⟩,
    t.distribution.paren_not_mem_text⟩

namespace Cluster

variable {c : Cluster} {i j : NodeId}

/-! ## Inputs as attributes -/

/-- Names under which so many inputs of an operator are written. -/
def inputNames (operator : Operator) (count : Nat) : List String :=
  if count = 1 then ["input"]
  else if operator.inputCount? = some 2 ∧ count = 2 then ["left", "right"]
  else (List.range count).map fun i => "input#" ++ toString i

theorem length_inputNames (operator : Operator) (count : Nat) :
    (inputNames operator count).length = count := by
  unfold inputNames
  split
  · simp [*]
  · split
    · simp [*]
    · simp

theorem comma_not_mem_inputNames {operator : Operator} {count : Nat} :
    ∀ name ∈ inputNames operator count, ',' ∉ name.toList := by
  intro name h
  unfold inputNames at h
  split at h
  · simp only [List.mem_singleton] at h
    subst h
    decide
  · split at h
    · simp only [List.mem_cons, List.not_mem_nil, or_false] at h
      rcases h with rfl | rfl <;> decide
    · simp only [List.mem_map] at h
      obtain ⟨k, -, rfl⟩ := h
      rw [String.toList_append, List.mem_append, not_or]
      exact ⟨by decide, Text.not_mem_toString_nat (by decide) k⟩

theorem inputAttributes_eq_zipWith (c : Cluster) (operator : Operator) (inputs : List NodeId) :
    c.inputAttributes operator inputs =
      (inputNames operator inputs.length).zipWith (fun name j => (name, c.inputText j)) inputs := by
  have general : inputs.zipIdx.map (fun (x : NodeId × Nat) =>
        ("input#" ++ toString x.2, c.inputText x.1)) =
      ((List.range inputs.length).map fun i => "input#" ++ toString i).zipWith
        (fun name j => (name, c.inputText j)) inputs := by
    apply List.ext_getElem
    · simp
    · intro k h h'
      simp
  unfold inputAttributes
  split
  · rfl
  · next hne =>
    have hlen : inputs.length ≠ 1 := by
      intro h
      obtain ⟨x, rfl⟩ := List.length_eq_one_iff.mp h
      exact hne x rfl
    split
    · next h => simp [inputNames, h]
    · next h =>
      rw [general, inputNames, if_neg hlen, if_neg]
      rintro ⟨hop, htwo⟩
      obtain ⟨x, y, rfl⟩ := List.length_eq_two.mp htwo
      exact h x y hop rfl

/-- How one input is written. -/
def inputChars (c : Cluster) (name : String) (j : NodeId) : List Char :=
  name.toList ++ '=' :: ((c.kind j).text.toList ++ '#' :: (toString j).toList)

theorem comma_not_mem_inputChars {name : String} (h : ',' ∉ name.toList) :
    ',' ∉ c.inputChars name j := by
  simp only [inputChars, List.mem_append, List.mem_cons, not_or]
  exact ⟨h, by decide, Kind.comma_not_mem_text _, by decide, Text.not_mem_toString_nat (by decide) j⟩

theorem inputChars_inj {name : String} (h : c.inputChars name i = c.inputChars name j) : i = j := by
  simp only [inputChars, List.append_cancel_left_eq, List.cons.injEq, true_and] at h
  obtain ⟨-, hdigits⟩ :=
    Text.eq_of_append_cons (Kind.hash_not_mem_text _) (Kind.hash_not_mem_text _) h
  exact Text.toString_nat_inj hdigits

/-- The written inputs of a node. -/
def inputTexts (c : Cluster) (operator : Operator) (inputs : List NodeId) : List (List Char) :=
  (inputNames operator inputs.length).zipWith c.inputChars inputs

theorem length_inputTexts (operator : Operator) (inputs : List NodeId) :
    (c.inputTexts operator inputs).length = inputs.length := by
  simp [inputTexts, length_inputNames]

theorem comma_not_mem_inputTexts {operator : Operator} {inputs : List NodeId} :
    ∀ s ∈ c.inputTexts operator inputs, ',' ∉ s := by
  intro s hs
  obtain ⟨k, hk, rfl⟩ := List.getElem_of_mem hs
  simp only [inputTexts, List.getElem_zipWith]
  exact comma_not_mem_inputChars (comma_not_mem_inputNames _ (List.getElem_mem _))

theorem inputTexts_inj {operator : Operator} {inputs inputs' : List NodeId}
    (h : c.inputTexts operator inputs = c.inputTexts operator inputs') : inputs = inputs' := by
  have hlen : inputs.length = inputs'.length := by
    rw [← length_inputTexts (c := c) operator inputs, h, length_inputTexts]
  apply List.ext_getElem hlen
  intro k hk hk'
  have hget := congrArg (·[k]?) h
  simp only [inputTexts] at hget
  rw [List.getElem?_eq_getElem (by simp [length_inputNames, hk]),
    List.getElem?_eq_getElem (by simp [length_inputNames, hk'])] at hget
  simp only [List.getElem_zipWith, hlen, Option.some.injEq] at hget
  exact inputChars_inj hget

/-! ## Digests -/

/-- Every operator writes an attribute, but for a subset. -/
theorem attributes_ne_nil {o : Operator} (h : o.isSubset = false) : o.attributes ≠ [] := by
  cases o <;> simp_all [Operator.attributes, Operator.isSubset]

theorem render_append (a b : Attributes) (ha : a ≠ []) (hb : b ≠ []) :
    (a ++ b : Attributes).render = a.render ++ ", " ++ b.render := by
  unfold Attributes.render
  rw [List.map_append]
  exact String.intercalate_append_of_ne_nil (by simpa using ha) (by simpa using hb)

theorem toList_render_inputAttributes (operator : Operator) (inputs : List NodeId) :
    (c.inputAttributes operator inputs).render.toList =
      [',', ' '].intercalate (c.inputTexts operator inputs) := by
  rw [Attributes.render, String.toList_intercalate, inputAttributes_eq_zipWith, inputTexts,
    List.map_map, List.map_zipWith]
  congr 2
  funext name j
  simp [inputChars, inputText]

theorem digest_eq (c : Cluster) (id : NodeId) :
    c.digest id = (c.kind id).text ++ "." ++ (c.traits id).text ++ "(" ++
      (c.inputAttributes (c.operator id) (c.inputs id) ++
        (if (c.operator id).isSubset then [("id", toString id)]
          else (c.operator id).attributes) : Attributes).render ++ ")" := rfl

/-- What stands between the parentheses of a digest. -/
def body (c : Cluster) (id : NodeId) : Attributes :=
  c.inputAttributes (c.operator id) (c.inputs id) ++
    (if (c.operator id).isSubset then [("id", toString id)] else (c.operator id).attributes)

theorem render_body_eq_of_digest_eq (hkind : c.kind i = c.kind j) (h : c.digest i = c.digest j) :
    (c.body i).render = (c.body j).render := by
  have h' := congrArg String.toList h
  simp only [digest_eq, hkind, String.toList_append, List.append_assoc,
    List.append_cancel_left_eq] at h'
  obtain ⟨-, hbody⟩ := Text.eq_of_append_cons (Traits.paren_not_mem_text (c.traits i))
    (Traits.paren_not_mem_text (c.traits j)) h'
  exact String.toList_inj.mp (List.append_cancel_right hbody)

theorem kind_eq_of_operator_eq (h : c.operator j = c.operator i) : c.kind i = c.kind j :=
  congrArg Operator.kind h.symm

/-- Subsets have digests of their own. -/
theorem eq_of_digest_eq_of_isSubset (hi : (c.operator i).isSubset = true)
    (hin : c.inputs i = []) (hop : c.operator j = c.operator i) (hin' : c.inputs j = [])
    (h : c.digest i = c.digest j) : i = j := by
  have hbody := render_body_eq_of_digest_eq (kind_eq_of_operator_eq hop) h
  have key : ∀ k : NodeId, (c.operator k).isSubset = true → c.inputs k = [] →
      (c.body k).render.toList = 'i' :: 'd' :: '=' :: (toString k).toList := by
    intro k hk hk'
    simp [body, hk, hk', Attributes.render, inputAttributes_eq_zipWith]
  rw [← String.toList_inj, key i hi hin, key j (hop ▸ hi) hin'] at hbody
  exact Text.toString_nat_inj (by simpa using hbody)

/-! ## Nodes of one digest -/

theorem kind_eq_of_digest_eq (h : c.digest i = c.digest j) : c.kind i = c.kind j := by
  have htext := congrArg String.toList h
  simp only [digest_eq, String.toList_append, List.append_assoc] at htext
  exact Kind.text_inj (String.toList_inj.mp (Text.eq_of_append_cons (Kind.point_not_mem_text _)
    (Kind.point_not_mem_text _) htext).1)

theorem inputTexts_congr {o o' : Operator} (h : o.inputCount? = o'.inputCount?) (inputs : List NodeId) :
    c.inputTexts o inputs = c.inputTexts o' inputs := by
  rw [inputTexts, inputTexts, inputNames, inputNames, h]

theorem inputTexts_ne_nil {operator : Operator} {inputs : List NodeId} (h : inputs ≠ []) :
    c.inputTexts operator inputs ≠ [] := by
  intro hnil
  apply h
  rw [← List.length_eq_zero_iff, ← length_inputTexts (c := c) operator inputs, hnil, List.length_nil]

/-- Without inputs there are only the attributes of the operator. -/
theorem render_body_of_nil (hsub : (c.operator i).isSubset = false) (hin : c.inputs i = []) :
    (c.body i).render = (c.operator i).attributes.render := by
  rw [body, hin, hsub, inputAttributes_eq_zipWith, List.zipWith_nil_right, List.nil_append]
  rfl

/-- The attributes of the operator come after the inputs. -/
theorem toList_render_body (hsub : (c.operator i).isSubset = false) (hin : c.inputs i ≠ []) :
    (c.body i).render.toList = [',', ' '].intercalate (c.inputTexts (c.operator i) (c.inputs i)) ++
      ',' :: ' ' :: (c.operator i).attributes.render.toList := by
  have hne : c.inputAttributes (c.operator i) (c.inputs i) ≠ [] := by
    intro hnil
    apply hin
    have hlength := congrArg List.length hnil
    rw [inputAttributes_eq_zipWith] at hlength
    simpa [length_inputNames] using hlength
  rw [body, hsub, if_neg Bool.false_ne_true, render_append _ _ hne (attributes_ne_nil hsub),
    String.toList_append, String.toList_append, toList_render_inputAttributes, List.append_assoc]
  rfl

/-- Operators with any number of inputs write no comma. -/
theorem comma_not_mem_render {o : Operator} (h : o.inputCount? = none) :
    ',' ∉ o.attributes.render.toList := by
  cases o with
  | union c all | intersect all | minus all =>
    change ',' ∉ (Attributes.render [("all", if all then "true" else "false")]).toList
    cases all <;> decide
  | _ => cases h

/-- Nodes of one digest have the same inputs, and their attributes are written alike. -/
theorem inputs_and_attributes_eq (hi : i < c.size) (hj : j < c.size)
    (hsub : (c.operator i).isSubset = false) (h : c.digest i = c.digest j) :
    c.inputs i = c.inputs j ∧
      (c.operator i).attributes.render = (c.operator j).attributes.render := by
  have hkind : (c.operator i).kind = (c.operator j).kind := kind_eq_of_digest_eq h
  have hcount := Operator.inputCount?_congr hkind
  have hsub' := (Operator.isSubset_congr hkind).symm.trans hsub
  have hbody := render_body_eq_of_digest_eq hkind h
  have htakes := takes_inputs hi
  have htakes' := takes_inputs hj
  -- once the texts of the inputs are the same, so are the inputs
  have finish : c.inputTexts (c.operator i) (c.inputs i) = c.inputTexts (c.operator j) (c.inputs j) →
      c.inputs i = c.inputs j := by
    intro htexts
    rw [inputTexts_congr hcount] at htexts
    exact inputTexts_inj htexts
  unfold Operator.takes at htakes htakes'
  rw [← hcount] at htakes'
  cases hn : (c.operator i).inputCount? with
  | none =>
    simp only [hn, decide_eq_true_eq, List.length_pos_iff] at htakes htakes'
    rw [← String.toList_inj, toList_render_body hsub htakes, toList_render_body hsub' htakes',
      ← Text.intercalate_concat (inputTexts_ne_nil htakes),
      ← Text.intercalate_concat (inputTexts_ne_nil htakes')] at hbody
    have commas : ∀ {k : NodeId}, (c.operator k).inputCount? = none →
        ∀ s ∈ c.inputTexts (c.operator k) (c.inputs k) ++ [(c.operator k).attributes.render.toList],
          ',' ∉ s := by
      intro k hk s hs
      rcases List.mem_append.mp hs with hs | hs
      · exact comma_not_mem_inputTexts s hs
      · rw [List.mem_singleton.mp hs]
        exact comma_not_mem_render hk
    have htexts := Text.intercalate_inj (commas hn) (commas (hcount ▸ hn)) (by simp) (by simp) hbody
    obtain ⟨htexts, hown⟩ := List.append_inj' htexts rfl
    exact ⟨finish htexts, String.toList_inj.mp (List.cons.inj hown).1⟩
  | some n =>
    simp only [hn, decide_eq_true_eq] at htakes htakes'
    by_cases hin : c.inputs i = []
    · have hin' : c.inputs j = [] := by
        rw [← List.length_eq_zero_iff, htakes', ← htakes, hin, List.length_nil]
      rw [render_body_of_nil hsub hin, render_body_of_nil hsub' hin'] at hbody
      exact ⟨hin.trans hin'.symm, hbody⟩
    · have hin' : c.inputs j ≠ [] := by
        rw [← List.length_pos_iff, htakes', ← htakes, List.length_pos_iff]
        exact hin
      rw [← String.toList_inj, toList_render_body hsub hin, toList_render_body hsub' hin'] at hbody
      obtain ⟨htexts, hrest⟩ := Text.intercalate_append_inj
        (by rw [length_inputTexts, length_inputTexts, htakes, htakes']) (inputTexts_ne_nil hin)
        comma_not_mem_inputTexts comma_not_mem_inputTexts hbody
      exact ⟨finish htexts, String.toList_inj.mp (List.cons.inj hrest).2⟩

/-- Nodes of one operator and equal digests have the same inputs, and are one node if they are
subsets. -/
theorem inputs_eq_of_digest_eq (hi : i < c.size) (hj : j < c.size)
    (hop : c.operator j = c.operator i) (h : c.digest i = c.digest j) :
    c.inputs i = c.inputs j ∧ ((c.operator i).isSubset = true → i = j) := by
  cases hsub : (c.operator i).isSubset with
  | true =>
    have hij := eq_of_digest_eq_of_isSubset hsub (inputs_eq_nil_of_isSubset hsub) hop
      (inputs_eq_nil_of_isSubset (hop ▸ hsub)) h
    exact ⟨congrArg _ hij, fun _ => hij⟩
  | false => exact ⟨(inputs_and_attributes_eq hi hj hsub h).1, nofun⟩

end Cluster

end QueryPlan
