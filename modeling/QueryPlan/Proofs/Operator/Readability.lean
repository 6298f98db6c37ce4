import QueryPlan.Operator.Basic
import QueryPlan.Proofs.Expr.Readability
/-!
# Reading the attributes of operators

Row types, rows, orders, distributions, column sets, aggregate calls and projected expressions are told
by their texts and from what comes after them. Where a part of the text is free, as a name or a string
is, that holds if the free part does not contain what ends it.
-/
namespace QueryPlan

/-! ## Columns -/

namespace Field

/-- The name is listable, and what is written after it is not taken for the end of it. -/
def legible (f : Field) : Bool := Text.isListable f.name && !" NOT".toList.isSuffixOf f.name.toList

theorem isListable_of_mem_text {f : Field} (h : f.legible = true) :
    ∀ c ∈ f.text.toList, Text.isListableChar c = true := by
  have htype : ∀ c ∈ f.dataType.text.toList, Text.isListableChar c = true := by
    cases f.dataType <;> decide
  have hnull : ∀ c ∈ (if f.nullable then "" else " NOT NULL").toList, Text.isListableChar c = true := by
    cases f.nullable <;> decide
  have hname := Text.isListable_iff.mp (Bool.and_eq_true_iff.mp h).1
  intro c hc
  simp only [text, String.toList_append, List.mem_append, or_assoc] at hc
  rcases hc with hc | hc | hc | hc
  · exact hname c hc
  · cases List.mem_singleton.mp hc
    decide
  · exact htype c hc
  · exact hnull c hc

theorem toList_text_of_nullable {f : Field} (h : f.nullable = true) :
    f.text.toList = f.name.toList ++ ' ' :: f.dataType.text.toList := by
  simp [text, h]

theorem toList_text_of_not_nullable {f : Field} (h : f.nullable = false) :
    f.text.toList = f.name.toList ++ ' ' :: f.dataType.text.toList ++ " NOT".toList ++ ' ' :: "NULL".toList := by
  simp [text, h]

/-- The type of a column can be read back. -/
theorem dataType_eq_of_text {f g : Field} (hf : f.legible = true) (hg : g.legible = true)
    (h : f.text.toList = g.text.toList) : f.dataType = g.dataType := by
  have hblank : ∀ t : DataType, ' ' ∉ t.text.toList := by
    intro t
    cases t <;> decide
  have hnull : ' ' ∉ "NULL".toList := by decide
  have types : ∀ {a a' : List Char}, a ++ ' ' :: f.dataType.text.toList = a' ++ ' ' :: g.dataType.text.toList →
      f.dataType = g.dataType := fun h =>
    DataType.text_inj (String.toList_inj.mp (Text.eq_of_append_cons_right (hblank _) (hblank _) h).2)
  -- a name that ends like the note that null is excluded is the only way to take one for the other
  have mixed : ∀ {f g : Field}, f.legible = true → f.nullable = true → g.nullable = false →
      f.text.toList ≠ g.text.toList := by
    intro f g hf hnullable hnot h
    rw [toList_text_of_nullable hnullable, toList_text_of_not_nullable hnot] at h
    have hname := (Text.eq_of_append_cons_right (hblank _) hnull h).1
    have hsuffix : " NOT".toList.isSuffixOf f.name.toList = true :=
      List.isSuffixOf_iff_suffix.mpr ⟨_, hname.symm⟩
    rw [legible, hsuffix, Bool.not_true, Bool.and_false] at hf
    cases hf
  cases hnf : f.nullable with
  | true =>
    cases hng : g.nullable with
    | true =>
      rw [toList_text_of_nullable hnf, toList_text_of_nullable hng] at h
      exact types h
    | false => exact absurd h (mixed hf hnf hng)
  | false =>
    cases hng : g.nullable with
    | true => exact absurd h.symm (mixed hg hng hnf)
    | false =>
      rw [toList_text_of_not_nullable hnf, toList_text_of_not_nullable hng] at h
      exact types (List.append_cancel_right (List.append_cancel_right h))

theorem text_ne_nil (f : Field) : f.text.toList ≠ [] := by
  simp [text]

theorem readAlike {f g : Field} (hf : f.legible = true) (hg : g.legible = true) :
    Text.ReadAlike text [',', ']'] (fun f g => f.dataType = g.dataType) f g :=
  .of_all (by decide) (isListable_of_mem_text hf) (isListable_of_mem_text hg) fun h =>
    dataType_eq_of_text hf hg (by rw [h])

end Field

theorem RowType.readAlike {t u : RowType} (ht : t.fields.all Field.legible = true)
    (hu : u.fields.all Field.legible = true) :
    Text.ReadAlike text [']'] (fun t u => t.isCompatible u = true) t u := by
  rw [List.all_eq_true] at ht hu
  have hopen : ∀ f : Field, f.legible = true → ∀ b, ¬Text.Follows [']'] (f.text.toList ++ b) := fun f hf =>
    Text.not_follows_of_all (by decide) f.text_ne_nil (Field.isListable_of_mem_text hf)
  intro b b' hb hb' h
  obtain ⟨hsame, hrest⟩ := Text.ReadAlike.sequence [']'] (by decide) (by decide) (by decide)
    (fun f hf g hg => Field.readAlike (ht f hf) (hu g hg)) (fun f hf => hopen f (ht f hf))
    (fun g hg => hopen g (hu g hg)) hb hb' h
  exact ⟨beq_iff_eq.mpr (Text.map_eq_of_forall₂ hsame), hrest⟩

/-! ## Rows -/

namespace Row

theorem readAlike {row row' : Row} (h : row.all Value.legible = true)
    (h' : row'.all Value.legible = true) (stops : List Char) : Text.ReadAlike text stops Eq row row' := by
  rw [List.all_eq_true] at h h'
  have hopen : ∀ v : Value, ∀ b, ¬Text.Follows [']'] (v.text.toList ++ b) := fun v b hb =>
    v.not_follows_text b (hb.mono (by decide))
  have hlist := Text.ReadAlike.list (by decide) (by decide) (by decide)
    (fun v hv w hw => Value.readAlike (h v hv) (h' w hw)) hopen
  exact hlist.enclosed "[" "]" rfl stops

theorem not_follows_text (row : Row) (b : List Char) : ¬Text.Follows [']'] (row.text.toList ++ b) := by
  rw [text, String.append_assoc, String.toList_append]
  exact Text.not_follows_cons _ (by decide)

end Row

/-! ## Orders, column sets and calls -/

theorem Text.readAlike_nats (closes : Char) (hcomma : closes ≠ ',') (hdigit : closes.isDigit = false)
    (l l' : List Nat) :
    Text.ReadAlike (fun l : List Nat => ", ".intercalate (l.map toString)) [closes] Eq l l' := by
  have hstops : ∀ c ∈ [',', closes], c.isDigit = false := by
    simp [hdigit]
  have hopen : ∀ n : Nat, ∀ b, ¬Text.Follows [closes] ((toString n).toList ++ b) := fun n =>
    Text.not_follows_of_all (by simpa using hdigit) (Text.toString_nat_ne_nil n)
      fun _ => Text.isDigit_of_mem_toString_nat
  exact .list (by simp) (by simp) hcomma (fun m _ n _ => Text.ReadAlike.nat _ hstops m n) hopen

theorem ColumnSet.readAlike (s s' : ColumnSet) (stops : List Char) :
    Text.ReadAlike text stops Eq s s' := by
  intro b b' hb hb' h
  obtain ⟨hlist, hrest⟩ := (Text.readAlike_nats '\x7d' (by decide) (by decide) s.toList s'.toList).enclosed
    "\x7b" "\x7d" rfl stops hb hb' h
  cases s
  cases s'
  cases hlist
  exact ⟨rfl, hrest⟩

namespace FieldCollation

/-- What is written after the field. -/
def suffix (direction : Direction) (nulls : NullPlacement) : String :=
  if direction = .ascending ∧ nulls = .last then ""
  else if nulls = direction.defaultNulls then " " ++ direction.text
  else " " ++ direction.text ++ " " ++ nulls.text

theorem toList_text (fc : FieldCollation) :
    fc.text.toList = (toString fc.field).toList ++ (suffix fc.direction fc.nulls).toList := by
  unfold text suffix
  split
  · simp
  · dsimp only
    split <;> simp

theorem suffix_inj {direction direction' : Direction} {nulls nulls' : NullPlacement}
    (h : suffix direction nulls = suffix direction' nulls') : direction = direction' ∧ nulls = nulls' := by
  cases direction <;> cases nulls <;> cases direction' <;> cases nulls' <;>
    first | exact ⟨rfl, rfl⟩ | exact absurd h (by decide)

theorem text_ne_nil (fc : FieldCollation) : fc.text.toList ≠ [] := by
  rw [toList_text]
  exact List.append_ne_nil_of_left_ne_nil (Text.toString_nat_ne_nil _) _

theorem isListable_of_mem_text (fc : FieldCollation) :
    ∀ c ∈ fc.text.toList, Text.isListableChar c = true := by
  have hsuffix : ∀ c ∈ (suffix fc.direction fc.nulls).toList, Text.isListableChar c = true := by
    cases fc.direction <;> cases fc.nulls <;> decide
  intro c hc
  rw [toList_text] at hc
  rcases List.mem_append.mp hc with hc | hc
  · have hdigit := Text.isDigit_of_mem_toString_nat hc
    unfold Text.isListableChar
    rw [Bool.and_eq_true, bne_iff_ne, bne_iff_ne]
    constructor <;> (rintro rfl; cases hdigit)
  · exact hsuffix c hc

theorem readAlike (fc fc' : FieldCollation) : Text.ReadAlike text [',', ']'] Eq fc fc' := by
  refine .of_all (by decide) fc.isListable_of_mem_text fc'.isListable_of_mem_text fun h => ?_
  have hblank : ∀ fc : FieldCollation, Text.Follows [' '] (suffix fc.direction fc.nulls).toList := by
    intro fc
    cases fc.direction <;> cases fc.nulls <;> decide
  have hparts := congrArg String.toList h
  rw [toList_text, toList_text] at hparts
  obtain ⟨hfield, hsuffix⟩ := Text.ReadAlike.nat [' '] (by decide) _ _ (hblank fc) (hblank fc') hparts
  obtain ⟨hdirection, hnulls⟩ := suffix_inj (String.toList_inj.mp hsuffix)
  cases fc
  cases fc'
  cases hfield
  cases hdirection
  cases hnulls
  rfl

end FieldCollation

theorem Collation.readAlike (c c' : Collation) (stops : List Char) : Text.ReadAlike text stops Eq c c' := by
  have hopen : ∀ fc : FieldCollation, ∀ b, ¬Text.Follows [']'] (fc.text.toList ++ b) := fun fc =>
    Text.not_follows_of_all (by decide) fc.text_ne_nil fc.isListable_of_mem_text
  have hread := fun fc (_ : fc ∈ c.fields) fc' (_ : fc' ∈ c'.fields) => fc.readAlike fc'
  have hlist := Text.ReadAlike.list (by decide) (by decide) (by decide) hread hopen
  intro b b' hb hb' h
  obtain ⟨hfields, hrest⟩ := hlist.enclosed "[" "]" rfl stops hb hb' h
  cases c
  cases c'
  cases hfields
  exact ⟨rfl, hrest⟩

namespace Distribution

/-- The first character that is written. -/
def initial : Distribution → Char
  | any => 'a'
  | single => 's'
  | hash _ => 'h'
  | roundRobin => 'r'
  | broadcast => 'b'

theorem head?_text (d : Distribution) (b : List Char) : (d.text.toList ++ b).head? = some d.initial := by
  cases d with
  | hash keys =>
    rw [text, String.append_assoc, String.toList_append]
    rfl
  | _ => rfl

theorem readAlike (d d' : Distribution) (stops : List Char) : Text.ReadAlike text stops Eq d d' := by
  intro b b' hb hb' h
  have hinitial := congrArg List.head? h
  rw [head?_text, head?_text] at hinitial
  cases d with
  | hash keys =>
    cases d' with
    | hash keys' =>
      obtain ⟨rfl, hrest⟩ := (Text.readAlike_nats ']' (by decide) (by decide) keys keys').enclosed
        "hash[" "]" rfl stops hb hb' h
      exact ⟨rfl, hrest⟩
    | _ => cases hinitial
  | _ => cases d' <;> first | cases hinitial; done | exact ⟨rfl, List.append_cancel_left h⟩

end Distribution

namespace JoinType

theorem readAlike (t u : JoinType) : Text.ReadAlike text [','] Eq t u := by
  have lower : ∀ t : JoinType, ∀ c ∈ t.text.toList, c.isLower = true := by
    intro t
    cases t <;> decide
  refine .of_all (by decide) (lower t) (lower u) fun h => ?_
  cases t <;> cases u <;> first | rfl | exact absurd h (by decide)

end JoinType

namespace CorrelateType

theorem readAlike (t u : CorrelateType) : Text.ReadAlike text [','] Eq t u := by
  have lower : ∀ t : CorrelateType, ∀ c ∈ t.text.toList, c.isLower = true := by
    intro t
    cases t <;> decide
  refine .of_all (by decide) (lower t) (lower u) fun h => ?_
  cases t <;> cases u <;> first | rfl | exact absurd h (by decide)

end CorrelateType

theorem AggFunction.readAlike (f g : AggFunction) : Text.ReadAlike text ['('] Eq f g := by
  have chars : ∀ f : AggFunction, ∀ c ∈ f.text.toList, (c != '(') = true := by
    intro f
    cases f <;> decide
  refine .of_all (by decide) (chars f) (chars g) fun h => ?_
  cases f <;> cases g <;> first | rfl | exact absurd h (by decide)

namespace AggregateCall

/-- The name does not hold the character that ends it. -/
def legible (c : AggregateCall) : Bool := !c.name.toList.contains '='

theorem readAlike_args (args args' : List Nat) (stops : List Char) :
    Text.ReadAlike (fun args : List Nat => "(" ++ ", ".intercalate (args.map fun a => "$" ++ toString a) ++ ")")
      stops Eq args args' := by
  have hopen : ∀ n : Nat, ∀ b, ¬Text.Follows [')'] (("$" ++ toString n).toList ++ b) := by
    intro n b
    rw [String.toList_append]
    exact Text.not_follows_cons _ (by decide)
  have hread := fun m (_ : m ∈ args) n (_ : n ∈ args') =>
    (Text.ReadAlike.nat [',', ')'] (by decide) m n).after "$"
  exact (Text.ReadAlike.list (by decide) (by decide) (by decide) hread hopen).enclosed "(" ")" rfl stops

/-- A call with its name. -/
def namedText (call : AggregateCall) : String := call.name ++ "=" ++ call.text

theorem readAlike {c c' : AggregateCall} (hc : c.legible = true) (hc' : c'.legible = true)
    (stops : List Char) : Text.ReadAlike namedText stops Eq c c' := by
  intro b b' hb hb' h
  simp only [legible, Bool.not_eq_true', List.contains_eq_mem, decide_eq_false_iff_not] at hc hc'
  simp only [namedText, text, String.append_assoc, String.toList_append, List.append_assoc] at h
  obtain ⟨hname, h⟩ := Text.eq_of_append_cons hc hc' h
  obtain ⟨hfunction, h⟩ := AggFunction.readAlike c.function c'.function (Text.follows_cons _ (by decide))
    (Text.follows_cons _ (by decide)) h
  obtain ⟨hargs, hrest⟩ := readAlike_args c.args c'.args stops hb hb' (by simpa using h)
  cases c
  cases c'
  cases String.toList_inj.mp hname
  cases hfunction
  cases hargs
  exact ⟨rfl, hrest⟩

end AggregateCall

/-! ## Projected expressions -/

/-- Expressions that differ in types only are the same if both have the types that an input gives. -/
theorem Expr.SameButTypes.eq {e e' : Expr} {input : RowType} (h : e.SameButTypes e')
    (he : e.retyped input = e) (he' : e'.retyped input = e') : e = e' := by
  rw [← he, h input, he']

end QueryPlan
