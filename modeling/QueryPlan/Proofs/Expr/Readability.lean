import QueryPlan.Proofs.Decimal.Shortest
import QueryPlan.Proofs.Expr.Equality
/-!
# Reading expressions

The text of an expression determines the expression, but for the types of its columns and calls, if no
string in it holds a quote. Numbers, Booleans and null are written with characters that nothing begins
with that can come after an expression, and that is also what tells them from calls.
-/
namespace QueryPlan

/-! ## Literals -/

namespace Value

/-- The characters of literals without quotes. -/
def isPlain (c : Char) : Bool := c.isDigit || c.isLower || c = '.' || c = '-' || c = 'N'

/-- What can come after a literal or an expression. -/
def stops : List Char := [',', ')', ' ', ']']

/-- A string without a quote, or a value that is written without quotes. -/
def legible : Value → Bool
  | varchar s => !s.toList.contains '\''
  | _ => true

/-- Whether the value is a string. -/
def isVarchar : Value → Bool
  | varchar _ => true
  | _ => false

theorem isPlain_of_isDecimal {c : Char} (h : Decimal.isDecimal c = true) : isPlain c = true := by
  simp only [Decimal.isDecimal, isPlain, Bool.or_eq_true, decide_eq_true_eq] at h ⊢
  rcases h with ((h | h) | h) | rfl
  · simp [h]
  · simp [h]
  · simp [h]
  · decide

/-- Values but strings are written with plain characters. -/
theorem isPlain_of_mem_text {v : Value} (hv : v.isVarchar = false) :
    ∀ c ∈ v.text.toList, isPlain c = true := by
  cases v with
  | null => decide
  | boolean b => cases b <;> decide
  | integer i =>
    intro c hc
    rcases Decimal.isDecimal_of_mem_toString hc with hc | rfl
    · simp [isPlain, hc]
    · decide
  | double d =>
    rcases Decimal.shortestText_decimal d with h | ⟨h, -⟩
    · have words : ∀ word ∈ ["NaN", "inf", "-inf"], ∀ c ∈ word.toList, isPlain c = true := by decide
      exact words _ h
    · exact fun c hc => isPlain_of_isDecimal (h c hc)
  | varchar s => cases hv

theorem text_integer_inj {i j : Int64} (h : (integer i).text = (integer j).text) : i = j := by
  have hi := Decimal.exponent?_toString i.toInt
  rw [show toString i.toInt = toString j.toInt from h, Decimal.exponent?_toString] at hi
  exact Int64.toInt_inj.mp (Option.some.inj hi).symm

/-- No double is written like a value of another type. -/
theorem text_double_ne {d : Float} {v : Value} (hv : v.isVarchar = false) (hdouble : v.dataType ≠ .double) :
    (double d).text ≠ v.text := by
  intro htext
  have hdecimal := Decimal.shortestText_decimal d
  rw [show Decimal.shortestText d = v.text from htext] at hdecimal
  cases v with
  | null => exact absurd hdecimal (by decide)
  | boolean b => cases b <;> exact absurd hdecimal (by decide)
  | integer i =>
    have hchars : ∀ c ∈ (integer i).text.toList, c.isDigit = true ∨ c = '-' :=
      fun c => Decimal.isDecimal_of_mem_toString
    rcases hdecimal with h | ⟨-, h⟩
    · have words : ∀ word ∈ ["NaN", "inf", "-inf"], ¬∀ c ∈ word.toList, c.isDigit = true ∨ c = '-' := by
        decide
      exact words _ h hchars
    · rcases h with h | h
      · exact absurd (hchars _ h) (by decide)
      · exact absurd (hchars _ h) (by decide)
  | double d => exact hdouble rfl
  | varchar s => cases hv

/-- Words are not written like integers. -/
theorem text_ne_integer {v : Value} (hv : v.isNull = true ∨ v.dataType = .boolean) (i : Int64) :
    v.text ≠ (integer i).text := by
  intro htext
  have hchars : ∀ c ∈ v.text.toList, c.isDigit = true ∨ c = '-' := by
    rw [htext]
    exact fun c => Decimal.isDecimal_of_mem_toString
  cases v with
  | null => exact absurd hchars (by decide)
  | boolean b => cases b <;> exact absurd hchars (by decide)
  | _ => rcases hv with h | h <;> cases h

/-- Values but strings are told by their text. -/
theorem text_inj {v w : Value} (hv : v.isVarchar = false) (hw : w.isVarchar = false)
    (h : v.text = w.text) : v = w := by
  cases v with
  | null =>
    cases w with
    | null => rfl
    | boolean b => cases b <;> exact absurd h (by decide)
    | integer i => exact absurd h (text_ne_integer (.inl rfl) i)
    | double d => exact absurd h.symm (text_double_ne hv (by decide))
    | varchar s => cases hw
  | boolean a =>
    cases w with
    | null => cases a <;> exact absurd h (by decide)
    | boolean b => cases a <;> cases b <;> first | rfl | exact absurd h (by decide)
    | integer i => exact absurd h (text_ne_integer (.inr rfl) i)
    | double d => exact absurd h.symm (text_double_ne hv nofun)
    | varchar s => cases hw
  | integer i =>
    cases w with
    | null => exact absurd h.symm (text_ne_integer (.inl rfl) i)
    | boolean b => exact absurd h.symm (text_ne_integer (.inr rfl) i)
    | integer j => rw [text_integer_inj h]
    | double d => exact absurd h.symm (text_double_ne hv nofun)
    | varchar s => cases hw
  | double d =>
    cases w with
    | double e => rw [Decimal.shortestText_inj h]
    | varchar s => cases hw
    | _ => exact absurd h (text_double_ne hw nofun)
  | varchar s => cases hv

/-! ## Reading literals -/

/-- The first character that is not plain. -/
def mark (cs : List Char) : Option Char := (cs.dropWhile isPlain).head?

theorem toList_text_varchar (s : String) : (varchar s).text.toList = '\'' :: (s.toList ++ ['\'']) := by
  simp [text]

theorem mark_varchar (s : String) (b : List Char) :
    mark ((varchar s).text.toList ++ b) = some '\'' := by
  rw [toList_text_varchar]
  rfl

theorem mark_plain {v : Value} (hv : v.isVarchar = false) {b : List Char} (hb : Text.Follows stops b) :
    ∀ c ∈ mark (v.text.toList ++ b), c ∈ stops := by
  have hstops : ∀ c ∈ stops, isPlain c = false := by decide
  unfold mark
  rw [List.dropWhile_append_of_pos (isPlain_of_mem_text hv)]
  cases b with
  | nil => nofun
  | cons c b =>
    have hc := hb c rfl
    rw [List.dropWhile_cons_of_neg (by simp [hstops c hc])]
    exact hb

theorem text_ne_nil (v : Value) : v.text.toList ≠ [] := by
  cases v with
  | null => decide
  | boolean b => cases b <;> decide
  | integer i =>
    intro h
    have hread := Decimal.exponent?_toString i.toInt
    rw [show (toString i.toInt).toList = [] from h] at hread
    cases hread
  | double d =>
    intro h
    rw [show (double d).text = Decimal.shortestText d from rfl] at h
    rcases Decimal.shortestText_decimal d with hword | ⟨-, hmark⟩
    · have words : ∀ word ∈ ["NaN", "inf", "-inf"], word.toList ≠ [] := by decide
      exact words _ hword h
    · simp [h] at hmark
  | varchar s => simp [text]

/-- A literal does not begin like what can come after one. -/
theorem not_follows_text (v : Value) (b : List Char) : ¬Text.Follows stops (v.text.toList ++ b) := by
  cases hv : v.isVarchar with
  | true =>
    cases v with
    | varchar s =>
      rw [toList_text_varchar]
      exact Text.not_follows_cons _ (by decide)
    | _ => cases hv
  | false => exact Text.not_follows_of_all (by decide) v.text_ne_nil (isPlain_of_mem_text hv) b

/-- Literals are told by their text, and from what comes after it. -/
theorem readAlike {v w : Value} (hv : v.legible = true) (hw : w.legible = true) :
    Text.ReadAlike Value.text stops Eq v w := by
  intro b b' hb hb' h
  -- a quote begins one text and not the other
  have quoted : ∀ {s : String} {v : Value} {b b' : List Char}, v.isVarchar = false →
      Text.Follows stops b' → (varchar s).text.toList ++ b ≠ v.text.toList ++ b' := by
    intro s v b b' hv hb' h
    exact absurd (mark_plain hv hb' '\'' (by rw [← h, mark_varchar]; rfl)) (by decide)
  have plain : ∀ {v w : Value}, v.isVarchar = false → w.isVarchar = false →
      Text.ReadAlike Value.text stops Eq v w := fun hv hw =>
    .of_all (by decide) (isPlain_of_mem_text hv) (isPlain_of_mem_text hw) (text_inj hv hw)
  cases v with
  | varchar s =>
    cases w with
    | varchar t =>
      rw [toList_text_varchar, toList_text_varchar] at h
      simp only [legible, Bool.not_eq_true', List.contains_eq_mem, decide_eq_false_iff_not] at hv hw
      simp only [List.cons_append, List.append_assoc, List.cons.injEq, true_and, List.nil_append] at h
      obtain ⟨hst, hrest⟩ := Text.eq_of_append_cons hv hw h
      exact ⟨by rw [String.toList_inj.mp hst], hrest⟩
    | _ => exact absurd h (quoted rfl hb')
  | _ =>
    cases w with
    | varchar t => exact absurd h.symm (quoted rfl hb)
    | _ => exact plain rfl rfl hb hb' h

end Value

theorem DataType.text_inj {t u : DataType} (h : t.text = u.text) : t = u := by
  cases t <;> cases u <;> first | rfl | exact absurd h (by decide)

theorem DataType.readAlike (t u : DataType) : Text.ReadAlike text Value.stops Eq t u := by
  have upper : ∀ t : DataType, ∀ c ∈ t.text.toList, c.isUpper = true := by
    intro t
    cases t <;> decide
  exact .of_all (by decide) (upper t) (upper u) DataType.text_inj

namespace Op

theorem ofText?_text (op : Op) : ofText? op.text = some op := by cases op <;> rfl

theorem text_inj {op op' : Op} (h : op.text = op'.text) : op = op' :=
  Option.some.inj (by rw [← ofText?_text op, h, ofText?_text op'])

theorem paren_not_mem_text (op : Op) : '(' ∉ op.text.toList := by cases op <;> decide

/-- The marks of calls. -/
def marks : List Char := ['A', 'O', '=', '<', '>', 'I', '(', '+', '*', '/', 'F', 'C']

theorem mark_text (op : Op) (b : List Char) :
    ∃ c ∈ marks, Value.mark (op.text.toList ++ '(' :: b) = some c := by
  cases op <;> exact ⟨_, by decide, rfl⟩

end Op

namespace Expr

mutual

/-- The expression with the types that the columns of an input and the operators give. A table column
has no such type. -/
def retyped (input : RowType) : Expr → Expr
  | column i _ => column i ((input.fields[i]?.map Field.dataType).getD .null)
  | literal v => literal v
  | apply op es t =>
    apply op (retypedEach input es) (if op = .cast then t else resultType op (retypedEach input es))
  | tableColumn r i _ => tableColumn r i .null

/-- `retyped` on each expression of a list. -/
def retypedEach (input : RowType) : List Expr → List Expr
  | [] => []
  | e :: es => retyped input e :: retypedEach input es

end

mutual

/-- No string holds a quote, and the names of tables hold neither a comma nor a bracket. -/
def legible : Expr → Bool
  | column _ _ => true
  | literal v => v.legible
  | apply _ es _ => areLegible es
  | tableColumn r _ _ => !r.name.isEmpty && r.name.all Text.isListable

/-- All expressions of a list are legible. -/
def areLegible : List Expr → Bool
  | [] => true
  | e :: es => legible e && areLegible es

end

theorem retypedEach_eq (input : RowType) (es : List Expr) :
    retypedEach input es = es.map (retyped input) := by
  induction es with
  | nil => rfl
  | cons e es ih => simp [retypedEach, ih]

theorem areLegible_eq (es : List Expr) : areLegible es = es.all legible := by
  induction es with
  | nil => rfl
  | cons e es ih => simp [areLegible, ih]

/-- Types matter to the value of a conversion only, and its target is kept. -/
theorem eval_retyped (input : RowType) (row : Row) (e : Expr) :
    (e.retyped input).eval row = e.eval row := by
  induction e using induct with
  | column i t => rfl
  | literal v => rfl
  | apply op es t ih =>
    have hes : evalEach row (retypedEach input es) = evalEach row es := by
      rw [retypedEach_eq, evalEach_eq, evalEach_eq, List.map_map]
      exact List.map_congr_left ih
    rw [retyped, eval, eval, hes]
    split
    · rfl
    · next hop => cases op <;> first | rfl | exact absurd rfl hop
  | tableColumn r i t => rfl

/-! ## Reading expressions -/

theorem toList_text_apply (op : Op) (es : List Expr) (t : DataType) :
    (apply op es t).text.toList = op.text.toList ++ '(' :: ((", ".intercalate (es.map text)).toList ++
      ')' :: if op = .cast then ':' :: t.text.toList else []) := by
  cases op <;> simp [text, texts_eq, Op.text]

theorem toList_text_tableColumn (r : TableRef) (i : Nat) (t : DataType) :
    (tableColumn r i t).text.toList = '[' :: ((", ".intercalate r.name).toList ++
      ']' :: '.' :: '#' :: ((toString r.entity).toList ++ '.' :: '$' :: (toString i).toList)) := by
  simp [text, TableRef.text]

theorem toList_text_column (i : Nat) (t : DataType) :
    (column i t).text.toList = '$' :: (toString i).toList := by
  simp [text]

/-- The constructors of expressions. -/
inductive Shape where
  | column
  | literal
  | call
  | tableColumn
  deriving DecidableEq

def shape : Expr → Shape
  | column _ _ => .column
  | literal _ => .literal
  | apply _ _ _ => .call
  | tableColumn _ _ _ => .tableColumn

/-- The constructor that a mark stands for. -/
def Shape.ofMark : Option Char → Shape
  | none => .literal
  | some c =>
    if c = '$' then .column
    else if c = '[' then .tableColumn
    else if c ∈ Op.marks then .call
    else .literal

/-- The first character that is not plain tells the constructor. -/
theorem shape_eq (e : Expr) {b : List Char} (hb : Text.Follows Value.stops b) :
    Shape.ofMark (Value.mark (e.text.toList ++ b)) = e.shape := by
  cases e with
  | column i t =>
    rw [toList_text_column]
    rfl
  | literal v =>
    have literals : ∀ m : Option Char, (∀ c ∈ m, c ∈ '\'' :: Value.stops) → Shape.ofMark m = .literal := by
      have chars : ∀ c ∈ '\'' :: Value.stops, Shape.ofMark (some c) = .literal := by decide
      intro m hm
      cases m with
      | none => rfl
      | some c => exact chars c (hm c rfl)
    apply literals
    cases v with
    | varchar s =>
      rw [show (literal (.varchar s)).text = (Value.varchar s).text from rfl, Value.mark_varchar]
      rintro c ⟨⟩
      exact List.mem_cons_self
    | _ => exact fun c hc => List.mem_cons_of_mem _ (Value.mark_plain rfl hb c hc)
  | apply op es t =>
    have calls : ∀ c ∈ Op.marks, Shape.ofMark (some c) = .call := by decide
    rw [toList_text_apply, List.append_assoc, List.cons_append]
    obtain ⟨c, hc, hmark⟩ := op.mark_text _
    rw [hmark]
    exact calls c hc
  | tableColumn r i t =>
    rw [toList_text_tableColumn]
    rfl

/-- An expression does not begin like what can come after one. -/
theorem not_follows_text (e : Expr) (b : List Char) : ¬Text.Follows Value.stops (e.text.toList ++ b) := by
  cases e with
  | column i t =>
    rw [toList_text_column]
    exact Text.not_follows_cons _ (by decide)
  | literal v => exact v.not_follows_text b
  | apply op es t =>
    rw [toList_text_apply, List.append_assoc]
    cases op <;> exact Text.not_follows_cons _ (by decide)
  | tableColumn r i t =>
    rw [toList_text_tableColumn]
    exact Text.not_follows_cons _ (by decide)

/-- The two expressions differ in types only. -/
def SameButTypes (e e' : Expr) : Prop := ∀ input, e.retyped input = e'.retyped input

theorem retypedEach_congr {es es' : List Expr} (h : List.Forall₂ SameButTypes es es') (input : RowType) :
    retypedEach input es = retypedEach input es' := by
  rw [retypedEach_eq, retypedEach_eq]
  exact Text.map_eq_of_forall₂ (h.imp fun _ _ hsame => hsame input)

theorem readAlike_column (i j : Nat) (t u : DataType) :
    Text.ReadAlike Expr.text Value.stops SameButTypes (column i t) (column j u) := by
  intro b b' hb hb' h
  simp only [toList_text_column, List.cons_append, List.cons.injEq, true_and] at h
  obtain ⟨rfl, hrest⟩ := Text.ReadAlike.nat _ (by decide) i j hb hb' h
  exact ⟨fun _ => rfl, hrest⟩

theorem readAlike_tableColumn {r r' : TableRef} {i j : Nat} {t u : DataType}
    (hr : (tableColumn r i t).legible = true) (hr' : (tableColumn r' j u).legible = true) :
    Text.ReadAlike Expr.text Value.stops SameButTypes
      (tableColumn r i t) (tableColumn r' j u) := by
  intro b b' hb hb' h
  simp only [legible, Bool.and_eq_true, Bool.not_eq_true', List.isEmpty_eq_false_iff, List.all_eq_true]
    at hr hr'
  simp only [toList_text_tableColumn, List.cons_append, List.append_assoc, List.cons.injEq, true_and] at h
  obtain ⟨hname, h⟩ := Text.names_inj hr.1 hr'.1 hr.2 hr'.2 h
  simp only [List.cons.injEq, true_and] at h
  obtain ⟨hentity, h⟩ := Text.ReadAlike.nat ['.'] (by decide) r.entity r'.entity
    (Text.follows_cons _ (by decide)) (Text.follows_cons _ (by decide)) h
  simp only [List.cons.injEq, true_and] at h
  obtain ⟨rfl, hrest⟩ := Text.ReadAlike.nat _ (by decide) i j hb hb' h
  have htable : r = r' := by
    cases r
    cases r'
    cases hname
    cases hentity
    rfl
  exact ⟨fun _ => by rw [retyped, retyped, htable], hrest⟩

theorem readAlike_apply {op op' : Op} {es es' : List Expr} {t u : DataType}
    (hes : ∀ e ∈ es, ∀ e' ∈ es', Text.ReadAlike Expr.text Value.stops SameButTypes e e') :
    Text.ReadAlike Expr.text Value.stops SameButTypes
      (apply op es t) (apply op' es' u) := by
  intro b b' hb hb' h
  simp only [toList_text_apply, List.cons_append, List.append_assoc] at h
  obtain ⟨hop, h⟩ := Text.eq_of_append_cons op.paren_not_mem_text op'.paren_not_mem_text h
  cases Op.text_inj (String.toList_inj.mp hop)
  have hopen : ∀ e : Expr, ∀ b, ¬Text.Follows [')'] (e.text.toList ++ b) := fun e b hb =>
    e.not_follows_text b (hb.mono (by decide))
  obtain ⟨hargs, h⟩ := Text.ReadAlike.sequence [')'] (by decide) (by decide) (by decide) hes
    (fun e _ => hopen e) (fun e _ => hopen e) (Text.follows_cons _ (by decide))
    (Text.follows_cons _ (by decide)) h
  have heach := retypedEach_congr hargs
  rw [List.cons.injEq] at h
  by_cases hcast : op = .cast
  · simp only [hcast, if_true, List.cons_append, List.cons.injEq, true_and] at h
    obtain ⟨rfl, hrest⟩ := DataType.readAlike t u hb hb' h
    exact ⟨fun input => by simp [retyped, heach input], hrest⟩
  · simp only [hcast, if_false, List.nil_append, true_and] at h
    exact ⟨fun input => by simp [retyped, heach input, hcast], h⟩

theorem shape_congr {e e' : Expr} {b b' : List Char} (hb : Text.Follows Value.stops b)
    (hb' : Text.Follows Value.stops b') (h : e.text.toList ++ b = e'.text.toList ++ b') :
    e.shape = e'.shape := by
  rw [← shape_eq e hb, h, shape_eq e' hb']

/-- Expressions are told by their text, but for types, and from what comes after it. -/
theorem readAlike {e e' : Expr} (he : e.legible = true) (he' : e'.legible = true) :
    Text.ReadAlike Expr.text Value.stops SameButTypes e e' := by
  intro b b' hb hb' h
  have hshape := shape_congr hb hb' h
  -- on the left expression, for the operands of calls
  induction e using induct generalizing e' b b' with
  | column i t =>
    cases e' with
    | column j u => exact readAlike_column i j t u hb hb' h
    | _ => cases hshape
  | literal v =>
    cases e' with
    | literal w =>
      obtain ⟨rfl, hrest⟩ := Value.readAlike he he' hb hb' h
      exact ⟨fun _ => rfl, hrest⟩
    | _ => cases hshape
  | apply op es t ih =>
    cases e' with
    | apply op' es' u =>
      rw [legible, areLegible_eq, List.all_eq_true] at he he'
      refine readAlike_apply ?_ hb hb' h
      intro e hmem e' hmem' b b' hb hb' h
      exact ih e hmem (he e hmem) (he' e' hmem') hb hb' h (shape_congr hb hb' h)
    | _ => cases hshape
  | tableColumn r i t =>
    cases e' with
    | tableColumn r' j u => exact readAlike_tableColumn he he' hb hb' h
    | _ => cases hshape

/-- Expressions that differ in types only have one value. -/
theorem SameButTypes.eval_eq {e e' : Expr} (h : SameButTypes e e') (row : Row) :
    e.eval row = e'.eval row := by
  rw [← eval_retyped default row e, h, eval_retyped]

end Expr

end QueryPlan
