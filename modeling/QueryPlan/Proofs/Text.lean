import Mathlib.Data.List.Forall2
import Mathlib.Tactic.Common
/-!
# Taking texts apart

A text that is put together from parts is read from the left, part by part. A part can be told from
what comes after it if it ends at a character that it does not hold itself, or if it is made of
characters with which what comes after it never begins.
-/
namespace QueryPlan.Text

/-! ## One part -/

theorem eq_of_append_cons {x : Char} {a a' b b' : List Char} (ha : x ∉ a) (ha' : x ∉ a')
    (h : a ++ x :: b = a' ++ x :: b') : a = a' ∧ b = b' := by
  induction a generalizing a' with
  | nil =>
    cases a' with
    | nil => exact ⟨rfl, by simpa using h⟩
    | cons y a' =>
      simp only [List.nil_append, List.cons_append, List.cons.injEq] at h
      exact absurd (by simp [h.1]) ha'
  | cons y a ih =>
    cases a' with
    | nil =>
      simp only [List.nil_append, List.cons_append, List.cons.injEq] at h
      exact absurd (by simp [h.1]) ha
    | cons y' a' =>
      simp only [List.cons_append, List.cons.injEq] at h
      obtain ⟨rfl, h⟩ := h
      obtain ⟨rfl, rfl⟩ := ih (by simp_all) (by simp_all) h
      exact ⟨rfl, rfl⟩

/-- The same from the right. -/
theorem eq_of_append_cons_right {x : Char} {a a' b b' : List Char} (hb : x ∉ b) (hb' : x ∉ b')
    (h : a ++ x :: b = a' ++ x :: b') : a = a' ∧ b = b' := by
  have hreverse := congrArg List.reverse h
  simp only [List.reverse_append, List.reverse_cons, List.append_assoc, List.singleton_append] at hreverse
  obtain ⟨hright, hleft⟩ := eq_of_append_cons (by simpa using hb) (by simpa using hb') hreverse
  exact ⟨List.reverse_injective hleft, List.reverse_injective hright⟩

/-- Characters of a list are tested one after the other, although there are finitely many characters. -/
instance (priority := high) decidableForallChar {p : Char → Prop} [DecidablePred p] (l : List Char) :
    Decidable (∀ c ∈ l, p c) := List.decidableBAll p l

/-- What comes after a part is nothing or begins with one of the characters. -/
def Follows (stops rest : List Char) : Prop := ∀ c ∈ rest.head?, c ∈ stops

theorem Follows.mono {stops stops' rest : List Char} (h : Follows stops rest) (hsub : stops ⊆ stops') :
    Follows stops' rest := fun c hc => hsub (h c hc)

theorem follows_nil (stops : List Char) : Follows stops [] := nofun

theorem follows_cons_iff {stops rest : List Char} {c : Char} : Follows stops (c :: rest) ↔ c ∈ stops := by
  simp [Follows]

theorem follows_cons {stops : List Char} {c : Char} (rest : List Char) (h : c ∈ stops) :
    Follows stops (c :: rest) := follows_cons_iff.mpr h

theorem not_follows_cons {stops : List Char} {c : Char} (rest : List Char) (h : c ∉ stops) :
    ¬Follows stops (c :: rest) := follows_cons_iff.not.mpr h

instance Follows.decidable (stops : List Char) : (rest : List Char) → Decidable (Follows stops rest)
  | [] => isTrue (follows_nil stops)
  | _ :: _ => decidable_of_iff _ follows_cons_iff.symm

/-- A part does not begin like what can follow if its characters are other ones. -/
theorem not_follows_of_all {p : Char → Bool} {stops a : List Char} (hstops : ∀ c ∈ stops, p c = false)
    (hne : a ≠ []) (ha : ∀ c ∈ a, p c = true) (b : List Char) : ¬Follows stops (a ++ b) := by
  cases a with
  | nil => exact absurd rfl hne
  | cons c a =>
    refine not_follows_cons _ fun hc => ?_
    have hfalse := hstops c hc
    rw [ha c List.mem_cons_self] at hfalse
    cases hfalse

/-- A part is told from what comes after it by its characters. -/
theorem eq_of_append_of_all {p : Char → Bool} {stops a a' b b' : List Char}
    (hstops : ∀ c ∈ stops, p c = false) (ha : ∀ c ∈ a, p c = true) (ha' : ∀ c ∈ a', p c = true)
    (hb : Follows stops b) (hb' : Follows stops b') (h : a ++ b = a' ++ b') : a = a' ∧ b = b' := by
  have read : ∀ {a b : List Char}, (∀ c ∈ a, p c = true) → Follows stops b →
      (a ++ b).takeWhile p = a ∧ (a ++ b).dropWhile p = b := by
    intro a b ha hb
    rw [List.takeWhile_append_of_pos ha, List.dropWhile_append_of_pos ha]
    cases b with
    | nil => simp
    | cons c b => simp [hstops c (hb c rfl)]
  obtain ⟨htake, hdrop⟩ := read ha hb
  obtain ⟨htake', hdrop'⟩ := read ha' hb'
  exact ⟨by rw [← htake, h, htake'], by rw [← hdrop, h, hdrop']⟩

/-! ## Parts in sequence -/

/-- Texts without commas are what separating them by commas is put together from. -/
theorem intercalate_inj {l l' : List (List Char)} (hl : ∀ s ∈ l, ',' ∉ s) (hl' : ∀ s ∈ l', ',' ∉ s)
    (hne : l ≠ []) (hne' : l' ≠ [])
    (h : [',', ' '].intercalate l = [',', ' '].intercalate l') : l = l' := by
  induction l generalizing l' with
  | nil => exact absurd rfl hne
  | cons a l ih =>
    cases l' with
    | nil => exact absurd rfl hne'
    | cons a' l' =>
      have ha := hl a (by simp)
      have ha' := hl' a' (by simp)
      cases l with
      | nil =>
        cases l' with
        | nil => simpa using h
        | cons b' l' =>
          simp only [List.intercalate_singleton, List.intercalate_cons_cons] at h
          exact absurd (by simp [h]) ha
      | cons b l =>
        cases l' with
        | nil =>
          simp only [List.intercalate_singleton, List.intercalate_cons_cons] at h
          exact absurd (by simp [← h]) ha'
        | cons b' l' =>
          simp only [List.intercalate_cons_cons, List.append_assoc, List.cons_append] at h
          obtain ⟨rfl, htail⟩ := eq_of_append_cons ha ha' h
          rw [ih (fun s hs => hl s (by simp [hs])) (fun s hs => hl' s (by simp [hs]))
            (by simp) (by simp) (List.cons.inj htail).2]

theorem intercalate_concat {l : List (List Char)} (hne : l ≠ []) (b : List Char) :
    [',', ' '].intercalate (l ++ [b]) = [',', ' '].intercalate l ++ ',' :: ' ' :: b := by
  induction l with
  | nil => exact absurd rfl hne
  | cons a l ih =>
    cases l with
    | nil => simp [List.intercalate_cons_cons]
    | cons a' l =>
      have htail := ih (by simp)
      rw [List.cons_append] at htail
      simp only [List.cons_append, List.intercalate_cons_cons, htail, List.append_assoc]

/-- As many texts without commas are read one by one, whatever comes after them. -/
theorem intercalate_append_inj {l l' : List (List Char)} {b b' : List Char} (hlength : l.length = l'.length)
    (hne : l ≠ []) (hl : ∀ s ∈ l, ',' ∉ s) (hl' : ∀ s ∈ l', ',' ∉ s)
    (h : [',', ' '].intercalate l ++ ',' :: b = [',', ' '].intercalate l' ++ ',' :: b') :
    l = l' ∧ b = b' := by
  induction l generalizing l' with
  | nil => exact absurd rfl hne
  | cons s l ih =>
    cases l' with
    | nil => cases hlength
    | cons s' l' =>
      have hs := hl s List.mem_cons_self
      have hs' := hl' s' List.mem_cons_self
      cases l with
      | nil =>
        cases l' with
        | nil =>
          simp only [List.intercalate_singleton] at h
          obtain ⟨rfl, hrest⟩ := eq_of_append_cons hs hs' h
          exact ⟨rfl, hrest⟩
        | cons t' l' => cases hlength
      | cons t l =>
        cases l' with
        | nil => cases hlength
        | cons t' l' =>
          simp only [List.intercalate_cons_cons, List.append_assoc, List.cons_append, List.nil_append] at h
          obtain ⟨rfl, htail⟩ := eq_of_append_cons hs hs' h
          obtain ⟨heq, hrest⟩ := ih (by simpa using hlength) (by simp)
            (fun s hs => hl s (List.mem_cons_of_mem _ hs)) (fun s hs => hl' s (List.mem_cons_of_mem _ hs))
            (List.cons.inj htail).2
          exact ⟨by rw [heq], hrest⟩

theorem not_mem_intercalate {x : Char} {sep : String} {l : List String}
    (hsep : x ∉ sep.toList) (hl : ∀ s ∈ l, x ∉ s.toList) : x ∉ (sep.intercalate l).toList := by
  induction l with
  | nil => simp
  | cons a l ih =>
    have ha := hl a (by simp)
    cases l with
    | nil => simpa using ha
    | cons b l =>
      have := ih fun s hs => hl s (by simp [hs])
      simp only [String.intercalate_cons_cons, String.toList_append, List.mem_append, not_or]
      exact ⟨⟨ha, hsep⟩, this⟩

section

variable {α : Type} {text : α → String} {stops : List Char} {same : α → α → Prop} {a a' : α}

/-- Two items that are written alike before something that can follow are the same, and so is what
follows. -/
def ReadAlike (text : α → String) (stops : List Char) (same : α → α → Prop) (a a' : α) : Prop :=
  ∀ ⦃b b' : List Char⦄, Follows stops b → Follows stops b' →
    (text a).toList ++ b = (text a').toList ++ b' → same a a' ∧ b = b'

/-- Items whose characters what follows does not begin with are told by their texts. -/
theorem ReadAlike.of_all {p : Char → Bool} (hstops : ∀ c ∈ stops, p c = false)
    (ha : ∀ c ∈ (text a).toList, p c = true) (ha' : ∀ c ∈ (text a').toList, p c = true)
    (hsame : text a = text a' → same a a') : ReadAlike text stops same a a' := by
  intro b b' hb hb' h
  obtain ⟨htext, hrest⟩ := eq_of_append_of_all hstops ha ha' hb hb' h
  exact ⟨hsame (String.toList_inj.mp htext), hrest⟩

theorem ReadAlike.imp {same' : α → α → Prop} (h : ReadAlike text stops same a a')
    (himp : same a a' → same' a a') : ReadAlike text stops same' a a' := by
  intro b b' hb hb' heq
  obtain ⟨hsame, hrest⟩ := h hb hb' heq
  exact ⟨himp hsame, hrest⟩

theorem ReadAlike.after (opening : String) (h : ReadAlike text stops same a a') :
    ReadAlike (fun a => opening ++ text a) stops same a a' := by
  intro b b' hb hb' heq
  simp only [String.toList_append, List.append_assoc, List.append_cancel_left_eq] at heq
  exact h hb hb' heq

/-- Two parts with a text between them that can follow the first one. -/
theorem ReadAlike.pair {β γ : Type} {text' : β → String} {stops' : List Char} {same' : β → β → Prop}
    {f : γ → α} {g : γ → β} {x y : γ} (between : String) (hne : between.toList ≠ [])
    (hfollows : Follows stops between.toList) (h : ReadAlike text stops same (f x) (f y))
    (h' : ReadAlike text' stops' same' (g x) (g y)) :
    ReadAlike (fun x => text (f x) ++ between ++ text' (g x)) stops'
      (fun x y => same (f x) (f y) ∧ same' (g x) (g y)) x y := by
  have follows : ∀ b, Follows stops (between.toList ++ b) := by
    intro b
    cases hbetween : between.toList with
    | nil => exact absurd hbetween hne
    | cons c cs => exact follows_cons _ (hfollows c (by rw [hbetween]; rfl))
  intro b b' hb hb' heq
  simp only [String.toList_append, List.append_assoc] at heq
  obtain ⟨hsame, heq⟩ := h (follows _) (follows _) heq
  obtain ⟨hsame', hrest⟩ := h' hb hb' (List.append_cancel_left heq)
  exact ⟨⟨hsame, hsame'⟩, hrest⟩

/-- What is enclosed can be followed by anything if it can be followed by the closing character. -/
theorem ReadAlike.enclosed {closes : Char} (opening closing : String) (hclosing : closing.toList = [closes])
    (h : ReadAlike text [closes] same a a') (stops : List Char) :
    ReadAlike (fun a => opening ++ text a ++ closing) stops same a a' := by
  intro b b' _ _ heq
  simp only [String.toList_append, hclosing, List.append_assoc, List.append_cancel_left_eq,
    List.singleton_append] at heq
  obtain ⟨hsame, hrest⟩ := h (follows_cons b (by simp)) (follows_cons b' (by simp)) heq
  exact ⟨hsame, (List.cons.inj hrest).2⟩

/-- What stands after the first of some items that are separated by commas. -/
def afterFirst : List (List Char) → List Char
  | [] => []
  | a :: l => ',' :: ' ' :: [',', ' '].intercalate (a :: l)

theorem intercalate_cons (a : List Char) (l : List (List Char)) :
    [',', ' '].intercalate (a :: l) = a ++ afterFirst l := by
  cases l with
  | nil => simp [afterFirst]
  | cons b l => simp [afterFirst, List.intercalate_cons_cons]

theorem toList_intercalate_map (l : List α) :
    (", ".intercalate (l.map text)).toList = [',', ' '].intercalate (l.map fun a => (text a).toList) := by
  rw [String.toList_intercalate, List.map_map]
  rfl

/-- Items that can be read one by one can be read in sequence, separated by commas, up to a character
with which no item begins. -/
theorem ReadAlike.sequence (closes : List Char) (hcomma : ',' ∈ stops) (hcloses : closes ⊆ stops)
    (hnot : ',' ∉ closes) {l l' : List α} (hread : ∀ a ∈ l, ∀ a' ∈ l', ReadAlike text stops same a a')
    (hopen : ∀ a ∈ l, ∀ b, ¬Follows closes ((text a).toList ++ b))
    (hopen' : ∀ a ∈ l', ∀ b, ¬Follows closes ((text a).toList ++ b)) :
    ReadAlike (fun l => ", ".intercalate (l.map text)) closes (List.Forall₂ same) l l' := by
  intro b b' hb hb' h
  simp only [toList_intercalate_map] at h
  have follows : ∀ {l : List α} {b : List Char}, Follows closes b →
      Follows stops (afterFirst (l.map fun a => (text a).toList) ++ b) := by
    intro l b hb
    cases l with
    | nil => exact hb.mono hcloses
    | cons a l => exact follows_cons _ hcomma
  -- on the items of the left list
  induction l generalizing l' with
  | nil =>
    cases l' with
    | nil => exact ⟨.nil, by simpa using h⟩
    | cons a' l' =>
      rw [List.map_cons, intercalate_cons, List.append_assoc] at h
      simp only [List.map_nil, List.intercalate_nil, List.nil_append] at h
      exact absurd (h ▸ hb) (hopen' a' List.mem_cons_self _)
  | cons a l ih =>
    cases l' with
    | nil =>
      rw [List.map_cons, intercalate_cons, List.append_assoc] at h
      simp only [List.map_nil, List.intercalate_nil, List.nil_append] at h
      exact absurd (h ▸ hb') (hopen a List.mem_cons_self _)
    | cons a' l' =>
      simp only [List.map_cons, intercalate_cons, List.append_assoc] at h
      obtain ⟨hsame, hrest⟩ := hread a List.mem_cons_self a' List.mem_cons_self (follows hb) (follows hb') h
      cases l with
      | nil =>
        cases l' with
        | nil => exact ⟨.cons hsame .nil, hrest⟩
        | cons c' l' =>
          simp only [List.map_nil, List.map_cons, afterFirst, List.nil_append, List.cons_append] at hrest
          exact absurd (hrest ▸ hb) (not_follows_cons _ hnot)
      | cons c l =>
        cases l' with
        | nil =>
          simp only [List.map_nil, List.map_cons, afterFirst, List.nil_append, List.cons_append] at hrest
          exact absurd (hrest ▸ hb') (not_follows_cons _ hnot)
        | cons c' l' =>
          simp only [List.map_cons, afterFirst, List.cons_append, List.cons.injEq, true_and] at hrest
          obtain ⟨hall, hend⟩ := ih (fun a ha a' ha' => hread a (List.mem_cons_of_mem _ ha) a'
            (List.mem_cons_of_mem _ ha')) (fun a ha => hopen a (List.mem_cons_of_mem _ ha))
            (fun a ha => hopen' a (List.mem_cons_of_mem _ ha)) hrest
          exact ⟨.cons hsame hall, hend⟩

/-- Lists are told by their texts if any two items are and no item begins with the closing character. -/
theorem ReadAlike.list {closes : Char} (hcomma : ',' ∈ stops) (hcloses : closes ∈ stops)
    (hnot : closes ≠ ',') {l l' : List α} (hread : ∀ a ∈ l, ∀ a' ∈ l', ReadAlike text stops Eq a a')
    (hopen : ∀ a b, ¬Follows [closes] ((text a).toList ++ b)) :
    ReadAlike (fun l => ", ".intercalate (l.map text)) [closes] Eq l l' := by
  have hsequence := ReadAlike.sequence [closes] hcomma (by simpa using hcloses) (by simpa using hnot.symm)
    hread (fun a _ => hopen a) fun a _ => hopen a
  rwa [List.forall₂_eq_eq_eq] at hsequence

theorem map_eq_of_forall₂ {β : Type} {f : α → β} {l l' : List α}
    (h : List.Forall₂ (fun a a' => f a = f a') l l') : l.map f = l'.map f := by
  induction h with
  | nil => rfl
  | cons h _ ih => rw [List.map_cons, List.map_cons, h, ih]

end

/-! ## Names -/

/-- A name without the characters that separate and close lists. -/
def isListable (name : String) : Bool := !name.toList.contains ',' && !name.toList.contains ']'

/-- The characters of such names. -/
def isListableChar (c : Char) : Bool := c != ',' && c != ']'

theorem isListable_iff {name : String} :
    isListable name = true ↔ ∀ c ∈ name.toList, isListableChar c = true := by
  simp only [isListable, isListableChar, Bool.and_eq_true, Bool.not_eq_true', List.contains_eq_mem,
    decide_eq_false_iff_not, bne_iff_ne]
  exact ⟨fun h c hc => ⟨fun heq => h.1 (heq ▸ hc), fun heq => h.2 (heq ▸ hc)⟩,
    fun h => ⟨fun hc => (h _ hc).1 rfl, fun hc => (h _ hc).2 rfl⟩⟩

/-- A list of names in brackets is told from what comes after the closing one. -/
theorem names_inj {names names' : List String} {b b' : List Char} (hne : names ≠ []) (hne' : names' ≠ [])
    (hall : ∀ n ∈ names, isListable n = true) (hall' : ∀ n ∈ names', isListable n = true)
    (h : (", ".intercalate names).toList ++ ']' :: b = (", ".intercalate names').toList ++ ']' :: b') :
    names = names' ∧ b = b' := by
  have listable : ∀ {l : List String}, (∀ n ∈ l, isListable n = true) →
      (∀ s ∈ l.map String.toList, ',' ∉ s) ∧ ']' ∉ (", ".intercalate l).toList := by
    intro l hl
    have hchars := fun n hn => isListable_iff.mp (hl n hn)
    refine ⟨?_, not_mem_intercalate (by decide) fun n hn hc => absurd (hchars n hn _ hc) (by decide)⟩
    intro s hs hc
    obtain ⟨n, hn, rfl⟩ := List.mem_map.mp hs
    exact absurd (hchars n hn _ hc) (by decide)
  obtain ⟨hcomma, hbracket⟩ := listable hall
  obtain ⟨hcomma', hbracket'⟩ := listable hall'
  obtain ⟨hnames, hrest⟩ := eq_of_append_cons hbracket hbracket' h
  rw [String.toList_intercalate, String.toList_intercalate] at hnames
  have hparts := intercalate_inj hcomma hcomma' (by simpa using hne) (by simpa using hne') hnames
  exact ⟨(List.map_injective_iff.mpr fun _ _ => String.toList_inj.mp) hparts, hrest⟩

/-! ## Numbers -/

theorem toList_toString_nat (n : Nat) : (toString n).toList = Nat.toDigits 10 n :=
  Nat.toList_repr

theorem toString_nat_ne_nil (n : Nat) : (toString n).toList ≠ [] := by
  rw [toList_toString_nat]
  exact Nat.toDigits_ne_nil

theorem toString_nat_inj {m n : Nat} (h : (toString m).toList = (toString n).toList) : m = n := by
  rw [toList_toString_nat, toList_toString_nat] at h
  have := congrArg (fun l => Nat.ofDigitChars 10 l 0) h
  simpa [Nat.ofDigitChars_toDigits] using this

theorem isDigit_of_mem_toString_nat {n : Nat} {c : Char} (h : c ∈ (toString n).toList) :
    c.isDigit = true := by
  rw [toList_toString_nat] at h
  exact Nat.isDigit_of_mem_toDigits (by decide) (by decide) h

theorem not_mem_toString_nat {x : Char} (hx : x.isDigit = false) (n : Nat) :
    x ∉ (toString n).toList := by
  intro h
  rw [isDigit_of_mem_toString_nat h] at hx
  cases hx

/-- A number is told from what comes after it if that does not begin with a digit. -/
theorem ReadAlike.nat (stops : List Char) (hstops : ∀ c ∈ stops, c.isDigit = false) (m n : Nat) :
    ReadAlike (toString : Nat → String) stops Eq m n :=
  .of_all hstops (fun _ => isDigit_of_mem_toString_nat) (fun _ => isDigit_of_mem_toString_nat)
    fun h => toString_nat_inj (by rw [h])

end QueryPlan.Text
