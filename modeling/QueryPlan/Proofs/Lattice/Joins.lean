import QueryPlan.Proofs.Execution.JoinLaws
import QueryPlan.Proofs.Expr.Equality
import QueryPlan.Proofs.Lattice.Matched
import QueryPlan.Proofs.Metadata.Orders
/-!
# Rows of joins of lattice tables

The rows of a plan that matches a lattice are read off the rows of its top table, those that lead to
every table of the match and pass its filters: `matchRows`. A join keeps this, since the equalities of
its step say that a row of one side leads to the row of the other side, and it leads to no second one.
-/
namespace QueryPlan

open OutcomeRow Execution

/-! ## Pairs of rows -/

section

variable {α β γ : Type}

/-- The pairs that a join makes of two lists. -/
def pairsOf (hit : α → β → Bool) (f : α → β → γ) (as : List α) (bs : List β) : List γ :=
  as.flatMap fun a => (bs.filter (hit a)).map (f a)

variable {hit : α → β → Bool} {f : α → β → γ} {as as' : List α} {bs bs' : List β}

theorem pairsOf_perm (has : as.Perm as') (hbs : bs.Perm bs') :
    (pairsOf hit f as bs).Perm (pairsOf hit f as' bs') :=
  (has.flatMap_right _).trans (List.Perm.flatMap_left _ fun _ _ => (hbs.filter _).map _)

/-- The sides of a join are interchangeable, up to the order of the pairs. -/
theorem pairsOf_swap (hit : α → β → Bool) (f : α → β → γ) (as : List α) (bs : List β) :
    (pairsOf hit f as bs).Perm (pairsOf (fun b a => hit a b) (fun b a => f a b) bs as) := by
  induction as with
  | nil =>
    unfold pairsOf
    simp
  | cons a as ih =>
    have hfirst : bs.flatMap (fun b => if hit a b then [f a b] else []) =
        (bs.filter (hit a)).map (f a) := by
      rw [← filter_flatMap_if, List.map_eq_flatMap]
    have hsplit : pairsOf (fun b a => hit a b) (fun b a => f a b) bs (a :: as) =
        bs.flatMap fun b => (if hit a b then [f a b] else []) ++
          (as.filter fun a => hit a b).map fun a => f a b := by
      refine List.flatMap_congr fun b _ => ?_
      dsimp only
      rw [List.filter_cons]
      cases hit a b <;> rfl
    rw [hsplit]
    refine List.Perm.trans ?_ (List.flatMap_append_perm bs _ _)
    rw [hfirst]
    exact ih.append_left _

theorem pairsOf_map {α' β' : Type} {hit : α' → β' → Bool} {f : α' → β' → γ} (g : α → α') (h : β → β') :
    pairsOf hit f (as.map g) (bs.map h) =
      pairsOf (fun a b => hit (g a) (h b)) (fun a b => f (g a) (h b)) as bs := by
  unfold pairsOf
  rw [List.flatMap_map]
  refine List.flatMap_congr fun a _ => ?_
  rw [List.filter_map, List.map_map]
  rfl

theorem pairsOf_congr {hit' : α → β → Bool} {f' : α → β → γ}
    (h : ∀ a ∈ as, ∀ b ∈ bs, hit a b = hit' a b ∧ f a b = f' a b) :
    pairsOf hit f as bs = pairsOf hit' f' as bs := by
  refine List.flatMap_congr fun a ha => ?_
  rw [List.filter_congr fun b hb => (h a ha b hb).1]
  exact List.map_congr_left fun b hb => (h a ha b (List.mem_of_mem_filter hb)).2

/-- A list with at most one element of a kind has the first one of them. -/
theorem filter_eq_toList_find? {p : α → Bool} (h : (as.filter p).length ≤ 1) :
    as.filter p = (as.find? p).toList := by
  rw [← List.head?_filter]
  match hs : as.filter p with
  | [] => rfl
  | [a] => rfl
  | a :: b :: rest =>
    rw [hs] at h
    simp at h

end

/-- Two values that equal a third one equal each other, unless they are integers and it is a double. -/
theorem Value.Equates.join {u v w : Value} (hv : u.Equates v) (hw : u.Equates w)
    (hintegers : ∀ d a b, u = .double d → v = .integer a → w = .integer b → a = b) : v.Equates w := by
  by_cases hleft : u.dataType = v.dataType
  · exact Value.eq_of_dataType hleft hv.2.2 ▸ hw
  by_cases hright : u.dataType = w.dataType
  · exact Value.eq_of_dataType hright hw.2.2 ▸ hv.symm
  -- both are numbers of the other kind than the third one
  refine ⟨hv.2.1, hw.2.1, ?_⟩
  have hleftOrder : Value.order u v = .eq := hv.2.2
  have hrightOrder : Value.order u w = .eq := hw.2.2
  cases u with
  | integer n =>
    cases v with
    | double d =>
      cases w with
      | double e =>
        rw [← Double.eq_of_order hleftOrder, ← Double.eq_of_order hrightOrder]
        exact Value.compare_self _
      | integer _ => exact absurd rfl hright
      | _ => cases hrightOrder
    | integer _ => exact absurd rfl hleft
    | _ => cases hleftOrder
  | double d =>
    cases v with
    | integer a =>
      cases w with
      | integer b =>
        rw [hintegers d a b rfl rfl rfl]
        exact Value.compare_self _
      | double _ => exact absurd rfl hright
      | _ => cases hrightOrder
    | double _ => exact absurd rfl hleft
    | _ => cases hleftOrder
  | null => cases hv.1
  | boolean _ =>
    cases v with
    | boolean _ => exact absurd rfl hleft
    | _ => cases hleftOrder
  | varchar _ =>
    cases v with
    | varchar _ => exact absurd rfl hleft
    | _ => cases hleftOrder

namespace Lattice

variable {l : Lattice}

/-- No step leads from a row to two rows. -/
def LeadsToOne (l : Lattice) : Prop :=
  ∀ i branch, l.branch? i = some branch → ∀ parent ∈ l.rowsAt branch.parent,
    ((l.rowsAt i).filter (leads branch.keys parent)).length ≤ 1

/-- Steps lead to unique keys: no two rows of a table agree on the columns that a step leads to. -/
def HasUniqueKeys (l : Lattice) : Prop :=
  ∀ i branch, l.branch? i = some branch → (l.rowsAt i).Pairwise fun r s =>
    ∃ key ∈ branch.keys, ¬ (r.valueAt key.2).Equates (s.valueAt key.2)

theorem dataType_valueAt {lacks : DataType} (hlacks : Value.SeparatesNumbers lacks) {row : Row}
    (h : ∀ v ∈ row, v.dataType ≠ lacks) (i : Nat) : (row.valueAt i).dataType ≠ lacks := by
  rw [Row.valueAt]
  cases hv : row[i]? with
  | none => rcases hlacks with rfl | rfl <;> exact fun h => by cases h
  | some v => exact h v (List.mem_of_getElem? hv)

/-- No double in a key column equals two integers in the column that it leads to. From 2 to the 53rd on,
doubles do equal several integers. -/
def SeparatesIntegers (l : Lattice) : Prop :=
  ∀ i branch, l.branch? i = some branch → ∀ key ∈ branch.keys, ∀ parent ∈ l.rowsAt branch.parent,
    ∀ r ∈ l.rowsAt i, ∀ s ∈ l.rowsAt i, ∀ d a b, parent.valueAt key.1 = .double d →
      r.valueAt key.2 = .integer a → s.valueAt key.2 = .integer b →
      (Value.double d).Equates (.integer a) → (Value.double d).Equates (.integer b) → a = b

/-- Where integers and doubles are not mixed, no double equals any integer. -/
theorem separatesIntegers_of_lacks {lacks : DataType} (hlacks : Value.SeparatesNumbers lacks)
    (hvalues : ∀ i, ∀ row ∈ l.rowsAt i, ∀ v ∈ row, v.dataType ≠ lacks) : l.SeparatesIntegers := by
  intro i branch _ key _ parent hparent r hr s _ d a b hd ha _ _ _
  have hdouble := dataType_valueAt hlacks (hvalues _ parent hparent) key.1
  have hinteger := dataType_valueAt hlacks (hvalues i r hr) key.2
  rw [hd] at hdouble
  rw [ha] at hinteger
  rcases hlacks with rfl | rfl
  · exact absurd rfl hinteger
  · exact absurd rfl hdouble

/-- Steps to unique keys lead to one row at most. -/
theorem HasUniqueKeys.leadsToOne (h : l.HasUniqueKeys) (hintegers : l.SeparatesIntegers) :
    l.LeadsToOne := by
  intro i branch hbranch parent hparent
  have hpairwise := (h i branch hbranch).filter (leads branch.keys parent)
  have hequates : ∀ row ∈ (l.rowsAt i).filter (leads branch.keys parent), row ∈ l.rowsAt i ∧
      ∀ key ∈ branch.keys, (parent.valueAt key.1).Equates (row.valueAt key.2) := by
    intro row hrow
    obtain ⟨hrow, hleads⟩ := List.mem_filter.mp hrow
    exact ⟨hrow, fun key hkey => of_decide_eq_true (List.all_eq_true.mp hleads key hkey)⟩
  cases hrows : (l.rowsAt i).filter (leads branch.keys parent) with
  | nil => exact Nat.zero_le 1
  | cons r rest =>
    cases rest with
    | nil => exact Nat.le_refl 1
    | cons s rest =>
      -- two rows that one row leads to agree on the keys
      rw [hrows] at hpairwise hequates
      obtain ⟨key, hkey, hdiffers⟩ := List.rel_of_pairwise_cons hpairwise List.mem_cons_self
      obtain ⟨hr, hparentR⟩ := hequates r List.mem_cons_self
      obtain ⟨hs, hparentS⟩ := hequates s (List.mem_cons_of_mem _ List.mem_cons_self)
      refine absurd ((hparentR key hkey).join (hparentS key hkey) fun d a b hd ha hb => ?_) hdiffers
      have hequalsA := hparentR key hkey
      have hequalsB := hparentS key hkey
      rw [hd, ha] at hequalsA
      rw [hd, hb] at hequalsB
      exact hintegers i branch hbranch key hkey parent hparent r hr s hs d a b hd ha hb hequalsA hequalsB

/-! ## Rows of a match -/

/-- What a row of one table stands for in the star table, nulls where it does not lead. -/
def starRow (l : Lattice) (top : Nat) (row : Row) : Row := layTo l.tables.length (l.along top row)

/-- The row leads to every table of a match and passes its filters. -/
def accepts (l : Lattice) (top : Nat) (m : StarMatch) (row : Row) : Bool :=
  m.tables.all (fun t => (l.reach top row t).isSome) &&
    m.filters.all (Expr.holdsOn (ofRow (l.starRow top row)))

/-- The rows that the plan of a match has, read off those of its top table. -/
def matchRows (l : Lattice) (top : Nat) (m : StarMatch) : List Row :=
  ((l.rowsAt top).filter (l.accepts top m)).map fun row => (l.starRow top row).select m.columns

/-- A match is about tables that hang together, its columns are theirs, and its filters are conjuncts
that cannot be taken apart. -/
structure Shaped (l : Lattice) (top : Nat) (m : StarMatch) : Prop where
  rooted : l.Rooted top m.tables
  columns_eq : m.columns = m.tables.flatMap l.columnsAt
  columns_read : ∀ e ∈ m.filters, ∀ i ∈ e.columnList, i ∈ m.columns
  conjuncts_eq : ∀ e ∈ m.filters, e.conjuncts = [e]

theorem accepts_iff {top : Nat} {m : StarMatch} {row : Row} : l.accepts top m row = true ↔
    (∀ t ∈ m.tables, (l.reach top row t).isSome = true) ∧
      ∀ e ∈ m.filters, e.holdsOn (ofRow (l.starRow top row)) = true := by
  rw [accepts, Bool.and_eq_true, List.all_eq_true, List.all_eq_true]

theorem length_starRow (hwidths : l.StoresWidths) {top : Nat} {row : Row} (hrow : row ∈ l.rowsAt top) :
    (l.starRow top row).length = l.start l.tables.length :=
  length_layTo fun i _ => length_along hwidths hrow i

theorem Shaped.lt_start {top : Nat} {m : StarMatch} (h : l.Shaped top m) :
    ∀ i ∈ m.columns, i < l.start l.tables.length := by
  rw [h.columns_eq]
  exact fun i hi => lt_start_of_mem h.rooted.lt_length hi

/-! ## One step of a join -/

/-- A join over a step: one side has the parent, the other one is below the step, and the conjuncts of
the condition that remain without the keys of the step become filters. -/
structure JoinsAlong (l : Lattice) (top child : Nat) (above below both : StarMatch) (branch : Branch)
    (condition : Expr) (rest : List Expr) : Prop where
  hangs : l.Hangs top above.tables child below.tables branch
  shaped_above : l.Shaped top above
  shaped_below : l.Shaped child below
  beside : both = above.beside below ∨ both = below.beside above
  finds : ∃ e, both.toStar condition = some e ∧
    (withoutKeys (l.start branch.parent) (l.start child) branch.keys e.conjuncts).Finds rest

/-- A row of one side and one of the other side as a row of the star table. -/
def pairRow (l : Lattice) (above : StarMatch) (top child : Nat) (row target : Row) : Row :=
  layTo l.tables.length fun t =>
    if t ∈ above.tables then l.along top row t else l.along child target t

namespace JoinsAlong

variable {top child : Nat} {above below both : StarMatch} {branch : Branch} {condition : Expr}
  {rest : List Expr} (h : l.JoinsAlong top child above below both branch condition rest)

include h

theorem mem_tables (t : Nat) : t ∈ both.tables ↔ t ∈ above.tables ∨ t ∈ below.tables := by
  rcases h.beside with rfl | rfl
  · exact List.mem_append
  · exact List.mem_append.trans or_comm

theorem mem_columns (i : Nat) : i ∈ both.columns ↔ i ∈ above.columns ∨ i ∈ below.columns := by
  rcases h.beside with rfl | rfl
  · exact List.mem_append
  · exact List.mem_append.trans or_comm

theorem mem_filters (e : Expr) : e ∈ both.filters ↔ e ∈ above.filters ∨ e ∈ below.filters := by
  rcases h.beside with rfl | rfl
  · exact List.mem_append
  · exact List.mem_append.trans or_comm

theorem columns_eq : both.columns = both.tables.flatMap l.columnsAt := by
  rcases h.beside with rfl | rfl
  · exact (congrArg₂ _ h.shaped_above.columns_eq h.shaped_below.columns_eq).trans
      List.flatMap_append.symm
  · exact (congrArg₂ _ h.shaped_below.columns_eq h.shaped_above.columns_eq).trans
      List.flatMap_append.symm

theorem rest_read {e : Expr} (he : e ∈ rest) :
    (∀ i ∈ e.columnList, i ∈ both.columns) ∧ e.conjuncts = [e] := by
  obtain ⟨k, hstar, hrest⟩ := h.finds
  have he := (withoutKeys_finds hrest []).1 he
  exact ⟨fun i hi => StarMatch.columnList_toStar hstar i (Expr.columnList_of_mem_conjuncts he i hi),
    Expr.conjuncts_of_mem_conjuncts he⟩

/-- A join over a step is a match below the top of its upper side. -/
theorem shaped : l.Shaped top { both with filters := both.filters ++ rest } where
  rooted := h.hangs.rooted h.mem_tables
  columns_eq := h.columns_eq
  columns_read e he i hi := by
    rcases List.mem_append.mp he with he | he
    · rw [h.mem_columns]
      exact ((h.mem_filters e).mp he).imp (fun he => h.shaped_above.columns_read e he i hi)
        fun he => h.shaped_below.columns_read e he i hi
    · exact (h.rest_read he).1 i hi
  conjuncts_eq e he := by
    rcases List.mem_append.mp he with he | he
    · exact ((h.mem_filters e).mp he).elim (h.shaped_above.conjuncts_eq e)
        (h.shaped_below.conjuncts_eq e)
    · exact (h.rest_read he).2

section

variable (hwidths : l.StoresWidths) {row target : Row} (hrow : row ∈ l.rowsAt top)
  (htarget : target ∈ l.rowsAt child)

include hwidths hrow htarget

omit h in
theorem length_sides (above : StarMatch) : ∀ i < l.tables.length,
    (if i ∈ above.tables then l.along top row i else l.along child target i).length =
      l.arityAt i := by
  intro i _
  split
  · exact length_along hwidths hrow i
  · exact length_along hwidths htarget i

omit h in
theorem length_pairRow :
    (l.pairRow above top child row target).length = l.start l.tables.length :=
  length_layTo (length_sides hwidths hrow htarget above)

theorem pairRow_above {i : Nat} (hi : i ∈ above.columns) :
    (l.pairRow above top child row target)[i]? = (l.starRow top row)[i]? :=
  getElem?_layTo_congr (length_sides hwidths hrow htarget above) (fun i _ => length_along hwidths hrow i)
    h.shaped_above.rooted.lt_length (fun _ ht => if_pos ht) (h.shaped_above.columns_eq ▸ hi)

theorem pairRow_below {i : Nat} (hi : i ∈ below.columns) :
    (l.pairRow above top child row target)[i]? = (l.starRow child target)[i]? :=
  getElem?_layTo_congr (length_sides hwidths hrow htarget above)
    (fun i _ => length_along hwidths htarget i) h.shaped_below.rooted.lt_length
    (fun t ht => if_neg fun hmem => h.hangs.disjoint t hmem ht) (h.shaped_below.columns_eq ▸ hi)

theorem select_above : (l.starRow top row).select above.columns =
    (l.pairRow above top child row target).select above.columns :=
  Row.select_congr fun _ hi => (h.pairRow_above hwidths hrow htarget hi).symm

theorem select_below : (l.starRow child target).select below.columns =
    (l.pairRow above top child row target).select below.columns :=
  Row.select_congr fun _ hi => (h.pairRow_below hwidths hrow htarget hi).symm

/-- The row that is reached through the step stands at the same columns. -/
theorem starRow_below (hl : l.Formed) (hreach : l.reach top row child = some target) {i : Nat}
    (hi : i ∈ below.columns) : (l.starRow top row)[i]? = (l.starRow child target)[i]? := by
  refine getElem?_layTo_congr (fun i _ => length_along hwidths hrow i)
    (fun i _ => length_along hwidths htarget i) h.shaped_below.rooted.lt_length (fun t ht => ?_)
    (h.shaped_below.columns_eq ▸ hi)
  rw [along, along, h.hangs.reach_eq hl hreach ht]

theorem pairRow_reached (hl : l.Formed) (hreach : l.reach top row child = some target) {i : Nat}
    (hi : i ∈ both.columns) :
    (l.pairRow above top child row target)[i]? = (l.starRow top row)[i]? := by
  rcases (h.mem_columns i).mp hi with hi | hi
  · exact h.pairRow_above hwidths hrow htarget hi
  · rw [h.pairRow_below hwidths hrow htarget hi, h.starRow_below hwidths hrow htarget hl hreach hi]

/-- The equalities of the keys say that one row leads to the other one. -/
theorem all_keys_eq (hl : l.Formed) :
    (branch.keys.all fun key => decide
      (((l.pairRow above top child row target).valueAt (l.start branch.parent + key.1)).Equates
        ((l.pairRow above top child row target).valueAt (l.start child + key.2)))) =
      leads branch.keys (l.along top row branch.parent) target := by
  refine all_congr fun key hkey => ?_
  obtain ⟨hsource, htargetKey⟩ := hl.keys_lt child branch h.hangs.branch_eq key hkey
  have hsides := length_sides hwidths hrow htarget above
  have hparent := getElem?_layTo hsides (h.shaped_above.rooted.lt_length _ h.hangs.parent_mem) hsource
  have hchild := getElem?_layTo hsides
    (h.shaped_below.rooted.lt_length _ h.shaped_below.rooted.top_mem) htargetKey
  rw [if_pos h.hangs.parent_mem] at hparent
  rw [if_neg fun hmem => h.hangs.disjoint child hmem h.shaped_below.rooted.top_mem,
    along_self] at hchild
  rw [Row.valueAt, Row.valueAt, pairRow, hparent, hchild]
  rfl

/-- A pair of rows meets the condition if one leads to the other and they pass what remains. -/
theorem holdsOn_pairRow (hl : l.Formed) (hsplits : condition.splitsOn
      (ofRow ((l.pairRow above top child row target).select both.columns)) = true) :
    condition.holdsOn (ofRow ((l.pairRow above top child row target).select both.columns)) =
      (leads branch.keys (l.along top row branch.parent) target &&
        rest.all (Expr.holdsOn (ofRow (l.pairRow above top child row target)))) := by
  obtain ⟨e, hstar, hrest⟩ := h.finds
  have hcolumns : ∀ i ∈ both.columns, i < (l.pairRow above top child row target).length := by
    rw [length_pairRow hwidths hrow htarget]
    exact h.shaped.lt_start
  rw [← StarMatch.all_conjuncts_toStar hstar hcolumns hsplits, (withoutKeys_finds hrest _).2,
    h.all_keys_eq hwidths hrow htarget hl]

/-- With the row that it reaches through the step, a row leads to all tables of the join. -/
theorem accepts_iff_of_reach (hl : l.Formed) (hreach : l.reach top row child = some target) :
    l.accepts top { both with filters := both.filters ++ rest } row = true ↔
      l.accepts top above row = true ∧ l.accepts child below target = true ∧
        rest.all (Expr.holdsOn (ofRow (l.pairRow above top child row target))) = true := by
  have hlength := length_starRow hwidths hrow
  have hbelow : ∀ e ∈ below.filters, e.holdsOn (ofRow (l.starRow top row)) =
      e.holdsOn (ofRow (l.starRow child target)) := fun e he =>
    Expr.holdsOn_ofRow_congr (hlength.trans (length_starRow hwidths htarget).symm) fun i hi =>
      h.starRow_below hwidths hrow htarget hl hreach (h.shaped_below.columns_read e he i hi)
  have hrest : ∀ e ∈ rest, e.holdsOn (ofRow (l.starRow top row)) =
      e.holdsOn (ofRow (l.pairRow above top child row target)) := fun e he =>
    Expr.holdsOn_ofRow_congr (hlength.trans (length_pairRow hwidths hrow htarget).symm) fun i hi =>
      (h.pairRow_reached hwidths hrow htarget hl hreach ((h.rest_read he).1 i hi)).symm
  rw [accepts_iff, accepts_iff, accepts_iff, List.all_eq_true]
  constructor
  · rintro ⟨htables, hfilters⟩
    refine ⟨⟨fun t ht => htables t ((h.mem_tables t).mpr (.inl ht)), fun e he => ?_⟩,
      ⟨fun t ht => ?_, fun e he => ?_⟩, fun e he => ?_⟩
    · exact hfilters e (List.mem_append_left _ ((h.mem_filters e).mpr (.inl he)))
    · rw [← h.hangs.reach_eq hl hreach ht]
      exact htables t ((h.mem_tables t).mpr (.inr ht))
    · rw [← hbelow e he]
      exact hfilters e (List.mem_append_left _ ((h.mem_filters e).mpr (.inr he)))
    · rw [← hrest e he]
      exact hfilters e (List.mem_append_right _ he)
  · rintro ⟨⟨habove, hfilters⟩, ⟨hreached, hfilters'⟩, hremain⟩
    refine ⟨fun t ht => ?_, fun e he => ?_⟩
    · rcases (h.mem_tables t).mp ht with ht | ht
      · exact habove t ht
      · rw [h.hangs.reach_eq hl hreach ht]
        exact hreached t ht
    · rcases List.mem_append.mp he with he | he
      · rcases (h.mem_filters e).mp he with he | he
        · exact hfilters e he
        · rw [hbelow e he]
          exact hfilters' e he
      · rw [hrest e he]
        exact hremain e he

end

/-- A row that is accepted makes one pair with the row that it leads to, if the join accepts it. -/
theorem pairs_of_row (hl : l.Formed) (hwidths : l.StoresWidths) (hone : l.LeadsToOne) {row : Row}
    (hrow : row ∈ l.rowsAt top) (haccepts : l.accepts top above row = true)
    (hsplits : ∀ target ∈ l.rowsAt child, l.accepts child below target = true →
      condition.splitsOn
        (ofRow ((l.pairRow above top child row target).select both.columns)) = true) :
    (((l.rowsAt child).filter (l.accepts child below)).filter fun target =>
        condition.holdsOn (ofRow ((l.pairRow above top child row target).select both.columns))).map
          (fun target => (l.pairRow above top child row target).select both.columns) =
      if l.accepts top { both with filters := both.filters ++ rest } row then
        [(l.starRow top row).select both.columns]
      else [] := by
  have hparent := (accepts_iff.mp haccepts).1 _ h.hangs.parent_mem
  have hparentRow : l.along top row branch.parent ∈ l.rowsAt branch.parent := by
    obtain ⟨parent, hreach⟩ := Option.isSome_iff_exists.mp hparent
    rw [along_eq hreach]
    exact reach_mem hrow hreach
  have hhits : ((l.rowsAt child).filter (l.accepts child below)).filter (fun target =>
      condition.holdsOn (ofRow ((l.pairRow above top child row target).select both.columns))) =
      (l.reach top row child).toList.filter fun target => l.accepts child below target &&
        rest.all (Expr.holdsOn (ofRow (l.pairRow above top child row target))) := by
    rw [h.hangs.reach_child hl hparent,
      ← filter_eq_toList_find? (hone child branch h.hangs.branch_eq _ hparentRow),
      List.filter_filter, List.filter_filter]
    refine List.filter_congr fun target htarget => ?_
    cases hbelow : l.accepts child below target with
    | false => rw [Bool.and_false, Bool.false_and, Bool.false_and]
    | true =>
      rw [h.holdsOn_pairRow hwidths hrow htarget hl (hsplits target htarget hbelow),
        Bool.and_true, Bool.true_and, Bool.and_comm]
  rw [hhits]
  cases hreach : l.reach top row child with
  | none =>
    rw [if_neg]
    · rfl
    · intro hall
      have hchild := (accepts_iff.mp hall).1 child
        ((h.mem_tables child).mpr (.inr h.shaped_below.rooted.top_mem))
      rw [hreach] at hchild
      cases hchild
  | some target =>
    have htarget := reach_mem hrow hreach
    have hiff := h.accepts_iff_of_reach hwidths hrow htarget hl hreach
    have hselect : (l.pairRow above top child row target).select both.columns =
        (l.starRow top row).select both.columns :=
      Row.select_congr fun i hi => h.pairRow_reached hwidths hrow htarget hl hreach hi
    have hjoined : (l.accepts child below target &&
        rest.all (Expr.holdsOn (ofRow (l.pairRow above top child row target)))) =
        l.accepts top { both with filters := both.filters ++ rest } row := by
      rw [Bool.eq_iff_iff, Bool.and_eq_true, hiff, and_iff_right haccepts]
    rw [Option.toList_some, List.filter_singleton, hjoined, ← hselect]
    cases l.accepts top { both with filters := both.filters ++ rest } row <;> rfl

/-- The pairs that a join over a step makes are the rows of its match. -/
theorem pairsOf_eq (hl : l.Formed) (hwidths : l.StoresWidths) (hone : l.LeadsToOne)
    (hsplits : ∀ row ∈ l.rowsAt top, l.accepts top above row = true →
      ∀ target ∈ l.rowsAt child, l.accepts child below target = true → condition.splitsOn
        (ofRow ((l.pairRow above top child row target).select both.columns)) = true) :
    pairsOf (fun row target => condition.holdsOn
        (ofRow ((l.pairRow above top child row target).select both.columns)))
      (fun row target => (l.pairRow above top child row target).select both.columns)
      ((l.rowsAt top).filter (l.accepts top above)) ((l.rowsAt child).filter (l.accepts child below)) =
      l.matchRows top { both with filters := both.filters ++ rest } := by
  have habove : ∀ row, l.accepts top { both with filters := both.filters ++ rest } row = true →
      l.accepts top above row = true := by
    intro row hall
    obtain ⟨htables, hfilters⟩ := accepts_iff.mp hall
    exact accepts_iff.mpr ⟨fun t ht => htables t ((h.mem_tables t).mpr (.inl ht)), fun e he =>
      hfilters e (List.mem_append_left _ ((h.mem_filters e).mpr (.inl he)))⟩
  have hrows : (l.rowsAt top).filter (l.accepts top { both with filters := both.filters ++ rest }) =
      ((l.rowsAt top).filter (l.accepts top above)).filter
        (l.accepts top { both with filters := both.filters ++ rest }) := by
    rw [List.filter_filter]
    refine List.filter_congr fun row _ => ?_
    rw [Bool.eq_iff_iff, Bool.and_eq_true, iff_self_and]
    exact habove row
  rw [matchRows, hrows, List.map_eq_flatMap, filter_flatMap_if]
  refine List.flatMap_congr fun row hrow => ?_
  obtain ⟨hrow, haccepts⟩ := List.mem_filter.mp hrow
  exact h.pairs_of_row hl hwidths hone hrow haccepts (hsplits row hrow haccepts)

end JoinsAlong

/-! ## Joins -/

theorem mem_matchRows {top : Nat} {m : StarMatch} {row : Row} (hrow : row ∈ l.rowsAt top)
    (haccepts : l.accepts top m row = true) :
    (l.starRow top row).select m.columns ∈ l.matchRows top m :=
  List.mem_map_of_mem (List.mem_filter.mpr ⟨hrow, haccepts⟩)

/-- The two ways in which the sides of a join can lie on a step. -/
theorem joinsAlong_of_joinMatch {leftTop rightTop : Nat} {left right m : StarMatch} {condition : Expr}
    (hleft : l.Shaped leftTop left) (hright : l.Shaped rightTop right)
    (hfinds : (l.joinMatch left right condition).Finds m) :
    ∃ branch rest, m = { left.beside right with filters := (left.beside right).filters ++ rest } ∧
      (l.JoinsAlong leftTop rightTop left right (left.beside right) branch condition rest ∨
        l.JoinsAlong rightTop leftTop right left (left.beside right) branch condition rest) := by
  simp only [joinMatch, Matching.finds_bind, Matching.finds_require, Matching.finds_ofOption,
    Matching.finds_pure] at hfinds
  obtain ⟨_, hdisjoint, e, hstar, ⟨child, branch⟩, hcross, rest, hrest, rfl⟩ := hfinds
  have hdisjoint : ∀ t ∈ left.tables, t ∉ right.tables := by simpa using hdisjoint
  refine ⟨branch, rest, rfl, ?_⟩
  rcases hangs_of_crossing? hleft.rooted hright.rooted hdisjoint hcross with
    ⟨rfl, hhangs⟩ | ⟨rfl, hhangs⟩
  · exact .inl ⟨hhangs, hleft, hright, .inl rfl, e, hstar, hrest⟩
  · exact .inr ⟨hhangs, hright, hleft, .inr rfl, e, hstar, hrest⟩

/-- A join of two plans that match is a plan that matches, and has the rows of its match. -/
theorem pairsOf_perm_matchRows (hl : l.Formed) (hwidths : l.StoresWidths) (hone : l.LeadsToOne)
    {leftTop rightTop : Nat} {left right m : StarMatch} {condition : Expr} {lefts rights : List Row}
    (hleft : l.Shaped leftTop left) (hright : l.Shaped rightTop right)
    (hfinds : (l.joinMatch left right condition).Finds m)
    (hlefts : lefts.Perm (l.matchRows leftTop left))
    (hrights : rights.Perm (l.matchRows rightTop right))
    (hsplits : ∀ a ∈ lefts, ∀ b ∈ rights, condition.splitsOn (ofRow (a ++ b)) = true) :
    ∃ top, l.Shaped top m ∧ (pairsOf (fun a b => condition.holdsOn (ofRow (a ++ b))) (· ++ ·)
      lefts rights).Perm (l.matchRows top m) := by
  obtain ⟨branch, rest, rfl, hside⟩ := joinsAlong_of_joinMatch hleft hright hfinds
  have hsplits : ∀ a ∈ l.rowsAt leftTop, l.accepts leftTop left a = true →
      ∀ b ∈ l.rowsAt rightTop, l.accepts rightTop right b = true → condition.splitsOn
        (ofRow ((l.starRow leftTop a).select left.columns ++
          (l.starRow rightTop b).select right.columns)) = true := fun a ha haccepts b hb haccepts' =>
    hsplits _ (hlefts.mem_iff.mpr (mem_matchRows ha haccepts)) _
      (hrights.mem_iff.mpr (mem_matchRows hb haccepts'))
  have hpairs : (pairsOf (fun a b => condition.holdsOn (ofRow (a ++ b))) (· ++ ·) lefts rights).Perm _ :=
    pairsOf_perm hlefts hrights
  rw [matchRows, matchRows, pairsOf_map] at hpairs
  rcases hside with h | h
  · have hselect : ∀ a ∈ l.rowsAt leftTop, ∀ b ∈ l.rowsAt rightTop,
        (l.starRow leftTop a).select left.columns ++ (l.starRow rightTop b).select right.columns =
          (l.pairRow left leftTop rightTop a b).select (left.beside right).columns := by
      intro a ha b hb
      rw [h.select_above hwidths ha hb, h.select_below hwidths ha hb]
      exact List.map_append.symm
    refine ⟨leftTop, h.shaped, hpairs.trans (.of_eq ?_)⟩
    rw [← h.pairsOf_eq hl hwidths hone fun a ha haccepts b hb haccepts' => by
      rw [← hselect a ha b hb]
      exact hsplits a ha haccepts b hb haccepts']
    refine pairsOf_congr fun a ha b hb => ?_
    rw [hselect a (List.mem_of_mem_filter ha) b (List.mem_of_mem_filter hb)]
    exact ⟨rfl, rfl⟩
  · have hselect : ∀ a ∈ l.rowsAt leftTop, ∀ b ∈ l.rowsAt rightTop,
        (l.starRow leftTop a).select left.columns ++ (l.starRow rightTop b).select right.columns =
          (l.pairRow right rightTop leftTop b a).select (left.beside right).columns := by
      intro a ha b hb
      rw [h.select_above hwidths hb ha, h.select_below hwidths hb ha]
      exact List.map_append.symm
    refine ⟨rightTop, h.shaped, hpairs.trans ((pairsOf_swap _ _ _ _).trans (.of_eq ?_))⟩
    rw [← h.pairsOf_eq hl hwidths hone fun b hb haccepts a ha haccepts' => by
      rw [← hselect a ha b hb]
      exact hsplits a ha haccepts' b hb haccepts]
    refine pairsOf_congr fun b hb a ha => ?_
    rw [hselect a (List.mem_of_mem_filter ha) b (List.mem_of_mem_filter hb)]
    exact ⟨rfl, rfl⟩

/-! ## Scans and filters -/

theorem shaped_scan {i : Nat} (hi : i < l.tables.length) : l.Shaped i ⟨[i], l.columnsAt i, []⟩ where
  rooted := .singleton hi
  columns_eq := (List.flatMap_singleton _ _).symm
  columns_read _ he := by cases he
  conjuncts_eq _ he := by cases he

/-- The match of a single table has its rows. -/
theorem matchRows_scan (hwidths : l.StoresWidths) {i : Nat} (hi : i < l.tables.length) :
    l.matchRows i ⟨[i], l.columnsAt i, []⟩ = l.rowsAt i := by
  have haccepts : ∀ row, l.accepts i ⟨[i], l.columnsAt i, []⟩ row = true := by
    refine fun row => accepts_iff.mpr ⟨fun t ht => ?_, fun e he => by cases he⟩
    rw [List.mem_singleton.mp ht, reach_self]
    rfl
  rw [matchRows, List.filter_eq_self.mpr fun row _ => haccepts row]
  refine (List.map_congr_left fun row hrow => ?_).trans (List.map_id' _)
  exact (select_columnsAt (fun i _ => length_along hwidths hrow i) hi).trans (along_self l i row)

theorem Shaped.filter {top : Nat} {m : StarMatch} {condition e : Expr} (h : l.Shaped top m)
    (hstar : m.toStar condition = some e) :
    l.Shaped top { m with filters := m.filters ++ e.conjuncts } where
  rooted := h.rooted
  columns_eq := h.columns_eq
  columns_read k hk i hi := by
    rcases List.mem_append.mp hk with hk | hk
    · exact h.columns_read k hk i hi
    · exact StarMatch.columnList_toStar hstar i (Expr.columnList_of_mem_conjuncts hk i hi)
  conjuncts_eq k hk :=
    (List.mem_append.mp hk).elim (h.conjuncts_eq k) Expr.conjuncts_of_mem_conjuncts

/-- A filter keeps the rows that pass its conjuncts in terms of the star table. -/
theorem filter_matchRows (hwidths : l.StoresWidths) {top : Nat} {m : StarMatch} {condition e : Expr}
    (h : l.Shaped top m) (hstar : m.toStar condition = some e)
    (hsplits : ∀ row ∈ l.matchRows top m, condition.splitsOn (ofRow row) = true) :
    (l.matchRows top m).filter (condition.holdsOn <| ofRow ·) =
      l.matchRows top { m with filters := m.filters ++ e.conjuncts } := by
  rw [matchRows, matchRows, List.filter_map, List.filter_filter]
  refine congrArg _ (List.filter_congr fun row hrow => ?_)
  cases haccepts : l.accepts top m row with
  | false =>
    rw [accepts] at haccepts
    rw [Bool.and_false, accepts, List.all_append, ← Bool.and_assoc, haccepts, Bool.false_and]
  | true =>
    have hcolumns : ∀ i ∈ m.columns, i < (l.starRow top row).length := by
      rw [length_starRow hwidths hrow]
      exact h.lt_start
    rw [accepts] at haccepts
    rw [Bool.and_true, accepts, List.all_append, ← Bool.and_assoc, haccepts, Bool.true_and]
    exact (StarMatch.all_conjuncts_toStar hstar hcolumns
      (hsplits _ (mem_matchRows hrow haccepts))).symm

end Lattice

/-! ## Plans that match -/

namespace Cluster

/-- The condition at a node splits on the rows, or pairs of rows, that it is asked of. -/
def splitsAt (c : Cluster) (id : NodeId) : Bool :=
  let inputs := (c.inputs id).map c.ranRows
  let first := inputs[0]?.getD []
  let second := inputs[1]?.getD []
  match c.operator id with
  | .filter _ condition => first.all fun row => condition.splitsOn (ofRow row)
  | .join _ _ condition => first.all fun left => second.all fun right =>
      condition.splitsOn (ofRow (left ++ right))
  | _ => true

/-- The conjuncts of the conditions under a node have truth values. -/
def SplitsUnder (c : Cluster) (root : NodeId) : Prop := ∀ id, c.Under root id → c.splitsAt id = true

theorem SplitsUnder.of_all {c : Cluster} {root : NodeId} (hroot : root < c.size)
    (h : ∀ id < c.size, c.splitsAt id = true) : c.SplitsUnder root :=
  fun id hid => h id (hid.lt_size hroot)

end Cluster

namespace Lattice

variable {l : Lattice} {c : Cluster}

/-- A plan over the tables of a lattice: the tables that are scanned and go by the name of one of the
lattice are that table, joins return pairs, as logical ones do, and conjuncts have truth values. -/
structure PlansOver (l : Lattice) (c : Cluster) (root : NodeId) : Prop where
  scans : ∀ id, c.Under root id → ∀ convention table i, c.operator id = .scan convention table →
    l.position? table = some i → l.tables[i]? = some table
  pairs : ∀ id, c.Under root id → (c.operator id).kind ≠ .enumerableSemiJoin
  splits : c.SplitsUnder root

theorem PlansOver.of_all {root : NodeId} (hroot : root < c.size)
    (hscans : ∀ id < c.size, ∀ convention table i, c.operator id = .scan convention table →
      l.position? table = some i → l.tables[i]? = some table)
    (hpairs : ∀ id < c.size, (c.operator id).kind ≠ .enumerableSemiJoin)
    (hsplits : ∀ id < c.size, c.splitsAt id = true) : l.PlansOver c root where
  scans id hid := hscans id (hid.lt_size hroot)
  pairs id hid := hpairs id (hid.lt_size hroot)
  splits := .of_all hroot hsplits

theorem PlansOver.input {root j : NodeId} (h : l.PlansOver c root) (hj : j ∈ c.inputs root) :
    l.PlansOver c j := by
  have hunder : ∀ i, c.Under j i → c.Under root i := fun i hi => .trans (.input .root hj) hi
  exact ⟨fun i hi => h.scans i (hunder i hi), fun i hi => h.pairs i (hunder i hi),
    fun i hi => h.splits i (hunder i hi)⟩

theorem joined_inner (condition : Expr) (leftCount rightCount : Nat) (lefts rights : List Row) :
    joined .inner condition leftCount rightCount lefts rights =
      pairsOf (fun a b => condition.holdsOn (ofRow (a ++ b))) (· ++ ·) lefts rights := by
  have hmeets : ∀ a b, meets condition a b = condition.holdsOn (ofRow (a ++ b)) := fun a b => by
    rw [ofRow_append]
    rfl
  rw [joined, show JoinType.inner.padsLeft = false from rfl,
    show JoinType.inner.padsRight = false from rfl]
  simp only [Bool.false_and, Bool.false_eq_true, if_false, List.append_nil, pairsOf, ← hmeets]

theorem perm_of_filter (hwidths : l.StoresWidths) {id input : NodeId} {convention : Convention}
    {condition e : Expr} {top : Nat} {m : StarMatch} {rows : List Row}
    (hop : c.operator id = .filter convention condition) (hinputs : c.inputs id = [input])
    (hplan : l.PlansOver c id) (hstar : m.toStar condition = some e) (hm : l.Shaped top m)
    (hperm : (c.ranRows input).Perm (l.matchRows top m)) (hrows : c.Delivers id rows) :
    rows.Perm (l.matchRows top { m with filters := m.filters ++ e.conjuncts }) := by
  have hsplits := hplan.splits id .root
  obtain ⟨-, hown⟩ := hrows.operatorRows (by rw [hop]; rfl) (by rw [hop]; rfl)
  rw [hop, hinputs] at hown
  obtain ⟨-, rfl⟩ := filterRows_eq_ok_iff.mp hown
  rw [Cluster.splitsAt, hop, hinputs] at hsplits
  have hsplits : ∀ row ∈ c.ranRows input, condition.splitsOn (ofRow row) = true :=
    List.all_eq_true.mp hsplits
  rw [← filter_matchRows hwidths hm hstar fun row hrow => hsplits row (hperm.mem_iff.mpr hrow)]
  exact hperm.filter _

theorem perm_of_join (hl : l.Formed) (hwidths : l.StoresWidths) (hone : l.LeadsToOne)
    {id left right : NodeId} {algorithm : JoinAlgorithm} {condition : Expr} {leftTop rightTop : Nat}
    {leftMatch rightMatch m : StarMatch} {rows : List Row}
    (hop : c.operator id = .join algorithm .inner condition) (hinputs : c.inputs id = [left, right])
    (hplan : l.PlansOver c id) (hleft : l.Shaped leftTop leftMatch)
    (hright : l.Shaped rightTop rightMatch)
    (hfinds : (l.joinMatch leftMatch rightMatch condition).Finds m)
    (hlefts : (c.ranRows left).Perm (l.matchRows leftTop leftMatch))
    (hrights : (c.ranRows right).Perm (l.matchRows rightTop rightMatch))
    (hrows : c.Delivers id rows) : ∃ top, l.Shaped top m ∧ rows.Perm (l.matchRows top m) := by
  have hsplits := hplan.splits id .root
  have hpairs := hplan.pairs id .root
  obtain ⟨-, hown⟩ := hrows.operatorRows (by rw [hop]; rfl) (by rw [hop]; rfl)
  rw [hop, hinputs] at hown
  rw [Cluster.splitsAt, hop, hinputs] at hsplits
  rw [hop] at hpairs
  have hjoin : joinRows .inner condition (c.arity left) (c.arity right) (c.ranRows left)
      (c.ranRows right) = .ok rows := by
    cases algorithm with
    | semi => exact absurd rfl hpairs
    | _ => exact hown
  rw [joinRows_eq_joined hjoin, joined_inner]
  exact pairsOf_perm_matchRows hl hwidths hone hleft hright hfinds hlefts hrights fun a ha b hb =>
    List.all_eq_true.mp (List.all_eq_true.mp hsplits a ha) b hb

/-- The rows of a plan that matches are those of its match. -/
theorem perm_of_matches (hl : l.Formed) (hwidths : l.StoresWidths) (hone : l.LeadsToOne)
    {id : NodeId} {m : StarMatch} {rows : List Row} (hmatches : l.Matches c id m)
    (hplan : l.PlansOver c id) (hrows : c.Delivers id rows) :
    ∃ top, l.Shaped top m ∧ rows.Perm (l.matchRows top m) := by
  induction hmatches generalizing rows with
  | @scan id convention table i hop hposition =>
    have htable := hplan.scans id .root convention table i hop hposition
    obtain ⟨hi, -⟩ := List.getElem?_eq_some_iff.mp htable
    rw [← rowsAt_eq htable (hrows.of_scan hop)]
    exact ⟨i, shaped_scan hi, .of_eq (matchRows_scan hwidths hi).symm⟩
  | @filter id input convention condition e m hop hinputs _ hstar ih =>
    have hmem : input ∈ c.inputs id := hinputs ▸ List.mem_cons_self
    have hdel := (hrows.operatorRows (by rw [hop]; rfl) (by rw [hop]; rfl)).1 input hmem
    obtain ⟨top, hshaped, hperm⟩ := ih (hplan.input hmem) hdel
    exact ⟨top, hshaped.filter hstar,
      perm_of_filter hwidths hop hinputs hplan hstar hshaped hperm hrows⟩
  | @join id left right algorithm condition leftMatch rightMatch m hop hinputs _ _ hjoins ihl ihr =>
    have hmem : left ∈ c.inputs id := hinputs ▸ List.mem_cons_self
    have hmem' : right ∈ c.inputs id := hinputs ▸ List.mem_cons_of_mem _ List.mem_cons_self
    have hdel := (hrows.operatorRows (by rw [hop]; rfl) (by rw [hop]; rfl)).1
    obtain ⟨leftTop, hleftShaped, hlefts⟩ := ihl (hplan.input hmem) (hdel left hmem)
    obtain ⟨rightTop, hrightShaped, hrights⟩ := ihr (hplan.input hmem') (hdel right hmem')
    exact perm_of_join hl hwidths hone hop hinputs hplan hleftShaped hrightShaped hjoins hlefts hrights
      hrows

end Lattice

end QueryPlan
