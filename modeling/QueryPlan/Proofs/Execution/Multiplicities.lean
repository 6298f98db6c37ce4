import QueryPlan.Proofs.Execution.NodeRuns
import QueryPlan.Proofs.Metadata.Uniqueness
/-!
# How often set operations emit a row

A union, an intersection or a difference of any number of inputs is told by how often each row occurs in
these, where rows are counted as equal values, and by the rule that the earliest occurrences are emitted.
The loop over the other inputs keeps a tally of the rows of the first one; its invariant is that the number
of a row is what the rule of the operation leaves of its occurrences so far.
-/
namespace QueryPlan

/-! ## Equal rows -/

namespace Row

theorem same_self (a : Row) : a.same a = true :=
  same_iff.mpr (List.forall₂_same.mpr fun v _ => Value.compare_self v)

theorem same_comm (a b : Row) : a.same b = b.same a := by
  have hswap : ∀ a b : Row, a.same b = true → b.same a = true := fun a b h => by
    refine same_iff.mpr (List.Forall₂.flip ((same_iff.mp h).imp fun v w hvw => ?_))
    show compare w v = .eq
    rw [Value.compare_swap, hvw]
    rfl
  exact Bool.eq_iff_iff.mpr ⟨hswap a b, hswap b a⟩

/-- In no column does an integer beyond two to the 53rd meet a double. -/
def Comparable (rows : List Row) : Prop := ∀ k, Value.KeepsIntegers (inColumn rows k)

variable {known : List Row} (h : Comparable known) {a b c : Row}

theorem Comparable.mono {rows : List Row} (h : Comparable known) (hsub : ∀ row ∈ rows, row ∈ known) :
    Comparable rows := by
  have hcolumn : ∀ k, ∀ v ∈ inColumn rows k, v ∈ inColumn known k := fun k v hv => by
    obtain ⟨row, hrow, hv⟩ := mem_inColumn.mp hv
    exact mem_inColumn.mpr ⟨row, hsub row hrow, hv⟩
  exact fun k v hv hdouble w hw => h k v (hcolumn k v hv) hdouble w (hcolumn k w hw)

include h

/-- Being equal is transitive on rows that can be compared. -/
theorem Comparable.same_trans (ha : a ∈ known) (hb : b ∈ known) (hc : c ∈ known)
    (hab : a.same b = true) (hbc : b.same c = true) : a.same c = true := by
  obtain ⟨hlength, hab⟩ := List.forall₂_iff_get.mp (same_iff.mp hab)
  obtain ⟨hlength', hbc⟩ := List.forall₂_iff_get.mp (same_iff.mp hbc)
  refine same_iff.mpr (List.forall₂_iff_get.mpr ⟨hlength.trans hlength', fun k hka hkc => ?_⟩)
  have hkb : k < b.length := hlength ▸ hka
  have hmem : ∀ {row : Row} (_ : row ∈ known) (hk : k < row.length),
      row.get ⟨k, hk⟩ ∈ inColumn known k := fun hrow hk =>
    mem_inColumn.mpr ⟨_, hrow, List.getElem?_eq_getElem hk⟩
  have hranks := (h k).ordered.ranks
  have hab := hab k hka hkb
  have hbc := hbc k hkb hkc
  rw [hranks _ (hmem ha hka) _ (hmem hb hkb), Nat.compare_eq_eq] at hab
  rw [hranks _ (hmem hb hkb) _ (hmem hc hkc), Nat.compare_eq_eq] at hbc
  rw [hranks _ (hmem ha hka) _ (hmem hc hkc), Nat.compare_eq_eq]
  exact hab.trans hbc

/-- Equal rows are equal to the same rows. -/
theorem Comparable.same_congr (ha : a ∈ known) (hb : b ∈ known) (hc : c ∈ known)
    (hab : a.same b = true) : a.same c = b.same c := by
  rw [Bool.eq_iff_iff]
  exact ⟨fun hac => h.same_trans hb ha hc (same_comm a b ▸ hab) hac,
    fun hbc => h.same_trans ha hb hc hab hbc⟩

theorem Comparable.same_congr_right (ha : a ∈ known) (hb : b ∈ known) (hc : c ∈ known)
    (hbc : b.same c = true) : a.same c = a.same b := by
  rw [same_comm a, same_comm a, h.same_congr hb hc ha hbc]

/-- What equals a row differs from what the row differs from. -/
theorem Comparable.not_same (ha : a ∈ known) (hb : b ∈ known) (hc : c ∈ known)
    (hac : a.same c = true) (hbc : b.same c = false) : a.same b = false := by
  rw [h.same_congr ha hc hb hac, same_comm, hbc]

end Row

namespace Execution

open Row (Comparable)

/-- How often a row occurs among others. -/
def occurrences (row : Row) (rows : List Row) : Nat := rows.countP row.same

/-- The rows are some of a source, and a row is not left out if an equal one is kept after it. The rows
passed over before the source count as left out. -/
inductive Earliest : (passed source kept : List Row) → Prop
  | nil {passed : List Row} : Earliest passed [] []
  | keep {passed source kept : List Row} {row : Row} (fresh : ∀ r ∈ passed, r.same row = false)
      (rest : Earliest passed source kept) : Earliest passed (row :: source) (row :: kept)
  | pass {passed source kept : List Row} {row : Row} (rest : Earliest (row :: passed) source kept) :
      Earliest passed (row :: source) kept

theorem Earliest.sublist {passed source kept : List Row} (h : Earliest passed source kept) :
    kept.Sublist source := by
  induction h with
  | nil => exact .slnil
  | keep _ _ ih => exact ih.cons_cons _
  | pass _ ih => exact ih.cons _

/-- What is equal to a row that was passed over is not kept. -/
theorem Earliest.occurrences_eq_zero {passed source kept : List Row} (h : Earliest passed source kept)
    {row : Row} (hrow : row ∈ passed) : occurrences row kept = 0 := by
  induction h with
  | nil => rfl
  | keep fresh _ ih =>
    rw [occurrences, List.countP_cons_of_neg (by simp [fresh row hrow])]
    exact ih hrow
  | pass _ ih => exact ih (.tail _ hrow)

/-- The earliest occurrences are fixed by their numbers. -/
theorem Earliest.unique {passed passed' source kept kept' : List Row}
    (h : Earliest passed source kept) (h' : Earliest passed' source kept')
    (hcount : ∀ row ∈ source, occurrences row kept = occurrences row kept') : kept = kept' := by
  have hfirst : ∀ {row : Row} {rows : List Row}, 0 < occurrences row (row :: rows) := fun {row _} =>
    List.countP_pos_iff.mpr ⟨row, List.mem_cons_self, Row.same_self row⟩
  induction h generalizing passed' kept' with
  | nil =>
    cases h'
    rfl
  | keep _ _ ih =>
    have hrow := hcount _ List.mem_cons_self
    cases h' with
    | keep _ rest' =>
      refine congrArg _ (ih rest' fun r hr => ?_)
      have hr := hcount r (.tail _ hr)
      unfold occurrences at hr ⊢
      rw [List.countP_cons, List.countP_cons] at hr
      omega
    | pass rest' =>
      rw [rest'.occurrences_eq_zero List.mem_cons_self] at hrow
      exact absurd hrow (Nat.ne_of_gt hfirst)
  | pass rest ih =>
    have hrow := hcount _ List.mem_cons_self
    cases h' with
    | keep _ _ =>
      rw [rest.occurrences_eq_zero List.mem_cons_self] at hrow
      exact absurd hrow.symm (Nat.ne_of_gt hfirst)
    | pass rest' => exact ih rest' fun r hr => hcount r (.tail _ hr)

/-! ## Tallies -/

section

variable {known : List Row} (h : Comparable known) {a b row : Row}

include h

theorem any_same_congr {rows : List Row} (hrows : ∀ r ∈ rows, r ∈ known) (ha : a ∈ known)
    (hb : b ∈ known) (hab : a.same b = true) : rows.any a.same = rows.any b.same := by
  rw [Bool.eq_iff_iff, List.any_eq_true, List.any_eq_true]
  exact exists_congr fun r => and_congr_right fun hr => by rw [h.same_congr ha hb (hrows r hr) hab]

namespace Tally

/-- The rows that have a number are among those that are known. -/
def Among (known : List Row) (tally : Tally) : Prop := ∀ p ∈ tally, p.1 ∈ known

variable {tally : Tally} (hkeys : tally.Among known)

omit h in
theorem Among.add (hkeys : tally.Among known) (hrow : row ∈ known) : (tally.add row).Among known := by
  induction tally with
  | nil => exact List.forall_mem_singleton.mpr hrow
  | cons p tally ih =>
    obtain ⟨hp, htally⟩ := List.forall_mem_cons.mp hkeys
    rw [Tally.add]
    split
    · exact List.forall_mem_cons.mpr ⟨hp, htally⟩
    · exact List.forall_mem_cons.mpr ⟨hp, ih htally⟩

omit h in
theorem Among.set (hkeys : tally.Among known) (n : Nat) : (tally.set row n).Among known := by
  induction tally with
  | nil => exact hkeys
  | cons p tally ih =>
    obtain ⟨hp, htally⟩ := List.forall_mem_cons.mp hkeys
    rw [Tally.set]
    split
    · exact List.forall_mem_cons.mpr ⟨hp, htally⟩
    · exact List.forall_mem_cons.mpr ⟨hp, ih htally⟩

omit h in
theorem among_ofRows {rows : List Row} (hrows : ∀ r ∈ rows, r ∈ known) :
    (ofRows rows).Among known := by
  have hfold : ∀ tally : Tally, tally.Among known →
      (rows.foldl (fun tally row => tally.add row) tally).Among known := by
    induction rows with
    | nil => exact fun tally htally => htally
    | cons row rows ih =>
      obtain ⟨hrow, hrows⟩ := List.forall_mem_cons.mp hrows
      exact fun tally htally => ih hrows _ (htally.add hrow)
  exact hfold [] (by simp [Among])

omit h in
theorem Among.reduce (hkeys : tally.Among known) {leave : Nat → Nat → Nat} {other : Tally} :
    (tally.reduce leave other).Among known := List.forall_mem_map.mpr hkeys

omit h in
theorem Among.foldl_reduce (hkeys : tally.Among known) {leave : Nat → Nat → Nat}
    {others : List (List Row)} :
    (others.foldl (fun tally rows => tally.reduce leave (.ofRows rows)) tally).Among known := by
  induction others generalizing tally with
  | nil => exact hkeys
  | cons rows others ih => exact ih hkeys.reduce

include hkeys

theorem number_congr (ha : a ∈ known) (hb : b ∈ known) (hab : a.same b = true) :
    tally.number a = tally.number b := by
  induction tally with
  | nil => rfl
  | cons p tally ih =>
    obtain ⟨hp, htally⟩ := List.forall_mem_cons.mp hkeys
    rw [number, number, h.same_congr ha hb hp hab, ih htally]

omit hkeys in
/-- A row whose number stands at the first key has the number that is put there. -/
theorem number_at_key {k : Row} {n n' : Nat} (ha : a ∈ known) (hrow : row ∈ known) (hk : k ∈ known)
    (hkey : row.same k = true) :
    number a ((k, n') :: tally) = if a.same row then n' else number a ((k, n) :: tally) := by
  rw [number, number, h.same_congr_right ha hrow hk hkey]
  cases a.same row <;> rfl

omit hkeys in
/-- A change behind a key that differs from a row does not concern what equals the key. -/
theorem number_past_key {k : Row} {n m : Nat} {tally' : Tally} (ha : a ∈ known) (hrow : row ∈ known)
    (hk : k ∈ known) (hkey : row.same k = false)
    (hrest : tally'.number a = if a.same row then m else tally.number a) :
    number a ((k, n) :: tally') = if a.same row then m else number a ((k, n) :: tally) := by
  rw [number, number, hrest]
  cases hak : a.same k with
  | false => rfl
  | true =>
    rw [h.not_same ha hrow hk hak hkey]
    rfl

theorem number_add (ha : a ∈ known) (hrow : row ∈ known) :
    (tally.add row).number a = if a.same row then tally.number row + 1 else tally.number a := by
  induction tally with
  | nil => rfl
  | cons p tally ih =>
    obtain ⟨hp, htally⟩ := List.forall_mem_cons.mp hkeys
    rw [add, number]
    cases hkey : row.same p.1 with
    | true => exact number_at_key h ha hrow hp hkey
    | false => exact number_past_key h ha hrow hp hkey (ih htally)

/-- Only rows that are equal to one with a number have another number afterwards. -/
theorem number_set {n : Nat} (ha : a ∈ known) (hrow : row ∈ known) (hpos : 0 < tally.number row) :
    (tally.set row n).number a = if a.same row then n else tally.number a := by
  induction tally with
  | nil => exact absurd hpos (Nat.lt_irrefl 0)
  | cons p tally ih =>
    obtain ⟨hp, htally⟩ := List.forall_mem_cons.mp hkeys
    rw [number] at hpos
    rw [set]
    cases hkey : row.same p.1 with
    | true => exact number_at_key h ha hrow hp hkey
    | false =>
      rw [hkey] at hpos
      exact number_past_key h ha hrow hp hkey (ih htally hpos)

/-- The loop that counts rows. -/
theorem number_foldl_add {rows : List Row} (hrows : ∀ r ∈ rows, r ∈ known) (ha : a ∈ known) :
    (rows.foldl (fun tally row => tally.add row) tally).number a =
      tally.number a + occurrences a rows := by
  induction rows generalizing tally with
  | nil => rfl
  | cons row rows ih =>
    obtain ⟨hrow, hrows⟩ := List.forall_mem_cons.mp hrows
    rw [List.foldl_cons, ih (hkeys.add hrow) hrows, number_add h hkeys ha hrow, occurrences,
      occurrences, List.countP_cons]
    split
    · next hsame =>
      rw [number_congr h hkeys ha hrow hsame]
      omega
    · rfl

omit hkeys in
theorem number_ofRows {rows : List Row} (hrows : ∀ r ∈ rows, r ∈ known) (ha : a ∈ known) :
    (ofRows rows).number a = occurrences a rows :=
  (number_foldl_add h (by simp [Among]) hrows ha).trans (Nat.zero_add _)

/-- What is left of the number of a row after another input. -/
theorem number_reduce {leave : Nat → Nat → Nat} (hleave : ∀ m, leave 0 m = 0) {other : Tally}
    (hother : other.Among known) (ha : a ∈ known) :
    (tally.reduce leave other).number a = leave (tally.number a) (other.number a) := by
  induction tally with
  | nil => exact (hleave _).symm
  | cons p tally ih =>
    obtain ⟨hp, htally⟩ := List.forall_mem_cons.mp hkeys
    have htail := ih htally
    rw [reduce] at htail ⊢
    rw [List.map_cons, number, number, htail]
    cases hap : a.same p.1 with
    | false => rfl
    | true => rw [number_congr h hother ha hp hap]; rfl

/-- The loop over the other inputs: what is left of the number of a row. -/
theorem number_foldl_reduce {leave : Nat → Nat → Nat} (hleave : ∀ m, leave 0 m = 0)
    {others : List (List Row)} (hothers : ∀ rows ∈ others, ∀ r ∈ rows, r ∈ known) (ha : a ∈ known) :
    (others.foldl (fun tally rows => tally.reduce leave (.ofRows rows)) tally).number a =
      (others.map (occurrences a)).foldl leave (tally.number a) := by
  induction others generalizing tally with
  | nil => rfl
  | cons rows others ih =>
    obtain ⟨hrows, hothers⟩ := List.forall_mem_cons.mp hothers
    rw [List.foldl_cons, ih hkeys.reduce hothers, List.map_cons, List.foldl_cons,
      number_reduce h hkeys hleave (among_ofRows hrows) ha, number_ofRows h hrows ha]

end Tally

/-! ## What is emitted -/

/-- How many rows a number stands for: without duplicates at most one. -/
def quota (all : Bool) (n : Nat) : Nat := if all then n else min n 1

theorem occurrences_emitRows (all : Bool) {tally : Tally} (htally : tally.Among known)
    {rows : List Row} (hrows : ∀ r ∈ rows, r ∈ known) (ha : a ∈ known) :
    occurrences a (emitRows all tally rows) =
      min (quota all (tally.number a)) (occurrences a rows) := by
  induction rows generalizing tally with
  | nil => exact (Nat.min_zero _).symm
  | cons row rows ih =>
    obtain ⟨hrow, hrows⟩ := List.forall_mem_cons.mp hrows
    have hcount : ∀ rows, occurrences a (row :: rows) =
        occurrences a rows + if a.same row then 1 else 0 := fun rows => List.countP_cons
    rw [emitRows]
    split
    · next hpos =>
      rw [hcount, hcount, ih (htally.set _) hrows, Tally.number_set h htally ha hrow hpos]
      cases hsame : a.same row with
      | false => rfl
      | true =>
        rw [← Tally.number_congr h htally ha hrow hsame] at hpos ⊢
        cases all <;> simp only [quota] <;> simp <;> omega
    · next hpos =>
      rw [hcount, ih htally hrows]
      cases hsame : a.same row with
      | false => rfl
      | true =>
        rw [← Tally.number_congr h htally ha hrow hsame] at hpos
        have hzero : tally.number a = 0 := by omega
        rw [hzero]
        cases all <;> simp [quota]

theorem earliest_emitRows (all : Bool) {tally : Tally} (htally : tally.Among known)
    {rows passed : List Row} (hrows : ∀ r ∈ rows, r ∈ known)
    (hpassed : ∀ r ∈ passed, r ∈ known ∧ tally.number r = 0) :
    Earliest passed rows (emitRows all tally rows) := by
  induction rows generalizing tally passed with
  | nil => exact .nil
  | cons row rows ih =>
    obtain ⟨hrow, hrows⟩ := List.forall_mem_cons.mp hrows
    rw [emitRows]
    split
    · next hpos =>
      have hfresh : ∀ r ∈ passed, r.same row = false := fun r hr => by
        obtain ⟨hr, hzero⟩ := hpassed r hr
        by_contra hsame
        rw [Bool.not_eq_false] at hsame
        rw [← Tally.number_congr h htally hr hrow hsame, hzero] at hpos
        exact Nat.lt_irrefl 0 hpos
      refine .keep hfresh (ih (htally.set _) hrows fun r hr => ?_)
      obtain ⟨hknown, hzero⟩ := hpassed r hr
      rw [Tally.number_set h htally hknown hrow hpos, hfresh r hr]
      exact ⟨hknown, hzero⟩
    · next hpos =>
      exact .pass (ih htally hrows (List.forall_mem_cons.mpr ⟨⟨hrow, by omega⟩, hpassed⟩))

theorem occurrences_unseen {seen rows : List Row} (hseen : ∀ r ∈ seen, r ∈ known)
    (hrows : ∀ r ∈ rows, r ∈ known) (ha : a ∈ known) :
    occurrences a (unseen false seen rows) =
      min (if seen.any a.same then 0 else 1) (occurrences a rows) := by
  induction rows generalizing seen with
  | nil => exact (Nat.min_zero _).symm
  | cons row rows ih =>
    obtain ⟨hrow, hrows⟩ := List.forall_mem_cons.mp hrows
    have hcount : ∀ rows, occurrences a (row :: rows) =
        occurrences a rows + if a.same row then 1 else 0 := fun rows => List.countP_cons
    have hany : a.same row = true → seen.any a.same = seen.any row.same := fun hsame =>
      any_same_congr h hseen ha hrow hsame
    simp only [unseen, Bool.false_eq_true, if_false]
    cases hnew : seen.any row.same with
    | true =>
      rw [if_pos rfl, hcount, ih hseen hrows]
      cases hsame : a.same row with
      | false => rfl
      | true =>
        rw [hany hsame, hnew]
        simp
    | false =>
      rw [if_neg (by simp), hcount, hcount, ih (List.forall_mem_cons.mpr ⟨hrow, hseen⟩) hrows,
        List.any_cons]
      cases hsame : a.same row with
      | false => rfl
      | true =>
        rw [hany hsame, hnew]
        simp

theorem earliest_unseen {seen rows passed : List Row} (hseen : ∀ r ∈ seen, r ∈ known)
    (hrows : ∀ r ∈ rows, r ∈ known)
    (hpassed : ∀ r ∈ passed, r ∈ known ∧ seen.any r.same = true) :
    Earliest passed rows (unseen false seen rows) := by
  induction rows generalizing seen passed with
  | nil => exact .nil
  | cons row rows ih =>
    obtain ⟨hrow, hrows⟩ := List.forall_mem_cons.mp hrows
    simp only [unseen, Bool.false_eq_true, if_false]
    cases hnew : seen.any row.same with
    | true =>
      rw [if_pos rfl]
      exact .pass (ih hseen hrows (List.forall_mem_cons.mpr ⟨⟨hrow, hnew⟩, hpassed⟩))
    | false =>
      rw [if_neg (by simp)]
      have hfresh : ∀ r ∈ passed, r.same row = false := fun r hr => by
        obtain ⟨hknown, hany⟩ := hpassed r hr
        by_contra hsame
        rw [Bool.not_eq_false] at hsame
        rw [any_same_congr h hseen hknown hrow hsame, hnew] at hany
        cases hany
      refine .keep hfresh (ih (List.forall_mem_cons.mpr ⟨hrow, hseen⟩) hrows fun r hr => ?_)
      obtain ⟨hknown, hany⟩ := hpassed r hr
      exact ⟨hknown, by rw [List.any_cons, hany, Bool.or_true]⟩

theorem occurrences_reduceRows (all : Bool) {leave : Nat → Nat → Nat} (hleave : ∀ n m, leave n m ≤ n)
    {first : List Row} {others : List (List Row)} (hfirst : ∀ r ∈ first, r ∈ known)
    (hothers : ∀ rows ∈ others, ∀ r ∈ rows, r ∈ known) (ha : a ∈ known) :
    occurrences a (reduceRows all leave (first :: others)) =
      quota all ((others.map (occurrences a)).foldl leave (occurrences a first)) := by
  have hle : ∀ (ns : List Nat) (n : Nat), ns.foldl leave n ≤ n := by
    intro ns
    induction ns with
    | nil => exact Nat.le_refl
    | cons m ns ih => exact fun n => Nat.le_trans (ih (leave n m)) (hleave n m)
  have hquota : ∀ n, quota all n ≤ n := fun n => by cases all <;> simp [quota]
  have hfirstTally := Tally.among_ofRows hfirst
  rw [reduceRows, occurrences_emitRows h all hfirstTally.foldl_reduce hfirst ha,
    Tally.number_foldl_reduce h hfirstTally (fun m => Nat.le_zero.mp (hleave 0 m)) hothers ha,
    Tally.number_ofRows h hfirst ha]
  exact Nat.min_eq_left (Nat.le_trans (hquota _) (hle _ _))

theorem earliest_reduceRows (all : Bool) (leave : Nat → Nat → Nat) {first : List Row}
    (others : List (List Row)) (hfirst : ∀ r ∈ first, r ∈ known) :
    Earliest [] first (reduceRows all leave (first :: others)) :=
  earliest_emitRows h all (Tally.among_ofRows hfirst).foldl_reduce hfirst (by simp)

end

/-! ## The set operations -/

/-- The set operations. -/
inductive SetKind where
  | union
  | intersect
  | minus

namespace SetKind

/-- The operator of a set operation, which keeps duplicates or not. -/
def operator (convention : Convention) (all : Bool) : SetKind → Operator
  | union => .union convention all
  | intersect => .intersect all
  | minus => .minus all

/-- The rows of which some are emitted. -/
def source (inputs : List (List Row)) : SetKind → List Row
  | union => inputs.flatten
  | intersect | minus => inputs.headD []

/-- How often a row is emitted that occurs in the inputs so often. -/
def count (all : Bool) : SetKind → List Nat → Nat
  | union, ns => if all then ns.sum else if ns.any (0 < ·) then 1 else 0
  | intersect, [] | minus, [] => 0
  | intersect, n :: ns =>
    if all then ns.foldl min n else if 0 < n && ns.all (0 < ·) then 1 else 0
  | minus, n :: ns => if all then n - ns.sum else if 0 < n && ns.all (· = 0) then 1 else 0

/-- The rows are the earliest ones of the source of an operation, as many of each row as it counts. -/
structure Selects (kind : SetKind) (all : Bool) (inputs : List (List Row)) (kept : List Row) :
    Prop where
  earliest : Earliest [] (kind.source inputs) kept
  counted : ∀ row, Comparable (row :: inputs.flatten) →
    occurrences row kept = kind.count all (inputs.map (occurrences row))

/-- The rows of an operation. -/
def rows (all : Bool) (inputs : List (List Row)) : SetKind → List Row
  | union => unionRows all inputs
  | intersect => intersectRows all inputs
  | minus => minusRows all inputs

variable (kind : SetKind) (all : Bool) {inputs : List (List Row)}

theorem completes_rows (id : NodeId) (convention : Convention) (arities : List Nat) :
    Completes (runOperator false id (kind.operator convention all) arities inputs)
      (.ok (kind.rows all inputs)) := by
  cases kind with
  | union => exact completes_runUnion all inputs
  | intersect => exact completes_runReduce all commonNumber inputs
  | minus => exact completes_runReduce all (remainingNumber all) inputs

theorem mem_flatten_of_mem_source {row : Row} (h : row ∈ kind.source inputs) :
    row ∈ inputs.flatten := by
  have hfirst : row ∈ inputs.headD [] → row ∈ inputs.flatten := by
    cases inputs with
    | nil => exact id
    | cons first others => exact fun h => List.mem_append_left _ h
  cases kind with
  | union => exact h
  | intersect | minus => exact hfirst h

theorem earliest_rows (h : Comparable inputs.flatten) :
    Earliest [] (kind.source inputs) (kind.rows all inputs) := by
  have hall : ∀ rows, Earliest [] rows rows := fun rows => by
    induction rows with
    | nil => exact .nil
    | cons row rows ih => exact .keep (by simp) ih
  have hreduce : ∀ leave, Earliest [] (inputs.headD []) (reduceRows all leave inputs) := by
    intro leave
    cases inputs with
    | nil => exact .nil
    | cons first others =>
      exact earliest_reduceRows h all leave others fun r hr => List.mem_append_left _ hr
  cases kind with
  | union =>
    cases all with
    | true => exact hall _
    | false =>
      rw [rows, unionRows_eq]
      exact earliest_unseen h (by simp) (fun r hr => hr) (by simp)
  | intersect => exact hreduce commonNumber
  | minus => exact hreduce (remainingNumber all)

theorem quota_false (n : Nat) : quota false n = if 0 < n then 1 else 0 := by
  cases n <;> simp [quota]

/-- What intersections leave of a number is what they count. -/
theorem quota_foldl_commonNumber (n : Nat) (ns : List Nat) :
    quota all (ns.foldl commonNumber n) = intersect.count all (n :: ns) := by
  have hpos : ∀ n, 0 < ns.foldl min n ↔ 0 < n ∧ ∀ m ∈ ns, 0 < m := by
    induction ns with
    | nil => simp
    | cons m ns ih =>
      intro n
      rw [List.foldl_cons, ih, List.forall_mem_cons, ← and_assoc]
      exact and_congr_left fun _ => Nat.lt_min
  cases all with
  | true => rfl
  | false =>
    show quota false (ns.foldl min n) = if (decide (0 < n) && ns.all (0 < ·)) = true then 1 else 0
    rw [quota_false]
    exact if_congr (by simpa using hpos n) rfl rfl

/-- What differences leave of a number is what they count. -/
theorem quota_foldl_remainingNumber (n : Nat) (ns : List Nat) :
    quota all (ns.foldl (remainingNumber all) n) = minus.count all (n :: ns) := by
  cases all with
  | true =>
    show ns.foldl (· - ·) n = n - ns.sum
    induction ns generalizing n with
    | nil => rfl
    | cons m ns ih => rw [List.foldl_cons, ih, List.sum_cons, Nat.sub_sub]
  | false =>
    have hpos : ∀ n, 0 < ns.foldl (remainingNumber false) n ↔ 0 < n ∧ ∀ m ∈ ns, m = 0 := by
      induction ns with
      | nil => simp
      | cons m ns ih =>
        intro n
        rw [List.foldl_cons, ih, List.forall_mem_cons, ← and_assoc]
        refine and_congr_left fun _ => ?_
        show (0 < if 0 < m then 0 else n) ↔ _
        split <;> omega
    show _ = if (decide (0 < n) && ns.all (· = 0)) = true then 1 else 0
    rw [quota_false]
    exact if_congr (by simpa using hpos n) rfl rfl

theorem occurrences_rows {row : Row} (h : Comparable (row :: inputs.flatten)) :
    occurrences row (kind.rows all inputs) = kind.count all (inputs.map (occurrences row)) := by
  have hknown : ∀ r ∈ inputs.flatten, r ∈ row :: inputs.flatten := fun r hr => .tail _ hr
  have hsum : occurrences row inputs.flatten = (inputs.map (occurrences row)).sum :=
    List.countP_flatten
  have hreduce : ∀ {leave : Nat → Nat → Nat}, (∀ n m, leave n m ≤ n) → ∀ {first others},
      inputs = first :: others → occurrences row (reduceRows all leave inputs) =
        quota all ((others.map (occurrences row)).foldl leave (occurrences row first)) := by
    rintro leave hleave first others rfl
    exact occurrences_reduceRows h all hleave (fun r hr => hknown r (List.mem_append_left _ hr))
      (fun rows hrows r hr =>
        hknown r (List.mem_append_right _ (List.mem_flatten.mpr ⟨rows, hrows, hr⟩)))
      List.mem_cons_self
  cases kind with
  | union =>
    cases all with
    | true => exact hsum
    | false =>
      rw [rows, unionRows_eq, occurrences_unseen h (by simp) hknown List.mem_cons_self, hsum, Nat.min_comm]
      refine (quota_false _).trans (if_congr ?_ rfl rfl)
      rw [List.sum_pos_iff_exists_pos_nat]
      simp
  | intersect =>
    cases hinputs : inputs with
    | nil => rfl
    | cons first others =>
      have hleave : ∀ n m, commonNumber n m ≤ n := Nat.min_le_left
      rw [← hinputs, rows, intersectRows, hreduce hleave hinputs, hinputs]
      exact quota_foldl_commonNumber all _ _
  | minus =>
    cases hinputs : inputs with
    | nil => rfl
    | cons first others =>
      have hleave : ∀ n m, remainingNumber all n m ≤ n := fun n m => by
        unfold remainingNumber
        split
        · exact Nat.sub_le n m
        · split <;> omega
      rw [← hinputs, rows, minusRows, hreduce hleave hinputs, hinputs]
      exact quota_foldl_remainingNumber all _ _

/-- An operation emits the earliest rows of its source, of each row as many as it counts, and no other list
of rows is that. -/
theorem emits_earliest (convention : Convention) (id : NodeId) (arities : List Nat)
    (h : Comparable inputs.flatten) :
    Completes (runOperator false id (kind.operator convention all) arities inputs)
        (.ok (kind.rows all inputs)) ∧
      (kind.rows all inputs).Sublist (kind.source inputs) ∧
      ∀ kept, kind.Selects all inputs kept ↔ kept = kind.rows all inputs := by
  have hearliest := kind.earliest_rows all h
  have hselects : kind.Selects all inputs (kind.rows all inputs) :=
    ⟨hearliest, fun row hrow => kind.occurrences_rows all hrow⟩
  refine ⟨kind.completes_rows all id convention arities, hearliest.sublist,
    fun kept => ⟨fun hkept => ?_, ?_⟩⟩
  · refine hkept.earliest.unique hearliest fun row hrow => ?_
    have hcomparable : Comparable (row :: inputs.flatten) :=
      h.mono (List.forall_mem_cons.mpr ⟨kind.mem_flatten_of_mem_source hrow, fun r hr => hr⟩)
    rw [hkept.counted row hcomparable, hselects.counted row hcomparable]
  · rintro rfl
    exact hselects

/-- Marks of three examiners, some of them as doubles. -/
def marks : List (List Row) :=
  [[[.integer 1], [.integer 2], [.double 2], [.integer 2], [.integer 3]],
    [[.double 2], [.integer 4], [.integer 3], [.double 3], [.integer 2]],
    [[.integer 3], [.integer 2], [.double 2]]]

theorem emits_earliest_marks :
    Comparable marks.flatten ∧
    intersect.Selects true marks [[.integer 2], [.double 2], [.integer 3]] ∧
    minus.Selects true marks [[.integer 1]] ∧
    union.Selects false marks [[.integer 1], [.integer 2], [.integer 3], [.integer 4]] := by
  have h : Comparable marks.flatten := fun k => by
    cases k with
    | zero => decide +kernel
    | succ k => exact fun v hv => by cases hv
  have hselects := fun kind all => (emits_earliest kind all .none 0 [] h).2.2
  exact ⟨h, (hselects intersect true _).mpr (by decide +kernel),
    (hselects minus true _).mpr (by decide +kernel), (hselects union false _).mpr (by decide +kernel)⟩

end SetKind

end Execution

end QueryPlan
