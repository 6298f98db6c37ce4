/-!
Finite sets of column ordinals, kept as strictly increasing lists, so that equal sets are equal
values and reading a set visits its columns in ascending order.
-/
namespace QueryPlan

/-- Ordinals are counted in words of 64 bits: moving one past either end wraps around. -/
def shiftOrdinal (offset : Int) (ordinal : Nat) : Nat :=
  (((ordinal : Int) + offset) % UInt64.size).toNat

/-- A set of column ordinals. -/
structure ColumnSet where
  toList : List Nat
  increasing : toList.Pairwise (· < ·)
  deriving DecidableEq

namespace ColumnSet

/-- Puts an ordinal at its place in an increasing list that may hold it already. -/
def insertOrdinal (bit : Nat) : List Nat → List Nat
  | [] => [bit]
  | b :: bs =>
    if bit < b then bit :: b :: bs
    else if bit = b then b :: bs
    else b :: insertOrdinal bit bs

theorem mem_insertOrdinal {bit x : Nat} {bits : List Nat} :
    x ∈ insertOrdinal bit bits ↔ x = bit ∨ x ∈ bits := by
  induction bits with
  | nil => simp [insertOrdinal]
  | cons b bs ih =>
    by_cases h : bit < b
    · simp [insertOrdinal, h]
    · by_cases h' : bit = b
      · subst h'; simp [insertOrdinal]
      · simp [insertOrdinal, h, h', ih, or_left_comm]

theorem pairwise_insertOrdinal {bit : Nat} {bits : List Nat} (h : bits.Pairwise (· < ·)) :
    (insertOrdinal bit bits).Pairwise (· < ·) := by
  induction bits with
  | nil => simp [insertOrdinal]
  | cons b bs ih =>
    obtain ⟨hb, hs⟩ := List.pairwise_cons.mp h
    by_cases hlt : bit < b
    · simp only [insertOrdinal, hlt, if_true, List.pairwise_cons]
      refine ⟨?_, hb, hs⟩
      intro x hx
      rcases List.mem_cons.mp hx with rfl | hx
      · exact hlt
      · exact Nat.lt_trans hlt (hb x hx)
    · by_cases heq : bit = b
      · simpa [insertOrdinal, hlt, heq] using h
      · simp only [insertOrdinal, hlt, heq, if_false, List.pairwise_cons]
        refine ⟨?_, ih hs⟩
        intro x hx
        rcases mem_insertOrdinal.mp hx with rfl | hx
        · omega
        · exact hb x hx

/-- The set without columns. -/
def empty : ColumnSet := ⟨[], .nil⟩

instance : EmptyCollection ColumnSet := ⟨empty⟩
instance : Inhabited ColumnSet := ⟨empty⟩

/-- Adds a column. -/
def insert (s : ColumnSet) (bit : Nat) : ColumnSet :=
  ⟨insertOrdinal bit s.toList, pairwise_insertOrdinal s.increasing⟩

/-- The set of the columns in a list. -/
def ofList (bits : List Nat) : ColumnSet := bits.foldl insert empty

/-- The columns from `start` up to but not including `stop`. -/
def range (start stop : Nat) : ColumnSet := ofList ((List.range (stop - start)).map (start + ·))

def isEmpty (s : ColumnSet) : Bool := s.toList.isEmpty

/-- Number of columns in the set. -/
def size (s : ColumnSet) : Nat := s.toList.length

/-- Whether a column is in the set. -/
def holds (s : ColumnSet) (bit : Nat) : Bool := s.toList.contains bit

/-- The column at a position in ascending order. -/
def nth? (s : ColumnSet) (position : Nat) : Option Nat := s.toList[position]?

/-- The position of a column in ascending order. -/
def indexOf? (s : ColumnSet) (bit : Nat) : Option Nat := s.toList.findIdx? (· == bit)

/-- Whether the sets share a column. -/
def intersects (s t : ColumnSet) : Bool := s.toList.any t.holds

/-- Whether every column of `t` is in `s`. -/
def includes (s t : ColumnSet) : Bool := t.toList.all s.holds

def union (s t : ColumnSet) : ColumnSet := t.toList.foldl insert s

/-- Moves every column by an offset. -/
def shift (s : ColumnSet) (offset : Int) : ColumnSet := ofList (s.toList.map (shiftOrdinal offset))

/-- Sets compare column by column in ascending order. -/
def order (s t : ColumnSet) : Ordering := compareLists s.toList t.toList
where
  /-- Lexicographic comparison, a list coming after its own initial parts. -/
  compareLists : List Nat → List Nat → Ordering
    | [], [] => .eq
    | [], _ :: _ => .lt
    | _ :: _, [] => .gt
    | a :: as, b :: bs => (compare a b).then (compareLists as bs)

/-- Columns in braces. -/
def text (s : ColumnSet) : String :=
  "\x7b" ++ ", ".intercalate (s.toList.map toString) ++ "\x7d"

@[simp] theorem toList_empty : empty.toList = [] := rfl

@[simp] theorem mem_toList_insert {s : ColumnSet} {bit x : Nat} :
    x ∈ (s.insert bit).toList ↔ x = bit ∨ x ∈ s.toList :=
  mem_insertOrdinal

theorem mem_toList_foldl_insert {bits : List Nat} {s : ColumnSet} {x : Nat} :
    x ∈ (bits.foldl insert s).toList ↔ x ∈ bits ∨ x ∈ s.toList := by
  induction bits generalizing s with
  | nil => simp
  | cons b bs ih => simp [ih, or_assoc, or_left_comm]

@[simp] theorem mem_toList_ofList {bits : List Nat} {x : Nat} :
    x ∈ (ofList bits).toList ↔ x ∈ bits := by
  simp [ofList, mem_toList_foldl_insert]

@[simp] theorem mem_toList_union {s t : ColumnSet} {x : Nat} :
    x ∈ (s.union t).toList ↔ x ∈ s.toList ∨ x ∈ t.toList := by
  simp [union, mem_toList_foldl_insert, or_comm]

@[simp] theorem mem_toList_range {start stop x : Nat} :
    x ∈ (range start stop).toList ↔ start ≤ x ∧ x < stop := by
  simp only [range, mem_toList_ofList, List.mem_map, List.mem_range]
  constructor
  · rintro ⟨k, hk, rfl⟩
    omega
  · intro h
    exact ⟨x - start, by omega, by omega⟩

@[simp] theorem holds_iff {s : ColumnSet} {bit : Nat} : s.holds bit = true ↔ bit ∈ s.toList := by
  simp [holds]

@[simp] theorem includes_iff {s t : ColumnSet} :
    s.includes t = true ↔ ∀ x ∈ t.toList, x ∈ s.toList := by
  simp [includes]

end ColumnSet

end QueryPlan
