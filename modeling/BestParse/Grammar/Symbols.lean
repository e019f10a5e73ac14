import Std.Data.TreeMap.Lemmas

/-!
# Symbol tables

A symbol table numbers names from zero in the order of their first appearance.
The array of names is the table's meaning; the map from names to numbers agrees
with it by `find_eq`, so numbers and names correspond one to one.
-/

namespace BestParse

/-- Names numbered in the order of their first appearance. -/
structure SymbolTable where
  /-- The name of each number. -/
  names : Array String
  /-- The number of each name. -/
  numbers : Std.TreeMap String Nat
  /-- The two agree. -/
  find_eq : ∀ (name : String) (i : Nat), numbers[name]? = some i ↔ names[i]? = some name

namespace SymbolTable

/-- The table without names. -/
def empty : SymbolTable where
  names := #[]
  numbers := ∅
  find_eq := by simp

instance : Inhabited SymbolTable := ⟨empty⟩

/-- How many names the table has. -/
def size (t : SymbolTable) : Nat := t.names.size

/-- The number of a name. -/
def find? (t : SymbolTable) (name : String) : Option Nat := t.numbers[name]?

/-- The name of a number; numbers beyond the table have the empty name. -/
def name (t : SymbolTable) (i : Nat) : String := t.names.getD i ""

/-- A table with one more name at its end. -/
def append (t : SymbolTable) (name : String) (fresh : t.numbers[name]? = none) : SymbolTable :=
  let next := t.names.size
  { names := t.names.push name
    numbers := t.numbers.insert name next
    find_eq := by
      intro other i
      rw [Std.TreeMap.getElem?_insert, Array.getElem?_push]
      by_cases hname : name = other
      · subst hname
        have hold : t.names[i]? ≠ some name := by
          intro h
          simp [(t.find_eq name i).2 h] at fresh
        by_cases hi : i = t.names.size <;> simp [next, hi, hold, eq_comm]
      · by_cases hi : i = t.names.size
        · have hnone : ¬ t.numbers[other]? = some t.names.size := by simp [t.find_eq]
          simp [hi, hname, hnone]
        · simp [hi, hname, t.find_eq] }

/-- The number of a name, which joins the table if it is new. -/
def intern (t : SymbolTable) (name : String) : Nat × SymbolTable :=
  match h : t.numbers[name]? with
  | some i => (i, t)
  | none => (t.size, t.append name h)

theorem find?_eq_some_iff {t : SymbolTable} {name : String} {i : Nat} :
    t.find? name = some i ↔ t.names[i]? = some name :=
  t.find_eq name i

/-- A name that was taken up is found under its number. -/
theorem find?_intern (t : SymbolTable) (name : String) :
    (t.intern name).2.find? name = some (t.intern name).1 := by
  unfold intern
  split
  · next i h => exact h
  · next h => simp [find?, append, size]

end SymbolTable

end BestParse
