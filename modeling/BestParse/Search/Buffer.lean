/-!
# Buffers

A buffer is kept to be used again.  What it holds when it is taken up depends on what was done
before, so it is emptied first.
-/

namespace BestParse

/-- Empty a buffer and put some entries into it. -/
def refill {α : Type} (buffer entries : List α) : List α := buffer.take 0 ++ entries

@[simp] theorem refill_eq {α : Type} (buffer entries : List α) : refill buffer entries = entries :=
  rfl

/-- Bring an array to a size.  New places hold the value given, and old ones keep theirs. -/
def resize {α : Type} (a : Array α) (n : Nat) (x : α) : Array α :=
  a.take n ++ Array.replicate (n - a.size) x

/-- An array that is emptied first holds the one value throughout. -/
@[simp] theorem resize_take_zero {α : Type} (a : Array α) (n : Nat) (x : α) :
    resize (a.take 0) n x = Array.replicate n x := by
  simp [resize]

end BestParse
