/-!
Values kept for later use. A `Stored a` holds exactly `a`, computes it the first time it is
read and keeps it afterwards. The type says which value is held, so a structure with stored
fields is still determined by its other fields.
-/

namespace TensorChebyshev

/-- A cell whose content is known to be `a`. -/
structure Stored {α : Type} (a : α) where
  cell : Thunk α
  cell_get : cell.get = a

namespace Stored

variable {α : Type}

/-- The cell that computes `f ()` when it is first read. -/
def delay (f : Unit → α) : Stored (f ()) := ⟨⟨f⟩, rfl⟩

def get {a : α} (s : Stored a) : α := s.cell.get

@[simp] theorem get_eq {a : α} (s : Stored a) : s.get = a := s.cell_get

/-- Two cells for one value are the same cell. -/
theorem eq_of_same {a : α} (s t : Stored a) : s = t := by
  obtain ⟨⟨f⟩, hf⟩ := s
  obtain ⟨⟨g⟩, hg⟩ := t
  have h : f = g := by
    funext u
    cases u
    exact hf.trans hg.symm
  subst h
  rfl

instance {a : α} : Subsingleton (Stored a) := ⟨eq_of_same⟩

end Stored

end TensorChebyshev
