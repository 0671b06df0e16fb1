import TensorChebyshev.Scalar.Machine
import TensorChebyshev.Decimal.Notation

/-!
The text of a scalar inside the text of an expansion.
-/

namespace TensorChebyshev

/-- Scalars that can be written. -/
class ScalarText (T : Type) where
  text : T → String

instance : ScalarText Float := ⟨fun x => (Numeral.ofFloat x).plain⟩

instance : ScalarText Float32 := ⟨fun x => (Numeral.ofFloat32 x).plain⟩

instance {F : Type} [ScalarText F] : ScalarText (Complex F) where
  text a :=
    "Complex \x7b re: " ++ ScalarText.text a.re ++ ", im: " ++ ScalarText.text a.im ++ " \x7d"

instance {F : Type} [ScalarText F] : ScalarText (Dual F) where
  text a :=
    "Dual \x7b re: " ++ ScalarText.text a.re ++ ", eps: " ++ ScalarText.text a.eps ++ " \x7d"

end TensorChebyshev
