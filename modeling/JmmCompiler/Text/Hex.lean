/-! Hexadecimal numbers of a fixed width. -/
namespace JmmCompiler.Text

/-- The last digits of a number, as many as `width` says. -/
def hex : (width : Nat) → Nat → List Char
  | 0, _ => []
  | width + 1, n => hex width (n / 16) ++ [Nat.digitChar (n % 16)]

@[simp] theorem length_hex (width n : Nat) : (hex width n).length = width := by
  induction width generalizing n <;> simp_all [hex]

end JmmCompiler.Text
