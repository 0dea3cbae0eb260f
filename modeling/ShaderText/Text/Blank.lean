/-! White space of plain text, in the sense of the Unicode property `White_Space`. It decides what is
blank in program lines and in command-line names; shader statements know a smaller set. Main
statements: trimming removes blanks only, and leaves an end that is not blank.
-/
namespace ShaderText

/-- The characters with the Unicode property `White_Space`. -/
def isBlank (c : Char) : Bool :=
  let n := c.toNat
  (9 ≤ n && n ≤ 13) || n == 0x20 || n == 0x85 || n == 0xA0 || n == 0x1680 ||
    (0x2000 ≤ n && n ≤ 0x200A) || n == 0x2028 || n == 0x2029 || n == 0x202F || n == 0x205F ||
    n == 0x3000

def isBlankText (cs : List Char) : Bool := cs.all isBlank

def trimStart (cs : List Char) : List Char := cs.dropWhile isBlank

def trimEnd (cs : List Char) : List Char := (cs.reverse.dropWhile isBlank).reverse

theorem trimEnd_append_blank (cs : List Char) : ∃ tail, isBlankText tail ∧ cs = trimEnd cs ++ tail := by
  refine ⟨(cs.reverse.takeWhile isBlank).reverse, ?_, ?_⟩
  · simp only [isBlankText, List.all_reverse]
    exact List.all_takeWhile
  · rw [trimEnd, ← List.reverse_append, List.takeWhile_append_dropWhile, List.reverse_reverse]

theorem trimStart_append_blank (cs : List Char) : ∃ front, isBlankText front ∧ cs = front ++ trimStart cs :=
  ⟨cs.takeWhile isBlank, List.all_takeWhile, List.takeWhile_append_dropWhile.symm⟩

theorem not_isBlank_getLast_trimEnd {cs : List Char} (h : trimEnd cs ≠ []) :
    isBlank ((trimEnd cs).getLast h) = false := by
  have h' : cs.reverse.dropWhile isBlank ≠ [] := by simpa [trimEnd] using h
  have := List.head_dropWhile_not isBlank h'
  simpa [trimEnd] using this

end ShaderText
