import Mathlib.Logic.Function.Iterate
import ShaderText.Proofs.Revising.Blockwise

/-! Includes that are replaced by code. A replacement takes the first line of a block that includes the
file. Main statement: as long as the code does not include the file itself, a replacement changes one line
in every block that includes the file and counts these blocks, and replacements in turn take the including
lines of a block one after another, each in its place, until none is left.
-/
namespace ShaderText

/-- The lines, where the first `count` of those that pass the test give way to `new`. -/
def replaceLines (test : String → Bool) (new : List String) : Nat → List String → List String
  | 0, lines => lines
  | _ + 1, [] => []
  | count + 1, line :: rest =>
    if test line then new ++ replaceLines test new count rest
    else line :: replaceLines test new (count + 1) rest

section

variable {test : String → Bool} {new : List String}

theorem replaceLines_zero (lines : List String) : replaceLines test new 0 lines = lines := by
  rw [replaceLines]

theorem replaceLines_of_absent {lines : List String} (absent : ∀ line ∈ lines, test line = false) (count : Nat) :
    replaceLines test new count lines = lines := by
  fun_induction replaceLines test new count lines with
  | case1 => rfl
  | case2 => rfl
  | case3 count line rest passes => simp [absent line List.mem_cons_self] at passes
  | case4 count line rest _ ih => rw [ih fun other member => absent other (List.mem_cons_of_mem _ member)]

theorem replaceLines_append {front : List String} (clear : ∀ line ∈ front, test line = false) (count : Nat)
    (back : List String) :
    replaceLines test new count (front ++ back) = front ++ replaceLines test new count back := by
  induction front with
  | nil => rfl
  | cons line front ih =>
    have later := ih fun other member => clear other (List.mem_cons_of_mem _ member)
    cases count with
    | zero => simp [replaceLines_zero]
    | succ count => simp [replaceLines, clear line List.mem_cons_self, later]

theorem replaceLines_first {front back : List String} {line : String}
    (first : ∀ other ∈ front, test other = false) (passes : test line) (count : Nat) :
    replaceLines test new (count + 1) (front ++ line :: back) =
      front ++ (new ++ replaceLines test new count back) := by
  rw [replaceLines_append first, replaceLines, if_pos passes]

theorem replaceLines_one (clear : ∀ line ∈ new, test line = false) (count : Nat) (lines : List String) :
    replaceLines test new 1 (replaceLines test new count lines) = replaceLines test new (count + 1) lines := by
  fun_induction replaceLines test new count lines with
  | case1 => rfl
  | case2 => rfl
  | case3 count line rest passes ih => rw [replaceLines_append clear, ih, replaceLines, if_pos passes]
  | case4 count line rest other ih => rw [replaceLines, if_neg other, ih, replaceLines, if_neg other]

theorem countP_replaceLines (clear : ∀ line ∈ new, test line = false) (count : Nat) (lines : List String) :
    (replaceLines test new count lines).countP test = lines.countP test - count := by
  fun_induction replaceLines test new count lines with
  | case1 => rfl
  | case2 => simp
  | case3 count line rest passes ih =>
    have none : new.countP test = 0 := List.countP_eq_zero.mpr fun line member => by simp [clear line member]
    rw [List.countP_append, none, ih, List.countP_cons_of_pos passes]
    omega
  | case4 count line rest other ih => rw [List.countP_cons_of_neg other, List.countP_cons_of_neg other, ih]

end

namespace Block

variable {b : Block} {path content : String}

theorem includes_eq (b : Block) (path : String) :
    b.includes path = decide (0 < b.lines.countP fun line => isInclude line path) := by
  rw [Bool.eq_iff_iff, decide_eq_true_iff, List.countP_pos_iff]
  rcases b.first_or_absent fun line => isInclude line path with ⟨front, line, back, program, first, passes⟩ | absent
  · have found := lineIndex?_of_first program first passes
    simp only [includes, includeIndex?, found, Option.isSome_some, true_iff]
    exact ⟨line, by simp [lines, program], passes⟩
  · have none := lineIndex?_of_absent absent
    simp only [includes, includeIndex?, none, Option.isSome_none, Bool.false_eq_true, false_iff]
    rintro ⟨line, member, passes⟩
    simp [absent line member] at passes

theorem replaceInclude_of_first {front back : List String} {line : String}
    (program : b.program = some (front ++ line :: back)) (first : ∀ other ∈ front, isInclude other path = false)
    (passes : isInclude line path) :
    b.replaceInclude path content = { b with program := some (front ++ unindent content ++ back) } := by
  have found : b.includeIndex? path = some front.length := lineIndex?_of_first program first passes
  simp [replaceInclude, found, lines, program]

theorem replaceInclude_of_absent (absent : ∀ line ∈ b.lines, isInclude line path = false) :
    b.replaceInclude path content = b := by
  have none : b.includeIndex? path = none := lineIndex?_of_absent absent
  simp [replaceInclude, none]

theorem changedAtFirst_replaceInclude (b : Block) (path content : String) :
    b.ChangedAtFirst (fun line => isInclude line path) (fun _ => unindent content)
      (b.replaceInclude path content) :=
  .of_cases replaceInclude_of_first replaceInclude_of_absent

theorem replaceInclude_eq (b : Block) (path content : String) :
    b.replaceInclude path content =
      { b with
        program := b.program.map (replaceLines (fun line => isInclude line path) (unindent content) 1) } := by
  rcases b.first_or_absent fun line => isInclude line path with ⟨front, line, back, program, first, passes⟩ | absent
  · rw [replaceInclude_of_first program first passes, program, Option.map_some, replaceLines_first first passes,
      replaceLines, List.append_assoc]
  · rw [replaceInclude_of_absent absent]
    cases program : b.program with
    | none => rw [Option.map_none, ← program]
    | some lines =>
      have clear : ∀ line ∈ lines, isInclude line path = false := by simpa [Block.lines, program] using absent
      rw [Option.map_some, replaceLines_of_absent clear, ← program]

theorem iterate_replaceInclude (fresh : ∀ line ∈ unindent content, isInclude line path = false) (b : Block)
    (calls : Nat) :
    (fun b => replaceInclude b path content)^[calls] b =
      { b with
        program :=
          b.program.map (replaceLines (fun line => isInclude line path) (unindent content) calls) } := by
  induction calls with
  | zero =>
    have same : replaceLines (fun line => isInclude line path) (unindent content) 0 = id :=
      funext replaceLines_zero
    simp [same]
  | succ calls ih =>
    rw [Function.iterate_succ_apply', ih, replaceInclude_eq]
    simp only [Option.map_map, Function.comp_def, replaceLines_one fresh]

theorem includes_iterate (fresh : ∀ line ∈ unindent content, isInclude line path = false) (b : Block)
    (calls : Nat) :
    ((fun b => replaceInclude b path content)^[calls] b).includes path =
      decide (calls < b.lines.countP fun line => isInclude line path) := by
  rw [iterate_replaceInclude fresh, includes_eq, decide_eq_decide]
  cases program : b.program with
  | none => simp [lines, program]
  | some lines =>
    simp only [Block.lines, program, Option.map_some, Option.getD_some, countP_replaceLines fresh,
      Nat.sub_pos_iff_lt]

end Block

theorem Shader.countIncluding_eq_total (s : Shader) (path : String) :
    s.countIncluding path = s.total fun b => if ∃ line ∈ b.lines, isInclude line path then 1 else 0 := by
  rw [countIncluding, ← sum_blocks]
  induction s.blocks with
  | nil => rfl
  | cons b blocks ih =>
    have includes : b.includes path ↔ ∃ line ∈ b.lines, isInclude line path := by
      rw [Block.includes_eq, decide_eq_true_iff, List.countP_pos_iff]
    rw [List.countP_cons, ih, List.map_cons, List.sum_cons, Nat.add_comm]
    simp only [includes]

/-- Replacing an include takes one line of every block that has one, and calls in turn take one after
another until none is left. -/
theorem replaceInclude_exhausts {path content : String}
    (fresh : ∀ line ∈ unindent content, isInclude line path = false) :
    (∀ s : Shader,
      s.countIncluding path = s.total (fun b => if ∃ line ∈ b.lines, isInclude line path then 1 else 0) ∧
      s.Matches (Block.ChangedAtFirst (fun line => isInclude line path) fun _ => unindent content)
        (Block.ChangedAtFirst (fun line => isInclude line path) fun _ => unindent content)
        (s.replaceInclude path content)) ∧
    ∀ (b : Block) (calls : Nat),
      (fun b => Block.replaceInclude b path content)^[calls] b =
          { b with
            program :=
              b.program.map (replaceLines (fun line => isInclude line path) (unindent content) calls) } ∧
        ((fun b => Block.replaceInclude b path content)^[calls] b).includes path =
          decide (calls < b.lines.countP fun line => isInclude line path) :=
  ⟨fun s => ⟨s.countIncluding_eq_total path,
      s.matches_mapBlocks fun b => b.changedAtFirst_replaceInclude path content⟩,
    fun b calls => ⟨Block.iterate_replaceInclude fresh b calls, Block.includes_iterate fresh b calls⟩⟩

theorem replaceInclude_exhausts_twice :
    let lines := ["#define A", "#include \"a.hlsl\"", "f();", "  #INCLUDE\t\"a.hlsl\" // again"]
    let b : Block := { Block.empty with program := some lines }
    let s : Shader := { b with name := "T", subShaders := [{ Block.empty with passes := [{ b with name := none }] }] }
    let call := fun b => Block.replaceInclude b "a.hlsl" "  g();\n  #include \"b.hlsl\""
    (∀ line ∈ unindent "  g();\n  #include \"b.hlsl\"", isInclude line "a.hlsl" = false) ∧
      s.countIncluding "a.hlsl" = 2 ∧
      (call^[2] b).program =
        some ["#define A", "g();", "#include \"b.hlsl\"", "f();", "g();", "#include \"b.hlsl\""] ∧
      (call^[1] b).includes "a.hlsl" = true ∧ (call^[2] b).includes "a.hlsl" = false := by
  intro lines b s call
  have fresh : ∀ line ∈ unindent "  g();\n  #include \"b.hlsl\"", isInclude line "a.hlsl" = false := by
    decide +kernel
  obtain ⟨documents, blocks⟩ := replaceInclude_exhausts fresh
  refine ⟨fresh, by rw [(documents s).1]; decide +kernel, ?_, ?_, ?_⟩
  · rw [(blocks b 2).1]
    decide +kernel
  · rw [(blocks b 1).2]
    decide +kernel
  · rw [(blocks b 2).2]
    decide +kernel

end ShaderText
