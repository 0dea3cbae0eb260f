import ShaderText.Proofs.Revising.Blockwise
import ShaderText.Proofs.Revising.ClosedForm

/-! Code that is inserted where a line passes a test. What is said here holds of any test, so also of the
patterns of a revision. Main statement: rules whose files can be read change nothing but the
programs of passes, each of them puts its code right before the first line that passes its test, and rules
with one test put theirs one after another before the same line.
-/
namespace ShaderText

/-- A rule with any test on lines: the code of the file goes before the first line that passes. -/
structure LineRule where
  test : String → Bool
  file : Path

def LineRule.code (read : Reader) (rule : LineRule) : String := trimBreaks ((read rule.file).toOption.getD "")

def InsertionRule.lineRule (rule : InsertionRule) : LineRule := ⟨rule.test, rule.file⟩

/-- Rules in turn: the shader as they leave it, and the error of the first file that cannot be read. -/
def applyRules (read : Reader) : List LineRule → Shader → Shader × Option SourceError
  | [], s => (s, none)
  | rule :: rules, s =>
    match read rule.file with
    | .error e => (s, some e)
    | .ok text => applyRules read rules (s.insertBefore rule.test (trimBreaks text))

theorem Revision.applySteps_insertBefore (read : Reader) (rules : List InsertionRule) (s : Shader) :
    applySteps read (rules.map .insertBefore) s = applyRules read (rules.map InsertionRule.lineRule) s := by
  induction rules generalizing s with
  | nil => rfl
  | cons rule rules ih =>
    simp only [List.map_cons, applySteps, applyRules, Step.apply, InsertionRule.lineRule]
    cases read rule.file with
    | error e => rfl
    | ok text => exact ih (s.insertBefore rule.test (trimBreaks text))

theorem applyRules_of_canRead {read : Reader} {rules : List LineRule}
    (readable : ∀ rule ∈ rules, read.CanRead rule.file) (s : Shader) :
    applyRules read rules s = (rules.foldl (fun s rule => s.insertBefore rule.test (rule.code read)) s, none) := by
  induction rules generalizing s with
  | nil => rfl
  | cons rule rules ih =>
    obtain ⟨text, found⟩ := readable rule List.mem_cons_self
    have code : rule.code read = trimBreaks text := by
      rw [LineRule.code, found]
      rfl
    rw [applyRules, found, List.foldl_cons, code]
    exact ih (fun other member => readable other (List.mem_cons_of_mem _ member)) _

namespace Block

/-- What becomes of a block if every rule inserts its code before the first line that passes its test at
that moment. -/
inductive InsertedInTurn (read : Reader) : List LineRule → Block → Block → Prop
  | nil (b : Block) : InsertedInTurn read [] b b
  | cons {rule : LineRule} {rules : List LineRule} {b c d : Block}
      (here : b.ChangedAtFirst rule.test (fun line => unindent (rule.code read) ++ [line]) c)
      (more : InsertedInTurn read rules c d) : InsertedInTurn read (rule :: rules) b d

variable {b c : Block} {test : String → Bool} {code : String} {read : Reader} {rules : List LineRule}

theorem insertBefore_of_first {front back : List String} {line : String}
    (program : b.program = some (front ++ line :: back)) (first : ∀ other ∈ front, test other = false)
    (passes : test line) :
    b.insertBefore test code = { b with program := some (front ++ (unindent code ++ [line]) ++ back) } := by
  simp [insertBefore, lineIndex?_of_first program first passes, insertCode, insertLines, lines, program]

theorem insertBefore_of_absent (absent : ∀ line ∈ b.lines, test line = false) : b.insertBefore test code = b := by
  simp [insertBefore, lineIndex?_of_absent absent]

theorem changedAtFirst_insertBefore (b : Block) (test : String → Bool) (code : String) :
    b.ChangedAtFirst test (fun line => unindent code ++ [line]) (b.insertBefore test code) :=
  .of_cases insertBefore_of_first insertBefore_of_absent

theorem insertedInTurn_foldl (read : Reader) (rules : List LineRule) (b : Block) :
    b.InsertedInTurn read rules (rules.foldl (fun b rule => b.insertBefore rule.test (rule.code read)) b) := by
  induction rules generalizing b with
  | nil => exact .nil b
  | cons rule rules ih => exact .cons (b.changedAtFirst_insertBefore rule.test _) (ih _)

theorem ChangedAtFirst.keeps (h : b.ChangedAtFirst test (fun line => unindent code ++ [line]) c) :
    b.lines.Sublist c.lines ∧ (b.program = none → c = b) := by
  cases h with
  | @found front back line program first passes =>
    refine ⟨?_, fun none => by simp [none] at program⟩
    simp [lines, program]
  | absent => exact ⟨List.Sublist.refl _, fun _ => rfl⟩

theorem InsertedInTurn.keeps (h : b.InsertedInTurn read rules c) :
    b.lines.Sublist c.lines ∧ (b.program = none → c = b) := by
  induction h with
  | nil => exact ⟨List.Sublist.refl _, fun _ => rfl⟩
  | cons here more ih =>
    obtain ⟨lines, program⟩ := here.keeps
    refine ⟨lines.trans ih.1, fun none => ?_⟩
    obtain rfl := program none
    exact ih.2 none

/-- Rules with one test and code that does not pass it find the same line, one after another. -/
theorem foldl_insertBefore_of_first (same : ∀ rule ∈ rules, rule.test = test)
    (clear : ∀ rule ∈ rules, ∀ line ∈ unindent (rule.code read), test line = false)
    {front back : List String} {line : String} (program : b.program = some (front ++ line :: back))
    (first : ∀ other ∈ front, test other = false) (passes : test line) :
    rules.foldl (fun b rule => b.insertBefore rule.test (rule.code read)) b =
      { b with
        program := some (front ++ (rules.flatMap (fun rule => unindent (rule.code read)) ++ [line]) ++ back) } := by
  induction rules generalizing b front with
  | nil => simp [← program]
  | cons rule rules ih =>
    obtain ⟨one, others⟩ := List.forall_mem_cons.mp same
    obtain ⟨codeClear, clear⟩ := List.forall_mem_cons.mp clear
    have placed : b.insertBefore test (rule.code read) = _ := insertBefore_of_first program first passes
    -- the code goes to the lines in front of the match, which is then found again
    have next : ∀ other ∈ front ++ unindent (rule.code read), test other = false := fun other member =>
      (List.mem_append.mp member).elim (first other) (codeClear other)
    rw [List.foldl_cons, one, placed, ih others clear (by simp) next]
    simp

theorem foldl_insertBefore_of_absent (same : ∀ rule ∈ rules, rule.test = test)
    (absent : ∀ line ∈ b.lines, test line = false) :
    rules.foldl (fun b rule => b.insertBefore rule.test (rule.code read)) b = b := by
  induction rules with
  | nil => rfl
  | cons rule rules ih =>
    obtain ⟨one, others⟩ := List.forall_mem_cons.mp same
    rw [List.foldl_cons, one, insertBefore_of_absent absent, ih others]

theorem changedAtFirst_foldl (same : ∀ rule ∈ rules, rule.test = test)
    (clear : ∀ rule ∈ rules, ∀ line ∈ unindent (rule.code read), test line = false) (b : Block) :
    b.ChangedAtFirst test (fun line => rules.flatMap (fun rule => unindent (rule.code read)) ++ [line])
      (rules.foldl (fun b rule => b.insertBefore rule.test (rule.code read)) b) :=
  .of_cases (foldl_insertBefore_of_first same clear) (foldl_insertBefore_of_absent same)

end Block

theorem Shader.foldl_insertBefore (read : Reader) (rules : List LineRule) (s : Shader) :
    rules.foldl (fun s rule => s.insertBefore rule.test (rule.code read)) s =
      s.mapSubShaders fun sub => sub.mapPasses fun b =>
        rules.foldl (fun b rule => b.insertBefore rule.test (rule.code read)) b := by
  simp only [← SubShader.foldl_mapPasses]
  exact Shader.foldl_mapSubShaders rules (fun sub rule => sub.insertBefore rule.test (rule.code read)) s

/-- Rules whose files can be read insert their code where their tests tell, and change nothing else. What
holds of tests holds of the patterns of a revision. -/
theorem applyRules_inserts {read : Reader} {rules : List LineRule}
    (readable : ∀ rule ∈ rules, read.CanRead rule.file) (s : Shader) :
    (∀ patterns : List InsertionRule,
      Revision.applySteps read (patterns.map .insertBefore) s =
        applyRules read (patterns.map InsertionRule.lineRule) s) ∧
    ∃ t, applyRules read rules s = (t, none) ∧
      s.Matches Eq (Block.InsertedInTurn read rules) t ∧
      s.Matches Eq (fun b c => b.lines.Sublist c.lines ∧ (b.program = none → c = b)) t ∧
      ∀ test, (∀ rule ∈ rules, rule.test = test) →
        (∀ rule ∈ rules, ∀ line ∈ unindent (rule.code read), test line = false) →
          s.Matches Eq (Block.ChangedAtFirst test fun line =>
            rules.flatMap (fun rule => unindent (rule.code read)) ++ [line]) t := by
  have applied := applyRules_of_canRead readable s
  rw [Shader.foldl_insertBefore] at applied
  exact ⟨fun patterns => Revision.applySteps_insertBefore read patterns s, _, applied,
    s.matches_mapPasses (Block.insertedInTurn_foldl read rules),
    s.matches_mapPasses fun b => (Block.insertedInTurn_foldl read rules b).keeps,
    fun test same clear => s.matches_mapPasses (Block.changedAtFirst_foldl same clear)⟩

theorem applyRules_inserts_pragma :
    let read : Reader := .ofList [(⟨"a.hlsl"⟩, "  #define A\r\n"), (⟨"b.hlsl"⟩, "  f();\n    g();\n\n")]
    let test := fun line : String => holds "#pragma".toList line.toList
    let rules : List LineRule := [⟨test, ⟨"a.hlsl"⟩⟩, ⟨test, ⟨"b.hlsl"⟩⟩]
    let s (lines : List String) := Revision.featureShader .empty .empty lines [Pass.named none]
    (∀ rule ∈ rules, read.CanRead rule.file) ∧ (∀ rule ∈ rules, rule.test = test) ∧
      (∀ rule ∈ rules, ∀ line ∈ unindent (rule.code read), test line = false) ∧
      ∃ t, applyRules read rules (s ["x", "#pragma a", "#pragma b"]) = (t, none) ∧
        (s ["x", "#pragma a", "#pragma b"]).Matches Eq
          (Block.ChangedAtFirst test fun line => ["#define A", "f();", "  g();"] ++ [line]) t := by
  intro read test rules s
  have readable : ∀ rule ∈ rules, read.CanRead rule.file := by
    have known : ∀ rule ∈ rules, (read rule.file).toOption.isSome := by decide +kernel
    intro rule member
    have found := known rule member
    cases reads : read rule.file with
    | error e => simp [reads, Except.toOption] at found
    | ok text => exact ⟨text, reads⟩
  have same : ∀ rule ∈ rules, rule.test = test := by simp [rules]
  have clear : ∀ rule ∈ rules, ∀ line ∈ unindent (rule.code read), test line = false := by
    decide +kernel
  obtain ⟨-, t, applied, -, -, together⟩ := applyRules_inserts readable (s ["x", "#pragma a", "#pragma b"])
  have placed := together test same clear
  have code : rules.flatMap (fun rule => unindent (rule.code read)) = ["#define A", "f();", "  g();"] := by
    decide +kernel
  rw [code] at placed
  exact ⟨readable, same, clear, t, applied, placed⟩

end ShaderText
