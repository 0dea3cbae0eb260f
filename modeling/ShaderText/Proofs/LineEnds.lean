import ShaderText.Proofs.Exact
import ShaderText.Proofs.Faults
import ShaderText.Proofs.Respelling.Tree

/-! Line ends. A document may end its lines with a carriage return and a line feed instead of a line feed
alone. Main statement: the tree then holds the same texts with the same change and the same program
lines, and a document without a tree has the same error at the same line and column.
-/
namespace ShaderText

/-- Line feeds with a carriage return in front. -/
def Respelling.returns : Respelling where
  image c := if c = '\n' then ['\r', '\n'] else [c]
  image_alike c := by
    by_cases ends : c = '\n'
    · exact .inl ⟨ends, if_pos ends⟩
    · exact .inr ⟨c, if_neg ends, rfl⟩

def withReturns (text : String) : String := Respelling.returns.string text

open Respelling in
theorem text_returns_injective {cs ds : List Char} (h : returns.text cs = returns.text ds) : cs = ds := by
  have plain {c : Char} (noBreak : c ≠ '\n') (cs : List Char) : returns.text (c :: cs) = c :: returns.text cs := by
    simp [returns, noBreak]
  have broken (cs : List Char) : returns.text ('\n' :: cs) = '\r' :: '\n' :: returns.text cs := rfl
  -- no text begins with a line feed once the carriage returns are in, so a return tells what follows it
  have noBreak (cs rest : List Char) : returns.text cs ≠ '\n' :: rest := by
    cases cs with
    | nil => simp
    | cons c cs =>
      by_cases ends : c = '\n'
      · rw [ends, broken]
        simp
      · rw [plain ends]
        simp [ends]
  induction cs generalizing ds with
  | nil => exact (returns.text_eq_nil_iff.mp h.symm).symm
  | cons c cs ih =>
    cases ds with
    | nil => exact absurd (returns.text_eq_nil_iff.mp h) (by simp)
    | cons d ds =>
      by_cases endsC : c = '\n' <;> by_cases endsD : d = '\n'
      · rw [endsC, endsD, broken, broken] at h
        rw [endsC, endsD, ih (List.cons.inj (List.cons.inj h).2).2]
      · rw [endsC, broken, plain endsD] at h
        exact absurd (List.cons.inj h).2.symm (noBreak ds _)
      · rw [endsD, broken, plain endsC] at h
        exact absurd (List.cons.inj h).2 (noBreak cs _)
      · rw [plain endsC, plain endsD] at h
        rw [(List.cons.inj h).1, ih (List.cons.inj h).2]

theorem withReturns_injective : Function.Injective withReturns := fun first second h => by
  have texts := congrArg String.toList h
  rw [withReturns, withReturns, Respelling.toList_string, Respelling.toList_string] at texts
  exact String.toList_inj.mp (text_returns_injective texts)

theorem withReturns_eq_self {text : String} (single : '\n' ∉ text.toList) : withReturns text = text := by
  have same : Respelling.returns.text text.toList = text.toList := by
    generalize text.toList = cs at single
    induction cs with
    | nil => rfl
    | cons c cs ih =>
      simp only [List.mem_cons, not_or] at single
      rw [Respelling.text_cons, ih single.2]
      simp [Respelling.returns, Ne.symm single.1]
  rw [withReturns, Respelling.string, same, String.ofList_toList]

def Tags.withReturns (t : Tags) : Tags where
  toList := t.toList.map fun entry => (ShaderText.withReturns entry.1, ShaderText.withReturns entry.2)
  nodup_keys := by
    rw [List.map_map]
    have keys := t.nodup_keys.map withReturns_injective
    rwa [List.map_map] at keys

/-- All texts of a block change, and its program stays as it is. -/
def Block.withReturns (b : Block) : Block where
  tags := b.tags.withReturns
  states := b.states.mapValues ShaderText.withReturns
  stencil := b.stencil.mapValues ShaderText.withReturns
  program := b.program

def Pass.withReturns (p : Pass) : Pass :=
  { p.toBlock.withReturns with name := p.name.map ShaderText.withReturns }

def SubShader.withReturns (s : SubShader) : SubShader :=
  { s.toBlock.withReturns with passes := s.passes.map Pass.withReturns }

def Shader.withReturns (s : Shader) : Shader :=
  { s.toBlock.withReturns with
    name := ShaderText.withReturns s.name
    subShaders := s.subShaders.map SubShader.withReturns }

namespace Respelling

theorem separates_returns (t : Tags) : returns.Separates t := fun _ _ _ _ same => withReturns_injective same

theorem block_returns {b : Block} (lined : b.IsLined) : returns.block b = b.withReturns := by
  have tags : returns.tags b.tags = b.tags.withReturns :=
    Tags.eq_of_toList (toList_tags (separates_returns b.tags))
  have program : (b.program.map fun lines => lines.map returns.string) = b.program := by
    cases found : b.program with
    | none => rfl
    | some lines =>
      have same : lines.map returns.string = lines := by
        conv => rhs; rw [← List.map_id lines]
        exact List.map_congr_left fun line member => withReturns_eq_self (lined lines found line member)
      rw [Option.map_some, same]
  rw [block, tags, program]
  rfl

theorem subShader_returns {s : SubShader} (lined : s.IsLined) : returns.subShader s = s.withReturns := by
  have passes : s.passes.map returns.pass = s.passes.map Pass.withReturns :=
    List.map_congr_left fun p member => by
      rw [pass, Pass.withReturns, block_returns (lined.2 p member)]
      rfl
  rw [subShader, SubShader.withReturns, block_returns lined.1, passes]

theorem shader_returns {s : Shader} (lined : s.IsLined) : returns.shader s = s.withReturns := by
  have subShaders : s.subShaders.map returns.subShader = s.subShaders.map SubShader.withReturns :=
    List.map_congr_left fun sub member => subShader_returns (lined.2 sub member)
  rw [shader, Shader.withReturns, block_returns lined.1, subShaders]
  rfl

end Respelling

/-- An error names the first name of a document, and a name stands on one line. -/
theorem cause_returns {document : String} {e : ParseError} (h : Shader.parse document = .error e) :
    Respelling.returns.cause e.cause = e.cause := by
  obtain ⟨f, fault, rfl⟩ := Shader.parse_eq_error_iff.mp h
  cases cause : f.cause with
  | missingShader found =>
    obtain ⟨header, first, rfl⟩ := Outline.header_of_missingShader fault cause
    have follows := Motion.follows_along Respelling.returns document.toList
    have single := ((Motion.header?_region follows).2 header first).single
    rw [Fault.locate, cause, Respelling.cause]
    exact congrArg Cause.missingShader (withReturns_eq_self (by rwa [Region.text, String.toList_ofList]))
  | _ =>
    rw [Fault.locate, cause]
    rfl

/-- What a document denotes does not depend on how its lines end. -/
theorem Shader.parse_withReturns (document : String) :
    parse (ShaderText.withReturns document) = (parse document).map Shader.withReturns := by
  cases parsed : parse document with
  | ok s =>
    have lined := (isAligned_of_parse parsed).isLined
    have respelled := Respelling.parse_string parsed fun b _ => Respelling.separates_returns b.tags
    rw [Respelling.shader_returns lined] at respelled
    exact respelled
  | error e =>
    have respelled : parse (Respelling.returns.string document) = _ := Respelling.parse_string_error parsed
    rw [cause_returns parsed] at respelled
    exact respelled

end ShaderText
