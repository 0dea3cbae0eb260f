/-! The words of the shader language. Every word is recognised whatever the case of its ASCII letters,
and is written in one fixed spelling. Main statement: a word is recognised as the member of its family
whose spelling it matches, since no two members of a family have matching spellings.
-/
namespace ShaderText

/-- Whether two texts differ at most in the case of ASCII letters. -/
def sameWord (a b : List Char) : Bool := a.map Char.toLower == b.map Char.toLower

/-- A finite family of words, in the order in which they are written. -/
class WordFamily (κ : Type) where
  all : List κ
  word : κ → String
  mem_all : ∀ k : κ, k ∈ all
  nodup_all : all.Nodup
  eq_of_sameWord : ∀ j k : κ, sameWord (word j).toList (word k).toList → j = k

def WordFamily.find? (κ : Type) [WordFamily κ] (text : List Char) : Option κ :=
  (all : List κ).find? fun k => sameWord (word k).toList text

/-- The word that opens a program written in another language. -/
inductive Sentinel
  | hlslProgram
  | hlslInclude
  | cgProgram
  | cgInclude
deriving Repr, DecidableEq

/-- The word that ends a program opened by `s`. -/
def Sentinel.closing : Sentinel → String
  | .hlslProgram | .hlslInclude => "ENDHLSL"
  | .cgProgram | .cgInclude => "ENDCG"

/-- The words that begin a statement with a meaning of its own. -/
inductive Keyword
  | shader
  | subShader
  | pass
  | name
  | tags
  | stencil
  | properties
  | program (sentinel : Sentinel)
deriving Repr, DecidableEq

/-- The render states that a block keeps, in the order in which they are written. -/
inductive RenderState
  | cull
  | zTest
  | zWrite
  | zClip
  | colorMask
deriving Repr, DecidableEq

/-- The fields of a stencil block, in the order in which they are written. -/
inductive StencilField
  | readMask
  | writeMask
  | ref
  | comp
  | pass
  | fail
  | zFail
deriving Repr, DecidableEq

instance : WordFamily Sentinel where
  all := [.hlslProgram, .hlslInclude, .cgProgram, .cgInclude]
  word
    | .hlslProgram => "HLSLPROGRAM"
    | .hlslInclude => "HLSLINCLUDE"
    | .cgProgram => "CGPROGRAM"
    | .cgInclude => "CGINCLUDE"
  mem_all k := by cases k <;> simp
  nodup_all := by decide
  eq_of_sameWord j k := by cases j <;> cases k <;> decide

def Sentinel.word (s : Sentinel) : String := WordFamily.word s

instance : WordFamily Keyword where
  all :=
    [.shader, .subShader, .pass, .name, .tags, .stencil, .properties, .program .hlslProgram,
      .program .hlslInclude, .program .cgProgram, .program .cgInclude]
  word
    | .shader => "Shader"
    | .subShader => "SubShader"
    | .pass => "Pass"
    | .name => "name"
    | .tags => "Tags"
    | .stencil => "Stencil"
    | .properties => "Properties"
    | .program s => s.word
  mem_all k := by
    cases k with
    | program s => cases s <;> simp
    | _ => simp
  nodup_all := by decide
  eq_of_sameWord j k := by
    cases j with
    | program s =>
      cases k with
      | program t => cases s <;> cases t <;> decide
      | _ => cases s <;> decide
    | _ =>
      cases k with
      | program t => cases t <;> decide
      | _ => decide

def Keyword.word (k : Keyword) : String := WordFamily.word k

instance : WordFamily RenderState where
  all := [.cull, .zTest, .zWrite, .zClip, .colorMask]
  word
    | .cull => "Cull"
    | .zTest => "ZTest"
    | .zWrite => "ZWrite"
    | .zClip => "ZClip"
    | .colorMask => "ColorMask"
  mem_all k := by cases k <;> simp
  nodup_all := by decide
  eq_of_sameWord j k := by cases j <;> cases k <;> decide

def RenderState.word (s : RenderState) : String := WordFamily.word s

instance : WordFamily StencilField where
  all := [.readMask, .writeMask, .ref, .comp, .pass, .fail, .zFail]
  word
    | .readMask => "ReadMask"
    | .writeMask => "WriteMask"
    | .ref => "Ref"
    | .comp => "Comp"
    | .pass => "Pass"
    | .fail => "Fail"
    | .zFail => "ZFail"
  mem_all k := by cases k <;> simp
  nodup_all := by decide
  eq_of_sameWord j k := by cases j <;> cases k <;> decide

def StencilField.word (f : StencilField) : String := WordFamily.word f

def keyword? (text : List Char) : Option Keyword := WordFamily.find? Keyword text

def sentinel? (text : List Char) : Option Sentinel :=
  match keyword? text with
  | some (.program s) => some s
  | _ => none

def renderState? (text : List Char) : Option RenderState := WordFamily.find? RenderState text

def stencilField? (text : List Char) : Option StencilField := WordFamily.find? StencilField text

theorem sameWord_iff {a b : List Char} : sameWord a b ↔ a.map Char.toLower = b.map Char.toLower := by
  simp [sameWord]

namespace WordFamily

variable {κ : Type} [WordFamily κ]

theorem find?_eq_some_iff {text : List Char} {k : κ} :
    find? κ text = some k ↔ sameWord (word k).toList text := by
  unfold find?
  constructor
  · intro h
    have spelt := List.find?_some (p := fun k : κ => sameWord (word k).toList text) h
    exact spelt
  · intro h
    cases found : (all : List κ).find? fun k => sameWord (word k).toList text with
    | none => exact absurd h (List.find?_eq_none.mp found k (mem_all k))
    | some j =>
      have hj := List.find?_some (p := fun k : κ => sameWord (word k).toList text) found
      simp only [sameWord_iff] at hj h
      rw [eq_of_sameWord j k (by simp [sameWord_iff, hj, h])]

theorem find?_word (k : κ) : find? κ (word k).toList = some k := by
  simp [find?_eq_some_iff, sameWord]

end WordFamily
end ShaderText
