import ShaderText.Main
import ShaderText.Proofs.Opaque
import ShaderText.Proofs.Unindenting
import ShaderText.Proofs.Capture
import ShaderText.Proofs.Locality
import ShaderText.Proofs.Bytewise.Octets
import ShaderText.Proofs.Revised
import ShaderText.Proofs.LineEnds
import ShaderText.Proofs.LetterCase
import ShaderText.Proofs.Located
import ShaderText.Proofs.Spacing.Surroundings
import ShaderText.Proofs.Spacing.DroppedLines
import ShaderText.Proofs.Revising.ClosedForm
import ShaderText.Proofs.Batches.OutputNames
import ShaderText.Proofs.Revising.References
import ShaderText.Proofs.Revising.Includes
import ShaderText.Proofs.Revising.Insertions
import ShaderText.Proofs.Spacing.TagClauses
import ShaderText.Proofs.Dumping.Grammar
import ShaderText.Proofs.Dumping.Shaders
import ShaderText.Proofs.Statements.CommentEnds
import ShaderText.Proofs.Statements.Interiors
import ShaderText.Proofs.Statements.Sequences
import ShaderText.Proofs.Statements.LastValues
import ShaderText.Proofs.Statements.Arguments
import ShaderText.Proofs.Revising.IncludeLines
import ShaderText.Proofs.Nesting
import ShaderText.Proofs.TagHistory
import ShaderText.Proofs.Positions
