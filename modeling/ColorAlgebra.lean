import ColorAlgebra.Palette.Workspace
import ColorAlgebra.Color.Hash
import ColorAlgebra.Proofs.Slicing.Words
import ColorAlgebra.Proofs.Slicing.Assignment
import ColorAlgebra.Proofs.Slicing.Deletion
import ColorAlgebra.Proofs.Editing.Guarded
import ColorAlgebra.Proofs.Editing.Atomicity
import ColorAlgebra.Proofs.Editing.Inverse
import ColorAlgebra.Proofs.Sorting.Stable
import ColorAlgebra.Proofs.Spelling.RoundTrip
import ColorAlgebra.Proofs.Spelling.Narrow
import ColorAlgebra.Proofs.Spelling.Grammar
import ColorAlgebra.Proofs.Spelling.Detection
import ColorAlgebra.Proofs.Spelling.Finite
import ColorAlgebra.Proofs.Comparing.PartialOrder
import ColorAlgebra.Proofs.Combining.Elementwise
import ColorAlgebra.Proofs.Hex.RoundTrip
import ColorAlgebra.Proofs.Scalar.Tens
import ColorAlgebra.Proofs.Scalar.Modulo
import ColorAlgebra.Proofs.Spreading.Monotone
import ColorAlgebra.Proofs.Spreading.Constant
import ColorAlgebra.Proofs.Editing.Removal
import ColorAlgebra.Proofs.Comparing.Extremes
import ColorAlgebra.Proofs.Hex.Projection
import ColorAlgebra.Proofs.Scalar.DigitsOrder
import ColorAlgebra.Proofs.Editing.Cyclic
import ColorAlgebra.Proofs.Editing.Keyed
import ColorAlgebra.Proofs.Binary.Narrowing
import ColorAlgebra.Proofs.Combining.Arithmetic
import ColorAlgebra.Proofs.Scaling.RoundTrip
import ColorAlgebra.Proofs.Combining.Limits
import ColorAlgebra.Proofs.Converting.Formats
import ColorAlgebra.Proofs.Changing.Exact
import ColorAlgebra.Proofs.Hashing.Buckets
import ColorAlgebra.Proofs.Slicing.States
import ColorAlgebra.Proofs.Sorting.Preorder
import ColorAlgebra.Proofs.Spreading.Steps
import ColorAlgebra.Proofs.Comparing.Distance
