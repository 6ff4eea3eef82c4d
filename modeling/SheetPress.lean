import SheetPress.Package.Manifest
import SheetPress.Main
import SheetPress.Proofs.Nesting.Inclusion
import SheetPress.Proofs.Nesting.Unrolling
import SheetPress.Proofs.Source.Decoding
import SheetPress.Proofs.Compile.Variables
import SheetPress.Proofs.Extend.Closure
import SheetPress.Proofs.Extend.Precedence
import SheetPress.Proofs.Bundle.Texts
import SheetPress.Proofs.Compile.Circles
import SheetPress.Proofs.Compile.Confinement
import SheetPress.Proofs.Bundle.Repetition
import SheetPress.Proofs.Extend.Substitution
import SheetPress.Proofs.Expr.Spans
import SheetPress.Proofs.Value.Units
import SheetPress.Proofs.Compile.Sequences
import SheetPress.Proofs.Compile.Separators
import SheetPress.Proofs.Compile.Returns
import SheetPress.Proofs.Source.Strings
import SheetPress.Proofs.Source.LineTags
import SheetPress.Proofs.Selector.Canonical
import SheetPress.Proofs.Selector.Trimming
import SheetPress.Proofs.Compile.Following
import SheetPress.Proofs.Bundle.Remote
import SheetPress.Proofs.Text.Quoting
