import Formulary.Formula.Basic
import Formulary.Formula.Conditional
import Formulary.CommandLine.Run
import Formulary.Main
import Formulary.Proofs.Readers
import Formulary.Proofs.Reading
import Formulary.Proofs.Dependencies
import Formulary.Proofs.Lexed
import Formulary.Proofs.Delimited
import Formulary.Proofs.Operators
import Formulary.Proofs.Precedence
import Formulary.Proofs.OperatorCode
import Formulary.Proofs.Host
import Formulary.Proofs.Arithmetic
import Formulary.Proofs.Containment
import Formulary.Proofs.Detector
import Formulary.Proofs.Blame
import Formulary.Proofs.Messages
import Formulary.Proofs.LineBreaks
import Formulary.Proofs.Spelling
import Formulary.Proofs.Layout
import Formulary.Proofs.InPlace
import Formulary.Proofs.Boundaries
import Formulary.Proofs.Lexing
import Formulary.Proofs.Positions
import Formulary.Proofs.Nested
import Formulary.Proofs.CallForms
import Formulary.Proofs.Checked
import Formulary.Proofs.InBounds
import Formulary.Proofs.Capture
import Formulary.Proofs.Nesting
import Formulary.Proofs.LegalNames
import Formulary.Proofs.Pieces
import Formulary.Proofs.Slicing
import Formulary.Proofs.Aggregates
import Formulary.Proofs.Binders
import Formulary.Proofs.Commas
import Formulary.Proofs.DocumentLayout
import Formulary.Proofs.Joins
import Formulary.Proofs.Assembly
import Formulary.Proofs.Docstrings
import Formulary.Proofs.Effects
import Formulary.Proofs.Filling
import Formulary.Proofs.Freshness
