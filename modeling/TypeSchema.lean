import TypeSchema.CommandLine
import TypeSchema.Config
import TypeSchema.Declaration
import TypeSchema.Error
import TypeSchema.FileTree
import TypeSchema.Identifier
import TypeSchema.Json
import TypeSchema.Json.Printer
import TypeSchema.Json.Reader
import TypeSchema.Main
import TypeSchema.Path
import TypeSchema.Primitive
import TypeSchema.Program
import TypeSchema.Program.Compile
import TypeSchema.Program.Order
import TypeSchema.Proofs.Program.Closed
import TypeSchema.Proofs.Program.Order
import TypeSchema.Proofs.Registry.Names
import TypeSchema.Proofs.Validator.References
import TypeSchema.Registry
import TypeSchema.Registry.Dump
import TypeSchema.Registry.Extract
import TypeSchema.Run
import TypeSchema.Span
import TypeSchema.Text.Blank
import TypeSchema.Text.Bytes
import TypeSchema.Text.CharClass
import TypeSchema.Text.Letter
import TypeSchema.Text.Lines
import TypeSchema.Text.Numeral
import TypeSchema.Text.Quoted
import TypeSchema.Token
import TypeSchema.Token.Lexer
import TypeSchema.TypeExpr
import TypeSchema.TypeExpr.Parser
import TypeSchema.TypeExpr.Printer
import TypeSchema.Validator
import TypeSchema.Validator.Accept
import TypeSchema.Validator.Convert
import TypeSchema.Validator.Render
import TypeSchema.Proofs.Lexing.Bodies
import TypeSchema.Proofs.Lexing.Lexeme
import TypeSchema.Proofs.Lexing.Run
import TypeSchema.Proofs.TypeExpr.Grammar
import TypeSchema.Proofs.TypeExpr.Soundness
import TypeSchema.Proofs.TypeExpr.Levels
import TypeSchema.Proofs.TypeExpr.Completeness
import TypeSchema.Proofs.Lexing.Squeeze
import TypeSchema.Proofs.TypeExpr.Keys
import TypeSchema.Proofs.TypeExpr.WellFormed
import TypeSchema.Proofs.TypeExpr.Printing
import TypeSchema.Proofs.TypeExpr.RoundTrip
import TypeSchema.Proofs.TypeExpr.Nesting
import TypeSchema.Proofs.Registry.Spelling
import TypeSchema.Proofs.Lexing.Escapes
import TypeSchema.Proofs.Validator.Spelling
import TypeSchema.Proofs.Registry.Scanning
import TypeSchema.Proofs.Validator.Rendering
import TypeSchema.Proofs.Program.ReadBack
import TypeSchema.Proofs.TypeExpr.Language
import TypeSchema.Proofs.Validator.Conversion
import TypeSchema.Proofs.Validator.Meaning
import TypeSchema.Proofs.Validator.Optionality
import TypeSchema.Proofs.Lexing.Places
import TypeSchema.Proofs.Registry.Relocation
import TypeSchema.Proofs.Lexing.Comments
import TypeSchema.Proofs.Program.Comments
import TypeSchema.Proofs.TypeExpr.Agreement
import TypeSchema.Proofs.Registry.Origins
import TypeSchema.Proofs.Registry.TypeTexts
import TypeSchema.Proofs.Registry.Settled
import TypeSchema.Proofs.Registry.Composition
import TypeSchema.Proofs.Registry.Written
import TypeSchema.Proofs.Registry.Lines
import TypeSchema.Proofs.Program.Edits
import TypeSchema.Proofs.Program.Policy
import TypeSchema.Proofs.Registry.Visits
import TypeSchema.Proofs.Registry.Reported
import TypeSchema.Proofs.Registry.Indexed
import TypeSchema.Proofs.Registry.Bounds
import TypeSchema.Proofs.Lexing.Tiling
import TypeSchema.Proofs.Program.Arrangement
import TypeSchema.Proofs.Registry.Tables
import TypeSchema.Proofs.Run.Delivery
import TypeSchema.Proofs.Program.Circles
import TypeSchema.Proofs.Program.Forward
import TypeSchema.Proofs.Program.Inheritance
import TypeSchema.Proofs.Validator.Derivations
import TypeSchema.Proofs.Lexing.Pieces
import TypeSchema.Proofs.Validator.Code
import TypeSchema.Proofs.Validator.Names
import TypeSchema.Proofs.Lexing.Brackets
import TypeSchema.Proofs.Validator.Quoting
import TypeSchema.Proofs.Validator.Resemblance
import TypeSchema.Proofs.TypeExpr.FirstFault
import TypeSchema.Proofs.Validator.NormalForm
import TypeSchema.Proofs.TypeExpr.Calls
import TypeSchema.Proofs.TypeExpr.Widening
import TypeSchema.Proofs.TypeExpr.Enclosed
import TypeSchema.Proofs.TypeExpr.Arrays
import TypeSchema.Proofs.Lexing.Locality
import TypeSchema.Proofs.TypeExpr.ErrorLines
import TypeSchema.Proofs.TypeExpr.Indexed
import TypeSchema.Proofs.TypeExpr.IndexedSteps
import TypeSchema.Proofs.TypeExpr.IndexedReaders
