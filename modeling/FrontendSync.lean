import FrontendSync.Artifact
import FrontendSync.CommandLine.Invocation
import FrontendSync.CommandLine.Run
import FrontendSync.CommandLine.Switch
import FrontendSync.Disk.Basic
import FrontendSync.Disk.Matching
import FrontendSync.Drift
import FrontendSync.Enum.OfDecl
import FrontendSync.Enum.Record
import FrontendSync.Fault
import FrontendSync.Locale.Bundle
import FrontendSync.Locale.Flatten
import FrontendSync.Locale.Json.Number
import FrontendSync.Locale.Json.Printer
import FrontendSync.Locale.Json.Reader
import FrontendSync.Locale.Json.Text
import FrontendSync.Locale.Keys
import FrontendSync.Locale.Php
import FrontendSync.Locale.Syntax.Adapter
import FrontendSync.Locale.Syntax.Parameter
import FrontendSync.Locale.Syntax.Plural
import FrontendSync.Locale.Tree
import FrontendSync.Main
import FrontendSync.Module.EnumModule
import FrontendSync.Module.Envelope
import FrontendSync.Module.Export
import FrontendSync.Module.Literal
import FrontendSync.Module.LocaleModule
import FrontendSync.Module.Specifier
import FrontendSync.Module.Strip
import FrontendSync.Module.Style
import FrontendSync.Module.Token
import FrontendSync.Module.TranslatorModule
import FrontendSync.Number.Binary64
import FrontendSync.Number.Decimal
import FrontendSync.Number.Layout
import FrontendSync.Number.Reader
import FrontendSync.Number.Shortest
import FrontendSync.Ordered
import FrontendSync.Path.Basic
import FrontendSync.Path.Relative
import FrontendSync.Pattern.Basic
import FrontendSync.Php.Attribute
import FrontendSync.Php.Brackets
import FrontendSync.Php.Declaration
import FrontendSync.Php.Declaration.Body
import FrontendSync.Php.Declaration.File
import FrontendSync.Php.DocComment
import FrontendSync.Php.EnumNames
import FrontendSync.Php.Expression
import FrontendSync.Php.Lexeme
import FrontendSync.Php.Name
import FrontendSync.Php.Token
import FrontendSync.Php.Value
import FrontendSync.Project.Basic
import FrontendSync.Project.Output
import FrontendSync.Project.Sources
import FrontendSync.Registry
import FrontendSync.Settings.Basic
import FrontendSync.Settings.Document
import FrontendSync.Settings.Load
import FrontendSync.Settings.Toml.Reader
import FrontendSync.Settings.Toml.Scalar
import FrontendSync.Settings.Toml.Table
import FrontendSync.Settings.Toml.Text
import FrontendSync.Target
import FrontendSync.Text.Blank
import FrontendSync.Text.Letter
import FrontendSync.Text.Lines
import FrontendSync.Text.Printable
import FrontendSync.Text.Property
import FrontendSync.Text.Trim
import FrontendSync.Text.Upper
import FrontendSync.Translator.Record
import FrontendSync.Proofs.Drift.InSync
import FrontendSync.Proofs.Module.EnumText
import FrontendSync.Proofs.Module.Quote
import FrontendSync.Proofs.Module.ReadBack
import FrontendSync.Proofs.Module.Reading
import FrontendSync.Proofs.Module.Scan
import FrontendSync.Proofs.Number.Decimal
import FrontendSync.Proofs.Number.Numeral
import FrontendSync.Proofs.Number.ReadText
import FrontendSync.Proofs.Number.Rounding
import FrontendSync.Proofs.Number.Shortest
import FrontendSync.Proofs.Text.Property
import FrontendSync.Proofs.Drift.RoundTrip
import FrontendSync.Proofs.Drift.Counterparts
import FrontendSync.Proofs.Enum.Canonical
import FrontendSync.Proofs.Enum.Declared
import FrontendSync.Proofs.Locale.Leaves
import FrontendSync.Proofs.Project.Outputs
import FrontendSync.Proofs.Locale.Bundle
import FrontendSync.Proofs.Php.EnumNames
import FrontendSync.Proofs.Project.Sources
import FrontendSync.Proofs.Disk.Tree
import FrontendSync.Proofs.Disk.Ways
import FrontendSync.Proofs.Disk.Join
import FrontendSync.Proofs.Disk.Writing
import FrontendSync.Proofs.Project.Reading
import FrontendSync.Proofs.Project.Idempotence
import FrontendSync.Proofs.Project.Selection
import FrontendSync.Proofs.Locale.Hoisting
import FrontendSync.Proofs.Locale.Precedence
import FrontendSync.Proofs.Php.Constant
import FrontendSync.Proofs.Php.Grammar.Complete
import FrontendSync.Proofs.Module.Envelope
import FrontendSync.Proofs.Locale.Keys
import FrontendSync.Proofs.Locale.Tree
import FrontendSync.Proofs.Locale.Json.Text
import FrontendSync.Proofs.Locale.Json.ReadBack
import FrontendSync.Proofs.Module.LocaleText
import FrontendSync.Proofs.Php.Places
import FrontendSync.Proofs.Php.Members
import FrontendSync.Proofs.Php.Members.Reading
import FrontendSync.Proofs.Php.Members.Enum
import FrontendSync.Proofs.Php.Extent
import FrontendSync.Proofs.Locale.Returned
import FrontendSync.Proofs.Php.Comments
import FrontendSync.Proofs.Php.Namespaces
import FrontendSync.Proofs.Php.StringLiteral
import FrontendSync.Proofs.Locale.Arrays
import FrontendSync.Proofs.Php.Arguments
import FrontendSync.Proofs.Php.CaseProperties
import FrontendSync.Proofs.Locale.Expansion
import FrontendSync.Proofs.Locale.FirstWritten
import FrontendSync.Proofs.Locale.ListItems
import FrontendSync.Proofs.Locale.Flattening
import FrontendSync.Proofs.Locale.Shape
import FrontendSync.Proofs.Locale.Syntax.Substitution
import FrontendSync.Proofs.Module.Comments
import FrontendSync.Proofs.Module.Quoting
import FrontendSync.Proofs.Php.Spacing
import FrontendSync.Proofs.Php.HeredocLabel
import FrontendSync.Proofs.Text.Replace
import FrontendSync.Proofs.Module.FileLines
import FrontendSync.Proofs.Module.Template
import FrontendSync.Proofs.Path.Names
import FrontendSync.Proofs.Path.Relative
import FrontendSync.Proofs.Module.Specifier
import FrontendSync.Proofs.Php.Segments
import FrontendSync.Proofs.Php.ImportScope
import FrontendSync.Proofs.Php.Negation
import FrontendSync.Proofs.Php.Cursor
import FrontendSync.Proofs.Php.Cursor.Members
import FrontendSync.Proofs.Php.Cursor.File
import FrontendSync.Proofs.Ordered.History
import FrontendSync.Proofs.Registry.Lookup
import FrontendSync.Proofs.Project.Scanning
import FrontendSync.Proofs.Disk.Places
import FrontendSync.Proofs.Disk.Installing
