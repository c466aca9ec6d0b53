import XmlConformance.Command.Arguments
import XmlConformance.Command.Config
import XmlConformance.Command.Output
import XmlConformance.Command.Settings
import XmlConformance.Decimal.Binary
import XmlConformance.Decimal.Notation
import XmlConformance.Decimal.Shortest
import XmlConformance.Failure
import XmlConformance.Files
import XmlConformance.Loading
import XmlConformance.Main
import XmlConformance.Path.Axis
import XmlConformance.Path.Compare
import XmlConformance.Path.Error
import XmlConformance.Path.Eval
import XmlConformance.Path.Expr
import XmlConformance.Path.Expression
import XmlConformance.Path.Item
import XmlConformance.Path.Lexer
import XmlConformance.Path.Library
import XmlConformance.Path.Location
import XmlConformance.Path.Number
import XmlConformance.Path.Syntax
import XmlConformance.Path.Token
import XmlConformance.Proofs.Decimal.Doubles
import XmlConformance.Proofs.Decimal.Rounding
import XmlConformance.Proofs.Decimal.Unpacked
import XmlConformance.Proofs.Outcome
import XmlConformance.Proofs.Path.Abbreviations
import XmlConformance.Proofs.Path.Anchoring
import XmlConformance.Proofs.Path.Arities
import XmlConformance.Proofs.Path.Axes
import XmlConformance.Proofs.Path.Congruence
import XmlConformance.Proofs.Path.DocumentOrder
import XmlConformance.Proofs.Path.Evaluating
import XmlConformance.Proofs.Path.Grammar
import XmlConformance.Proofs.Path.Indexing
import XmlConformance.Proofs.Path.Keys
import XmlConformance.Proofs.Path.Layout
import XmlConformance.Proofs.Path.Lexemes
import XmlConformance.Proofs.Path.Literals
import XmlConformance.Proofs.Path.Locating
import XmlConformance.Proofs.Path.Ordering
import XmlConformance.Proofs.Path.Parsing
import XmlConformance.Proofs.Path.Texts
import XmlConformance.Proofs.Regex.Matching
import XmlConformance.Proofs.Rules.Collecting
import XmlConformance.Proofs.Rules.Compiling
import XmlConformance.Proofs.Rules.Copying
import XmlConformance.Proofs.Rules.Expanding
import XmlConformance.Proofs.Rules.Findings
import XmlConformance.Proofs.Rules.Firing
import XmlConformance.Proofs.Rules.Gathering
import XmlConformance.Proofs.Rules.Isolation
import XmlConformance.Proofs.Rules.Keeping
import XmlConformance.Proofs.Rules.Merging
import XmlConformance.Proofs.Rules.Prefixes
import XmlConformance.Proofs.Rules.Renaming
import XmlConformance.Proofs.Rules.Reporting
import XmlConformance.Proofs.Rules.Retaining
import XmlConformance.Proofs.Rules.Running
import XmlConformance.Proofs.Rules.Selecting
import XmlConformance.Proofs.Rules.Splicing
import XmlConformance.Proofs.Rules.Substituting
import XmlConformance.Proofs.Rules.Transcribing
import XmlConformance.Proofs.Schema.Adopting
import XmlConformance.Proofs.Schema.Applying
import XmlConformance.Proofs.Schema.Assembling
import XmlConformance.Proofs.Schema.Assigning
import XmlConformance.Proofs.Schema.Binding
import XmlConformance.Proofs.Schema.Checking
import XmlConformance.Proofs.Schema.Children
import XmlConformance.Proofs.Schema.Circles
import XmlConformance.Proofs.Schema.Collapsing
import XmlConformance.Proofs.Schema.Completing
import XmlConformance.Proofs.Schema.Construction
import XmlConformance.Proofs.Schema.ContentModel
import XmlConformance.Proofs.Schema.Decimals
import XmlConformance.Proofs.Schema.Derivations
import XmlConformance.Proofs.Schema.Descending
import XmlConformance.Proofs.Schema.Dropping
import XmlConformance.Proofs.Schema.Escaping
import XmlConformance.Proofs.Schema.Failing
import XmlConformance.Proofs.Schema.Following
import XmlConformance.Proofs.Schema.Groups
import XmlConformance.Proofs.Schema.Holding
import XmlConformance.Proofs.Schema.Inheriting
import XmlConformance.Proofs.Schema.Inlining
import XmlConformance.Proofs.Schema.Integers
import XmlConformance.Proofs.Schema.Labels
import XmlConformance.Proofs.Schema.Language
import XmlConformance.Proofs.Schema.Literals
import XmlConformance.Proofs.Schema.Normalizing
import XmlConformance.Proofs.Schema.Numbers
import XmlConformance.Proofs.Schema.Objecting
import XmlConformance.Proofs.Schema.Ordering
import XmlConformance.Proofs.Schema.References
import XmlConformance.Proofs.Schema.Remembering
import XmlConformance.Proofs.Schema.Resolving
import XmlConformance.Proofs.Schema.Running
import XmlConformance.Proofs.Schema.SelfContained
import XmlConformance.Proofs.Schema.Spreading
import XmlConformance.Proofs.Schema.Steps
import XmlConformance.Proofs.Schema.Unfolding
import XmlConformance.Proofs.Schema.Validity
import XmlConformance.Proofs.Schema.Viability
import XmlConformance.Proofs.Schema.Words
import XmlConformance.Proofs.Session.Caching
import XmlConformance.Proofs.Session.Usage
import XmlConformance.Proofs.Session.Verdicts
import XmlConformance.Proofs.Text.Casing
import XmlConformance.Proofs.Text.Categories
import XmlConformance.Proofs.Text.Marking
import XmlConformance.Proofs.Text.Spacing
import XmlConformance.Proofs.Xml.Calls
import XmlConformance.Proofs.Xml.Characters
import XmlConformance.Proofs.Xml.Contents
import XmlConformance.Proofs.Xml.Defaulting
import XmlConformance.Proofs.Xml.Events
import XmlConformance.Proofs.Xml.Locating
import XmlConformance.Proofs.Xml.Names
import XmlConformance.Proofs.Xml.Parsing
import XmlConformance.Proofs.Xml.Pieces
import XmlConformance.Proofs.Xml.Placing
import XmlConformance.Proofs.Xml.Precedence
import XmlConformance.Proofs.Xml.Reading
import XmlConformance.Proofs.Xml.ReadingBack
import XmlConformance.Proofs.Xml.Rereading
import XmlConformance.Proofs.Xml.RoundTrip
import XmlConformance.Proofs.Xml.Unlabelled
import XmlConformance.Proofs.Xml.Walking
import XmlConformance.Proofs.Xml.Writing
import XmlConformance.Regex.Basic
import XmlConformance.Regex.CharSet
import XmlConformance.Regex.Parser
import XmlConformance.Regex.Size
import XmlConformance.Rules.Abstraction
import XmlConformance.Rules.Embedded
import XmlConformance.Rules.Error
import XmlConformance.Rules.Evaluation
import XmlConformance.Rules.Inclusion
import XmlConformance.Rules.Phase
import XmlConformance.Rules.Report
import XmlConformance.Rules.RuleSet
import XmlConformance.Rules.Schema
import XmlConformance.Rules.Vocabulary
import XmlConformance.Schema.AllGroup
import XmlConformance.Schema.Assembly
import XmlConformance.Schema.Automaton
import XmlConformance.Schema.Builtin
import XmlConformance.Schema.Component
import XmlConformance.Schema.Conformance
import XmlConformance.Schema.Datatype
import XmlConformance.Schema.Error
import XmlConformance.Schema.Facet
import XmlConformance.Schema.Pattern
import XmlConformance.Schema.Reading
import XmlConformance.Schema.Resolution
import XmlConformance.Schema.Validation
import XmlConformance.Schema.Vocabulary
import XmlConformance.Schema.WhiteSpace
import XmlConformance.Session.Pipeline
import XmlConformance.Session.Validator
import XmlConformance.Text.Case
import XmlConformance.Text.Category
import XmlConformance.Text.Property
import XmlConformance.Text.Quoted
import XmlConformance.Text.Ranges
import XmlConformance.Text.Script
import XmlConformance.Text.Space
import XmlConformance.Url.Basic
import XmlConformance.Url.Host
import XmlConformance.Url.Parser
import XmlConformance.Url.Percent
import XmlConformance.Xml.Builder
import XmlConformance.Xml.Char
import XmlConformance.Xml.Document
import XmlConformance.Xml.Fragment
import XmlConformance.Xml.Location
import XmlConformance.Xml.Markup
import XmlConformance.Xml.Name
import XmlConformance.Xml.Parser
import XmlConformance.Xml.Position
import XmlConformance.Xml.Reference
import XmlConformance.Xml.Tree
import XmlConformance.Xml.Writer
