import Testwright.Attempt.Assembly
import Testwright.Attempt.Collaborators
import Testwright.Attempt.Diagnostics
import Testwright.Attempt.Dossier
import Testwright.Attempt.Gate
import Testwright.Attempt.Report
import Testwright.Attempt.Rounds
import Testwright.Attempt.Schedule
import Testwright.Attempt.StoredDossier
import Testwright.Author.Answer
import Testwright.Author.Chat
import Testwright.Author.Model
import Testwright.Author.Prompt
import Testwright.Author.Provider
import Testwright.Author.Usage
import Testwright.CommandLine.Generate
import Testwright.CommandLine.Host
import Testwright.CommandLine.Inspect
import Testwright.CommandLine.Request
import Testwright.CommandLine.Run
import Testwright.CommandLine.Usage
import Testwright.Data.Dict
import Testwright.Disk.Basic
import Testwright.Disk.Glob
import Testwright.Disk.Ignore
import Testwright.Disk.Path
import Testwright.Disk.Work
import Testwright.Java.Cursor
import Testwright.Java.Decision
import Testwright.Java.Declaration
import Testwright.Java.Grammar
import Testwright.Java.Index
import Testwright.Java.Kind
import Testwright.Java.Prune
import Testwright.Java.Rule
import Testwright.Java.Sanitize
import Testwright.Java.Scope
import Testwright.Java.Token
import Testwright.Java.Tree
import Testwright.Json.Basic
import Testwright.Json.Decode
import Testwright.Json.Reader
import Testwright.Json.Writer
import Testwright.Library.Reconstruction
import Testwright.Library.Resolver
import Testwright.Main
import Testwright.Number.Binary64
import Testwright.Number.Reading
import Testwright.Project.Model
import Testwright.Project.Overload
import Testwright.Project.Sources
import Testwright.Project.Stored
import Testwright.Proofs.Attempt.Acceptance
import Testwright.Proofs.Attempt.Aliases
import Testwright.Proofs.Attempt.Branching
import Testwright.Proofs.Attempt.Cancelling
import Testwright.Proofs.Attempt.Chains
import Testwright.Proofs.Attempt.Constructing
import Testwright.Proofs.Attempt.Consultation
import Testwright.Proofs.Attempt.Course
import Testwright.Proofs.Attempt.Dependencies
import Testwright.Proofs.Attempt.DirectCalls
import Testwright.Proofs.Attempt.Enriching
import Testwright.Proofs.Attempt.Filing
import Testwright.Proofs.Attempt.Growth
import Testwright.Proofs.Attempt.Hops
import Testwright.Proofs.Attempt.Inclusion
import Testwright.Proofs.Attempt.Interleaving
import Testwright.Proofs.Attempt.Interrupting
import Testwright.Proofs.Attempt.Likeness
import Testwright.Proofs.Attempt.Locations
import Testwright.Proofs.Attempt.Modes
import Testwright.Proofs.Attempt.Outlines
import Testwright.Proofs.Attempt.Overlapping
import Testwright.Proofs.Attempt.Placing
import Testwright.Proofs.Attempt.Refusals
import Testwright.Proofs.Attempt.Repairs
import Testwright.Proofs.Attempt.Reporting
import Testwright.Proofs.Attempt.Stems
import Testwright.Proofs.Attempt.Storing
import Testwright.Proofs.Attempt.Watching
import Testwright.Proofs.Author.Declaring
import Testwright.Proofs.Author.Fencing
import Testwright.Proofs.Author.Headings
import Testwright.Proofs.Author.Naming
import Testwright.Proofs.Author.Rendering
import Testwright.Proofs.Author.Retrying
import Testwright.Proofs.Data.Dict
import Testwright.Proofs.Disk.Writing
import Testwright.Proofs.Java.Advancing
import Testwright.Proofs.Java.Alternatives
import Testwright.Proofs.Java.Angles
import Testwright.Proofs.Java.Arguments
import Testwright.Proofs.Java.Boundaries
import Testwright.Proofs.Java.Brackets
import Testwright.Proofs.Java.Briefs
import Testwright.Proofs.Java.Bytewise
import Testwright.Proofs.Java.Charts
import Testwright.Proofs.Java.Cleaning
import Testwright.Proofs.Java.Comments
import Testwright.Proofs.Java.Cuts
import Testwright.Proofs.Java.Derivation
import Testwright.Proofs.Java.Descriptors
import Testwright.Proofs.Java.Dressing
import Testwright.Proofs.Java.Edits
import Testwright.Proofs.Java.Elements
import Testwright.Proofs.Java.Excerpts
import Testwright.Proofs.Java.Frames
import Testwright.Proofs.Java.Fuel
import Testwright.Proofs.Java.Gaps
import Testwright.Proofs.Java.Keeping
import Testwright.Proofs.Java.Lexing
import Testwright.Proofs.Java.Locality
import Testwright.Proofs.Java.Looks
import Testwright.Proofs.Java.Matching
import Testwright.Proofs.Java.Members
import Testwright.Proofs.Java.Moving
import Testwright.Proofs.Java.Nesting
import Testwright.Proofs.Java.Openings
import Testwright.Proofs.Java.Parameters
import Testwright.Proofs.Java.Parsing
import Testwright.Proofs.Java.Parts
import Testwright.Proofs.Java.Profiles
import Testwright.Proofs.Java.Pruning
import Testwright.Proofs.Java.Readings
import Testwright.Proofs.Java.Reducing
import Testwright.Proofs.Java.Remnants
import Testwright.Proofs.Java.Repeating
import Testwright.Proofs.Java.Revising
import Testwright.Proofs.Java.Scanning
import Testwright.Proofs.Java.Scrubbing
import Testwright.Proofs.Java.Shapes
import Testwright.Proofs.Java.Signatures
import Testwright.Proofs.Java.Spelling
import Testwright.Proofs.Java.Stripping
import Testwright.Proofs.Java.Stubs
import Testwright.Proofs.Java.Tracing
import Testwright.Proofs.Java.Widening
import Testwright.Proofs.Json.Reading
import Testwright.Proofs.Json.Tokens
import Testwright.Proofs.Library.Cache
import Testwright.Proofs.Library.Comparing
import Testwright.Proofs.Library.Racing
import Testwright.Proofs.Library.Searching
import Testwright.Proofs.Project.Abridging
import Testwright.Proofs.Project.Candidates
import Testwright.Proofs.Project.Copying
import Testwright.Proofs.Project.Excerpt
import Testwright.Proofs.Project.Histories
import Testwright.Proofs.Project.Reconciling
import Testwright.Proofs.Project.Recording
import Testwright.Proofs.Project.Separating
import Testwright.Proofs.Project.Vagueness
import Testwright.Proofs.Settings.Decoding
import Testwright.Proofs.Settings.Loading
import Testwright.Proofs.Text.Cutting
import Testwright.Proofs.Text.Encoding
import Testwright.Proofs.Text.Slicing
import Testwright.Proofs.Time.Stamping
import Testwright.Proofs.Workspace.Ignoring
import Testwright.Settings.Basic
import Testwright.Settings.File
import Testwright.Text.Basic
import Testwright.Text.CharClass
import Testwright.Text.Debug
import Testwright.Text.Slice
import Testwright.Text.Utf8
import Testwright.Time.Timestamp
import Testwright.Toml.Reader
import Testwright.Toml.Table
import Testwright.Tool.Compiler
import Testwright.Tool.CoverageCommand
import Testwright.Tool.DecompilerCommand
import Testwright.Tool.Launch
import Testwright.Tool.Process
import Testwright.Tool.Script
import Testwright.Tool.Shell
import Testwright.Tool.Utility
import Testwright.Workspace.Configuration
import Testwright.Workspace.IgnoreEntry
import Testwright.Workspace.Store
