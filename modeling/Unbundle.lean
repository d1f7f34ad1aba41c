import Unbundle.Build.Report
import Unbundle.Build.Session
import Unbundle.Build.WorkUnit
import Unbundle.CommandLine
import Unbundle.CorePackage
import Unbundle.Declaration.Capture
import Unbundle.Declaration.File
import Unbundle.Declaration.Issue
import Unbundle.Declaration.Opener
import Unbundle.Declaration.Slice
import Unbundle.Declaration.Stream
import Unbundle.Failure
import Unbundle.Files.Disk
import Unbundle.Files.Path
import Unbundle.Files.Tree
import Unbundle.Files.Walk
import Unbundle.Implementation.Imports
import Unbundle.Implementation.Module
import Unbundle.Implementation.Source
import Unbundle.Layout
import Unbundle.Main
import Unbundle.Package
import Unbundle.Proofs.Declaration.Damage
import Unbundle.Proofs.Declaration.Document
import Unbundle.Proofs.Declaration.DocumentRun
import Unbundle.Proofs.Declaration.Grammar
import Unbundle.Proofs.Declaration.Independence
import Unbundle.Proofs.Declaration.Openers
import Unbundle.Proofs.Declaration.Positions
import Unbundle.Proofs.Declaration.Provenance
import Unbundle.Proofs.Declaration.Spans
import Unbundle.Proofs.Declaration.Steps
import Unbundle.Proofs.Reference.Cut
import Unbundle.Proofs.Reference.Runs
import Unbundle.Proofs.Reference.Runwise
import Unbundle.Reference.Rule
import Unbundle.Reference.Rules
import Unbundle.Scope
import Unbundle.Settings
import Unbundle.Settings.File
import Unbundle.Settings.Toml
import Unbundle.StableSort
import Unbundle.Text.Blank
import Unbundle.Text.Lines
import Unbundle.Text.Ranges
import Unbundle.Text.Recognize
import Unbundle.Text.Search
import Unbundle.Text.Word
import Unbundle.Types.Directory
import Unbundle.Types.Enums
import Unbundle.Proofs.Declaration.Balance
import Unbundle.Proofs.Declaration.Reopening
import Unbundle.Proofs.Declaration.Inline
import Unbundle.Proofs.Declaration.SelfReference
import Unbundle.Proofs.Build.Isolation
import Unbundle.Proofs.Build.Opened
import Unbundle.Proofs.Build.AnyOrder
import Unbundle.Proofs.Implementation.Reexports
import Unbundle.Proofs.Build.Beside
import Unbundle.Proofs.Build.EnumTargets
import Unbundle.Proofs.Build.SliceImports
import Unbundle.Proofs.Build.Accounts
import Unbundle.Proofs.Build.Gate
import Unbundle.Proofs.Build.Approach
import Unbundle.Proofs.Build.CleanBuild
import Unbundle.Proofs.Build.Rebuild
import Unbundle.Proofs.Build.Memoized
import Unbundle.Proofs.Build.Mirrored
import Unbundle.Proofs.Implementation.Resolved
import Unbundle.Proofs.Reference.Sweep
import Unbundle.Proofs.Declaration.Permanence
import Unbundle.Proofs.Declaration.Concatenation
import Unbundle.Proofs.Declaration.Encoded
import Unbundle.Proofs.Build.TypesIndex
import Unbundle.Proofs.Reference.Precedence
import Unbundle.Proofs.Files.Filled
import Unbundle.Proofs.Types.EnumsIndex
import Unbundle.Proofs.Types.EnumsModule
import Unbundle.Proofs.Implementation.Escapes
import Unbundle.Proofs.CoreIndex
