import UtilityCss.Main
import UtilityCss.Proofs.Schedule.Delivery
import UtilityCss.Proofs.Schedule.Cycles
import UtilityCss.Session.Dev
import UtilityCss.Session.Server
import UtilityCss.Proofs.Config.References
import UtilityCss.Proofs.Theme.Plan
import UtilityCss.Proofs.Theme.Memory
import UtilityCss.Proofs.Theme.Settling
import UtilityCss.Proofs.Theme.Replay
import UtilityCss.Proofs.Theme.Names
import UtilityCss.Proofs.Theme.Sections
import UtilityCss.Proofs.Theme.Equations
import UtilityCss.Proofs.Theme.ReferenceValues
import UtilityCss.Proofs.Config.Removal
import UtilityCss.Proofs.Config.Presets
import UtilityCss.Proofs.Config.Loading
import UtilityCss.Proofs.Theme.Likeness
import UtilityCss.Proofs.Theme.Replaced
import UtilityCss.Proofs.Config.Precedence
import UtilityCss.Proofs.Session.Cycle
import UtilityCss.Proofs.Session.Run
import UtilityCss.Proofs.Session.Freshness
import UtilityCss.Proofs.Session.Recovery
import UtilityCss.Proofs.Stylesheet.Declarations
import UtilityCss.Proofs.Stylesheet.Places
import UtilityCss.Proofs.Stylesheet.Uncommented
import UtilityCss.Proofs.Value.Merge
import UtilityCss.Proofs.Theme.TokenTable
import UtilityCss.Proofs.Theme.Upkeep
import UtilityCss.Proofs.Theme.Bridging
import UtilityCss.Proofs.Theme.Descent
import UtilityCss.Proofs.Theme.Circularity
import UtilityCss.Proofs.Glob.Literal
import UtilityCss.Proofs.Path.Components
import UtilityCss.Proofs.Source.FixedStart
import UtilityCss.Proofs.FileTree
import UtilityCss.Proofs.Ignore.Walk
import UtilityCss.Proofs.Source.DeclaredScan
import UtilityCss.Proofs.Ignore.SoleFile
import UtilityCss.Proofs.Source.Refusals
import UtilityCss.Proofs.Source.Agreement
import UtilityCss.Proofs.Path.Join
import UtilityCss.Proofs.Source.Stability
import UtilityCss.Proofs.Session.Reading
import UtilityCss.Proofs.Session.Rereading
import UtilityCss.Proofs.Path.Location
import UtilityCss.Proofs.Stylesheet.ImportTree
import UtilityCss.Proofs.Stylesheet.Flattening
import UtilityCss.Proofs.Session.Coverage
import UtilityCss.Proofs.FileTree.Outline
import UtilityCss.Proofs.Project.ThemeFiles
import UtilityCss.Proofs.Session.Requests
import UtilityCss.Proofs.Session.Isolation
import UtilityCss.Proofs.Session.Server
import UtilityCss.Proofs.Session.Replies
import UtilityCss.Proofs.Session.Settling
import UtilityCss.Proofs.Source.ScannedFiles
import UtilityCss.Proofs.Project.Catalog
import UtilityCss.Proofs.Session.BuildAgreement
import UtilityCss.Proofs.FileTree.Directories
import UtilityCss.Proofs.Glob.Spelled
import UtilityCss.Proofs.Source.ProjectRoot
import UtilityCss.Proofs.Project.Output
import UtilityCss.Proofs.Stylesheet.Body
import UtilityCss.Proofs.Stylesheet.RoundTrip
import UtilityCss.Proofs.Source.Roots
import UtilityCss.Proofs.Source.Registration
import UtilityCss.Proofs.Stylesheet.Statements
import UtilityCss.Proofs.Project.KeptImports
import UtilityCss.Proofs.Stylesheet.EngineImports
import UtilityCss.Proofs.Stylesheet.ThemeBoundaries
import UtilityCss.Proofs.Stylesheet.RootDetection
import UtilityCss.Proofs.Candidate.Tokens
import UtilityCss.Proofs.Candidate.Quoted
import UtilityCss.Proofs.Path.NormalForm
import UtilityCss.Proofs.Path.Relative
import UtilityCss.Proofs.Ignore.Views
import UtilityCss.Proofs.Source.SpelledRoot
import UtilityCss.Proofs.Source.Spellings
import UtilityCss.Proofs.CommandLine.Candidates
import UtilityCss.Proofs.Value.Paths
import UtilityCss.Proofs.Value.MergedPaths
import UtilityCss.Proofs.Theme.CanonicalTable
import UtilityCss.Proofs.Theme.TokenHistory
import UtilityCss.Proofs.Theme.Repetition
import UtilityCss.Proofs.Candidate.Pool
import UtilityCss.Proofs.Text.Cut
import UtilityCss.Proofs.Theme.KeyPath
import UtilityCss.Proofs.Config.Placement
import UtilityCss.Proofs.Value.Strings
import UtilityCss.Proofs.Config.Calls
import UtilityCss.Proofs.Theme.LiteralTexts
import UtilityCss.Proofs.Text.Ink
import UtilityCss.Proofs.Stylesheet.Contributions
import UtilityCss.Proofs.Stylesheet.Identifier
import UtilityCss.Proofs.Candidate.Selectors
import UtilityCss.Proofs.Candidate.Rules
import UtilityCss.Proofs.FileTree.Writing
import UtilityCss.Proofs.Project.BuildOutcome
import UtilityCss.Proofs.Theme.Moments
import UtilityCss.Proofs.Text.Slices
import UtilityCss.Proofs.Stylesheet.ThemeLocation
