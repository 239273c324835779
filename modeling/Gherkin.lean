import Gherkin.Action
import Gherkin.AttachmentStore
import Gherkin.CommandLine
import Gherkin.Context
import Gherkin.Csv
import Gherkin.Document
import Gherkin.Duration
import Gherkin.Evaluate
import Gherkin.Feature
import Gherkin.FileSystem
import Gherkin.Import
import Gherkin.Json.Basic
import Gherkin.Json.Reader
import Gherkin.Json.Writer
import Gherkin.Main
import Gherkin.Normal
import Gherkin.Number.Binary64
import Gherkin.Objects
import Gherkin.Outline
import Gherkin.Pairs
import Gherkin.Path
import Gherkin.Record
import Gherkin.Reference
import Gherkin.Registry
import Gherkin.Run
import Gherkin.Scope
import Gherkin.Scopes
import Gherkin.Settings
import Gherkin.Shape
import Gherkin.Source
import Gherkin.Status
import Gherkin.Tag
import Gherkin.Template
import Gherkin.Template.Cursor
import Gherkin.Text.Blank
import Gherkin.Text.Bytes
import Gherkin.Text.Split
import Gherkin.Text.Unsigned
import Gherkin.Yaml.Basic
import Gherkin.Yaml.Lexer
import Gherkin.Yaml.Merge
import Gherkin.Yaml.Node
import Gherkin.Yaml.Plain
import Gherkin.Yaml.Quoted
import Gherkin.Yaml.Reader
import Gherkin.Yaml.Scalar
import Gherkin.Yaml.Spot
import Gherkin.Yaml.Token
import Gherkin.Proofs.Outcomes
import Gherkin.Proofs.Execution
import Gherkin.Proofs.Invariance
import Gherkin.Proofs.Verdict
import Gherkin.Proofs.StagedFolds
import Gherkin.Proofs.Failures
import Gherkin.Proofs.Restoration
import Gherkin.Proofs.Policies
import Gherkin.Proofs.RegistryHistory
import Gherkin.Proofs.Resolution
import Gherkin.Proofs.Matching
import Gherkin.Proofs.MatchingChecks
import Gherkin.Proofs.CanonicalPaths
import Gherkin.Proofs.ImportVisits
import Gherkin.Proofs.ImportOrder
import Gherkin.Proofs.ImportRecursion
import Gherkin.Proofs.LinkFree
import Gherkin.Proofs.MetaForm
import Gherkin.Proofs.Provenance
import Gherkin.Proofs.CallHistories
import Gherkin.Proofs.LoadedMetas
import Gherkin.Proofs.RegisteredMetas
import Gherkin.Proofs.Spellings
import Gherkin.Proofs.SingleLoading
import Gherkin.Proofs.ReferenceTokens
import Gherkin.Proofs.Interpolation
import Gherkin.Proofs.Escaping
import Gherkin.Proofs.QuotedRules
import Gherkin.Proofs.RecordBinding
import Gherkin.Proofs.RecordRows
import Gherkin.Proofs.EvaluationShape
import Gherkin.Proofs.Moments
import Gherkin.Proofs.Journal
import Gherkin.Proofs.Recursion
import Gherkin.Proofs.ReachedSteps
import Gherkin.Proofs.DryRun
import Gherkin.Proofs.Declarations
import Gherkin.Proofs.ParallelRuns
import Gherkin.Proofs.HiddenValues
import Gherkin.Proofs.OutlineRows
import Gherkin.Proofs.NormalForm
import Gherkin.Proofs.AttachmentHistory
import Gherkin.Proofs.FailureAttachments
import Gherkin.Proofs.SecondRun
import Gherkin.Proofs.Bracketing
import Gherkin.Proofs.TagText
import Gherkin.Proofs.DocumentFields
import Gherkin.Proofs.DocumentRoundTrip
import Gherkin.Proofs.NormalDocuments
import Gherkin.Proofs.RegistryContents
import Gherkin.Proofs.Substitution
import Gherkin.Proofs.TableRows
import Gherkin.Proofs.OutlineExpansion
import Gherkin.Proofs.Idempotence
import Gherkin.Proofs.SkippedImports
import Gherkin.Proofs.BuiltinRules
import Gherkin.Proofs.NearestTable
import Gherkin.Proofs.ScopeLookup
import Gherkin.Proofs.FilteredScopes
import Gherkin.Proofs.ObjectStacks
import Gherkin.Proofs.SettingLeaves
import Gherkin.Proofs.NumberedNames
import Gherkin.Proofs.JoinedNames
import Gherkin.Proofs.ByteOrder
import Gherkin.Proofs.AttachmentNames
import Gherkin.Proofs.JobDirectories
import Gherkin.Proofs.DirectoryWalk
import Gherkin.Proofs.FeatureDiscovery
import Gherkin.Proofs.Segmentation
