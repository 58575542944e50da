import AsyncImport.Activity
import AsyncImport.Assoc
import AsyncImport.Config.Documented
import AsyncImport.Config.Field
import AsyncImport.Config.Records
import AsyncImport.Config.Settings
import AsyncImport.Config.TomlFile
import AsyncImport.Draft.Basic
import AsyncImport.Draft.Options
import AsyncImport.Event.Bus
import AsyncImport.Event.Emit
import AsyncImport.Event.Pattern
import AsyncImport.Fault
import AsyncImport.Files
import AsyncImport.Glob
import AsyncImport.Heap
import AsyncImport.Heap.Snapshot
import AsyncImport.Heap.View
import AsyncImport.Loader.Build
import AsyncImport.Loader.Events
import AsyncImport.Loader.Fetch
import AsyncImport.Loader.Names
import AsyncImport.Loader.Stages
import AsyncImport.Loader.Waits
import AsyncImport.Log
import AsyncImport.Manager.Cache
import AsyncImport.Manager.Create
import AsyncImport.Manager.Providers
import AsyncImport.Module.Basic
import AsyncImport.Number.Binary
import AsyncImport.Number.Decimal
import AsyncImport.Number.Shortest
import AsyncImport.Pipeline
import AsyncImport.Plugin.Basic
import AsyncImport.Plugin.Matching
import AsyncImport.Plugin.Registration
import AsyncImport.Plugin.Rules
import AsyncImport.Plugin.Run
import AsyncImport.Proofs.Circularity
import AsyncImport.Proofs.Emission
import AsyncImport.Proofs.Enrolment
import AsyncImport.Proofs.FixedDependencies
import AsyncImport.Proofs.HookKeys
import AsyncImport.Proofs.HookRuns
import AsyncImport.Proofs.Ignoring
import AsyncImport.Proofs.Loaded
import AsyncImport.Proofs.PathGlobs
import AsyncImport.Proofs.Records
import AsyncImport.Proofs.Unison
import AsyncImport.Session.Call
import AsyncImport.Session.Convert
import AsyncImport.Session.Create
import AsyncImport.Session.Evaluate
import AsyncImport.Session.Execute
import AsyncImport.Session.Loading
import AsyncImport.Session.Members
import AsyncImport.Session.Plugins
import AsyncImport.Session.Procedures
import AsyncImport.Session.Records
import AsyncImport.Session.Run
import AsyncImport.Session.Script
import AsyncImport.Store
import AsyncImport.Task.Await
import AsyncImport.Task.Future
import AsyncImport.Task.Machine
import AsyncImport.Task.Routine
import AsyncImport.Task.Schedule
import AsyncImport.Text.Printable
import AsyncImport.Text.Quoted
import AsyncImport.Text.Regex
import AsyncImport.Text.Split
import AsyncImport.Text.Upper
import AsyncImport.Text.Wildcard
import AsyncImport.Toml.Moment
import AsyncImport.Toml.Number
import AsyncImport.Toml.Reader
import AsyncImport.Toml.Scan
import AsyncImport.Toml.Table
import AsyncImport.Toml.Text
import AsyncImport.Toml.Writer
import AsyncImport.Value.Basic
import AsyncImport.Value.Data
import AsyncImport.Value.Key
import AsyncImport.Value.Load
import AsyncImport.World
import AsyncImport.Proofs.Assembling
import AsyncImport.Proofs.Recording
import AsyncImport.Proofs.StageOrder
import AsyncImport.Proofs.Composing
import AsyncImport.Proofs.Constructing
import AsyncImport.Proofs.PluginNames
import AsyncImport.Proofs.Settings
import AsyncImport.Proofs.Completion
import AsyncImport.Proofs.EventPatterns
import AsyncImport.Proofs.SettingsFiles
