import SchemaAudit.Audit.Log
import SchemaAudit.Cli.Run
import SchemaAudit.Json.Printer
import SchemaAudit.Json.Reader
import SchemaAudit.Main
import SchemaAudit.Output
import SchemaAudit.Settings.Discovery
import SchemaAudit.Source
import SchemaAudit.Proofs.Walk
import SchemaAudit.Proofs.Reach
import SchemaAudit.Proofs.Findings
import SchemaAudit.Proofs.Tags
import SchemaAudit.Proofs.Verdicts
import SchemaAudit.Proofs.Lockstep
import SchemaAudit.Proofs.Judgement
import SchemaAudit.Proofs.References
import SchemaAudit.Proofs.Scale
import SchemaAudit.Proofs.Paths
import SchemaAudit.Proofs.Sources
import SchemaAudit.Proofs.Identity
import SchemaAudit.Proofs.SettingsFile
import SchemaAudit.Proofs.WorkflowCommands
import SchemaAudit.Proofs.BranchOrder
import SchemaAudit.Proofs.Governance
import SchemaAudit.Proofs.Warnings
import SchemaAudit.Proofs.Grammar
import SchemaAudit.Proofs.ByteOrder
import SchemaAudit.Proofs.Roots
import SchemaAudit.Proofs.Footprint
import SchemaAudit.Proofs.DistinctKeys
import SchemaAudit.Proofs.MemberOrder
import SchemaAudit.Proofs.Pointers
import SchemaAudit.Proofs.Faults
import SchemaAudit.Proofs.LintRuns
import SchemaAudit.Proofs.ReadBack
import SchemaAudit.Proofs.Classification
import SchemaAudit.Proofs.ExitCodes
import SchemaAudit.Proofs.LosslessReports
import SchemaAudit.Proofs.TagFields
import SchemaAudit.Proofs.Names
import SchemaAudit.Proofs.Precedence
import SchemaAudit.Proofs.Collection
import SchemaAudit.Proofs.CoreForm
import SchemaAudit.Proofs.Distinctions
import SchemaAudit.Proofs.Accounts
import SchemaAudit.Proofs.Ancestors
import SchemaAudit.Proofs.Loading
import SchemaAudit.Proofs.SettingsTokens
import SchemaAudit.Proofs.SettingsText
