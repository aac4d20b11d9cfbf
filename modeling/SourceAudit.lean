import SourceAudit.Main
import SourceAudit.Proofs.Files.Chunks
import SourceAudit.Proofs.Highlight.Shown
import SourceAudit.Proofs.Php.OpenActions
import SourceAudit.Proofs.Php.Readings
import SourceAudit.Proofs.Report.AtOnce
import SourceAudit.Proofs.Report.Evidence
import SourceAudit.Proofs.Report.Markup
import SourceAudit.Proofs.Report.Overview
import SourceAudit.Proofs.Review.Cleanup
import SourceAudit.Proofs.Review.Configs
import SourceAudit.Proofs.Rules.Agreement
import SourceAudit.Proofs.Rules.Hiding
import SourceAudit.Proofs.Rules.Losses
import SourceAudit.Proofs.Rules.Removal
import SourceAudit.Proofs.Scan.Best
import SourceAudit.Proofs.Taint.Stops
import SourceAudit.Proofs.Taint.Comments
import SourceAudit.Proofs.Taint.Decoding
import SourceAudit.Proofs.Taint.Output
import SourceAudit.Proofs.Taint.Includes
import SourceAudit.Proofs.Taint.Isolation
import SourceAudit.Proofs.Taint.Provenance
import SourceAudit.Proofs.Taint.Reassembly
import SourceAudit.Proofs.Taint.Scopes
import SourceAudit.Proofs.Taint.Switch
import SourceAudit.Proofs.Workbench.Answers
import SourceAudit.Proofs.Workbench.Belonging
import SourceAudit.Proofs.Workbench.Printing
import SourceAudit.Proofs.Workbench.View
import SourceAudit.Startup
import SourceAudit.Theme
import SourceAudit.Workbench.Options
