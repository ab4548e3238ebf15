import IllumioOps.Filter.PcePayload
import IllumioOps.Store.Connections
import IllumioOps.Store.Pairing
import IllumioOps.Store.Growth
import IllumioOps.Store.Rollups
import IllumioOps.Collect.Coverage
import IllumioOps.Policy.IpListDiff
import IllumioOps.Policy.LabelGroups
import IllumioOps.Policy.RowsScoped
import IllumioOps.Exposure.Deny
import IllumioOps.Exposure.Pivots
import IllumioOps.Siem.StreamTransport
import IllumioOps.Siem.NoSkip
import IllumioOps.Collect.AddressChange
import IllumioOps.Collect.ResetRaces
import IllumioOps.Collect.Archive
import IllumioOps.Collect.Watermarks
import IllumioOps.Collect.Switches
import IllumioOps.Rules.Checks
import IllumioOps.Rules.Leftovers
import IllumioOps.Alerts.EventsTaken
import IllumioOps.Alerts.DetectionsAlerted
import IllumioOps.Alerts.Batches
import IllumioOps.Alerts.Dispatch
import IllumioOps.Alerts.Rises
import IllumioOps.Settings.Store
import IllumioOps.Siem.Mask
import IllumioOps.Writes.Accounted
import IllumioOps.Siem.CefReads
import IllumioOps.Siem.Framing
import IllumioOps.Rules.NextChange
import IllumioOps.Collect.Windows
import IllumioOps.Alerts.NewGrowth
import IllumioOps.Alerts.Throttled
import IllumioOps.Detectors.BlockedHistory
import IllumioOps.Rules.Notes
import IllumioOps.Settings.FailedWrites
import IllumioOps.Siem.Resend
import IllumioOps.Siem.Outage
import IllumioOps.Reports.Schedules
import IllumioOps.Migrate.AlertsMigrated
import IllumioOps.Alerts.NextAllowed
import IllumioOps.Alerts.DetectionsMerged
import IllumioOps.Store.LabelSets
import IllumioOps.Store.NewConnections
import IllumioOps.Store.BaselineOrder
import IllumioOps.Store.Unchanged
import IllumioOps.Pce.RateLimit
import IllumioOps.Rhc.Provisioned
import IllumioOps.Alerts.Anchored
import IllumioOps.Alerts.Preselection
import IllumioOps.Collect.ArchiveRead
import IllumioOps.Collect.OnDemand
import IllumioOps.Store.Gate
import IllumioOps.Collect.Leases
import IllumioOps.Reports.Queue
import IllumioOps.Web.Credentials
import IllumioOps.Web.Sessions
import IllumioOps.Pce.AsyncQuery
import IllumioOps.Pce.Collections
import IllumioOps.Store.Migrations
