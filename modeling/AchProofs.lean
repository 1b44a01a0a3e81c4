import AchProofs.Access.Draft
import AchProofs.Access.Snapshots
import AchProofs.Auth.GrantsSafe
import AchProofs.Auth.Logout
import AchProofs.Auth.RevokedKey
import AchProofs.Cli.CompositeRun
import AchProofs.Cli.ExtractCaps
import AchProofs.Cli.MergeInverse
import AchProofs.Cli.RouteClaims
import AchProofs.Cli.RoutePaths
import AchProofs.Forwarder.Attribution
import AchProofs.Forwarder.Authorised
import AchProofs.Forwarder.KeyMask
import AchProofs.Hydrate.OnlyItem
import AchProofs.Hydrate.RuntimeShield
import AchProofs.Hydrate.SharedTree
import AchProofs.Keys.Allowance
import AchProofs.Keys.ListingComplete
import AchProofs.Keys.ReaperSafe
import AchProofs.Keys.Truthful
import AchProofs.Keystore.Staleness
import AchProofs.Keystore.TokenKinds
import AchProofs.Litellm.BudgetInForce
import AchProofs.Litellm.ReadYourWrites
import AchProofs.Localpkg.CacheTransparent
import AchProofs.Localpkg.InstalledRun
import AchProofs.Operator.AccessGroupConverges
import AchProofs.Operator.AccessGroupWithheld
import AchProofs.Operator.MarketplaceFilters
import AchProofs.Operator.PublishedRun
import AchProofs.Skills.Transports
import AchProofs.Operator.SnapshotBackoff
import AchProofs.Access.DraftEdits
import AchProofs.Localpkg.UninstallPlan
import AchProofs.Localpkg.UpToDate
import AchProofs.Foundation.Tally
import AchProofs.Observability.Usage
import AchProofs.Cli.RouteSafe
import AchProofs.Operator.MarketplaceCache
