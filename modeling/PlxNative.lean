import PlxNative.Machine.LandingStream
import PlxNative.Watchlist.LedgerConvergence
import PlxNative.Watchlist.LedgerReads
import PlxNative.Watchlist.StoreAttribution
import PlxNative.ViewState.Replay
import PlxNative.ViewState.WriteLedger
import PlxNative.Paging.WindowWalk
import PlxNative.Storage.Domains
import PlxNative.Storage.Commits
import PlxNative.Feed.AuCaps
import PlxNative.Machine.LandRecording
import PlxNative.Machine.LandScene
import PlxNative.Net.RedirectSecrecy
import PlxNative.Http.BodyExact
import PlxNative.Http.Interruption
import PlxNative.Abr.Funding
import PlxNative.Hud.Strays
import PlxNative.Hud.Selection
import PlxNative.Recovery.Ladder
import PlxNative.Worker.Retained
import PlxNative.Feed.ClockViewer
import PlxNative.Grant.Consent
import PlxNative.Grant.Refusals
import PlxNative.Browse.RailStands
import PlxNative.Reconcile.Stops
import PlxNative.Deck.Passed
import PlxNative.Watchlist.HexId
import PlxNative.Hash.Agreement
import PlxNative.Net.RequestText
import PlxNative.Abr.Capacity
import PlxNative.Paging.Keys
import PlxNative.Paging.HubList
import PlxNative.Hls.Credential
import PlxNative.Net.Base
import PlxNative.Hls.RoundTrip
import PlxNative.Notify.Runs
import PlxNative.Hud.Visits
import PlxNative.Hud.Cached
import PlxNative.Hud.Reread
import PlxNative.Hud.Restart
import PlxNative.HudFormat.Rasteriser
import PlxNative.HudFormat.Reach
import PlxNative.Feed.ClockRefusals
import PlxNative.Feed.NativeProbe
import PlxNative.Feed.Recovery
import PlxNative.Feed.UserPause
import PlxNative.Scrub.Identities
import PlxNative.Merge.Allot
import PlxNative.Storage.Sizes
import PlxNative.Telemetry.Trim
