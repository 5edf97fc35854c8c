import Tickpipe.TableFull
import Tickpipe.Lockstep
import Tickpipe.PipelineAgreement
import Tickpipe.RingFifo
import Tickpipe.AtMostOnce
import Tickpipe.LossAccounting
import Tickpipe.PathAgreement
import Tickpipe.SequencedLoss
import Tickpipe.ShareConservation
import Tickpipe.PriceTimePriority
import Tickpipe.FillPrices
import Tickpipe.OrderAccounting
import Tickpipe.OpDigest
import Tickpipe.BookDigest
import Tickpipe.WalRecovery
import Tickpipe.AnalyticsRefinement
import Tickpipe.Volatility
import Tickpipe.RiskLimit
import Tickpipe.LogState
import Tickpipe.MatchedShares
import Tickpipe.Shutdown
import Tickpipe.Subscriptions
import Tickpipe.BookGrammar
import Tickpipe.TradePrints
import Tickpipe.OuchLayout
import Tickpipe.FeedSafety
import Tickpipe.FlushResult
import Tickpipe.Depth
import Tickpipe.ReplayStats
import Tickpipe.RateControl
import Tickpipe.Microprice
import Tickpipe.UnchangedTops
import Tickpipe.Residue
import Tickpipe.Corruption
import Tickpipe.LogError
import Tickpipe.LadderInvariant
import Tickpipe.FeedDelivery
import Tickpipe.ShutdownLiveness
import Tickpipe.ReplayDriver
import Tickpipe.WriteAhead
import Tickpipe.QueueOrder
import Tickpipe.SubscribedBook
import Tickpipe.DatagramCount
import Tickpipe.PipelineShares
import Tickpipe.MirroredDay
import Tickpipe.RingGauge
