import BuenzliCoin.Base.DigestValue
import BuenzliCoin.Chain.Adding
import BuenzliCoin.Chain.Built
import BuenzliCoin.Chain.Progress
import BuenzliCoin.Chain.Tamper
import BuenzliCoin.Chain.TimeChecks
import BuenzliCoin.Chain.Work
import BuenzliCoin.Ledger.Balance
import BuenzliCoin.Ledger.Cleaning
import BuenzliCoin.Ledger.Custody
import BuenzliCoin.Ledger.Pooling
import BuenzliCoin.Node.Announcement
import BuenzliCoin.Node.Convergence
import BuenzliCoin.Node.Failure
import BuenzliCoin.Node.ForkChoice
import BuenzliCoin.Node.Lockstep
import BuenzliCoin.Node.Malformed
import BuenzliCoin.Node.Mining
import BuenzliCoin.Node.Network
import BuenzliCoin.Node.Offers
import BuenzliCoin.Node.Ownership
import BuenzliCoin.Node.Persistence
import BuenzliCoin.Node.Replica
import BuenzliCoin.Node.Session
import BuenzliCoin.Node.Startup
import BuenzliCoin.Node.Supply
import BuenzliCoin.Node.Sync
import BuenzliCoin.Node.Tasks
import BuenzliCoin.Node.UniqueKeys
import BuenzliCoin.Wallet.Address
import BuenzliCoin.Wallet.Payment
import BuenzliCoin.Web.WebSocketClient
