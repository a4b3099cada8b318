import Sand.Security.Authorization
import Sand.Dividend.Credit
import Sand.Value.Conservation
import Sand.Security.NoFreeze
import Sand.State.Writing
import Sand.State.Succ
import Sand.Ledger.ForEachItem
import Sand.Tx.SignerReserve
import Sand.Protocol.TxRoundTrip
import Sand.Amendment.Activation
import Sand.Chain.SkipList
import Sand.Dividend.Batches
import Sand.Consensus.Coverage
import Sand.Security.MultiSign
import Sand.SHAMap.Comparison
import Sand.Consensus.CloseTime
import Sand.Overlay.Manifest
import Sand.Consensus.Validations
import Sand.Paths.WellFormed
import Sand.Open.LocalTxs
import Sand.Overlay.PeerFinder
import Sand.Chain.AccountTxPaging
import Sand.Protocol.NativeProduct
import Sand.Protocol.IOUAmount
import Sand.Ledger.Crediting
import Sand.Chain.LedgerHistory
import Sand.Chain.LedgerMaster
import Sand.Tx.SelfPayment
import Sand.Protocol.AmountText
import Sand.Protocol.JsonInteger
import Sand.Protocol.CurrencyText
import Sand.Chain.RangeSet
import Sand.Chain.ValidatedRange
import Sand.Overlay.DecayingSample
import Sand.Overlay.HashRouter
