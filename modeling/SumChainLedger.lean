import SumChainLedger.Bytes
import SumChainLedger.TxParser.Defs
import SumChainLedger.TxParser.Fee
import SumChainLedger.TxParser.Stream
import SumChainLedger.TxParser.Chunking
import SumChainLedger.TxParser.Grammar
import SumChainLedger.TxParser.Record
import SumChainLedger.TxParser.Loop
import SumChainLedger.Base58
import SumChainLedger.Display
import SumChainLedger.Crypto
import SumChainLedger.App.Handlers
import SumChainLedger.App.Session
import SumChainLedger.App.Signing
import SumChainLedger.App.Keys
import SumChainLedger.App.Main
