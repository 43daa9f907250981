import MonetaryUnit.Serialize.Mutable
import MonetaryUnit.Serialize.VarInt
import MonetaryUnit.Crypto.StreamingHash
import MonetaryUnit.Coins.BestBlock
import MonetaryUnit.Coins.Stored
import MonetaryUnit.Chain.SteadyState
import MonetaryUnit.Chain.Restart
import MonetaryUnit.Chain.Invalidate
import MonetaryUnit.Chain.MedianTime
import MonetaryUnit.Script.FlagMonotone
import MonetaryUnit.Script.SigOpBound
import MonetaryUnit.Script.DerSignature
import MonetaryUnit.Script.Combine
import MonetaryUnit.Validation.AmountRange
import MonetaryUnit.Validation.ChainRuns
import MonetaryUnit.Merkle.Branch
import MonetaryUnit.Merkle.Extraction
import MonetaryUnit.Merkle.TreeSize
import MonetaryUnit.Net.Relay
import MonetaryUnit.Net.Alerts
import MonetaryUnit.Net.BlockDownload
import MonetaryUnit.Net.OrphanPool
import MonetaryUnit.Net.AddrManRoundTrip
import MonetaryUnit.Wallet.KeyPool
import MonetaryUnit.Wallet.CoinSelection
import MonetaryUnit.Validation.StandardInputs
import MonetaryUnit.Validation.CheckQueue
import MonetaryUnit.Storage.Durability
import MonetaryUnit.Streams.DataStream
import MonetaryUnit.Streams.BufferedFile
