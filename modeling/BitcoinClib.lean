import BitcoinClib.Lib.Exec
import BitcoinClib.Lib.Matching
import BitcoinClib.Lib.MaximalRuns
import BitcoinClib.Tx.LegacyDigest
import BitcoinClib.Tx.Bip143
import BitcoinClib.Tx.SignatureHash
import BitcoinClib.Tx.Layout
import BitcoinClib.Tx.RoundTrip
import BitcoinClib.Block.Codec
import BitcoinClib.Block.RoundTrip
import BitcoinClib.Block.Binding
import BitcoinClib.Block.HeaderVerify
import BitcoinClib.Block.MerkleTree
import BitcoinClib.Script.Checksig
import BitcoinClib.Script.Multisig
import BitcoinClib.Script.Stack
import BitcoinClib.Script.P2sh
import BitcoinClib.Script.Witness
import BitcoinClib.Script.Context
import BitcoinClib.Script.Vectors
import BitcoinClib.Script.Reach
import BitcoinClib.Script.Truth
import BitcoinClib.Script.Structured
import BitcoinClib.Script.Conditionals
import BitcoinClib.Script.Starts
import BitcoinClib.Script.Depth
import BitcoinClib.Script.Underflow
import BitcoinClib.Script.Returning
import BitcoinClib.Script.WordSafety
import BitcoinClib.Script.CallSafety
import BitcoinClib.Net.Framing
import BitcoinClib.Net.Dispatch
import BitcoinClib.Chains.Types
import BitcoinClib.Chains.Queue
import BitcoinClib.Chains.ActiveChain
import BitcoinClib.Chains.Blockchain
import BitcoinClib.Chains.Links
import BitcoinClib.Chains.Lists
import BitcoinClib.Chains.Heirs
import BitcoinClib.Chains.Reorganise
import BitcoinClib.Chains.Calls
import BitcoinClib.Chains.Mirror
import BitcoinClib.Chains.Tip
import BitcoinClib.Chains.Duplicates
import BitcoinClib.Chains.Linear
import BitcoinClib.Chains.Runs
import BitcoinClib.Chains.Synchronise
import BitcoinClib.Chains.AnyOrder
import BitcoinClib.HeadersDb.AppRun
import BitcoinClib.Script.WitnessStart
import BitcoinClib.Script.ScriptCode
import BitcoinClib.Tx.LengthChecks
import BitcoinClib.Chains.Switch
import BitcoinClib.Chains.Held
import BitcoinClib.Net.Headers
import BitcoinClib.Lib.Ledger
import BitcoinClib.Lib.Attempt
import BitcoinClib.Tx.Memory
import BitcoinClib.Tx.PlainDigest
import BitcoinClib.Tx.Txid
import BitcoinClib.Block.Reuse
import BitcoinClib.Lib.Buffer
import BitcoinClib.Lib.Numeral
import BitcoinClib.Chains.Locator
import BitcoinClib.Net.InputBuffer
import BitcoinClib.Net.OnWrite
import BitcoinClib.Net.Serialize
import BitcoinClib.Encoding.Base58
import BitcoinClib.Encoding.Base58Digits
import BitcoinClib.Encoding.Base58Encoder
import BitcoinClib.Encoding.Base58Decoder
import BitcoinClib.Encoding.Base58RoundTrip
import BitcoinClib.Lib.Sextets
import BitcoinClib.Encoding.Base64
import BitcoinClib.Encoding.Base64RoundTrip
import BitcoinClib.Lib.Json
import BitcoinClib.Lib.Fifo
import BitcoinClib.Utils.AutoBuffer
import BitcoinClib.Utils.AvlTree
import BitcoinClib.Utils.AvlIter
import BitcoinClib.Utils.AvlInsert
import BitcoinClib.Lib.KeyOrder
import BitcoinClib.Utils.AvlDelete
import BitcoinClib.Utils.AvlRuns
import BitcoinClib.Encoding.JsonWebToken
import BitcoinClib.Encoding.JsonWebTokenClaims
import BitcoinClib.Lib.Ring
import BitcoinClib.Chains.QueueRuns
import BitcoinClib.Chains.Traversal
import BitcoinClib.Lib.Siblings
import BitcoinClib.Chains.Inheritance
import BitcoinClib.Lib.Election
import BitcoinClib.Chains.Family
import BitcoinClib.Chains.Growth
import BitcoinClib.Lib.Latest
import BitcoinClib.Net.AddressBook
import BitcoinClib.Net.Session
import BitcoinClib.Db.Find
import BitcoinClib.Db.Lookup
import BitcoinClib.Lib.SelfDelimiting
import BitcoinClib.Script.Growth
import BitcoinClib.Script.PushData
import BitcoinClib.Script.OutputKind
import BitcoinClib.Script.Payload
import BitcoinClib.Lib.Stages
import BitcoinClib.Db.OpenList
import BitcoinClib.Db.OpenListRuns
import BitcoinClib.Rpc.Requests
import BitcoinClib.Rpc.Registry
import BitcoinClib.Rpc.RegistryRuns
import BitcoinClib.Lib.Spanning
import BitcoinClib.Chains.Reweighing
import BitcoinClib.Chains.Edges
import BitcoinClib.Chains.TagRules
import BitcoinClib.Chains.Succession
import BitcoinClib.Chains.TagRounds
import BitcoinClib.Chains.Candidates
import BitcoinClib.Chains.Records
import BitcoinClib.HeadersDb.Restart
import BitcoinClib.Chains.Arrivals
import BitcoinClib.Net.GetHeaders
import BitcoinClib.Net.Download
