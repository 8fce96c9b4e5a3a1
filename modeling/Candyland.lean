import Candyland.Bubblegum.Assets
import Candyland.Bubblegum.Availability
import Candyland.Bubblegum.Delegation
import Candyland.Bubblegum.Events
import Candyland.ConcurrentMerkleTree.AppendAsWrite
import Candyland.ConcurrentMerkleTree.Batch
import Candyland.ConcurrentMerkleTree.BatchAppend
import Candyland.ConcurrentMerkleTree.Buffers
import Candyland.ConcurrentMerkleTree.ConcurrentReplace
import Candyland.ConcurrentMerkleTree.CurrentProofs
import Candyland.ConcurrentMerkleTree.FillEmpty
import Candyland.ConcurrentMerkleTree.InferredProofs
import Candyland.ConcurrentMerkleTree.ProofPatch
import Candyland.ConcurrentMerkleTree.Push
import Candyland.ConcurrentMerkleTree.Refinement
import Candyland.DigitalAssetTypes.AssetProof
import Candyland.GumballMachine.ConfigLines
import Candyland.GumballMachine.DropRuns
import Candyland.GumballMachine.Metadata
import Candyland.GumballMachine.Payment
import Candyland.GumballMachine.Royalties
import Candyland.GumballMachine.Sale
import Candyland.GumballMachine.UnlistedItems
import Candyland.Gummyroll.BatchInit
import Candyland.Gummyroll.EventLog
import Candyland.Gummyroll.ShortProofs
import Candyland.Gummyroll.Transparency
import Candyland.Gummyroll.VerifyLeaf
import Candyland.Lib.Borsh
import Candyland.Lib.LastSet
import Candyland.Lib.MerkleTree
import Candyland.Lib.Table
import Candyland.MerkleTreeReference.Runs
import Candyland.NftApi.AssetProofs
import Candyland.NftApi.Main
import Candyland.NftIngester.AssetRows
import Candyland.NftIngester.BackfillRest
import Candyland.NftIngester.DeliveryOrder
import Candyland.NftIngester.EndToEnd
import Candyland.NftIngester.EventExtraction
import Candyland.NftIngester.LogAttribution
import Candyland.NftIngester.Replica
import Candyland.Sdk.Indexer.ArrivalOrder
import Candyland.Sdk.Indexer.AssetsForOwner
import Candyland.Sdk.Indexer.AtomicIngestion
import Candyland.Sdk.Indexer.Backfiller
import Candyland.Sdk.Indexer.Calls
import Candyland.Sdk.Indexer.Database
import Candyland.Sdk.Indexer.GapFilling
import Candyland.Sdk.Indexer.GapFree
import Candyland.Sdk.Indexer.History
import Candyland.Sdk.Indexer.InferredProofs
import Candyland.Sdk.Indexer.InnerWalk
import Candyland.Sdk.Indexer.Instruction
import Candyland.Sdk.Indexer.Layouts
import Candyland.Sdk.Indexer.Log
import Candyland.Sdk.Indexer.LogText
import Candyland.Sdk.Indexer.MissingSlots
import Candyland.Sdk.Indexer.Queries
import Candyland.Sdk.Indexer.Slots
import Candyland.Sdk.Indexer.SmokeTest
import Candyland.Sdk.Indexer.Traces
import Candyland.Sdk.Indexer.TreeRows
import Candyland.Sdk.Indexer.TruncatedLogs
import Candyland.Sdk.Indexer.Validation
import Candyland.Sdk.RoundTrip
import Candyland.SugarShack.Listings
import Candyland.SugarShack.Payments
import Candyland.SugarShack.Program
import Candyland.SugarShack.PurchaseSplit
import Candyland.SugarShack.Sales
