import NearGit.Lib.Outcome
import NearGit.Lib.Bytes
import NearGit.Lib.Usize
import NearGit.Lib.Varint
import NearGit.Lib.Hex
import NearGit.Lib.Sha1
import NearGit.Lib.StoredZlib
import NearGit.Packfile.Delta
import NearGit.Packfile.DeltaRoundTrip
import NearGit.Packfile.Object
import NearGit.Packfile.Reference
import NearGit.Packfile.Parse
import NearGit.Packfile.Format
import NearGit.Packfile.ParseCorrect
import NearGit.Packfile.FormatCorrect
import NearGit.Packfile.Build
import NearGit.Packfile.RoundTrip
import NearGit.Lib.Guarded
import NearGit.Lib.IterableMap
import NearGit.Lib.CasMap
import NearGit.Contract.GitStorage
import NearGit.Contract.Repo
import NearGit.Contract.Acceptance
import NearGit.Contract.History
import NearGit.Lib.Closure
import NearGit.Lib.System
import NearGit.Lib.Log
import NearGit.Lib.Text
import NearGit.Packfile.Reconstruct
import NearGit.ServiceWorker.Resolve
import NearGit.ServiceWorker.ReceivePack
import NearGit.ServiceWorker.PushLoss
import NearGit.GitServer.UploadPack
import NearGit.ServiceWorker.Clients
import NearGit.ServiceWorker.ThinPush
import NearGit.RemoteNear.Push
import NearGit.RemoteNear.GitFailure
import NearGit.RemoteNear.RefClosure
import NearGit.ServiceWorker.UploadClosure
import NearGit.GitServer.SameRepository
import NearGit.Lib.Number
import NearGit.ServiceWorker.FunctionCall
import NearGit.ServiceWorker.Nonces
import NearGit.ServiceWorker.AtMostOnce
import NearGit.Packfile.DeltaFormat
import NearGit.Packfile.EntryLoop
import NearGit.Packfile.ResolveLoop
import NearGit.Packfile.Hostile
import NearGit.Lib.Utf8
import NearGit.Lib.Borsh
import NearGit.Lib.Base64
import NearGit.Contract.PushArgs
import NearGit.GitServer.ReceivePack
import NearGit.ServiceWorker.PushArgs
import NearGit.Lib.Near
import NearGit.Lib.NearCalls
import NearGit.Lib.Reader
import NearGit.Factory.GitFactory
import NearGit.Lib.JsText
import NearGit.PktLine
import NearGit.Contract.Delivery
import NearGit.Factory.Ownership
import NearGit.ServiceWorker.Request
import NearGit.ServiceWorker.Reports
import NearGit.GitServer.Deletion
import NearGit.ServiceWorker.PktLines
import NearGit.PushRequest
import NearGit.RequestDecoding
import NearGit.GitServer.Malformed
import NearGit.GitServer.Duplicates
import NearGit.Packfile.Integrity
import NearGit.Factory.Refund
import NearGit.Lib.Base58
import NearGit.Lib.Decimal
import NearGit.WasmLib.BorshObjects
import NearGit.WasmLib.SignedTransaction
import NearGit.Factory.GlobalHash
import NearGit.WasmLib.Builders
import NearGit.ReportStatus
import NearGit.FrontEnds
import NearGit.Advertisement
import NearGit.OptimisticPush
import NearGit.StoredObjects
import NearGit.FetchRequest
import NearGit.Deployment
import NearGit.Clone
import NearGit.RemoteFetch
import NearGit.ServiceWorker.ViewCalls
import NearGit.RemoteNear.Session
import NearGit.RemoteNear.Conversation
import NearGit.RemoteNear.CloneWhilePushed
import NearGit.RemoteNear.Batch
import NearGit.GitServer.NearCall
import NearGit.Factory.Lifecycle
import NearGit.ServiceWorker.ReadYourWrites
