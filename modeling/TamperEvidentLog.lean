import TamperEvidentLog.Text.Jsonb
import TamperEvidentLog.Text.JsonParse
import TamperEvidentLog.Crypto.Sha256
import TamperEvidentLog.Time.IsoDate
import TamperEvidentLog.Protocol.Run
import TamperEvidentLog.Protocol.HashChain
import TamperEvidentLog.Service.TamperEvidence
import TamperEvidentLog.Service.Append
import TamperEvidentLog.Service.Cache
import TamperEvidentLog.Service.HeadAnchor
import TamperEvidentLog.Service.Outage
import TamperEvidentLog.Service.Storage
import TamperEvidentLog.Service.FaultLocation
import TamperEvidentLog.Service.Auth
import TamperEvidentLog.Service.LatestLog
import TamperEvidentLog.Service.LogQuery
import TamperEvidentLog.Service.Export
import TamperEvidentLog.Service.AuditLog
import TamperEvidentLog.Service.Drain
import TamperEvidentLog.Service.History
import TamperEvidentLog.Service.ExportedCopy
import TamperEvidentLog.Service.AppLists
import TamperEvidentLog.Service.PostOutcome
import TamperEvidentLog.Service.VerificationWorker
import TamperEvidentLog.Service.TimeOrder
import TamperEvidentLog.Service.Restart
import TamperEvidentLog.Service.WritePath
