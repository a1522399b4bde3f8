import Serica.McpStdio
import Serica.TagScan
import Serica.SearchParity
import Serica.ExtractLimiter
import Serica.CodespanFixup
import Serica.CodeblockLinebreaks
import Serica.HtmlTokens
import Serica.CharRef
import Serica.Extract
import Serica.CacheSoundness
import Serica.UrlNormalization
import Serica.DuckDuckGo
import Serica.SearchPaging
import Serica.ExtractSpan
import Serica.ExtractDeadline
import Serica.LazyRedis
import Serica.UnreachableRedis
import Serica.SearchPaths
import Serica.CacheLimits
import Serica.LargePages
import Serica.CodeBlockLines
import Serica.CodeBlockText
import Serica.AttributeSafety
import Serica.SocketAddrText
import Serica.StartUp
import Serica.BlankSettings
import Serica.ErrorOpacity
import Serica.McpMessages
import Serica.PatchLaws
import Serica.ScanWindows
import Serica.ContentLaws
import Serica.ResultLinks
import Serica.ReconnectThrottle
import Serica.CappedBody
import Serica.SafeSearch
import Serica.StatsGate
import Serica.RateLimit
import Serica.IpLiterals
import Serica.Ledger
import Serica.RequestAccounts
import Serica.ServerLife
import Serica.McpProgress
import Serica.RedisHealing
import Serica.McpSchema
import Serica.Provenance
import Serica.ApiErrors
import Serica.JsonText
import Serica.McpWire
import Serica.SearchClients
