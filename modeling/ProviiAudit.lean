import ProviiAudit.Digest.Linkage
import ProviiAudit.Digest.Rows
import ProviiAudit.Sanitize.Indistinct
import ProviiAudit.Sanitize.Ipv6
import ProviiAudit.Sanitize.Survivors
import ProviiAudit.Lib.Splice
import ProviiAudit.Sanitize.Addresses
import ProviiAudit.Sanitize.Cuts
import ProviiAudit.Sanitize.Idempotent
import ProviiAudit.Lib.Json
import ProviiAudit.Lib.JsonScan
import ProviiAudit.Sanitize.Details
import ProviiAudit.Builder
import ProviiAudit.Digest.Report
import ProviiAudit.Growth
import ProviiAudit.Lib.Framed
import ProviiAudit.Lib.JsonObject
import ProviiAudit.Sanitize.Alike
import ProviiAudit.Sanitize.DateEmails
import ProviiAudit.Sanitize.DateSpared
import ProviiAudit.Sanitize.TrailingColon
import ProviiAudit.Sanitize.HexTokens
import ProviiAudit.Sanitize.Cursors
import ProviiAudit.Table
import ProviiAudit.Calls
import ProviiAudit.Correlation
import ProviiAudit.Digest.Signature
import ProviiAudit.Lib.Tokens
import ProviiAudit.Revalidation
import ProviiAudit.Sanitize.Clock
import ProviiAudit.Sanitize.Occurrences
import ProviiAudit.Sanitize.Tokens
import ProviiAudit.Sanitize.Weights
import ProviiAudit.Sanitize.Absorb
import ProviiAudit.Sanitize.Sentence
import ProviiAudit.Lib.KeyedTable
import ProviiAudit.Lib.Runs
import ProviiAudit.Digest.Increment
import ProviiAudit.Store
import ProviiAudit.Pipeline
import ProviiAudit.Sanitize.FixedPoint
import ProviiAudit.Sanitize.Locality
import ProviiAudit.Sanitize.Items
import ProviiAudit.Lib.FixedWidth
import ProviiAudit.CreatedAt
import ProviiAudit.Decoding
import ProviiAudit.Console
import ProviiAudit.EventId
import ProviiAudit.Secrecy
import ProviiAudit.Console
import ProviiAudit.EventId
import ProviiAudit.Secrecy
import ProviiAudit.Queue
import ProviiAudit.Chronology
import ProviiAudit.Rejections
