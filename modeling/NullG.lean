import NullG.Nsp.LexerRuns
import NullG.Nsp.Framing
import NullG.Nsp.LayoutOps
import NullG.Nsp.Sharing
import NullG.Nsp.Flags
import NullG.Net.Fgets
import NullG.Smtpd.Relay
import NullG.Smtpd.Starttls
import NullG.Nsp.Exceptions
import NullG.Nsp.Evaluation
import NullG.Lib.Pieces
import NullG.Net.Tcp
import NullG.Mail.Spool
import NullG.Pop3d.Server
import NullG.Net.Tls
import NullG.Net.Left
import NullG.Smtpd.Session
import NullG.Smtpd.Recipients
import NullG.Smtpd.Transactions
import NullG.Smtpd.Data
import NullG.Mail.Bounce
import NullG.Smtpd.Delivery
import NullG.Smtpd.Steps
import NullG.Smtpq.Queue
import NullG.Smtpq.Relayed
import NullG.Pop3d.Credentials
import NullG.Pop3d.Maildrop
import NullG.Pop3d.Replies
import NullG.Httpd.Format
import NullG.Httpd.Query
import NullG.Httpd.Body
import NullG.Httpd.Auth
import NullG.Httpd.Response
import NullG.Httpd.HeaderBlock
import NullG.Nsp.OwnedTables
import NullG.Httpd.Vardata
import NullG.Httpd.Slots
import NullG.Httpd.Sessions
import NullG.Lib.LineBuffer
import NullG.Libs.Tcp
import NullG.Libs.Pop3Returns
import NullG.Lib.Separated
import NullG.Libs.Smtp
import NullG.Lib.DomainName
import NullG.Libs.Dns
import NullG.Lib.Buckets
import NullG.Libs.Cdb
import NullG.Lib.Json
import NullG.Libs.JsonEncode
import NullG.Lib.Search
import NullG.Nsp.StrSearch
import NullG.Nsp.StrSplit
import NullG.Nsp.Operators
import NullG.Nsp.OperatorLaws
import NullG.Nsp.StrCompare
import NullG.Nsp.Escape
import NullG.Nsp.Dumpvars
import NullG.Nsp.TableSorted
import NullG.Nsp.Compound
import NullG.Lib.Memory
import NullG.Httpd.ReplyBuffer
import NullG.Lib.Munch
import NullG.Nsp.Format
import NullG.Nsp.OutBuffer
import NullG.Nsp.Unixtime
import NullG.Nsp.Freeing
import NullG.Nsp.Setstr
import NullG.Nsp.Append
import NullG.Httpd.Multipart
import NullG.Mail.Dates
import NullG.Httpd.Url
import NullG.Libs.Base64
import NullG.Libs.QuotedPrintable
import NullG.Libs.HeaderWords
import NullG.Libs.MimeHead
import NullG.Lib.Entities
import NullG.Httpd.Html
import NullG.Httpd.StrToHtml
import NullG.Httpd.SqlQuoting
import NullG.Httpd.SessionDump
import NullG.Smtpd.Inserted
import NullG.Libs.LongLines
import NullG.Libs.Http
import NullG.Lib.Bubble
import NullG.Libs.Sort
import NullG.Libs.SortByname
import NullG.Libs.SortBykey
import NullG.Libs.Chain
import NullG.Libs.SortedTables
import NullG.Nsp.Ntoa
import NullG.Nsp.Vsnprintf
import NullG.Lib.Successive
import NullG.Lib.Refill
import NullG.Lib.Exchange
import NullG.Libs.Txt
import NullG.Libs.Csv
import NullG.Libs.Dbf
import NullG.Libs.DamagedFiles
import NullG.Smtpq.MxHosts
import NullG.Nsp.Grouping
