import NodeNative.Async.Lifecycle
import NodeNative.Async.Outcome
import NodeNative.Http.BodyFragments
import NodeNative.Http.Stream
import NodeNative.Http.Dispatch
import NodeNative.Http.UrlCoding
import NodeNative.Fs.Basic
import NodeNative.Fs.Sync
import NodeNative.Fs.Calls
import NodeNative.Lib.Rounds
import NodeNative.Fs.ReadFile
import NodeNative.Fs.ReadOutcome
import NodeNative.Async.Order
import NodeNative.Async.Settlement
import NodeNative.Async.Tree
import NodeNative.Async.Across
import NodeNative.Async.Adopted
import NodeNative.Async.Passive
import NodeNative.Worker.Basic
import NodeNative.Worker.Steps
import NodeNative.Worker.Invariant
import NodeNative.Worker.Agreement
import NodeNative.Lib.FrontSearch
import NodeNative.Http.Server
import NodeNative.Http.Entries
import NodeNative.Http.Closing
import NodeNative.Http.Expiry
import NodeNative.Http.Release
import NodeNative.Async.Chained
import NodeNative.Http.Execution
import NodeNative.Http.Fold
import NodeNative.Http.FieldFragments
import NodeNative.Http.UrlFragments
import NodeNative.Http.ClientRequest
import NodeNative.Http.HeaderState
import NodeNative.Http.RemainingPath
import NodeNative.Http.SharedNames
import NodeNative.Http.Removal
import NodeNative.Lib.Regex
import NodeNative.Lib.RegexSyntax
import NodeNative.Lib.RegexMeaning
import NodeNative.Lib.RegexSplicing
import NodeNative.Uri.Template
import NodeNative.Uri.Scan
import NodeNative.Uri.Lossless
import NodeNative.Uri.Grammar
import NodeNative.Uri.PrefixMount
import NodeNative.Uri.Precedence
import NodeNative.Uri.Routing
import NodeNative.Uri.Unformatted
import NodeNative.Lib.CapturingGroups
import NodeNative.Uri.Extract
import NodeNative.Uri.Groups
import NodeNative.Uri.Values
import NodeNative.Uri.CapturingGroup
import NodeNative.Uri.Tables
import NodeNative.Http.SkipPercent
import NodeNative.Base.Closing
import NodeNative.Base.Continuations
import NodeNative.Base.Timer
import NodeNative.Http.CloseRequests
import NodeNative.Net.Connect
import NodeNative.Http.ClientEnd
import NodeNative.Http.ClientSuccess
import NodeNative.Lib.Cut
import NodeNative.Http.Outgoing
import NodeNative.Http.Framing
import NodeNative.Http.HeaderLines
import NodeNative.Lib.Lexicographic
import NodeNative.Http.HeaderOrder
import NodeNative.Http.Url
import NodeNative.Base.Process
import NodeNative.Base.Registry
import NodeNative.Async.Enqueue
import NodeNative.Uri.References
import NodeNative.Fs.Operations
import NodeNative.Async.Handlers
import NodeNative.Worker.Handlers
import NodeNative.Fs.Asynchronous
import NodeNative.Async.Names
import NodeNative.Async.Drain
import NodeNative.Async.Waits
import NodeNative.Lib.RegexLanguage
import NodeNative.Lib.RegexNesting
import NodeNative.Uri.Language
import NodeNative.Uri.Pieces
import NodeNative.Http.SentRequest
import NodeNative.Http.SentResponse
import NodeNative.Base.Stream
import NodeNative.Base.Requests
import NodeNative.Worker.Drain
import NodeNative.Http.Shutdown
import NodeNative.Lib.Cursor
import NodeNative.Dev.Events
