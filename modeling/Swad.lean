import Swad.Tables
import Swad.LabelledRuns
import Swad.Bytes
import Swad.RingCounter
import Swad.Ratelimit
import Swad.RatelimitHistory
import Swad.RatelimitWindow
import Swad.Headerset
import Swad.Http
import Swad.Httprequest
import Swad.RequestBody
import Swad.Httpresponse
import Swad.ConnectionReuse
import Swad.ProxyTrust
import Swad.PamAgreement
import Swad.Authenticator
import Swad.FailLimit
import Swad.Middleware
import Swad.Registers
import Swad.Template
import Swad.SessionStore
import Swad.Handlers
import Swad.Pipeline
import Swad.CsrfTokens
import Swad.LoginProvenance
import Swad.HeaderBlock
import Swad.RedirectTargets
import Swad.RatelimitRejection
import Swad.LoginForwarding
import Swad.LinkedChains
import Swad.SessionChains
import Swad.SessionMap
import Swad.DeferredDeletion
import Swad.ServerEvents
import Swad.ResponseOwnership
import Swad.Ipaddr
import Swad.SilentLogin
import Swad.StringPrograms
import Swad.Config
import Swad.ConfigLines
import Swad.LineIsolation
import Swad.PairedRuns
import Swad.VisibleSettings
import Swad.FileChunks
import Swad.IgnoredLines
import Swad.ForwardedLines
import Swad.CookieRoundTrip
import Swad.ParameterLoops
import Swad.ParameterRoundTrip
import Swad.HeaderChains
import Swad.HeaderMultimap
import Swad.Arguments
import Swad.IdResolution
import Swad.LineDelivery
import Swad.Bin2cstr
import Swad.NodeText
import Swad.EntryBuffer
import Swad.ForParameter
import Swad.TrustedElements
import Swad.AddressMatching
import Swad.AddressGrammar
import Swad.AddressNotation
import Swad.PrintedAddresses
import Swad.HeaderFolding
import Swad.GrowingBuffer
import Swad.TextOutput
import Swad.TemplateEngine
import Swad.FormDecoding
import Swad.Utf8Scan
import Swad.Base64
import Swad.RandomStrings
import Swad.RandomBytes
import Swad.FormattedText
import Swad.RedirectPages
import Swad.BodyTransfer
import Swad.HeaderWalk
import Swad.LimitSettings
import Swad.RealNames
import Swad.CharArrays
import Swad.RequestArrays
import Swad.CompressedBodies
import Swad.FixedArrays
import Swad.SessionBounds
import Swad.PageMarkup
import Swad.PropertyTables
import Swad.RequestMessages
import Swad.HttpServers
import Swad.StartupRegistry
import Swad.LoginFlow
import Swad.CheckedCredentials
import Swad.UsedProperties
