import Besra.Arena
import Besra.Base64
import Besra.BmpBounds
import Besra.BmpPicture
import Besra.Calc
import Besra.CdataSection
import Besra.CookieDelete
import Besra.CookieHeader
import Besra.CookieLoop
import Besra.CookiesSent
import Besra.CounterStyles
import Besra.DomPending
import Besra.DomStringLaws
import Besra.EntityDecode
import Besra.EventOrder
import Besra.FlexResolve
import Besra.FlexSpace
import Besra.Freshness
import Besra.HashMap
import Besra.Hsts
import Besra.Idna
import Besra.InPlace
import Besra.InputStream
import Besra.InternLinks
import Besra.LzwOutput
import Besra.LzwSafe
import Besra.MqRange
import Besra.MqRefusal
import Besra.NamespaceLookup
import Besra.NodeLists
import Besra.Normalize
import Besra.NsurlBuffers
import Besra.ParserBuffer
import Besra.PrefixSearch
import Besra.Rfc1123
import Besra.RuleSelectors
import Besra.SearchTree
import Besra.Sharing
import Besra.Specificity
import Besra.SplitHeader
import Besra.StoreHandles
import Besra.StringTable
import Besra.Units
import Besra.UrlEscape
import Besra.Utf16Encode
import Besra.VarCycles
