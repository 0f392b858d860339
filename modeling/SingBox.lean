import SingBox.FakeIP.Removal
import SingBox.FakeIP.Reserve
import SingBox.Rules.Legacy
import SingBox.Rules.Nesting
import SingBox.DNS.Awake
import SingBox.DNS.Legacy
import SingBox.DNS.Race
import SingBox.Cache.Keys
import SingBox.Provider.Names
import SingBox.Provider.Failures
import SingBox.Group.Selection
import SingBox.XHTTP.UploadQueue
import SingBox.Group.URLTest
import SingBox.Group.Interrupt
import SingBox.RuleSet.DomainOnly
import SingBox.RuleSet.Remote
import SingBox.XHTTP.Xmux
import SingBox.Parser.Clash
import SingBox.Parser.Shadowsocks
import SingBox.Parser.Chains
import SingBox.Route.FakeIP
import SingBox.Route.Carried
import SingBox.Route.FastPath
import SingBox.Transport.Received
import SingBox.Transport.Accounts
import SingBox.Traffic.Manager
import SingBox.Lifecycle.Complete
import SingBox.TrustTunnel.Survive
import SingBox.DomainSet.Trie
import SingBox.Common.Kmutex
import SingBox.RuleSet.Kinds
