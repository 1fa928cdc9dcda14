import ModCaucho.Balance.Backups
import ModCaucho.Balance.Dead
import ModCaucho.Balance.Probe
import ModCaucho.Config.Hosts
import ModCaucho.Config.WebInf
import ModCaucho.Handler.Ages
import ModCaucho.Handler.Retries
import ModCaucho.Handler.Flow
import ModCaucho.Handler.Goodbye
import ModCaucho.Handler.Owners
import ModCaucho.Handler.Recycle
import ModCaucho.Registry.RoundTrip
import ModCaucho.Stream.Partial
import ModCaucho.Stream.Write
import ModCaucho.Handler.Copy
import ModCaucho.Handler.Hop
import ModCaucho.Handler.InFrame
import ModCaucho.Handler.Bounds
import ModCaucho.Handler.Session
import ModCaucho.Config.Confined
import ModCaucho.Config.Order
import ModCaucho.Registry.Matching
import ModCaucho.Lib.OrderedHeap
import ModCaucho.Lib.Chains
import ModCaucho.Registry.Calls
import ModCaucho.Registry.Returns
import ModCaucho.Registry.Finished
import ModCaucho.Registry.Spellings
import ModCaucho.Registry.Splice
import ModCaucho.Lib.Replace
import ModCaucho.Registry.Include
import ModCaucho.Registry.Expand
import ModCaucho.Handler.SessionId
import ModCaucho.Handler.Cookies
import ModCaucho.Balance.Table
import ModCaucho.Config.Suffix
import ModCaucho.Config.Dispatch
import ModCaucho.Registry.Depth
import ModCaucho.Lib.Automaton
import ModCaucho.Registry.Tokens
import ModCaucho.Registry.Skip
import ModCaucho.Handler.Buffers
import ModCaucho.Config.Configured
import ModCaucho.Config.Inline
import ModCaucho.Config.Preface
import ModCaucho.Handler.Effort
import ModCaucho.Handler.Answer
import ModCaucho.Handler.Conversation
import ModCaucho.Handler.Delivery
import ModCaucho.Handler.Status
import ModCaucho.Handler.Visits
