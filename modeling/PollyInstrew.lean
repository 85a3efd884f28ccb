import PollyInstrew.Client.SectionLayout
import PollyInstrew.Client.ReceiveBuffer
import PollyInstrew.Client.LivePatch
import PollyInstrew.Client.Register
import PollyInstrew.Client.Rounding
import PollyInstrew.Client.SignalSafety
import PollyInstrew.Client.PageReply
import PollyInstrew.Client.InterpName
import PollyInstrew.Client.LazyLink
import PollyInstrew.Server.CacheKey
import PollyInstrew.Server.Cache
import PollyInstrew.Protocol.Descriptors
import PollyInstrew.Protocol.Agreement
import PollyInstrew.Server.RemoteMemory
import PollyInstrew.Server.FieldFold
import PollyInstrew.Promote.Skipped
import PollyInstrew.Promote.StackSlot
import PollyInstrew.Protocol.SymbolNames
import PollyInstrew.Emulate.Forwarding
import PollyInstrew.Client.TableReaders
import PollyInstrew.Server.RestoredAddress
import PollyInstrew.Server.Sendfile
