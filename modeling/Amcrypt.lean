import Amcrypt.Core.BloodPact
import Amcrypt.Core.Codec
import Amcrypt.Core.Errors
import Amcrypt.Core.Fields
import Amcrypt.Core.Grammar
import Amcrypt.Core.GuessBudget
import Amcrypt.Core.Lengths
import Amcrypt.Core.Replicas
import Amcrypt.Deadline
import Amcrypt.Doppelganger.Deniability
import Amcrypt.Doppelganger.Grammar
import Amcrypt.Doppelganger.Trial
import Amcrypt.Memory.Isolation
import Amcrypt.Rce
import Amcrypt.Ritual
import Amcrypt.Ritual.Lifecycle
import Amcrypt.SoulBinding
import Amcrypt.Stream.Chunks
import Amcrypt.Stream.Destroy
import Amcrypt.Stream.Duplex
import Amcrypt.Stream.Framing
import Amcrypt.Stream.KeySeparation
import Amcrypt.Stream.Secrecy
import Amcrypt.Stream.Sync
import Amcrypt.Summon
import Amcrypt.TimeToLive
import Amcrypt.Transplant
import Amcrypt.Watcher
