import AdaptiveRate.Text.Hex

namespace AdaptiveRate.Mac

structure Command where
  cid : UInt8
  payload : List UInt8
  deriving DecidableEq

namespace Command

def toBytes (c : Command) : List UInt8 := c.cid :: c.payload

def text (c : Command) : String :=
  "CID 0x" ++ Hex.upper [c.cid] ++ " [" ++ Hex.upper c.payload ++ "]"

instance : ToString Command := ⟨text⟩

end Command

end AdaptiveRate.Mac
