namespace AdaptiveRate

structure ChannelMask where
  bits : BitVec 16
  deriving DecidableEq

namespace ChannelMask

def empty : ChannelMask := ⟨0⟩

def ofRaw (raw : Nat) : ChannelMask := ⟨.ofNat 16 raw⟩

def raw (m : ChannelMask) : Nat := m.bits.toNat

/-- Channels past the sixteenth are passed over. -/
def ofChannels (channels : List UInt8) : ChannelMask :=
  (channels.filter (·.toNat < 16)).foldl (fun m c ↦ ⟨m.bits ||| 1#16 <<< c.toNat⟩) empty

def isEnabled (m : ChannelMask) (channel : Nat) : Bool :=
  channel < 16 && m.bits &&& 1#16 <<< channel != 0

def set (m : ChannelMask) (channel : Nat) (enabled : Bool) : ChannelMask :=
  if 16 ≤ channel then m
  else if enabled then ⟨m.bits ||| 1#16 <<< channel⟩
  else ⟨m.bits &&& ~~~(1#16 <<< channel)⟩

def count (m : ChannelMask) : Nat := m.bits.cpop.toNat

/-- Sixteen binary digits, those of the last channels first. -/
def text (m : ChannelMask) : String := String.ofList ((Nat.toDigits 2 m.raw).leftpad 16 '0')

instance : ToString ChannelMask := ⟨text⟩

end ChannelMask

end AdaptiveRate
