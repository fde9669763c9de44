import AdaptiveRate.Error
import AdaptiveRate.Mac.ChannelMask
import AdaptiveRate.Mac.Command

namespace AdaptiveRate.Mac

structure LinkRequest where
  dataRate : UInt8
  txPower : UInt8
  mask : ChannelMask
  maskControl : UInt8
  transmissions : UInt8
  deriving DecidableEq

namespace LinkRequest

def cid : UInt8 := 0x03

def size : Nat := 4

def nibbleMax : UInt8 := 0x0F

def maskControlMax : UInt8 := 0x07

def checkRange (field : String) (value max : UInt8) : Except Error Unit :=
  if max < value then .error (.outOfRange field value max) else .ok ()

def make (dataRate txPower : UInt8) (mask : ChannelMask) (maskControl transmissions : UInt8) :
    Except Error LinkRequest := do
  checkRange "DataRate" dataRate nibbleMax
  checkRange "TXPower" txPower nibbleMax
  checkRange "ChMaskCntl" maskControl maskControlMax
  checkRange "NbTrans" transmissions nibbleMax
  return ⟨dataRate, txPower, mask, maskControl, transmissions⟩

/-- Data rate and power share a byte, the mask follows low byte first, then its control and the
number of transmissions. A field too large loses its upper bits. -/
def toBytes (r : LinkRequest) : List UInt8 :=
  [(r.dataRate &&& nibbleMax) <<< 4 ||| r.txPower &&& nibbleMax,
    .ofNat (r.mask.raw % 256),
    .ofNat (r.mask.raw / 256),
    (r.maskControl &&& maskControlMax) <<< 4 ||| r.transmissions &&& nibbleMax]

/-- The topmost bit of the last byte has no meaning. -/
def ofBytes : List UInt8 → Except Error LinkRequest
  | [rates, low, high, redundancy] => .ok
    { dataRate := rates >>> 4
      txPower := rates &&& nibbleMax
      mask := .ofRaw (low.toNat + 256 * high.toNat)
      maskControl := redundancy >>> 4 &&& maskControlMax
      transmissions := redundancy &&& nibbleMax }
  | bytes => .error (.payloadLength size bytes.length)

def toCommand (r : LinkRequest) : Command := ⟨cid, r.toBytes⟩

def ofCommand (c : Command) : Except Error LinkRequest :=
  if c.cid ≠ cid then .error (.unexpectedCommand c.cid) else ofBytes c.payload

end LinkRequest

end AdaptiveRate.Mac
