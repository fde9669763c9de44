import AdaptiveRate.Proofs.Machine
import AdaptiveRate.Service

namespace AdaptiveRate

open AdaptiveRate.History

inductive Message
  | uplink (m : Uplink)
  | downlink (m : Downlink)
  deriving DecidableEq

/-- Commands that ride along, with a downlink or with the answer prepared for an uplink. -/
def Message.options : Message → List Mac.Command
  | .uplink m => m.response.elim [] Downlink.options
  | .downlink m => m.options

def Message.added (before after : Message) : Nat := after.options.length - before.options.length

@[simp]
theorem Message.added_self (m : Message) : m.added m = 0 := Nat.sub_self _

structure Call where
  message : Message
  device : Device
  deriving DecidableEq

structure Answer where
  result : Except Stop Unit
  message : Message
  device : Device

def Reply.answer {μ : Type} (r : Reply μ) (wrap : μ → Message) : Answer :=
  ⟨r.result, wrap r.message, r.device⟩

def Service.serve (medium : Medium) (s : Service) (c : Call) : Service × Answer :=
  match c.message with
  | .uplink m =>
    let (s, reply) := s.uplink medium m c.device
    (s, reply.answer .uplink)
  | .downlink m =>
    let (s, reply) := s.downlink medium m c.device
    (s, reply.answer .downlink)

end AdaptiveRate
