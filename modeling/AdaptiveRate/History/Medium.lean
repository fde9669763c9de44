import AdaptiveRate.History.Store

namespace AdaptiveRate.History

/-- How calls of one kind are answered; delays are in milliseconds. -/
inductive Condition
  | prompt
  | silent
  | slow (delay : Nat) (refusal : Option String)
  deriving DecidableEq

namespace Condition

/-- What a caller meets who does not wait past a deadline. -/
def within (deadline : Nat) : Condition → Except StoreError Unit
  | .prompt => .ok ()
  | .silent => .error (.timedOut (.ofMillis deadline))
  | .slow delay refusal =>
    if deadline < delay then .error (.timedOut (.ofMillis deadline))
    else match refusal with
      | some reason => .error (.unavailable reason)
      | none => .ok ()

def refusal? : Condition → Option StoreError
  | .slow _ (some reason) => some (.unavailable reason)
  | _ => none

end Condition

structure Medium where
  push : Condition := .prompt
  get : Condition := .prompt
  clear : Condition := .prompt
  deriving DecidableEq

end AdaptiveRate.History
