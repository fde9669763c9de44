namespace AdaptiveRate

/-- Filters keep the records of their own level and of all levels before it. -/
inductive Level
  | off
  | error
  | warn
  | info
  | debug
  | trace
  deriving DecidableEq

namespace Level

def rank : Level → Nat
  | .off => 0
  | .error => 1
  | .warn => 2
  | .info => 3
  | .debug => 4
  | .trace => 5

def name : Level → String
  | .off => "OFF"
  | .error => "ERROR"
  | .warn => "WARN"
  | .info => "INFO"
  | .debug => "DEBUG"
  | .trace => "TRACE"

def all : List Level := [.off, .error, .warn, .info, .debug, .trace]

def ofName? (s : String) : Option Level := all.find? (·.name == s.toUpper)

end Level

structure LogRecord where
  level : Level
  text : String
  deriving DecidableEq

namespace LogRecord

def error (text : String) : LogRecord := ⟨.error, text⟩

def warn (text : String) : LogRecord := ⟨.warn, text⟩

def info (text : String) : LogRecord := ⟨.info, text⟩

def debug (text : String) : LogRecord := ⟨.debug, text⟩

def line (r : LogRecord) : String := r.level.name ++ " " ++ r.text

def operatorTarget : String := "lorawan_adr::operator"

def passing (filter : Level) (records : List LogRecord) : List LogRecord :=
  records.filter fun r ↦ r.level.rank ≤ filter.rank

end LogRecord

end AdaptiveRate
