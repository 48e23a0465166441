import AdaptiveLL.Event

/-!
# Loggers

A message of level 1 is a warning, one of level 2 is information. A logger keeps the messages up to
one level in a buffer and shows those up to another at once.
-/

set_option autoImplicit false

namespace AdaptiveLL

/-- A logger. What is shown at once is entered into the journal. -/
structure Logger where
  bufferLevel : Nat := 0
  echoLevel : Nat := 1
  buffer : String := ""
  deriving DecidableEq, Inhabited

namespace Logger

/-- The greatest level of messages that are kept or shown. -/
def level (l : Logger) : Nat := max l.bufferLevel l.echoLevel

/-- Are messages of this level kept or shown? -/
def enabled (l : Logger) (level : Nat) : Bool := level ≤ l.level

/-- Writes text at a level: gives what is shown at once and the logger with what it keeps. -/
def write (l : Logger) (level : Nat) (text : String) : String × Logger :=
  (if level ≤ l.echoLevel then text else "",
    if level ≤ l.bufferLevel then { l with buffer := l.buffer ++ text } else l)

/-- Writes a warning in a line of its own. -/
def warn (l : Logger) (message : String) : String × Logger :=
  if l.enabled 1 then l.write 1 ("Warning: " ++ message ++ "\n") else ("", l)

/-- Writes information in a line of its own. -/
def info (l : Logger) (message : String) : String × Logger :=
  if l.enabled 2 then l.write 2 (message ++ "\n") else ("", l)

/-- Takes the text out of the buffer. -/
def takeBuffer (l : Logger) : String × Logger := (l.buffer, { l with buffer := "" })

/-- The same logger with an empty buffer. -/
def fresh (l : Logger) : Logger := { l with buffer := "" }

end Logger

/-- Enters shown text into the journal, unless it is empty. -/
def Journal.echo (j : Journal) (text : String) : Journal :=
  if text.isEmpty then j else j.push (.echo text)

end AdaptiveLL
