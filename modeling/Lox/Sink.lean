/-!
Where program output goes. A sink keeps the texts it was given; some sinks take
only so much and refuse everything after that.
-/

namespace Lox

/-- What a sink still takes. -/
inductive Room where
  | unlimited
  /-- So many more texts that are not empty. -/
  | writes (left : Nat)
  /-- Texts until so many more line ends have come in. -/
  | lines (left : Nat)
deriving DecidableEq, Repr

structure Sink where
  room : Room
  /-- Newest first. -/
  writes : List String
deriving DecidableEq, Repr

def Room.isFull : Room → Bool
  | .unlimited => false
  | .writes left => left = 0
  | .lines left => left = 0

/-- The room that is left once a text has come in. -/
def Room.after (text : String) : Room → Room
  | .unlimited => .unlimited
  | .writes left => .writes (left - 1)
  | .lines left => .lines (left - text.toList.count '\n')

/-- The sink after a write, unless it refuses. Writing nothing always
succeeds. -/
def Sink.write? (sink : Sink) (text : String) : Option Sink :=
  if text.isEmpty then some sink
  else if sink.room.isFull then none
  else some ⟨sink.room.after text, text :: sink.writes⟩

/-- All output taken so far. -/
def Sink.text (sink : Sink) : String := String.join sink.writes.reverse

/-- The sink with its output handed on. -/
def Sink.emptied (sink : Sink) : Sink := { sink with writes := [] }

end Lox
