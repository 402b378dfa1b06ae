/-!
# Where output goes

A sink takes the bytes that a program prints, all of them or only so many.
How many it takes of the bytes offered may depend on those it has taken
before.  A write fails when the sink does not take all that was offered.
-/

namespace Lox

/-- A receiver of output. -/
structure Sink where
  /-- The bytes taken so far. -/
  accepted : ByteArray
  /-- How many of the offered bytes are taken after those taken before. -/
  takes : (before offered : ByteArray) → Nat
  /-- The reason given when bytes are refused. -/
  refusal : String
  /-- The reason given when flushing fails, if it does. -/
  flushFault : Option String

namespace Sink

/-- The sink that takes everything. -/
def unlimited : Sink :=
  ⟨.empty, fun _ offered => offered.size, "", none⟩

/-- The byte that ends a line. -/
def lineEnd : UInt8 := 10

/-- The sink that takes what it is offered until it has taken a number of
line ends, and nothing from then on. -/
def ofLines (lines : Nat) (refusal : String) : Sink :=
  { accepted := .empty
    takes := fun before offered =>
      if before.toList.count lineEnd < lines then offered.size else 0
    refusal := refusal
    flushFault := none }

/-- Offers a text to the sink.  Gives the reason if not all of it is taken. -/
def write (s : Sink) (text : String) : Sink × Option String :=
  let offered := text.toUTF8
  let taken := s.takes s.accepted offered
  if offered.size ≤ taken then
    ({ s with accepted := s.accepted ++ offered }, none)
  else
    ({ s with accepted := s.accepted ++ offered.extract 0 taken },
      some s.refusal)

/-- Offers a text and then a line end. -/
def writeLine (s : Sink) (text : String) : Sink × Option String :=
  match s.write text with
  | (s, none) => s.write "\n"
  | (s, some reason) => (s, some reason)

/-- The text taken after the first `start` bytes. -/
def textFrom (s : Sink) (start : Nat) : String :=
  (String.fromUTF8? (s.accepted.extract start s.accepted.size)).getD ""

/-- Forgets what was taken. -/
def clear (s : Sink) : Sink :=
  { s with accepted := .empty }

end Sink

end Lox
