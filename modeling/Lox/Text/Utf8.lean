/-!
# Reading bytes as text

A file is read as UTF-8.  When its bytes are not UTF-8, the fault says where
the first bytes are that start no character, and how many of them could have
started one, or that the file ends inside a character.
-/

namespace Lox.Utf8

/-- Why bytes are not UTF-8. -/
inductive Fault where
  /-- The `count` bytes at `index` start no character. -/
  | invalid (count index : Nat)
  /-- The bytes end inside the character at `index`. -/
  | incomplete (index : Nat)
  deriving Repr, DecidableEq

/-- The wording of a fault. -/
def Fault.message : Fault → String
  | invalid count index =>
    s!"invalid utf-8 sequence of {count} bytes from index {index}"
  | incomplete index => s!"incomplete utf-8 byte sequence from index {index}"

/-- What must follow the first byte of a character: the range of the second
byte, and how many bytes come after that. -/
structure Tail where
  low : Nat
  high : Nat
  more : Nat

/-- The tail that a first byte beyond ASCII asks for. -/
def tail? (first : Nat) : Option Tail :=
  if 0xC2 ≤ first && first ≤ 0xDF then some ⟨0x80, 0xBF, 0⟩
  else if first == 0xE0 then some ⟨0xA0, 0xBF, 1⟩
  else if first == 0xED then some ⟨0x80, 0x9F, 1⟩
  else if 0xE1 ≤ first && first ≤ 0xEF then some ⟨0x80, 0xBF, 1⟩
  else if first == 0xF0 then some ⟨0x90, 0xBF, 2⟩
  else if 0xF1 ≤ first && first ≤ 0xF3 then some ⟨0x80, 0xBF, 2⟩
  else if first == 0xF4 then some ⟨0x80, 0x8F, 2⟩
  else none

/-- The fault that starts with the character at `start`, or the first one
behind it.  `seen` bytes of the character have been read, and `owed` bytes
of it are still to come, the next of them between `low` and `high`. -/
def faultFrom? (start seen owed low high : Nat) : List UInt8 → Option Fault
  | [] => if owed == 0 then none else some (.incomplete start)
  | byte :: rest =>
    let b := byte.toNat
    match owed with
    | 0 =>
      let start := start + seen
      if b < 0x80 then faultFrom? start 1 0 0x80 0xBF rest
      else match tail? b with
        | some tail => faultFrom? start 1 (tail.more + 1) tail.low tail.high rest
        | none => some (.invalid 1 start)
    | owed + 1 =>
      if low ≤ b && b ≤ high then
        faultFrom? start (seen + 1) owed 0x80 0xBF rest
      else some (.invalid seen start)

/-- The first fault of some bytes. -/
def fault? (bytes : List UInt8) : Option Fault :=
  faultFrom? 0 0 0 0x80 0xBF bytes

/-- Reads bytes as text. -/
def decode (bytes : ByteArray) : Except Fault String :=
  match fault? bytes.toList, String.fromUTF8? bytes with
  | some fault, _ => .error fault
  | none, some text => .ok text
  | none, none => .error (.invalid 1 0)

end Lox.Utf8
