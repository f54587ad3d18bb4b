import MarkupBinding.Text.Basic

/-!
# UTF-8

Bytes are decoded strictly: no byte is skipped or replaced. What cannot be decoded is reported by
the place and the number of the bytes that do not make up a character. The second byte of a sequence
has a narrower range where the lead byte would otherwise admit surrogates, overlong forms or numbers
beyond the last character.
-/

namespace MarkupBinding.Utf8

/-- What is wrong with some bytes. -/
inductive Fault where
  | invalidStart
  | invalidContinuation
  | unexpectedEnd
deriving DecidableEq, Repr

/-- The words for a fault. -/
def Fault.reason : Fault → String
  | invalidStart => "invalid start byte"
  | invalidContinuation => "invalid continuation byte"
  | unexpectedEnd => "unexpected end of data"

/-- Bytes that cannot be decoded. -/
structure Error where
  fault : Fault
  /-- The first of the bytes. -/
  byte : UInt8
  /-- The place of the first of the bytes. -/
  start : Nat
  /-- How many bytes there are. -/
  count : Nat
deriving DecidableEq, Repr

/-- The message for bytes that cannot be decoded. -/
def Error.message (error : Error) : Text :=
  let place :=
    if error.count = 1 then
      let high := Nat.digitChar (error.byte.toNat / 16)
      let low := Nat.digitChar (error.byte.toNat % 16)
      "byte 0x".toList ++ [high, low] ++ " in position ".toList ++ Text.ofNat error.start
    else
      "bytes in position ".toList ++ Text.ofNat error.start ++ ['-'] ++
        Text.ofNat (error.start + error.count - 1)
  "'utf-8' codec can't decode ".toList ++ place ++ ": ".toList ++ error.fault.reason.toList

/-- A sequence that is not yet complete. -/
structure Pending where
  /-- The place of its lead byte. -/
  start : Nat
  /-- Its lead byte. -/
  byte : UInt8
  /-- The bits read so far. -/
  value : Nat
  /-- How many bytes are missing after the next one. -/
  missing : Nat
  /-- The range of the next byte. -/
  least : UInt8 := 0x80
  greatest : UInt8 := 0xBF
deriving DecidableEq, Repr

/-- What a lead byte begins. -/
def lead? (start : Nat) (b : UInt8) : Option Pending :=
  let low (bits : UInt8) : Nat := (b &&& bits).toNat
  if b < 0xC2 then none
  else if b < 0xE0 then some { start, byte := b, value := low 0x1F, missing := 0 }
  else if b < 0xF0 then
    let sequence : Pending := { start, byte := b, value := low 0x0F, missing := 1 }
    some (if b = 0xE0 then { sequence with least := 0xA0 }
      else if b = 0xED then { sequence with greatest := 0x9F }
      else sequence)
  else if b < 0xF5 then
    let sequence : Pending := { start, byte := b, value := low 0x07, missing := 2 }
    some (if b = 0xF0 then { sequence with least := 0x90 }
      else if b = 0xF4 then { sequence with greatest := 0x8F }
      else sequence)
  else none

/-- Decodes bytes from a position on, after the beginning of a sequence if there is one. -/
def decodeFrom (position : Nat) (pending? : Option Pending) : List UInt8 → Except Error Text
  | [] =>
    match pending? with
    | none => .ok []
    | some p => .error ⟨.unexpectedEnd, p.byte, p.start, position - p.start⟩
  | b :: bytes =>
    match pending? with
    | none =>
      if b < 0x80 then
        (decodeFrom (position + 1) none bytes).map (Char.ofNat b.toNat :: ·)
      else
        match lead? position b with
        | some p => decodeFrom (position + 1) (some p) bytes
        | none => .error ⟨.invalidStart, b, position, 1⟩
    | some p =>
      if p.least ≤ b && b ≤ p.greatest then
        let value := p.value * 64 + (b &&& 0x3F).toNat
        match p.missing with
        | 0 => (decodeFrom (position + 1) none bytes).map (Char.ofNat value :: ·)
        | missing + 1 =>
          let next := { p with value, missing, least := 0x80, greatest := 0xBF }
          decodeFrom (position + 1) (some next) bytes
      else .error ⟨.invalidContinuation, p.byte, p.start, position - p.start⟩

/-- The text that bytes stand for. -/
def decode (bytes : List UInt8) : Except Error Text := decodeFrom 0 none bytes

end MarkupBinding.Utf8
