import AdLibModule.Aplib.Token
import AdLibModule.BitStream

/-!
Reading an aPlib stream. The stream starts with a byte of output. After it each token is announced
by bits, taken from tag bytes that stand among the other bytes where the first of their bits is
needed:

* `0` and a byte: that byte;
* `10`, a gamma number, and unless it repeats the last offset another byte and gamma number: a long
  match;
* `110` and a byte: a short match, or the end of the stream when its offset is 0;
* `111` and four bits: a single byte at that offset, or a zero byte.
-/
namespace AdLibModule.Aplib

/-- The next byte of the stream. -/
def readByte : BitRead UInt8 := fun stream =>
  match stream.byte? with
  | some next => .ok next
  | none => .error (.exhausted .aplib stream.position)

/-- The next bit of the stream. -/
def readBit : BitRead Bool := fun stream =>
  match stream.tagBit? with
  | some next => .ok next
  | none => .error (.exhausted .aplib stream.position)

/-- The largest gamma number that is accepted for output of at most `limit` bytes. -/
def gammaLimit (limit : Nat) : Nat := 2 * max limit 1

/-- The rest of a gamma number of which the leading digits are known. Each further binary digit is
followed by a bit that tells whether there are more. -/
def readDigits (limit : Nat) (leading : Nat) (leading_pos : 0 < leading) : BitRead Gamma := do
  let digit ← readBit
  let value := 2 * leading + digit.toNat
  if h : gammaLimit limit < value then
    throw .gammaTooLarge
  else if ← readBit then
    readDigits limit value (by omega)
  else
    pure ⟨value, by omega⟩
termination_by gammaLimit limit - leading

/-- A gamma number: its binary digits after the leading one. -/
def readGamma (limit : Nat) : BitRead Gamma := readDigits limit 1 (by decide)

/-- What the gamma number of a long match exceeds the high part of its offset by. Right after a
match no repetition is possible, so that one number less is taken. -/
def offsetBias (afterMatch : Bool) : Nat := if afterMatch then 2 else 3

/-- A long match, or one at the last offset. A gamma number is at most twice the limit, so that the
offset has room in a word of 64 bits as long as the limit is below 2^55. -/
def readMatch (limit : Nat) (afterMatch : Bool) : BitRead (Option Token) := do
  let high ← readGamma limit
  if high.val < offsetBias afterMatch then
    return some (.again (← readGamma limit))
  else
    let low ← readByte
    let length ← readGamma limit
    return some (.long (256 * (high - offsetBias afterMatch) + low.toNat) length)

/-- A short match, or the end of the stream. -/
def readShort : BitRead (Option Token) := do
  let byte ← readByte
  let offset := byte.toNat / 2
  return if offset = 0 then none else some (.short offset (byte.toNat % 2 == 1))

/-- A single byte that was written before, or a zero byte. -/
def readSingle : BitRead (Option Token) := do
  let eight ← readBit
  let four ← readBit
  let two ← readBit
  let one ← readBit
  let offset := 8 * eight.toNat + 4 * four.toNat + 2 * two.toNat + one.toNat
  return some (if offset = 0 then .zero else .single offset)

/-- The next token, or `none` at the end of the stream. -/
def readToken (limit : Nat) (afterMatch : Bool) : BitRead (Option Token) := do
  if !(← readBit) then
    return some (.literal (← readByte))
  else if !(← readBit) then
    readMatch limit afterMatch
  else if !(← readBit) then
    readShort
  else
    readSingle

/-- Reads tokens up to the end of the stream and carries them out. Also tells what is left of the
stream. -/
def decodeFrom (limit : Nat) (state : State) (stream : BitStream) :
    Except DecodeError (Array UInt8 × BitStream) :=
  match readToken limit state.afterMatch stream with
  | .error fault => .error (.corruptStream fault)
  | .ok (none, stream) => .ok (state.out, stream)
  | .ok (some token, stream) =>
    match _ : state.append limit token with
    | .error error => .error error
    | .ok next => decodeFrom limit next stream
termination_by limit - state.out.size
decreasing_by
  have := State.size_of_append ‹state.append limit token = .ok next›
  omega

/-- The output of an aPlib stream, and what is left of the stream. -/
def decodeStream (source : Array UInt8) (limit : Nat) :
    Except DecodeError (Array UInt8 × BitStream) :=
  match readByte (BitStream.start source) with
  | .error fault => .error (.corruptStream fault)
  | .ok (first, stream) =>
    match put limit #[] first with
    | .error error => .error error
    | .ok out => decodeFrom limit ⟨out, 0, false⟩ stream

/-- Unpacks an aPlib stream into at most `limit` bytes. -/
def decode (source : Array UInt8) (limit : Nat) : Except DecodeError (Array UInt8) :=
  (decodeStream source limit).map Prod.fst

end AdLibModule.Aplib
