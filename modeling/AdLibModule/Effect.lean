import AdLibModule.Command

/-!
Effects. Each family of versions numbers its effects in its own way; all are carried over to one
canonical set of commands with two parameters of four bits. A few stored effects are split by their
first parameter into commands of their own.
-/
namespace AdLibModule

/-- An effect of the canonical set. -/
structure Effect where
  /-- The number of a command, or 255 for an effect that has no place in the set. -/
  command : UInt8
  param1 : UInt8
  param2 : UInt8
  deriving DecidableEq

namespace Effect

/-- The number of the command in the place of an effect that has none. -/
def noCommand : UInt8 := 255

/-- The commands of the effects of versions 1 to 4, by their stored number. -/
def classicCommands : Array UInt8 := #[0, 1, 2, 23, 24, 3, 5, 4, 6, 9, 17, 13, 11, 19, 7, 14]

/-- The kinds of extended effect of versions 1 to 4, by their stored number. -/
def classicExtended : Array UInt8 := #[0, 1, 2, 6, 7, 8, 9, 4, 5, 3, 10, 11, 12, 13, 14, 15]

/-- The commands of the first effects of versions 5 to 11, by their stored number. -/
def modernCommands : Array UInt8 :=
  #[0, 1, 2, 3, 4, 5, 6, 23, 24, 21, 10, 11, 17, 13, 7, 19, 255, 255, 22, 25, 255, 15]

/-- The four high bits of a parameter byte. -/
def highHalf (parameter : UInt8) : UInt8 := parameter >>> 4

/-- The four low bits of a parameter byte. -/
def lowHalf (parameter : UInt8) : UInt8 := parameter &&& 0x0f

/-- An extended effect of versions 1 to 4, of which some kinds are commands of their own. -/
def ofClassicExtended (kind value : UInt8) : Effect :=
  if kind = 15 ∧ value = 0 then ⟨Command.keyOff.number, 0, 0⟩
  else if kind = 2 then ⟨Command.setWaveform.number, value, 15⟩
  else if kind = 8 then ⟨Command.fineVolumeSlide.number, value, 0⟩
  else if kind = 9 then ⟨Command.fineVolumeSlide.number, 0, value⟩
  else ⟨Command.extended.number, kind, value⟩

/-- An effect as versions 1 to 4 store it. -/
def ofClassic (number parameter : UInt8) : Effect :=
  let command := classicCommands.getD number.toNat noCommand
  let high := highHalf parameter
  let low := lowHalf parameter
  if command = Command.extended.number then
    ofClassicExtended (classicExtended.getD high.toNat 0) low
  else
    ⟨command, high, low⟩

/-- An effect as versions 5 to 11 store it. -/
def ofModern (number parameter : UInt8) : Effect :=
  let high := highHalf parameter
  let low := lowHalf parameter
  if number = 35 then ⟨Command.extended.number, high, low⟩
  else if number = 36 ∧ high = 0 then ⟨Command.patternDelay.number, 0, low⟩
  else if number = 36 ∧ high = 1 then ⟨Command.extended.number, 8, low⟩
  else ⟨modernCommands.getD number.toNat noCommand, high, low⟩

end Effect
end AdLibModule
