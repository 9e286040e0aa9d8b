import AdLibModule.Effect
import AdLibModule.Family

/-!
Events: what happens on one channel in one row of a pattern.
-/
namespace AdLibModule

/-- An effect as it is stored. -/
structure StoredEffect where
  number : UInt8
  parameter : UInt8
  deriving DecidableEq, Inhabited

structure Event where
  note : UInt8
  instrument : UInt8
  /-- The number of a canonical command, or 255. -/
  command : UInt8
  param1 : UInt8
  param2 : UInt8
  /-- The second effect of the newest family. -/
  secondary : StoredEffect
  deriving DecidableEq, Inhabited

namespace Event

/-- The event in which nothing happens. -/
def empty : Event := ⟨0, 0, 0, 0, 0, ⟨0, 0⟩⟩

def isEmpty (event : Event) : Bool := event == empty

/-- The command of the event, if it has a name. -/
def command? (event : Event) : Option Command := Command.ofNumber? event.command

/-- The note that is stored where there is none. -/
def storedNoNote : UInt8 := 255

/-- The note that stands for none in an event. -/
def noNote : UInt8 := 127

/-- The event in its stored bytes. -/
def ofBytes (family : Family) (stored : Array UInt8) : Event :=
  let note := stored.getD 0 0
  let number := stored.getD 2 0
  let parameter := stored.getD 3 0
  let effect :=
    match family with
    | .classic => Effect.ofClassic number parameter
    | .opl3 | .extended => Effect.ofModern number parameter
  { note := if note = storedNoNote then noNote else note
    instrument := stored.getD 1 0
    command := effect.command
    param1 := effect.param1
    param2 := effect.param2
    secondary :=
      match family with
      | .classic | .opl3 => ⟨0, 0⟩
      | .extended => ⟨stored.getD 4 0, stored.getD 5 0⟩ }

end Event
end AdLibModule
