import AdLibModule.Container
import AdLibModule.SongData

/-!
The blocks of a module: which there are in each version and container, in which order, and the size
that each has when it is unpacked. A full module has one block of song data, a tiny one has a block
for each part of it that is not a text; the groups of patterns follow in both.
-/
namespace AdLibModule

/-- What a block holds. -/
inductive BlockKind where
  | songData
  | instruments
  | instrumentMacros
  | macroTables
  | disabledColumns
  | order
  | patternGroup (group : Nat)
  deriving DecidableEq

namespace BlockKind

/-- Whether the block may have no bytes at all, which stands for empty patterns. -/
def mayBeAbsent : BlockKind → Bool
  | patternGroup _ => true
  | _ => false

end BlockKind

namespace Version

/-- The blocks before the pattern groups. -/
def songBlocks (version : Version) : Container → List BlockKind
  | .a2m => [.songData]
  | .a2t =>
    [.instruments] ++ (if version.hasMacros then [.instrumentMacros, .macroTables] else [])
      ++ (if version.number = 11 then [.disabledColumns] else []) ++ [.order]

/-- The blocks of a module, in the order of the file. -/
def layout (version : Version) (container : Container) : List BlockKind :=
  version.songBlocks container ++ (List.range version.family.groups).map .patternGroup

/-- The number of bytes of an entry in the table of block lengths. -/
def lengthSize (version : Version) : Nat := if version.number < 9 then 2 else 4

/-- The number of bytes of an unpacked block. -/
def blockSize (version : Version) : BlockKind → Nat
  | .songData => SongData.storedSize version
  | .instruments => version.instrumentCount * version.recordSize
  | .instrumentMacros => macroSlots * InstrumentMacro.storedSize
  | .macroTables => macroSlots * MacroTable.storedSize
  | .disabledColumns => macroSlots * DisabledColumns.storedSize
  | .order => orderSize
  | .patternGroup _ => version.family.groupSize

end Version
end AdLibModule
