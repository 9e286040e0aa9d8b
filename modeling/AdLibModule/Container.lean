import AdLibModule.DecodeError

/-!
The two kinds of module file. A file tells its kind by the signature that it starts with; a file
that ends within a signature is cut short rather than foreign.
-/
namespace AdLibModule

/-- A full module, or one without texts. -/
inductive Container where
  | a2m
  | a2t
  deriving DecidableEq

namespace Container

/-- The signature: `_A2module_` or `_A2tiny_module_`. -/
def magic : Container → Array UInt8
  | a2m => #[0x5f, 0x41, 0x32, 0x6d, 0x6f, 0x64, 0x75, 0x6c, 0x65, 0x5f]
  | a2t =>
    #[0x5f, 0x41, 0x32, 0x74, 0x69, 0x6e, 0x79, 0x5f, 0x6d, 0x6f, 0x64, 0x75, 0x6c, 0x65, 0x5f]

def name : Container → String
  | a2m => "A2m"
  | a2t => "A2t"

def fileExtension : Container → String
  | a2m => "a2m"
  | a2t => "a2t"

/-- Whether the data starts with the signature. -/
def marks (container : Container) (data : Array UInt8) : Bool :=
  data.extract 0 container.magic.size == container.magic

/-- Whether the data ends before the signature does, without a difference so far. -/
def isCutIn (container : Container) (data : Array UInt8) : Bool :=
  decide (data.size < container.magic.size) && container.magic.extract 0 data.size == data

/-- The container whose signature the data starts with. -/
def detect (data : Array UInt8) : Except DecodeError Container :=
  if a2m.marks data then .ok a2m
  else if a2m.isCutIn data then .error (.truncated 0 a2m.magic.size data.size)
  else if a2t.marks data then .ok a2t
  else if a2t.isCutIn data then .error (.truncated 0 a2t.magic.size data.size)
  else .error .badMagic

/-- The container of a module, and none for other data. -/
def format? (data : Array UInt8) : Option Container := (detect data).toOption

/-- Whether the data starts with a signature. -/
def isModule (data : Array UInt8) : Bool := a2m.marks data || a2t.marks data

end Container
end AdLibModule
