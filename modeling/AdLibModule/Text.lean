/-!
Text fields. A byte stands for the character of the same number, so every sequence of bytes is a
text; a Pascal field starts with the number of its characters.
-/
namespace AdLibModule.Text

/-- The characters with the given numbers. -/
def ofBytes (bytes : List UInt8) : String :=
  String.ofList (bytes.map fun byte => Char.ofNat byte.toNat)

/-- The text of a field of fixed size: a length byte, the characters, and unused bytes. A length
that exceeds the field counts as the whole field. -/
def ofPascal : List UInt8 → String
  | [] => ""
  | length :: body => ofBytes (body.take length.toNat)

end AdLibModule.Text
