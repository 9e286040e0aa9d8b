/-!
The command line. Options may stand anywhere among the files, each at most once; short ones may be
joined, and `--` ends them. Arguments are taken in order, and the first that is not understood
decides the outcome, unless help was asked for before it.
-/
namespace AdLibModule

structure Options where
  files : List String := []
  json : Bool := false
  /-- JSON on several lines. -/
  pretty : Bool := false
  /-- List the instruments. -/
  instruments : Bool := false
  /-- The pattern to show. -/
  pattern : Option Nat := none
  deriving DecidableEq

/-- Why a command line is not carried out. -/
inductive Refusal where
  /-- Help was asked for. -/
  | help
  /-- The arguments are not understood. -/
  | usage
  deriving DecidableEq

namespace Options

/-- The number in the argument of the pattern option: decimal digits, with or without a plus sign,
for a number of at most 64 bits. -/
def patternNumber? (text : List Char) : Option Nat :=
  let digits :=
    match text with
    | '+' :: rest => rest
    | text => text
  if digits.isEmpty || !digits.all Char.isDigit then none
  else
    let n := digits.foldl (fun n digit => 10 * n + (digit.toNat - '0'.toNat)) 0
    if n < UInt64.size then some n else none

def addFile (options : Options) (file : String) : Except Refusal Options :=
  if file.isEmpty then .error .usage else .ok { options with files := options.files ++ [file] }

def addJson (options : Options) : Except Refusal Options :=
  if options.json then .error .usage else .ok { options with json := true }

def addPretty (options : Options) : Except Refusal Options :=
  if options.pretty then .error .usage else .ok { options with pretty := true }

def addInstruments (options : Options) : Except Refusal Options :=
  if options.instruments then .error .usage else .ok { options with instruments := true }

def addPattern (options : Options) (value : List Char) : Except Refusal Options :=
  match options.pattern, patternNumber? value with
  | none, some n => .ok { options with pattern := some n }
  | _, _ => .error .usage

/-- What an argument asks for once it is complete. -/
inductive Step where
  | done (options : Options)
  /-- The next argument is the pattern. -/
  | needsPattern (options : Options)

/-- A long option, without its two dashes. -/
def long (options : Options) (name : List Char) : Except Refusal Step :=
  if name = "json".toList then options.addJson.map .done
  else if name = "pretty".toList then options.addPretty.map .done
  else if name = "instruments".toList then options.addInstruments.map .done
  else if name = "help".toList then .error .help
  else if name = "pattern".toList then .ok (.needsPattern options)
  else if "pattern=".toList.isPrefixOf name then
    (options.addPattern (name.drop "pattern=".length)).map .done
  else .error .usage

/-- Short options joined in one argument, without their dash. What follows a `p` is its pattern. -/
def short (options : Options) : List Char → Except Refusal Step
  | [] => .ok (.done options)
  | 'h' :: _ => .error .help
  | 'i' :: rest =>
    match options.addInstruments with
    | .ok options => options.short rest
    | .error refusal => .error refusal
  | ['p'] => .ok (.needsPattern options)
  | 'p' :: '=' :: value => (options.addPattern value).map .done
  | 'p' :: value => (options.addPattern value).map .done
  | _ => .error .usage

/-- Whether the argument is an option: it starts with a dash and does not end there. -/
def isOption (argument : List Char) : Bool :=
  argument.head? == some '-' && argument != ['-']

def addFiles (options : Options) : List String → Except Refusal Options
  | [] => .ok options
  | file :: files =>
    match options.addFile file with
    | .ok options => options.addFiles files
    | .error refusal => .error refusal

/-- Takes one argument, other than the two dashes alone. -/
def take (options : Options) (argument : String) : Except Refusal Step :=
  match argument.toList with
  | '-' :: '-' :: name => options.long name
  | '-' :: c :: letters => options.short (c :: letters)
  | _ => (options.addFile argument).map .done

/-- Takes the arguments in order. -/
def scan (options : Options) : List String → Except Refusal Options
  | [] => .ok options
  | argument :: arguments =>
    if argument = "--" then options.addFiles arguments
    else
      match options.take argument with
      | .error refusal => .error refusal
      | .ok (.done options) => options.scan arguments
      | .ok (.needsPattern options) =>
        match arguments with
        | [] => .error .usage
        | value :: arguments =>
          if isOption value.toList then .error .usage
          else
            match options.addPattern value.toList with
            | .error refusal => .error refusal
            | .ok options => options.scan arguments

/-- The options of a command line. There must be a file, and only JSON can be pretty. -/
def ofArguments (arguments : List String) : Except Refusal Options :=
  match scan {} arguments with
  | .error refusal => .error refusal
  | .ok options =>
    if options.files.isEmpty || (options.pretty && !options.json) then .error .usage
    else .ok options

end Options
end AdLibModule
