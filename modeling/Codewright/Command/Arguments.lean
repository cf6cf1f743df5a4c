import Codewright.Compile

/-!
# Arguments

The words after the program's name: a command, options and files, in any order after the command.
The value of an option follows as the next word, or in the same word after `=`; two dashes alone end
the options.
-/

namespace Codewright

inductive Command where
  | build (inputs : List String) (output : Option String) (options : Options)
  | check (inputs : List String)
  | lex (input : String)
  | parse (input : String)
  | ir (inputs : List String) (optimize : Bool)
  | disasm (inputs : List String)

inductive UsageError where
  | noCommand
  | unknownCommand (word : String)
  | unknownOption (word : String)
  | missingValue (option : String)
  | wrongValue (option value : String)
  | repeated (option : String)
  | noFile
  | tooManyFiles (word : String)
  deriving DecidableEq

def UsageError.message : UsageError → String
  | .noCommand => "a command is missing: build, check, lex, parse, ir or disasm"
  | .unknownCommand word => "unknown command `" ++ word ++ "`"
  | .unknownOption word => "unknown option `" ++ word ++ "`"
  | .missingValue option => "the option `--" ++ option ++ "` needs a value"
  | .wrongValue option value => "`" ++ value ++ "` is no value of the option `--" ++ option ++ "`"
  | .repeated option => "the option `--" ++ option ++ "` is given twice"
  | .noFile => "a file is missing"
  | .tooManyFiles word => "unexpected argument `" ++ word ++ "`"

/-- An option: its name, its letter, and whether it has a value. -/
structure OptionForm where
  name : String
  letter : Option Char := none
  valued : Bool := true

/-- The words sorted: files, in reverse, and options with their values. -/
structure Arguments where
  files : List String := []
  options : List (String × String) := []

namespace Arguments

def value? (a : Arguments) (name : String) : Option String := a.options.lookup name

def addOption (a : Arguments) (name value : String) : Except UsageError Arguments :=
  if (a.value? name).isSome then .error (.repeated name)
  else .ok { a with options := (name, value) :: a.options }

/-- The option that a word names, and the value in the same word. -/
def optionOf? (forms : List OptionForm) (word : String) :
    Option (OptionForm × Option String) :=
  match word.toList with
  | '-' :: '-' :: cs =>
    let name := String.ofList (cs.takeWhile (· != '='))
    (forms.find? (·.name == name)).map fun form =>
      match cs.dropWhile (· != '=') with
      | _ :: value => (form, some (String.ofList value))
      | [] => (form, none)
  | '-' :: c :: cs =>
    (forms.find? (·.letter == some c)).map fun form =>
      match cs with
      | [] => (form, none)
      | '=' :: value => (form, some (String.ofList value))
      | value => (form, some (String.ofList value))
  | _ => none

def isOption (word : String) : Bool := word.startsWith "-" && word != "-"

def sort (forms : List OptionForm) (a : Arguments) : List String → Except UsageError Arguments
  | [] => .ok { a with files := a.files.reverse }
  | "--" :: rest => .ok { a with files := a.files.reverse ++ rest }
  | word :: rest =>
    if isOption word then
      match optionOf? forms word with
      | none => .error (.unknownOption word)
      | some (form, some value) =>
        if form.valued then a.addOption form.name value >>= fun a => a.sort forms rest
        else .error (.unknownOption word)
      | some (form, none) =>
        if form.valued then
          match rest with
          | value :: rest =>
            if isOption value then .error (.missingValue form.name)
            else a.addOption form.name value >>= fun a => a.sort forms rest
          | [] => .error (.missingValue form.name)
        else a.addOption form.name "" >>= fun a => a.sort forms rest
    else { a with files := word :: a.files }.sort forms rest

def someFiles (a : Arguments) : Except UsageError (List String) :=
  if a.files.isEmpty then .error .noFile else .ok a.files

def onlyFile (a : Arguments) : Except UsageError String :=
  match a.files with
  | [] => .error .noFile
  | [file] => .ok file
  | _ :: word :: _ => .error (.tooManyFiles word)

end Arguments

namespace Command

def targetOf (word : String) : Except UsageError Target :=
  match word with
  | "bytecode" => .ok .bytecode
  | "x64" => .ok .x64
  | _ => .error (.wrongValue "target" word)

def buildForms : List OptionForm :=
  [{ name := "output", letter := some 'o' }, { name := "target", letter := some 't' },
   { name := "no-opt", valued := false }, { name := "entry" }]

def ofWords : List String → Except UsageError Command
  | [] => .error .noCommand
  | "build" :: rest => do
    let a ← Arguments.sort buildForms {} rest
    let target ← targetOf ((a.value? "target").getD "bytecode")
    let options : Options :=
      { target, optimize := (a.value? "no-opt").isNone, entry := a.value? "entry" }
    return .build (← a.someFiles) (a.value? "output") options
  | "check" :: rest => do return .check (← (← Arguments.sort [] {} rest).someFiles)
  | "lex" :: rest => do return .lex (← (← Arguments.sort [] {} rest).onlyFile)
  | "parse" :: rest => do return .parse (← (← Arguments.sort [] {} rest).onlyFile)
  | "ir" :: rest => do
    let a ← Arguments.sort [{ name := "no-opt", valued := false }] {} rest
    return .ir (← a.someFiles) (a.value? "no-opt").isNone
  | "disasm" :: rest => do return .disasm (← (← Arguments.sort [] {} rest).someFiles)
  | word :: _ => .error (.unknownCommand word)

end Command

end Codewright
