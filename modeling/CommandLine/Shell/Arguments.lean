import CommandLine.Shell.LogLevel

/-!
# Arguments of the shell

The program takes a configuration file, a log level, an administrator switch and a user name. Each
may be given once, long or short, with its value attached or as the next argument. A value of its
own must not look like an option, unless it is a lone hyphen.
-/

set_option autoImplicit false

namespace CommandLine.Shell

/-- What the program was started with. -/
structure Arguments where
  config : Option String := none
  logLevel : Option LogLevel := none
  admin : Bool := false
  user : Option String := none
deriving DecidableEq, Repr, Inhabited

/-- The name of the user when none is given. -/
def defaultUser : String := "guest"

/-- Why arguments were not accepted, or what was asked for instead of running. -/
inductive ArgumentError where
  | unknownArgument
  | invalidValue
  /-- An option that may be given once was given again. -/
  | repeated
  /-- A switch was given a value. -/
  | unexpectedValue
  | helpAsked
  | versionAsked
deriving DecidableEq, Repr

/-- The options that the program knows. -/
inductive ArgumentOption where
  | config
  | logLevel
  | admin
  | user
  | help
  | version
deriving DecidableEq, Repr

namespace ArgumentOption

/-- The option with a long name. -/
def ofLong? (name : String) : Option ArgumentOption :=
  if name = "config" then some config
  else if name = "log-level" then some logLevel
  else if name = "admin" then some admin
  else if name = "user" then some user
  else if name = "help" then some help
  else if name = "version" then some version
  else none

/-- The option with a short name. -/
def ofShort? (c : Char) : Option ArgumentOption :=
  if c = 'c' then some config
  else if c = 'L' then some logLevel
  else if c = 'h' then some help
  else if c = 'V' then some version
  else none

/-- Whether an option comes with a value. -/
def takesValue : ArgumentOption → Bool
  | config | logLevel | user => true
  | admin | help | version => false

end ArgumentOption

/-- Stores the value of an option that takes one. A configuration file has a name. -/
def Arguments.store (a : Arguments) (option : ArgumentOption) (value : String) :
    Except ArgumentError Arguments :=
  match option with
  | .config =>
    if a.config.isSome then .error .repeated
    else if value = "" then .error .invalidValue
    else .ok { a with config := some value }
  | .user => if a.user.isSome then .error .repeated else .ok { a with user := some value }
  | .logLevel =>
    if a.logLevel.isSome then .error .repeated
    else match LogLevel.ofName? value with
      | none => .error .invalidValue
      | some level => .ok { a with logLevel := some level }
  | .admin | .help | .version => .error .unexpectedValue

/-- Notes an option that takes no value. -/
def Arguments.note (a : Arguments) (option : ArgumentOption) : Except ArgumentError Arguments :=
  match option with
  | .admin => if a.admin then .error .repeated else .ok { a with admin := true }
  | .help => .error .helpAsked
  | .version => .error .versionAsked
  | .config | .logLevel | .user => .error .invalidValue

/-- One argument taken apart. -/
inductive ArgumentToken where
  /-- A long option, with the value after its equals sign. -/
  | long (name : String) (value : Option String)
  /-- Short options written together. -/
  | short (letters : List Char)
  /-- The mark after which nothing is an option. -/
  | endOfOptions
  | plain (text : String)
deriving DecidableEq, Repr

/-- Splits a text at its first equals sign. -/
def splitEquals (cs : List Char) : List Char × Option (List Char) :=
  match cs.dropWhile (· ≠ '=') with
  | [] => (cs, none)
  | _ :: value => (cs.takeWhile (· ≠ '='), some value)

/-- Takes an argument apart. A lone hyphen is plain text. -/
def ArgumentToken.ofText (s : String) : ArgumentToken :=
  match s.toList with
  | ['-', '-'] => .endOfOptions
  | '-' :: '-' :: cs =>
    let (name, value) := splitEquals cs
    .long (String.ofList name) (value.map String.ofList)
  | '-' :: c :: cs => .short (c :: cs)
  | _ => .plain s

/-- How far the arguments were read. A value that is an argument of its own is kept back until the
next known option or the end, so that an unknown argument after it is the first complaint. -/
structure ArgumentReader where
  read : Arguments := {}
  /-- The last option with a value of its own, and that value once it was read. -/
  pending : Option (ArgumentOption × Option String) := none
  /-- Whether options have ended. -/
  ended : Bool := false

namespace ArgumentReader

/-- Stores the value kept back; it must have been read. -/
def settle (r : ArgumentReader) : Except ArgumentError ArgumentReader :=
  match r.pending with
  | none => .ok r
  | some (_, none) => .error .invalidValue
  | some (option, some value) =>
    (r.read.store option value).map fun a => { r with read := a, pending := none }

/-- Reads an option with its attached value, or waits for the value. -/
def takeOption (r : ArgumentReader) (option : ArgumentOption) (attached : Option String) :
    Except ArgumentError ArgumentReader :=
  match r.settle with
  | .error e => .error e
  | .ok r =>
    match option.takesValue, attached with
    | false, _ => (r.read.note option).map fun a => { r with read := a }
    | true, none => .ok { r with pending := some (option, none) }
    | true, some value => (r.read.store option value).map fun a => { r with read := a }

/-- The value attached to a short option, an equals sign before it left out. -/
def attachedValue? : List Char → Option String
  | [] => none
  | '=' :: cs => some (String.ofList cs)
  | cs => some (String.ofList cs)

/-- Reads short options written together; the first one with a value takes the letters after it. -/
def takeShort (r : ArgumentReader) : List Char → Except ArgumentError ArgumentReader
  | [] => .ok r
  | c :: letters =>
    match ArgumentOption.ofShort? c with
    | none => .error .unknownArgument
    | some option =>
      if option.takesValue then r.takeOption option (attachedValue? letters)
      else match r.takeOption option none with
        | .error e => .error e
        | .ok r => takeShort r letters

/-- Reads a long option. -/
def takeLong (r : ArgumentReader) (name : String) (attached : Option String) :
    Except ArgumentError ArgumentReader :=
  match ArgumentOption.ofLong? name with
  | none => .error .unknownArgument
  | some option =>
    if !option.takesValue && attached.isSome then .error .unexpectedValue
    else r.takeOption option attached

/-- Reads one argument. Plain text is the value of the option before it or has no place. -/
def take (r : ArgumentReader) (s : String) : Except ArgumentError ArgumentReader :=
  if r.ended then .error .unknownArgument
  else match ArgumentToken.ofText s, r.pending with
    | .long name attached, _ => r.takeLong name attached
    | .short letters, _ => r.takeShort letters
    | .endOfOptions, _ => .ok { r with ended := true }
    | .plain value, some (option, none) => .ok { r with pending := some (option, some value) }
    | .plain _, _ => .error .unknownArgument

/-- Reads arguments in order. -/
def takeAll (r : ArgumentReader) : List String → Except ArgumentError Arguments
  | [] => r.settle.map ArgumentReader.read
  | s :: later =>
    match r.take s with
    | .error e => .error e
    | .ok r => takeAll r later

end ArgumentReader

/-- Reads the arguments of the program, its own name left out. -/
def Arguments.ofList (arguments : List String) : Except ArgumentError Arguments :=
  ArgumentReader.takeAll {} arguments

/-- The name of the acting user. -/
def Arguments.userName (a : Arguments) : String := a.user.getD defaultUser

end CommandLine.Shell
