/-
# CommandShell.CommandLine.Arguments -- the arguments a shell is started with

Arguments are read from left to right. An option that takes a value may have it attached or in the
next argument; such a value, and the script's path, are only checked when the next known option, the
next plain argument or the end is reached. An argument that is not known is refused at once, before
anything that still waits is checked. Behind `--` every argument is plain.
-/
import CommandShell.Decimal.Reading
import CommandShell.Trace.Topic

namespace CommandShell

/-- What a shell is asked to do. -/
structure Arguments where
  command : Option String := none
  noBanner : Bool := false
  lenientVars : Bool := false
  noUnescape : Bool := false
  maxDepth : Option Nat := none
  debug : List Topic := []
  script : Option String := none
  deriving DecidableEq, Repr

/-- Why arguments are not taken; two of the reasons are requests for information. -/
inductive UsageError where
  | helpRequested
  | versionRequested
  | invalidValue
  | unknownArgument
  | tooManyValues
  | repeated
  | notANumber
  deriving DecidableEq, Repr

namespace Arguments

/-! ## Options -/

/-- Options with a value, and the plain argument. -/
inductive Slot where
  | command | maxDepth | debug | script
  deriving DecidableEq, Repr

/-- Options without a value. -/
inductive Switch where
  | noBanner | lenientVars | noUnescape | help | version
  deriving DecidableEq, Repr

/-- The option of a long name. -/
def ofLong? : String → Option (Slot ⊕ Switch)
  | "no-banner" => some (.inr .noBanner)
  | "lenient-vars" => some (.inr .lenientVars)
  | "no-unescape" => some (.inr .noUnescape)
  | "max-depth" => some (.inl .maxDepth)
  | "debug" => some (.inl .debug)
  | "help" => some (.inr .help)
  | "version" => some (.inr .version)
  | _ => none

/-- The option of a letter. -/
def ofShort? : Char → Option (Slot ⊕ Switch)
  | 'c' => some (.inl .command)
  | 'h' => some (.inr .help)
  | 'V' => some (.inr .version)
  | _ => none

/-! ## Values -/

/-- One more than the largest depth limit. -/
def depthBound : Nat := UInt64.size

/-- Reads a depth limit: digits, perhaps behind a plus sign. -/
def depth? (text : String) : Option Nat :=
  let digits := match text.toList with
    | '+' :: rest => rest
    | rest => rest
  if digits.isEmpty || !digits.all Decimal.isDigit then none
  else if Decimal.valueOf digits < depthBound then some (Decimal.valueOf digits)
  else none

/-- Takes the value of an option or the plain argument. -/
def store (a : Arguments) (slot : Slot) (value : String) : Except UsageError Arguments :=
  match slot with
  | .command => if a.command.isSome then .error .repeated else .ok { a with command := some value }
  | .maxDepth =>
    if a.maxDepth.isSome then .error .repeated
    else match depth? value with
      | some n => .ok { a with maxDepth := some n }
      | none => .error .notANumber
  | .debug =>
    match Topic.ofName? value with
    | some t => .ok { a with debug := a.debug ++ [t] }
    | none => .error .invalidValue
  | .script => if value.isEmpty then .error .invalidValue else .ok { a with script := some value }

/-- Takes an option without a value. -/
def turnOn (a : Arguments) : Switch → Except UsageError Arguments
  | .noBanner => if a.noBanner then .error .repeated else .ok { a with noBanner := true }
  | .lenientVars => if a.lenientVars then .error .repeated else .ok { a with lenientVars := true }
  | .noUnescape => if a.noUnescape then .error .repeated else .ok { a with noUnescape := true }
  | .help => .error .helpRequested
  | .version => .error .versionRequested

/-! ## Reading -/

/-- What is known after some arguments. -/
structure Progress where
  taken : Arguments := {}
  /-- A slot whose value is not checked yet, or not even there. -/
  waiting : Option (Slot × Option String) := none
  /-- Whether a plain argument was given. -/
  hasPlain : Bool := false
  /-- Whether `--` was given. -/
  onlyPlain : Bool := false

/-- Checks what still waits. -/
def settle (p : Progress) : Except UsageError Progress :=
  match p.waiting with
  | none => .ok p
  | some (_, none) => .error .invalidValue
  | some (slot, some value) => do
    let taken ← p.taken.store slot value
    return { p with taken := taken, waiting := none }

/-- Takes an option, perhaps with an attached value. -/
def takeOption (p : Progress) (option : Slot ⊕ Switch) (value : Option String) :
    Except UsageError Progress :=
  match option, value with
  | .inl slot, some v => do
    let p ← settle p
    let taken ← p.taken.store slot v
    return { p with taken := taken }
  | .inl slot, none => do
    let p ← settle p
    return { p with waiting := some (slot, none) }
  | .inr _, some _ => .error .tooManyValues
  | .inr switch, none => do
    let p ← settle p
    let taken ← p.taken.turnOn switch
    return { p with taken := taken }

/-- Takes `--name` or `--name=value`, given what follows the dashes. -/
def takeLong (p : Progress) (text : List Char) : Except UsageError Progress :=
  let name := text.takeWhile (· != '=')
  let value := match text.dropWhile (· != '=') with
    | [] => none
    | _ :: rest => some (String.ofList rest)
  match ofLong? (String.ofList name) with
  | some option => takeOption p option value
  | none => .error .unknownArgument

/-- Takes the letters of a cluster; an option with a value takes the rest of the cluster for it. -/
def takeShort (p : Progress) : List Char → Except UsageError Progress
  | [] => .ok p
  | c :: rest =>
    match ofShort? c with
    | none => .error .unknownArgument
    | some (.inr switch) => do
      let p ← takeOption p (.inr switch) none
      takeShort p rest
    | some (.inl slot) =>
      let value := match rest with
        | [] => none
        | '=' :: more => some (String.ofList more)
        | more => some (String.ofList more)
      takeOption p (.inl slot) value

/-- Takes a plain argument. There is room for one. -/
def takePlain (p : Progress) (text : String) : Except UsageError Progress :=
  if p.hasPlain then .error .unknownArgument
  else do
    let p ← settle p
    return { p with waiting := some (.script, some text), hasPlain := true }

/-- Takes one argument. -/
def take (p : Progress) (text : String) : Except UsageError Progress :=
  if p.onlyPlain then takePlain p text
  else match text.toList with
    | ['-', '-'] => .ok { p with onlyPlain := true }
    | '-' :: '-' :: rest => takeLong p rest
    | '-' :: c :: rest => takeShort p (c :: rest)
    | _ =>
      match p.waiting with
      | some (slot, none) => .ok { p with waiting := some (slot, some text) }
      | _ => takePlain p text

/-- Reads all arguments. -/
def read (arguments : List String) : Except UsageError Arguments := do
  let p ← arguments.foldlM take {}
  let p ← settle p
  return p.taken

end Arguments

end CommandShell
