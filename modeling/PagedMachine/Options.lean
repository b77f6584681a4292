/-!
The command line: two flags, a step limit and the files to run. Whatever does not fit is a usage error,
and none of them says more than that.
-/

namespace PagedMachine

structure Options where
  -- Whether to show also the verbose levels of the log.
  verbose : Bool := false
  -- Whether to print the linked program before it runs.
  listing : Bool := false
  -- After how many steps to pause.
  maxSteps : Option Nat := none
  files : Array String := #[]
  deriving DecidableEq, Repr

-- Sets the verbose flag, which may be given once.
def Options.setVerbose? (o : Options) : Option Options :=
  if o.verbose then none else some { o with verbose := true }

def Options.setListing? (o : Options) : Option Options :=
  if o.listing then none else some { o with listing := true }

-- The number that decimal digits spell, with or without a plus sign, if it fits into 64 bits.
def stepLimit? (text : String) : Option Nat :=
  let digits :=
    match text.toList with
    | '+' :: ds => ds
    | ds => ds
  if digits.isEmpty || !digits.all Char.isDigit then none
  else
    let n := digits.foldl (fun n c => n * 10 + (c.toNat - '0'.toNat)) 0
    if n < 0x10000000000000000 then some n else none

def Options.setMaxSteps? (o : Options) (text : String) : Option Options :=
  if o.maxSteps.isSome then none
  else (stepLimit? text).map fun n => { o with maxSteps := some n }

def Options.addFile? (o : Options) (file : String) : Option Options :=
  if file.isEmpty then none else some { o with files := o.files.push file }

-- Sets short flags, which may be bundled.
def Options.setShort? (o : Options) (flags : List Char) : Option Options :=
  flags.foldlM
    (fun o c => if c = 'v' then o.setVerbose? else if c = 'l' then o.setListing? else none) o

def Options.setLong? (o : Options) (name : String) : Option Options :=
  if name = "verbose" then o.setVerbose?
  else if name = "listing" then o.setListing?
  else
    match name.toList.dropWhile (· != '=') with
    | [] => none
    | _ :: value =>
      if String.ofList (name.toList.takeWhile (· != '=')) = "max-steps" then
        o.setMaxSteps? (String.ofList value)
      else none

-- Takes the arguments into account one by one. Options and files may be mixed until `--`, behind which there
-- are only files; a single dash is a file too.
def Options.addArguments? (o : Options) : List String → Option Options
  | [] => some o
  | ["--max-steps"] => none
  | "--max-steps" :: value :: rest => (o.setMaxSteps? value).bind (·.addArguments? rest)
  | "--" :: rest => rest.foldlM Options.addFile? o
  | argument :: rest =>
    let added :=
      match argument.toList with
      | '-' :: '-' :: name => o.setLong? (String.ofList name)
      | '-' :: c :: flags => o.setShort? (c :: flags)
      | _ => o.addFile? argument
    added.bind (·.addArguments? rest)

def Options.parse? (arguments : List String) : Option Options :=
  match Options.addArguments? {} arguments with
  | some o => if o.files.isEmpty then none else some o
  | none => none

end PagedMachine
