/-
The options of the command line.

An option is named by a letter behind one dash or by a word behind two.  A rule
takes two values and may be repeated; all other options take one value and stand
at most once.  The value of such an option is the next argument, unless it
begins with a dash and another character, or the rest of the argument itself,
an equals sign in front of it dropped.  There are no other arguments.

* `Options.parse` — the options of a list of arguments, or why there are none.
-/

namespace Transduction.CommandLine

/-- What the command line asks for. -/
structure Options where
  /-- Pairs of a literal and its replacement. -/
  rules : List (String × String) := []
  alphabet : Option String := none
  policy : Option String := none
  input : Option String := none
  save : Option String := none
  load : Option String := none
  drawing : Option String := none
deriving DecidableEq, Repr

/-- Why the arguments give no options. -/
inductive Refusal where
  | help
  | version
  | invalid
deriving DecidableEq, Repr

/-- The options by meaning. -/
inductive Switch where
  | rule
  | alphabet
  | policy
  | input
  | save
  | load
  | drawing
  | help
  | version
deriving DecidableEq, Repr

namespace Switch

def ofLetter? : Char → Option Switch
  | 'r' => some rule
  | 'a' => some alphabet
  | 'p' => some policy
  | 'i' => some input
  | 's' => some save
  | 'l' => some load
  | 'd' => some drawing
  | 'h' => some help
  | 'V' => some version
  | _ => none

def ofName? (name : List Char) : Option Switch :=
  [("rule", rule), ("alphabet", alphabet), ("policy", policy), ("input", input),
    ("save-bimachine", save), ("load-bimachine", load), ("save-dot", drawing), ("help", help),
    ("version", version)].findSome? fun (word, switch) =>
      if word.toList = name then some switch else none

end Switch

namespace Options

/-- Whether an argument may be the value of the option in front of it. -/
def isValue (arg : String) : Bool :=
  match arg.toList with
  | '-' :: _ :: _ => false
  | _ => true

/-- The field of a first value; a second one is refused. -/
def fill (old : Option String) (value : String) : Except Refusal (Option String) :=
  if old.isSome then .error .invalid else .ok (some value)

/-- The options with the value of one option entered.  A rule needs two values
and is not entered here, and the name of an input file must not be empty. -/
def enter (o : Options) (switch : Switch) (value : String) : Except Refusal Options := do
  match switch with
  | .alphabet => return { o with alphabet := ← fill o.alphabet value }
  | .policy => return { o with policy := ← fill o.policy value }
  | .input =>
    if value.isEmpty then throw .invalid
    return { o with input := ← fill o.input value }
  | .save => return { o with save := ← fill o.save value }
  | .load => return { o with load := ← fill o.load value }
  | .drawing => return { o with drawing := ← fill o.drawing value }
  | .help => throw .help
  | .version => throw .version
  | .rule => throw .invalid

/-- An argument as an option: what it means, and the value it carries itself. -/
inductive Argument where
  | option (switch : Switch) (value : Option String)
  /-- Two dashes, behind which no options follow. -/
  | last
  | other

/-- The value behind an option letter in the same argument. -/
def attached : List Char → Option String
  | [] => none
  | '=' :: value => some (String.ofList value)
  | value => some (String.ofList value)

/-- Reads an argument as an option. -/
def Argument.ofString (arg : String) : Argument :=
  match arg.toList with
  | ['-', '-'] => .last
  | '-' :: '-' :: text =>
    let name := text.takeWhile (· ≠ '=')
    match Switch.ofName? name with
    | none => .other
    | some switch =>
      match text.drop name.length with
      | [] => .option switch none
      | _ :: value => .option switch (some (String.ofList value))
  | '-' :: c :: text =>
    match Switch.ofLetter? c with
    | none => .other
    -- help and version take no value, so what follows the letter is not looked at
    | some .help => .option .help none
    | some .version => .option .version none
    | some switch => .option switch (attached text)
  | _ => .other

/-- Reads the arguments into the options. -/
def parseFrom (o : Options) : List String → Except Refusal Options
  | [] => .ok o
  | arg :: args =>
    match Argument.ofString arg with
    | .other => .error .invalid
    | .last => if args.isEmpty then .ok o else .error .invalid
    | .option .help value => .error (if value.isSome then .invalid else .help)
    | .option .version value => .error (if value.isSome then .invalid else .version)
    | .option switch (some value) => do parseFrom (← o.enter switch value) args
    | .option .rule none =>
      match args with
      | source :: target :: rest =>
        if isValue source && isValue target then
          parseFrom { o with rules := o.rules ++ [(source, target)] } rest
        else .error .invalid
      | _ => .error .invalid
    | .option switch none =>
      match args with
      | value :: rest =>
        if isValue value then do parseFrom (← o.enter switch value) rest
        else .error .invalid
      | [] => .error .invalid

/-- The options of a list of arguments.  Rules and a saved bimachine exclude
each other. -/
def parse (args : List String) : Except Refusal Options := do
  let o ← parseFrom {} args
  if o.load.isSome && !o.rules.isEmpty then throw .invalid
  return o

end Options

end Transduction.CommandLine
