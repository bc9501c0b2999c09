import WordAutomata.Write.Script

namespace WordAutomata.Tool

structure CompileOptions where
  input : String
  output : String
  format : Format
  numbers : Bool
  /-- The input is taken as it is and has to be sorted and free of duplicates. -/
  presorted : Bool
  filler : Option Char
  annotation : Option Char
deriving DecidableEq

inductive Command
  | compile (options : CompileOptions)
  | dump (path : String)
  | info (path : String) (json : Bool)
  | dot (path : String)
  | help
  | version
deriving DecidableEq

/-- What the arguments of a command are made of. -/
structure Grammar where
  /-- How many names there may be at most. -/
  names : Nat
  /-- Options without a value, by their long names. -/
  switches : List String := []
  /-- Options with a value, by their long names. -/
  valued : List String := []
  /-- Long names of options that have a short one. -/
  short : List (Char × String) := []

structure Parsed where
  names : List String := []
  switches : List String := []
  /-- Options with their values; one that was given no value has none. -/
  values : List (String × Option String) := []

inductive Parsing
  | parsed (p : Parsed)
  | help
  | version
  | wrong

/-- An argument that cannot be the value of an option before it, nor a name. -/
def looksLikeOption (arg : String) : Bool := arg.startsWith "-" && arg.length ≠ 1

def dropLeading (c : Char) (s : List Char) : List Char := s.dropWhile (· == c)

/-- An option that waits for its value takes the next argument, unless that is an option itself. -/
def Parsed.addValue (p : Parsed) (option : String) : List String → Parsed × List String
  | [] => ({ p with values := (option, none) :: p.values }, [])
  | arg :: rest =>
    if looksLikeOption arg then ({ p with values := (option, none) :: p.values }, arg :: rest)
    else ({ p with values := (option, some arg) :: p.values }, rest)

theorem length_addValue_le (p : Parsed) (option : String) (args : List String) :
    (p.addValue option args).2.length ≤ args.length := by
  cases args with
  | nil => simp [Parsed.addValue]
  | cons arg rest => simp only [Parsed.addValue]; split <;> simp

/-- What one argument that begins with a dash means. -/
inductive OptionMeaning
  | switch (name : String)
  | value (name value : String)
  /-- The value is the next argument. -/
  | waiting (name : String)
  | help
  | version
  | unknown

/-- The meaning of `--name` and `--name=value`. -/
def Grammar.long (g : Grammar) (arg : String) : OptionMeaning :=
  let body := dropLeading '-' arg.toList
  let name := String.ofList (body.takeWhile (· ≠ '='))
  if name = "help" then .help
  else if name = "version" then .version
  else if g.switches.contains name then .switch name
  else if g.valued.contains name then
    match body.dropWhile (· ≠ '=') with
    | [] => .waiting name
    | value => .value name (String.ofList (dropLeading '=' value))
  else .unknown

/-- The meaning of `-c`, `-cvalue` and `-c=value`. -/
def Grammar.short? (g : Grammar) (arg : String) : OptionMeaning :=
  match arg.toList.drop 1 with
  | [] => .unknown
  | c :: value =>
    if c = 'h' then .help
    else if c = 'V' then .version
    else match g.short.lookup c with
      | none => .unknown
      | some name =>
        match value with
        | [] => .waiting name
        | _ => .value name (String.ofList (dropLeading '=' value))

def Grammar.meaning (g : Grammar) (arg : String) : OptionMeaning :=
  if arg.startsWith "--" then g.long arg else g.short? arg

/-- Reads arguments in order, up to the first that is wrong or asks for help. Behind `--` everything is a name. -/
def Grammar.parse (g : Grammar) (p : Parsed) : List String → Parsing
  | [] => .parsed p
  | arg :: rest =>
    if arg = "--" then
      if g.names < p.names.length + rest.length then .wrong else .parsed { p with names := p.names ++ rest }
    else if looksLikeOption arg then
      match g.meaning arg with
      | .switch name => g.parse { p with switches := name :: p.switches } rest
      | .value name value => g.parse { p with values := (name, some value) :: p.values } rest
      | .waiting name =>
        have := length_addValue_le p name rest
        g.parse (p.addValue name rest).1 (p.addValue name rest).2
      | .help => .help
      | .version => .version
      | .unknown => .wrong
    else if g.names ≤ p.names.length then .wrong
    else g.parse { p with names := p.names ++ [arg] } rest
termination_by args => args.length
decreasing_by all_goals (simp only [List.length_cons]; omega)

def Parsed.distinct (p : Parsed) : Bool :=
  decide p.switches.Nodup && decide (p.values.map Prod.fst).Nodup

/-- The format with a name in any case. -/
def format? (name : String) : Option Format :=
  match name.toLower with
  | "fsa5" => some .uniform
  | "cfsa2" => some .compact
  | _ => none

def char? (value : String) : Option Char :=
  match value.toList with
  | [c] => some c
  | _ => none

/-- The value of an option that may be missing, but not be wrong. -/
def Parsed.char? (p : Parsed) (option : String) : Option (Option Char) :=
  match p.values.lookup option with
  | none => some none
  | some none => none
  | some (some value) => (Tool.char? value).map some

def compileGrammar : Grammar where
  names := 2
  switches := ["numbers", "presorted"]
  valued := ["format", "filler", "annotation"]
  short := [('f', "format")]

/-- Options of `compile`. A format without a value is the default. -/
def compileOptions? (p : Parsed) : Option CompileOptions := do
  let [input, output] := p.names | none
  let format ← format? ((p.values.lookup "format").join.getD "cfsa2")
  return {
    input, output, format
    numbers := p.switches.contains "numbers"
    presorted := p.switches.contains "presorted"
    filler := ← p.char? "filler"
    annotation := ← p.char? "annotation" }

def name? (p : Parsed) : Option String :=
  match p.names with
  | [name] => some name
  | _ => none

def finish (g : Grammar) (args : List String) (command? : Parsed → Option Command) : Option Command :=
  match g.parse {} args with
  | .parsed p => if p.distinct then command? p else none
  | .help => some .help
  | .version => some .version
  | .wrong => none

def subcommand? (args : List String) : String → Option Command
  | "compile" => finish compileGrammar args fun p => Command.compile <$> compileOptions? p
  | "dump" => finish { names := 1 } args fun p => Command.dump <$> name? p
  | "info" => finish { names := 1, switches := ["json"] } args fun p =>
    (Command.info · (p.switches.contains "json")) <$> name? p
  | "dot" => finish { names := 1 } args fun p => Command.dot <$> name? p
  | _ => none

def topics : List String := ["compile", "dump", "info", "dot", "help"]

def command? : List String → Option Command
  | [] => none
  | ["help"] => some .help
  | ["help", topic] => if topics.contains topic then some .help else none
  | arg :: args =>
    if looksLikeOption arg then
      match Grammar.meaning { names := 0 } arg with
      | .help => some .help
      | .version => some .version
      | _ => none
    else subcommand? args arg

end WordAutomata.Tool
