import ContextFree.Unger.Search

/-!
# Command-line options

The command line names a grammar file and an input, and says how the input is to be parsed and what
is to be shown. An argument asks for one setting or, if it puts several letters together, for more.
Only more detail can be asked for repeatedly.
-/

namespace ContextFree

namespace Tool

/-- The parsing methods. -/
inductive Method where
  | cyk
  | unger (emptyParts : EmptyParts)
deriving DecidableEq

/-- The method that goes by a name. -/
def Method.ofName? : String → Option Method
  | "cyk" => some .cyk
  | "unger" => some (.unger .forbidden)
  | "unger-empty" => some (.unger .allowed)
  | _ => none

/-- How an input is parsed and what is shown. -/
structure Options where
  method : Method
  /-- The tokens of the input are separated by white space. If they are not, every character is a
  token. -/
  separated : Bool
  /-- The normal form of the grammar is shown. -/
  showCnf : Bool
  /-- The chart of the input is shown. -/
  showChart : Bool
  /-- How often more detail is asked for. -/
  verbosity : Nat
deriving DecidableEq

/-- What a command line asks for. -/
structure Command where
  options : Options
  /-- The name of the grammar file. -/
  path : String
  input : String
deriving DecidableEq

/-- One thing that a command line says. -/
inductive Setting where
  | verbose
  | separated
  | showCnf
  | showChart
  | method (method : Method)
  /-- An argument that is no option. -/
  | operand (text : String)
deriving DecidableEq

namespace Setting

def method? : Setting → Option Method
  | .method found => some found
  | _ => none

def operand? : Setting → Option String
  | .operand text => some text
  | _ => none

/-- The settings of an option that is written out in full, and whether the name of a method has to
follow. -/
def ofLong? (name : List Char) : Option (List Setting × Bool) :=
  match String.ofList (name.takeWhile (· != '=')), name.dropWhile (· != '=') with
  | "tokens", [] => some ([separated], false)
  | "cnf", [] => some ([showCnf], false)
  | "table", [] => some ([showChart], false)
  | "parser", [] => some ([], true)
  | "parser", _ :: value =>
    (Method.ofName? (String.ofList value)).map fun found => ([.method found], false)
  | _, _ => none

/-- The settings of options of one letter, and whether the name of a method has to follow. -/
def ofLetters? : List Char → Option (List Setting × Bool)
  | [] => some ([], false)
  | 'v' :: letters => (ofLetters? letters).map fun read => (verbose :: read.1, read.2)
  | 't' :: letters => (ofLetters? letters).map fun read => (separated :: read.1, read.2)
  | ['p'] => some ([], true)
  | 'p' :: value => (Method.ofName? (String.ofList value)).map fun found => ([.method found], false)
  | _ => none

/-- The settings of arguments. The name of a method may have to come first. Two hyphens end the
options. -/
def ofArgs? (awaitsMethod : Bool) : List String → Option (List Setting)
  | [] => if awaitsMethod then none else some []
  | arg :: args =>
    if awaitsMethod then do
      return .method (← Method.ofName? arg) :: (← ofArgs? false args)
    else match arg.toList with
      | ['-', '-'] => some (args.map .operand)
      | '-' :: '-' :: name => do
        let (settings, awaitsMethod) ← ofLong? name
        return settings ++ (← ofArgs? awaitsMethod args)
      | '-' :: letter :: letters => do
        let (settings, awaitsMethod) ← ofLetters? (letter :: letters)
        return settings ++ (← ofArgs? awaitsMethod args)
      | _ => return .operand arg :: (← ofArgs? false args)

end Setting

namespace Command

/-- The command that the settings make up, unless one is repeated that must not be. -/
def ofSettings? (settings : List Setting) : Option Command :=
  let methods := settings.filterMap Setting.method?
  if settings.count .separated ≤ 1 ∧ settings.count .showCnf ≤ 1 ∧ settings.count .showChart ≤ 1 ∧
      methods.length ≤ 1 then
    match settings.filterMap Setting.operand? with
    | [path, input] =>
      some ⟨⟨methods.headD .cyk, settings.contains .separated, settings.contains .showCnf,
        settings.contains .showChart, settings.count .verbose⟩, path, input⟩
    | _ => none
  else none

/-- The command that the arguments make up. -/
def ofArgs? (args : List String) : Option Command :=
  (Setting.ofArgs? false args).bind ofSettings?

end Command

end Tool

end ContextFree
