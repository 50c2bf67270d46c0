import InbandTrace.Options.Basic
/-!
Arguments of the command line, taken from left to right. The value of an option that is given as the
next argument is read when the following option comes, or at the end; what is no option is refused
first.
-/

namespace InbandTrace.Options

inductive Pending where
  | nothing
  /-- The value may be the next argument. -/
  | wanting (setting : Setting)
  | holding (setting : Setting) (value : List Char)
  deriving DecidableEq, Repr

structure Progress where
  options : Options := {}
  given : List Setting := []
  pending : Pending := .nothing
  ended : Bool := false

namespace Progress

def read (p : Progress) (s : Setting) (value : List Char) : Except Error Progress :=
  if s ∈ p.given then .error (.repeated s)
  else match p.options.assign s value with
    | .ok options => .ok { p with options := options, given := s :: p.given }
    | .error e => .error e

def resolve (p : Progress) : Except Error Progress :=
  match p.pending with
  | .nothing => .ok p
  | .wanting s => .error (.missing s)
  | .holding s value => { p with pending := .nothing }.read s value

def start (p : Progress) (s : Setting) (value : Option (List Char)) : Except Error Progress :=
  match p.resolve with
  | .error e => .error e
  | .ok p =>
      match value with
      | some value => p.read s value
      | none => .ok { p with pending := .wanting s }

/-- The help or the version, once what is pending has been read. -/
def tell (p : Progress) (e : Error) : Except Error Progress :=
  match p.resolve with
  | .error e => .error e
  | .ok _ => .error e

def nameAndValue (s : List Char) : List Char × Option (List Char) :=
  let value := s.dropWhile (· != '=')
  (s.takeWhile (· != '='), if value = [] then none else some (value.drop 1))

def long (p : Progress) (s : List Char) : Except Error Progress :=
  let (name, value) := nameAndValue s
  match Setting.all.find? fun s => s.name.toList == name with
  | some setting => p.start setting value
  | none =>
      if name = "help".toList then
        match value with
        | some v => .error (.surplus "--help" v)
        | none => p.tell .help
      else if name = "version".toList then
        match value with
        | some v => .error (.surplus "--version" v)
        | none => p.tell .version
      else .error (.unknown ("--".toList ++ name))

def attached? : List Char → Option (List Char)
  | [] => none
  | '=' :: value => some value
  | value => some value

def short (p : Progress) (c : Char) (rest : List Char) : Except Error Progress :=
  match Setting.all.find? fun s => s.short? == some c with
  | some setting => p.start setting (attached? rest)
  | none =>
      if c = 'h' then p.tell .help
      else if c = 'V' then p.tell .version
      else .error (.unknown ['-', c])

def plain (p : Progress) (s : List Char) : Except Error Progress :=
  match p.pending with
  | .wanting setting => .ok { p with pending := .holding setting s }
  | _ => .error (.unknown s)

def take (p : Progress) (s : List Char) : Except Error Progress :=
  if p.ended then .error (.unknown s)
  else match s with
    | ['-', '-'] => .ok { p with ended := true }
    | '-' :: '-' :: rest => p.long rest
    | '-' :: c :: rest => p.short c rest
    | _ => p.plain s

end Progress

def ofArguments (arguments : List (List Char)) : Except Error Options := do
  let p ← arguments.foldlM Progress.take {}
  return (← p.resolve).options

end InbandTrace.Options
