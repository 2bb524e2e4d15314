import MapAlgebra.Text.Quoted
import MapAlgebra.Text.Whole

/-! Flags on a command line. A flag is written out behind two dashes or as a letter behind one;
its value follows, in the same word or in the next one. Words that are no flags may stand
anywhere.
-/

namespace MapAlgebra.Command

inductive FlagKind where
  /-- A text each time the flag is given. -/
  | texts
  | text
  | whole
  /-- Yes or no; yes if no value is given. -/
  | switch
  /-- How often the flag is given. -/
  | count
deriving DecidableEq

namespace FlagKind

def implied? : FlagKind → Option String
  | switch => some "true"
  | count => some "+1"
  | _ => none

def placeholder : FlagKind → String
  | texts => "stringArray"
  | text => "string"
  | whole => "int"
  | switch => ""
  | count => "count"

def switchWords : List String :=
  ["1", "t", "T", "TRUE", "true", "True", "0", "f", "F", "FALSE", "false", "False"]

def fault? (kind : FlagKind) (value : String) : Option String :=
  let whole : Option String :=
    match Whole.parse value.toList with
    | .ok _ => none
    | .error fault => some s!"strconv.ParseInt: parsing {Text.quote value}: {fault.message}"
  match kind with
  | FlagKind.texts | text => none
  | FlagKind.whole => whole
  | switch =>
    if switchWords.contains value then none
    else some s!"strconv.ParseBool: parsing {Text.quote value}: invalid syntax"
  | count => if value = "+1" then none else whole

end FlagKind

structure Flag where
  name : String
  letter : Option Char
  kind : FlagKind
  usage : String
deriving DecidableEq

inductive FlagError where
  | badForm (word : String)
  | unknown (name : String)
  | unknownLetter (letter : Char) (letters : List Char)
  | noValue (word : String)
  | noLetterValue (letter : Char) (letters : List Char)
  | badValue (flag : Flag) (value fault : String)
deriving DecidableEq

def FlagError.message : FlagError → String
  | badForm word => s!"bad flag syntax: {word}"
  | unknown name => s!"unknown flag: --{name}"
  | unknownLetter letter letters =>
    s!"unknown shorthand flag: {Text.quoteChar letter} in -{String.ofList letters}"
  | noValue word => s!"flag needs an argument: {word}"
  | noLetterValue letter letters =>
    s!"flag needs an argument: {Text.quoteChar letter} in -{String.ofList letters}"
  | badValue flag value fault =>
    let letter := (flag.letter.map fun c => s!"-{c}, ").getD ""
    let spelled := Text.quote (letter ++ "--" ++ flag.name)
    s!"invalid argument {Text.quote value} for {spelled} flag: {fault}"

abbrev Setting := String × String

def Flag.set (flag : Flag) (value : String) : Except FlagError Setting :=
  match flag.kind.fault? value with
  | none => .ok (flag.name, value)
  | some fault => .error (.badValue flag value fault)

def readLetters (flags : List Flag) (next : Option String)
    : List Char → Except FlagError (List Setting × Bool)
  | [] => .ok ([], false)
  | letter :: more => do
    match flags.find? (·.letter == some letter) with
    | none => throw (.unknownLetter letter (letter :: more))
    | some flag =>
      match more, flag.kind.implied? with
      | '=' :: c :: value, _ => return ([← flag.set (String.ofList (c :: value))], false)
      | _, some value =>
        let setting ← flag.set value
        let (settings, taken) ← readLetters flags next more
        return (setting :: settings, taken)
      | c :: value, none => return ([← flag.set (String.ofList (c :: value))], false)
      | [], none =>
        match next with
        | some value => return ([← flag.set value], true)
        | none => throw (.noLetterValue letter (letter :: more))

def readName (flags : List Flag) (next : Option String) (word : String)
    : Except FlagError (Setting × Bool) := do
  let text := word.toList.drop 2
  let name := text.takeWhile (· != '=')
  if name.isEmpty || name.head? == some '-' then throw (.badForm word)
  match flags.find? (·.name == String.ofList name) with
  | none => throw (.unknown (String.ofList name))
  | some flag =>
    match text.drop name.length, flag.kind.implied?, next with
    | _ :: value, _, _ => return (← flag.set (String.ofList value), false)
    | [], some value, _ => return (← flag.set value, false)
    | [], none, some value => return (← flag.set value, true)
    | [], none, none => throw (.noValue word)

structure Arguments where
  settings : List Setting := []
  words : List String := []
deriving DecidableEq

namespace Arguments

/-- Reads a command line. Behind two dashes that stand alone there are no flags. -/
def read (flags : List Flag) : List String → Except FlagError Arguments
  | [] => .ok {}
  | word :: rest => do
    let rememberAfter (settings : List Setting) (taken : Bool) : Except FlagError Arguments := do
      let more ← read flags (if taken then rest.drop 1 else rest)
      return { more with settings := settings ++ more.settings }
    match word.toList with
    | ['-', '-'] => return { words := rest }
    | '-' :: '-' :: _ =>
      let (setting, taken) ← readName flags rest.head? word
      rememberAfter [setting] taken
    | '-' :: letter :: more =>
      let (settings, taken) ← readLetters flags rest.head? (letter :: more)
      rememberAfter settings taken
    | _ =>
      let more ← read flags rest
      return { more with words := word :: more.words }
termination_by words => words.length
decreasing_by
  · split
    · simp only [List.length_drop, List.length_cons]
      omega
    · simp only [List.length_cons]
      omega
  · simp only [List.length_cons]
    omega

def all (a : Arguments) (name : String) : List String :=
  (a.settings.filter (·.1 == name)).map (·.2)

def last? (a : Arguments) (name : String) : Option String := (a.all name).getLast?

def whole (a : Arguments) (name : String) : Int :=
  ((a.last? name).bind fun value => (Whole.parse value.toList).toOption).getD 0

def isOn (a : Arguments) (name : String) : Bool :=
  match a.last? name with
  | some value => (FlagKind.switchWords.take 6).contains value
  | none => false

end Arguments

def takesNext (flags : List Flag) (word : String) : Bool :=
  let implies (p : Flag → Bool) : Bool := flags.any fun f => p f && f.kind.implied?.isSome
  match word.toList with
  | '-' :: '-' :: name => !name.contains '=' && !implies (·.name == String.ofList name)
  | ['-', letter] => letter != '=' && !implies (·.letter == some letter)
  | _ => false

/-- The first word that is neither a flag nor the value of one. A flag that has no word behind
its value is the last thing that is looked at.
-/
def firstWord? (flags : List Flag) : List String → Option String
  | [] => none
  | [word] => if word = "" || word.toList.head? == some '-' then none else some word
  | word :: next :: rest =>
    if word = "--" then none
    else if takesNext flags word then if rest.isEmpty then none else firstWord? flags rest
    else if word = "" || word.toList.head? == some '-' then firstWord? flags (next :: rest)
    else some word

/-- Leaves out the first word that is the given one and neither a flag nor the value of one. -/
def dropWord (flags : List Flag) (word : String) : List String → List String
  | [] => []
  | [w] => if w = word then [] else [w]
  | w :: next :: rest =>
    if w = "--" then w :: next :: rest
    else if takesNext flags w then w :: next :: dropWord flags word rest
    else if w = word && w.toList.head? != some '-' then next :: rest
    else w :: dropWord flags word (next :: rest)

end MapAlgebra.Command
