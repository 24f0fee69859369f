/-
LintHost/Command/Grammar.lean

Grammars of command lines, and reading by them.  A command has options, may have an
operand, and may have commands below it.  Words are read from left to right; the name
of a command below hands the remaining words over to it, and what is wrong there is
told before what is wrong above.  After a bare `--` every word is an operand.
An option's value stands behind an equals sign, or is the next word.  In the second
case, and for operands, it is looked at only when the next known argument or the end
is met, so that an unknown argument in between is told first.
-/
import LintHost.Command.Usage

namespace LintHost

/-- A check of a value: why it is refused, if it is. -/
abbrev Check := String → Option Usage

/-- What an option does. -/
inductive OptionKind where
  /-- It is there or not. -/
  | flag
  /-- It counts. -/
  | count
  /-- It takes a value, once or any number of times. -/
  | value (many : Bool) (check : Check)
  /-- It asks for help. -/
  | help
  /-- It asks for the version. -/
  | version

/-- An option, with its name and maybe a letter. -/
structure OptionRule where
  name : String
  letter : Option Char := none
  kind : OptionKind

/-- What the operands of a command are. -/
structure OperandRule where
  name : String
  /-- Whether there may be any number of them; otherwise there is one. -/
  many : Bool := false
  check : Check

/-- The grammar of a command. -/
inductive Grammar where
  | mk (options : List OptionRule) (operand : Option OperandRule)
      (commands : List (String × Grammar))

namespace Grammar

/-- The options of a command. -/
def options : Grammar → List OptionRule
  | mk options _ _ => options

/-- The operand of a command. -/
def operand : Grammar → Option OperandRule
  | mk _ operand _ => operand

/-- The commands below a command, without the one that shows help. -/
def commands : Grammar → List (String × Grammar)
  | mk _ _ commands => commands

/-- The command that shows help, which is there wherever there are commands. -/
def helpName : String := "help"

/-- A command without any arguments. -/
def bare : Grammar := .mk [] none []

/-- The command below with a given name. -/
def find? (g : Grammar) (name : String) : Option Grammar :=
  if g.commands.isEmpty then none
  else if name = helpName then some bare
  else g.commands.lookup name

/-- What comes of asking for help on the command with the given path. -/
def helpOn (g : Grammar) : List String → Usage
  | [] => .help
  | name :: path =>
    match g.find? name with
    | none => .unknownCommand
    | some below => helpOn below path

/-! ### Arguments read so far -/

/-- The arguments of one command with their values, in order. -/
abbrev Arguments := List (String × String)

/-- The values of an argument. -/
def valuesOf (seen : Arguments) (name : String) : List String :=
  (seen.filter fun a => a.1 = name).map (·.2)

/-- Whether an argument was given. -/
def isGiven (seen : Arguments) (name : String) : Bool :=
  seen.any fun a => a.1 = name

/-- What has to be known of an argument to look at its values. -/
structure Taker where
  name : String
  isOption : Bool
  many : Bool
  check : Check

/-- Where reading stands. -/
structure State where
  /-- The arguments whose values have been looked at. -/
  seen : Arguments := []
  /-- An argument whose values have not been looked at. -/
  pending : Option (Taker × List String) := none
  /-- Whether the next word is the value of an option. -/
  awaiting : Bool := false
  /-- Whether all further words are operands. -/
  trailing : Bool := false
  /-- The number of operands. -/
  operands : Nat := 0

/-- Adds an argument with its values, each of which has to pass its check. -/
def store (seen : Arguments) (t : Taker) (values : List String) : Except Usage Arguments :=
  if t.isOption ∧ values = [] then .error .invalidValue
  else if t.isOption ∧ !t.many ∧ isGiven seen t.name then .error .repeated
  else
    match values.findSome? t.check with
    | some usage => .error usage
    | none => .ok (seen ++ values.map fun v => (t.name, v))

/-- Looks at the values that have not been looked at. -/
def settle (st : State) : Except Usage State :=
  match st.pending with
  | none => .ok st
  | some (t, values) => do
    return { st with seen := ← store st.seen t values, pending := none, awaiting := false }

/-- Adds an option without value. -/
def mark (st : State) (name : String) (once : Bool) : Except Usage State := do
  let st ← settle st
  if once ∧ isGiven st.seen name then throw .repeated
  return { st with seen := st.seen ++ [(name, "")] }

/-! ### Words -/

/-- An option by name, with the value behind its equals sign. -/
def readLong (g : Grammar) (st : State) (name : String) (value : Option String) :
    Except Usage State :=
  match g.options.find? (fun o => o.name = name) with
  | none => .error .unknownArgument
  | some o =>
    match o.kind, value with
    | .value many check, some v => do
      let st ← settle st
      return { st with seen := ← store st.seen ⟨name, true, many, check⟩ [v] }
    | .value many check, none => do
      let st ← settle st
      return { st with pending := some (⟨name, true, many, check⟩, []), awaiting := true }
    | _, some _ => .error .surplusValue
    | .flag, none => mark st name true
    | .count, none => mark st name false
    | .help, none => do let _ ← settle st; throw .help
    | .version, none => do let _ ← settle st; throw .version

/-- Options by letter. -/
def readLetters (g : Grammar) (st : State) : List Char → Except Usage State
  | [] => .ok st
  | c :: cs =>
    match g.options.find? (fun o => o.letter = some c) with
    | none => .error .unknownArgument
    | some o => do readLetters g (← readLong g st o.name none) cs

/-- What is wrong with a word where a command takes no operand.  Behind a bare `--` the name of
a command below counts as an argument; any other word is taken for the name of one. -/
def surplus (g : Grammar) (word : String) : Usage :=
  if g.commands.isEmpty || (g.find? word).isSome then .unknownArgument else .unknownCommand

/-- An operand. -/
def readOperand (g : Grammar) (st : State) (word : String) : Except Usage State :=
  match g.operand with
  | none => .error (g.surplus word)
  | some o =>
    if !o.many ∧ 0 < st.operands then .error .unknownArgument
    else
      let taker : Taker := ⟨o.name, false, o.many, o.check⟩
      match st.pending with
      | some (t, values) =>
        if t.isOption = false then
          .ok { st with pending := some (taker, values ++ [word]), operands := st.operands + 1 }
        else do
          let st ← settle st
          return { st with pending := some (taker, [word]), operands := st.operands + 1 }
      | none => .ok { st with pending := some (taker, [word]), operands := st.operands + 1 }

/-- A word that names no command. -/
def readWord (g : Grammar) (st : State) (word : String) : Except Usage State :=
  if st.trailing then readOperand g st word
  else
    match word.toList with
    | ['-', '-'] => .ok { st with trailing := true }
    | '-' :: '-' :: rest =>
      match Text.splitFirst? '=' rest with
      | some (name, value) =>
        readLong g st (String.ofList name) (some (String.ofList value))
      | none => readLong g st (String.ofList rest) none
    | '-' :: c :: cs => readLetters g st (c :: cs)
    | _ =>
      match st.awaiting, st.pending with
      | true, some (t, values) =>
        .ok { st with pending := some (t, values ++ [word]), awaiting := false }
      | _, _ => readOperand g st word

/-- What has been given to a command without one below it, once all words are read. -/
def conclude (g : Grammar) (st : State) : Except Usage Arguments := do
  let st ← settle st
  if !g.commands.isEmpty then
    throw (if st.seen.isEmpty then .nothing else .missingCommand)
  match g.operand with
  | some o => if !o.many ∧ st.operands = 0 then throw .missingOperand else return st.seen
  | none => return st.seen

/-- The arguments given to a command, and those given to the commands below it, by name. -/
def readFrom (g : Grammar) (st : State) :
    List String → Except Usage (Arguments × List (String × Arguments))
  | [] => do return (← conclude g st, [])
  | word :: words =>
    let below := if st.trailing || st.awaiting then none else g.find? word
    match below with
    | some child =>
      if word = helpName then .error (helpOn g words)
      else do
        let (arguments, further) ← readFrom child {} words
        return ((← settle st).seen, (word, arguments) :: further)
    | none => do readFrom g (← readWord g st word) words

/-- Reads a command line. -/
def read (g : Grammar) (words : List String) :
    Except Usage (Arguments × List (String × Arguments)) :=
  readFrom g {} words

end Grammar

end LintHost
