import Allotment.Command.Flags
import Allotment.Command.Folder
import Allotment.Config.Decoder
import Allotment.Expression
import Allotment.Report

namespace Allotment.Command

/-!
# The command

The command has two subcommands: `eval` evaluates a set expression, and `pools` reports on the pools
of a configuration file.

* `plan` — what some arguments ask for: either the command is finished, or a file is needed;
* `report` — finishes the command with what was found in the file.
-/

/-- What a finished command leaves: an exit code and what it printed. -/
structure Outcome where
  code : Nat
  stdout : String
  stderr : String

/-- What some arguments ask for. -/
inductive Plan where
  | finish (o : Outcome)
  | load (path : String) (withBlocks : Bool) (verbosity : Int64)

/-! ### Usage -/

/-- The help on the command as a whole. -/
def rootUsage : List String :=
  ["DESCRIPTION",
    "  Evaluate range sets and inspect range pools",
    "",
    "USAGE",
    "  rangesetctl [flags] <command> [command flags]",
    "",
    "SUBCOMMANDS",
    "  eval   Apply operations to an integer range set",
    "  pools  Load pools from a YAML file and print their claimed and free ranges",
    "",
    "FLAGS",
    "  -v 0  log verbosity"]

/-- The help on the evaluation of expressions. -/
def evalUsage : List String :=
  ["DESCRIPTION",
    "  Apply operations to an integer range set",
    "",
    "USAGE",
    "  rangesetctl eval [+RANGE | -RANGE | ~]...",
    "",
    "Operations are applied in order to an initially empty set:",
    "  +RANGE  add RANGE, e.g. +[1..3] or +10-20",
    "  -RANGE  remove RANGE, e.g. -(2..3]",
    "  ~       replace the set by its complement",
    "Put -- before the operations when the first one is a removal."]

/-- The help on the report on pools. -/
def poolsUsage : List String :=
  ["DESCRIPTION",
    "  Load pools from a YAML file and print their claimed and free ranges",
    "",
    "USAGE",
    "  rangesetctl pools -config FILE",
    "",
    "FLAGS",
    "  -config pools.yaml  pool configuration file",
    "  -prefixes=false     print the free ids of vlan and vxlan pools as prefixes"]

/-- Lines, each with its end. -/
def unlines (lines : List String) : String :=
  String.join (lines.map (· ++ "\n"))

/-- A command that ends with a help text; `code` says whether help was asked for. -/
def helped (code : Nat) (usage : List String) (before : List String) : Outcome :=
  ⟨code, "", unlines (before ++ usage ++ [""])⟩

/-- A command that ends because of its flags. -/
def stopped (usage : List String) (e : FlagError) : Outcome :=
  match e.message? with
  | none => helped 0 usage []
  | some message => helped 2 usage [message]

/-! ### Subcommands -/

/-- The flags of the command as a whole. -/
def rootFlags : List (String × FlagKind) :=
  [("v", .number)]

/-- The flags of the report on pools. -/
def poolsFlags : List (String × FlagKind) :=
  [("config", .text), ("prefixes", .switch)]

/-- Evaluates an expression. -/
def eval (args : List String) : Outcome :=
  match parseFlags [] [] args with
  | .error e => stopped evalUsage e
  | .ok (_, rest) =>
    match Expression.report (rest.map Text.ofString) with
    | .ok shown => ⟨0, shown, ""⟩
    | .error e => ⟨1, "", unlines [e.message]⟩

/-- Finds out which file to report on. -/
def pools (verbosity : Int64) (args : List String) : Plan :=
  match parseFlags poolsFlags [] args with
  | .error e => .finish (stopped poolsUsage e)
  | .ok (settings, _) =>
    .load (settings.text "config" "pools.yaml") (settings.switch "prefixes") verbosity

/-- What some arguments ask for.  The names of subcommands may be written in any letter case. -/
def plan (args : List String) : Plan :=
  match parseFlags rootFlags [] args with
  | .error e => .finish (stopped rootUsage e)
  | .ok (_, []) => .finish (helped 2 rootUsage [])
  | .ok (settings, name :: rest) =>
    if (Text.ofString name).matchesWord "eval" then .finish (eval rest)
    else if (Text.ofString name).matchesWord "pools" then pools (settings.number "v" 0) rest
    else .finish (helped 2 rootUsage [])

/-- Reports on the pools of a configuration.  The journal is printed from verbosity one on. -/
def reportOn (c : Config) (withBlocks : Bool) (verbosity : Int64) : Outcome :=
  let r := Report.ofConfig c withBlocks
  let journal := if 1 ≤ verbosity.toInt then r.journal else []
  match r.message? with
  | none => ⟨0, unlines r.output, unlines journal⟩
  | some message => ⟨1, unlines r.output, unlines (journal ++ [message])⟩

/-- Finishes a report with the content of the configuration file. -/
def report (path : String) (withBlocks : Bool) (verbosity : Int64)
    (content : Except LoadError String) : Outcome :=
  match content with
  | .error e => ⟨1, "", unlines [e.message path]⟩
  | .ok s =>
    match Config.parse s with
    | .error e => ⟨1, "", unlines ["config " ++ path ++ ": " ++ e.message]⟩
    | .ok c => reportOn c withBlocks verbosity

end Allotment.Command
