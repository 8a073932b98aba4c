import ScriptKit.Arena.Basic
import ScriptKit.Grammar.Reading
import Std.Data.HashMap

namespace ScriptKit.Grammar

/-- What the table holds for a rule at a position: that it does not match, or the node it made
and the position after it. -/
inductive Entry
  | failed
  | matched (next : Nat) (node : NodeId)

/-- The table of the attempts made so far, by rule and position. -/
abbrev Table := Std.HashMap (Rule × Nat) Entry

/-- The rules that alternatives ask for again at the same position. -/
def Rule.isTabled : Rule → Bool
  | expression | suffixed | function | classLiteral => true
  | _ => false

/-- How an attempt to build a production ends. -/
inductive Result
  | matched (next : Nat)
  | failed
  | exhausted

/-- A parse under way: all nodes made so far, those of abandoned alternatives among them, the
table, and the furthest token that was looked at. -/
structure Builder where
  arena : Arena
  table : Table
  furthest : Nat

namespace Builder

def start (file : String) : Builder := ⟨.empty file, ∅, 0⟩

/-- The id of the next node that is added. -/
def next (b : Builder) : NodeId := b.arena.size

def add (b : Builder) (kind : Tree.Kind) (text : String) (line : Nat) : Builder :=
  { b with arena := b.arena.add kind text line }

def append (b : Builder) (parent child : NodeId) : Builder :=
  { b with arena := b.arena.append parent child }

def moveChildren (b : Builder) (source target : NodeId) : Builder :=
  { b with arena := b.arena.moveChildren source target }

def lookAt (b : Builder) (place : Nat) : Builder :=
  { b with furthest := max b.furthest place }

def lookup? (b : Builder) (r : Rule) (pos : Nat) : Option Entry := b.table[(r, pos)]?

def record (b : Builder) (r : Rule) (pos : Nat) (e : Entry) : Builder :=
  { b with table := b.table.insert (r, pos) e }

end Builder

/-- Builds below the node `target` and says how that ends. -/
abbrev Build := NodeId → Nat → Builder → Result × Builder

def buildToken (tokens : Array Token) (kind : Token.Kind) (text : Option String) : Build :=
  fun target pos b =>
    match tokenAt? tokens pos with
    | none => (.failed, b)
    | some t =>
      let place := skip tokens pos
      let b := b.lookAt place
      if accepts kind text t then
        (.matched (place + 1),
          (b.add (terminalKind t.kind) (terminalText t) t.line).append target b.next)
      else (.failed, b)

/-- Builds below a new temporary node, and moves what was built to the target if all matched. -/
@[specialize]
def buildApart (tokens : Array Token) (run : Build) : Build := fun target pos b =>
  match run b.next pos (b.add .temporary "" (lineAt tokens pos)) with
  | (.matched next, done) => (.matched next, done.moveChildren b.next target)
  | other => other

/-- Repeats a step while it matches and moves on. -/
@[specialize]
def buildMany (step : Build) : Nat → Build
  | 0, _, _, b => (.exhausted, b)
  | fuel + 1, target, pos, b =>
    match step target pos b with
    | (.matched next, b) =>
      if next = pos then (.matched pos, b) else buildMany step fuel target next b
    | (.failed, b) => (.matched pos, b)
    | (.exhausted, b) => (.exhausted, b)

/-- Wraps a node into one more expression for every suffix that matches, and appends the last one
to the target. The parts of a suffix are built below a temporary node first. -/
@[specialize]
def buildSuffixes (tokens : Array Token) (step : Build) : Nat → NodeId → Build
  | 0, _, _, _, b => (.exhausted, b)
  | fuel + 1, node, target, pos, b =>
    match step b.next pos (b.add .temporary "" (lineAt tokens pos)) with
    | (.matched next, done) =>
      let wrapped := done.next
      let done := (done.add .expression "" (done.arena.line node)).append wrapped node
      buildSuffixes tokens step fuel wrapped target next (done.moveChildren b.next wrapped)
    | (.failed, done) => (.matched pos, done.append target node)
    | (.exhausted, done) => (.exhausted, done)

mutual

/-- Builds a production below a node, where `rule` builds the rules it refers to. -/
@[specialize]
def buildProduction (tokens : Array Token) (rule : Rule → Build) : Production → Build
  | .token kind text, target, pos, b => buildToken tokens kind text target pos b
  | .rule r, target, pos, b => rule r target pos b
  | .node kind alternatives, target, pos, b =>
    match buildChoice tokens rule alternatives b.next pos
        (b.add kind "" (lineAt tokens pos)) with
    | (.matched next, done) => (.matched next, done.append target b.next)
    | other => other
  | .choice alternatives, target, pos, b => buildChoice tokens rule alternatives target pos b
  | .many parts, target, pos, b =>
    buildMany (buildApart tokens fun target pos b => buildParts tokens rule parts target pos b)
      (tokens.size + 1) target pos b
  | .optional p, target, pos, b =>
    match buildProduction tokens rule p target pos b with
    | (.failed, done) => (.matched pos, done)
    | other => other
  | .chain head suffix, target, pos, b =>
    match buildProduction tokens rule head b.next pos
        (b.add .temporary "" (lineAt tokens pos)) with
    | (.matched next, done) =>
      match done.arena.child? b.next 0 with
      | some node =>
        buildSuffixes tokens
          (fun target pos b => buildProduction tokens rule suffix target pos b)
          (tokens.size + 1) node target next done
      | none => (.failed, done)
    | other => other

/-- Builds the parts of an alternative one after the other. -/
@[specialize]
def buildParts (tokens : Array Token) (rule : Rule → Build) : List Production → Build
  | [], _, pos, b => (.matched pos, b)
  | p :: parts, target, pos, b =>
    match buildProduction tokens rule p target pos b with
    | (.matched next, b) => buildParts tokens rule parts target next b
    | other => other

/-- Builds the first alternative that matches. The others leave nothing below the target. -/
@[specialize]
def buildChoice (tokens : Array Token) (rule : Rule → Build) : List (List Production) → Build
  | [], _, _, b => (.failed, b)
  | parts :: alternatives, target, pos, b =>
    match buildApart tokens (fun target pos b => buildParts tokens rule parts target pos b)
        target pos b with
    | (.failed, b) => buildChoice tokens rule alternatives target pos b
    | other => other

end

/-- Builds a tabled rule that the table does not hold yet below a temporary node, and records the
node it makes. -/
@[specialize]
def buildRecorded (tokens : Array Token) (r : Rule) (run : Build) : Build := fun target pos b =>
  match run b.next pos (b.add .temporary "" (lineAt tokens pos)) with
  | (.matched next, done) =>
    match done.arena.child? b.next 0 with
    | some node => (.matched next, (done.record r pos (.matched next node)).append target node)
    | none => (.failed, done)
  | (.failed, done) => (.failed, done.record r pos .failed)
  | (.exhausted, done) => (.exhausted, done)

/-- Builds a rule. A tabled rule is built at most once at each position: the node that the table
holds for it is taken from wherever it is and appended to the target. -/
def buildRule (tokens : Array Token) : Nat → Rule → Build
  | 0, _, _, _, b => (.exhausted, b)
  | fuel + 1, r, target, pos, b =>
    let run := buildProduction tokens (buildRule tokens fuel) (production r)
    if r.isTabled then
      match b.lookup? r pos with
      | some .failed => (.failed, b)
      | some (.matched next node) => (.matched next, b.append target node)
      | none => buildRecorded tokens r run target pos b
    else run target pos b

end ScriptKit.Grammar
