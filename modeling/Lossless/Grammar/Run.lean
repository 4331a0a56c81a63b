import Lossless.Grammar.Rules
import Lossless.Node
import Lossless.Stream

/-!
# Running the grammar

One interpreter runs all rules. It collects nodes, the newest first, moves along the stream of
terminals and keeps a log of what is reported. Rules may call each other without end only as far as
they take terminals in between, so a bound on the depth of calls that grows with the stream is
never reached; the bound is what the recursion runs on.
-/

namespace Lossless

namespace Stream

/-- The terminal `n` places ahead. Past the end it is the empty one. -/
def ahead (s : Stream) (n : Nat) : Except Fault Terminal :=
  match s.terminals[n]? with
  | some t => .ok t
  | none =>
    match s.ending with
    | .finish position => .ok (.finish position [])
    | .fault f => .error f

def tail (s : Stream) : Stream := ⟨s.terminals.tail, s.ending⟩

end Stream

namespace Grammar

/-- Why a parse fails. -/
inductive Failure where
  | lexical (f : Fault)
  | grammar (cause : GrammarCause) (span : Span)
deriving DecidableEq, Repr

/-- Where a parse stands: the terminals still to be taken and the events reported, the newest
first. -/
structure State where
  stream : Stream
  log : List Event
deriving DecidableEq, Repr

/-- How a rule ends. -/
inductive Outcome where
  | done (node : Node) (state : State)
  | failed (failure : Failure) (log : List Event)
  /-- The bound on the depth of calls was too small. -/
  | exhausted
deriving DecidableEq, Repr

/-- A terminal as a node, under another kind if one is given. -/
def leaf (tag : Option Kind) (t : Terminal) : Node :=
  .token { t.token with kind := tag.getD t.token.kind }

/-- One terminal in place of collected ones. Non-terminals among them would leave no text. -/
def joined (kind : Kind) (nodes : List Node) : Node :=
  (Node.merge? kind nodes).getD (.token { kind := kind, text := "" })

/-- Runs a step on the nodes collected so far; `run` runs the rules that it calls. -/
def exec (run : Rule → List Node → State → Outcome) : Step → List Node → State → Outcome
  | .look n next, nodes, s =>
    match s.stream.ahead n with
    | .ok t => exec run (next (.ofTerminal t)) nodes s
    | .error f => .failed (.lexical f) s.log
  | .take tag next, nodes, s =>
    match s.stream.ahead 0 with
    | .ok t => exec run next (leaf tag t :: nodes) { s with stream := s.stream.tail }
    | .error f => .failed (.lexical f) s.log
  | .call rule next, nodes, s =>
    match run rule [] s with
    | .done node s' => exec run next (node :: nodes) s'
    | .failed e log => .failed e log
    | .exhausted => .exhausted
  | .goto rule, nodes, s => run rule nodes s
  | .gather kind next, nodes, s => exec run next [.tree kind nodes.reverse] s
  | .note event next, nodes, s => exec run next nodes { s with log := event nodes.length :: s.log }
  | .close kind, nodes, s => .done (.tree kind nodes.reverse) s
  | .join kind, nodes, s => .done (joined kind nodes.reverse) s
  | .fail cause, _, s =>
    match s.stream.ahead 0 with
    | .ok t => .failed (.grammar cause t.span) s.log
    | .error f => .failed (.lexical f) s.log

/-- Runs a rule with calls at most `depth` deep. -/
def run : Nat → Rule → List Node → State → Outcome
  | 0, _, _, _ => .exhausted
  | depth + 1, rule, nodes, s => exec (run depth) rule.body nodes s

/-- A depth of calls that no parse of a stream reaches. -/
def depthFor (s : Stream) : Nat := 5 * (s.terminals.length + 1)

end Grammar

end Lossless
