import Lossless.Node.Edit
import Lossless.Parse

/-!
# Editing sessions

A session holds the tree that is edited and named copies of nodes. An operation looks up nodes by
path and copies by name, and either succeeds or is refused; after a refusal the session is as it was
before. Copies are values of their own: an edit of the tree never shows in them.
-/

namespace Lossless

/-- Why an operation is refused. -/
inductive Refusal where
  /-- A path or a range of children leads nowhere. -/
  | noNode
  /-- The node is no terminal. -/
  | notToken
  /-- The node is a terminal. -/
  | notTree
  /-- There is no copy of that name. -/
  | noCopy
  /-- A text holds something other than blanks. -/
  | notBlank
  | edit (e : EditError)
deriving DecidableEq, Repr

/-- The edited tree and the named copies. -/
structure Session where
  root : Node
  copies : List (String × Node)
deriving DecidableEq, Repr

/-- An operation of a session. -/
abbrev Editing (α : Type) : Type := StateT Session (Except Refusal) α

namespace Session

def new (root : Node) : Session := ⟨root, []⟩

/-- Runs an operation; a refused one leaves the session unchanged. -/
def perform {α : Type} (s : Session) (op : Editing α) : Except Refusal α × Session :=
  match op s with
  | .ok (a, s') => (.ok a, s')
  | .error r => (.error r, s)

end Session

namespace Editing

/-- What is there, or a refusal. -/
def orRefuse {α : Type} (r : Refusal) (o : Option α) : Editing α :=
  match o with
  | some a => pure a
  | none => throw r

/-! ## Looking up -/

def node (path : List PathStep) : Editing Node := do
  orRefuse .noNode ((← get).root.get? path)

def token (path : List PathStep) : Editing Token := do
  orRefuse .notToken (← node path).token?

def copyNamed (name : String) : Editing Node := do
  orRefuse .noCopy ((← get).copies.lookup name)

/-- The blanks that a text spells. -/
def blanks (text : String) : Editing Trivia := orRefuse .notBlank (Trivia.ofChars? text.toList)

/-- Whether the node at the end of a path agrees with a copy. -/
def agrees (path : List PathStep) (name : String) : Editing Bool := do
  let n ← node path
  return n.same (← copyNamed name)

/-- Parses the source text of the tree again and tells whether the same tree comes out. -/
def reparse : Editing (Except Error Bool) := do
  let root := (← get).root
  return (parseUnit root.reconstruct).map (·.same root)

/-! ## Copies -/

/-- Keeps a node under a name, in place of what the name stood for. -/
def keep (name : String) (n : Node) : Editing Unit :=
  modify fun s => { s with copies := (name, n) :: s.copies.filter (·.1 != name) }

def copy (path : List PathStep) (name : String) : Editing Unit := do
  keep name (← node path)

/-- Copies the node at the end of a path under another kind, and gives the node and the copy. -/
def retag (path : List PathStep) (kind : Kind) (name : String) : Editing (Node × Node) := do
  let n ← node path
  let copy := n.withKind kind
  keep name copy
  return (n, copy)

/-- Fuses a range of the children at the end of a path into a copy, if they are terminals. -/
def mergeChildren (path : List PathStep) (start stop : Nat) (kind : Kind) (name : String) :
    Editing (Option Node) := do
  let cs := (← node path).children
  unless start ≤ stop ∧ stop ≤ cs.length do throw .noNode
  let merged := Node.merge? kind ((cs.drop start).take (stop - start))
  if let some n := merged then keep name n
  return merged

/-- Makes a copy the edited tree. -/
def restart (name : String) : Editing Unit := do
  let n ← copyNamed name
  modify fun s => { s with root := n }

/-! ## Changing the tree -/

/-- Puts a node in the place at the end of a path. -/
def replace (path : List PathStep) (n : Node) : Editing Unit := do
  let s ← get
  let root ← orRefuse .noNode (s.root.set? path n)
  set { s with root := root }

/-- Changes the terminal at the end of a path and gives back what it was. -/
def changeToken (path : List PathStep) (f : Token → Token) : Editing Token := do
  let t ← token path
  replace path (.token (f t))
  return t

/-- Applies an edit that can be refused to the node at the end of a path. -/
def change {α : Type} (path : List PathStep) (f : Node → Except EditError (α × Node)) :
    Editing α := do
  match f (← node path) with
  | .ok (a, n) =>
    replace path n
    return a
  | .error e => throw (.edit e)

def setKind (path : List PathStep) (kind : Kind) : Editing Unit := do
  replace path ((← node path).withKind kind)

/-- Inserts a copy among the children at the end of a path. -/
def insert (name : String) (index : Nat) (path : List PathStep) : Editing Unit := do
  let child ← copyNamed name
  change path fun n => (n.insertChild index child).map ((), ·)

def push (name : String) (path : List PathStep) : Editing Unit := do
  let child ← copyNamed name
  change path fun n => (n.pushChild child).map ((), ·)

/-- Removes a child at the end of a path and keeps it, if a name is given. -/
def remove (path : List PathStep) (index : Nat) (name : Option String) : Editing Node := do
  let removed ← change path (·.removeChild index)
  if let some name := name then keep name removed
  return removed

def clear (path : List PathStep) : Editing Unit := do
  match ← node path with
  | .token _ => throw .notTree
  | .tree k _ => replace path (.tree k [])

/-- Gives the terminal at the end of a path another text. Its value stays. -/
def setText (path : List PathStep) (text : String) : Editing Unit := do
  let _ ← changeToken path fun t => { t with text := text }

/-- Removes the blanks behind a terminal and gives them back. -/
def takeTrailing (path : List PathStep) : Editing Trivia := do
  return (← changeToken path fun t => { t with trailing := .empty }).trailing

def pushLeading (path : List PathStep) (p : Piece) : Editing Unit := do
  let _ ← changeToken path fun t => { t with leading := t.leading.push p }

def pushTrailing (path : List PathStep) (p : Piece) : Editing Unit := do
  let _ ← changeToken path fun t => { t with trailing := t.trailing.push p }

def setLeading (text : String) (path : List PathStep) : Editing Unit := do
  let b ← blanks text
  let _ ← changeToken path fun t => { t with leading := b }

def setTrailing (text : String) (path : List PathStep) : Editing Unit := do
  let b ← blanks text
  let _ ← changeToken path fun t => { t with trailing := b }

/-- The last terminal below the end of a path, and then a new text for it, if one is given. -/
def lastToken (path : List PathStep) (text : Option String) : Editing (Option Token) := do
  let n ← node path
  if let some text := text then
    if let some n' := n.modifyLastToken? fun t => { t with text := text } then replace path n'
  return n.lastToken?

end Editing

end Lossless
