import Lossless.Token

/-!
# The syntax tree

A node is a token or a non-terminal with an ordered list of children. Every character of the source
belongs to exactly one token, so the source text of a tree is the source text of its tokens in
order.
-/

namespace Lossless

/-- A node of the tree. -/
inductive Node where
  | token (token : Token)
  | tree (kind : Kind) (children : List Node)
deriving Repr, Inhabited

namespace Node

/-! ## Equality -/

mutual

/-- Equality of nodes is decided child by child. -/
def decEq : (a b : Node) → Decidable (a = b)
  | .token s, .token t =>
    if h : s = t then isTrue (by rw [h]) else isFalse fun e => h (Node.token.inj e)
  | .tree j as, .tree k bs =>
    if h : j = k then
      match decEqList as bs with
      | isTrue hs => isTrue (by rw [h, hs])
      | isFalse hs => isFalse fun e => hs (Node.tree.inj e).2
    else isFalse fun e => h (Node.tree.inj e).1
  | .token _, .tree _ _ => isFalse nofun
  | .tree _ _, .token _ => isFalse nofun

def decEqList : (as bs : List Node) → Decidable (as = bs)
  | [], [] => isTrue rfl
  | a :: as, b :: bs =>
    match decEq a b, decEqList as bs with
    | isTrue h, isTrue hs => isTrue (by rw [h, hs])
    | isFalse h, _ => isFalse fun e => h (List.cons.inj e).1
    | _, isFalse hs => isFalse fun e => hs (List.cons.inj e).2
  | [], _ :: _ => isFalse nofun
  | _ :: _, [] => isFalse nofun

end

instance : DecidableEq Node := decEq

mutual

/-- Whether two trees agree node by node, with numeric values compared as numbers. A tree that holds
a value which is no number does not agree with itself. -/
def same : Node → Node → Bool
  | .token s, .token t => s.same t
  | .tree j as, .tree k bs => j == k && sameList as bs
  | _, _ => false

/-- Whether two lists of trees agree one by one. -/
def sameList : List Node → List Node → Bool
  | [], [] => true
  | a :: as, b :: bs => a.same b && sameList as bs
  | _, _ => false

end

/-! ## Parts -/

def kind : Node → Kind
  | .token t => t.kind
  | .tree k _ => k

/-- The same node under another kind. -/
def withKind (k : Kind) : Node → Node
  | .token t => .token { t with kind := k }
  | .tree _ cs => .tree k cs

/-- The token of a terminal. -/
def token? : Node → Option Token
  | .token t => some t
  | .tree _ _ => none

def isToken (n : Node) : Bool := n.token?.isSome

/-- The children in order. A terminal has none. -/
def children : Node → List Node
  | .token _ => []
  | .tree _ cs => cs

/-- The own text of a terminal. -/
def text? (n : Node) : Option String := n.token?.map Token.text

/-- The value of a terminal that is a number. -/
def value? (n : Node) : Option Number := n.token?.bind Token.value

/-! ## Children of a kind -/

def firstOfKind? (n : Node) (k : Kind) : Option Node := n.children.find? (·.kind == k)

def allOfKind (n : Node) (k : Kind) : List Node := n.children.filter (·.kind == k)

def hasKind (n : Node) (k : Kind) : Bool := n.children.any (·.kind == k)

def positionOfKind? (n : Node) (k : Kind) : Option Nat := n.children.findIdx? (·.kind == k)

/-! ## Tokens and text -/

mutual

/-- The tokens of a tree from left to right. -/
def tokens : Node → List Token
  | .token t => [t]
  | .tree _ cs => tokensIn cs

def tokensIn : List Node → List Token
  | [] => []
  | n :: ns => n.tokens ++ tokensIn ns

end

@[simp] theorem tokensIn_append (as bs : List Node) :
    tokensIn (as ++ bs) = tokensIn as ++ tokensIn bs := by
  induction as with
  | nil => simp [tokensIn]
  | cons a as ih => simp [tokensIn, ih]

/-- The characters of the source text. -/
def chars (n : Node) : List Char := n.tokens.flatMap Token.chars

/-- The source text of the tree, blanks included. -/
def reconstruct (n : Node) : String := String.ofList n.chars

/-- The texts of the tokens one after the other, without the blanks around them. -/
def trimmedText (n : Node) : String := String.ofList (n.tokens.flatMap Token.ownChars)

mutual

/-- The first token of the tree, found from the left. -/
def firstToken? : Node → Option Token
  | .token t => some t
  | .tree _ cs => firstTokenIn? cs

def firstTokenIn? : List Node → Option Token
  | [] => none
  | n :: ns => n.firstToken?.or (firstTokenIn? ns)

end

mutual

/-- The last token of the tree, found from the right. -/
def lastToken? : Node → Option Token
  | .token t => some t
  | .tree _ cs => lastTokenIn? cs

def lastTokenIn? : List Node → Option Token
  | [] => none
  | n :: ns => (lastTokenIn? ns).or n.lastToken?

end

mutual

/-- The tree with its last token changed, if it has a token. -/
def modifyLastToken? (f : Token → Token) : Node → Option Node
  | .token t => some (.token (f t))
  | .tree k cs => (modifyLastTokenIn? f cs).map (.tree k)

def modifyLastTokenIn? (f : Token → Token) : List Node → Option (List Node)
  | [] => none
  | n :: ns =>
    match modifyLastTokenIn? f ns with
    | some ns' => some (n :: ns')
    | none => (n.modifyLastToken? f).map (· :: ns)

end

/-! ## Fusing -/

/-- One terminal of the given kind in place of a list of terminals; the blanks between them become
part of its text. There is none for an empty list or for a list that holds a non-terminal. -/
def merge? (k : Kind) (ns : List Node) : Option Node :=
  if ns.isEmpty then none
  else (ns.mapM token?).map fun ts => .token (Token.fuse k ts)

end Node

end Lossless
