import Lossless.Terminal

/-!
# The language of the grammar

The grammar is written in a small language of steps. A rule collects nodes: a step takes the next
terminal, calls another rule for one more node, looks at most two terminals further ahead, or ends
the rule by closing the collected nodes under a kind. What a step can see of a terminal is its kind,
its text and whether a line ends behind it, so no decision depends on any other blank.
-/

namespace Lossless

/-- Why a text does not follow the grammar. -/
inductive GrammarCause where
  | unknownBlock
  | usingWithoutSemicolon
  | namespaceWithoutBrace
  | namespaceNotClosed
  | namespaceUnbalanced
  | commentNotClosed
  | attributeNotClosed
  | attributeArgument
  | nameExpected
  | classWord
  | classWithoutName
  | classWithoutBlock
  | classNotClosed
  | nestedClassModifiers
  | memberBody
  | memberWithoutName
  | initializerNotClosed
  | bodyNotClosed
  | parameterSeparator
  | methodBody
  | ctorTarget
  | ctorStatement
  | ctorArgument
  | parameterWithoutName
  | parameterValue
  | arrayMark
  | typeExpected
  | tupleSeparator
  | genericSeparator
deriving DecidableEq, Repr

def GrammarCause.message : GrammarCause → String
  | .unknownBlock => "Unknown code block"
  | .usingWithoutSemicolon => "missing `;` after using directive"
  | .namespaceWithoutBrace => "no namespace unit open brace"
  | .namespaceNotClosed => "unexpected end of input in namespace"
  | .namespaceUnbalanced => "unbalanced braces in namespace"
  | .commentNotClosed => "unterminated block comment"
  | .attributeNotClosed => "invalid attribute closing bracket"
  | .attributeArgument => "invalid attribute ctor invocation parameter"
  | .nameExpected => "expected a name"
  | .classWord => "unknown class identifier"
  | .classWithoutName => "no class name given"
  | .classWithoutBlock => "no valid class block"
  | .classNotClosed => "unexpected end of input in class block"
  | .nestedClassModifiers => "too many modifiers before nested class"
  | .memberBody => "unknown member body"
  | .memberWithoutName => "no member name given"
  | .initializerNotClosed => "unterminated field initializer"
  | .bodyNotClosed => "unterminated member body"
  | .parameterSeparator => "invalid parameter"
  | .methodBody => "invalid method body"
  | .ctorTarget => "invalid ctor invocation target"
  | .ctorStatement => "invalid ctor invocation statement"
  | .ctorArgument => "invalid ctor invocation parameter"
  | .parameterWithoutName => "no parameter name given"
  | .parameterValue => "invalid parameter value"
  | .arrayMark => "invalid type array indicator"
  | .typeExpected => "expected a type"
  | .tupleSeparator => "invalid tuple type"
  | .genericSeparator => "invalid generic type"

/-- What is reported in the course of a parse. -/
inductive Event where
  /-- The parse of the declaration at a byte offset begins. -/
  | declaration (offset : Nat)
  /-- The block of a class is complete and has this many children. -/
  | parsedClass (name : String) (children : Nat)
  /-- A terminal of a namespace is kept although it has no meaning there. -/
  | passedThrough (kind : Kind) (text : String)
deriving DecidableEq, Repr

namespace Grammar

/-- What a decision can see of a terminal. -/
structure Glimpse where
  kind : Kind
  text : String
  endsLine : Bool
deriving DecidableEq, Repr

namespace Glimpse

/-- What can be seen of a terminal. -/
def ofTerminal (t : Terminal) : Glimpse := ⟨t.token.kind, t.token.text, t.token.endsLine⟩

/-- The text of a word. -/
def word? (g : Glimpse) : Option String := if g.kind = .ident then some g.text else none

/-- Whether the terminal is the given word. -/
def is (g : Glimpse) (word : String) : Bool := g.word? == some word

end Glimpse

/-- Texts that are kept terminal by terminal up to a closing mark. -/
inductive Verbatim where
  | blockComment
  | propertyBody
  | methodBody
deriving DecidableEq, Repr

/-- Lists of types between brackets. -/
inductive TypeList where
  | tuple
  | generic
deriving DecidableEq, Repr

/-- The rules of the grammar. A rule with items or a tail in its name goes on with what another rule
has begun. Rules inside a class know the name of that class. -/
inductive Rule where
  | unitItems
  | usingDirective
  | namespaceDecl
  | namespaceItems
  | passing (depth : Nat)
  | lineComment
  | commentText
  | blockComment
  | upToClose (what : Verbatim)
  | attributeSection
  | attributeArgs
  | argumentItems
  | argumentTail (named assignable : Bool)
  | qualifiedName
  | qualifiedTail
  | plainName
  | classDecl
  | classTail (name : String)
  | inheritance
  | inheritanceTail
  | classBlock (name : String)
  | classItems (name : String)
  | member (name : String)
  | memberModifiers (name : String)
  | memberTail (isCtor : Bool)
  | memberName
  | memberNameTail
  | ctorName
  | ctorMark
  | fieldInitializer
  | initializerTail
  | methodBody
  | parameterItems
  | ctorInitializer
  | ctorArguments
  | parameter
  | parameterDefault
  | typeRef
  | plainType
  | arrayMark
  | typeList (list : TypeList)
  | typeItems (list : TypeList)
deriving DecidableEq, Repr

/-- A step of a rule. -/
inductive Step where
  /-- Goes on as the terminal `ahead` places ahead demands. -/
  | look (ahead : Fin 3) (next : Glimpse → Step)
  /-- Takes the next terminal, under another kind if one is given. -/
  | take (tag : Option Kind) (next : Step)
  /-- Adds the node that another rule makes. -/
  | call (rule : Rule) (next : Step)
  /-- Continues with another rule, which takes over the nodes collected so far. -/
  | goto (rule : Rule)
  /-- Puts the nodes collected so far under one node. -/
  | gather (kind : Kind) (next : Step)
  /-- Reports an event, which may depend on the number of nodes collected so far. -/
  | note (event : Nat → Event) (next : Step)
  /-- Ends the rule with a node over all collected nodes. -/
  | close (kind : Kind)
  /-- Ends the rule with one terminal in place of the collected ones. -/
  | join (kind : Kind)
  /-- Ends the parse at the next terminal. -/
  | fail (cause : GrammarCause)

end Grammar

end Lossless
