import Lossless.Grammar.Words

/-!
# The rules

What each rule of the grammar does, step by step. A unit is a sequence of using directives,
namespaces, classes, attributes and comments; a class has a statement and a block of members. The
bodies of members, the texts of comments and all that has no meaning inside a namespace are kept
terminal by terminal.
-/

namespace Lossless.Grammar

open Step

/-! ## Building blocks -/

/-- Takes the next terminal as it is. -/
def bump (next : Step) : Step := take none next

/-- Takes the next terminal if it has the given kind. -/
def expect (kind : Kind) (cause : GrammarCause) (next : Step) : Step :=
  look 0 fun g => if g.kind = kind then bump next else fail cause

/-- Does one thing or another as the next terminal has the given kind or not. -/
def ifAt (kind : Kind) (yes no : Step) : Step :=
  look 0 fun g => if g.kind = kind then yes else no

/-- The mark that closes a verbatim text. -/
def Verbatim.mark : Verbatim → Kind
  | .blockComment => .blockCommentEnd
  | .propertyBody | .methodBody => .rightBrace

def Verbatim.kind : Verbatim → Kind
  | .blockComment => .blockComment
  | .propertyBody => .propertyBody
  | .methodBody => .methodBody

/-- The error if the closing mark of a verbatim text is missing. -/
def Verbatim.cause : Verbatim → GrammarCause
  | .blockComment => .commentNotClosed
  | .propertyBody | .methodBody => .bodyNotClosed

/-- The mark that closes a list of types. -/
def TypeList.mark : TypeList → Kind
  | .tuple => .rightParen
  | .generic => .greater

def TypeList.kind : TypeList → Kind
  | .tuple => .tupleType
  | .generic => .genericArgs

/-- The error if neither a comma nor the closing mark follows a type. -/
def TypeList.cause : TypeList → GrammarCause
  | .tuple => .tupleSeparator
  | .generic => .genericSeparator

/-! ## Items of units and namespaces -/

/-- What starts here and has a rule of its own, inside a unit or a namespace. -/
def item? (g : Glimpse) : Option Rule :=
  match g.kind with
  | .doubleSlash => some .lineComment
  | .blockCommentStart => some .blockComment
  | .leftBracket => some .attributeSection
  | .ident =>
    if g.text = "using" then some .usingDirective
    else if g.text = "namespace" then some .namespaceDecl
    else if startsClass g.text then some .classDecl
    else none
  | _ => none

/-- Items up to the end of input. Any terminal that starts no item is kept, except for a word. -/
def unitItems : Step :=
  look 0 fun g =>
    match item? g with
    | some rule => call rule (goto .unitItems)
    | none =>
      if g.kind = .endOfInput then bump (close .compilationUnit)
      else if g.kind = .ident then fail .unknownBlock
      else bump (goto .unitItems)

/-- `using`, then `static` or an alias or neither, then a name. -/
def usingDirective : Step :=
  let path := call .qualifiedName (expect .semicolon .usingWithoutSemicolon (close .usingDirective))
  bump (look 0 fun g =>
    if g.is "static" then take (some .staticMod) path
    else if g.kind = .ident then
      look 1 fun h => if h.kind = .equals then bump (bump path) else path
    else path)

/-- `namespace` and a name, then items between braces. -/
def namespaceDecl : Step :=
  bump (call .qualifiedName (gather .namespaceStatement
    (expect .leftBrace .namespaceWithoutBrace (goto .namespaceItems))))

/-- Keeps a terminal that has no meaning in a namespace, inside `depth` braces. The statement it
belongs to ends at a semicolon outside all braces or at the brace that closes the first one. -/
def passOver (depth : Nat) (g : Glimpse) : Step :=
  note (fun _ => .passedThrough g.kind g.text) (bump
    (match g.kind with
      | .leftBrace => goto (.passing (depth + 1))
      | .rightBrace => if depth ≤ 1 then goto .namespaceItems else goto (.passing (depth - 1))
      | .semicolon => if depth = 0 then goto .namespaceItems else goto (.passing depth)
      | _ => goto (.passing depth)))

/-- Items up to the closing brace. What starts no item is passed over. -/
def namespaceItems : Step :=
  look 0 fun g =>
    match item? g with
    | some rule => call rule (goto .namespaceItems)
    | none =>
      if g.kind = .rightBrace then bump (close .namespaceDecl)
      else if g.kind = .endOfInput then fail .namespaceNotClosed
      else passOver 0 g

/-- The rest of a statement that is passed over. Outside all braces it also ends in front of the
closing brace of the namespace. -/
def passing (depth : Nat) : Step :=
  look 0 fun g =>
    if g.kind = .endOfInput then
      if depth = 0 then goto .namespaceItems else fail .namespaceUnbalanced
    else if g.kind = .rightBrace ∧ depth = 0 then goto .namespaceItems
    else passOver depth g

/-! ## Comments -/

/-- Two slashes and the text behind them on the same line. -/
def lineComment : Step :=
  look 0 fun g => bump
    (if g.endsLine then close .comment
      else ifAt .endOfInput (close .comment) (call .commentText (close .comment)))

/-- All terminals to the end of the line, as one. -/
def commentText : Step :=
  look 0 fun g => bump
    (if g.endsLine then join .commentText
      else ifAt .endOfInput (join .commentText) (goto .commentText))

/-- Terminals up to a closing mark. Nesting is not seen. -/
def upToClose (what : Verbatim) : Step :=
  look 0 fun g =>
    if g.kind = .endOfInput then fail what.cause
    else bump (if g.kind = what.mark then close what.kind else goto (.upToClose what))

/-! ## Attributes -/

/-- A name between brackets, with or without arguments. -/
def attributeSection : Step :=
  let closing := expect .rightBracket .attributeNotClosed (close .attributeSection)
  bump (call .qualifiedName (ifAt .leftParen (call .attributeArgs closing) closing))

/-- The first terminal of an argument or, behind an equals sign, of its value. -/
def argumentValue (assignable : Bool) (g : Glimpse) : Step :=
  if values.contains g.kind then
    bump (goto (.argumentTail (g.kind = .ident) assignable))
  else fail .attributeArgument

/-- Arguments up to the closing parenthesis. -/
def argumentItems : Step :=
  look 0 fun g =>
    if g.kind = .rightParen then bump (close .attributeArgs) else argumentValue true g

/-- What follows a value: more parts of a dotted name, an equals sign with another value if this one
may be a name that is assigned to, or the end of the argument. -/
def argumentTail (named assignable : Bool) : Step :=
  look 0 fun g =>
    let ending :=
      if assignable ∧ g.kind = .equals then bump (look 0 (argumentValue false))
      else if g.kind = .comma then bump (goto .argumentItems)
      else if g.kind = .rightParen then goto .argumentItems
      else fail .attributeArgument
    if named ∧ g.kind = .dot then
      look 1 fun h =>
        if h.kind = .ident then bump (bump (goto (.argumentTail named assignable))) else ending
    else ending

/-! ## Names and types -/

/-- A name whose parts are joined by points. -/
def qualifiedName : Step := expect .ident .nameExpected (goto .qualifiedTail)

/-- A point belongs to the name only if a word follows it. -/
def qualifiedTail : Step :=
  ifAt .dot
    (look 1 fun h =>
      if h.kind = .ident then bump (bump (goto .qualifiedTail)) else close .qualifiedName)
    (close .qualifiedName)

/-- A tuple, `void`, or a name with or without type arguments; except behind `void`, brackets may
follow. -/
def typeRef : Step :=
  let suffix :=
    ifAt .leftBracket
      (look 1 fun h =>
        if h.kind = .rightBracket then call .arrayMark (close .typeRef) else fail .arrayMark)
      (close .typeRef)
  look 0 fun g =>
    if g.kind = .leftParen then call (.typeList .tuple) suffix
    else if g.is "void" then call .plainName (close .typeRef)
    else call .qualifiedName (ifAt .less (call (.typeList .generic) suffix) suffix)

/-- A single word as a type. -/
def plainType : Step :=
  ifAt .ident (call .plainName (close .typeRef)) (fail .typeExpected)

/-- Types up to the closing bracket, with commas between them. -/
def typeItems (list : TypeList) : Step :=
  look 0 fun g =>
    if g.kind = list.mark then bump (close list.kind)
    else call .typeRef (look 0 fun h =>
      if h.kind = .comma then bump (goto (.typeItems list))
      else if h.kind = list.mark then goto (.typeItems list)
      else fail list.cause)

/-! ## Classes -/

/-- Modifiers, `class` and the name. -/
def classDecl : Step :=
  look 0 fun g =>
    match g.word?.bind classModifier? with
    | some tag => take (some tag) (goto .classDecl)
    | none =>
      if g.is "class" then
        bump (look 0 fun h =>
          if h.kind = .ident then bump (goto (.classTail h.text)) else fail .classWithoutName)
      else fail .classWord

/-- The rest of a class behind its name: type parameters, base types, a comment and the block. -/
def classTail (name : String) : Step :=
  let block :=
    ifAt .leftBrace (call (.classBlock name) (close .classDecl)) (fail .classWithoutBlock)
  let statement := gather .classStatement (ifAt .doubleSlash (call .lineComment block) block)
  let bases := ifAt .colon (call .inheritance statement) statement
  ifAt .less (call (.typeList .generic) bases) bases

/-- A colon and the first base type. -/
def inheritance : Step := bump (call .typeRef (goto .inheritanceTail))

/-- More base types, each behind a comma. -/
def inheritanceTail : Step :=
  ifAt .comma (bump (call .typeRef (goto .inheritanceTail))) (close .classInheritance)

/-- Goes on with one step or the other as a run of words that can start a class reaches `class`
within three terminals or not. -/
def ifNestedClass (g : Glimpse) (yes no : Step) : Step :=
  let starts (h : Glimpse) : Bool := h.word?.any startsClass
  if g.is "class" then yes
  else if starts g then
    look 1 fun h =>
      if h.is "class" then yes
      else if starts h then look 2 fun i => if i.is "class" then yes else no
      else no
  else no

/-- The items of a block up to its closing brace. -/
def classItems (name : String) : Step :=
  let more (rule : Rule) : Step := call rule (goto (.classItems name))
  look 0 fun g =>
    match g.kind with
    | .rightBrace => bump (note (.parsedClass name) (close .classBlock))
    | .endOfInput => fail .classNotClosed
    | .doubleSlash => more .lineComment
    | .blockCommentStart => more .blockComment
    | .leftBracket => more .attributeSection
    | _ => ifNestedClass g (more .classDecl) (more (.member name))

/-! ## Members -/

/-- The accessors of a member. -/
def member (name : String) : Step :=
  look 0 fun g =>
    if g.word?.any isAccessor then take (some .accessor) (goto (.member name))
    else goto (.memberModifiers name)

/-- The modifiers of a member, its type and its name. A constructor is a point and `ctor` or `cctor`
behind a type, or the name of the class in front of a parenthesis, which then has no type. -/
def memberModifiers (name : String) : Step :=
  look 0 fun g =>
    match g.word?.bind memberModifier? with
    | some tag => take (some tag) (goto (.memberModifiers name))
    | none =>
      if g.is "class" then fail .nestedClassModifiers
      else look 1 fun h =>
        let plain :=
          if g.is name ∧ h.kind = .leftParen then call .memberName (goto (.memberTail true))
          else call .typeRef (call .memberName (goto (.memberTail false)))
        if h.kind = .dot then
          look 2 fun i =>
            if i.is "ctor" ∨ i.is "cctor" then
              call .plainType (call .ctorName (goto (.memberTail true)))
            else plain
        else plain

/-- The part of a member that tells fields, properties and methods apart. -/
def memberTail (isCtor : Bool) : Step :=
  look 0 fun g =>
    match g.kind with
    | .semicolon => bump (close .field)
    | .equals => call .fieldInitializer (expect .semicolon .initializerNotClosed (close .field))
    | .leftBrace => call (.upToClose .propertyBody) (close .property)
    | .leftParen => call .methodBody (close (if isCtor then .ctor else .method))
    | _ => fail .memberBody

/-- Words and angle brackets. -/
def memberName : Step :=
  look 0 fun g =>
    if nameParts.contains g.kind then bump (goto .memberNameTail) else fail .memberWithoutName

/-- The rest of a member name. -/
def memberNameTail : Step :=
  look 0 fun g =>
    if nameParts.contains g.kind then bump (goto .memberNameTail) else close .memberName

/-- A point and a word, as one. -/
def ctorMark : Step :=
  expect .dot .memberWithoutName (expect .ident .memberWithoutName (join .ident))

/-- An equals sign and all up to the semicolon, which is not included. -/
def initializerTail : Step :=
  look 0 fun g =>
    if g.kind = .semicolon then close .fieldInitializer
    else if g.kind = .endOfInput then fail .initializerNotClosed
    else bump (goto .initializerTail)

/-- Parameters up to the closing parenthesis, then the call of another constructor, if there is one,
and a semicolon or a block. -/
def parameterItems : Step :=
  let body :=
    look 0 fun g =>
      if g.kind = .semicolon then bump (close .methodBody)
      else if g.kind = .leftBrace then goto (.upToClose .methodBody)
      else fail .methodBody
  look 0 fun g =>
    if g.kind = .rightParen then bump (ifAt .colon (call .ctorInitializer body) body)
    else call .parameter (look 0 fun h =>
      if h.kind = .comma then bump (goto .parameterItems)
      else if h.kind = .rightParen then goto .parameterItems
      else fail .parameterSeparator)

/-- A colon, `base` or `this`, and the opening parenthesis. -/
def ctorInitializer : Step :=
  bump (look 0 fun g =>
    if g.is "base" ∨ g.is "this" then
      bump (expect .leftParen .ctorStatement (goto .ctorArguments))
    else fail .ctorTarget)

/-- Single values up to the closing parenthesis, with commas between them. -/
def ctorArguments : Step :=
  look 0 fun g =>
    if g.kind = .rightParen then bump (close .ctorInitializer)
    else if values.contains g.kind then
      bump (look 0 fun h =>
        if h.kind = .comma then bump (goto .ctorArguments)
        else if h.kind = .rightParen then goto .ctorArguments
        else fail .ctorArgument)
    else fail .ctorArgument

/-- `out` or `ref` or neither, a type, a name, and a default value if there is one. -/
def parameter : Step :=
  let rest :=
    call .typeRef (expect .ident .parameterWithoutName
      (ifAt .equals (call .parameterDefault (close .parameter)) (close .parameter)))
  look 0 fun g =>
    if g.is "out" then take (some .outMod) rest
    else if g.is "ref" then take (some .refMod) rest
    else rest

/-- An equals sign and a value. -/
def parameterDefault : Step :=
  bump (look 0 fun g =>
    if values.contains g.kind then bump (close .parameterDefault) else fail .parameterValue)

/-! ## All rules -/

/-- What a rule does. -/
def Rule.body : Rule → Step
  | .unitItems => Grammar.unitItems
  | .usingDirective => Grammar.usingDirective
  | .namespaceDecl => Grammar.namespaceDecl
  | .namespaceItems => Grammar.namespaceItems
  | .passing depth => Grammar.passing depth
  | .lineComment => Grammar.lineComment
  | .commentText => Grammar.commentText
  | .blockComment => bump (goto (.upToClose .blockComment))
  | .upToClose what => Grammar.upToClose what
  | .attributeSection => Grammar.attributeSection
  | .attributeArgs => bump (goto .argumentItems)
  | .argumentItems => Grammar.argumentItems
  | .argumentTail named assignable => Grammar.argumentTail named assignable
  | .qualifiedName => Grammar.qualifiedName
  | .qualifiedTail => Grammar.qualifiedTail
  | .plainName => bump (close .qualifiedName)
  | .classDecl => Grammar.classDecl
  | .classTail name => Grammar.classTail name
  | .inheritance => Grammar.inheritance
  | .inheritanceTail => Grammar.inheritanceTail
  | .classBlock name => bump (goto (.classItems name))
  | .classItems name => Grammar.classItems name
  | .member name => Grammar.member name
  | .memberModifiers name => Grammar.memberModifiers name
  | .memberTail isCtor => Grammar.memberTail isCtor
  | .memberName => Grammar.memberName
  | .memberNameTail => Grammar.memberNameTail
  | .ctorName => call .ctorMark (close .memberName)
  | .ctorMark => Grammar.ctorMark
  | .fieldInitializer => bump (goto .initializerTail)
  | .initializerTail => Grammar.initializerTail
  | .methodBody => bump (goto .parameterItems)
  | .parameterItems => Grammar.parameterItems
  | .ctorInitializer => Grammar.ctorInitializer
  | .ctorArguments => Grammar.ctorArguments
  | .parameter => Grammar.parameter
  | .parameterDefault => Grammar.parameterDefault
  | .typeRef => Grammar.typeRef
  | .plainType => Grammar.plainType
  | .arrayMark => bump (bump (close .arrayType))
  | .typeList list => bump (goto (.typeItems list))
  | .typeItems list => Grammar.typeItems list

end Lossless.Grammar
