import Lossless.Grammar.Step
import Lossless.KindSet

/-!
# Words of the grammar

Words are no lexemes of their own: an identifier becomes a modifier or the start of a declaration
only where the grammar asks for one. This module lists them.
-/

namespace Lossless.Grammar

/-- The words that say from where a declaration can be used. -/
def isAccessor (word : String) : Bool :=
  ["public", "internal", "private", "protected"].contains word

/-- The kind that a word in front of `class` is taken under. -/
def classModifier? (word : String) : Option Kind :=
  if isAccessor word then some .accessor
  else if word = "abstract" then some .abstractMod
  else if word = "sealed" then some .sealedMod
  else if word = "static" then some .staticMod
  else none

/-- Whether a class declaration can start with a word. -/
def startsClass (word : String) : Bool := word == "class" || (classModifier? word).isSome

/-- The words that may follow the accessors of a member, with their kinds. -/
def modifierWords : List (String × Kind) :=
  [("override", .overrideMod), ("static", .staticMod), ("readonly", .readonlyMod),
   ("abstract", .abstractMod), ("sealed", .sealedMod), ("virtual", .virtualMod),
   ("const", .constMod), ("extern", .externMod)]

/-- The kind that a modifier of a member is taken under. -/
def memberModifier? (word : String) : Option Kind := modifierWords.lookup word

/-- Literals and words, which stand as arguments and default values. -/
def values : KindSet := .ofList [.stringLit, .numberLit, .ident]

/-- What a member name is made of. -/
def nameParts : KindSet := .ofList [.ident, .less, .greater]

end Lossless.Grammar
