import Lossless.Grammar.Progress

/-!
# The rules as decision trees

Some rules tell the next terminal apart by pattern matching. Their equations here say the same with
conditions on its kind and its text, so that a property of steps has to be shown for conditions only
and not again for each pattern. With these equations `simp` opens the body of every rule down to its
steps.
-/

namespace Lossless.Grammar

open Step

/-- Only words have a meaning as words, and it depends on their text. -/
theorem word?_bind {g : Glimpse} {f : String → Option Kind} {k : Kind}
    (h : g.word?.bind f = some k) : g.kind = .ident ∧ f g.text = some k := by
  unfold Glimpse.word? at h
  split at h
  · rename_i hk
    exact ⟨hk, h⟩
  · cases h

/-- Only words pass a test of words. -/
theorem word?_any_iff {g : Glimpse} {f : String → Bool} :
    g.word?.any f = true ↔ g.kind = .ident ∧ f g.text = true := by
  unfold Glimpse.word?
  split
  · rename_i hk
    simp [hk]
  · rename_i hk
    simp [hk]

/-- The tags of modifiers of classes. -/
theorem classModifier?_mem {word : String} {k : Kind} (h : classModifier? word = some k) :
    k ∈ [Kind.accessor, .abstractMod, .sealedMod, .staticMod] := by
  unfold classModifier? at h
  repeat' split at h
  all_goals simp_all

/-- The tags of modifiers of members. -/
theorem memberModifier?_mem {word : String} {k : Kind} (h : memberModifier? word = some k) :
    k ∈ modifierWords.map Prod.snd := by
  rcases List.lookup_eq_some_iff.1 h with ⟨front, back, hwords, -⟩
  rw [hwords]
  simp

/-- The loop of a unit: an item, the end of the text, a word that fails, or a terminal to keep. -/
@[simp] theorem unitItems_eq :
    unitItems = look 0 fun g =>
      (item? g).elim
        (if g.kind = .endOfInput then bump (close .compilationUnit)
          else if g.kind = .ident then fail .unknownBlock
          else bump (goto .unitItems))
        fun rule => call rule (goto .unitItems) := by
  unfold unitItems
  congr 1
  funext g
  cases item? g <;> rfl

/-- The loop of a namespace: an item, the closing brace, or a terminal that is passed over. -/
@[simp] theorem namespaceItems_eq :
    namespaceItems = look 0 fun g =>
      (item? g).elim
        (if g.kind = .rightBrace then bump (close .namespaceDecl)
          else if g.kind = .endOfInput then fail .namespaceNotClosed
          else passOver 0 g)
        fun rule => call rule (goto .namespaceItems) := by
  unfold namespaceItems
  congr 1
  funext g
  cases item? g <;> rfl

/-- Braces that are passed over are counted; a semicolon outside of them ends the statement. -/
@[simp] theorem passOver_eq (depth : Nat) (g : Glimpse) :
    passOver depth g = note (fun _ => .passedThrough g.kind g.text) (bump
      (if g.kind = .leftBrace then goto (.passing (depth + 1))
        else if g.kind = .rightBrace then
          if depth ≤ 1 then goto .namespaceItems else goto (.passing (depth - 1))
        else if g.kind = .semicolon then
          if depth = 0 then goto .namespaceItems else goto (.passing depth)
        else goto (.passing depth))) := by
  unfold passOver
  congr 2
  split <;> simp_all

@[simp] theorem classDecl_eq :
    classDecl = look 0 fun g =>
      (g.word?.bind classModifier?).elim
        (if g.is "class" then
          bump (look 0 fun h =>
            if h.kind = .ident then bump (goto (.classTail h.text)) else fail .classWithoutName)
          else fail .classWord)
        fun tag => take (some tag) (goto .classDecl) := by
  unfold classDecl
  congr 1
  funext g
  cases g.word?.bind classModifier? <;> rfl

/-- The loop of a block tells its items by the next terminal, and classes from members by up to
three. -/
@[simp] theorem classItems_eq (name : String) :
    classItems name = look 0 fun g =>
      if g.kind = .rightBrace then bump (note (.parsedClass name) (close .classBlock))
      else if g.kind = .endOfInput then fail .classNotClosed
      else if g.kind = .doubleSlash then call .lineComment (goto (.classItems name))
      else if g.kind = .blockCommentStart then call .blockComment (goto (.classItems name))
      else if g.kind = .leftBracket then call .attributeSection (goto (.classItems name))
      else ifNestedClass g (call .classDecl (goto (.classItems name)))
        (call (.member name) (goto (.classItems name))) := by
  unfold classItems
  dsimp only
  congr 1
  funext g
  split <;> simp_all

/-- Behind the modifiers up to three terminals tell a constructor from other members. -/
@[simp] theorem memberModifiers_eq (name : String) :
    memberModifiers name = look 0 fun g =>
      (g.word?.bind memberModifier?).elim
        (if g.is "class" then fail .nestedClassModifiers
          else look 1 fun h =>
            let plain :=
              if g.is name ∧ h.kind = .leftParen then call .memberName (goto (.memberTail true))
              else call .typeRef (call .memberName (goto (.memberTail false)))
            if h.kind = .dot then
              look 2 fun i =>
                if i.is "ctor" ∨ i.is "cctor" then
                  call .plainType (call .ctorName (goto (.memberTail true)))
                else plain
            else plain)
        fun tag => take (some tag) (goto (.memberModifiers name)) := by
  unfold memberModifiers
  congr 1
  funext g
  cases g.word?.bind memberModifier? <;> rfl

/-- The terminal behind a name tells the shapes of members apart. -/
@[simp] theorem memberTail_eq (isCtor : Bool) :
    memberTail isCtor = look 0 fun g =>
      if g.kind = .semicolon then bump (close .field)
      else if g.kind = .equals then
        call .fieldInitializer (expect .semicolon .initializerNotClosed (close .field))
      else if g.kind = .leftBrace then call (.upToClose .propertyBody) (close .property)
      else if g.kind = .leftParen then
        call .methodBody (close (if isCtor then .ctor else .method))
      else fail .memberBody := by
  unfold memberTail
  congr 1
  funext g
  split <;> simp_all

/-! ## Opening the rules -/

attribute [simp] Rule.body bump expect ifAt usingDirective namespaceDecl passing lineComment
  commentText upToClose attributeSection argumentValue argumentItems argumentTail qualifiedName
  qualifiedTail typeRef plainType typeItems classTail inheritance inheritanceTail ifNestedClass
  member memberName memberNameTail ctorMark initializerTail parameterItems ctorInitializer
  ctorArguments parameter parameterDefault

/-! ## Opening a run

With these equations `simp` computes the run of a rule on a stream whose first terminals are
known. -/

@[simp] theorem ahead_cons_zero (t : Terminal) (s : Stream) : (s.cons t).ahead 0 = .ok t := rfl

@[simp] theorem ahead_cons_one (t u : Terminal) (s : Stream) :
    ((s.cons u).cons t).ahead 1 = .ok u := rfl

@[simp] theorem tail_cons (t : Terminal) (s : Stream) : (s.cons t).tail = s := rfl

@[simp] theorem leaf_none (t : Terminal) : leaf none t = .token t.token := rfl

end Lossless.Grammar
