import Lossless.Proofs.Files
import Lossless.Proofs.Origins
import Lossless.Proofs.Shapes

/-!
# Extraction

The command that pulls a class out of a file prints a stretch of the file, or writes it to another
one. The stretch begins where the marker first occurs and ends with the closing brace of the class
and the blanks behind it, and what is pulled out of this stretch again is the stretch itself. A run
that does not end well changes no file. `extract_exact` puts this together.
-/

namespace Lossless

open Lexeme Text Lexer Lossless.Grammar Lossless.Stream Lossless.Terminal

/-! ## The first occurrence of a text -/

namespace Text

/-- The sought text stands at a byte offset and nowhere before it. -/
def FirstAt (sought cs : List Char) (offset : Nat) : Prop :=
  (∃ front rest, cs = front ++ sought ++ rest ∧ width front = offset) ∧
    ∀ front rest, cs = front ++ sought ++ rest → offset ≤ width front

variable {sought cs front rest : List Char} {offset : Nat}

theorem offsetOf?_of_begins {c : Char} (h : sought <+: c :: cs) :
    offsetOf? sought (c :: cs) = some 0 := by
  have hbegins := List.isPrefixOf_iff_prefix.2 h
  rw [offsetOf?, if_pos hbegins]

/-- Where a sought text is found, it does not stand before. -/
theorem le_of_offsetOf? (h : offsetOf? sought cs = some offset)
    (hcs : cs = front ++ sought ++ rest) : offset ≤ width front := by
  -- By induction on the text, which is searched from the front: the first place that fits is taken.
  induction cs generalizing offset front with
  | nil =>
    simp only [offsetOf?] at h
    split at h
    · cases h
      exact Nat.zero_le _
    · cases h
  | cons c cs ih =>
    simp only [offsetOf?] at h
    split at h
    · cases h
      exact Nat.zero_le _
    · rename_i hnot
      obtain ⟨m, hm, rfl⟩ := Option.map_eq_some_iff.1 h
      cases front with
      | nil =>
        -- The sought text begins here, so it would have been found.
        have hbegins := List.isPrefixOf_iff_prefix.2 ⟨rest, hcs.symm⟩
        exact absurd hbegins hnot
      | cons d front =>
        obtain ⟨rfl, htail⟩ := List.cons.inj hcs
        have hle := ih hm htail
        rw [width_cons]
        omega

/-- A text that stands somewhere is found. -/
theorem exists_offsetOf? (front sought rest : List Char) :
    ∃ offset, offsetOf? sought (front ++ sought ++ rest) = some offset := by
  induction front with
  | nil =>
    cases htext : sought ++ rest with
    | nil =>
      obtain ⟨rfl, rfl⟩ := List.append_eq_nil_iff.1 htext
      exact ⟨0, rfl⟩
    | cons c cs =>
      rw [List.nil_append, htext]
      exact ⟨0, offsetOf?_of_begins ⟨rest, htext⟩⟩
  | cons c front ih =>
    obtain ⟨offset, hoffset⟩ := ih
    rw [List.cons_append, List.cons_append, offsetOf?, hoffset]
    split
    · exact ⟨0, rfl⟩
    · exact ⟨c.utf8Size + offset, rfl⟩

/-- The offset that is found is that of the first occurrence. -/
theorem offsetOf?_eq_some_iff : offsetOf? sought cs = some offset ↔ FirstAt sought cs offset := by
  constructor
  · intro h
    exact ⟨eq_append_of_offsetOf? h, fun front rest => le_of_offsetOf? h⟩
  · rintro ⟨⟨front, rest, rfl, rfl⟩, hfirst⟩
    obtain ⟨found, hfound⟩ := exists_offsetOf? front sought rest
    obtain ⟨front', rest', htext, rfl⟩ := eq_append_of_offsetOf? hfound
    have hle := le_of_offsetOf? hfound rfl
    have hge := hfirst front' rest' htext
    rw [hfound, Nat.le_antisymm hle hge]

/-- A text stands at once in what begins with it. -/
theorem FirstAt.zero (h : sought <+: cs) : FirstAt sought cs 0 := by
  obtain ⟨rest, rfl⟩ := h
  exact ⟨⟨[], rest, rfl, rfl⟩, fun _ _ _ => Nat.zero_le _⟩

/-- Of two beginnings of a text, the narrower one is the beginning of the other. -/
theorem prefix_of_width_le {a b r s : List Char} (h : a ++ r = b ++ s) (hle : width a ≤ width b) :
    a <+: b := by
  rcases List.append_eq_append_iff.1 h with ⟨x, rfl, -⟩ | ⟨x, rfl, -⟩
  · exact List.prefix_append a x
  · rw [width_append] at hle
    have hx : x = [] := width_eq_zero.1 (by omega)
    rw [hx, List.append_nil]

end Text

/-! ## The end of a class -/

namespace Node

/-- The last token is found in the last node, if that has one. -/
theorem lastTokenIn?_concat {n : Node} {t : Token} (h : n.lastToken? = some t) (as : List Node) :
    lastTokenIn? (as ++ [n]) = some t := by
  induction as with
  | nil => simp [lastTokenIn?, h]
  | cons a as ih => rw [List.cons_append, lastTokenIn?, ih, Option.some_or]

end Node

/-- A class ends with its block, and the block with a closing brace. -/
theorem exists_closing {c : Node} (hsymbol : c.symbol = .tree .classDecl) (h : c.Conforms) :
    ∃ parts items z, c = .tree .classDecl (parts ++ [.tree .classBlock (items ++ [.token z])]) ∧
      z.kind = .rightBrace := by
  obtain ⟨cs, rfl⟩ := Node.eq_tree_of_symbol hsymbol
  obtain ⟨hclass, hbelow⟩ := Node.conforms_tree.1 h
  obtain ⟨parts, block, rfl, hblock⟩ := Pattern.exists_last hclass
  obtain ⟨bs, rfl⟩ := Node.eq_tree_of_symbol hblock
  obtain ⟨hitems, -⟩ := Node.conforms_tree.1 (hbelow (.tree .classBlock bs) (by simp))
  obtain ⟨items, brace, rfl, hbrace⟩ := Pattern.exists_last hitems
  obtain ⟨z, rfl, hz⟩ := Node.eq_token_of_symbol hbrace
  exact ⟨parts, items, z, rfl, hz⟩

/-- A terminal of a text that is a closing brace is spelled as one. -/
theorem text_of_closingBrace {p i : Nat} {cs : List Char} {t : Terminal}
    (h : (ofLexer (fresh p cs)).ahead i = .ok t) (hk : t.token.kind = .rightBrace) :
    t.token.text = "\x7d" := by
  obtain ⟨us, m, r, -, -, hy⟩ := yields_of_ahead h (by rw [hk]; decide)
  obtain ⟨reads, front, core, back, sharp⟩ := hy
  rename_i before after x
  obtain ⟨hspells, -⟩ := reads.genuine x (List.mem_append_right _ List.mem_cons_self)
  have hx : x.kind = .rightBrace := hk
  have htext : x.text = ['}'] := by
    rw [hx] at hspells
    simpa [Kind.spells] using hspells
  show x.ownText = _
  rw [ownText, if_neg (by rw [hx]; decide), htext]

/-- The class ends with the closing brace of its block, behind which only blanks come. -/
def Node.EndsWithBrace (c : Node) : Prop :=
  ∃ parts items z, c = .tree .classDecl (parts ++ [.tree .classBlock (items ++ [.token z])]) ∧
    z.kind = .rightBrace ∧ z.text = "\x7d" ∧
    ∃ inside blanks, c.reconstruct.toList = inside ++ '}' :: blanks ∧
      Trivia.ofChars? blanks = some z.trailing

namespace Closes

variable {cs r : List Char} {c : Node} {us : List Terminal} {after : List Lexeme}

/-- The text of a class ends with a closing brace and the blanks that it keeps. -/
theorem toList_reconstruct (h : Closes cs c us after r) :
    c.reconstruct.toList = charsOf us ++ '}' :: textOf after := by
  rw [Node.reconstruct, String.toList_ofList, h.chars]

/-- A class is parsed from its own text again. -/
theorem parse_reconstruct (h : Closes cs c us after r) :
    parseDeclarationAt c.reconstruct 0 = .ok c := by
  -- The blanks of the class are read again, now at the end of a text.
  have hblanks := h.blanks.lookahead (Follows.nil r)
  rw [List.append_nil] at hblanks
  obtain ⟨c', hc', hresult⟩ := h.append_blanks hblanks h.blank rfl
  rw [h.modify_self] at hc'
  cases hc'
  rw [parseDeclarationAt_zero, h.toList_reconstruct, hresult]

/-- The brace that ends a class is a terminal of the text, and what stands behind it is read as its
blanks. -/
theorem endsWithBrace (h : Closes cs c us after r) : c.EndsWithBrace := by
  obtain ⟨hmade, hconforms⟩ := conforms_of_parse .classDecl rfl (fun _ => .nil _) h.parsed
  have hsourced := sourced_of_parse .classDecl rfl (fun _ => .nil _) h.parsed
  obtain ⟨parts, items, z, rfl, hz⟩ := exists_closing (List.singleton_inj.1 hmade) hconforms
  refine ⟨parts, items, z, rfl, hz, ?_, charsOf us, textOf after, h.toList_reconstruct, ?_⟩
  · -- The brace is a terminal of the text.
    have horigin : Origin (ofLexer (fresh 0 cs)) (.token z) := by
      apply hsourced
      refine Node.mem_descendants_of_child (List.mem_append_right _ List.mem_cons_self) ?_
      refine Node.mem_descendants_of_child (List.mem_append_right _ List.mem_cons_self) ?_
      exact Node.mem_descendants_self _
    obtain ⟨i, t, ht, rfl⟩ := horigin.of_closingBrace hz
    exact text_of_closingBrace ht hz
  · -- The blanks of the brace are those that the parse leaves it.
    have hblock : (Node.tree .classBlock (items ++ [.token z])).lastToken? = some z :=
      Node.lastTokenIn?_concat rfl items
    have hlast : (Node.tree .classDecl
        (parts ++ [.tree .classBlock (items ++ [.token z])])).lastToken? = some z :=
      Node.lastTokenIn?_concat hblock parts
    have hsame := Node.lastToken?_modify _ h.modify_self
    rw [hlast, Option.map_some, Option.some.injEq] at hsame
    rw [hsame, Trivia.ofChars?, h.blanks.readPieces?_textOf h.blank, Option.map_some]

end Closes

/-! ## Runs of the command -/

namespace Disk

/-- Files can be written to the output, if there is one. -/
def Accepts (d : Disk) (output : Option String) : Prop :=
  ∀ out ∈ output, ∀ text, ∃ d', d.write out text = .ok d'

/-- The class `c` is found in a file: the marker stands in the text of the file, and at its first
occurrence the class is parsed. -/
structure Finds (d : Disk) (path marker text : String) (offset : Nat) (c : Node) : Prop where
  read : d.read path = .ok text
  first : FirstAt marker.toList text.toList offset
  parsed : parseDeclarationAt text offset = .ok c

/-- A run ends well and prints a text, or leaves it in the output; no other file is changed. -/
def Delivers (d : Disk) (output : Option String) (text : String) (result : Transcript × Disk) :
    Prop :=
  result.1.code = 0 ∧
    match output with
    | none => result.1.out = text ∧ result.2 = d
    | some out => result.1.out = "" ∧ d.Saved result.2 out text

variable {d : Disk} {path marker text : String} {offset : Nat} {c : Node} {output : Option String}

/-- A class that is found is delivered. -/
theorem Finds.delivers (h : d.Finds path marker text offset c) (hwrite : d.Accepts output)
    (render : Renderer) (verbose : Bool) :
    d.Delivers output c.reconstruct
      (d.perform render ⟨verbose, .extract path marker output⟩) := by
  have hoffset : declarationOffset? text marker = some offset := offsetOf?_eq_some_iff.2 h.first
  have hresult : (reportDeclarationAt text offset).result = .ok c := h.parsed
  simp only [perform, Command.run, Command.runExtract, read_bind, h.read, hoffset, hresult]
  cases output with
  | none => exact ⟨rfl, String.empty_append, rfl⟩
  | some out =>
    obtain ⟨d', hd'⟩ := hwrite out rfl c.reconstruct
    simp only [write_bind hd']
    exact ⟨rfl, String.empty_append, saved_of_write hd'⟩

/-- A run that finds no class does not end well, and leaves the disk as it was. -/
theorem perform_extract_of_not_finds (h : ∀ text offset c, ¬d.Finds path marker text offset c)
    (render : Renderer) (verbose : Bool) :
    (d.perform render ⟨verbose, .extract path marker output⟩).1.code = 1 ∧
      (d.perform render ⟨verbose, .extract path marker output⟩).2 = d := by
  simp only [perform, Command.run, Command.runExtract, read_bind]
  cases hread : d.read path with
  | error cause => exact ⟨rfl, rfl⟩
  | ok text =>
    dsimp only
    cases hoffset : declarationOffset? text marker with
    | none => exact ⟨rfl, rfl⟩
    | some offset =>
      dsimp only
      cases hresult : (reportDeclarationAt text offset).result with
      | error e => exact ⟨rfl, rfl⟩
      | ok c => exact absurd ⟨hread, offsetOf?_eq_some_iff.1 hoffset, hresult⟩ (h text offset c)

/-- A class that is found stands at the first occurrence of the marker. -/
theorem Finds.exists_closes (h : d.Finds path marker text offset c) :
    ∃ front cs us after r, text.toList = front ++ cs ∧ width front = offset ∧
      cs = c.reconstruct.toList ++ r ∧ Closes cs c us after r := by
  obtain ⟨cs, hdrop, hclass⟩ := parse_of_declaration h.parsed
  obtain ⟨front, htext, hwidth⟩ := eq_append_of_dropBytes? hdrop
  obtain ⟨us, after, r, hc⟩ := Lossless.exists_closes hclass
  refine ⟨front, cs, us, after, r, htext, hwidth, ?_, hc⟩
  rw [hc.toList_reconstruct, hc.front.text_eq]
  simp

/-- What has been extracted is found again in its own text, if the marker fits into it. -/
theorem Finds.again (h : d.Finds path marker text offset c)
    (hfits : width marker.toList ≤ width c.reconstruct.toList) {d₂ : Disk} {path₂ : String}
    (hread : d₂.read path₂ = .ok c.reconstruct) : d₂.Finds path₂ marker c.reconstruct 0 c := by
  obtain ⟨front, cs, us, after, r, htext, hwidth, hcs, hc⟩ := h.exists_closes
  obtain ⟨⟨before, rest, hbefore, hoffset⟩, -⟩ := h.first
  refine ⟨hread, .zero ?_, hc.parse_reconstruct⟩
  -- At the offset stand both the marker and the text of the class.
  have hmarker : dropBytes? offset text.toList = some (marker.toList ++ rest) := by
    rw [hbefore, List.append_assoc, ← hoffset, dropBytes?_width_append]
  rw [htext, ← hwidth, dropBytes?_width_append, hcs, Option.some.injEq] at hmarker
  exact prefix_of_width_le hmarker.symm hfits

end Disk

/-- The class that a marker stands in front of is cut out of a file and delivered, and nothing else
is done; a run that finds no class changes nothing. What was cut out is cut out of itself. All this
holds however diagnostics are shown. -/
theorem extract_exact {d : Disk} {output : Option String} (hwrite : d.Accepts output)
    (render : Renderer) (verbose : Bool) (path marker : String) :
    let result := d.perform render ⟨verbose, .extract path marker output⟩
    (result.1.code = 0 ↔ ∃ text offset c, d.Finds path marker text offset c) ∧
    (result.1.code ≠ 0 → result.2 = d) ∧
    ∀ text offset c, d.Finds path marker text offset c →
      d.Delivers output c.reconstruct result ∧
      (∃ front rest, text.toList = front ++ c.reconstruct.toList ++ rest ∧ width front = offset) ∧
      c.EndsWithBrace ∧
      (width marker.toList ≤ width c.reconstruct.toList →
        ∀ (d₂ : Disk) (render₂ : Renderer) (verbose₂ : Bool) (path₂ : String)
          (output₂ : Option String), d₂.Accepts output₂ → d₂.read path₂ = .ok c.reconstruct →
          d₂.Delivers output₂ c.reconstruct
            (d₂.perform render₂ ⟨verbose₂, .extract path₂ marker output₂⟩)) := by
  intro result
  -- Either there is a class to deliver, or the run fails and leaves the disk as it is.
  by_cases hfinds : ∃ text offset c, d.Finds path marker text offset c
  · obtain ⟨text, offset, c, hc⟩ := hfinds
    have hcode := (hc.delivers hwrite render verbose).1
    refine ⟨⟨fun _ => ⟨text, offset, c, hc⟩, fun _ => hcode⟩, fun h => absurd hcode h, ?_⟩
    intro text offset c hc
    obtain ⟨front, cs, us, after, r, htext, hwidth, hcs, hcloses⟩ := hc.exists_closes
    rw [hcs, ← List.append_assoc] at htext
    refine ⟨hc.delivers hwrite render verbose, ⟨front, r, htext, hwidth⟩, hcloses.endsWithBrace, ?_⟩
    -- The class alone begins with the marker again, so it is found in any file that holds it.
    intro hfits d₂ render₂ verbose₂ path₂ output₂ hwrite₂ hread
    exact (hc.again hfits hread).delivers hwrite₂ render₂ verbose₂
  · have hnone : ∀ text offset c, ¬d.Finds path marker text offset c :=
      fun text offset c hc => hfinds ⟨text, offset, c, hc⟩
    obtain ⟨hcode, hdisk⟩ : result.1.code = 1 ∧ result.2 = d :=
      Disk.perform_extract_of_not_finds hnone render verbose
    refine ⟨⟨fun h => ?_, fun h => absurd h hfinds⟩, fun _ => hdisk, ?_⟩
    · rw [hcode] at h
      cases h
    · intro text offset c hc
      exact absurd hc (hnone text offset c)

/-- A class in a class. -/
def nestedSource : String := "class A \x7b class B \x7b int x; \x7d // b\n \x7d"

/-- A disk with the classes in a file in a directory. -/
def sourceDisk : Disk := .ofFiles [("src/a.cs", nestedSource.toUTF8)]

/-- The inner class is extracted into a second file and then out of that file. -/
theorem extract_exact_nested :
    sourceDisk.Accepts (some "src/b.cs") ∧
    (∃ c, sourceDisk.Finds "src/a.cs" "class B" nestedSource 10 c ∧
      c.reconstruct = "class B \x7b int x; \x7d " ∧ c.EndsWithBrace ∧
      ∃ t d, sourceDisk.perform Diagnostic.render
          ⟨false, .extract "src/a.cs" "class B" (some "src/b.cs")⟩ = (t, d) ∧
        sourceDisk.Delivers (some "src/b.cs") c.reconstruct (t, d) ∧
        d.Delivers none c.reconstruct
          (d.perform Diagnostic.render ⟨true, .extract "src/b.cs" "class B" none⟩)) ∧
    (sourceDisk.perform Diagnostic.render
      ⟨false, .extract "src/a.cs" "int" (some "src/b.cs")⟩).2 = sourceDisk := by
  have haccepts : sourceDisk.Accepts (some "src/b.cs") := by
    rintro _ ⟨⟩ text
    exact ⟨_, rfl⟩
  have hread : sourceDisk.read "src/a.cs" = .ok nestedSource := by
    show decodeText nestedSource.toUTF8 = _
    exact Disk.decodeText_toUTF8 _
  -- The source is parsed by evaluation; that it is delivered is the theorem, used twice.
  have hfirst : FirstAt "class B".toList nestedSource.toList 10 :=
    offsetOf?_eq_some_iff.1 (by decide +kernel)
  have hsome : ∃ c ∈ (parseDeclarationAt nestedSource 10).toOption,
      c.reconstruct = "class B \x7b int x; \x7d " := by
    decide +kernel
  have hfail : (sourceDisk.perform Diagnostic.render
      ⟨false, .extract "src/a.cs" "int" (some "src/b.cs")⟩).1.code ≠ 0 := by
    decide +kernel
  refine ⟨haccepts, ?_, (extract_exact haccepts Diagnostic.render false "src/a.cs" "int").2.1 hfail⟩
  obtain ⟨c, hc, htext⟩ := hsome
  have hfinds : sourceDisk.Finds "src/a.cs" "class B" nestedSource 10 c :=
    ⟨hread, hfirst, eq_ok_of_mem_toOption hc⟩
  obtain ⟨hdelivers, -, hbrace, hagain⟩ :=
    (extract_exact haccepts Diagnostic.render false "src/a.cs" "class B").2.2 _ _ _ hfinds
  refine ⟨c, hfinds, htext, hbrace, _, _, rfl, hdelivers, ?_⟩
  refine hagain ?_ _ Diagnostic.render true "src/b.cs" none nofun hdelivers.2.2.1
  rw [htext]
  decide +kernel

end Lossless
