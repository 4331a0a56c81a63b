import Lossless.Proofs.Schema

/-!
# Taking conforming nodes apart

The children of a conforming node match a pattern, and what the pattern says about symbols is said
here about the children themselves: those that match a sequence of patterns fall into parts
(`exists_parts`), a single symbol is that of a single child, and no child has a symbol that does not
occur in the pattern (`mem_symbols`).
-/

namespace Lossless

/-! ## Nodes told by their symbols -/

namespace Node

variable {n : Node} {k : Kind}

theorem eq_tree_of_symbol (h : n.symbol = .tree k) : ∃ cs, n = .tree k cs := by
  cases n with
  | token t =>
    simp only [symbol] at h
    split at h <;> cases h
  | tree k' cs =>
    cases h
    exact ⟨cs, rfl⟩

theorem eq_token_of_symbol (h : n.symbol = .terminal k) : ∃ t, n = .token t ∧ t.kind = k := by
  cases n with
  | token t =>
    simp only [symbol] at h
    split at h
    · cases h
    · cases h
      exact ⟨t, rfl, rfl⟩
  | tree k' cs => cases h

/-- The symbol of the word `class` is that of one token only, by kind and text. -/
theorem eq_token_of_classWord (h : n.symbol = .classWord) :
    ∃ t, n = .token t ∧ t.kind = .ident ∧ t.text = "class" := by
  cases n with
  | token t =>
    simp only [symbol] at h
    split at h
    · rename_i hword
      exact ⟨t, rfl, hword⟩
    · cases h
  | tree k' cs => cases h

end Node

namespace Pattern

open RegularExpression

variable {p q : Pattern} {ns : List Node}

/-! ## Parts -/

/-- Nodes that match two patterns in a row fall into two parts. -/
theorem exists_parts (h : ns.map Node.symbol ∈ (p * q).matches') :
    ∃ as bs, ns = as ++ bs ∧ as.map Node.symbol ∈ p.matches' ∧
      bs.map Node.symbol ∈ q.matches' := by
  obtain ⟨u, hu, v, hv, huv⟩ := Language.mem_mul.1 h
  obtain ⟨as, bs, rfl, rfl, rfl⟩ := List.map_eq_append_iff.1 huv.symm
  exact ⟨as, bs, rfl, hu, hv⟩

/-- Nodes that match a single symbol are one node with that symbol. -/
theorem exists_of_char {a : Symbol} (h : ns.map Node.symbol ∈ (char a).matches') :
    ∃ n, ns = [n] ∧ n.symbol = a := by
  obtain ⟨n, rest, rfl, hn, hrest⟩ := List.map_eq_cons_iff.1 (Set.mem_singleton_iff.1 h)
  cases List.map_eq_nil_iff.1 hrest
  exact ⟨n, rfl, hn⟩

/-- Nodes that match a terminal are one terminal of that kind. -/
theorem exists_of_terminal {k : Kind} (h : ns.map Node.symbol ∈ (terminal k).matches') :
    ∃ t, ns = [.token t] ∧ t.kind = k := by
  unfold terminal at h
  split at h
  · rename_i hk
    rcases h with h | h
    · obtain ⟨n, rfl, hn⟩ := exists_of_char h
      obtain ⟨t, rfl, ht⟩ := Node.eq_token_of_symbol hn
      exact ⟨t, rfl, ht.trans hk.symm⟩
    · -- The word `class` is a word as well.
      obtain ⟨n, rfl, hn⟩ := exists_of_char h
      obtain ⟨t, rfl, ht, -⟩ := Node.eq_token_of_classWord hn
      exact ⟨t, rfl, ht.trans hk.symm⟩
  · obtain ⟨n, rfl, hn⟩ := exists_of_char h
    obtain ⟨t, rfl, ht⟩ := Node.eq_token_of_symbol hn
    exact ⟨t, rfl, ht⟩

/-- The last of some nodes whose symbols end with a given one. -/
theorem exists_last {a : Symbol} (h : ns.map Node.symbol ∈ (p * char a).matches') :
    ∃ front n, ns = front ++ [n] ∧ n.symbol = a := by
  obtain ⟨front, last, rfl, -, hlast⟩ := exists_parts h
  obtain ⟨n, rfl, hn⟩ := exists_of_char hlast
  exact ⟨front, n, rfl, hn⟩

/-! ## Symbols -/

/-- The symbols that occur in a pattern. -/
def symbols : Pattern → List Symbol
  | .zero => []
  | .epsilon => []
  | .char a => [a]
  | .plus p q => symbols p ++ symbols q
  | .comp p q => symbols p ++ symbols q
  | .star p => symbols p

/-- What matches a pattern is made of symbols that occur in it. -/
theorem mem_symbols {w : List Symbol} (h : w ∈ p.matches') : ∀ a ∈ w, a ∈ p.symbols := by
  -- By induction on the pattern, as the symbols of it are collected.
  induction p generalizing w with
  | zero => cases h
  | epsilon =>
    cases h
    simp
  | char a =>
    cases h
    simp [symbols]
  | plus p q hp hq =>
    intro a ha
    rcases h with h | h
    · exact List.mem_append_left _ (hp h a ha)
    · exact List.mem_append_right _ (hq h a ha)
  | comp p q hp hq =>
    obtain ⟨u, hu, v, hv, rfl⟩ := Language.mem_mul.1 h
    intro a ha
    rcases List.mem_append.1 ha with ha | ha
    · exact List.mem_append_left _ (hp hu a ha)
    · exact List.mem_append_right _ (hq hv a ha)
  | star p hp =>
    obtain ⟨words, rfl, hwords⟩ := Language.mem_kstar.1 h
    intro a ha
    obtain ⟨word, hword, ha⟩ := List.mem_flatten.1 ha
    exact hp (hwords word hword) a ha

end Pattern

end Lossless
