import Lading.Proofs.Predicate.Grammar

namespace Lading.Predicate

open Lexer Text

def IsWord (p : Char → Bool) (word : String) : Prop := word.toList ≠ [] ∧ ∀ c ∈ word.toList, p c

/-- Only an atom stands left of a connective, and names and literals are words. -/
def IsPlain : Predicate → Prop
  | .atom name => IsWord Char.isAlphanum name
  | .joined left _ right => (∃ name, left = .atom name) ∧ left.IsPlain ∧ right.IsPlain
  | .compared name _ literal => IsWord Char.isAlphanum name ∧ IsWord isLiteralChar literal

theorem isWord_of_isRun {p : Char → Bool} {before run after : List Char}
    (h : IsRun p before run after) : IsWord p (String.ofList run) := by
  rw [IsWord, String.toList_ofList]
  exact ⟨h.ne_nil, h.all⟩

theorem Denotes.isPlain {s : List Char} {p : Predicate} (h : Denotes s p) : p.IsPlain := by
  induction h with
  | atom hs hs₁ hname => exact isWord_of_isRun hname
  | compared hs hs₁ hs₂ hs₃ hname hliteral =>
    exact ⟨isWord_of_isRun hname, isWord_of_isRun hliteral⟩
  | joined hs hs₁ hname hright hp ih => exact ⟨⟨_, rfl⟩, isWord_of_isRun hname, ih⟩
  | parenthesized hs hs₁ hp ih => exact ih

theorem Denotes.blanks_append {s blanks : List Char} {p : Predicate} (h : Denotes s p)
    (hblanks : IsBlanks blanks) : Denotes (blanks ++ s) p := by
  have hstarts {t : List Char} (ht : IsBlanks t) : IsBlanks (blanks ++ t) := hblanks.append ht
  have hrun {t name rest : List Char} (ht : IsBlanks t)
      (hname : IsRun Char.isAlphanum t name rest) : IsRun Char.isAlphanum (blanks ++ t) name rest :=
    { hname with starts := fun c hc ↦
        (hstarts ht).none not_isBlank_of_isAlphanum c (List.mem_of_mem_getLast? hc) }
  cases h with
  | atom hs hs₁ hname =>
    simp only [← List.append_assoc]
    exact .atom (hstarts hs) hs₁ (hrun hs hname)
  | compared hs hs₁ hs₂ hs₃ hname hliteral =>
    simp only [← List.append_assoc]
    refine .compared (hstarts hs) hs₁ hs₂ hs₃ (hrun hs hname)
      { hliteral with starts := not_isLiteralChar_of_getLast? hs₂ }
  | joined hs hs₁ hname hright hp =>
    simp only [← List.append_assoc]
    exact .joined (hstarts hs) hs₁ (hrun hs hname) hright hp
  | parenthesized hs hs₁ hp =>
    simp only [← List.append_assoc]
    exact .parenthesized (hstarts hs) hs₁ hp

theorem IsPlain.denotes {p : Predicate} (h : p.IsPlain) : Denotes p.text p := by
  have hblank : IsBlanks [' '] := by decide
  induction p with
  | atom name =>
    have hname : IsRun Char.isAlphanum [] name.toList [] := ⟨h.1, h.2, by simp, by simp⟩
    have hdenotes := Denotes.atom isBlanks_nil isBlanks_nil hname
    rwa [List.nil_append, List.append_nil, String.ofList_toList] at hdenotes
  | compared name comparison literal =>
    obtain ⟨hname, hliteral⟩ := h
    have hrun : IsRun Char.isAlphanum [] name.toList
        ([' '] ++ comparison.symbol.toList ++ [' '] ++ literal.toList ++ []) :=
      ⟨hname.1, hname.2, by simp, by simp⟩
    have hvalue : IsRun isLiteralChar
        ([] ++ name.toList ++ [' '] ++ comparison.symbol.toList ++ [' ']) literal.toList [] :=
      ⟨hliteral.1, hliteral.2, not_isLiteralChar_of_getLast? hblank, by simp⟩
    have hdenotes := Denotes.compared isBlanks_nil hblank hblank isBlanks_nil hrun hvalue
    simpa [text] using hdenotes
  | joined left connective right ihl ihr =>
    obtain ⟨⟨name, rfl⟩, hname, hright⟩ := h
    have hrun : IsRun Char.isAlphanum [] name.toList
        ([' '] ++ connective.symbol.toList ++ ([' '] ++ right.text)) :=
      ⟨hname.1, hname.2, by simp, by simp⟩
    have hdenotes := Denotes.joined isBlanks_nil hblank hrun (by simp)
      ((ihr hright).blanks_append hblank)
    simpa [text] using hdenotes

/-- What is written reads back as what it was exactly if it is plain, and so is all that is read. -/
theorem parse_text_iff (p : Predicate) : (parse (toString p) = .ok p ↔ p.IsPlain) ∧
    ((∃ source, parse source = .ok p) ↔ p.IsPlain) := by
  have hplain {source : String} (h : parse source = .ok p) : p.IsPlain :=
    (parse_eq_ok_iff.1 h).isPlain
  have htext (h : p.IsPlain) : parse (toString p) = .ok p := by
    rw [parse_eq_ok_iff, show toString p = String.ofList p.text from rfl, String.toList_ofList]
    exact h.denotes
  exact ⟨⟨hplain, htext⟩, ⟨fun ⟨_, h⟩ ↦ hplain h, fun h ↦ ⟨_, htext h⟩⟩⟩

end Lading.Predicate
