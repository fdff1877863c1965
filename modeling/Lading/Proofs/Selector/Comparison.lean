import Lading.Predicate.Eval
import Lading.Proofs.Predicate.Text
import Lading.Proofs.Selector.Spelling

namespace Lading

open Text

def Comparison.operator : Comparison → Operator
  | .lt => .less
  | .gt => .greater
  | .le => .lessEq
  | .ge => .greaterEq
  | .eq => .exact
  | .ne => .notEqual

namespace Comparison

theorem symbol_mem_spellings (comparison : Comparison) :
    (comparison.symbol.toList, comparison.operator) ∈ Operator.spellings := by
  cases comparison <;> decide

theorem accepts_operator (comparison : Comparison) (version v : Version) :
    Comparator.accepts ⟨comparison.operator, version⟩ v =
      comparison.holds (v.precedence version) := by
  cases comparison <;> rfl

end Comparison

theorem Version.compareFull_of_build {v w : Version} (hv : v.build = []) (hw : w.build = []) :
    v.compareFull w = v.precedence w := by
  have hbuild : compareBuild v.build w.build = .eq := by rw [hv, hw]; rfl
  rw [compareFull, hbuild, Ordering.then_eq]

theorem Lexer.isLiteralChar_of_isTextChar {c : Char} (h : Version.isTextChar c) :
    isLiteralChar c := by
  have hne (d : Char) (hd : Version.isTextChar d = false) : c ≠ d := by
    rintro rfl
    rw [h] at hd
    cases hd
  simp [isLiteralChar, Version.isGraphic_of_isTextChar h, hne '(' (by decide),
    hne ')' (by decide), hne '<' (by decide), hne '>' (by decide), hne '=' (by decide),
    hne '!' (by decide)]

theorem Predicate.denotes_version {name : String} (hname : IsWord Char.isAlphanum name)
    (comparison : Comparison) {version : Version} (hversion : version.IsStrict)
    {front back : List Char} (hfront : IsBlanks front) (hback : IsBlanks back) :
    Denotes (name.toList ++ ' ' :: comparison.symbol.toList ++ ' ' :: front ++ version.text ++ back)
      (.compared name comparison (toString version)) := by
  have hblank : IsBlanks [' '] := by decide
  have hfront' : IsBlanks (' ' :: front) := hblank.append hfront
  obtain ⟨d, more, htext, -⟩ := version.text_eq_cons
  have hrun : IsRun Char.isAlphanum [] name.toList
      ([' '] ++ comparison.symbol.toList ++ (' ' :: front) ++ version.text ++ back) :=
    ⟨hname.1, hname.2, by simp, by simp⟩
  have hliteral : IsRun Lexer.isLiteralChar
      ([] ++ name.toList ++ [' '] ++ comparison.symbol.toList ++ (' ' :: front))
      version.text back :=
    { ne_nil := by simp [htext]
      all := fun c hc ↦ Lexer.isLiteralChar_of_isTextChar (hversion.isTextChar_text c hc)
      starts := Lexer.not_isLiteralChar_of_getLast? hfront'
      ends := fun c hc ↦
        hback.none Lexer.not_isBlank_of_isLiteralChar c (List.mem_of_mem_head? hc) }
  have hdenotes := Denotes.compared isBlanks_nil hblank hfront' hback hrun hliteral
  simpa [toString] using hdenotes

namespace Selector

theorem accepts_single {operator : Operator} {version : Version} (major minor patch : UInt64) :
    accepts ⟨[[⟨operator, version⟩]]⟩ (.release major minor patch) =
      Comparator.accepts ⟨operator, version⟩ (.release major minor patch) := by
  simp [accepts, Group.accepts, Version.isPreRelease, Version.release]

theorem read_signed (comparison : Comparison) {version : Version} (hversion : version.IsStrict)
    {front back : List Char} (hfront : IsBlanks front) (hback : IsBlanks back) :
    read (comparison.symbol.toList ++ front ++ version.text ++ back) =
      .ok ⟨[[⟨comparison.operator, version⟩]]⟩ := by
  have hclause := Comparator.Spelled.signed (c := ⟨comparison.operator, version⟩)
    comparison.symbol_mem_spellings hfront hversion
  exact (Spelled.one isBlanks_nil (.clause hclause) hback).read

end Selector

theorem Context.compare_version {c : Context} {name : String} {v version : Version}
    (hcoercion : c.coercions .version = some Coercion.toVersion)
    (hvar : c.vars.get? name = some (.version v)) (hversion : version.IsStrict)
    (comparison : Comparison) :
    c.compare name comparison (toString version) =
      .ok (comparison.holds (v.compareFull version)) := by
  have hcoerce : c.coerce .version (toString version) = .ok (.version version) := by
    simp only [coerce, hcoercion, Coercion.toVersion]
    rw [show (toString version).toList = version.text from String.toList_ofList,
      Version.read_text hversion]
    rfl
  simp only [compare, get, hvar, Except.mapError, ok_bind, Value.kind, hcoerce, Value.compare?]
  rfl

/-- A variable that is a release is compared with a version in a predicate as a selector of that
version compares it, whatever the pre-release of the version. Blanks around the version do not
matter to either. -/
theorem Selector.eval_compared {name literal : String} {version : Version} {c : Context}
    {major minor patch : UInt64} (hname : Predicate.IsWord Char.isAlphanum name)
    (hliteral : Version.parse literal = .ok version) (hbuild : version.build = [])
    (hcoercions : c.coercions = Context.standard.coercions)
    (hvar : c.vars.get? name = some (.version (.release major minor patch)))
    (comparison : Comparison) :
    ∃ p selector, Predicate.parse (name ++ " " ++ comparison.symbol ++ " " ++ literal) = .ok p ∧
      parse (comparison.symbol ++ literal) = .ok selector ∧
      p.eval c = (.ok (selector.accepts (.release major minor patch)), c) := by
  obtain ⟨front, back, hfront, hback, hsplit⟩ := exists_blanks_trim literal.toList
  obtain ⟨hversion, htext⟩ := Version.eq_text_of_read (ok_of_mapError hliteral)
  rw [htext] at hsplit
  refine ⟨.compared name comparison (toString version), ⟨[[⟨comparison.operator, version⟩]]⟩,
    ?_, ?_, ?_⟩
  · rw [Predicate.parse_eq_ok_iff]
    have hdenotes := Predicate.denotes_version hname comparison hversion hfront hback
    simpa [hsplit] using hdenotes
  · have hread := read_signed comparison hversion hfront hback
    have hinput : (comparison.symbol ++ literal).toList =
        comparison.symbol.toList ++ front ++ version.text ++ back := by simp [hsplit]
    rw [parse, hinput, hread]
    rfl
  · have hcoercion : c.coercions .version = some Coercion.toVersion := by rw [hcoercions]; rfl
    have hcompare := Context.compare_version hcoercion hvar hversion comparison
    rw [Version.compareFull_of_build rfl hbuild] at hcompare
    simp only [Predicate.eval, hcompare, accepts_single, Comparison.accepts_operator]

/-- Build metadata tells a version from the release for a predicate, and not for a selector. -/
example : Comparison.eq.holds ((Version.release 1 0 0).compareFull ⟨1, 0, 0, [], ["b"]⟩) = false ∧
    Comparator.accepts ⟨Comparison.eq.operator, ⟨1, 0, 0, [], ["b"]⟩⟩ (.release 1 0 0) = true := by
  decide

theorem Selector.eval_compared_preRelease :
    let c := Context.standard.set "x" (.version (.release 1 2 0))
    ∃ p selector, Predicate.parse ("x" ++ " " ++ ">" ++ " " ++ "1.2.0-rc.1") = .ok p ∧
      parse (">" ++ "1.2.0-rc.1") = .ok selector ∧
      p.eval c = (.ok (selector.accepts (.release 1 2 0)), c) := by
  intro c
  have hname : Predicate.IsWord Char.isAlphanum "x" := by simp [Predicate.IsWord]
  have hliteral : Version.parse "1.2.0-rc.1" = .ok ⟨1, 2, 0, ["rc", "1"], []⟩ := rfl
  have hvar : c.vars.get? "x" = some (.version (.release 1 2 0)) := rfl
  exact eval_compared (c := c) hname hliteral rfl rfl hvar .gt

end Lading
