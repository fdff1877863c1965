import Lading.Proofs.Version.Order
import Lading.Selector.Basic

namespace Lading

open Version

namespace Comparator

variable {c : Comparator} {place : Place} {w : Version}

/-- The place at which the bound of a range counts on. -/
def place? (c : Comparator) : Option Place :=
  match c.operator with
  | .tilde => some .minor
  | .caret => some c.version.leading
  | _ => none

theorem map_next? {α : Type} (f : UInt64 → α) (n : UInt64) :
    (next? n).map f = if n = lastNumber then none else some (f (n + 1)) := by
  have hlt : n.toNat < 18446744073709551616 := n.toNat_lt
  have hlast : n.toNat + 1 < UInt64.size ↔ ¬ n = lastNumber := by
    rw [← UInt64.toNat_inj, lastNumber]
    simp only [UInt64.size, UInt64.reduceToNat]
    omega
  simp only [next?, hlast]
  by_cases hn : n = lastNumber <;> simp [hn]

theorem upperBound?_eq (h : c.place? = some place) : c.upperBound? =
    if c.version.number place = lastNumber then none else some (c.version.bump place) := by
  obtain ⟨operator, v⟩ := c
  cases operator with
  | tilde =>
    cases h
    exact map_next? _ v.minor
  | caret =>
    cases h
    by_cases hmajor : v.major = 0
    · by_cases hminor : v.minor = 0 <;>
        simp [upperBound?, map_next?, leading, number, bump, hmajor, hminor]
    · simp [upperBound?, map_next?, leading, number, bump, hmajor]
  | exact | notEqual | less | lessEq | greater | greaterEq => cases h

theorem accepts_iff (h : c.place? = some place) : c.accepts w ↔ w.precedence c.version ≠ .lt ∧
    (c.version.number place ≠ lastNumber → w.precedence (c.version.bump place) = .lt) := by
  have hbound := upperBound?_eq h
  obtain ⟨operator, v⟩ := c
  cases operator with
  | tilde | caret =>
    simp only [accepts, hbound, Bool.and_eq_true, bne_iff_ne]
    split <;> simp_all
  | exact | notEqual | less | lessEq | greater | greaterEq => cases h

theorem admitsPreRelease_iff : c.admitsPreRelease w ↔
    c.version.isPreRelease ∧ c.version.SharesLine w .patch := by
  rw [admitsPreRelease, Bool.and_eq_true, beq_iff_eq, compareRelease_eq_iff]

theorem accepts_alone_iff (h : c.place? = some place) : Selector.accepts ⟨[[c]]⟩ w ↔
    w.precedence c.version ≠ .lt ∧
      (w.isPreRelease → c.version.isPreRelease ∧ c.version.SharesLine w .patch) ∧
      (c.version.SharesLine w place ∨ c.version.number place = lastNumber) := by
  have halone : Selector.accepts ⟨[[c]]⟩ w ↔
      (w.isPreRelease → c.admitsPreRelease w) ∧ c.accepts w := by
    cases hw : w.isPreRelease <;> simp [Selector.accepts, Group.accepts, hw]
  rw [halone, admitsPreRelease_iff, accepts_iff h]
  constructor
  · rintro ⟨hpre, hle, hlt⟩
    refine ⟨hle, hpre, ?_⟩
    by_cases hlast : c.version.number place = lastNumber
    · exact .inr hlast
    · exact .inl ((lt_bump_iff hlast hle fun hw ↦ (hpre hw).2).1 (hlt hlast))
  · rintro ⟨hle, hpre, hline⟩
    refine ⟨hpre, hle, ?_⟩
    intro hlast
    exact (lt_bump_iff hlast hle fun hw ↦ (hpre hw).2).2 (hline.resolve_right hlast)

end Comparator

/-- A range takes the versions that are not lower and on its release line. Where the number after
the line cannot be counted on, the line has no end. -/
theorem Selector.accepts_range (v w : Version) :
    ((⟨[[⟨.tilde, v⟩]]⟩ : Selector).accepts w ↔ w.precedence v ≠ .lt ∧
      (w.isPreRelease → v.isPreRelease ∧ v.SharesLine w .patch) ∧
      (w.major = v.major ∧ w.minor = v.minor ∨ v.minor = lastNumber)) ∧
    ((⟨[[⟨.caret, v⟩]]⟩ : Selector).accepts w ↔ w.precedence v ≠ .lt ∧
      (w.isPreRelease → v.isPreRelease ∧ v.SharesLine w .patch) ∧
      ((w.major = v.major ∧ (v.major = 0 → w.minor = v.minor) ∧
        (v.major = 0 → v.minor = 0 → w.patch = v.patch)) ∨ v.number v.leading = lastNumber)) := by
  constructor
  · exact Comparator.accepts_alone_iff (c := ⟨.tilde, v⟩) rfl
  · rw [← sharesLine_leading_iff]
    exact Comparator.accepts_alone_iff (c := ⟨.caret, v⟩) rfl

/-- No release line ends with the last minor number: `~1.18446744073709551615.0` takes `2.0.0`. -/
theorem Selector.accepts_overrun : ¬ ∀ v w : Version,
    ((⟨[[⟨.tilde, v⟩]]⟩ : Selector).accepts w ↔ w.precedence v ≠ .lt ∧
      (w.isPreRelease → v.isPreRelease ∧ v.SharesLine w .patch) ∧
      w.major = v.major ∧ w.minor = v.minor) := by
  intro h
  have hline := (h (release 1 lastNumber 0) (release 2 0 0)).1 (by decide)
  exact absurd hline.2.2.1 (by decide)

/-- A clause, and the clauses that may stand for it: itself, or the two ends of its range. -/
inductive Comparator.Expands : Comparator → List Comparator → Prop
  | keep (c : Comparator) : Expands c [c]
  | ends {c : Comparator} {place : Place} (hplace : c.place? = some place)
      (hlast : c.version.number place ≠ lastNumber) :
      Expands c [⟨.greaterEq, c.version⟩, ⟨.less, c.version.bump place⟩]

inductive Group.Expands : Group → Group → Prop
  | nil : Expands [] []
  | cons {c : Comparator} {clauses : List Comparator} {group expanded : Group}
      (hc : c.Expands clauses) (hgroup : Expands group expanded) :
      Expands (c :: group) (clauses ++ expanded)

def Selector.Expands (s expanded : Selector) : Prop :=
  List.Forall₂ Group.Expands s.alternatives expanded.alternatives

section Expansion

variable {c : Comparator} {clauses : List Comparator} {group expanded : Group}

theorem Comparator.Expands.ne_nil (h : c.Expands clauses) : clauses ≠ [] := by
  cases h <;> simp

theorem Comparator.Expands.accepts (h : c.Expands clauses) (w : Version) :
    clauses.all (·.accepts w) = c.accepts w := by
  cases h with
  | keep => simp
  | ends hplace hlast =>
    rw [Bool.eq_iff_iff, accepts_iff hplace]
    simp [Comparator.accepts, hlast]

theorem Comparator.Expands.admits (h : c.Expands clauses) (w : Version) :
    clauses.any (·.admitsPreRelease w) = c.admitsPreRelease w := by
  cases h with
  | keep => simp
  | ends =>
    -- The bound is a release, so only the lower end can let a pre-release in.
    simp [admitsPreRelease, isPreRelease]

theorem Group.Expands.facts (h : group.Expands expanded) (w : Version) :
    expanded.isEmpty = group.isEmpty ∧
      expanded.any (·.admitsPreRelease w) = group.any (·.admitsPreRelease w) ∧
      expanded.all (·.accepts w) = group.all (·.accepts w) := by
  induction h with
  | nil => exact ⟨rfl, rfl, rfl⟩
  | cons hc hgroup ih =>
    obtain ⟨-, hadmits, haccepts⟩ := ih
    refine ⟨by simp [hc.ne_nil], ?_, ?_⟩
    · rw [List.any_append, List.any_cons, hc.admits w, hadmits]
    · rw [List.all_append, List.all_cons, hc.accepts w, haccepts]

theorem Group.Expands.accepts (h : group.Expands expanded) (w : Version) :
    expanded.accepts w = group.accepts w := by
  obtain ⟨hempty, hadmits, haccepts⟩ := h.facts w
  rw [Group.accepts, Group.accepts, hempty, hadmits, haccepts]

end Expansion

/-- Ranges are short for their two ends, also for pre-releases and in any company. -/
theorem Selector.accepts_expanded {s expanded : Selector} (h : s.Expands expanded) (w : Version) :
    expanded.accepts w = s.accepts w := by
  obtain ⟨groups⟩ := s
  obtain ⟨groups'⟩ := expanded
  change groups'.any (·.accepts w) = groups.any (·.accepts w)
  have hgroups : List.Forall₂ Group.Expands groups groups' := h
  induction hgroups with
  | nil => rfl
  | cons hgroup hrest ih => rw [List.any_cons, List.any_cons, hgroup.accepts w, ih hrest]

namespace Selector

def ranges : Selector :=
  ⟨[[⟨.caret, ⟨0, 2, 3, ["rc", "1"], []⟩⟩, ⟨.notEqual, release 0 2 5⟩],
    [⟨.tilde, release 1 2 3⟩]]⟩

def rangesExpanded : Selector :=
  ⟨[[⟨.greaterEq, ⟨0, 2, 3, ["rc", "1"], []⟩⟩, ⟨.less, release 0 3 0⟩, ⟨.notEqual, release 0 2 5⟩],
    [⟨.greaterEq, release 1 2 3⟩, ⟨.less, release 1 3 0⟩]]⟩

theorem expands_ranges : ranges.Expands rangesExpanded := by
  have hcaret : Comparator.place? ⟨.caret, ⟨0, 2, 3, ["rc", "1"], []⟩⟩ = some .minor := rfl
  have htilde : Comparator.place? ⟨.tilde, release 1 2 3⟩ = some .minor := rfl
  have hfirst := Group.Expands.cons (.ends hcaret (by decide))
    (.cons (.keep ⟨.notEqual, release 0 2 5⟩) .nil)
  have hsecond := Group.Expands.cons (.ends htilde (by decide)) .nil
  exact .cons hfirst (.cons hsecond .nil)

theorem accepts_expanded_ranges : ranges.Expands rangesExpanded ∧
    rangesExpanded.accepts ⟨0, 2, 3, ["rc", "2"], []⟩ = true ∧
    rangesExpanded.accepts ⟨0, 3, 0, ["rc", "2"], []⟩ = false := by
  refine ⟨expands_ranges, ?_, ?_⟩
  · rw [accepts_expanded expands_ranges]
    decide
  · rw [accepts_expanded expands_ranges]
    decide

end Selector

end Lading
