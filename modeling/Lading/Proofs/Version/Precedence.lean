import Lading.Version.Basic
import Mathlib.Data.UInt
import Mathlib.Order.Compare

namespace Lading.Version

open Std

theorem compareIdentifier_eq : compareIdentifier =
    compareLex (compareOn (!isNumeric ·))
      (compareLex (compareOn fun s ↦ if isNumeric s then s.length else 0) compare) := by
  have hgt : compare true false = .gt := rfl
  have hlt : compare false true = .lt := rfl
  funext a b
  cases ha : isNumeric a <;> cases hb : isNumeric b <;>
    simp [compareIdentifier, compareLex, compareOn, ha, hb, hgt, hlt]

/-- The empty list comes last, and all others are ordered identifier by identifier. -/
theorem comparePreRelease_eq : comparePreRelease =
    compareLex (compareOn List.isEmpty) (List.compareLex compareIdentifier) := by
  funext a b
  cases a with
  | nil => cases b <;> rfl
  | cons x a =>
    cases b with
    | nil => rfl
    | cons y b => simp [comparePreRelease, compareLex, compareOn]

instance transCmp_identifier : TransCmp compareIdentifier := by
  rw [compareIdentifier_eq]
  infer_instance

instance transCmp_preRelease : TransCmp comparePreRelease := by
  rw [comparePreRelease_eq]
  infer_instance

instance transCmp_release : TransCmp compareRelease :=
  inferInstanceAs (TransCmp (compareLex (compareOn major)
    (compareLex (compareOn minor) (compareOn patch))))

instance transCmp_precedence : TransCmp precedence :=
  inferInstanceAs (TransCmp (compareLex compareRelease
    (Ordering.byKey preRelease comparePreRelease)))

end Lading.Version
