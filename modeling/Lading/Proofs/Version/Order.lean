import Lading.Version.Basic
import Mathlib.Data.UInt
import Mathlib.Order.Compare

namespace Lading.Version

inductive Place
  | major | minor | patch
deriving DecidableEq, Repr

def number (v : Version) : Place → UInt64
  | .major => v.major
  | .minor => v.minor
  | .patch => v.patch

def leading (v : Version) : Place :=
  if v.major ≠ 0 then .major else if v.minor ≠ 0 then .minor else .patch

/-- The release that counts on at a place. -/
def bump (v : Version) : Place → Version
  | .major => release (v.major + 1) 0 0
  | .minor => release v.major (v.minor + 1) 0
  | .patch => release v.major v.minor (v.patch + 1)

def SharesLine (v w : Version) : Place → Prop
  | .major => w.major = v.major
  | .minor => w.major = v.major ∧ w.minor = v.minor
  | .patch => w.major = v.major ∧ w.minor = v.minor ∧ w.patch = v.patch

def lastNumber : UInt64 := 18446744073709551615

theorem lt_add_one_iff {m n : UInt64} (h : n ≠ lastNumber) : m < n + 1 ↔ m ≤ n := by
  have hn : n.toNat ≠ 18446744073709551615 := fun heq ↦ h (UInt64.toNat_inj.1 heq)
  have hlt : n.toNat < 18446744073709551616 := n.toNat_lt
  rw [UInt64.lt_iff_toNat_lt, UInt64.le_iff_toNat_le, UInt64.toNat_add, UInt64.toNat_one]
  omega

variable {v w : Version} {place : Place}

theorem sharesLine_leading_iff : v.SharesLine w v.leading ↔ w.major = v.major ∧
    (v.major = 0 → w.minor = v.minor) ∧ (v.major = 0 → v.minor = 0 → w.patch = v.patch) := by
  by_cases hmajor : v.major = 0
  · by_cases hminor : v.minor = 0 <;> simp [leading, SharesLine, hmajor, hminor]
  · simp [leading, SharesLine, hmajor]

theorem SharesLine.mono (h : v.SharesLine w .patch) (place : Place) : v.SharesLine w place := by
  obtain ⟨hmajor, hminor, hpatch⟩ := h
  cases place with
  | major => exact hmajor
  | minor => exact ⟨hmajor, hminor⟩
  | patch => exact ⟨hmajor, hminor, hpatch⟩

@[simp] theorem preRelease_bump (v : Version) (place : Place) : (v.bump place).preRelease = [] := by
  cases place <;> rfl

theorem compareRelease_eq_iff : compareRelease v w = .eq ↔ v.SharesLine w .patch := by
  simp only [compareRelease, Ordering.then_eq_eq, Std.compare_eq_iff_eq, SharesLine,
    eq_comm (a := v.major), eq_comm (a := v.minor), eq_comm (a := v.patch)]

theorem compareRelease_lt_iff : compareRelease v w = .lt ↔ v.major < w.major ∨
    v.major = w.major ∧ (v.minor < w.minor ∨ v.minor = w.minor ∧ v.patch < w.patch) := by
  simp only [compareRelease, Ordering.then_eq_lt, Std.compare_eq_iff_eq, Std.compare_eq_lt]

theorem compareRelease_lt_bump_iff (hlast : v.number place ≠ lastNumber)
    (hle : compareRelease w v ≠ .lt) :
    compareRelease w (v.bump place) = .lt ↔ v.SharesLine w place := by
  have hnext {m : UInt64} := lt_add_one_iff (m := m) hlast
  rw [Ne, compareRelease_lt_iff] at hle
  rw [compareRelease_lt_iff]
  cases place with
  | major | minor | patch =>
    simp only [bump, release, SharesLine, number] at *
    grind

theorem compareRelease_ne_lt (h : precedence w v ≠ .lt) : compareRelease w v ≠ .lt := by
  intro hlt
  exact h (Ordering.then_eq_lt.2 (.inl hlt))

/-- Among the versions that are not lower, those that share a line are the ones before the release
that counts on, if no pre-release is let in from elsewhere. -/
theorem lt_bump_iff (hlast : v.number place ≠ lastNumber) (hle : precedence w v ≠ .lt)
    (hpre : w.isPreRelease → v.SharesLine w .patch) :
    precedence w (v.bump place) = .lt ↔ v.SharesLine w place := by
  have hrelease := compareRelease_lt_bump_iff hlast (compareRelease_ne_lt hle)
  rw [precedence, Ordering.then_eq_lt, hrelease, or_iff_left]
  -- A pre-release of the bound itself would be before it, but has other numbers than the version.
  rintro ⟨heq, hlt⟩
  have hw : w.isPreRelease := by
    rw [preRelease_bump] at hlt
    cases hids : w.preRelease with
    | nil => simp [comparePreRelease, hids] at hlt
    | cons => simp [isPreRelease, hids]
  rw [hrelease.2 ((hpre hw).mono place)] at heq
  cases heq

end Lading.Version
