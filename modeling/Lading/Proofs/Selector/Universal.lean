import Lading.Proofs.Selector.Range
import Lading.Proofs.Version.Text
import Mathlib.Data.List.Perm.Subperm
import Mathlib.Tactic.TFAE

namespace Lading

open Version

theorem exists_number_notMem {numbers : List UInt64} (h : numbers.length < UInt64.size) :
    ∃ n, n ∉ numbers := by
  by_contra hall
  have hsubset : List.range UInt64.size ⊆ numbers.map UInt64.toNat := by
    intro n hn
    have hmem : UInt64.ofNat n ∈ numbers := by
      by_contra hn
      exact hall ⟨_, hn⟩
    exact List.mem_map.2 ⟨_, hmem, UInt64.toNat_ofNat_of_lt' (List.mem_range.1 hn)⟩
  have hlength := (List.subperm_of_subset List.nodup_range hsubset).length_le
  rw [List.length_range, List.length_map] at hlength
  omega

/-- A group refuses the pre-releases of all releases that none of its clauses names. -/
theorem Group.not_accepts_of_preRelease {group : Group} {v : Version} (hne : group ≠ [])
    (hpre : v.isPreRelease) (hline : ∀ c ∈ group, ¬c.version.SharesLine v .patch) :
    ¬group.accepts v := by
  have hadmits : group.any (·.admitsPreRelease v) = false := by
    rw [List.any_eq_false]
    intro c hc hadmitted
    exact hline c hc (Comparator.admitsPreRelease_iff.1 hadmitted).2
  simp [accepts, hne, hpre, hadmits]

namespace Selector

variable {s : Selector}

def clauses (s : Selector) : List Comparator := s.alternatives.flatten

theorem isAny_iff_nil_mem : s.isAny ↔ [] ∈ s.alternatives := by
  simp [isAny]

theorem accepts_of_nil_mem (h : [] ∈ s.alternatives) (v : Version) : s.accepts v :=
  List.any_eq_true.2 ⟨[], h, rfl⟩

theorem exists_not_accepts (hnil : [] ∉ s.alternatives) (h : s.clauses.length < UInt64.size) :
    ∃ v : Version, v.IsStrict ∧ v.isPreRelease ∧ ¬s.accepts v := by
  -- There are more numbers than clauses, so some release is named by none of them.
  obtain ⟨n, hn⟩ : ∃ n, n ∉ s.clauses.map (·.version.major) :=
    exists_number_notMem (by rwa [List.length_map])
  refine ⟨⟨n, 0, 0, ["0"], []⟩, ⟨?_, by simp⟩, rfl, ?_⟩
  · rw [List.forall_mem_singleton]
    exact ⟨by decide, by simp [isIdentifierChar], fun _ _ _ ↦ rfl⟩
  · intro haccepts
    obtain ⟨group, hgroup, haccepted⟩ := List.any_eq_true.1 haccepts
    have hne : group ≠ [] := by
      rintro rfl
      exact hnil hgroup
    refine Group.not_accepts_of_preRelease hne rfl ?_ haccepted
    rintro c hc ⟨hmajor, -⟩
    exact hn (List.mem_map.2 ⟨c, List.mem_flatten_of_mem hgroup hc, hmajor.symm⟩)

/-- A selector takes every version, or only every pre-release, exactly if one of its groups is
empty. -/
theorem isAny_tfae (s : Selector) (h : s.clauses.length < UInt64.size) :
    [(s.isAny : Prop), [] ∈ s.alternatives, ∀ v, s.accepts v,
      ∀ v : Version, v.IsStrict → v.isPreRelease → s.accepts v].TFAE := by
  tfae_have 1 ↔ 2 := isAny_iff_nil_mem
  tfae_have 2 → 3 := accepts_of_nil_mem
  tfae_have 3 → 4 := fun hall v _ _ ↦ hall v
  tfae_have 4 → 2 := by
    intro hall
    by_contra hnil
    obtain ⟨v, hstrict, hpre, hnot⟩ := exists_not_accepts hnil h
    exact hnot (hall v hstrict hpre)
  tfae_finish

def halves : Selector :=
  ⟨[[⟨.less, ⟨1, 0, 0, ["rc", "1"], []⟩⟩], [⟨.greaterEq, ⟨1, 0, 0, ["rc", "1"], []⟩⟩]]⟩

theorem isAny_tfae_halves : halves.clauses.length < UInt64.size ∧
    (∀ v : Version, v.isPreRelease = false → halves.accepts v) ∧ ¬∀ v, halves.accepts v := by
  have hlength : halves.clauses.length < UInt64.size := by decide
  have hany : (∀ v, halves.accepts v) ↔ halves.isAny := (isAny_tfae halves hlength).out 2 0
  refine ⟨hlength, ?_, ?_⟩
  · intro v hv
    simp [halves, accepts, Group.accepts, Comparator.accepts, hv, em]
  · rw [hany]
    decide

end Selector

end Lading
