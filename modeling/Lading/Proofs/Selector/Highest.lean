import Lading.Proofs.Version.Precedence
import Lading.Selector.Basic

namespace Lading.Selector

open Std Version

/-- A version in the place of the last of the highest versions of a list. -/
def IsLastHighest (versions : List Version) (v : Version) : Prop :=
  ∃ front back, versions = front ++ v :: back ∧ (∀ w ∈ front, w.precedence v ≠ .gt) ∧
    ∀ w ∈ back, w.precedence v = .lt

/-- A version in the place of the last of the highest versions that a selector takes. -/
structure IsBest (selector : Selector) (candidates : List Version) (v : Version) : Prop where
  accepted : selector.accepts v
  last : ∃ front back, candidates = front ++ v :: back ∧
    (∀ w ∈ front, selector.accepts w → w.precedence v ≠ .gt) ∧
    ∀ w ∈ back, selector.accepts w → w.precedence v = .lt

variable {versions candidates : List Version} {selector : Selector} {v w : Version}

theorem ne_gt_trans {u : Version} (huv : u.precedence v ≠ .gt) (hvw : v.precedence w ≠ .gt) :
    u.precedence w ≠ .gt :=
  Ordering.isLE_iff_ne_gt.1
    (TransCmp.isLE_trans (Ordering.isLE_iff_ne_gt.2 huv) (Ordering.isLE_iff_ne_gt.2 hvw))

theorem IsLastHighest.ne_gt (h : IsLastHighest versions v) :
    ∀ w ∈ versions, w.precedence v ≠ .gt := by
  obtain ⟨front, back, rfl, hfront, hback⟩ := h
  intro w hw
  rcases List.mem_append.1 hw with hw | hw
  · exact hfront w hw
  · rcases List.mem_cons.1 hw with rfl | hw
    · simp [ReflCmp.compare_self]
    · simp [hback w hw]

theorem lastHighest?_concat (versions : List Version) (w : Version) :
    lastHighest? (versions ++ [w]) =
      match lastHighest? versions with
      | none => some w
      | some b => if b.precedence w == .gt then some b else some w := by
  rw [lastHighest?, List.foldl_append]
  rfl

theorem lastHighest?_eq_none_iff : lastHighest? versions = none ↔ versions = [] := by
  induction versions using List.reverseRecOn with
  | nil => simp [lastHighest?]
  | append_singleton versions w ih =>
    rw [lastHighest?_concat]
    cases lastHighest? versions with
    | none => simp
    | some b => by_cases hb : b.precedence w = .gt <;> simp [hb]

theorem isLastHighest_of_eq_some (h : lastHighest? versions = some v) :
    IsLastHighest versions v := by
  induction versions using List.reverseRecOn generalizing v with
  | nil => cases h
  | append_singleton versions w ih =>
    rw [lastHighest?_concat] at h
    cases hbest : lastHighest? versions with
    | none =>
      rw [hbest] at h
      cases h
      exact ⟨[], [], by simp [lastHighest?_eq_none_iff.1 hbest], by simp, by simp⟩
    | some b =>
      have hb := ih hbest
      simp only [hbest] at h
      by_cases hgt : b.precedence w = .gt
      · obtain ⟨front, back, rfl, hfront, hback⟩ := hb
        simp only [hgt, BEq.rfl, if_true, Option.some.injEq] at h
        subst h
        refine ⟨front, back ++ [w], by simp, hfront, ?_⟩
        intro u hu
        rcases List.mem_append.1 hu with hu | hu
        · exact hback u hu
        · rw [List.mem_singleton.1 hu]
          exact OrientedCmp.lt_of_gt hgt
      · simp only [beq_iff_eq, hgt, if_false, Option.some.injEq] at h
        subst h
        exact ⟨versions, [], rfl, fun u hu ↦ ne_gt_trans (hb.ne_gt u hu) hgt, by simp⟩

theorem eq_some_of_isLastHighest (h : IsLastHighest versions v) :
    lastHighest? versions = some v := by
  obtain ⟨front, back, rfl, hfront, hback⟩ := h
  -- What stands behind is added from the end, and leaves the version in its place.
  induction back using List.reverseRecOn with
  | nil =>
    rw [lastHighest?_concat]
    cases hbest : lastHighest? front with
    | none => rfl
    | some b =>
      obtain ⟨_, _, rfl, -⟩ := isLastHighest_of_eq_some hbest
      simp [hfront b (by simp)]
  | append_singleton back w ih =>
    have hw := OrientedCmp.gt_of_lt (hback w (by simp))
    rw [← List.cons_append, ← List.append_assoc, lastHighest?_concat,
      ih fun u hu ↦ hback u (List.mem_append_left _ hu)]
    simp [hw]

theorem lastHighest?_eq_some_iff : lastHighest? versions = some v ↔ IsLastHighest versions v :=
  ⟨isLastHighest_of_eq_some, eq_some_of_isLastHighest⟩

theorem best?_eq_none_iff :
    selector.best? candidates = none ↔ ∀ v ∈ candidates, selector.accepts v = false := by
  rw [best?, lastHighest?_eq_none_iff, List.filter_eq_nil_iff]
  simp

theorem best?_eq_some_iff : selector.best? candidates = some v ↔ selector.IsBest candidates v := by
  rw [best?, lastHighest?_eq_some_iff]
  constructor
  · rintro ⟨front, back, hfilter, hfront, hback⟩
    obtain ⟨front', rest, rfl, rfl, hrest⟩ := List.filter_eq_append_iff.1 hfilter
    obtain ⟨skipped, back', rfl, hskipped, haccepts, rfl⟩ := List.filter_eq_cons_iff.1 hrest
    refine ⟨haccepts, front' ++ skipped, back', by simp, ?_, ?_⟩
    · intro w hw haccepts
      rcases List.mem_append.1 hw with hw | hw
      · exact hfront w (List.mem_filter.2 ⟨hw, haccepts⟩)
      · exact absurd haccepts (hskipped w hw)
    · exact fun w hw haccepts ↦ hback w (List.mem_filter.2 ⟨hw, haccepts⟩)
  · rintro ⟨haccepts, front, back, rfl, hfront, hback⟩
    refine ⟨front.filter selector.accepts, back.filter selector.accepts, by simp [haccepts], ?_, ?_⟩
    · exact fun w hw ↦ hfront w (List.mem_of_mem_filter hw) (List.mem_filter.1 hw).2
    · exact fun w hw ↦ hback w (List.mem_of_mem_filter hw) (List.mem_filter.1 hw).2

namespace IsBest

theorem mem (h : selector.IsBest candidates v) : v ∈ candidates := by
  obtain ⟨-, _, _, rfl, -⟩ := h
  simp

theorem ne_gt (h : selector.IsBest candidates v) (hw : w ∈ candidates)
    (haccepts : selector.accepts w) : w.precedence v ≠ .gt := by
  have hlast := lastHighest?_eq_some_iff.1 (best?_eq_some_iff.2 h)
  exact hlast.ne_gt w (List.mem_filter.2 ⟨hw, haccepts⟩)

end IsBest

end Lading.Selector
