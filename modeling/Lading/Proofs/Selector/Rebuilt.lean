import Lading.Proofs.Selector.Highest
import Lading.Proofs.Version.Text

namespace Lading

/-- The versions differ in nothing but build metadata. -/
structure Version.Rebuilt (v w : Version) : Prop where
  major : v.major = w.major
  minor : v.minor = w.minor
  patch : v.patch = w.patch
  preRelease : v.preRelease = w.preRelease

structure Comparator.Rebuilt (c d : Comparator) : Prop where
  operator : c.operator = d.operator
  version : c.version.Rebuilt d.version

def Group.Rebuilt (group rebuilt : Group) : Prop := List.Forall₂ Comparator.Rebuilt group rebuilt

def Selector.Rebuilt (s t : Selector) : Prop :=
  List.Forall₂ Group.Rebuilt s.alternatives t.alternatives

namespace Version

variable {v v' w w' : Version}

theorem Rebuilt.symm (h : v.Rebuilt w) : w.Rebuilt v :=
  ⟨h.major.symm, h.minor.symm, h.patch.symm, h.preRelease.symm⟩

theorem Rebuilt.eq_iff (h : v.Rebuilt w) : v = w ↔ v.build = w.build := by
  refine ⟨congrArg build, fun hbuild ↦ ?_⟩
  obtain ⟨major, minor, patch, preRelease, build⟩ := v
  obtain ⟨rfl, rfl, rfl, rfl⟩ := h
  rw [show build = w.build from hbuild]

theorem Rebuilt.isPreRelease (h : v.Rebuilt w) : v.isPreRelease = w.isPreRelease := by
  rw [Version.isPreRelease, Version.isPreRelease, h.preRelease]

theorem Rebuilt.compareRelease (hv : v.Rebuilt v') (hw : w.Rebuilt w') :
    v.compareRelease w = v'.compareRelease w' := by
  simp only [Version.compareRelease, hv.major, hv.minor, hv.patch, hw.major, hw.minor, hw.patch]

theorem Rebuilt.precedence (hv : v.Rebuilt v') (hw : w.Rebuilt w') :
    v.precedence w = v'.precedence w' := by
  rw [Version.precedence, Version.precedence, hv.compareRelease hw, hv.preRelease, hw.preRelease]

theorem IsStrict.toString_inj (hv : v.IsStrict) (hw : w.IsStrict) :
    toString v = toString w ↔ v = w := by
  refine ⟨fun h ↦ ?_, congrArg toString⟩
  have htext : v.text = w.text := String.ofList_injective h
  have hread := read_text hv
  rw [htext, read_text hw] at hread
  cases hread
  rfl

end Version

section Taking

variable {c d : Comparator} {group rebuilt : Group} {s t : Selector} {v w : Version}

theorem Comparator.Rebuilt.upperBound? (h : c.Rebuilt d) : c.upperBound? = d.upperBound? := by
  simp only [Comparator.upperBound?, h.operator, h.version.major, h.version.minor, h.version.patch]

theorem Comparator.Rebuilt.accepts (h : c.Rebuilt d) (hv : v.Rebuilt w) :
    c.accepts v = d.accepts w := by
  have hbound (bound : Version) : v.precedence bound = w.precedence bound :=
    hv.precedence ⟨rfl, rfl, rfl, rfl⟩
  simp only [Comparator.accepts, h.operator, h.upperBound?, hv.precedence h.version, hbound]

theorem Comparator.Rebuilt.admits (h : c.Rebuilt d) (hv : v.Rebuilt w) :
    c.admitsPreRelease v = d.admitsPreRelease w := by
  rw [admitsPreRelease, admitsPreRelease, h.version.isPreRelease, h.version.compareRelease hv]

theorem Group.Rebuilt.facts (h : group.Rebuilt rebuilt) (hv : v.Rebuilt w) :
    group.isEmpty = rebuilt.isEmpty ∧
      group.any (·.admitsPreRelease v) = rebuilt.any (·.admitsPreRelease w) ∧
      group.all (·.accepts v) = rebuilt.all (·.accepts w) := by
  induction h with
  | nil => exact ⟨rfl, rfl, rfl⟩
  | cons hc hgroup ih =>
    obtain ⟨-, hadmits, haccepts⟩ := ih
    refine ⟨rfl, ?_, ?_⟩
    · rw [List.any_cons, List.any_cons, hc.admits hv, hadmits]
    · rw [List.all_cons, List.all_cons, hc.accepts hv, haccepts]

theorem Group.Rebuilt.accepts (h : group.Rebuilt rebuilt) (hv : v.Rebuilt w) :
    group.accepts v = rebuilt.accepts w := by
  obtain ⟨hempty, hadmits, haccepts⟩ := h.facts hv
  rw [Group.accepts, Group.accepts, hempty, hadmits, haccepts, hv.isPreRelease]

theorem Selector.Rebuilt.accepts (h : s.Rebuilt t) (hv : v.Rebuilt w) :
    s.accepts v = t.accepts w := by
  obtain ⟨groups⟩ := s
  obtain ⟨groups'⟩ := t
  change groups.any (·.accepts v) = groups'.any (·.accepts w)
  have hgroups : List.Forall₂ Group.Rebuilt groups groups' := h
  induction hgroups with
  | nil => rfl
  | cons hgroup hrest ih => rw [List.any_cons, List.any_cons, hgroup.accepts hv, ih hrest]

end Taking

namespace Selector

/-- In this position stands the last of the highest versions that a selector takes. -/
structure PicksAt (selector : Selector) (candidates : List Version) (i : Nat) (v : Version) :
    Prop where
  candidate : candidates[i]? = some v
  accepted : selector.accepts v
  before : ∀ j w, j < i → candidates[j]? = some w → selector.accepts w → w.precedence v ≠ .gt
  behind : ∀ j w, i < j → candidates[j]? = some w → selector.accepts w → w.precedence v = .lt

variable {s t : Selector} {candidates vs ws : List Version} {v w : Version} {i : Nat}

theorem PicksAt.best? (h : s.PicksAt candidates i v) : s.best? candidates = some v := by
  rw [best?_eq_some_iff]
  obtain ⟨hi, hv⟩ := List.getElem?_eq_some_iff.1 h.candidate
  refine ⟨h.accepted, candidates.take i, candidates.drop (i + 1), ?_, ?_, ?_⟩
  · rw [← hv, ← List.drop_eq_getElem_cons hi, List.take_append_drop]
  · intro w hw haccepts
    obtain ⟨j, hj, hw⟩ := List.mem_take_iff_getElem.1 hw
    exact h.before j w (by omega) (List.getElem?_eq_some_iff.2 ⟨by omega, hw⟩) haccepts
  · intro w hw haccepts
    obtain ⟨j, hj, hw⟩ := List.mem_drop_iff_getElem.1 hw
    exact h.behind _ w (by omega) (List.getElem?_eq_some_iff.2 ⟨by omega, hw⟩) haccepts

theorem exists_picksAt (h : s.best? candidates = some v) : ∃ i, s.PicksAt candidates i v := by
  obtain ⟨haccepts, front, back, rfl, hfront, hback⟩ := best?_eq_some_iff.1 h
  refine ⟨front.length, by simp, haccepts, ?_, ?_⟩
  · intro j w hj hw
    rw [List.getElem?_append_left hj] at hw
    exact hfront w (List.mem_of_getElem? hw)
  · intro j w hj hw
    obtain ⟨k, rfl⟩ : ∃ k, j = front.length + (k + 1) := ⟨j - front.length - 1, by omega⟩
    rw [List.getElem?_append_right (by omega), Nat.add_sub_cancel_left,
      List.getElem?_cons_succ] at hw
    exact hback w (List.mem_of_getElem? hw)

theorem Rebuilt.symm (h : s.Rebuilt t) : t.Rebuilt s := by
  have hclause (d c : Comparator) (h : c.Rebuilt d) : d.Rebuilt c :=
    ⟨h.operator.symm, h.version.symm⟩
  exact h.flip.imp fun _ _ hgroup ↦ hgroup.flip.imp hclause

theorem exists_rebuilt (h : List.Forall₂ Version.Rebuilt vs ws) (hv : vs[i]? = some v) :
    ∃ w, ws[i]? = some w ∧ v.Rebuilt w := by
  obtain ⟨hi, rfl⟩ := List.getElem?_eq_some_iff.1 hv
  have hi' : i < ws.length := h.length_eq ▸ hi
  exact ⟨ws[i], List.getElem?_eq_getElem hi', h.get hi hi'⟩

theorem PicksAt.rebuilt (h : s.PicksAt vs i v) (hs : s.Rebuilt t)
    (hvs : List.Forall₂ Version.Rebuilt vs ws) : ∃ w, v.Rebuilt w ∧ t.PicksAt ws i w := by
  have hws : List.Forall₂ Version.Rebuilt ws vs := hvs.flip.imp fun _ _ ↦ Version.Rebuilt.symm
  obtain ⟨w, hw, hvw⟩ := exists_rebuilt hvs h.candidate
  refine ⟨w, hvw, hw, hs.accepts hvw ▸ h.accepted, ?_, ?_⟩
  · intro j x hj hx haccepts
    obtain ⟨u, hu, hxu⟩ := exists_rebuilt hws hx
    rw [hxu.precedence hvw.symm]
    exact h.before j u hj hu (hs.symm.accepts hxu ▸ haccepts)
  · intro j x hj hx haccepts
    obtain ⟨u, hu, hxu⟩ := exists_rebuilt hws hx
    rw [hxu.precedence hvw.symm]
    exact h.behind j u hj hu (hs.symm.accepts hxu ▸ haccepts)

/-- Selectors that differ in build metadata at most take the same of such versions, and pick from
the same position. Versions that differ in it are still not equal, and have different texts. -/
theorem rebuilt_agree (s t : Selector) (hs : s.Rebuilt t) :
    (∀ v w : Version, v.Rebuilt w → s.accepts v = t.accepts w ∧ (v = w ↔ v.build = w.build) ∧
      (v.IsStrict → w.IsStrict → (toString v = toString w ↔ v.build = w.build))) ∧
    ∀ vs ws, List.Forall₂ Version.Rebuilt vs ws →
      s.best? vs = none ∧ t.best? ws = none ∨
        ∃ i v w, s.PicksAt vs i v ∧ t.PicksAt ws i w ∧
          s.best? vs = some v ∧ t.best? ws = some w := by
  refine ⟨fun v w hvw ↦ ⟨hs.accepts hvw, hvw.eq_iff, ?_⟩, fun vs ws hvs ↦ ?_⟩
  · intro hv hw
    rw [hv.toString_inj hw, hvw.eq_iff]
  · cases hbest : s.best? vs with
    | some v =>
      obtain ⟨i, hi⟩ := exists_picksAt hbest
      obtain ⟨w, -, hw⟩ := hi.rebuilt hs hvs
      exact .inr ⟨i, v, w, hi, hw, rfl, hw.best?⟩
    | none =>
      refine .inl ⟨rfl, ?_⟩
      rw [best?_eq_none_iff] at hbest ⊢
      intro w hw
      obtain ⟨i, hi⟩ := List.mem_iff_getElem?.1 hw
      obtain ⟨v, hv, hwv⟩ := exists_rebuilt (hvs.flip.imp fun _ _ ↦ Version.Rebuilt.symm) hi
      rw [hs.symm.accepts hwv]
      exact hbest v (List.mem_of_getElem? hv)

def below (lower upper : List String) : Selector :=
  ⟨[[⟨.greaterEq, ⟨1, 0, 0, ["rc"], lower⟩⟩, ⟨.less, ⟨2, 0, 0, [], upper⟩⟩]]⟩

def builds (first second third fourth : List String) : List Version :=
  [⟨1, 0, 0, ["rc"], first⟩, ⟨1, 4, 0, [], second⟩, ⟨1, 4, 0, [], third⟩, ⟨2, 0, 0, [], fourth⟩]

theorem rebuilt_agree_builds : (below ["a"] []).Rebuilt (below [] ["b"]) ∧
    List.Forall₂ Version.Rebuilt (builds ["x"] ["1"] ["2"] []) (builds [] ["9"] [] ["z"]) ∧
    ∃ i, (below ["a"] []).PicksAt (builds ["x"] ["1"] ["2"] []) i ⟨1, 4, 0, [], ["2"]⟩ ∧
      (below [] ["b"]).PicksAt (builds [] ["9"] [] ["z"]) i ⟨1, 4, 0, [], []⟩ := by
  have hversion (major minor patch : UInt64) (ids build build' : List String) :
      Version.Rebuilt ⟨major, minor, patch, ids, build⟩ ⟨major, minor, patch, ids, build'⟩ :=
    ⟨rfl, rfl, rfl, rfl⟩
  have hselectors : (below ["a"] []).Rebuilt (below [] ["b"]) :=
    .cons (.cons ⟨rfl, hversion ..⟩ (.cons ⟨rfl, hversion ..⟩ .nil)) .nil
  have hbuilds : List.Forall₂ Version.Rebuilt (builds ["x"] ["1"] ["2"] [])
      (builds [] ["9"] [] ["z"]) :=
    .cons (hversion ..) (.cons (hversion ..) (.cons (hversion ..) (.cons (hversion ..) .nil)))
  have hbest : (below ["a"] []).best? (builds ["x"] ["1"] ["2"] []) =
      some ⟨1, 4, 0, [], ["2"]⟩ := by decide
  have hbest' : (below [] ["b"]).best? (builds [] ["9"] [] ["z"]) =
      some ⟨1, 4, 0, [], []⟩ := by decide
  refine ⟨hselectors, hbuilds, ?_⟩
  rcases (rebuilt_agree _ _ hselectors).2 _ _ hbuilds with ⟨hnone, -⟩ | ⟨i, v, w, hv, hw, hv', hw'⟩
  · rw [hbest] at hnone
    cases hnone
  · rw [hbest] at hv'
    rw [hbest'] at hw'
    cases hv'
    cases hw'
    exact ⟨i, hv, hw⟩

end Selector

end Lading
