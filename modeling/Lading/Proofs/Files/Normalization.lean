import Lading.Proofs.Files.ModulePath

namespace Lading

namespace ModulePath

section Climbs

variable {depth : Nat} {segment : List Char} {rest : List (List Char)}

/-- Some start of a list of segments leads out of a place that is `depth` levels below the root. -/
def Climbs (depth : Nat) (segments : List (List Char)) : Prop :=
  ∃ front, front <+: segments ∧ depth + front.countP isOrdinary < front.count ['.', '.']

theorem not_climbs_nil : ¬Climbs depth [] := by
  rintro ⟨front, hfront, hlt⟩
  rw [List.prefix_nil.1 hfront] at hlt
  simp at hlt

theorem climbs_cons_iff : Climbs depth (segment :: rest) ↔
    ∃ front, front <+: rest ∧
      depth + (segment :: front).countP isOrdinary < (segment :: front).count ['.', '.'] := by
  constructor
  · rintro ⟨front, hfront, hlt⟩
    cases front with
    -- The empty start leads nowhere.
    | nil => simp at hlt
    | cons first front =>
      obtain ⟨hfirst, hrest⟩ := List.cons_prefix_cons.1 hfront
      exact ⟨front, hrest, hfirst ▸ hlt⟩
  · rintro ⟨front, hfront, hlt⟩
    exact ⟨segment :: front, List.cons_prefix_cons.2 ⟨rfl, hfront⟩, hlt⟩

theorem climbs_skip (h : segment = [] ∨ segment = ['.']) :
    Climbs depth (segment :: rest) ↔ Climbs depth rest := by
  rw [climbs_cons_iff]
  obtain rfl | rfl := h <;> rfl

theorem climbs_up_root : Climbs 0 (['.', '.'] :: rest) :=
  climbs_cons_iff.2 ⟨[], List.nil_prefix, by decide⟩

theorem climbs_up : Climbs (depth + 1) (['.', '.'] :: rest) ↔ Climbs depth rest := by
  have hcount (front : List (List Char)) :
      depth + 1 + (['.', '.'] :: front).countP isOrdinary < (['.', '.'] :: front).count ['.', '.'] ↔
        depth + front.countP isOrdinary < front.count ['.', '.'] := by
    rw [List.countP_cons_of_neg (by decide), List.count_cons_self]
    omega
  rw [climbs_cons_iff]
  simp only [hcount]
  rfl

theorem climbs_down (hs : isOrdinary segment) :
    Climbs depth (segment :: rest) ↔ Climbs (depth + 1) rest := by
  have hne : segment ≠ ['.', '.'] := by
    rintro rfl
    exact absurd hs (by decide)
  have hcount (front : List (List Char)) :
      depth + (segment :: front).countP isOrdinary < (segment :: front).count ['.', '.'] ↔
        depth + 1 + front.countP isOrdinary < front.count ['.', '.'] := by
    rw [List.countP_cons_of_pos hs, List.count_cons_of_ne hne]
    omega
  rw [climbs_cons_iff]
  simp only [hcount]
  rfl

/-- The way down fails exactly where the segments climb out of the place that it starts from. -/
theorem descend_eq_none_iff (place segments : List (List Char)) :
    descend place segments = none ↔ Climbs place.length segments := by
  fun_induction descend place segments with
  | case1 place => simp [not_climbs_nil]
  | case2 place segment rest hdot ih => rw [ih, climbs_skip hdot]
  | case3 rest hdot => simp [climbs_up_root]
  | case4 rest last place hdot ih => rw [ih, List.length_cons, climbs_up]
  | case5 place segment rest hdot hup ih =>
    rw [not_or] at hdot
    have hs : isOrdinary segment := by simp [isOrdinary, hdot, hup]
    rw [ih, List.length_cons, climbs_down hs]

end Climbs

theorem descend_append (place segments more : List (List Char)) :
    descend place (segments ++ more) = (descend place segments).bind (descend · more) := by
  fun_induction descend place segments with
  | case1 place => rfl
  | case2 place segment rest hdot ih => simp only [List.cons_append, descend, hdot, if_true, ih]
  | case3 rest hdot =>
    simp only [List.cons_append, descend, hdot, if_true, if_false, Option.bind_none]
  | case4 rest last place hdot ih =>
    simp only [List.cons_append, descend, hdot, if_true, if_false, ih]
  | case5 place segment rest hdot hup ih =>
    simp only [List.cons_append, descend, hdot, hup, if_false, ih]

theorem segments_append (path more : String) :
    segments (path ++ "/" ++ more).toList = segments path.toList ++ segments more.toList := by
  have htext : (path ++ "/" ++ more).toList = path.toList ++ '/' :: more.toList := by simp
  rw [segments, htext, List.splitOn_append_cons_self]
  rfl

section Normal

variable {path name directory : String}

theorem normalize_congr {path' : String}
    (h : descend [] (segments path.toList) = descend [] (segments path'.toList)) :
    normalize path = normalize path' := by
  rw [normalize, normalize, resolve, resolve, h]

theorem normalize_eq_none_iff_descend :
    normalize path = none ↔ descend [] (segments path.toList) = none := by
  rw [normalize, resolve, Option.map_eq_none_iff, Option.map_eq_none_iff]

theorem descend_normalize (h : normalize path = some name) :
    descend [] (segments name.toList) = descend [] (segments path.toList) := by
  obtain ⟨steps, hdescend, hsteps, rfl⟩ := exists_steps_of_normalize h
  rw [hdescend, String.toList_ofList]
  cases steps with
  | nil => rfl
  | cons step steps =>
    rw [segments_joinWith hsteps (List.cons_ne_nil _ _), descend_of_isStep [] hsteps,
      List.append_nil]

theorem normalize_normalize (h : normalize path = some name) : normalize name = some name :=
  (normalize_congr (descend_normalize h)).trans h

theorem normalize_slash (path : String) : normalize ("/" ++ path) = normalize path := by
  refine normalize_congr ?_
  have hsegments : segments ("/" ++ path).toList = [] :: segments path.toList :=
    segments_append "" path
  rw [hsegments, descend, if_pos (.inl rfl)]

theorem normalize_append (path more : String) : normalize (path ++ "/" ++ more) =
    (normalize path).bind fun name ↦ normalize (name ++ "/" ++ more) := by
  cases h : normalize path with
  | none =>
    rw [normalize_eq_none_iff_descend] at h
    rw [Option.bind_none, normalize_eq_none_iff_descend, segments_append, descend_append, h]
    rfl
  | some name =>
    refine normalize_congr ?_
    rw [segments_append, segments_append, descend_append, descend_append, descend_normalize h]

theorem join_eq (h : path.toList.head? ≠ some '/') :
    join directory path = normalize (directory ++ "/" ++ path) := by
  unfold join
  split
  · rename_i hroot
    obtain rfl := hroot.resolve_left h
    exact (normalize_slash path).symm
  · rfl

theorem join_congr {directory' : String} (h : normalize directory = normalize directory')
    (path : String) : join directory path = join directory' path := by
  by_cases hroot : path.toList.head? = some '/'
  · rw [join, join, if_pos (.inl hroot), if_pos (.inl hroot)]
  · rw [join_eq hroot, join_eq hroot, normalize_append, normalize_append directory', h]

end Normal

/-- A path has a normal form unless some start of it climbs above the root. A normal form that is
not empty has only segments that name something, and is its own normal form. Behind a path and
behind its normal form the same text leads to the same place, and so paths are joined to a directory
by its normal form alone. -/
theorem normalize_canonical (path : String) :
    (normalize path = none ↔ ∃ front, front <+: segments path.toList ∧
      front.countP isOrdinary < front.count ['.', '.']) ∧
    (∀ name, normalize path = some name →
      (name ≠ "" → ∀ segment ∈ segments name.toList, isOrdinary segment) ∧
        normalize name = some name) ∧
    (∀ more, normalize (path ++ "/" ++ more) =
      (normalize path).bind fun name ↦ normalize (name ++ "/" ++ more)) ∧
    ∀ directory more, normalize directory = normalize path →
      join directory more = join path more := by
  refine ⟨?_, ?_, normalize_append path, fun directory more h ↦ join_congr h more⟩
  · rw [normalize_eq_none_iff_descend, descend_eq_none_iff]
    simp only [Climbs, List.length_nil, Nat.zero_add]
  · intro name h
    refine ⟨fun hne segment hsegment ↦ ?_, normalize_normalize h⟩
    exact (isName_of_normalize h hne segment hsegment).1

theorem normalize_canonical_detour :
    normalize "lib/.//../a/b/.." = some "a" ∧ normalize "a" = some "a" ∧
      (∀ segment ∈ segments "a".toList, isOrdinary segment) ∧
      join "lib/.//../a/b/.." "../c" = join "a" "../c" ∧ join "a" "../c" = some "c" ∧
      normalize "a/./../../a" = none := by
  have hdetour : normalize "lib/.//../a/b/.." = some "a" := by decide +kernel
  obtain ⟨-, hname, -, -⟩ := normalize_canonical "lib/.//../a/b/.."
  obtain ⟨hordinary, hself⟩ := hname "a" hdetour
  obtain ⟨-, -, -, hjoin⟩ := normalize_canonical "a"
  obtain ⟨hclimbs, -, -, -⟩ := normalize_canonical "a/./../../a"
  refine ⟨hdetour, hself, hordinary (by decide), hjoin _ _ (hdetour.trans hself.symm), ?_, ?_⟩
  · decide +kernel
  · exact hclimbs.2 ⟨[['a'], ['.'], ['.', '.'], ['.', '.']], by decide +kernel, by decide +kernel⟩

end ModulePath

end Lading
