import Lading.Proofs.Files.Tree

namespace Lading

namespace FilePath

def descend (directory : String) (steps : List String) : String := steps.foldl join directory

theorem descend_cons (directory step : String) (steps : List String) :
    descend directory (step :: steps) = descend (join directory step) steps := rfl

theorem descend_append (directory : String) (steps steps' : List String) :
    descend directory (steps ++ steps') = descend (descend directory steps) steps' :=
  List.foldl_append

theorem isAbsolute_step {step : String} (hs : ModulePath.IsStep step.toList) :
    isAbsolute step = false := by
  have h := isAbsolute_of_isStep hs
  rwa [String.ofList_toList] at h

/-- What joining puts between a path and the next one. -/
def separator (base : String) : String :=
  if base = "" ∨ base.toList.getLast? = some '/' then "" else "/"

theorem join_absolute (base : String) {path : String} (h : isAbsolute path = true) :
    join base path = path := if_pos h

theorem join_relative (base : String) {path : String} (h : isAbsolute path = false) :
    join base path = base ++ (separator base ++ path) := by
  unfold separator
  split <;> simp [join, *, String.append_assoc]

theorem separator_append (before : String) {base : String} (h : base ≠ "") :
    separator (before ++ base) = separator base := by
  have hlast : (before ++ base).toList.getLast? = base.toList.getLast? := by
    have hlist : base.toList ≠ [] := by simpa using h
    obtain ⟨front, last, hbase⟩ := (List.eq_nil_or_concat base.toList).resolve_left hlist
    rw [String.toList_append, hbase]
    simp
  unfold separator
  rw [hlast]
  simp [h]

theorem separator_separator (base : String) : separator (base ++ separator base) = "" := by
  by_cases h : base = "" ∨ base.toList.getLast? = some '/'
  · rw [show separator base = "" from if_pos h, String.append_empty]
    exact if_pos h
  · rw [show separator base = "/" from if_neg h, separator_append base (by decide)]
    decide

theorem join_join {a b step : String} (hs : isAbsolute step = false) :
    join (join a b) step = join a (join b step) := by
  by_cases hempty : b = ""
  · -- Joining the empty path adds a slash at most, which the step would have added.
    subst hempty
    rw [join_relative a rfl, join_relative "" hs, String.append_empty, join_relative _ hs,
      separator_separator]
    simp [separator, join_relative a hs, String.append_assoc]
  · have hjoin : isAbsolute (join b step) = isAbsolute b := by
      rw [join_relative b hs, isAbsolute_append hempty]
    cases hb : isAbsolute b with
    | true => rw [join_absolute a hb, join_absolute a (hjoin.trans hb)]
    | false =>
      have hseparator : separator (a ++ (separator a ++ b)) = separator b := by
        rw [← String.append_assoc, separator_append _ hempty]
      rw [join_relative a hb, join_relative a (hjoin.trans hb), join_relative b hs,
        join_relative _ hs, hseparator]
      simp only [String.append_assoc]

theorem descend_join {a b : String} {steps : List String}
    (hs : ∀ step ∈ steps, isAbsolute step = false) :
    descend (join a b) steps = join a (descend b steps) := by
  induction steps generalizing b with
  | nil => rfl
  | cons step steps ih =>
    rw [descend_cons, descend_cons, join_join (hs step (List.mem_cons_self ..)),
      ih fun s hm ↦ hs s (List.mem_cons_of_mem _ hm)]

def EndsIn (path step : List Char) : Prop := path = step ∨ ∃ front, path = front ++ '/' :: step

theorem endsIn_join (directory : String) {step : String} (hs : isAbsolute step = false) :
    EndsIn (join directory step).toList step.toList := by
  rw [join_relative directory hs, separator]
  split
  · rename_i h
    rcases h with rfl | h
    · left
      simp
    · obtain ⟨front, hfront⟩ := List.getLast?_eq_some_iff.1 h
      exact .inr ⟨front, by simp [hfront]⟩
  · exact .inr ⟨directory.toList, by simp⟩

theorem trimComponents_concat {components : List (List Char)} {last : List Char}
    (hlast : ModulePath.IsStep last) :
    trimComponents (components ++ [last]) = components ++ [last] := by
  obtain ⟨hnil, hdot, -, -⟩ := ModulePath.isStep_iff.1 hlast
  simp [trimComponents, hnil, hdot]

theorem splitOn_endsIn {path step : List Char} (h : EndsIn path step)
    (hs : ModulePath.IsStep step) : ∃ front, path.splitOn '/' = front ++ [step] := by
  rcases h with rfl | ⟨front, rfl⟩
  · exact ⟨[], List.splitOn_eq_singleton hs.2⟩
  · exact ⟨front.splitOn '/', by
      rw [List.splitOn_append_cons_self, List.splitOn_eq_singleton hs.2]⟩

theorem splitAnchor_append {path step : List Char} (h : EndsIn path step)
    (hs : ModulePath.IsStep step) (more : List Char) :
    ∃ anchor body, path = anchor ++ body ∧ EndsIn body step ∧
      splitAnchor (path ++ '/' :: more) = (anchor, body ++ '/' :: more) := by
  obtain ⟨hnil, hdot, -, hslash⟩ := ModulePath.isStep_iff.1 hs
  fun_cases splitAnchor path with
  | case1 rest =>
    refine ⟨['/'], rest, rfl, ?_, rfl⟩
    rcases h with rfl | ⟨_ | ⟨c, front⟩, hfront⟩
    · exact absurd (List.mem_cons_self ..) hslash
    · exact .inl (List.tail_eq_of_cons_eq hfront)
    · exact .inr ⟨front, List.tail_eq_of_cons_eq hfront⟩
  | case2 =>
    rcases h with rfl | ⟨_ | ⟨c, front⟩, hfront⟩
    · exact absurd rfl hdot
    · cases hfront
    · simp at hfront
  | case3 rest =>
    refine ⟨['.'], '/' :: rest, rfl, ?_, rfl⟩
    rcases h with rfl | ⟨_ | ⟨c, front⟩, hfront⟩
    · exact absurd (by simp) hslash
    · cases hfront
    · exact .inr ⟨front, List.tail_eq_of_cons_eq hfront⟩
  | case4 path hroot hhere hbelow =>
    refine ⟨[], path, rfl, h, ?_⟩
    obtain ⟨c, rest, rfl⟩ : ∃ c rest, path = c :: rest := by
      apply List.exists_cons_of_ne_nil
      rintro rfl
      rcases h with rfl | ⟨front, hfront⟩
      · exact hnil rfl
      · simp at hfront
    -- A longer path takes one of the first three branches only if this one does.
    unfold splitAnchor
    split
    · rename_i heq
      cases heq
      exact (hroot _ rfl).elim
    · rename_i heq
      simp at heq
    · rename_i heq
      cases rest with
      | nil =>
        cases heq
        exact (hhere rfl).elim
      | cons d rest =>
        cases heq
        exact (hbelow _ rfl).elim
    · rfl

theorem separator_endsIn {path : String} {step : List Char} (h : EndsIn path.toList step)
    (hs : ModulePath.IsStep step) : separator path = "/" := by
  obtain ⟨hnil, -, -, hslash⟩ := ModulePath.isStep_iff.1 hs
  obtain ⟨front, last, rfl⟩ := (List.eq_nil_or_concat step).resolve_left hnil
  have hlast : path.toList.getLast? = some last := by
    rcases h with h | ⟨before, h⟩
    · simp [h]
    · exact List.getLast?_eq_some_iff.2 ⟨before ++ '/' :: front, by simp [h]⟩
  have hempty : path ≠ "" := by
    rintro rfl
    simp at hlast
  refine if_neg (not_or.2 ⟨hempty, ?_⟩)
  rw [hlast]
  rintro ⟨⟩
  exact hslash (by simp)

theorem parent?_join {directory step last : String} (hs : ModulePath.IsStep step.toList)
    (hlast : ModulePath.IsStep last.toList) :
    parent? (join (join directory step) last) = some (join directory step) := by
  have hends := endsIn_join directory (isAbsolute_step hs)
  have htext : (join (join directory step) last).toList =
      (join directory step).toList ++ '/' :: last.toList := by
    rw [join_relative _ (isAbsolute_step hlast), separator_endsIn hends hs]
    simp
  obtain ⟨anchor, body, hpath, hbody, hanchor⟩ := splitAnchor_append hends hs last.toList
  obtain ⟨front, hfront⟩ := splitOn_endsIn hbody hs
  have hcomponents : (body ++ '/' :: last.toList).splitOn '/' =
      front ++ [step.toList] ++ [last.toList] := by
    rw [List.splitOn_append_cons_self, List.splitOn_eq_singleton hlast.2, hfront]
  have hjoined : Text.joinWith '/' (front ++ [step.toList]) = body := by
    rw [← hfront]
    exact List.intercalate_splitOn ..
  unfold parent?
  rw [htext, hanchor]
  simp only [hcomponents, trimComponents_concat hlast]
  split
  · rename_i heq
    simp at heq
  · rw [List.dropLast_concat, trimComponents_concat hs, hjoined, ← hpath, String.ofList_toList]

/-- A path leads down from a directory. -/
def Inside (directory path : String) : Prop :=
  ∃ steps, steps ≠ [] ∧ (∀ step ∈ steps, ModulePath.IsStep step.toList) ∧
    path = descend directory steps

theorem inside_append {directory : String} {steps : List String} (hne : steps ≠ [])
    (hsteps : ∀ step ∈ steps, ModulePath.IsStep step.toList) {ending : String}
    (hlong : 2 ≤ ending.toList.length) (hending : '/' ∉ ending.toList) :
    Inside directory (descend directory steps ++ ending) := by
  obtain ⟨front, last, rfl⟩ := (List.eq_nil_or_concat steps).resolve_left hne
  rw [List.concat_eq_append] at hsteps ⊢
  have hlast : ModulePath.IsStep last.toList := hsteps last (by simp)
  refine ⟨front ++ [last ++ ending], by simp, ?_, ?_⟩
  · intro step hstep
    rcases List.mem_append.1 hstep with hstep | hstep
    · exact hsteps step (List.mem_append_left _ hstep)
    · rw [List.mem_singleton.1 hstep, String.toList_append]
      exact hlast.append hlong hending
  · have happend := join_append hlast ending.toList (descend directory front)
    rw [String.ofList_append, String.ofList_toList, String.ofList_toList] at happend
    rw [descend_append, descend_append]
    exact happend

theorem Inside.descend {directory path : String} {steps : List String}
    (h : Inside (descend directory steps) path)
    (hsteps : ∀ step ∈ steps, ModulePath.IsStep step.toList) : Inside directory path := by
  obtain ⟨more, hne, hmore, rfl⟩ := h
  refine ⟨steps ++ more, by simp [hne], ?_, (descend_append ..).symm⟩
  intro step hstep
  rcases List.mem_append.1 hstep with hstep | hstep
  · exact hsteps step hstep
  · exact hmore step hstep

end FilePath

namespace FileTree

/-- What is inside a directory by its name lies below the place of the directory. -/
theorem landing_inside {tree : FileTree} {directory path : String}
    (h : FilePath.Inside directory path) : tree.landing directory <+: tree.landing path := by
  obtain ⟨steps, -, hsteps, rfl⟩ := h
  have hlist : ∀ step ∈ steps.map String.toList, ModulePath.IsStep step := by simpa using hsteps
  have hlanding : tree.landing _ = _ := landing_steps hlist directory
  have htext : (steps.map String.toList).map String.ofList = steps := by simp [Function.comp_def]
  rw [htext] at hlanding
  exact ⟨_, hlanding.symm⟩

theorem at?_add_self (tree : FileTree) (path : String) (node : FileNode) :
    (tree.add path node).at? (place path) = some node := by
  simp [add, at?]

theorem at?_add_of_ne (tree : FileTree) {path : String} {start : List (List Char)}
    (h : start ≠ place path) (bytes bytes' : List UInt8) :
    (tree.add path (.file bytes)).at? start = (tree.add path (.file bytes')).at? start := by
  have hne : (place path == start) = false := by simpa using Ne.symm h
  simp only [at?, add, List.find?_cons, hne]
  rfl

theorem walk_add (tree : FileTree) {path : String} {start components : List (List Char)}
    (h : components.foldl follow start ≠ place path) (bytes bytes' : List UInt8) :
    (tree.add path (.file bytes)).walk start components =
      (tree.add path (.file bytes')).walk start components := by
  induction components generalizing start with
  | nil =>
    have hstart : start ≠ place path := h
    rw [walk, walk, tree.at?_add_of_ne hstart bytes bytes']
  | cons c components ih =>
    rw [List.foldl_cons] at h
    rw [walk, walk]
    by_cases hstart : start = place path
    · rw [hstart, at?_add_self, at?_add_self]
    · rw [tree.at?_add_of_ne hstart bytes bytes']
      unfold follow at h
      split
      · split
        · rename_i hdot
          rw [if_pos hdot] at h
          exact ih h
        · rename_i hdot
          rw [if_neg hdot] at h
          split
          · rename_i hup
            rw [if_pos hup] at h
            exact ih h
          · rename_i hup
            rw [if_neg hup] at h
            split
            · rfl
            · exact ih h
      · rfl
      · rfl

theorem find_add (tree : FileTree) {path other : String} (h : tree.landing other ≠ place path)
    (bytes bytes' : List UInt8) :
    (tree.add path (.file bytes)).find other = (tree.add path (.file bytes')).find other := by
  unfold landing at h
  unfold find
  split
  · rfl
  · split
    · rfl
    · split
      · rfl
      · split
        · rename_i habsolute
          rw [if_pos habsolute] at h
          exact tree.walk_add h bytes bytes'
        · rename_i habsolute
          rw [if_neg habsolute] at h
          exact tree.walk_add h bytes bytes'

end FileTree

end Lading
