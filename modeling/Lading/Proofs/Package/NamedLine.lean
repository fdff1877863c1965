import Lading.Proofs.Package.RequirementText

namespace Lading.Requirement

open Text

inductive IsOptions : List Char → Prop
  | nil : IsOptions []
  | cons {token blanks rest : List Char} (htoken : ∀ c ∈ token, isBlank c = false)
      (hblanks : IsBlanks blanks) (hne : blanks ≠ []) (hrest : IsOptions rest) :
      IsOptions ('-' :: '-' :: (token ++ (blanks ++ rest)))

/-- What may stand behind options: it starts neither with a blank nor with `--`. -/
structure IsBody (s : List Char) : Prop where
  head : ∀ c ∈ s.head?, isBlank c = false
  stops : ¬['-', '-'] <+: s

section Bodies

variable {s body : List Char} {n : PackageName}

theorem IsBody.trimEnd (h : IsBody body) : IsBody (trimEnd body) where
  head := head_trimEnd h.head
  stops hdashes := h.stops (hdashes.trans (trimEnd_starts body))

theorem isBody_named (hn : n.IsWritable) (body : List Char) : IsBody (n.text ++ '@' :: body) := by
  have hhead : (n.text ++ '@' :: body).head? = n.text.head? :=
    List.head?_append_of_ne_nil _ hn.text_ne_nil
  refine ⟨hhead ▸ hn.isTrimmed_text.head, ?_⟩
  rintro ⟨t, ht⟩
  refine hn.dash_notMem_head ?_
  rw [← hhead, ← ht]
  rfl

theorem trimEnd_named (n : PackageName) (body : List Char) :
    Text.trimEnd (n.text ++ '@' :: body) = n.text ++ '@' :: Text.trimEnd body := by
  have hmark : ∀ c ∈ (n.text ++ ['@']).getLast?, isBlank c = false := by
    rw [List.getLast?_concat]
    rintro c ⟨⟩
    rfl
  simpa using trimEnd_append_of_last (t := body) hmark

end Bodies

namespace IsOptions

variable {s body : List Char}

theorem head (h : IsOptions s) : ∀ c ∈ s.head?, isBlank c = false := by
  cases h with
  | nil => simp
  | cons =>
    rintro c ⟨⟩
    rfl

theorem trim_append (h : IsOptions s) (hbody : IsBody body) (hne : body ≠ []) :
    trim (s ++ body) = s ++ trimEnd body := by
  rw [trim_eq_trimEnd (forall_head_append h.head hbody.head),
    trimEnd_append_right (trimEnd_ne_nil hbody.head hne)]

theorem readOptions_append (h : IsOptions s) (options : Options) : ∃ result : Except Fault Options,
    ∀ body, IsBody body →
      readOptions options (s ++ body) = result.map fun options' ↦ (options', body) := by
  induction h generalizing options with
  | nil => exact ⟨.ok options, fun body hbody ↦ readOptions_of_not_dashes hbody.stops⟩
  | @cons token blanks rest htoken hblanks hne hrest ih =>
    have hread {body : List Char} (hbody : IsBody body) :
        readOptions options ('-' :: '-' :: (token ++ (blanks ++ rest)) ++ body) =
          options.add token >>= fun options' ↦ readOptions options' (rest ++ body) := by
      rw [← readOptions_option htoken hblanks hne (forall_head_append hrest.head hbody.head)]
      simp
    cases hadd : options.add token with
    | error fault =>
      refine ⟨.error fault, fun body hbody ↦ ?_⟩
      rw [hread hbody, hadd]
      rfl
    | ok options' =>
      obtain ⟨result, hresult⟩ := ih options'
      refine ⟨result, fun body hbody ↦ ?_⟩
      rw [hread hbody, hadd, ← hresult body hbody]
      rfl

theorem readOptions_trimEnd (h : IsOptions s) (hs : s ≠ []) (options : Options) :
    ∃ fault, readOptions options (trimEnd s) = .error fault := by
  induction h generalizing options with
  | nil => exact absurd rfl hs
  | @cons token blanks rest htoken hblanks hne hrest ih =>
    by_cases hnil : rest = []
    · have hlast : ∀ c ∈ ('-' :: '-' :: token).getLast?, isBlank c = false := by
        intro c hc
        have hmem := List.mem_of_mem_getLast? hc
        rw [List.mem_cons, List.mem_cons] at hmem
        rcases hmem with rfl | rfl | hmem
        · rfl
        · rfl
        · exact htoken c hmem
      have htrim : trimEnd ('-' :: '-' :: token ++ blanks) = '-' :: '-' :: token :=
        trimEnd_append hlast hblanks
      have hdrop : token.dropWhile (!isBlank ·) = [] :=
        List.dropWhile_eq_nil_iff.2 (by simpa using htoken)
      refine ⟨.danglingFlag, ?_⟩
      rw [hnil, List.append_nil, ← List.cons_append, ← List.cons_append, htrim, readOptions]
      simp [hdrop]
    · have htrim : trimEnd ('-' :: '-' :: (token ++ (blanks ++ rest))) =
          '-' :: '-' :: (token ++ (blanks ++ trimEnd rest)) := by
        simpa using trimEnd_append_right (s := '-' :: '-' :: (token ++ blanks))
          (trimEnd_ne_nil hrest.head hnil)
      rw [htrim, readOptions_option htoken hblanks hne (head_trimEnd hrest.head)]
      cases options.add token with
      | error fault => exact ⟨fault, rfl⟩
      | ok options' => exact ih hnil options'

end IsOptions

section Lines

variable {s body : List Char} {n : PackageName} {result : Except Fault Options}

/-- The name of a line ends with the first mark behind it. -/
theorem read_line (hs : IsOptions s) (hn : n.IsWritable) (body : List Char)
    (hresult : ∀ body, IsBody body →
      readOptions {} (s ++ body) = result.map fun options ↦ (options, body)) :
    read none (s ++ (n.text ++ '@' :: body)) =
      result >>= readBody (some n.fullName) (trimEnd body) := by
  have hline := isBody_named hn body
  refine read_of_options (t := trimEnd (n.text ++ '@' :: body)) ?_ ?_
  · rw [hs.trim_append hline (by simp), hresult _ hline.trimEnd]
  · rw [trimEnd_named, readName_text hn, trimEnd_eq_self (last_trimEnd _)]

theorem read_named (hs : IsOptions s) (hn : n.IsWritable) (hbody : IsBody body) (hne : body ≠ []) :
    read none (s ++ (n.text ++ '@' :: body)) = read (some n.fullName) (s ++ body) := by
  obtain ⟨result, hresult⟩ := hs.readOptions_append {}
  have hentry : readOptions {} (trim (s ++ body)) =
      result.map fun options ↦ (options, trimEnd body) := by
    rw [hs.trim_append hbody hne, hresult _ hbody.trimEnd]
  rw [read_line hs hn body hresult, read_of_options hentry rfl]

theorem read_named_nil (hs : IsOptions s) (hn : n.IsWritable) :
    ∃ fault, read none (s ++ (n.text ++ ['@'])) = .error fault := by
  obtain ⟨result, hresult⟩ := hs.readOptions_append {}
  rw [read_line hs hn [] hresult]
  cases result with
  | error fault => exact ⟨fault, rfl⟩
  | ok options => exact ⟨.missingTarget, rfl⟩

theorem read_options (hs : IsOptions s) (known : String) :
    ∃ fault, read (some known) s = .error fault := by
  by_cases hnil : s = []
  · have hnone : readOptions {} (trim []) = .ok ({}, []) := readOptions_stop (by decide)
    refine ⟨.missingTarget, ?_⟩
    rw [hnil, read, hnone]
    rfl
  · obtain ⟨fault, hfault⟩ := hs.readOptions_trimEnd hnil {}
    refine ⟨fault, ?_⟩
    rw [read, trim_eq_trimEnd hs.head, hfault]
    rfl

end Lines

/-- A line that names a package and the entry of the package with the same options and the same body
are read as the same requirement, or neither is read. Where there is a body, they fail for the same
reason. -/
theorem parse_iff_parseNamed (name options body : String) (n : PackageName)
    (hname : PackageName.parse name = .ok n) (hfull : n.fullName = name)
    (hoptions : IsOptions options.toList) (hbody : IsBody body.toList) :
    (∀ r, parse (options ++ name ++ "@" ++ body) = .ok r ↔
      parseNamed name (options ++ body) = .ok r) ∧
    (body ≠ "" → ∀ fault,
      parse (options ++ name ++ "@" ++ body) =
          .error (.requirement (options ++ name ++ "@" ++ body) fault) ↔
        parseNamed name (options ++ body) = .error (.requirement (options ++ body) fault)) := by
  have hn : n.IsWritable := (PackageName.read_eq_ok_iff.1 (ok_of_mapError hname)).1
  have hline : (options ++ name ++ "@" ++ body).toList =
      options.toList ++ (n.text ++ '@' :: body.toList) := by
    simp [← hfull, PackageName.fullName]
  have hentry : (options ++ body).toList = options.toList ++ body.toList := String.toList_append
  rw [parse, parseNamed, hline, hentry]
  by_cases hempty : body = ""
  · obtain ⟨fault, hfault⟩ := read_named_nil hoptions hn
    obtain ⟨fault', hfault'⟩ := read_options hoptions name
    have hnil : body.toList = [] := by rw [hempty]; rfl
    rw [hnil, List.append_nil, hfault, hfault']
    exact ⟨fun r ↦ by simp, fun hne ↦ absurd hempty hne⟩
  · rw [read_named hoptions hn hbody (by simpa using hempty), hfull]
    cases read (some name) (options.toList ++ body.toList) <;> simp

def cloned : Requirement where
  name := some "@sc/na.me"
  source := .git "ssh://git@host/r.git"
  flags := { pure := some true, link := some true }

theorem isOptions_cloned : IsOptions "--pure \t--link ".toList := by
  have hlink : IsOptions ('-' :: '-' :: (Flag.link.name.toList ++ ([' '] ++ []))) :=
    .cons (eq_false_of_any (by decide)) (by decide) (by simp) .nil
  have hpure : IsOptions ('-' :: '-' :: (Flag.pure.name.toList ++ ([' ', '\t'] ++ _))) :=
    .cons (eq_false_of_any (by decide)) (by decide) (by simp) hlink
  exact hpure

theorem parseNamed_cloned :
    parseNamed "@sc/na.me" "--pure \t--link git+ssh://git@host/r.git " = .ok cloned := by
  have hword (flag : Flag) : ∀ c ∈ flag.name.toList, isBlank c = false :=
    eq_false_of_any (by cases flag <;> decide)
  have htrim : trim "--pure \t--link git+ssh://git@host/r.git ".toList =
      '-' :: '-' :: (Flag.pure.name.toList ++ ([' ', '\t'] ++ ('-' :: '-' ::
        (Flag.link.name.toList ++ ([' '] ++ "git+ssh://git@host/r.git".toList))))) := by
    decide +kernel
  have hoptions : readOptions {} (trim "--pure \t--link git+ssh://git@host/r.git ".toList) =
      .ok (⟨cloned.flags, none⟩, "git+ssh://git@host/r.git".toList) := by
    rw [htrim, readOptions_option (hword .pure) (by decide) (by simp) (by simp; decide),
      add_flag, ok_bind, readOptions_option (hword .link) (by decide) (by simp) (by simp; decide),
      add_flag, ok_bind, readOptions_stop (by decide)]
    rfl
  have hsource : readSource none "git+ssh://git@host/r.git".toList = .ok cloned.source := by
    decide +kernel
  rw [parseNamed, read_of_parts hoptions rfl (by decide) hsource]
  rfl

theorem parse_iff_parseNamed_cloned :
    PackageName.parse "@sc/na.me" = .ok ⟨some "sc", "na.me"⟩ ∧
      PackageName.fullName ⟨some "sc", "na.me"⟩ = "@sc/na.me" ∧
      IsOptions "--pure \t--link ".toList ∧ IsBody "git+ssh://git@host/r.git ".toList ∧
      parse "--pure \t--link @sc/na.me@git+ssh://git@host/r.git " = .ok cloned := by
  have hname : PackageName.parse "@sc/na.me" = .ok ⟨some "sc", "na.me"⟩ := by decide
  have hfull : PackageName.fullName ⟨some "sc", "na.me"⟩ = "@sc/na.me" := by decide
  have hbody : IsBody "git+ssh://git@host/r.git ".toList :=
    ⟨by rintro c ⟨⟩; rfl, by decide⟩
  refine ⟨hname, hfull, isOptions_cloned, hbody, ?_⟩
  exact ((parse_iff_parseNamed _ _ _ _ hname hfull isOptions_cloned hbody).1 cloned).2
    parseNamed_cloned

end Lading.Requirement
