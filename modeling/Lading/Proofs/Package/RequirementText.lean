import Lading.Package.Requirement
import Lading.Proofs.Package.NameText
import Lading.Proofs.Selector.Spelling

namespace Lading.Requirement

open Text

namespace Flags

variable {flags parent : Flags}

theorem ext_get {other : Flags} (h : ∀ flag, flags.get flag = other.get flag) : flags = other := by
  change (⟨flags.get .pure, flags.get .internal, flags.get .link, flags.get .optional,
    flags.get .recursive⟩ : Flags) = _
  rw [h, h, h, h, h]
  rfl

theorem get_set (flags : Flags) (flag other : Flag) (value : Option Bool) :
    (flags.set flag value).get other = if flag = other then value else flags.get other := by
  cases flag <;> cases other <;> rfl

theorem get_inherit (flags parent : Flags) (flag : Flag) :
    (flags.inherit parent).get flag = (flags.get flag <|> parent.get flag) := by
  cases flag <;> rfl

/-- Flags as lines set them. A line has no way to switch a flag off. -/
def IsWritable (flags : Flags) : Prop := ∀ flag, flags.get flag ≠ some false

theorem IsWritable.set (h : flags.IsWritable) (flag : Flag) :
    (flags.set flag (some true)).IsWritable := by
  intro other
  rw [get_set]
  split
  · simp
  · exact h other

theorem IsWritable.inherit (h : flags.IsWritable) (hparent : parent.IsWritable) :
    (flags.inherit parent).IsWritable := by
  intro flag
  rw [get_inherit]
  have hflag := h flag
  cases hvalue : flags.get flag with
  | none => exact hparent flag
  | some value => simpa [hvalue] using hflag

end Flags

def IsValue (s : List Char) : Prop := s ≠ [] ∧ ∀ c ∈ s, isBlank c = false

structure Options.IsWritable (options : Options) : Prop where
  flags : options.flags.IsWritable
  registry : ∀ registry ∈ options.registry, IsValue registry.toList

def Source.registry? : Source → Option String
  | .registry _ url => url
  | .path _ | .git _ => none

/-- What stands behind the options in a line. A source that is read has no blanks at its ends, but
a URL may start with blanks. -/
inductive Source.IsWritable : Source → Prop
  | registry {selector : Selector} {registry : Option String} (hselector : selector.IsWritable)
      (hregistry : ∀ value ∈ registry, IsValue value.toList) :
      IsWritable (.registry selector registry)
  | path {path : String} (hpath : isPath path.toList) (htrimmed : IsTrimmed path.toList) :
      IsWritable (.path path)
  | git {url : String} (hne : url.toList ≠ [])
      (htrimmed : IsTrimmed ("git+".toList ++ url.toList)) : IsWritable (.git url)

/-- A requirement that can be written. Where it has no name, none is found in its text. -/
structure IsWritable (r : Requirement) : Prop where
  name : ∀ name ∈ r.name, ∃ n : PackageName, n.IsWritable ∧ n.fullName = name
  source : r.source.IsWritable
  flags : r.flags.IsWritable
  unnamed : r.name = none → splitName r.source.text = none

section Reading

variable {options options' : Options} {token s t rest : List Char} {source : Source}

theorem readOptions_option {blanks : List Char} (htoken : ∀ c ∈ token, isBlank c = false)
    (hblanks : IsBlanks blanks) (hne : blanks ≠ []) (hrest : ∀ c ∈ rest.head?, isBlank c = false) :
    readOptions options ('-' :: '-' :: (token ++ (blanks ++ rest))) =
      options.add token >>= fun options' ↦ readOptions options' rest := by
  have hrun : ∀ c ∈ token, (!isBlank c) = true := by simpa using htoken
  have hend : ∀ c ∈ (blanks ++ rest).head?, (!isBlank c) = false := by
    rw [List.head?_append_of_ne_nil _ hne]
    intro c hc
    simp [hblanks c (List.mem_of_mem_head? hc)]
  have hbehind : blanks ++ rest ≠ [] := by simp [hne]
  rw [readOptions]
  simp only [takeWhile_run hrun hend, dropWhile_run hrun hend, hbehind, if_false,
    trimStart_append hblanks hrest]
  cases options.add token <;> rfl

theorem readOptions_token (htoken : ∀ c ∈ token, isBlank c = false)
    (hadd : options.add token = .ok options') (hrest : ∀ c ∈ rest.head?, isBlank c = false) :
    readOptions options ('-' :: '-' :: (token ++ ' ' :: rest)) = readOptions options' rest := by
  have hblank : IsBlanks [' '] := by decide
  have hread : readOptions options ('-' :: '-' :: (token ++ ([' '] ++ rest))) =
      options.add token >>= fun added ↦ readOptions added rest :=
    readOptions_option htoken hblank (by simp) hrest
  rw [hadd] at hread
  exact hread

theorem readOptions_of_not_dashes (h : ¬['-', '-'] <+: s) :
    readOptions options s = .ok (options, s) := by
  rw [readOptions.eq_def]
  split
  · exact absurd ⟨_, rfl⟩ h
  · rfl

theorem readOptions_stop (h : '-' ∉ s.head?) : readOptions options s = .ok (options, s) := by
  refine readOptions_of_not_dashes ?_
  rintro ⟨t, rfl⟩
  exact h rfl

theorem add_flag (flag : Flag) : options.add flag.name.toList =
    .ok { options with flags := options.flags.set flag (some true) } := by
  have hcut : cut '=' flag.name.toList = none := by cases flag <;> decide
  have hflag : Flag.ofName? flag.name = some flag := by cases flag <;> decide
  simp [Options.add, hcut, hflag]

theorem add_registry {registry : String} (h : IsValue registry.toList) :
    options.add ("registry=".toList ++ registry.toList) =
      .ok { options with registry := some registry } := by
  have hcut : cut '=' ("registry".toList ++ '=' :: registry.toList) =
      some ("registry".toList, registry.toList) := cut_append (by decide)
  change options.add ("registry".toList ++ '=' :: registry.toList) = _
  simp only [Options.add, hcut, ne_eq, h.1, not_false_eq_true, and_self, if_true,
    String.ofList_toList]

theorem head_flagText (flags : Flags) (all : List Flag) :
    ∀ c ∈ (all.flatMap (flagText flags)).head?, c = '-' := by
  induction all with
  | nil => simp
  | cons flag all ih =>
    rw [List.flatMap_cons]
    refine forall_head_append ?_ ih
    rw [flagText]
    split <;> simp

theorem head_registryText (source : Source) :
    ∀ c ∈ (registryText source).head?, isBlank c = false := by
  unfold registryText
  split
  · rintro c ⟨⟩
    rfl
  · simp

theorem readOptions_flagText (options : Options) (flags : Flags) (all : List Flag)
    (hrest : ∀ c ∈ rest.head?, isBlank c = false) :
    ∃ options', readOptions options (all.flatMap (flagText flags) ++ rest) =
        readOptions options' rest ∧
      options'.registry = options.registry ∧
      ∀ flag, options'.flags.get flag =
        if flag ∈ all ∧ flags.get flag = some true then some true else options.flags.get flag := by
  -- What was read before does not decide what is read next, so the induction is on the flags that
  -- are still to come.
  induction all generalizing options with
  | nil => exact ⟨options, by simp⟩
  | cons flag all ih =>
    by_cases hflag : flags.get flag = some true
    · obtain ⟨options', hread, hregistry, hget⟩ :=
        ih { options with flags := options.flags.set flag (some true) }
      have hname : ∀ c ∈ flag.name.toList, isBlank c = false :=
        eq_false_of_any (by cases flag <;> decide)
      have hhead : ∀ c ∈ (all.flatMap (flagText flags) ++ rest).head?, isBlank c = false :=
        forall_head_append (fun c hc ↦ head_flagText flags all c hc ▸ rfl) hrest
      refine ⟨options', ?_, hregistry, ?_⟩
      · rw [← hread, ← readOptions_token hname (add_flag flag) hhead]
        simp [flagText, hflag]
      · intro other
        rw [hget, Flags.get_set]
        by_cases hother : other = flag
        · simp [hother, hflag]
        · simp [hother, Ne.symm hother]
    · obtain ⟨options', hread, hregistry, hget⟩ := ih options
      refine ⟨options', ?_, hregistry, ?_⟩
      · rw [← hread]
        simp [flagText, hflag]
      · intro other
        rw [hget]
        by_cases hother : other = flag
        · simp [hother, hflag]
        · simp [hother]

theorem readOptions_registryText (hsource : source.IsWritable)
    (hoptions : options.registry = none) (hrest : ∀ c ∈ rest.head?, isBlank c = false) :
    readOptions options (registryText source ++ rest) =
      readOptions { options with registry := source.registry? } rest := by
  have hnone : readOptions options ([] ++ rest) =
      readOptions { options with registry := none } rest := by
    rw [← hoptions, List.nil_append]
  cases hsource with
  | @registry selector url hselector hregistry =>
    cases url with
    | none => exact hnone
    | some url =>
      obtain ⟨hne, hplain⟩ := hregistry url rfl
      have htoken : ∀ c ∈ "registry=".toList ++ url.toList, isBlank c = false := by
        rw [List.forall_mem_append]
        exact ⟨eq_false_of_any (by decide), hplain⟩
      have htext : registryText (.registry selector (some url)) ++ rest =
          '-' :: '-' :: ("registry=".toList ++ url.toList ++ ' ' :: rest) := by
        have hword : "--registry=".toList = '-' :: '-' :: "registry=".toList := by decide
        change "--registry=".toList ++ url.toList ++ [' '] ++ rest = _
        simp only [hword, List.cons_append, List.append_assoc, List.nil_append]
      rw [htext]
      exact readOptions_token htoken (add_registry ⟨hne, hplain⟩) hrest
  | path | git => exact hnone

theorem splitName_of_notMem (h : '@' ∉ s) : splitName s = none := by
  unfold splitName
  split
  · rfl
  · split
    · exact absurd List.mem_cons_self h
    · exact cut_eq_none_iff.2 h

theorem splitName_text {n : PackageName} (h : n.IsWritable) :
    splitName (n.text ++ '@' :: rest) = some (n.text, rest) := by
  have hat {word : List Char} (hword : PackageName.isWord word) : '@' ∉ word :=
    PackageName.notMem_of_isWord hword rfl
  obtain ⟨scope, name⟩ := n
  cases scope with
  | some scope =>
    have hmem : '@' ∉ scope.toList ++ '/' :: name.toList := by
      simp [hat (h.scope scope rfl), hat h.name]
    have hcut := cut_append (t := rest) hmem
    have htext : PackageName.text ⟨some scope, name⟩ ++ '@' :: rest =
        '@' :: (scope.toList ++ '/' :: name.toList ++ '@' :: rest) := by
      simp [PackageName.text_scoped]
    rw [htext, PackageName.text_scoped]
    simp only [splitName, hcut]
    rfl
  | none =>
    change splitName (name.toList ++ '@' :: rest) = some (name.toList, rest)
    -- A name has no plus sign, so that what it starts is not taken for a git URL.
    have hgit : ¬"git+".toList.isPrefixOf (name.toList ++ '@' :: rest) := by
      intro hprefix
      obtain ⟨t, ht⟩ := List.isPrefixOf_iff_prefix.1 hprefix
      have hsplit : "git".toList ++ '+' :: t = name.toList ++ '@' :: rest := ht
      have hgit : "git".toList.all PackageName.isNameChar := by decide
      have hplus : ∀ c ∈ ('+' :: t).head?, PackageName.isNameChar c = false := by
        rintro c ⟨⟩
        rfl
      have hat : ∀ c ∈ ('@' :: rest).head?, PackageName.isNameChar c = false := by
        rintro c ⟨⟩
        rfl
      have hrest := (run_append_inj (List.all_eq_true.1 hgit) hplus
        (PackageName.isNameChar_of_isWord h.name) hat hsplit).2
      cases hrest
    have hstart : ∀ body, name.toList ++ '@' :: rest ≠ '@' :: body := by
      intro body hbody
      have hhead := PackageName.isNameStart_of_isWord h.name ('@' :: rest)
      rw [hbody] at hhead
      exact absurd (hhead '@' rfl) (by decide)
    rw [splitName, if_neg hgit]
    · exact cut_append (hat h.name)
    · exact hstart

theorem head_path (h : isPath s) : '.' ∈ s.head? ∨ '/' ∈ s.head? := by
  have hall : ∀ front ∈ [['.', '/'], ['.', '\\'], ['.', '.', '/'], ['.', '.', '\\'], ['/']],
      ∃ c more, front = c :: more ∧ (c = '.' ∨ c = '/') := by simp
  obtain ⟨front, hfront, hprefix⟩ := List.any_eq_true.1 h
  obtain ⟨t, rfl⟩ := List.isPrefixOf_iff_prefix.1 hprefix
  obtain ⟨d, more, rfl, hd⟩ := hall front hfront
  exact hd.imp (congrArg some) (congrArg some)

theorem notMem_head_path {c : Char} (h : isPath s) (hdot : c ≠ '.') (hslash : c ≠ '/') :
    c ∉ s.head? := by
  intro hc
  rcases head_path h with hd | hd
  · exact hdot (Option.mem_unique hc hd)
  · exact hslash (Option.mem_unique hc hd)

theorem after?_git (h : 'g' ∉ s.head?) : after? "git+".toList s = none := by
  rw [Option.eq_none_iff_forall_not_mem]
  intro t ht
  rw [after?_eq_some_iff.1 ht] at h
  exact h rfl

namespace Source.IsWritable

theorem isTrimmed_text (h : source.IsWritable) : IsTrimmed source.text := by
  cases h with
  | registry hselector => exact (Selector.starts_text hselector).2.1
  | path _ htrimmed | git _ htrimmed => exact htrimmed

theorem text_ne_nil (h : source.IsWritable) : source.text ≠ [] := by
  cases h with
  | registry hselector => exact (Selector.starts_text hselector).1
  | path hpath =>
    intro hnil
    rw [Source.text] at hnil
    rw [hnil] at hpath
    cases hpath
  | git => simp [Source.text]

theorem dash_notMem_head (h : source.IsWritable) : '-' ∉ source.text.head? := by
  intro hdash
  cases h with
  | registry hselector => exact Selector.notMem_head_text hselector rfl hdash
  | path hpath => exact notMem_head_path hpath (by decide) (by decide) hdash
  | git => exact absurd hdash (by simp [Source.text])

theorem readSource_text (h : source.IsWritable) :
    readSource source.registry? source.text = .ok source := by
  cases h with
  | @registry selector url hselector hregistry =>
    have hgit : after? "git+".toList selector.text = none :=
      after?_git (Selector.notMem_head_text hselector rfl)
    have hpath : ¬isPath selector.text := by
      intro hpath
      rcases head_path hpath with hd | hd <;> exact Selector.notMem_head_text hselector rfl hd
    simp only [readSource, readLocation, Source.text, hgit, hpath, Bool.false_eq_true, if_false,
      Selector.read_text hselector]
    rfl
  | @path path hpath =>
    have hgit : after? "git+".toList path.toList = none :=
      after?_git (notMem_head_path hpath (by decide) (by decide))
    simp only [readSource, readLocation, Source.text, hgit, hpath, if_true, String.ofList_toList]
    rfl
  | @git url hne =>
    simp only [readSource, readLocation, Source.text, after?_append, hne, if_false,
      String.ofList_toList]
    rfl

end Source.IsWritable

def nameText : Option String → List Char
  | none => []
  | some name => name.toList ++ ['@']

def body (r : Requirement) : List Char := nameText r.name ++ r.source.text

theorem readName_text {n : PackageName} (h : n.IsWritable) (rest : List Char) :
    readName none (n.text ++ '@' :: rest) = .ok (some n.fullName, trimEnd rest) := by
  have hread : PackageName.read (trim n.text) = .ok n := by
    rw [h.isTrimmed_text.trim_eq]
    exact PackageName.read_eq_ok_iff.2 ⟨h, rfl⟩
  simp only [readName, splitName_text h, hread]

theorem readName_body {r : Requirement} (h : r.IsWritable) :
    readName none r.body = .ok (r.name, r.source.text) := by
  obtain ⟨name, source, flags⟩ := r
  cases name with
  | none =>
    have hsplit : splitName source.text = none := h.unnamed rfl
    simp only [readName, body, nameText, List.nil_append, hsplit]
  | some name =>
    obtain ⟨n, hn, rfl⟩ := h.name name rfl
    have hbody : body ⟨some n.fullName, source, flags⟩ = n.text ++ '@' :: source.text := by
      simp [body, nameText, PackageName.fullName]
    rw [hbody, readName_text hn, trimEnd_eq_self h.source.isTrimmed_text.last]

theorem head_body {r : Requirement} (h : r.IsWritable) :
    ∀ c ∈ r.body.head?, isBlank c = false ∧ c ≠ '-' := by
  have hsource : ∀ c ∈ r.source.text.head?, isBlank c = false ∧ c ≠ '-' := by
    intro c hc
    refine ⟨h.source.isTrimmed_text.head c hc, ?_⟩
    rintro rfl
    exact h.source.dash_notMem_head hc
  refine forall_head_append ?_ hsource
  cases hname : r.name with
  | none => simp [nameText]
  | some name =>
    obtain ⟨n, hn, rfl⟩ := h.name name hname
    intro c hc
    have hc : c ∈ n.text.head? := by
      simpa [nameText, PackageName.fullName, List.head?_append_of_ne_nil _ hn.text_ne_nil] using hc
    refine ⟨hn.isTrimmed_text.head c hc, ?_⟩
    rintro rfl
    exact hn.dash_notMem_head hc

theorem text_eq (r : Requirement) :
    r.text = Flag.all.flatMap (flagText r.flags) ++ (registryText r.source ++ r.body) := by
  obtain ⟨name, source, flags⟩ := r
  cases name <;> simp [text, body, nameText]

theorem head_registered {r : Requirement} (h : r.IsWritable) :
    ∀ c ∈ (registryText r.source ++ r.body).head?, isBlank c = false :=
  forall_head_append (head_registryText r.source) fun c hc ↦ (head_body h c hc).1

theorem isTrimmed_text {r : Requirement} (h : r.IsWritable) : IsTrimmed r.text := by
  rw [text_eq]
  have hflags : ∀ c ∈ (Flag.all.flatMap (flagText r.flags)).head?, isBlank c = false :=
    fun c hc ↦ head_flagText r.flags _ c hc ▸ rfl
  refine ⟨forall_head_append hflags (head_registered h), ?_⟩
  rw [body, ← List.append_assoc, ← List.append_assoc,
    List.getLast?_append_of_ne_nil _ h.source.text_ne_nil]
  exact h.source.isTrimmed_text.last

theorem readOptions_text {r : Requirement} (h : r.IsWritable) :
    readOptions {} r.text = .ok (⟨r.flags, r.source.registry?⟩, r.body) := by
  have hbody := head_body h
  obtain ⟨options, hread, hnone, hget⟩ :=
    readOptions_flagText {} r.flags Flag.all (head_registered h)
  have hflags : options.flags = r.flags := by
    refine Flags.ext_get fun flag ↦ ?_
    have hmem : flag ∈ Flag.all := by cases flag <;> decide
    have hunset : (({} : Options).flags).get flag = none := by cases flag <;> rfl
    have hflag := h.flags flag
    rw [hget, hunset]
    cases hvalue : r.flags.get flag with
    | none => simp
    | some value =>
      cases value with
      | true => simp [hmem]
      | false => exact absurd hvalue hflag
  rw [text_eq, hread, readOptions_registryText h.source hnone fun c hc ↦ (hbody c hc).1,
    readOptions_stop fun hc ↦ (hbody _ hc).2 rfl, hflags]

/-- What is read of the rest of a line, behind the options and the name. -/
def readBody (name : Option String) (rest : List Char) (options : Options) :
    Except Fault Requirement :=
  if rest = [] then .error .missingTarget
  else (readSource options.registry rest).map fun source ↦ ⟨name, source, options.flags⟩

theorem read_of_options {known name : Option String} {result : Except Fault Options}
    (hs : readOptions {} (trim s) = result.map fun options ↦ (options, t))
    (ht : readName known t = .ok (name, rest)) :
    read known s = result >>= readBody name rest := by
  rw [read, hs]
  cases result with
  | error fault => rfl
  | ok options =>
    change (readName known t >>= fun parts ↦ _) = _
    rw [ht]
    change (if rest = [] then _ else _) = (if rest = [] then _ else _)
    split
    · rfl
    · cases readSource options.registry rest <;> rfl

theorem read_of_parts {known name : Option String} (hs : readOptions {} (trim s) = .ok (options, t))
    (ht : readName known t = .ok (name, rest)) (hrest : rest ≠ [])
    (hsource : readSource options.registry rest = .ok source) :
    read known s = .ok ⟨name, source, options.flags⟩ := by
  have hoptions : readOptions {} (trim s) =
      (Except.ok options : Except Fault Options).map fun options ↦ (options, t) := hs
  rw [read_of_options hoptions ht, ok_bind, readBody, if_neg hrest, hsource]
  rfl

theorem read_text {r : Requirement} (h : r.IsWritable) : read none r.text = .ok r := by
  have hoptions := readOptions_text h
  rw [← (isTrimmed_text h).trim_eq] at hoptions
  exact read_of_parts hoptions (readName_body h) h.source.text_ne_nil h.source.readSource_text

theorem of_add (htoken : ∀ c ∈ token, isBlank c = false) (hoptions : options.IsWritable)
    (h : options.add token = .ok options') : options'.IsWritable := by
  unfold Options.add at h
  split at h
  · rename_i option value hcut
    split at h
    · rename_i hregistry
      cases h
      refine ⟨hoptions.flags, ?_⟩
      rintro _ ⟨⟩
      rw [String.toList_ofList]
      refine ⟨hregistry.2, fun c hc ↦ htoken c ?_⟩
      rw [(cut_eq_some_iff.1 hcut).2]
      simp [hc]
    · cases h
  · split at h
    · cases h
      exact ⟨hoptions.flags.set _, hoptions.registry⟩
    · cases h

theorem of_readOptions (hs : IsTrimmed s) (hoptions : options.IsWritable)
    (h : readOptions options s = .ok (options', rest)) : options'.IsWritable ∧ IsTrimmed rest := by
  fun_induction readOptions options s with
  | case1 => cases h
  | case2 => cases h
  | case3 options s token behind hne options'' hadd ih =>
    have htoken : ∀ c ∈ token, isBlank c = false := by
      intro c hc
      simpa using List.mem_takeWhile_imp hc
    have hsuffix : behind <:+ '-' :: '-' :: s :=
      (List.dropWhile_suffix _).trans (List.suffix_append ['-', '-'] s)
    exact ih (hs.trimStart_of_suffix hsuffix) (of_add htoken hoptions hadd) h
  | case4 =>
    cases h
    exact ⟨hoptions, hs⟩

theorem isWritable_noOptions : ({} : Options).IsWritable where
  flags flag := by cases flag <;> simp [Flags.get]
  registry := by simp

theorem of_readName {known name : Option String}
    (hs : IsTrimmed s)
    (hknown : ∀ x ∈ known, ∃ n : PackageName, n.IsWritable ∧ n.fullName = x)
    (h : readName known s = .ok (name, t)) :
    (∀ x ∈ name, ∃ n : PackageName, n.IsWritable ∧ n.fullName = x) ∧
      (∀ c ∈ t.getLast?, isBlank c = false) ∧ (name = none → splitName t = none) := by
  unfold readName at h
  split at h
  · rename_i left right hsplit
    split at h
    · rename_i n hread
      cases h
      refine ⟨?_, last_trimEnd right, by simp⟩
      rintro _ ⟨⟩
      exact ⟨n, (PackageName.read_eq_ok_iff.1 hread).1, rfl⟩
    · cases h
  · rename_i hnot
    cases h
    refine ⟨hknown, hs.last, ?_⟩
    -- Without a name from elsewhere, the text is left whole only if there was no name in it.
    rintro rfl
    cases hsplit : splitName s with
    | none => rfl
    | some parts => exact absurd hsplit (hnot parts.1 parts.2 rfl)

theorem of_readLocation (hs : ∀ c ∈ s.getLast?, isBlank c = false)
    (h : readLocation s = .ok (some source)) : source.IsWritable ∧ source.text = s := by
  unfold readLocation at h
  split at h
  · rename_i url hurl
    split at h
    · cases h
    · rename_i hne
      cases h
      have htext : s = "git+".toList ++ url := after?_eq_some_iff.1 hurl
      have hwhole : "git+".toList ++ (String.ofList url).toList = s := by
        rw [htext]
        exact congrArg _ String.toList_ofList
      refine ⟨.git (by simpa using hne) ⟨?_, ?_⟩, hwhole⟩
      · rintro c ⟨⟩
        rfl
      · rwa [hwhole]
  · split at h
    · rename_i hpath
      cases h
      have hwhole : (String.ofList s).toList = s := String.toList_ofList
      refine ⟨.path (hwhole.symm ▸ hpath) (hwhole.symm ▸ ⟨?_, hs⟩), hwhole⟩
      intro c hc
      rcases head_path hpath with hd | hd <;> rw [Option.mem_unique hc hd] <;> rfl
    · cases h

/-- A source that is read can be written, and no name is found in its text unless one is found in
the text it is read from. -/
theorem of_readSource {registry : Option String} (hs : ∀ c ∈ s.getLast?, isBlank c = false)
    (hregistry : ∀ value ∈ registry, IsValue value.toList)
    (h : readSource registry s = .ok source) :
    source.IsWritable ∧ (splitName s = none → splitName source.text = none) := by
  unfold readSource at h
  split at h
  · cases h
  · rename_i found hfound
    split at h
    · cases h
    · cases h
      obtain ⟨hwritable, htext⟩ := of_readLocation hs hfound
      exact ⟨hwritable, htext.symm ▸ id⟩
  · split at h
    · rename_i selector hread
      cases h
      have hselector := Selector.isWritable_of_read hread
      refine ⟨.registry hselector hregistry, fun _ ↦ ?_⟩
      exact splitName_of_notMem (Selector.notMem_text hselector (by decide) (by decide))
    · cases h

theorem isWritable_of_read {known : Option String} {r : Requirement}
    (hknown : ∀ x ∈ known, ∃ n : PackageName, n.IsWritable ∧ n.fullName = x)
    (h : read known s = .ok r) : r.IsWritable := by
  obtain ⟨⟨options, s₁⟩, hoptions, h⟩ := ok_of_bind h
  obtain ⟨⟨name, s₂⟩, hname, h⟩ := ok_of_bind h
  obtain ⟨hwritable, hs₁⟩ := of_readOptions (isTrimmed_trim s) isWritable_noOptions hoptions
  obtain ⟨hnames, hs₂, hunnamed⟩ := of_readName hs₁ hknown hname
  dsimp only at h
  split at h
  · cases h
  · obtain ⟨source, hsource, h⟩ := ok_of_bind h
    cases h
    obtain ⟨hsource, hsplit⟩ := of_readSource hs₂ hwritable.registry hsource
    exact ⟨hnames, hsource, hwritable.flags, fun hnone ↦ hsplit (hunnamed hnone)⟩

theorem flags_of_read {known : Option String} {r : Requirement} (h : read known s = .ok r) :
    r.flags.IsWritable := by
  obtain ⟨⟨options, s₁⟩, hoptions, h⟩ := ok_of_bind h
  obtain ⟨⟨name, s₂⟩, -, h⟩ := ok_of_bind h
  dsimp only at h
  split at h
  · cases h
  · obtain ⟨source, -, h⟩ := ok_of_bind h
    cases h
    exact (of_readOptions (isTrimmed_trim s) isWritable_noOptions hoptions).1.flags

end Reading

theorem IsWritable.inherit {r parent : Requirement} (h : r.IsWritable)
    (hparent : parent.flags.IsWritable) : (r.inherit parent).IsWritable where
  name := h.name
  source := h.source
  flags := h.flags.inherit hparent
  unnamed := h.unnamed

theorem IsWritable.foldl_inherit {r : Requirement} {parents : List Requirement}
    (h : r.IsWritable) (hparents : ∀ parent ∈ parents, parent.flags.IsWritable) :
    (parents.foldl Requirement.inherit r).IsWritable := by
  induction parents generalizing r with
  | nil => exact h
  | cons parent parents ih =>
    rw [List.forall_mem_cons] at hparents
    exact ih (h.inherit hparents.1) hparents.2

/-- A requirement read from a line is read from its own text too, also after it took over flags from
other requirements that were read. -/
theorem parse_text_inherit (line : String) (r : Requirement) (h : parse line = .ok r)
    (parents : List Requirement) (hparents : ∀ parent ∈ parents, ∃ line,
      parse line = .ok parent ∨ ∃ name, parseNamed name line = .ok parent) :
    parse (toString (parents.foldl inherit r)) = .ok (parents.foldl inherit r) := by
  have hr : r.IsWritable := isWritable_of_read (by simp) (ok_of_mapError h)
  have hflags : ∀ parent ∈ parents, parent.flags.IsWritable := by
    intro parent hmem
    obtain ⟨line, hline | ⟨name, hline⟩⟩ := hparents parent hmem
    · exact flags_of_read (ok_of_mapError hline)
    · exact flags_of_read (ok_of_mapError hline)
  have hread := read_text (hr.foldl_inherit hflags)
  rw [parse]
  change (read none (String.ofList _).toList).mapError _ = _
  rw [String.toList_ofList, hread, mapError_ok]

def linked : Requirement where
  name := some "@sc/na.me"
  source := .registry ⟨[[⟨.greaterEq, ⟨1, 0, 0, [], []⟩⟩, ⟨.less, ⟨2, 0, 0, [], []⟩⟩], []]⟩
    (some "https://r/?v=1")
  flags := { link := some true }

theorem parse_linked : parse " --link --registry=https://r/?v=1 @sc/na.me @ >=1.0.0 , <2.0.0|| *" =
    .ok linked := by
  have hlink : ∀ c ∈ Flag.link.name.toList, isBlank c = false := eq_false_of_any (by decide)
  have hvalue : IsValue "https://r/?v=1".toList := ⟨by decide, eq_false_of_any (by decide)⟩
  have hregistry : ∀ c ∈ "registry=".toList ++ "https://r/?v=1".toList, isBlank c = false :=
    eq_false_of_any (by decide)
  have htrim : trim " --link --registry=https://r/?v=1 @sc/na.me @ >=1.0.0 , <2.0.0|| *".toList =
      '-' :: '-' :: (Flag.link.name.toList ++ ' ' :: '-' :: '-' ::
        ("registry=".toList ++ "https://r/?v=1".toList ++ ' ' ::
          "@sc/na.me @ >=1.0.0 , <2.0.0|| *".toList)) := by decide +kernel
  have hname : readName none "@sc/na.me @ >=1.0.0 , <2.0.0|| *".toList =
      .ok (some "@sc/na.me", " >=1.0.0 , <2.0.0|| *".toList) := by decide +kernel
  have hsource : readSource (some "https://r/?v=1") " >=1.0.0 , <2.0.0|| *".toList =
      .ok linked.source := by decide +kernel
  have hoptions : readOptions {} (trim
      " --link --registry=https://r/?v=1 @sc/na.me @ >=1.0.0 , <2.0.0|| *".toList) =
      .ok (⟨linked.flags, some "https://r/?v=1"⟩, "@sc/na.me @ >=1.0.0 , <2.0.0|| *".toList) := by
    rw [htrim, readOptions_token hlink (add_flag .link) (by simp; decide),
      readOptions_token hregistry (add_registry hvalue) (by simp; decide),
      readOptions_stop (by decide)]
    rfl
  rw [parse, read_of_parts hoptions hname (by decide) hsource]
  rfl

def pureLib : Requirement where
  name := some "lib"
  source := .path "./lib@2"
  flags := { pure := some true }

theorem parseNamed_pureLib : parseNamed "lib" "--pure ./lib@2" = .ok pureLib := by
  have hpure : ∀ c ∈ Flag.pure.name.toList, isBlank c = false := eq_false_of_any (by decide)
  have htrim : trim "--pure ./lib@2".toList =
      '-' :: '-' :: (Flag.pure.name.toList ++ ' ' :: "./lib@2".toList) := by decide +kernel
  have hname : readName (some "lib") "./lib@2".toList = .ok (some "lib", "./lib@2".toList) := by
    decide +kernel
  have hsource : readSource none "./lib@2".toList = .ok pureLib.source := by decide +kernel
  have hoptions : readOptions {} (trim "--pure ./lib@2".toList) =
      .ok (⟨pureLib.flags, none⟩, "./lib@2".toList) := by
    rw [htrim, readOptions_token hpure (add_flag .pure) (by simp; decide),
      readOptions_stop (by decide)]
    rfl
  rw [parseNamed, read_of_parts hoptions hname (by decide) hsource]
  rfl

theorem parse_text_inherit_linked :
    parse " --link --registry=https://r/?v=1 @sc/na.me @ >=1.0.0 , <2.0.0|| *" = .ok linked ∧
      parseNamed "lib" "--pure ./lib@2" = .ok pureLib ∧
      parse "--pure --link --registry=https://r/?v=1 @sc/na.me@>=1.0.0 <2.0.0 || *" =
        .ok (linked.inherit pureLib) := by
  have hparents : ∀ parent ∈ [pureLib], ∃ line,
      parse line = .ok parent ∨ ∃ name, parseNamed name line = .ok parent := by
    intro parent hmem
    rw [List.mem_singleton.1 hmem]
    exact ⟨_, .inr ⟨_, parseNamed_pureLib⟩⟩
  have htext : toString (linked.inherit pureLib) =
      "--pure --link --registry=https://r/?v=1 @sc/na.me@>=1.0.0 <2.0.0 || *" := by decide +kernel
  have hread := parse_text_inherit _ linked parse_linked [pureLib] hparents
  refine ⟨parse_linked, parseNamed_pureLib, ?_⟩
  rw [← htext]
  exact hread

end Lading.Requirement
