import Lading.Package.Reference
import Lading.Proofs.Package.NameText
import Lading.Proofs.Selector.Spelling

namespace Lading.Reference

open Text PackageName

def marked (mark : Char) : Option (List Char) → List Char
  | none => []
  | some s => mark :: s

/-- What stands between the marks of a reference. -/
structure Parts where
  package : PackageName
  selector : Option (List Char)
  module : Option (List (List Char))
  member : Option (List Char)
deriving DecidableEq

namespace Parts

def path (p : Parts) : Option (List Char) := p.module.map (joinWith '/')

def text (p : Parts) : List Char :=
  p.package.text ++
    (marked '@' p.selector ++ (marked '/' p.path ++ marked ':' p.member))

def reference (p : Parts) : Reference where
  package := p.package
  selector := p.selector.bind fun s ↦ (Selector.read s).toOption
  module := p.path.map String.ofList
  member := p.member.map String.ofList

structure IsWellFormed (p : Parts) : Prop where
  package : p.package.IsWritable
  selector : ∀ s ∈ p.selector, '/' ∉ s ∧ ':' ∉ s ∧ ∃ selector, Selector.read s = .ok selector
  module : ∀ segments ∈ p.module, segments ≠ [] ∧ ∀ segment ∈ segments, isWord segment
  member : ∀ s ∈ p.member, isMember s

end Parts

section Marks

variable {mark : Char} {s s' : Option (List Char)} {rest rest' : List Char}

theorem eq_mark_of_mem_head {c : Char} (h : c ∈ (marked mark s).head?) : c = mark := by
  cases s with
  | none => cases h
  | some s =>
    cases h
    rfl

theorem last_marked (hmark : isBlank mark = false)
    (hs : ∀ t ∈ s, ∀ c ∈ t.getLast?, isBlank c = false) :
    ∀ c ∈ (marked mark s).getLast?, isBlank c = false := by
  cases s with
  | none => simp [marked]
  | some t =>
    have hfirst : ∀ c ∈ [mark].getLast?, isBlank c = false := by simpa using hmark
    exact forall_last_append hfirst (hs t rfl)

/-- A part that ends where the next mark is found is told by its text. -/
theorem marked_append_inj {p : Char → Bool} (hs : ∀ t ∈ s, ∀ c ∈ t, p c)
    (hs' : ∀ t ∈ s', ∀ c ∈ t, p c)
    (hrest : ∀ c ∈ rest.head?, c ≠ mark ∧ p c = false)
    (hrest' : ∀ c ∈ rest'.head?, c ≠ mark ∧ p c = false)
    (h : marked mark s ++ rest = marked mark s' ++ rest') : s = s' ∧ rest = rest' := by
  cases s with
  | none =>
    cases s' with
    | none => exact ⟨rfl, h⟩
    | some t =>
      change rest = mark :: (t ++ rest') at h
      exact absurd rfl (hrest mark (by rw [h]; rfl)).1
  | some t =>
    cases s' with
    | none =>
      change mark :: (t ++ rest) = rest' at h
      exact absurd rfl (hrest' mark (by rw [← h]; rfl)).1
    | some t' =>
      obtain ⟨rfl, hrest⟩ := run_append_inj (hs t rfl) (fun c hc ↦ (hrest c hc).2) (hs' t' rfl)
        (fun c hc ↦ (hrest' c hc).2) (List.cons.inj h).2
      exact ⟨rfl, hrest⟩

end Marks

section Steps

variable {s rest : List Char}

theorem trim_ne_nil_of_read {selector : Selector} (h : Selector.read s = .ok selector) :
    trim s ≠ [] := by
  intro hs
  simp [Selector.read, hs] at h

theorem selector_run (hslash : '/' ∉ s) (hcolon : ':' ∉ s) :
    ∀ c ∈ s, (c != '/' && c != ':') = true := by
  intro c hc
  simp only [Bool.and_eq_true, bne_iff_ne]
  exact ⟨ne_of_mem_of_not_mem hc hslash, ne_of_mem_of_not_mem hc hcolon⟩

theorem readSelector_marked {selector : Option (List Char)}
    (hselector : ∀ s ∈ selector, '/' ∉ s ∧ ':' ∉ s ∧ ∃ x, Selector.read s = .ok x)
    (hrest : ∀ c ∈ rest.head?, c = '/' ∨ c = ':') :
    readSelector (marked '@' selector ++ rest) =
      .ok (selector.bind fun s ↦ (Selector.read s).toOption, rest) := by
  cases selector with
  | none =>
    rw [marked, List.nil_append, readSelector.eq_def]
    split
    · exact absurd (hrest '@' rfl) (by decide)
    · rfl
  | some s =>
    obtain ⟨hslash, hcolon, x, hread⟩ := hselector s rfl
    have hrun := selector_run hslash hcolon
    have hend : ∀ c ∈ rest.head?, (c != '/' && c != ':') = false := by
      intro c hc
      rcases hrest c hc with rfl | rfl <;> rfl
    simp only [marked, List.cons_append, readSelector, takeWhile_run hrun hend,
      dropWhile_run hrun hend, trim_ne_nil_of_read hread, if_false, hread, Option.bind_some,
      Except.toOption]

theorem of_readSelector {selector : Option Selector} (h : readSelector s = .ok (selector, rest)) :
    ∃ part : Option (List Char), s = marked '@' part ++ rest ∧
      selector = part.bind (fun s ↦ (Selector.read s).toOption) ∧
      ∀ s ∈ part, '/' ∉ s ∧ ':' ∉ s ∧ ∃ x, Selector.read s = .ok x := by
  unfold readSelector at h
  split at h
  · rename_i body
    dsimp only at h
    split at h
    · cases h
    · split at h
      · rename_i selector hread
        cases h
        have hall : ∀ c ∈ body.takeWhile (fun c ↦ c != '/' && c != ':'), c ≠ '/' ∧ c ≠ ':' := by
          intro c hc
          simpa using List.mem_takeWhile_imp hc
        refine ⟨some (body.takeWhile fun c ↦ c != '/' && c != ':'), ?_, ?_, ?_⟩
        · simp [marked, List.takeWhile_append_dropWhile]
        · simp [hread, Except.toOption]
        · rintro _ ⟨⟩
          exact ⟨fun hc ↦ (hall _ hc).1 rfl, fun hc ↦ (hall _ hc).2 rfl, selector, hread⟩
      · cases h
  · cases h
    exact ⟨none, rfl, rfl, by simp⟩

theorem isModuleSegment_eq_isWord (segment : List Char) :
    isModuleSegment segment = isWord segment := by
  rw [isModuleSegment]
  cases hword : isWord segment with
  | false => simp
  | true =>
    have hdot : segment ≠ ['.'] := by
      rintro rfl
      cases hword
    have hdots : segment ≠ ['.', '.'] := by
      rintro rfl
      cases hword
    simp [hdot, hdots]

theorem path_facts {segments : List (List Char)} (hne : segments ≠ [])
    (hwords : ∀ segment ∈ segments, isWord segment) :
    joinWith '/' segments ≠ [] ∧ (joinWith '/' segments).head? ≠ some '@' ∧
      (∀ c ∈ joinWith '/' segments, c ≠ ':') ∧
      (joinWith '/' segments).splitOn '/' = segments := by
  have hstart : ∀ c ∈ (joinWith '/' segments).head?, isNameStart c := by
    cases segments with
    | nil => exact absurd rfl hne
    | cons word words =>
      obtain ⟨more, hmore⟩ := joinWith_cons '/' word words
      rw [hmore]
      exact isNameStart_of_isWord (hwords word List.mem_cons_self) more
  refine ⟨?_, ?_, ?_, ?_⟩
  · cases segments with
    | nil => exact absurd rfl hne
    | cons word words =>
      obtain ⟨more, hmore⟩ := joinWith_cons '/' word words
      simp [hmore, ne_nil_of_isWord (hwords word List.mem_cons_self)]
  · intro hat
    exact absurd (hstart '@' hat) (by decide)
  · rintro c hc rfl
    rcases mem_joinWith hc with hc | ⟨word, hword, hc⟩
    · cases hc
    · exact notMem_of_isWord (hwords word hword) rfl hc
  · exact List.splitOn_intercalate '/'
      (fun word hword ↦ notMem_of_isWord (hwords word hword) rfl) hne

theorem readModule_marked {parts : Option (List (List Char))}
    (hparts : ∀ segments ∈ parts, segments ≠ [] ∧ ∀ segment ∈ segments, isWord segment)
    (hrest : ∀ c ∈ rest.head?, c = ':') :
    readModule (marked '/' (parts.map (joinWith '/')) ++ rest) =
      .ok ((parts.map (joinWith '/')).map String.ofList, rest) := by
  cases parts with
  | none =>
    rw [Option.map_none, marked, List.nil_append, readModule.eq_def]
    split
    · exact absurd (hrest '/' rfl) (by decide)
    · rfl
  | some segments =>
    obtain ⟨hne, hwords⟩ := hparts segments rfl
    obtain ⟨hpath, hhead, hcolon, hsplit⟩ := path_facts hne hwords
    have hrun : ∀ c ∈ joinWith '/' segments, (c != ':') = true := by simpa using hcolon
    have hend : ∀ c ∈ rest.head?, (c != ':') = false := by simpa using hrest
    have hall : segments.all isModuleSegment = true := by
      simpa only [List.all_eq_true, isModuleSegment_eq_isWord] using hwords
    simp only [Option.map_some, marked, List.cons_append, readModule, takeWhile_run hrun hend,
      dropWhile_run hrun hend, hpath, hhead, hsplit, hall, if_false, if_true]

theorem of_readModule {module : Option String} (h : readModule s = .ok (module, rest)) :
    ∃ parts : Option (List (List Char)), s = marked '/' (parts.map (joinWith '/')) ++ rest ∧
      module = (parts.map (joinWith '/')).map String.ofList ∧
      ∀ segments ∈ parts, segments ≠ [] ∧ ∀ segment ∈ segments, isWord segment := by
  unfold readModule at h
  split at h
  · rename_i body
    dsimp only at h
    split at h
    · cases h
    · split at h
      · cases h
      · split at h
        · rename_i hall
          cases h
          have hjoin : joinWith '/' ((body.takeWhile (· != ':')).splitOn '/') =
              body.takeWhile (· != ':') := List.intercalate_splitOn '/'
          refine ⟨some ((body.takeWhile (· != ':')).splitOn '/'), ?_, ?_, ?_⟩
          · simp [marked, hjoin, List.takeWhile_append_dropWhile]
          · simp [hjoin]
          · rintro _ ⟨⟩
            refine ⟨List.splitOn_ne_nil _ _, ?_⟩
            simpa only [List.all_eq_true, isModuleSegment_eq_isWord] using hall
        · cases h
  · cases h
    exact ⟨none, rfl, rfl, by simp⟩

theorem not_isBlank_of_isMember {s : List Char} (h : isMember s) : ∀ c ∈ s, isBlank c = false := by
  have hchar {c : Char} (hc : c.isAlphanum = true ∨ c = '_') : isBlank c = false := by
    rcases hc with hc | rfl
    · exact not_isBlank_of_isAlphanum c hc
    · rfl
  cases s with
  | nil => cases h
  | cons c s =>
    simp only [isMember, Bool.and_eq_true, Bool.or_eq_true, List.all_eq_true, beq_iff_eq] at h
    rw [List.forall_mem_cons]
    exact ⟨hchar (h.1.imp_left fun hc ↦ by simp [Char.isAlphanum, hc]), fun d hd ↦ hchar (h.2 d hd)⟩

theorem readMember_marked {member : Option (List Char)} (hmember : ∀ s ∈ member, isMember s) :
    readMember (marked ':' member) = .ok (member.map String.ofList) := by
  cases member with
  | none => rfl
  | some s => simp [marked, readMember, hmember s rfl]

theorem of_readMember {member : Option String} (h : readMember s = .ok member) :
    ∃ part : Option (List Char), s = marked ':' part ∧ member = part.map String.ofList ∧
      ∀ s ∈ part, isMember s := by
  unfold readMember at h
  split at h
  · cases h
    exact ⟨none, rfl, rfl, by simp⟩
  · rename_i body
    split at h
    · rename_i hbody
      cases h
      exact ⟨some body, rfl, rfl, by simpa using hbody⟩
    · cases h
  · cases h

/-- After a name and a selector, what is left starts with a slash or a colon. -/
theorem head_of_readSelector {selector : Option Selector}
    (h : readSelector s = .ok (selector, rest))
    (hs : ∀ c ∈ s.head?, c = '@' ∨ c = '/' ∨ c = ':') : ∀ c ∈ rest.head?, c = '/' ∨ c = ':' := by
  unfold readSelector at h
  split at h
  · dsimp only at h
    split at h
    · cases h
    · split at h
      · cases h
        intro c hc
        have hend := head_dropWhile (fun c ↦ c != '/' && c != ':') _ c hc
        simpa [or_iff_not_imp_left] using hend
      · cases h
  · rename_i hat
    cases h
    intro c hc
    refine (hs c hc).resolve_left ?_
    rintro rfl
    cases s with
    | nil => cases hc
    | cons d s =>
      cases hc
      exact hat s rfl

theorem head_of_readModule {module : Option String} (h : readModule s = .ok (module, rest))
    (hs : ∀ c ∈ s.head?, c = '/' ∨ c = ':') : ∀ c ∈ rest.head?, c = ':' := by
  unfold readModule at h
  split at h
  · dsimp only at h
    split at h
    · cases h
    · split at h
      · cases h
      · split at h
        · cases h
          intro c hc
          simpa using head_dropWhile (· != ':') _ c hc
        · cases h
  · rename_i hslash
    cases h
    intro c hc
    refine (hs c hc).resolve_left ?_
    rintro rfl
    cases s with
    | nil => cases hc
    | cons d s =>
      cases hc
      exact hslash s rfl

end Steps

theorem span_name {rest word : List Char} (hword : isWord word)
    (hrest : ∀ c ∈ rest.head?, c = '@' ∨ c = '/' ∨ c = ':') :
    (word ++ rest).takeWhile (fun c ↦ c != '@' && c != '/' && c != ':') = word ∧
      (word ++ rest).dropWhile (fun c ↦ c != '@' && c != '/' && c != ':') = rest := by
  have hrun : ∀ c ∈ word, (c != '@' && c != '/' && c != ':') = true := by
    intro c hc
    simp only [Bool.and_eq_true, bne_iff_ne]
    refine ⟨⟨?_, ?_⟩, ?_⟩ <;> rintro rfl <;> exact notMem_of_isWord hword rfl hc
  have hend : ∀ c ∈ rest.head?, (c != '@' && c != '/' && c != ':') = false := by
    intro c hc
    rcases hrest c hc with rfl | rfl | rfl <;> rfl
  exact ⟨takeWhile_run hrun hend, dropWhile_run hrun hend⟩

namespace Parts

theorem head_member (p : Parts) : ∀ c ∈ (marked ':' p.member).head?, c = ':' :=
  fun _ ↦ eq_mark_of_mem_head

theorem head_module (p : Parts) :
    ∀ c ∈ (marked '/' p.path ++ marked ':' p.member).head?, c = '/' ∨ c = ':' :=
  forall_head_append (fun _ hc ↦ .inl (eq_mark_of_mem_head hc)) fun c hc ↦ .inr (p.head_member c hc)

theorem head_selector (p : Parts) :
    ∀ c ∈ (marked '@' p.selector ++ (marked '/' p.path ++ marked ':' p.member)).head?,
      c = '@' ∨ c = '/' ∨ c = ':' :=
  forall_head_append (fun _ hc ↦ .inl (eq_mark_of_mem_head hc)) fun c hc ↦ .inr (p.head_module c hc)

end Parts

theorem read_parts {p : Parts} (h : p.IsWellFormed) : read p.text = .ok p.reference := by
  obtain ⟨htake, hdrop⟩ := span_name h.package.name p.head_selector
  have hcheck : checkName p.package.name.toList = .ok p.package.name :=
    checkName_eq_ok_iff.2 ⟨h.package.name, rfl⟩
  have hmodule : readModule (marked '/' p.path ++ marked ':' p.member) =
      .ok (p.path.map String.ofList, marked ':' p.member) :=
    readModule_marked h.module p.head_member
  simp only [read, Parts.text, splitScope_text h.package, mapError_ok, ok_bind, htake, hdrop,
    hcheck, readSelector_marked h.selector p.head_module, hmodule, readMember_marked h.member]
  rfl

theorem parts_of_read {s : List Char} {r : Reference} (h : read s = .ok r) :
    ∃ p : Parts, p.IsWellFormed ∧ s = p.text ∧ p.reference = r := by
  obtain ⟨⟨scope, s₁⟩, hscope, h⟩ := ok_of_bind h
  obtain ⟨name, hname, h⟩ := ok_of_bind h
  obtain ⟨⟨selector, s₂⟩, hselector, h⟩ := ok_of_bind h
  obtain ⟨⟨module, s₃⟩, hmodule, h⟩ := ok_of_bind h
  obtain ⟨member, hmember, h⟩ := ok_of_bind h
  cases h
  obtain ⟨hword, hs₁⟩ := checkName_eq_ok_iff.1 (ok_of_mapError hname)
  obtain ⟨selector', hs₂, rfl, hselector'⟩ := of_readSelector hselector
  obtain ⟨module', hs₃, rfl, hmodule'⟩ := of_readModule hmodule
  obtain ⟨member', hs₄, rfl, hmember'⟩ := of_readMember hmember
  have htext := List.takeWhile_append_dropWhile (p := fun c ↦ c != '@' && c != '/' && c != ':')
    (l := s₁)
  rw [hs₁, hs₂, hs₃, hs₄] at htext
  rw [hs₁] at hword
  refine ⟨⟨⟨scope, name⟩, selector', module', member'⟩,
    ⟨⟨?_, hword⟩, hselector', hmodule', hmember'⟩, ?_, rfl⟩
  · rcases of_splitScope (ok_of_mapError hscope) with ⟨rfl, -⟩ | ⟨word, rfl, hscoped, -⟩
    · simp
    · simpa using hscoped
  · rcases of_splitScope (ok_of_mapError hscope) with ⟨rfl, rfl⟩ | ⟨word, rfl, -, rfl⟩
    · exact htext.symm
    · simp [Parts.text, text_scoped, Parts.path, ← htext]

namespace Parts

theorem selector_chars {p : Parts} (h : p.IsWellFormed) :
    ∀ s ∈ p.selector, ∀ c ∈ s, (c != '/' && c != ':') = true := by
  intro s hs
  obtain ⟨hslash, hcolon, -⟩ := h.selector s hs
  exact selector_run hslash hcolon

theorem path_chars {p : Parts} (h : p.IsWellFormed) :
    ∀ s ∈ p.path, ∀ c ∈ s, (c != ':') = true := by
  intro s hs c hc
  obtain ⟨segments, hmodule, rfl⟩ := Option.map_eq_some_iff.1 hs
  obtain ⟨hne, hwords⟩ := h.module segments hmodule
  simpa using (path_facts hne hwords).2.2.1 c hc

theorem module_inj {p q : Parts} (hp : p.IsWellFormed) (hq : q.IsWellFormed)
    (h : p.path = q.path) : p.module = q.module := by
  have hsplit {r : Parts} (hr : r.IsWellFormed) : r.path.map (·.splitOn '/') = r.module := by
    rw [path, Option.map_map]
    cases hmodule : r.module with
    | none => rfl
    | some segments =>
      obtain ⟨hne, hwords⟩ := hr.module segments hmodule
      exact congrArg some (path_facts hne hwords).2.2.2
  rw [← hsplit hp, ← hsplit hq, h]

theorem text_inj {p q : Parts} (hp : p.IsWellFormed) (hq : q.IsWellFormed)
    (h : p.text = q.text) : p = q := by
  -- The marks tell where the parts end, each among those that may still follow.
  have hmodule (r : Parts) : ∀ c ∈ (marked '/' r.path ++ marked ':' r.member).head?,
      c ≠ '@' ∧ (c != '/' && c != ':') = false := by
    intro c hc
    rcases r.head_module c hc with rfl | rfl <;> decide
  have hmember (r : Parts) : ∀ c ∈ (marked ':' r.member).head?, c ≠ '/' ∧ (c != ':') = false := by
    intro c hc
    rw [r.head_member c hc]
    decide
  have hsplit := splitScope_text hp.package
    (marked '@' p.selector ++ (marked '/' p.path ++ marked ':' p.member))
  rw [← Parts.text, h, Parts.text, splitScope_text hq.package] at hsplit
  obtain ⟨hscope, hrest⟩ := Prod.mk.inj (Except.ok.inj hsplit)
  obtain ⟨htake, hdrop⟩ := span_name hp.package.name p.head_selector
  obtain ⟨htake', hdrop'⟩ := span_name hq.package.name q.head_selector
  rw [hrest, htake] at htake'
  rw [hrest, hdrop] at hdrop'
  obtain ⟨hselector, hrest⟩ := marked_append_inj (selector_chars hp) (selector_chars hq)
    (hmodule p) (hmodule q) hdrop'
  obtain ⟨hpath, hrest⟩ := marked_append_inj (path_chars hp) (path_chars hq)
    (hmember p) (hmember q) hrest
  have hlast : p.member = q.member := by
    cases hpm : p.member <;> cases hqm : q.member <;> simp_all [marked]
  have hname : p.package.name = q.package.name := String.toList_inj.1 htake'
  have hpackage : p.package = q.package := by
    change (⟨p.package.scope, p.package.name⟩ : PackageName) = _
    rw [← hscope, hname]
  change (⟨p.package, p.selector, p.module, p.member⟩ : Parts) = _
  rw [hpackage, hselector, module_inj hp hq hpath, hlast]

end Parts

section Stray

variable {s : List Char} {stray : String}

theorem readSelector_ne_stray : readSelector s ≠ .error (.stray stray) := by
  unfold readSelector
  split
  · dsimp only
    split
    · simp
    · split <;> simp
  · simp

theorem readModule_ne_stray : readModule s ≠ .error (.stray stray) := by
  unfold readModule
  split
  · dsimp only
    split
    · simp
    · split
      · simp
      · split <;> simp
  · simp

theorem readMember_ne_stray (hs : ∀ c ∈ s.head?, c = ':') :
    readMember s ≠ .error (.stray stray) := by
  cases s with
  | nil => simp [readMember]
  | cons c s =>
    obtain rfl : c = ':' := hs c rfl
    rw [readMember]
    split <;> simp

theorem mapError_name_ne_stray {α : Type} (x : Except PackageName.Fault α) :
    x.mapError Fault.name ≠ .error (.stray stray) := by
  cases x <;> simp

/-- Whatever is left behind a selector and a module is a member or none. -/
theorem read_ne_stray : read s ≠ .error (.stray stray) := by
  intro h
  rcases error_of_bind h with h | ⟨⟨scope, s₁⟩, -, h⟩
  · exact mapError_name_ne_stray _ h
  rcases error_of_bind h with h | ⟨name, -, h⟩
  · exact mapError_name_ne_stray _ h
  have hs₁ : ∀ c ∈ (s₁.dropWhile fun c ↦ c != '@' && c != '/' && c != ':').head?,
      c = '@' ∨ c = '/' ∨ c = ':' := by
    intro c hc
    have hend := head_dropWhile (fun c ↦ c != '@' && c != '/' && c != ':') _ c hc
    simpa [or_iff_not_imp_left] using hend
  rcases error_of_bind h with h | ⟨⟨selector, s₂⟩, hselector, h⟩
  · exact readSelector_ne_stray h
  have hs₂ := head_of_readSelector hselector hs₁
  rcases error_of_bind h with h | ⟨⟨module, s₃⟩, hmodule, h⟩
  · exact readModule_ne_stray h
  have hs₃ := head_of_readModule hmodule hs₂
  rcases error_of_bind h with h | ⟨member, -, h⟩
  · exact readMember_ne_stray hs₃ h
  · cases h

end Stray

structure IsWritable (r : Reference) : Prop where
  package : r.package.IsWritable
  selector : ∀ selector ∈ r.selector, ∃ input, Selector.parse input = .ok selector
  module : ∀ module ∈ r.module, ∀ segment ∈ module.toList.splitOn '/', isWord segment
  member : ∀ member ∈ r.member, isMember member.toList

def parts (r : Reference) : Parts where
  package := r.package
  selector := r.selector.map Selector.text
  module := r.module.map fun module ↦ module.toList.splitOn '/'
  member := r.member.map String.toList

theorem parts_path (r : Reference) : r.parts.path = r.module.map String.toList := by
  cases hmodule : r.module with
  | none => simp [parts, Parts.path, hmodule]
  | some module => simp [parts, Parts.path, hmodule, joinWith, List.intercalate_splitOn]

theorem parts_text (r : Reference) : r.parts.text = r.text := by
  rw [Parts.text, parts_path, text]
  obtain ⟨package, selector, module, member⟩ := r
  cases selector <;> cases module <;> cases member <;> simp [parts, marked]

theorem IsWritable.parts_isWellFormed {r : Reference} (h : r.IsWritable) :
    r.parts.IsWellFormed where
  package := h.package
  selector := by
    intro s hs
    obtain ⟨selector, hselector, rfl⟩ := Option.map_eq_some_iff.1 hs
    obtain ⟨input, hinput⟩ := h.selector selector hselector
    have hwritable := Selector.isWritable_of_read (ok_of_mapError hinput)
    exact ⟨Selector.notMem_text hwritable (by decide) (by decide),
      Selector.notMem_text hwritable (by decide) (by decide), selector,
      Selector.read_text hwritable⟩
  module := by
    intro segments hs
    obtain ⟨module, hmodule, rfl⟩ := Option.map_eq_some_iff.1 hs
    exact ⟨List.splitOn_ne_nil _ _, h.module module hmodule⟩
  member := by
    intro s hs
    obtain ⟨member, hmember, rfl⟩ := Option.map_eq_some_iff.1 hs
    exact h.member member hmember

theorem IsWritable.parts_reference {r : Reference} (h : r.IsWritable) : r.parts.reference = r := by
  have hselector : (r.selector.map Selector.text).bind (fun s ↦ (Selector.read s).toOption) =
      r.selector := by
    cases hs : r.selector with
    | none => rfl
    | some selector =>
      obtain ⟨input, hinput⟩ := h.selector selector hs
      have hwritable := Selector.isWritable_of_read (ok_of_mapError hinput)
      simp [Selector.read_text hwritable, Except.toOption]
  have hstring (s : Option String) : (s.map String.toList).map String.ofList = s := by
    cases s <;> simp
  change (⟨r.package, _, r.parts.path.map String.ofList, _⟩ : Reference) = _
  rw [parts_path, hstring]
  exact congrArg₂ (fun selector member ↦ (⟨r.package, selector, r.module, member⟩ : Reference))
    hselector (hstring r.member)

theorem IsWritable.isTrimmed_text {r : Reference} (h : r.IsWritable) : IsTrimmed r.text := by
  have hpackage : IsTrimmed r.parts.package.text := h.package.isTrimmed_text
  have hselector : ∀ s ∈ r.parts.selector, ∀ c ∈ s.getLast?, isBlank c = false := by
    intro s hs
    obtain ⟨selector, hselector, rfl⟩ := Option.map_eq_some_iff.1 hs
    obtain ⟨input, hinput⟩ := h.selector selector hselector
    exact (Selector.starts_text (Selector.isWritable_of_read (ok_of_mapError hinput))).2.1.last
  have hpath : ∀ s ∈ r.parts.path, ∀ c ∈ s.getLast?, isBlank c = false := by
    intro s hs c hc
    obtain ⟨segments, hmodule, rfl⟩ := Option.map_eq_some_iff.1 hs
    rcases mem_joinWith (List.mem_of_mem_getLast? hc) with rfl | ⟨word, hword, hc⟩
    · rfl
    · have hword := (h.parts_isWellFormed.module segments hmodule).2 word hword
      exact not_isBlank_of_isNameChar (isNameChar_of_isWord hword c hc)
  have hmember : ∀ s ∈ r.parts.member, ∀ c ∈ s.getLast?, isBlank c = false :=
    fun s hs c hc ↦ not_isBlank_of_isMember (h.parts_isWellFormed.member s hs) c
      (List.mem_of_mem_getLast? hc)
  rw [← parts_text]
  refine ⟨?_, ?_⟩
  · rw [Parts.text, List.head?_append_of_ne_nil _ h.parts_isWellFormed.package.text_ne_nil]
    exact hpackage.head
  · exact forall_last_append hpackage.last (forall_last_append (last_marked rfl hselector)
      (forall_last_append (last_marked rfl hpath) (last_marked rfl hmember)))

theorem parse_eq_ok_iff {t : String} {r : Reference} : parse t = .ok r ↔
    ∃ p : Parts, p.IsWellFormed ∧ trim t.toList = p.text ∧ p.reference = r := by
  constructor
  · exact fun h ↦ parts_of_read (ok_of_mapError h)
  · rintro ⟨p, hp, htext, rfl⟩
    rw [parse, htext, read_parts hp, mapError_ok]

theorem parse_ne_stray (t input stray : String) :
    parse t ≠ .error (.reference input (.stray stray)) := by
  intro h
  cases hread : read (trim t.toList) with
  | ok r => simp [parse, hread] at h
  | error fault =>
    rw [parse, hread, mapError_error] at h
    cases h
    exact read_ne_stray hread

theorem parse_toString {r : Reference} (h : r.IsWritable) : parse (toString r) = .ok r := by
  refine parse_eq_ok_iff.2 ⟨r.parts, h.parts_isWellFormed, ?_, h.parts_reference⟩
  rw [parts_text]
  change trim (String.ofList r.text).toList = r.text
  rw [String.toList_ofList, h.isTrimmed_text.trim_eq]

theorem parse_name_iff {t : String} {n : PackageName} :
    PackageName.parse t = .ok n ↔ parse t = .ok ⟨n, none, none, none⟩ := by
  have hbare (package : PackageName) :
      (⟨package, none, none, none⟩ : Parts).text = package.text := by
    simp [Parts.text, Parts.path, marked]
  rw [parse_eq_ok_iff]
  constructor
  · intro h
    obtain ⟨hn, htext⟩ := PackageName.read_eq_ok_iff.1 (ok_of_mapError h)
    refine ⟨⟨n, none, none, none⟩, ⟨hn, by simp, by simp, by simp⟩, ?_, rfl⟩
    rw [htext, hbare]
  · rintro ⟨⟨package, selector, module, member⟩, hp, htext, hreference⟩
    obtain ⟨rfl, hselector, hmodule, hmember⟩ := Reference.mk.inj hreference
    obtain rfl : selector = none := by
      refine Option.eq_none_iff_forall_not_mem.2 fun s hs ↦ ?_
      obtain ⟨-, -, x, hx⟩ := hp.selector s hs
      cases hs
      simp [hx, Except.toOption] at hselector
    obtain rfl : module = none := by simpa [Parts.path] using hmodule
    obtain rfl : member = none := by simpa using hmember
    rw [PackageName.parse, htext, hbare, PackageName.read_eq_ok_iff.2 ⟨hp.package, rfl⟩,
      mapError_ok]

/-- A text is a reference exactly if it is put together from parts, which it is in one way, and the
reference has these parts. Nothing can be left behind the parts. A reference is read from its text,
and a package name is read like a reference without selector, module and member. -/
theorem parse_parts :
    (∀ t r, parse t = .ok r ↔
      ∃ p : Parts, p.IsWellFormed ∧ trim t.toList = p.text ∧ p.reference = r) ∧
    (∀ p q : Parts, p.IsWellFormed → q.IsWellFormed → p.text = q.text → p = q) ∧
    (∀ t input rest, parse t ≠ .error (.reference input (.stray rest))) ∧
    (∀ r : Reference, r.IsWritable → parse (toString r) = .ok r) ∧
    ∀ t n, PackageName.parse t = .ok n ↔ parse t = .ok ⟨n, none, none, none⟩ :=
  ⟨fun _ _ ↦ parse_eq_ok_iff, fun _ _ ↦ Parts.text_inj, parse_ne_stray,
    fun _ ↦ parse_toString, fun _ _ ↦ parse_name_iff⟩

def complete : Parts where
  package := ⟨some "sc", "na.me"⟩
  selector := some ">=1.0.0 || ~2.0.0".toList
  module := some ["a".toList, "b-1".toList]
  member := some "run".toList

def completeSelector : Selector where
  alternatives := [[⟨.greaterEq, ⟨1, 0, 0, [], []⟩⟩], [⟨.tilde, ⟨2, 0, 0, [], []⟩⟩]]

theorem read_completeSelector :
    Selector.read ">=1.0.0 || ~2.0.0".toList = .ok completeSelector := by decide +kernel

theorem complete_isWellFormed : complete.IsWellFormed where
  package := ⟨by rintro _ ⟨⟩; rfl, rfl⟩
  selector := by
    rintro _ ⟨⟩
    exact ⟨by decide, by decide, _, read_completeSelector⟩
  module := by
    rintro _ ⟨⟩
    exact ⟨by simp, by decide⟩
  member := by rintro _ ⟨⟩; rfl

theorem complete_reference : complete.reference =
    ⟨⟨some "sc", "na.me"⟩, some completeSelector, some "a/b-1", some "run"⟩ := by decide +kernel

theorem parse_parts_complete :
    complete.IsWellFormed ∧ complete.reference.IsWritable ∧
      parse "@sc/na.me@>=1.0.0 || ~2.0.0/a/b-1:run" = .ok complete.reference ∧
      parse (toString complete.reference) = .ok complete.reference ∧
      complete.reference.parts = complete := by
  have hcomplete := complete_isWellFormed
  have hwritable : complete.reference.IsWritable := by
    rw [complete_reference]
    refine ⟨hcomplete.package, ?_, ?_, ?_⟩
    · rintro _ ⟨⟩
      exact ⟨">=1.0.0 || ~2.0.0", by rw [Selector.parse, read_completeSelector]; rfl⟩
    · rintro _ ⟨⟩
      decide
    · rintro _ ⟨⟩
      rfl
  have hparse := (parse_parts.1 "@sc/na.me@>=1.0.0 || ~2.0.0/a/b-1:run" complete.reference).2
    ⟨complete, hcomplete, rfl, rfl⟩
  have htext : complete.reference.parts.text = complete.text := by
    rw [parts_text, complete_reference]
    rfl
  exact ⟨hcomplete, hwritable, hparse, parse_parts.2.2.2.1 complete.reference hwritable,
    parse_parts.2.1 _ complete hwritable.parts_isWellFormed hcomplete htext⟩

end Lading.Reference
