import Lading.Proofs.Text.Blanks

namespace Lading.Text

variable {p : Char → Bool} {run rest : List Char}

theorem takeWhile_run (hrun : ∀ c ∈ run, p c) (hrest : ∀ c ∈ rest.head?, p c = false) :
    (run ++ rest).takeWhile p = run := by
  rw [List.takeWhile_append_of_pos hrun]
  cases rest with
  | nil => simp
  | cons c rest => simp [hrest c rfl]

theorem dropWhile_run (hrun : ∀ c ∈ run, p c) (hrest : ∀ c ∈ rest.head?, p c = false) :
    (run ++ rest).dropWhile p = rest := by
  rw [List.dropWhile_append_of_pos hrun]
  cases rest with
  | nil => rfl
  | cons c rest => simp [hrest c rfl]

theorem head_dropWhile (p : Char → Bool) (s : List Char) :
    ∀ c ∈ (s.dropWhile p).head?, p c = false := by
  intro c hc
  have hnot := List.head?_dropWhile_not p s
  rw [Option.mem_def.1 hc] at hnot
  simpa using hnot

theorem forall_head_append {P : Char → Prop} {s t : List Char} (hs : ∀ c ∈ s.head?, P c)
    (ht : ∀ c ∈ t.head?, P c) : ∀ c ∈ (s ++ t).head?, P c := by
  intro c hc
  rw [List.head?_append, Option.mem_def, Option.or_eq_some_iff] at hc
  exact hc.elim (hs c) fun h ↦ ht c h.2

theorem forall_last_append {P : Char → Prop} {s t : List Char} (hs : ∀ c ∈ s.getLast?, P c)
    (ht : ∀ c ∈ t.getLast?, P c) : ∀ c ∈ (s ++ t).getLast?, P c := by
  intro c hc
  rw [List.getLast?_append, Option.mem_def, Option.or_eq_some_iff] at hc
  exact hc.elim (ht c) fun h ↦ hs c h.2

theorem run_append_inj {run' rest' : List Char} (hrun : ∀ c ∈ run, p c)
    (hrest : ∀ c ∈ rest.head?, p c = false) (hrun' : ∀ c ∈ run', p c)
    (hrest' : ∀ c ∈ rest'.head?, p c = false) (h : run ++ rest = run' ++ rest') :
    run = run' ∧ rest = rest' := by
  have htake := congrArg (List.takeWhile p) h
  have hdrop := congrArg (List.dropWhile p) h
  rw [takeWhile_run hrun hrest, takeWhile_run hrun' hrest'] at htake
  rw [dropWhile_run hrun hrest, dropWhile_run hrun' hrest'] at hdrop
  exact ⟨htake, hdrop⟩

/-- What stands behind the last character that is not of a kind is told by the text. -/
theorem append_run_inj {front front' run' : List Char} {c c' : Char} (hc : p c = false)
    (hrun : ∀ d ∈ run, p d) (hc' : p c' = false) (hrun' : ∀ d ∈ run', p d)
    (h : front ++ c :: run = front' ++ c' :: run') : front = front' ∧ c = c' ∧ run = run' := by
  have hreverse : run.reverse ++ c :: front.reverse = run'.reverse ++ c' :: front'.reverse := by
    simpa using congrArg List.reverse h
  have hhead {d : Char} {s : List Char} (hd : p d = false) : ∀ e ∈ (d :: s).head?, p e = false := by
    rintro e ⟨⟩
    exact hd
  obtain ⟨hruns, hfronts⟩ := run_append_inj (by simpa using hrun) (hhead hc) (by simpa using hrun')
    (hhead hc') hreverse
  obtain ⟨hmark, hfront⟩ := List.cons_eq_cons.1 hfronts
  exact ⟨List.reverse_inj.1 hfront, hmark, List.reverse_inj.1 hruns⟩

theorem cut_append {mark : Char} {s t : List Char} (hs : mark ∉ s) :
    cut mark (s ++ mark :: t) = some (s, t) := by
  have hrun : ∀ c ∈ s, (c != mark) = true := by
    intro c hc
    rw [bne_iff_ne]
    rintro rfl
    exact hs hc
  have hmark : ∀ c ∈ (mark :: t).head?, (c != mark) = false := by
    rintro c ⟨⟩
    simp
  rw [cut, takeWhile_run hrun hmark, dropWhile_run hrun hmark]

theorem cut_eq_some_iff {mark : Char} {s left right : List Char} :
    cut mark s = some (left, right) ↔ mark ∉ left ∧ s = left ++ mark :: right := by
  constructor
  · intro h
    have hs := List.takeWhile_append_dropWhile (p := (· != mark)) (l := s)
    have hhead := head_dropWhile (· != mark) s
    unfold cut at h
    split at h
    · cases h
    · rename_i c rest hdrop
      cases h
      rw [hdrop] at hs hhead
      have hc : c = mark := by simpa using hhead c rfl
      rw [hc] at hs
      refine ⟨?_, hs.symm⟩
      intro hmem
      simpa using List.mem_takeWhile_imp hmem
  · rintro ⟨hleft, rfl⟩
    exact cut_append hleft

theorem cut_eq_none_iff {mark : Char} {s : List Char} : cut mark s = none ↔ mark ∉ s := by
  unfold cut
  split
  · rename_i hdrop
    have hall := List.dropWhile_eq_nil_iff.1 hdrop
    simp only [true_iff]
    intro hmem
    simpa using hall mark hmem
  · rename_i c rest hdrop
    have hc : c = mark := by simpa [hdrop] using head_dropWhile (· != mark) s
    have hmem : c ∈ s := (List.dropWhile_suffix _).mem (hdrop ▸ List.mem_cons_self)
    simp [← hc, hmem]

theorem trimStart_append {blanks s : List Char} (hblanks : IsBlanks blanks)
    (hs : ∀ c ∈ s.head?, isBlank c = false) : trimStart (blanks ++ s) = s :=
  dropWhile_run hblanks hs

/-- A longest run of characters of a kind: it is not empty, and neither the text before it nor the
text after it goes on with the run. -/
structure IsRun (p : Char → Bool) (before run after : List Char) : Prop where
  ne_nil : run ≠ []
  all : ∀ c ∈ run, p c
  starts : ∀ c ∈ before.getLast?, p c = false
  ends : ∀ c ∈ after.head?, p c = false

theorem IsBlanks.append {s t : List Char} (hs : IsBlanks s) (ht : IsBlanks t) :
    IsBlanks (s ++ t) := by
  intro c hc
  exact (List.mem_append.1 hc).elim (hs c) (ht c)

theorem IsBlanks.none (hp : ∀ c, p c → isBlank c = false) {s : List Char} (hs : IsBlanks s) :
    ∀ c ∈ s, p c = false := by
  intro c hc
  by_contra hpc
  have hblank := hp c (by simpa using hpc)
  rw [hs c hc] at hblank
  cases hblank

namespace IsRun

variable {before after more : List Char}

theorem head (h : IsRun p before run after) : ∀ c ∈ (run ++ more).head?, p c := by
  intro c hc
  rw [List.head?_append_of_ne_nil _ h.ne_nil] at hc
  exact h.all c (List.mem_of_mem_head? hc)

theorem append (h : IsRun p before run after) (hafter : after ≠ []) (more : List Char) :
    IsRun p before run (after ++ more) where
  __ := h
  ends := by
    rw [List.head?_append_of_ne_nil _ hafter]
    exact h.ends

theorem of_append (more : List Char) (h : IsRun p before run (after ++ more)) :
    IsRun p before run after where
  __ := h
  ends := by
    cases after with
    | nil => simp
    | cons => exact h.ends

end IsRun

end Lading.Text
