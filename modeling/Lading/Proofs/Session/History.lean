import Lading.Session.Basic
import Mathlib.Data.List.Nodup
import Mathlib.Data.List.Induction

namespace Lading

abbrev History := List Event

def Event.settle (m : ModuleId) (state : ModuleState) : Event → ModuleState
  | .started n => if n = m then .executing else state
  | .finished n => if n = m then .executed else state
  | .failed n => if n = m then .unexecuted else state
  | _ => state

def Event.nest (running : List ModuleId) : Event → List ModuleId
  | .started m => running ++ [m]
  | .finished _ | .failed _ => running.dropLast
  | _ => running

def Event.isQuiet : Event → Bool
  | .started _ | .finished _ | .failed _ => false
  | _ => true

theorem Event.settle_quiet {e : Event} (quiet : e.isQuiet) (m : ModuleId) (state : ModuleState) :
    e.settle m state = state := by
  cases e <;> simp_all [Event.isQuiet, Event.settle]

theorem Event.nest_quiet {e : Event} (quiet : e.isQuiet) (running : List ModuleId) :
    e.nest running = running := by
  cases e <;> simp_all [Event.isQuiet, Event.nest]

def Event.completed? : Event → Option ModuleId
  | .finished m => some m
  | _ => none

namespace History

def state (h : History) (m : ModuleId) : ModuleState := h.foldl (Event.settle m) .unexecuted

def running (h : History) : List ModuleId := h.foldl Event.nest []

def completions (h : History) : List ModuleId := h.filterMap Event.completed?

@[simp] theorem state_nil (m : ModuleId) : state [] m = .unexecuted := rfl

@[simp] theorem running_nil : running [] = [] := rfl

theorem state_concat (h : History) (e : Event) (m : ModuleId) :
    state (h ++ [e]) m = e.settle m (state h m) := by
  simp [state]

theorem running_concat (h : History) (e : Event) : running (h ++ [e]) = e.nest (running h) := by
  simp [running]

@[simp] theorem completions_append (h g : History) :
    completions (h ++ g) = completions h ++ completions g := by
  simp [completions]

theorem mem_completions {h : History} {m : ModuleId} : m ∈ completions h ↔ .finished m ∈ h := by
  simp only [completions, List.mem_filterMap]
  constructor
  · rintro ⟨e, he, hm⟩
    cases e with
    | finished n => cases hm; exact he
    | _ => cases hm
  · exact fun h ↦ ⟨_, h, rfl⟩

theorem notMem_quiet {g : History} (quiet : ∀ e ∈ g, e.isQuiet) {e : Event}
    (he : e.isQuiet = false) : e ∉ g := by
  intro hmem
  rw [quiet e hmem] at he
  cases he

theorem state_append_quiet (h : History) {g : History} (quiet : ∀ e ∈ g, e.isQuiet)
    (m : ModuleId) : state (h ++ g) m = state h m := by
  induction g using List.reverseRecOn with
  | nil => rw [List.append_nil]
  | append_singleton g e ih =>
    rw [← List.append_assoc, state_concat, ih fun e he ↦ quiet e (by simp [he]),
      Event.settle_quiet (quiet e (by simp))]

theorem running_append_quiet (h : History) {g : History} (quiet : ∀ e ∈ g, e.isQuiet) :
    running (h ++ g) = running h := by
  induction g using List.reverseRecOn with
  | nil => rw [List.append_nil]
  | append_singleton g e ih =>
    rw [← List.append_assoc, running_concat, ih fun e he ↦ quiet e (by simp [he]),
      Event.nest_quiet (quiet e (by simp))]

/-- Whether an event may follow a history: a module starts unless it runs or ran before, and the
innermost one ends first. -/
def Allows (h : History) : Event → Prop
  | .started m => state h m = .unexecuted
  | .finished m | .failed m => (running h).getLast? = some m
  | _ => True

theorem allows_quiet (h : History) {e : Event} (quiet : e.isQuiet) : Allows h e := by
  cases e <;> simp_all [Event.isQuiet, Allows]

def Lawful (h : History) : Prop := ∀ before e after, h = before ++ e :: after → Allows before e

theorem lawful_nil : Lawful [] := fun before e after h ↦ by simp at h

theorem lawful_concat {h : History} {e : Event} : Lawful (h ++ [e]) ↔ Lawful h ∧ Allows h e := by
  constructor
  · exact fun lawful ↦ ⟨fun before d after hd ↦ lawful before d (after ++ [e]) (by simp [hd]),
      lawful h e [] rfl⟩
  · rintro ⟨lawful, allowed⟩ before d after hd
    rcases List.eq_nil_or_concat after with rfl | ⟨after, c, rfl⟩
    · obtain ⟨rfl, hde⟩ := List.append_inj' hd rfl
      cases hde
      exact allowed
    · rw [List.concat_eq_append, ← List.cons_append, ← List.append_assoc] at hd
      exact lawful before d after (List.append_inj' hd rfl).1

theorem Lawful.left {h g : History} (lawful : Lawful (h ++ g)) : Lawful h :=
  fun before e after he ↦ lawful before e (after ++ g) (by simp [he])

theorem Lawful.append_quiet {h g : History} (lawful : Lawful h) (quiet : ∀ e ∈ g, e.isQuiet) :
    Lawful (h ++ g) := by
  induction g using List.reverseRecOn with
  | nil => rwa [List.append_nil]
  | append_singleton g e ih =>
    rw [← List.append_assoc, lawful_concat]
    exact ⟨ih fun e he ↦ quiet e (by simp [he]), allows_quiet _ (quiet e (by simp))⟩

theorem Lawful.running {h : History} (lawful : Lawful h) :
    (running h).Nodup ∧ ∀ m, m ∈ History.running h ↔ state h m = .executing := by
  induction h using List.reverseRecOn with
  | nil => simp
  | append_singleton h e ih =>
    obtain ⟨lawful, allowed⟩ := lawful_concat.1 lawful
    obtain ⟨nodup, executing⟩ := ih lawful
    rw [running_concat]
    -- A module ends where it stands last, so `dropLast` takes away just that one.
    have ending {n : ModuleId} (last : (History.running h).getLast? = some n) :
        (History.running h).dropLast.Nodup ∧
          ∀ m, m ∈ (History.running h).dropLast ↔ n ≠ m ∧ state h m = .executing := by
      obtain ⟨rest, hrest⟩ := List.getLast?_eq_some_iff.1 last
      rw [hrest, List.nodup_append] at nodup
      rw [hrest, List.dropLast_concat]
      refine ⟨nodup.1, fun m ↦ ?_⟩
      rw [← executing, hrest, List.mem_append, List.mem_singleton]
      constructor
      · exact fun hm ↦ ⟨fun hn ↦ nodup.2.2 m hm n (by simp) hn.symm, .inl hm⟩
      · rintro ⟨hn, hm | hm⟩
        · exact hm
        · exact absurd hm.symm hn
    cases e with
    | started n =>
      have absent : n ∉ History.running h := by
        rw [executing, show state h n = .unexecuted from allowed]
        decide
      refine ⟨List.nodup_append.2 ⟨nodup, by simp, ?_⟩, fun m ↦ ?_⟩
      · intro a ha b hb hab
        rw [List.mem_singleton] at hb
        exact absent (hb ▸ hab ▸ ha)
      · rw [state_concat]
        by_cases hn : n = m
        · simp [Event.nest, Event.settle, hn]
        · simp [Event.nest, Event.settle, hn, executing, Ne.symm hn]
    | finished n =>
      obtain ⟨nodup', mem⟩ := ending allowed
      refine ⟨nodup', fun m ↦ (mem m).trans ?_⟩
      rw [state_concat]
      by_cases hn : n = m <;> simp [Event.settle, hn]
    | failed n =>
      obtain ⟨nodup', mem⟩ := ending allowed
      refine ⟨nodup', fun m ↦ (mem m).trans ?_⟩
      rw [state_concat]
      by_cases hn : n = m <;> simp [Event.settle, hn]
    | _ => exact ⟨nodup, fun m ↦ by rw [state_concat]; exact executing m⟩

theorem Lawful.state_last {h : History} (lawful : Lawful h) {m : ModuleId}
    (last : (History.running h).getLast? = some m) : state h m = .executing :=
  (lawful.running.2 m).1 (List.mem_of_getLast? last)

/-- A module that completed keeps its state, and no later event is about a run of it. -/
theorem Lawful.executed_append {h g : History} (lawful : Lawful (h ++ g)) {m : ModuleId}
    (executed : state h m = .executed) :
    state (h ++ g) m = .executed ∧ .started m ∉ g ∧ .finished m ∉ g ∧ .failed m ∉ g := by
  induction g using List.reverseRecOn with
  | nil => simp [executed]
  | append_singleton g e ih =>
    rw [← List.append_assoc, lawful_concat] at lawful
    obtain ⟨lawful, allowed⟩ := lawful
    obtain ⟨stays, started, finished, failed⟩ := ih lawful
    rw [← List.append_assoc, state_concat, stays]
    have other : e ≠ .started m ∧ e ≠ .finished m ∧ e ≠ .failed m := by
      refine ⟨?_, ?_, ?_⟩ <;> rintro rfl
      · rw [show state (h ++ g) m = .unexecuted from allowed] at stays
        cases stays
      · rw [lawful.state_last allowed] at stays
        cases stays
      · rw [lawful.state_last allowed] at stays
        cases stays
    refine ⟨?_, ?_, ?_, ?_⟩
    · cases e <;> simp_all [Event.settle]
    · simpa [started] using Ne.symm other.1
    · simpa [finished] using Ne.symm other.2.1
    · simpa [failed] using Ne.symm other.2.2

theorem Lawful.finished_mem {h : History} (lawful : Lawful h) {m : ModuleId} :
    .finished m ∈ h ↔ state h m = .executed := by
  constructor
  · intro hm
    obtain ⟨before, after, rfl⟩ := List.append_of_mem hm
    rw [List.append_cons] at lawful ⊢
    exact (lawful.executed_append (by simp [state_concat, Event.settle])).1
  · induction h using List.reverseRecOn with
    | nil => simp
    | append_singleton h e ih =>
      rw [state_concat]
      intro hm
      by_cases hs : state h m = .executed
      · exact List.mem_append_left _ (ih lawful.left hs)
      · cases e with
        | finished n =>
          by_cases hn : n = m
          · simp [hn]
          · exact absurd (by simpa [Event.settle, hn] using hm) hs
        | started n | failed n =>
          by_cases hn : n = m
          · simp [Event.settle, hn] at hm
          · exact absurd (by simpa [Event.settle, hn] using hm) hs
        | _ => exact absurd hm hs

theorem Lawful.completions_nodup {h : History} (lawful : Lawful h) : (completions h).Nodup := by
  induction h using List.reverseRecOn with
  | nil => exact List.nodup_nil
  | append_singleton h e ih =>
    rw [completions_append]
    cases e with
    | finished m =>
      obtain ⟨lawful, allowed⟩ := lawful_concat.1 lawful
      refine List.nodup_append.2 ⟨ih lawful, by simp [completions, Event.completed?], ?_⟩
      intro a ha b hb hab
      have hb : b = m := by simpa [completions, Event.completed?] using hb
      rw [mem_completions, lawful.finished_mem, hab, hb, lawful.state_last allowed] at ha
      cases ha
    | _ => exact (List.append_nil _).symm ▸ ih lawful.left

theorem failed_mem {h g : History} {m : ModuleId} (before : state h m ≠ .unexecuted)
    (after : state (h ++ g) m = .unexecuted) : .failed m ∈ g := by
  induction g using List.reverseRecOn with
  | nil => exact absurd (by simpa using after) before
  | append_singleton g e ih =>
    rw [← List.append_assoc, state_concat] at after
    by_cases hs : state (h ++ g) m = .unexecuted
    · exact List.mem_append_left _ (ih hs)
    · cases e with
      | failed n =>
        by_cases hn : n = m
        · simp [hn]
        · exact absurd (by simpa [Event.settle, hn] using after) hs
      | started n | finished n =>
        by_cases hn : n = m
        · simp [Event.settle, hn] at after
        · exact absurd (by simpa [Event.settle, hn] using after) hs
      | _ => exact absurd after hs

theorem started_mem {h g : History} {m : ModuleId} (before : state h m ≠ .executing)
    (after : state (h ++ g) m = .executing) : .started m ∈ g := by
  induction g using List.reverseRecOn with
  | nil => exact absurd (by simpa using after) before
  | append_singleton g e ih =>
    rw [← List.append_assoc, state_concat] at after
    by_cases hs : state (h ++ g) m = .executing
    · exact List.mem_append_left _ (ih hs)
    · cases e with
      | started n =>
        by_cases hn : n = m
        · simp [hn]
        · exact absurd (by simpa [Event.settle, hn] using after) hs
      | finished n | failed n =>
        by_cases hn : n = m
        · simp [Event.settle, hn] at after
        · exact absurd (by simpa [Event.settle, hn] using after) hs
      | _ => exact absurd after hs

theorem state_of_started {h g : History} {m : ModuleId} (started : .started m ∈ g)
    (finished : .finished m ∉ g) (failed : .failed m ∉ g) : state (h ++ g) m = .executing := by
  induction g using List.reverseRecOn with
  | nil => cases started
  | append_singleton g e ih =>
    simp only [List.mem_append, List.mem_singleton, not_or] at started finished failed
    rw [← List.append_assoc, state_concat]
    by_cases he : e = .started m
    · simp [he, Event.settle]
    · have hstate := ih (started.resolve_right (Ne.symm he)) finished.1 failed.1
      cases e with
      | started n | finished n | failed n =>
        have hn : n ≠ m := by
          rintro rfl
          simp_all
        simpa [Event.settle, hn] using hstate
      | _ => exact hstate

/-- Between two starts of a module it failed. -/
theorem Lawful.failed_between {before between after : History} {m : ModuleId}
    (lawful : Lawful (before ++ .started m :: between ++ .started m :: after)) :
    .failed m ∈ between := by
  refine failed_mem (h := before ++ [.started m]) (by simp [state_concat, Event.settle]) ?_
  rw [← List.append_cons]
  exact lawful _ (.started m) after rfl

theorem Lawful.count_started {h : History} (lawful : Lawful h) {m : ModuleId}
    (hm : .failed m ∉ h) : h.count (.started m) = if state h m = .unexecuted then 0 else 1 := by
  induction h using List.reverseRecOn with
  | nil => simp
  | append_singleton h e ih =>
    obtain ⟨before, allowed⟩ := lawful_concat.1 lawful
    rw [List.mem_append, not_or] at hm
    rw [List.count_append, ih before hm.1, state_concat]
    cases e with
    | started n =>
      by_cases hn : n = m
      · rw [hn] at allowed ⊢
        simp [Event.settle, show state h m = .unexecuted from allowed]
      · simp [Event.settle, hn]
    | finished n =>
      by_cases hn : n = m
      · rw [hn] at allowed ⊢
        simp [Event.settle, before.state_last allowed]
      · simp [Event.settle, hn]
    | failed n =>
      by_cases hn : n = m
      · exact absurd (by simp [hn]) hm.2
      · simp [Event.settle, hn]
    | _ => exact Nat.add_zero _

theorem completions_quiet {h : History} (quiet : ∀ e ∈ h, e.isQuiet) : completions h = [] := by
  rw [completions, List.filterMap_eq_nil_iff]
  intro e he
  have hquiet := quiet e he
  cases e <;> simp_all [Event.isQuiet, Event.completed?]

end History

end Lading
