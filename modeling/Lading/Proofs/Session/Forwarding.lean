import Lading.Proofs.DataModule.Body

namespace Lading

variable {μ : Type}

namespace Body

def Raises (m : ModuleId) (error : SessionError) : Body μ → Prop
  | .finish => False
  | .fail error' => error' = error
  | .assign n _ _ next => n = m ∧ next.Raises m error
  | .remember _ next => next.Raises m error
  | .inspect next => ∀ s, (next s).Raises m error
  | .resolve _ next => ∀ result, (next result).Raises m error
  | .require _ _ => False

/-- The body of a module ends with the error of what it requires. -/
def Forwards (m : ModuleId) : Body μ → Prop
  | .finish | .fail _ => True
  | .assign _ _ _ next | .remember _ next => next.Forwards m
  | .inspect next => ∀ s, (next s).Forwards m
  | .resolve _ next => ∀ result, (next result).Forwards m
  | .require _ next =>
    (∀ n, (next (.ok n)).Forwards m) ∧ ∀ error, (next (.error error)).Raises m error

theorem Raises.forwards {m : ModuleId} {error : SessionError} {b : Body μ} (hb : b.Raises m error) :
    b.Forwards m := by
  induction b with
  | finish | fail error' => trivial
  | assign n key value next ih => exact ih hb.2
  | remember change next ih => exact ih hb
  | inspect next ih => exact fun s ↦ ih s (hb s)
  | resolve reference next ih => exact fun result ↦ ih result (hb result)
  | require => exact hb.elim

end Body

def Hooks.Forwards (hooks : Hooks μ) : Prop := ∀ s m, (hooks.body s m).Forwards m

theorem DataModule.hooks_forwards (observer : Option (Observer μ)) : (hooks observer).Forwards := by
  intro s m
  exact body_shape trivial (fun _ ↦ trivial) (fun _ _ _ h ↦ h)
    (fun _ _ h ↦ ⟨fun _ ↦ h, fun _ ↦ rfl⟩) s

namespace Session

/-- What a module may do to a session while it gives up. -/
structure Tidies (m : ModuleId) (s t : Session μ) : Prop extends Extends s t where
  stack : t.stack = s.stack
  states : ∀ n, t.stateOf n = s.stateOf n
  exports : ∀ n, n ≠ m → t.exports n = s.exports n
  journal : ∃ g : History, t.journal = s.journal ++ g ∧ ∀ e ∈ g, e.isQuiet

theorem Quiet.tidies {s t : Session μ} (h : Quiet s t) (m : ModuleId) : Tidies m s t :=
  ⟨h.toExtends, h.stack, h.states, fun n _ ↦ h.exports n, h.journal⟩

theorem Tidies.trans {m : ModuleId} {s t u : Session μ} (h : Tidies m s t) (h' : Tidies m t u) :
    Tidies m s u := by
  obtain ⟨g, hg, quiet⟩ := h.journal
  obtain ⟨g', hg', quiet'⟩ := h'.journal
  refine ⟨h.toExtends.trans h'.toExtends, h'.stack.trans h.stack,
    fun n ↦ (h'.states n).trans (h.states n), fun n hn ↦ (h'.exports n hn).trans (h.exports n hn),
    g ++ g', by rw [hg', hg, List.append_assoc], ?_⟩
  intro e he
  rcases List.mem_append.1 he with he | he
  · exact quiet e he
  · exact quiet' e he

theorem tidies_setExport {s : Session μ} {m : ModuleId} (hm : s.Knows m) (key : String)
    (value : Json) : Tidies m s (s.setExport m key value) := by
  refine ⟨s.extends_setExport m key value, rfl, s.stateOf_setExport m key value, ?_,
    [], (List.append_nil _).symm, by simp⟩
  intro n hn
  rw [exports_setExport s hm, if_neg (Ne.symm hn)]

section Raises

variable {observer : Option (Observer μ)} {execute : Session μ → ModuleId → Run μ Unit}
  {m : ModuleId} {error : SessionError} {b : Body μ} {s t : Session μ}
  {r : Except SessionError Unit}

theorem run_of_raises (hb : b.Raises m error) (s : Session μ) :
    ∃ t, b.run observer execute m s = some (.error error, t) := by
  induction b generalizing s with
  | finish => exact hb.elim
  | fail error' =>
    cases hb
    exact ⟨s, rfl⟩
  | assign n key value next ih => exact ih hb.2 _
  | remember change next ih => exact ih hb _
  | inspect next ih => exact ih s (hb s) s
  | resolve reference next ih => exact ih _ (hb _) _
  | require => exact hb.elim

theorem eq_error_of_raises (hb : b.Raises m error)
    (h : b.run observer execute m s = some (r, t)) : r = .error error := by
  obtain ⟨u, hu⟩ := run_of_raises hb s
  rw [hu] at h
  cases h
  rfl

theorem tidies_of_raises (hs : s.Sound) (hm : s.Knows m) (hb : b.Raises m error)
    (h : b.run observer execute m s = some (r, t)) : Tidies m s t := by
  induction b generalizing s with
  | finish => exact hb.elim
  | fail error' =>
    cases h
    exact (Quiet.refl _).tidies m
  | assign n key value next ih =>
    obtain ⟨rfl, hb⟩ := hb
    have hset := tidies_setExport hm key value
    exact hset.trans (ih (hs.setExport n key value) (hset.knows hm) hb h)
  | remember change next ih =>
    have hc : Changes s { s with memory := change s.memory } := .single (.memory s _)
    exact (hc.quiet.tidies m).trans (ih (hs.changes hc) hm hb h)
  | inspect next ih => exact ih s hs hm (hb s) h
  | resolve reference next ih =>
    have hc := changes_of_resolve hs.coherent (rfl : s.resolve observer reference (some m) = _)
    exact (hc.quiet.tidies m).trans (ih _ (hs.changes hc) (hc.quiet.knows hm) (hb _) h)
  | require => exact hb.elim

end Raises

end Session

end Lading
