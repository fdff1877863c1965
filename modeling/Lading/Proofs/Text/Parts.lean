import Lading.Text.Basic

namespace Lading.Text

variable {c : Char} {separator part : List Char} {parts : List (List Char)}

theorem mem_intercalate (h : c ∈ separator.intercalate parts) :
    c ∈ separator ∨ ∃ part ∈ parts, c ∈ part := by
  induction parts with
  | nil => cases h
  | cons part parts ih =>
    cases parts with
    | nil => exact .inr ⟨part, by simp, by simpa using h⟩
    | cons next parts =>
      rw [List.intercalate_cons_cons, List.mem_append, List.mem_append] at h
      rcases h with (hpart | hseparator) | hrest
      · exact .inr ⟨part, by simp, hpart⟩
      · exact .inl hseparator
      · refine (ih hrest).imp_right fun ⟨part', hmem, hc⟩ ↦ ?_
        exact ⟨part', List.mem_cons_of_mem _ hmem, hc⟩

theorem mem_joinWith {mark : Char} (h : c ∈ joinWith mark parts) :
    c = mark ∨ ∃ part ∈ parts, c ∈ part :=
  (mem_intercalate h).imp_left List.mem_singleton.1

theorem joinWith_cons (mark : Char) (part : List Char) (parts : List (List Char)) :
    ∃ more, joinWith mark (part :: parts) = part ++ more := by
  cases parts with
  | nil => exact ⟨[], by simp [joinWith]⟩
  | cons next parts => exact ⟨_, by rw [joinWith, List.intercalate_cons_cons, List.append_assoc]⟩

theorem of_mem_splitOnP {p : Char → Bool} {s : List Char} (h : part ∈ s.splitOnP p) :
    ∀ c ∈ part, c ∈ s ∧ p c = false := by
  induction s generalizing part with
  | nil =>
    rw [List.splitOnP_nil, List.mem_singleton] at h
    simp [h]
  | cons d s ih =>
    have hcons {rest : List Char} (hrest : ∀ c ∈ rest, c ∈ s ∧ p c = false) :
        ∀ c ∈ rest, c ∈ d :: s ∧ p c = false :=
      fun c hc ↦ (hrest c hc).imp_left (List.mem_cons_of_mem d)
    rw [List.splitOnP_cons_eq_if_modifyHead] at h
    split at h
    · rcases List.mem_cons.1 h with rfl | h
      · simp
      · exact hcons (ih h)
    · rename_i hd
      cases hs : s.splitOnP p with
      | nil => exact absurd hs (List.splitOnP_ne_nil p s)
      | cons first rest =>
        rw [hs] at h ih
        rcases List.mem_cons.1 h with rfl | h
        · exact List.forall_mem_cons.2
            ⟨⟨List.mem_cons_self, by simpa using hd⟩, hcons (ih List.mem_cons_self)⟩
        · exact hcons (ih (List.mem_cons_of_mem _ h))

theorem mem_of_mem_splitOn {mark : Char} {s : List Char} (hpart : part ∈ s.splitOn mark)
    (hc : c ∈ part) : c ∈ s := by
  rw [List.splitOn_eq_splitOnP] at hpart
  exact (of_mem_splitOnP hpart c hc).1

theorem mark_not_mem_splitOn (mark : Char) {s part : List Char}
    (h : part ∈ s.splitOn mark) : mark ∉ part := by
  intro hmark
  rw [List.splitOn_eq_splitOnP] at h
  simpa using (of_mem_splitOnP h mark hmark).2

theorem splitBars_of_notMem {s : List Char} (hs : '|' ∉ s) : splitBars s = [s] := by
  induction s with
  | nil => rfl
  | cons c s ih =>
    rw [List.mem_cons, not_or] at hs
    simp [splitBars, Ne.symm hs.1, ih hs.2]

theorem splitBars_append {s t : List Char} (hs : '|' ∉ s) :
    splitBars (s ++ '|' :: '|' :: t) = s :: splitBars t := by
  induction s with
  | nil => rfl
  | cons c s ih =>
    rw [List.mem_cons, not_or] at hs
    simp [splitBars, Ne.symm hs.1, ih hs.2]

theorem splitBars_ne_nil (s : List Char) : splitBars s ≠ [] := by
  fun_induction splitBars s <;> simp_all

theorem mem_of_mem_splitBars {s : List Char} (hpart : part ∈ splitBars s) (hc : c ∈ part) :
    c ∈ s := by
  fun_induction splitBars s generalizing part with
  | case1 s ih =>
    rcases List.mem_cons.1 hpart with rfl | hpart
    · cases hc
    · exact List.mem_cons_of_mem _ (List.mem_cons_of_mem _ (ih hpart hc))
  | case2 d s hbars hnil => exact absurd hnil (splitBars_ne_nil s)
  | case3 d s hbars first rest hsplit ih =>
    rw [hsplit] at ih
    rcases List.mem_cons.1 hpart with rfl | hpart
    · rcases List.mem_cons.1 hc with rfl | hc
      · exact List.mem_cons_self
      · exact List.mem_cons_of_mem _ (ih List.mem_cons_self hc)
    · exact List.mem_cons_of_mem _ (ih (List.mem_cons_of_mem _ hpart) hc)
  | case4 =>
    rw [List.mem_singleton.1 hpart] at hc
    cases hc

end Lading.Text
