import Mathlib.Data.Set.Insert
import Mathlib.Logic.Relation
import Mathlib.Tactic.Tauto

namespace Lading

variable {α : Type} {next : α → List α}

/-- A walk from some roots in turn while some nodes are visited already, and the nodes in the order
in which the walk is done with them. -/
inductive Walk (next : α → List α) : Set α → List α → List α → Prop
  | nil (visited : Set α) : Walk next visited [] []
  | skip {visited : Set α} {root : α} {roots order : List α} (hroot : root ∈ visited)
      (hrest : Walk next visited roots order) : Walk next visited (root :: roots) order
  | visit {visited : Set α} {root : α} {roots below rest : List α} (hroot : root ∉ visited)
      (hbelow : Walk next (insert root visited) (next root) below)
      (hrest : Walk next (insert root visited ∪ {x | x ∈ below}) roots rest) :
      Walk next visited (root :: roots) (below ++ root :: rest)

namespace Walk

variable {visited : Set α} {roots order : List α}

theorem mem_visited {root x : α} {below : List α} :
    x ∈ insert root visited ∪ {x | x ∈ below} ↔ x = root ∨ x ∈ visited ∨ x ∈ below := by
  simp [or_assoc]

theorem unique {order' : List α} (h : Walk next visited roots order)
    (h' : Walk next visited roots order') : order = order' := by
  induction h generalizing order' with
  | nil visited =>
    cases h'
    rfl
  | skip hroot hrest ih =>
    cases h' with
    | skip _ hrest' => exact ih hrest'
    | visit hroot' => exact absurd hroot hroot'
  | visit hroot hbelow hrest ihbelow ihrest =>
    cases h' with
    | skip hroot' => exact absurd hroot' hroot
    | visit _ hbelow' hrest' =>
      cases ihbelow hbelow'
      rw [ihrest hrest']

theorem cons {root : α} {rest : List α} (h : Walk next visited [root] order)
    (hrest : Walk next (visited ∪ {x | x ∈ order}) roots rest) :
    Walk next visited (root :: roots) (order ++ rest) := by
  cases h with
  | skip hroot hnil =>
    cases hnil
    have hvisited : visited ∪ {x | x ∈ ([] : List α)} = visited := by simp
    rw [hvisited] at hrest
    exact .skip hroot hrest
  | @visit _ _ _ below _ hroot hbelow hnil =>
    cases hnil
    have hvisited :
        visited ∪ {x | x ∈ below ++ [root]} = insert root visited ∪ {x | x ∈ below} := by
      ext x
      rw [mem_visited]
      simp only [Set.mem_union, Set.mem_ofPred_eq, List.mem_append, List.mem_singleton]
      tauto
    rw [hvisited] at hrest
    rw [List.append_assoc, List.singleton_append]
    exact .visit hroot hbelow hrest

theorem roots_mem (h : Walk next visited roots order) {root : α} (hroot : root ∈ roots) :
    root ∈ visited ∨ root ∈ order := by
  induction h with
  | nil => cases hroot
  | skip hvisited hrest ih =>
    rcases List.mem_cons.1 hroot with rfl | hroot
    · exact .inl hvisited
    · exact ih hroot
  | @visit visited first roots below rest hfresh hbelow hrest ihbelow ihrest =>
    rcases List.mem_cons.1 hroot with rfl | hroot
    · exact .inr (by simp)
    · rcases ihrest hroot with hvisited | hrest
      · rcases mem_visited.1 hvisited with rfl | hvisited | hbelow
        · exact .inr (by simp)
        · exact .inl hvisited
        · exact .inr (List.mem_append_left _ hbelow)
      · exact .inr (by simp [hrest])

theorem closed (h : Walk next visited roots order) {x y : α} (hx : x ∈ order) (hy : y ∈ next x) :
    y ∈ visited ∨ y ∈ order := by
  induction h with
  | nil => cases hx
  | skip hvisited hrest ih => exact ih hx
  | @visit visited root roots below rest hfresh hbelow hrest ihbelow ihrest =>
    have hinner {y : α} (h : y = root ∨ y ∈ visited ∨ y ∈ below) :
        y ∈ visited ∨ y ∈ below ++ root :: rest := by
      rcases h with rfl | hvisited | hbelow
      · exact .inr (by simp)
      · exact .inl hvisited
      · exact .inr (List.mem_append_left _ hbelow)
    rcases List.mem_append.1 hx with hx | hx
    · refine hinner ((ihbelow hx).elim (fun h ↦ ?_) fun h ↦ .inr (.inr h))
      exact (Set.mem_insert_iff.1 h).imp_right .inl
    · rcases List.mem_cons.1 hx with rfl | hx
      · refine hinner ((hbelow.roots_mem hy).elim (fun h ↦ ?_) fun h ↦ .inr (.inr h))
        exact (Set.mem_insert_iff.1 h).imp_right .inl
      · rcases ihrest hx with h | hrest
        · exact hinner (mem_visited.1 h)
        · exact .inr (by simp [hrest])

theorem reachable (h : Walk next visited roots order) {x : α} (hx : x ∈ order) :
    ∃ root ∈ roots, Relation.ReflTransGen (fun a b ↦ b ∈ next a) root x := by
  induction h with
  | nil => cases hx
  | skip hvisited hrest ih =>
    obtain ⟨root, hroot, hreach⟩ := ih hx
    exact ⟨root, List.mem_cons_of_mem _ hroot, hreach⟩
  | @visit visited root roots below rest hfresh hbelow hrest ihbelow ihrest =>
    rcases List.mem_append.1 hx with hx | hx
    · obtain ⟨child, hchild, hreach⟩ := ihbelow hx
      exact ⟨root, List.mem_cons_self .., hreach.head hchild⟩
    · rcases List.mem_cons.1 hx with rfl | hx
      · exact ⟨x, List.mem_cons_self .., .refl⟩
      · obtain ⟨other, hother, hreach⟩ := ihrest hx
        exact ⟨other, List.mem_cons_of_mem _ hother, hreach⟩

theorem mem_iff {root x : α} (h : Walk next ∅ [root] order) :
    x ∈ order ↔ Relation.ReflTransGen (fun a b ↦ b ∈ next a) root x := by
  constructor
  · intro hx
    obtain ⟨_, hroot, hreach⟩ := h.reachable hx
    rwa [List.mem_singleton.1 hroot] at hreach
  · intro hreach
    induction hreach with
    | refl => exact (h.roots_mem (List.mem_singleton_self root)).resolve_left (Set.notMem_empty _)
    | tail _ hy ih => exact (h.closed ih hy).resolve_left (Set.notMem_empty _)

end Walk

end Lading
