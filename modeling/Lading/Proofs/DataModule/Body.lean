import Lading.Session.DataModule
import Lading.Proofs.Session.Invariant

namespace Lading.DataModule

variable {μ : Type}

def fields? (s : Session μ) (m : ModuleId) : Option Json.Fields := do
  let path ← s.pathOf? m
  let text ← (s.files.read (path ++ ".json")).toOption
  fieldsOf? text

def requirementsOf (s : Session μ) (m : ModuleId) : List String :=
  ((fields? s m).map requirements).getD []

def Leads (s : Session μ) (m n : ModuleId) : Prop :=
  ∃ reference ∈ requirementsOf s m, s.referent? m reference = some n

abbrev Reaches (s : Session μ) : ModuleId → ModuleId → Prop := Relation.ReflTransGen (Leads s)

def children (s : Session μ) (m : ModuleId) : List ModuleId :=
  (requirementsOf s m).filterMap (s.referent? m)

theorem mem_children {s : Session μ} {m n : ModuleId} : n ∈ children s m ↔ Leads s m n :=
  List.mem_filterMap

def exported (fields : Json.Fields) : Json.Fields := fields.filter (·.1 != "require")

theorem fields?_extends {s t : Session μ} (hs : s.Coherent) (he : s.Extends t) {m : ModuleId}
    (hm : s.Knows m) : fields? t m = fields? s m := by
  obtain ⟨p, hp, -⟩ := hs.packageOf? hm
  obtain ⟨q, hq, hpq⟩ := he.packageOf? hp
  have hpath : t.pathOf? m = s.pathOf? m := by
    simp [Session.pathOf?, hp, hq, hpq.manifest_eq, he.nameOf_eq hm]
  simp [fields?, hpath, he.files]

theorem body_cases (s : Session μ) (m : ModuleId) :
    (∃ error, body s m = .fail error ∧ fields? s m = none) ∨
      ∃ path fields, body s m = ofFields m path fields ∧ fields? s m = some fields := by
  unfold body fields?
  cases s.pathOf? m with
  | none => exact .inl ⟨_, rfl, rfl⟩
  | some path =>
    simp only [Option.bind_eq_bind, Option.bind_some]
    cases s.files.read (path ++ ".json") with
    | error fault => exact .inl ⟨_, rfl, rfl⟩
    | ok text =>
      simp only [Except.toOption, Option.bind_some, ofText, fieldsOf?]
      cases Json.read? text with
      | none => exact .inl ⟨_, rfl, rfl⟩
      | some value =>
        cases value with
        | object fields => exact .inr ⟨_, fields, rfl, rfl⟩
        | _ => exact .inl ⟨_, rfl, rfl⟩

section Shape

variable {P : Body μ → Prop} {m : ModuleId} (finish : P .finish) (fail : ∀ error, P (.fail error))
  (assign : ∀ key value next, P next → P (.assign m key value next))
  (require : ∀ reference next, P next → P (.require reference fun
    | .ok _ => next
    | .error error => .fail error))

include finish fail assign require

theorem ofFields_shape (path : String) (fields : Json.Fields) : P (ofFields m path fields) := by
  have hexport (fields : Json.Fields) : P (exportAll m fields) := by
    induction fields with
    | nil => exact finish
    | cons field fields ih => exact assign field.1 field.2 _ ih
  have hrequire {next : Body μ} (hnext : P next) (items : List Json) :
      P (requireAll path next items) := by
    induction items with
    | nil => exact hnext
    | cons item items ih =>
      cases item with
      | string reference => exact require reference _ ih
      | _ => exact fail _
  unfold ofFields
  dsimp only
  split
  · exact hexport _
  · exact hrequire (hexport _) _
  · exact fail _

theorem body_shape (s : Session μ) : P (body s m) := by
  obtain ⟨error, hbody, -⟩ | ⟨path, fields, hbody, -⟩ := body_cases s m
  · rw [hbody]
    exact fail error
  · rw [hbody]
    exact ofFields_shape finish fail assign require path fields

end Shape

section Run

variable {observer : Option (Observer μ)} {execute : Session μ → ModuleId → Run μ Unit}
  {m : ModuleId} {s t : Session μ}

/-- References of a module that are required in order, and the modules that they lead to. -/
inductive Requires (observer : Option (Observer μ)) (execute : Session μ → ModuleId → Run μ Unit)
    (m : ModuleId) : List String → List ModuleId → Session μ → Session μ → Prop
  | nil (s : Session μ) : Requires observer execute m [] [] s s
  | cons {s u v t : Session μ} {reference : String} {references : List String} {n : ModuleId}
      {ns : List ModuleId} (hresolve : s.resolve observer reference (some m) = (.ok n, u))
      (hexecute : execute u n = some (.ok (), v))
      (hrest : Requires observer execute m references ns v t) :
      Requires observer execute m (reference :: references) (n :: ns) s t

theorem of_requireAll {path : String} {next : Body μ} {items : List Json}
    (h : (requireAll path next items).run observer execute m s = some (.ok (), t)) :
    ∃ references ns u, items = references.map .string ∧
      Requires observer execute m references ns s u ∧
      next.run observer execute m u = some (.ok (), t) := by
  induction items generalizing s with
  | nil => exact ⟨[], [], s, rfl, .nil s, h⟩
  | cons item items ih =>
    cases item with
    | string reference =>
      obtain ⟨error, u, -, h⟩ | ⟨n, u, result, v, hu, hv, h⟩ := Body.run_require_cases h
      · cases h
      · cases result with
        | error error => cases h
        | ok =>
          obtain ⟨references, ns, w, rfl, hrequires, hw⟩ := ih h
          exact ⟨reference :: references, n :: ns, w, rfl, .cons hu hv hrequires, hw⟩
    | _ => cases h

def exporting (m : ModuleId) (fields : Json.Fields) (s : Session μ) : Session μ :=
  fields.foldl (fun s (key, value) ↦ s.setExport m key value) s

theorem exports_exporting {s : Session μ} {m : ModuleId} (hm : s.Knows m) (fields : Json.Fields)
    (n : ModuleId) :
    (exporting m fields s).exports n =
      if m = n then (s.exports n).putAll fields else s.exports n := by
  induction fields generalizing s with
  | nil => simp [exporting, Entries.putAll]
  | cons field fields ih =>
    obtain ⟨key, value⟩ := field
    rw [show exporting m ((key, value) :: fields) s =
      exporting m fields (s.setExport m key value) from rfl,
      ih ((s.extends_setExport m key value).knows hm), s.exports_setExport hm]
    split <;> rfl

theorem run_exportAll (m : ModuleId) (fields : Json.Fields) (s : Session μ) :
    (exportAll m fields).run observer execute m s = some (.ok (), exporting m fields s) := by
  induction fields generalizing s with
  | nil => rfl
  | cons field fields ih => exact ih _

theorem of_ofFields {path : String} {fields : Json.Fields}
    (h : (ofFields m path fields).run observer execute m s = some (.ok (), t)) :
    ∃ ns u, Requires observer execute m (requirements fields) ns s u ∧
      t = exporting m (exported fields) u := by
  unfold ofFields at h
  unfold requirements
  split at h
  · rw [run_exportAll] at h
    cases h
    rename_i hnone
    rw [hnone]
    exact ⟨[], s, .nil s, rfl⟩
  · obtain ⟨references, ns, u, rfl, hrequires, hu⟩ := of_requireAll h
    rw [run_exportAll] at hu
    cases hu
    rename_i hsome
    have hstrings : (references.map Json.string).filterMap Json.string? = references := by
      simp [Function.comp_def, Json.string?]
    simp only [hsome, hstrings]
    exact ⟨ns, u, hrequires, rfl⟩
  · cases h

/-- What the body of a module did that succeeded. The body was built in a session of its own. -/
theorem of_run {s₀ : Session μ}
    (h : (body s₀ m).run observer execute m s = some (.ok (), t)) :
    ∃ fields ns u, fields? s₀ m = some fields ∧
      Requires observer execute m (requirements fields) ns s u ∧
      t = exporting m (exported fields) u := by
  obtain ⟨error, hbody, -⟩ | ⟨path, fields, hbody, hfields⟩ := body_cases s₀ m
  · rw [hbody] at h
    cases h
  · rw [hbody] at h
    obtain ⟨ns, u, hrequires, hu⟩ := of_ofFields h
    exact ⟨fields, ns, u, hfields, hrequires, hu⟩

end Run

end Lading.DataModule
