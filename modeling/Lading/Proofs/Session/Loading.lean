import Lading.Session.Script
import Lading.Proofs.Manifest.Validation
import Lading.Proofs.Files.Tree
import Lading.Proofs.Session.Point

namespace Lading

theorem Config.strict_context (c : Config) : c.context.strict = c.strictEval := by
  have hset (vars : List (String × ConfigVar)) (context : Context) :
      (vars.foldl (fun context var ↦ context.set var.1 var.2.value) context).strict =
        context.strict := by
    induction vars generalizing context with
    | nil => rfl
    | cons var vars ih => exact ih _
  exact hset _ _

section Cache

variable {μ : Type} {s t : Session μ}

theorem Package.genuine_ofManifest (manifest : Manifest) {e : Evaluator} (he : e.cache.Genuine) :
    (ofManifest manifest e).2.cache.Genuine := by
  have heffective := Manifest.genuine_effectiveFrom (FieldEntry.all manifest.document) [] e he
  unfold ofManifest Manifest.effective
  split
  · exact he
  · exact he
  · cases hfields : Manifest.effectiveFrom [] e (FieldEntry.all manifest.document) with
    | mk fields e' =>
      rw [hfields] at heffective
      cases fields with
      | error error => exact heffective
      | ok fields =>
        dsimp only
        split <;> exact heffective

namespace Session

theorem genuine_addPackage (hs : s.cache.Genuine) (manifest : Manifest) :
    (s.addPackage manifest).2.cache.Genuine := by
  have hpackage := Package.genuine_ofManifest manifest (e := ⟨s.cache, s.config.context⟩) hs
  unfold addPackage
  split
  · exact hs
  · split
    · exact hs
    · split
      · rename_i hofManifest
        rwa [hofManifest] at hpackage
      · rename_i hofManifest
        rwa [hofManifest] at hpackage

theorem genuine_loadPackage (hs : s.cache.Genuine) {name : String} {selector : Option Selector}
    {r : Except SessionError Package} (h : s.loadPackage name selector = (r, t)) :
    t.cache.Genuine := by
  obtain ⟨_, -, rfl⟩ | ⟨_, _, _, -, rfl⟩ | ⟨_, -, -, rfl, -⟩ | ⟨manifest, _, -, -, -, hadd⟩ :=
    loadPackage_cases h
  · exact hs
  · exact hs
  · exact hs
  · have hadded := genuine_addPackage hs manifest
    rwa [hadd] at hadded

theorem cache_of_loadModule {p : Package} {path : Option String} {r : Except SessionError ModuleId}
    (h : s.loadModule p path = (r, t)) : t.cache = s.cache := by
  obtain ⟨_, -, -, rfl⟩ | ⟨name, -, ⟨_, -, -, rfl⟩ | ⟨-, -, rfl⟩⟩ := loadModule_cases h <;> rfl

theorem genuine_resolve (hs : s.cache.Genuine) {observer : Option (Observer μ)} {reference : String}
    {origin : Option ModuleId} {r : Except SessionError ModuleId}
    (h : s.resolve observer reference origin = (r, t)) : t.cache.Genuine := by
  obtain ⟨_, memory, -, rfl⟩ | ⟨m, p, path, -, -, hp, -, -, hmodule⟩ |
    ⟨named, memory, -, -, -, -, hnamed⟩ := resolve_cases h
  · exact hs
  · rwa [cache_of_loadModule hmodule]
  · obtain ⟨result, u, hload, ⟨_, -, -, rfl⟩ | ⟨p, rfl, hmodule⟩⟩ := resolveNamed_cases hnamed
    · exact genuine_loadPackage (s := { s with memory }) hs hload
    · rw [cache_of_loadModule hmodule]
      exact genuine_loadPackage (s := { s with memory }) hs hload

end Session

open Point

variable {hooks : Hooks μ} {p q : Point μ}

theorem Point.Step.genuine (h : Step hooks p q) (hp : p.session.cache.Genuine) :
    q.session.cache.Genuine := by
  cases h with
  | load s name selector => exact Session.genuine_loadPackage hp rfl
  | add s manifest => exact Session.genuine_addPackage hp manifest
  | find | resolve => exact Session.genuine_resolve hp rfl
  | require h | refuse h | call h => exact Session.genuine_resolve hp h
  | @cycle s w m h =>
    change (s.meetCycle m).2.cache.Genuine
    unfold Session.meetCycle
    dsimp only
    split <;> exact hp
  | _ => exact hp

theorem Point.Steps.genuine (h : Steps hooks p q) (hp : p.session.cache.Genuine) :
    q.session.cache.Genuine := by
  induction h with
  | refl => exact hp
  | tail _ h ih => exact h.genuine ih

end Cache

def Package.Loaded {ε : Type} (strict : Bool) (report : EvalError → ε)
    (result : Except ε Package) : Prop :=
  (∃ package, result = .ok package) ∨ strict = true ∧ ∃ e, result = .error (report e)

namespace Manifest.Checked

variable {document : Json.Fields} (h : Checked document)

include h

/-- The effective fields are those of some of the occurrences, unless a strict evaluation ends with
an error. -/
theorem effective_cases {cache : PredicateCache} (hcache : cache.Genuine) (c : Context) :
    (∃ entries, entries.Sublist (FieldEntry.all document) ∧
        (effective document ⟨cache, c⟩).1 = .ok (applyAll [] entries)) ∨
      c.strict = true ∧ ∃ e, (effective document ⟨cache, c⟩).1 = .error (.eval e) := by
  have houtcome (c : Context) : outcome c [] (FieldEntry.all document) =
      .ok (applyAll [] (active c document)) := by
    have hfault : (FieldEntry.all document).findSome? FieldEntry.fault? = none :=
      List.findSome?_eq_none_iff.2 fun entry hentry ↦ h.fault?_eq_none hentry
    rw [outcome, hfault, active]
  cases hc : c.strict with
  | false =>
    obtain ⟨_, heffective⟩ :=
      effectiveFrom_collecting hc (FieldEntry.all document) hcache [] c.errors
    rw [Context.collecting_self, houtcome] at heffective
    exact .inl ⟨_, List.filter_sublist, congrArg Prod.fst heffective⟩
  | true =>
    obtain ⟨_, heffective⟩ := effectiveFrom_strict hc (FieldEntry.all document) hcache []
    rw [houtcome] at heffective
    cases hhead : (failures c (FieldEntry.all document)).head? with
    | none =>
      rw [hhead] at heffective
      exact .inl ⟨_, List.filter_sublist, congrArg Prod.fst heffective⟩
    | some e =>
      rw [hhead] at heffective
      exact .inr ⟨rfl, e, congrArg Prod.fst heffective⟩

theorem loaded_ofManifest (directory : Option String) {cache : PredicateCache}
    (hcache : cache.Genuine) (c : Context) :
    Package.Loaded c.strict (fun e ↦ ManifestError.predicate (.eval e))
      (Package.ofManifest ⟨document, directory⟩ ⟨cache, c⟩).1 := by
  obtain ⟨name, hname⟩ := h.name directory
  obtain ⟨version, hversion⟩ := h.version directory
  unfold Package.ofManifest
  rw [hname, hversion]
  dsimp only
  obtain ⟨entries, hentries, hok⟩ | ⟨hstrict, e, herror⟩ := h.effective_cases hcache c
  · obtain ⟨found, hfound⟩ := h.dependencies_applyAll hentries.subset
    cases heffective : effective document ⟨cache, c⟩ with
    | mk fields e' =>
      rw [heffective] at hok
      cases hok
      dsimp only
      rw [hfound]
      exact .inl ⟨_, rfl⟩
  · cases heffective : effective document ⟨cache, c⟩ with
    | mk fields e' =>
      rw [heffective] at herror
      cases herror
      exact .inr ⟨hstrict, e, rfl⟩

theorem loaded_addPackage (directory : Option String) {μ : Type} {s : Session μ}
    (hs : s.cache.Genuine) {name : PackageName}
    (hname : Manifest.name ⟨document, directory⟩ = .ok name)
    (hfree : s.package? name.fullName = none) :
    Package.Loaded s.config.strictEval (fun e ↦ SessionError.manifest (.predicate (.eval e)))
      (s.addPackage ⟨document, directory⟩).1 := by
  have hloaded := h.loaded_ofManifest directory hs s.config.context
  rw [Config.strict_context] at hloaded
  rw [Session.addPackage_of_free hname hfree]
  cases hresult : Package.ofManifest ⟨document, directory⟩ ⟨s.cache, s.config.context⟩ with
  | mk result e =>
    rw [hresult] at hloaded
    obtain ⟨package, rfl⟩ | ⟨hstrict, error, rfl⟩ := hloaded
    · exact .inl ⟨package, rfl⟩
    · exact .inr ⟨hstrict, error, rfl⟩

/-- A manifest that was checked loads in every configuration: whichever of its fields are active,
the dependencies among them are requirements, and nothing but an error of a strict evaluation keeps
its package from being made and added. -/
theorem loads (directory : Option String) :
    (∀ entries, entries.Sublist (FieldEntry.all document) →
      ∃ found, dependencies (applyAll [] entries) = .ok found) ∧
    ∃ name, Manifest.name ⟨document, directory⟩ = .ok name ∧
      ∀ config : Config,
        (∀ cache : PredicateCache, cache.Genuine →
          Package.Loaded config.strictEval (fun e ↦ ManifestError.predicate (.eval e))
            (Package.ofManifest ⟨document, directory⟩ ⟨cache, config.context⟩).1) ∧
        ∀ (μ : Type) (s : Session μ), s.config = config → s.cache.Genuine →
          s.package? name.fullName = none →
          Package.Loaded config.strictEval (fun e ↦ SessionError.manifest (.predicate (.eval e)))
            (s.addPackage ⟨document, directory⟩).1 := by
  obtain ⟨name, hname⟩ := h.name directory
  refine ⟨fun entries hentries ↦ h.dependencies_applyAll hentries.subset, name, hname,
    fun config ↦ ⟨fun cache hcache ↦ ?_, ?_⟩⟩
  · rw [← config.strict_context]
    exact h.loaded_ofManifest directory hcache config.context
  · rintro μ s rfl hs hfree
    exact h.loaded_addPackage directory hs hname hfree

end Manifest.Checked

namespace Manifest

def conditional : String :=
  "\x7b\"name\":\"app\",\"version\":\"1.2.0\",\"dependencies\":\x7b\"base\":\"^1.0.0\"\x7d," ++
  "\"cfg( dev )\":\x7b\"dependencies\":\x7b\"tool\":\"./tool\",\"base\":\"1.0.0\"\x7d\x7d," ++
  "\"cfg(level > 2).dependencies\":\x7b\"extra\":\"*\"\x7d\x7d"

def furnished (strictEval : Bool) : Session Unit :=
  let config := { Config.standard "/work" "/home" with strictEval }
  let base : Json.Fields :=
    [("name", .string "base"), ("version", .string "1.0.0"), ("cfg(dev).main", .string "m")]
  ((Session.start config (.ofTexts []) [] ()).addPackage ⟨base, none⟩).2

theorem genuine_furnished (strictEval : Bool) : (furnished strictEval).cache.Genuine := by
  have hsteps : Point.Steps (Script.idle none) _ (Point.idle (furnished strictEval)) :=
    .single (.add _ _)
  exact hsteps.genuine PredicateCache.genuine_empty

theorem loads_conditional :
    ∃ document package e, Json.read? conditional = some (.object document) ∧ Checked document ∧
      ((furnished false).addPackage ⟨document, none⟩).1 = .ok package ∧
      package.dependencies.map (·.1) = ["base", "tool"] ∧
      ((furnished true).addPackage ⟨document, none⟩).1 =
        .error (.manifest (.predicate (.eval e))) := by
  have hcheck : (Json.read? conditional).any fun value ↦
      (ofJson value none).toOption.any fun (manifest : Manifest) ↦
        (manifest.document.get? "name").isSome ∧ (manifest.document.get? "version").isSome ∧
          (validate manifest.document .standard).isEmpty ∧
          (∀ entry ∈ FieldEntry.all manifest.document, ∀ text ∈ entry.predicate?,
            (Predicate.parse text).toOption.isSome) ∧
          (∀ name ∈ manifest.name.toOption, ∀ strict,
            ((furnished strict).package? name.fullName).isNone) ∧
          (((furnished false).addPackage manifest).1.toOption.map
            (·.dependencies.map (·.1))) = some ["base", "tool"] ∧
          ((furnished true).addPackage manifest).1.toOption.isNone := by
    decide +kernel
  obtain ⟨value, hread, hcheck⟩ := (Option.any_eq_true ..).1 hcheck
  cases value with
  | object document =>
    obtain ⟨hname, hversion, hclean, hreadable, hfree, hdependencies, hstrict⟩ :=
      of_decide_eq_true hcheck
    have h : Checked document := by
      refine ⟨Option.isSome_iff_exists.1 hname, Option.isSome_iff_exists.1 hversion,
        List.isEmpty_iff.1 hclean, fun entry hentry text htext ↦ ?_⟩
      exact ok_of_isSome_toOption (hreadable entry hentry text htext)
    obtain ⟨-, name, hmanifest, hloads⟩ := h.loads none
    have hfree (strict : Bool) : (furnished strict).package? name.fullName = none :=
      Option.isNone_iff_eq_none.1 (hfree name (by rw [hmanifest]; rfl) strict)
    obtain ⟨package, hpackage⟩ | ⟨hoff, -⟩ :=
      (hloads _).2 Unit (furnished false) rfl (genuine_furnished false) (hfree false)
    · obtain ⟨package', hpackage'⟩ | ⟨-, e, he⟩ :=
        (hloads _).2 Unit (furnished true) rfl (genuine_furnished true) (hfree true)
      · rw [hpackage'] at hstrict
        cases hstrict
      · rw [hpackage] at hdependencies
        exact ⟨document, package, e, hread, h, hpackage, Option.some.inj hdependencies, he⟩
    · exact absurd hoff (by decide +kernel)
  | _ => cases hcheck

end Manifest

end Lading
