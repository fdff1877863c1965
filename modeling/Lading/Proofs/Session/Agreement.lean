import Lading.Proofs.Files.Normalization
import Lading.Proofs.Package.ReferenceText
import Lading.Proofs.Session.Identity
import Lading.Proofs.Session.Origin
import Lading.Session.DataModule

namespace Lading

variable {μ : Type}

namespace Reference

def IsModulePath (path : String) : Prop := ∃ text r, parse text = .ok r ∧ r.module = some path

theorem IsModulePath.isWord {path : String} (h : IsModulePath path) :
    ∀ segment ∈ path.toList.splitOn '/', PackageName.isWord segment := by
  obtain ⟨text, r, hparse, hmodule⟩ := h
  obtain ⟨parts, hparts, -, rfl⟩ := parse_eq_ok_iff.1 hparse
  obtain ⟨s, hs, rfl⟩ := Option.map_eq_some_iff.1 hmodule
  obtain ⟨segments, hsegments, rfl⟩ := Option.map_eq_some_iff.1 hs
  obtain ⟨hne, hwords⟩ := hparts.module segments hsegments
  rwa [String.toList_ofList, (path_facts hne hwords).2.2.2]

theorem parse_module {n : PackageName} (hn : n.IsWritable) {path : String}
    (hpath : IsModulePath path) :
    parse (n.fullName ++ "/" ++ path) = .ok ⟨n, none, some path, none⟩ := by
  have hwritable : IsWritable ⟨n, none, some path, none⟩ :=
    ⟨hn, nofun, by rintro _ ⟨⟩; exact hpath.isWord, nofun⟩
  have htext : toString (⟨n, none, some path, none⟩ : Reference) = n.fullName ++ "/" ++ path := by
    rw [← String.toList_inj]
    change (String.ofList (text _)).toList = _
    simp [text, PackageName.fullName]
  rw [← htext, parse_toString hwritable]

end Reference

theorem Package.target_normalize {p : Package} {text path : String}
    (h : ModulePath.normalize text = some path) : p.target (some path) = p.target (some text) := by
  simp only [target, Option.getD_some, h, ModulePath.normalize_normalize h]

theorem Package.Genuine.exists_name {p : Package} (h : p.Genuine) :
    ∃ n : PackageName, n.IsWritable ∧ n.fullName = p.name := by
  obtain ⟨n, hname, hfull⟩ := h.name
  obtain ⟨text, -, hparse⟩ := ok_of_bind hname
  exact ⟨n, (PackageName.read_eq_ok_iff.1 (ok_of_mapError (ok_of_mapError hparse))).1, hfull⟩

namespace Session

theorem head?_of_isRelative {reference : String} (h : isRelative reference) :
    reference.toList.head? = some '.' := by
  simp only [isRelative, Bool.or_eq_true, List.isPrefixOf_iff_prefix] at h
  rcases h with ⟨rest, h⟩ | ⟨rest, h⟩ <;> rw [← h] <;> rfl

theorem not_isRelative {n : PackageName} (hn : n.IsWritable) (rest : String) :
    isRelative (n.fullName ++ rest) = false := by
  cases htext : n.text with
  | nil => exact absurd htext hn.text_ne_nil
  | cons c text =>
    have hc : '.' ≠ c := by
      rintro rfl
      exact absurd (hn.head_text '.' (by rw [htext]; rfl)) (by decide)
    simp [isRelative, PackageName.fullName, htext, List.isPrefixOf, hc]

variable {s : Session μ}

theorem loadModule_congr {p : Package} {path path' : Option String}
    (h : p.target path = p.target path') : s.loadModule p path = s.loadModule p path' := by
  rw [loadModule, loadModule, h]

theorem resolve_module {p : Package} (registered : s.package? p.name = some p)
    (hp : p.Genuine) {path : String} (hpath : Reference.IsModulePath path) :
    s.resolve none (p.name ++ "/" ++ path) none = s.loadModule p (some path) := by
  obtain ⟨n, hn, hname⟩ := hp.exists_name
  have hload : s.loadPackage n.fullName none = (.ok p, s) := by
    simp [loadPackage, hname, registered]
  have hrelative := not_isRelative hn ("/" ++ path)
  rw [← String.append_assoc] at hrelative
  rw [← hname]
  simp [resolve, hrelative, Reference.parse_module hn hpath, resolveNamed, hload]

def Genuine (s : Session μ) : Prop := ∀ name p, s.package? name = some p → p.Genuine

theorem Unloaded.genuine (h : s.Unloaded) : s.Genuine := by
  intro name p hp
  rw [package?, h.packages] at hp
  cases hp

def pathFrom (s : Session μ) (origin : ModuleId) (reference : String) : String :=
  ModulePath.directory (s.nameOf origin) ++ "/" ++ reference

theorem resolve_pathFrom {o : ModuleId} {p : Package} (hp : s.packageOf? o = some p)
    {reference : String} (hr : isRelative reference) :
    s.resolve none reference (some o) =
      if ':' ∈ reference.toList then
        (.error (.reference (.reference reference .relativeMember)), s)
      else if ModulePath.normalize (s.pathFrom o reference) = none then
        (.error (.misuse (.escapingReference reference p.name)), s)
      else s.loadModule p (some (s.pathFrom o reference)) := by
  have hhead := head?_of_isRelative hr
  have hjoin : ModulePath.join (ModulePath.directory (s.nameOf o)) reference =
      ModulePath.normalize (s.pathFrom o reference) :=
    ModulePath.join_eq (by rw [hhead]; decide)
  simp only [resolve, hr, if_true, resolveRelative, hp, List.contains_iff_mem, hjoin]
  split
  · rfl
  · cases hpath : ModulePath.normalize (s.pathFrom o reference) with
    | none => rw [if_pos rfl]
    | some path =>
      rw [if_neg (by simp)]
      exact loadModule_congr (Package.target_normalize hpath)

end Session

open Point

namespace Point

variable {p q : Point μ}

theorem Move.genuine (h : Move p q) (hp : p.Stacked) (hgenuine : p.session.Genuine) :
    q.session.Genuine := by
  have hregisters : p.session.Registers (fun _ ↦ True) q.session := by
    cases h with
    | step h => exact h.registers hp.named
    | load hpackage h =>
      exact Session.registers_of_loadModule (by rwa [hp.named _ _ hpackage]) h
  intro name package hpackage
  rcases hregisters name package hpackage with ⟨before, hbefore, hgrows⟩ | ⟨hnew, -⟩
  · exact hgrows.genuine (hgenuine name before hbefore)
  · exact hnew

theorem Moves.genuine (h : Moves p q) (hp : p.Kept) (hgenuine : p.session.Genuine) :
    q.session.Genuine := by
  induction h with
  | refl => exact hgenuine
  | tail hmoves h ih => exact h.genuine (Moves.kept hmoves hp).stacked ih

structure Agrees (p : Point μ) : Prop where
  /-- A relative reference fails exactly if it names a member, climbs out of the package, or leads
  to its root where there is no main module. -/
  fails : ∀ o package reference, p.session.packageOf? o = some package →
    Session.isRelative reference →
    ((∃ error t, p.session.resolve none reference (some o) = (.error error, t)) ↔
      ':' ∈ reference.toList ∨ package.Misses (some (p.session.pathFrom o reference)))
  names : ∀ o package reference m t, p.session.packageOf? o = some package →
    Session.isRelative reference → p.session.resolve none reference (some o) = (.ok m, t) →
      (∃ package', t.packageOf? m = some package' ∧ package.Grows package') ∧
        package.Means (some (p.session.pathFrom o reference)) (t.nameOf m)
  /-- If a reference can have that name for a path, it comes to the same module from anywhere, in
  place of the relative one and ever after. -/
  agrees : ∀ o package reference m t, p.session.packageOf? o = some package →
    Session.isRelative reference → p.session.resolve none reference (some o) = (.ok m, t) →
    Reference.IsModulePath (t.nameOf m) →
      p.session.resolve none (package.name ++ "/" ++ t.nameOf m) none = (.ok m, t) ∧
        ∀ q, Moves ⟨t, p.waiting, p.control⟩ q →
          q.session.resolve none (package.name ++ "/" ++ t.nameOf m) none = (.ok m, q.session)

theorem Kept.loadModule_of_resolve (hp : p.Kept) {o m : ModuleId} {package : Package}
    {reference : String} {t : Session μ} (hpackage : p.session.packageOf? o = some package)
    (hrelative : Session.isRelative reference)
    (h : p.session.resolve none reference (some o) = (.ok m, t)) :
    p.session.package? package.name = some package ∧
      p.session.loadModule package (some (p.session.pathFrom o reference)) = (.ok m, t) := by
  refine ⟨hp.stacked.named.package?_of_packageOf? hpackage, ?_⟩
  rw [Session.resolve_pathFrom hpackage hrelative] at h
  split at h
  · cases h
  · split at h
    · cases h
    · exact h

theorem Kept.resolve_of_loadModule (hp : p.Kept) (hgenuine : p.session.Genuine) {package : Package}
    {path : Option String} {m : ModuleId} {t : Session μ}
    (registered : p.session.package? package.name = some package)
    (h : p.session.loadModule package path = (.ok m, t))
    (hpath : Reference.IsModulePath (t.nameOf m)) :
    p.session.resolve none (package.name ++ "/" ++ t.nameOf m) none = (.ok m, t) := by
  obtain ⟨-, -, -, -, -, hmeans⟩ := hp.filed_of_loadModule registered h
  rw [Session.resolve_module registered (hgenuine _ _ registered) hpath, ← h]
  refine Session.loadModule_congr ?_
  rw [Package.target_eq_ok_iff.2 hmeans, Package.target_eq_ok_iff.2 hmeans.self]

/-- At every point of every run a reference from a module to another one of its package comes to the
same module as the reference that names the package and the module. -/
theorem agrees_of_moves {s : Session μ} (hs : s.Unloaded) (hmoves : Moves (idle s) p) :
    Agrees p := by
  have hp := hmoves.kept hs.kept
  have hgenuine : p.session.Genuine := hmoves.genuine hs.kept hs.genuine
  constructor
  case fails =>
    intro o package reference hpackage hrelative
    rw [Session.resolve_pathFrom hpackage hrelative]
    split
    · rename_i hcolon
      simp [hcolon]
    · rename_i hcolon
      split
      · rename_i hnone
        simp [Package.Misses, hnone]
      · simpa [hcolon] using Session.loadModule_eq_error_iff
  case names =>
    intro o package reference m t hpackage hrelative hresolve
    obtain ⟨registered, hload⟩ := hp.loadModule_of_resolve hpackage hrelative hresolve
    obtain ⟨package', hgrows, -, -, hof, hmeans⟩ := hp.filed_of_loadModule registered hload
    exact ⟨⟨package', hof, hgrows⟩, hmeans⟩
  case agrees =>
    intro o package reference m t hpackage hrelative hresolve hpath
    obtain ⟨registered, hload⟩ := hp.loadModule_of_resolve hpackage hrelative hresolve
    refine ⟨hp.resolve_of_loadModule hgenuine registered hload hpath, ?_⟩
    intro q hq
    obtain ⟨package', hgrows, hpackage', hm, -, hmeans⟩ :=
      hp.filed_of_loadModule registered hload
    have hload' : Move p ⟨t, p.waiting, p.control⟩ := .load registered hload
    have ht : Kept ⟨t, p.waiting, p.control⟩ := hload'.kept hp
    obtain ⟨package'', hpackage'', hgrows'⟩ := (hq.extends ht).packages _ _ hpackage'
    have hname : package''.name = package.name := hgrows'.name_eq.trans hgrows.name_eq
    have hgenuine' : q.session.Genuine := hq.genuine ht (hload'.genuine hp.stacked hgenuine)
    rw [← hname] at hpackage'' ⊢
    rw [Session.resolve_module hpackage'' (hgenuine' _ _ hpackage'') hpath]
    exact Session.loadModule_of_means hmeans.self (hgrows'.modules _ _ hm)

def nested : Session Unit :=
  let start := Session.start (Config.standard "/work" "/home")
    (.ofTexts [("/r/@s/p/nnp.json", "\x7b\"name\":\"@s/p\",\"version\":\"1.0.0\"\x7d")])
    [.directory "/r"] ()
  (start.resolve none "@s/p/lib/a" none).2

theorem agrees_nested :
    ∃ t, Agrees (idle nested) ∧ nested.resolve none "..//lib/./b" (some ⟨0⟩) = (.ok ⟨1⟩, t) ∧
      t.nameOf ⟨1⟩ = "lib/b" ∧ t.resolve none "@s/p/lib/b" none = (.ok ⟨1⟩, t) := by
  have hstep : Step (DataModule.hooks none) _ (idle nested) := .find _ "@s/p/lib/a" none
  have hagrees := agrees_of_moves (Session.unloaded_start ..) (.single (.step hstep))
  let t := (nested.resolve none "..//lib/./b" (some ⟨0⟩)).2
  have hcheck : (nested.packageOf? ⟨0⟩).map (·.name) = some "@s/p" ∧
      (nested.resolve none "..//lib/./b" (some ⟨0⟩)).1.toOption = some ⟨1⟩ ∧
      t.nameOf ⟨1⟩ = "lib/b" := by
    decide +kernel
  obtain ⟨hpackage, hresolve, hname⟩ := hcheck
  obtain ⟨package, hpackage, hfull⟩ := Option.map_eq_some_iff.1 hpackage
  have hpath : Reference.IsModulePath (t.nameOf ⟨1⟩) := by
    rw [hname]
    exact ⟨"p/lib/b", _, rfl, rfl⟩
  have hresolve := eq_of_toOption_fst hresolve
  have hsame := (hagrees.agrees _ _ _ _ _ hpackage rfl hresolve hpath).2 (idle t) .refl
  rw [hfull, hname] at hsame
  exact ⟨t, hagrees, hresolve, hname, hsame⟩

end Point

end Lading
