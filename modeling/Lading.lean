import Lading.Config.Document
import Lading.Manifest.Validation
import Lading.Session.DataModule
import Lading.Session.Script
import Lading.Proofs.Session.RequireOnce
import Lading.Proofs.Files.Tree
import Lading.Proofs.DataModule.Closure
import Lading.Proofs.DataModule.Traversal
import Lading.Proofs.Manifest.Conditions
import Lading.Proofs.Manifest.Effective
import Lading.Proofs.Session.Versions
import Lading.Proofs.Session.Rollback
import Lading.Proofs.DataModule.Containment
import Lading.Proofs.Session.Loading
import Lading.Proofs.Session.Discipline
import Lading.Proofs.DataModule.Cycles
import Lading.Proofs.Predicate.Mismatch
import Lading.Proofs.Predicate.Text
import Lading.Proofs.Selector.Range
import Lading.Proofs.Package.ReferenceText
import Lading.Proofs.Package.RequirementText
import Lading.Proofs.Manifest.Caching
import Lading.Proofs.Session.Additions
import Lading.Proofs.Session.Gate
import Lading.Proofs.Session.Independence
import Lading.Proofs.Selector.Clauses
import Lading.Proofs.Manifest.Keys
import Lading.Proofs.Manifest.Occurrences
import Lading.Proofs.Selector.Comparison
import Lading.Proofs.Session.Agreement
import Lading.Proofs.Package.NamedLine
import Lading.Proofs.Selector.Universal
import Lading.Proofs.Selector.Rebuilt
import Lading.Proofs.Manifest.Locations
import Lading.Proofs.Predicate.Scanning
