import Peql.Manifest
import Peql.Store.Dir

/-!
# Files in a directory, or under a prefix

Data files, and beside them a manifest for each contract bound to them, kept in a file named after the contract.
-/

namespace Peql

/-- The file a contract's facts are kept in: `contract.replace('/', "__")`, with the extension. -/
def manifestFile (contract : String) : String := encodeName contract ++ ".json"

/-- Data files in a directory or under a prefix, and the manifests recorded beside them. -/
structure Dir (φ : Type) where
  files : List φ
  manifests : String → Recorded Manifest

namespace Dir

variable {φ : Type}

def recorded (d : Dir φ) (contract : String) : Recorded Manifest := d.manifests (manifestFile contract)

/-- `Manifest::load`. -/
def load (d : Dir φ) (contract : String) : Except PeqlError (Option Manifest) :=
  match (d.recorded contract).load (manifestFile contract) with
  | .ok m => .ok m
  | .error e => .error (.io e)

/-- `Manifest::save`: under the name the manifest says. -/
def save (d : Dir φ) (m : Manifest) : Dir φ :=
  { d with manifests := Function.update d.manifests (manifestFile m.contract) (.facts m) }

/-- `Manifest::remove`. -/
def remove (d : Dir φ) (contract : String) : Dir φ :=
  { d with manifests := Function.update d.manifests (manifestFile contract) .absent }

/-- A file is moved, or uploaded, among the data. -/
def add (d : Dir φ) (f : φ) : Dir φ := { d with files := d.files ++ [f] }

/-- What is loaded is recorded. -/
theorem load_facts {d : Dir φ} {contract : String} {m : Manifest} (h : d.load contract = .ok (some m)) :
    d.recorded contract = .facts m := by
  unfold load at h
  cases hr : (d.recorded contract).load (manifestFile contract) with
  | error e =>
    rw [hr] at h
    cases h
  | ok found =>
    rw [hr] at h
    cases h
    exact Recorded.load_facts.1 hr

theorem recorded_save_self (d : Dir φ) (m : Manifest) : (d.save m).recorded m.contract = .facts m := by
  simp [recorded, save]

/-- What is kept in other files stays. -/
theorem manifests_save_of_ne (d : Dir φ) (m : Manifest) {file : String} (h : file ≠ manifestFile m.contract) :
    (d.save m).manifests file = d.manifests file := Function.update_of_ne h _ _

theorem manifests_remove_self (d : Dir φ) (name : String) : (d.remove name).manifests (manifestFile name) = .absent :=
  Function.update_self ..

theorem manifests_remove_of_ne (d : Dir φ) (name : String) {file : String} (h : file ≠ manifestFile name) :
    (d.remove name).manifests file = d.manifests file := Function.update_of_ne h _ _

end Dir

end Peql
