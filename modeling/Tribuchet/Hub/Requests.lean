import Mathlib.Data.List.Infix

/-! What is checked of a build request before it is queued (`validate_request` in `hub/submit.rs`) and
before it is staged (`validate_assignment` in `worker/build/validate.rs`), and where the sandbox
mounts the build directory. `Path::components` drops repeated slashes and `.`; which texts are store
paths is a parameter. -/

namespace Tribuchet.Requests

open List

abbrev Text := List Char

def storeDir : Text := "/nix/store".toList

inductive Component
  | rootDir
  | curDir
  | parentDir
  | normal (name : Text)
deriving DecidableEq

/-- `Path::components`. -/
def components (s : Text) : List Component :=
  (if s.head? = some '/' then [.rootDir] else if (s.splitOn '/').head? = some ['.'] then [.curDir] else []) ++
  (s.splitOn '/').filterMap fun p =>
    if p = [] ∨ p = ['.'] then none else if p = ['.', '.'] then some .parentDir else some (.normal p)

def Component.isPlain : Component → Bool
  | .rootDir | .normal _ => true
  | .curDir | .parentDir => false

/-- The check of `tmpDirInSandbox` that both sides make. -/
def plainAbsolute (s : Text) : Bool := s.head? = some '/' && (components s).all Component.isPlain

structure BuildRequest where
  storeDir : Text
  inputPaths : List Text
  outputs : List Text
  builder : Text
  tmpDirInSandbox : Text

inductive Invalid
  | storeDir
  | inputPath (p : Text)
  | duplicateInput (p : Text)
  | outputPath (p : Text)
  | duplicateOutput (p : Text)
  | outputIsInput (p : Text)
  | builder
  | tmpDirInSandbox

section Validate

variable (validStorePath : Text → Text → Bool)

/-- One turn of the loop over the inputs, with those seen before. -/
def checkInput (store : Text) (seen : List Text) (p : Text) : Except Invalid (List Text) :=
  if !validStorePath store p then .error (.inputPath p)
  else if p ∈ seen then .error (.duplicateInput p) else .ok (p :: seen)

def checkOutput (store : Text) (inputs seen : List Text) (p : Text) : Except Invalid (List Text) :=
  if !validStorePath store p then .error (.outputPath p)
  else if p ∈ seen then .error (.duplicateOutput p)
  else if p ∈ inputs then .error (.outputIsInput p) else .ok (p :: seen)

def validateRequest (req : BuildRequest) : Except Invalid Unit := do
  if req.storeDir ≠ storeDir then throw .storeDir
  let inputs ← req.inputPaths.foldlM (checkInput validStorePath req.storeDir) []
  let _ ← req.outputs.foldlM (checkOutput validStorePath req.storeDir inputs) []
  if req.builder.head? ≠ some '/' then throw .builder
  if plainAbsolute req.tmpDirInSandbox = false ∨ storeDir.isPrefixOf req.tmpDirInSandbox = true then
    throw .tmpDirInSandbox

structure Assignment where
  buildId : Text
  builder : Text
  tmpDirInSandbox : Text
  outputs : List Text

inductive Refused
  | buildId (id : Text)
  | builder
  | tmpDirInSandbox (s : Text)
  | outputPath (p : Text)

def isHexDigit (c : Char) : Bool := c.isDigit || ('a' ≤ c && c ≤ 'f') || ('A' ≤ c && c ≤ 'F')

def validateAssignment (a : Assignment) : Except Refused Unit := do
  if a.buildId.length ≠ 32 ∨ a.buildId.all isHexDigit = false then throw (.buildId a.buildId)
  if a.builder.head? ≠ some '/' then throw .builder
  if plainAbsolute a.tmpDirInSandbox = false then throw (.tmpDirInSandbox a.tmpDirInSandbox)
  a.outputs.forM fun p => if validStorePath storeDir p then .ok () else .error (.outputPath p)

end Validate

/-! ### The mount point -/

/-- Where the build directory is mounted below the sandbox root (`create_mount_points`, and the bind
in `stage.rs`): the names on the way. -/
def mountPoint (s : Text) : List Text :=
  (components s).filterMap fun c => match c with
    | .normal name => some name
    | _ => none

def nixName : Text := "nix".toList

def storeName : Text := "store".toList

def storeNames : List Text := [nixName, storeName]

theorem storeDir_eq : storeDir = '/' :: (nixName ++ '/' :: storeName) := by decide

/-- The mount covers neither the store nor anything above or inside it. -/
def Clear (names : List Text) : Prop := ¬ storeNames <+: names ∧ ¬ names <+: storeNames

/-- A path without `.`, repeated slashes or a slash at the end. -/
def Canonical (s : Text) : Prop := s = '/' :: ['/'].intercalate (mountPoint s)

theorem clear_of_canonical {s : Text} (h : Canonical s) (hstore : ¬ storeDir <+: s) (hroot : s ≠ "/".toList)
    (hnix : s ≠ "/nix".toList) : Clear (mountPoint s) := by
  unfold Canonical at h
  generalize mountPoint s = names at h ⊢
  have hinside : ∀ rest, names ≠ nixName :: storeName :: rest := by
    rintro rest rfl
    apply hstore
    rw [h, storeDir_eq]
    cases rest with
    | nil => exact ⟨[], by simp [intercalate_cons_cons]⟩
    | cons n rest => exact ⟨'/' :: ['/'].intercalate (n :: rest), by simp [intercalate_cons_cons]⟩
  constructor
  · rintro ⟨rest, hrest⟩
    exact hinside rest hrest.symm
  · rintro ⟨rest, hrest⟩
    rcases names with _ | ⟨n, _ | ⟨m, more⟩⟩
    · exact hroot h
    · obtain ⟨rfl, -⟩ := cons.inj hrest
      exact hnix h
    · obtain ⟨hn, hrest⟩ := cons.inj hrest
      obtain ⟨hm, -⟩ := cons.inj hrest
      exact hinside more (by rw [hn, hm])

theorem not_prefix_of_validateRequest {valid : Text → Text → Bool} {req : BuildRequest}
    (h : validateRequest valid req = .ok ()) : ¬ storeDir <+: req.tmpDirInSandbox := by
  intro hpre
  have htrue : storeDir.isPrefixOf req.tmpDirInSandbox = true := isPrefixOf_iff_prefix.mpr hpre
  unfold validateRequest at h
  simp only [htrue, or_true, if_true, bind, Except.bind, throw, throwThe, MonadExceptOf.throw] at h
  cases hin : req.inputPaths.foldlM (checkInput valid req.storeDir) [] with
  | error e =>
    simp only [hin] at h
    split_ifs at h
  | ok inputs =>
    cases hout : req.outputs.foldlM (checkOutput valid req.storeDir inputs) [] with
    | error e | ok outputs =>
      simp only [hin, hout] at h
      split_ifs at h

end Tribuchet.Requests
