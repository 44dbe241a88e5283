import LensLM.Error
import LensLM.Lib.Whitespace
import Mathlib.Data.List.AList

/-!
# The settings and the directory they live in

The settings are a file of a data directory. A fixed anchor directory may point to the data
directory that the next start reads, and a relocation changes the pointer and copies the file.
-/

namespace LensLM

open ByteText

set_option autoImplicit false

section Config

inductive CloudAsrProvider where
  | openAiCompatible
  | deepgram
deriving DecidableEq, Repr

def defaultBaseUrl : CloudAsrProvider → Str
  | .openAiCompatible => "https://api.openai.com".toList
  | .deepgram => "https://api.deepgram.com".toList

def defaultModel : CloudAsrProvider → Str
  | .openAiCompatible => "whisper-1".toList
  | .deepgram => "nova-3".toList

inductive AsrBackend where
  | appleNative
  | localWhisper
  | cloud
deriving DecidableEq, Repr

def AsrBackend.fromOptStr (s : Option Str) : Option AsrBackend :=
  if s = some "apple_native".toList then some .appleNative
  else if s = some "local_whisper".toList then some .localWhisper
  else if s = some "cloud".toList then some .cloud
  else none

structure AsrConfig where
  backend : Str
  cloudProvider : Option CloudAsrProvider
  cloudBaseUrl : Str
  cloudModel : Str
deriving DecidableEq

structure TaskModel where
  provider : Str
  model : Str
deriving DecidableEq

/-- The components of an absolute path. The empty string, which some fields use for no path, is
`none` there. -/
abbrev Path := List Str

/-- The settings, those that nothing here looks at in `others`. -/
structure AppConfig (R : Type) where
  dataDir : Path
  cacheDir : Option Path
  asr : AsrConfig
  audioCloudConsent : Bool
  chatModel : Option TaskModel
  others : R
deriving DecidableEq

namespace AppConfig

variable {R : Type}

def selectsCloud (c : AppConfig R) : Bool := AsrBackend.fromOptStr (some c.asr.backend) = some .cloud

def clearBackend (c : AppConfig R) : AppConfig R := { c with asr := { c.asr with backend := [] } }

def fillBaseUrl (c : AppConfig R) (provider : CloudAsrProvider) : AppConfig R :=
  { c with asr := { c.asr with cloudBaseUrl := defaultBaseUrl provider } }

def fillModel (c : AppConfig R) (provider : CloudAsrProvider) : AppConfig R :=
  { c with asr := { c.asr with cloudModel := defaultModel provider } }

/-- A backend that cannot run is given up before the blanks of its provider are filled. -/
def normalize (c : AppConfig R) : AppConfig R :=
  let c := if c.selectsCloud && !c.audioCloudConsent then c.clearBackend else c
  match c.asr.cloudProvider with
  | none => c
  | some provider =>
    let blankBase := (trim c.asr.cloudBaseUrl).isEmpty
    let blankModel := (trim c.asr.cloudModel).isEmpty
    let c := if (blankBase || blankModel) && c.selectsCloud then c.clearBackend else c
    let c := if blankBase then c.fillBaseUrl provider else c
    if blankModel then c.fillModel provider else c

/-- The root of the model cache. -/
def cacheRoot (c : AppConfig R) (dataDir : Path) : Path := c.cacheDir.getD dataDir

/-- The same settings, whatever the data directory is. -/
def SameSettings (a b : AppConfig R) : Prop := { a with dataDir := [] } = { b with dataDir := [] }

instance [DecidableEq R] (a b : AppConfig R) : Decidable (a.SameSettings b) :=
  inferInstanceAs (Decidable (_ = _))

theorem SameSettings.refl (a : AppConfig R) : a.SameSettings a := rfl

theorem SameSettings.symm {a b : AppConfig R} (h : a.SameSettings b) : b.SameSettings a := Eq.symm h

theorem SameSettings.trans {a b c : AppConfig R} (h : a.SameSettings b) (h' : b.SameSettings c) :
    a.SameSettings c := Eq.trans h h'

theorem sameSettings_dataDir (a : AppConfig R) (d : Path) :
    AppConfig.SameSettings { a with dataDir := d } a := rfl

end AppConfig

/-- The default settings and the serialization, which reads back what it has written. -/
structure SettingsHost (R T : Type) where
  default : AppConfig R
  encode : AppConfig R → T
  decode : T → Except LensError (AppConfig R)
  decode_encode : ∀ c, decode (encode c) = .ok c

end Config

section Disk

variable {T : Type}

/-- The pointer file of the anchor. -/
structure DataLocation where
  dataDir : Path
  cleanup : Option Path
deriving DecidableEq

/-- What a directory holds: `config.json`, and whether there is anything else. -/
structure DirFiles (T : Type) where
  config : Option T
  others : Bool
deriving DecidableEq

def DirFiles.IsEmpty (files : DirFiles T) : Prop := files.config.isNone ∧ files.others = false

instance (files : DirFiles T) : Decidable files.IsEmpty := inferInstanceAs (Decidable (_ ∧ _))

structure Disk (T : Type) where
  dirs : AList fun _ : Path => DirFiles T
  location : Option DataLocation

namespace Disk

def isDir (disk : Disk T) (d : Path) : Bool := (disk.dirs.lookup d).isSome

/-- Nothing is in a directory that is missing. -/
def filesOf (disk : Disk T) (d : Path) : DirFiles T := (disk.dirs.lookup d).getD ⟨none, false⟩

def config (disk : Disk T) (d : Path) : Option T := (disk.filesOf d).config

/-- The directory, which is made if it is missing, holds `files` from now on. -/
def setFiles (disk : Disk T) (d : Path) (files : DirFiles T) : Disk T :=
  { disk with dirs := disk.dirs.insert d files }

def setLocation (disk : Disk T) (loc : DataLocation) : Disk T := { disk with location := some loc }

def writeConfig (disk : Disk T) (d : Path) (text : T) : Disk T :=
  disk.setFiles d { disk.filesOf d with config := some text }

/-- The database makes the directory, if it is missing, and is in it. -/
def openPool (disk : Disk T) (d : Path) : Disk T :=
  disk.setFiles d { disk.filesOf d with others := true }

def eraseConfig (disk : Disk T) (d : Path) : Disk T :=
  if disk.isDir d then disk.setFiles d { disk.filesOf d with config := none } else disk

variable (disk : Disk T) (d : Path)

theorem isDir_setFiles (files : DirFiles T) (d' : Path) :
    (disk.setFiles d files).isDir d' = (decide (d' = d) || disk.isDir d') := by
  unfold isDir setFiles
  by_cases h : d' = d
  · rw [h, AList.lookup_insert]
    simp
  · rw [AList.lookup_insert_ne h]
    simp [h]

theorem filesOf_setFiles (files : DirFiles T) (d' : Path) :
    (disk.setFiles d files).filesOf d' = if d' = d then files else disk.filesOf d' := by
  unfold filesOf setFiles
  split
  · rename_i h
    rw [h, AList.lookup_insert]
    rfl
  · rename_i h
    rw [AList.lookup_insert_ne h]

theorem config_writeConfig (text : T) (d' : Path) :
    (disk.writeConfig d text).config d' = if d' = d then some text else disk.config d' := by
  unfold config writeConfig
  rw [filesOf_setFiles]
  split
  · rfl
  · rfl

theorem config_openPool (d' : Path) : (disk.openPool d).config d' = disk.config d' := by
  unfold config openPool
  rw [filesOf_setFiles]
  split
  · rename_i h
    rw [h]
  · rfl

/-- The pointer, if there is one, names a directory. -/
def PointerValid (disk : Disk T) : Prop := ∀ loc, disk.location = some loc → disk.isDir loc.dataDir

theorem PointerValid.setFiles {disk : Disk T} (h : disk.PointerValid) (d : Path)
    (files : DirFiles T) : (disk.setFiles d files).PointerValid := by
  intro loc hloc
  rw [isDir_setFiles, h loc hloc, Bool.or_true]

end Disk

/-- The data directory of the next start. -/
def resolveDataDir (anchor : Path) (disk : Disk T) : Path :=
  match disk.location with
  | some loc => if disk.isDir loc.dataDir then loc.dataDir else anchor
  | none => anchor

theorem resolveDataDir_congr (anchor : Path) {disk disk' : Disk T} (hv : disk.PointerValid)
    (hv' : disk'.PointerValid) (h : disk'.location.map DataLocation.dataDir =
      disk.location.map DataLocation.dataDir) :
    resolveDataDir anchor disk' = resolveDataDir anchor disk := by
  unfold resolveDataDir
  cases hl : disk.location with
  | none =>
    rw [hl, Option.map_none, Option.map_eq_none_iff] at h
    rw [h]
  | some loc =>
    rw [hl, Option.map_some] at h
    obtain ⟨loc', hl', hd⟩ := Option.map_eq_some_iff.mp h
    rw [hl']
    dsimp only
    rw [if_pos (hv loc hl), if_pos (hv' loc' hl'), hd]

end Disk

end LensLM
