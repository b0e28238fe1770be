import LockDiscipline.Analysis
import LockDiscipline.CommandLine.Arguments
import LockDiscipline.Loading
import LockDiscipline.Manifest.Search
import LockDiscipline.Report.Lines

/- A run of the program from its arguments to its output. What the arguments
   leave open is taken from the manifest, and the rest from the defaults. -/
namespace LockDiscipline

variable {m : Type → Type} [Monad m]

/-- Why a check has no report. -/
inductive Failure where
  | manifest (cause : ManifestError)
  | load (cause : LoadError)
deriving Repr, DecidableEq

namespace Failure

def message : Failure → String
  | .manifest cause => cause.message
  | .load cause => cause.message

end Failure

/-- How a run ends. -/
inductive Outcome where
  /-- The arguments are faulty. -/
  | refused
  | failed (cause : Failure)
  /-- All went well. `flagsAgree` says that the snapshot was made with the
      expected build flags. -/
  | printed (lines : List String) (flagsAgree : Bool)
deriving Repr, DecidableEq

namespace Outcome

end Outcome

namespace Request

/-- What to load for a request under a manifest. -/
def loadConfig (r : Request) (f : Option Manifest) : LoadConfig where
  root := r.root
  snapshot := r.snapshot <|> f.bind Manifest.snapshot?
  modulePath := f.bind (·.settings.modulePath)
  buildFlags :=
    if r.buildFlags.isEmpty then (f.map (·.settings.buildFlags)).getD [] else r.buildFlags

/-- The disciplines to check for a request under a manifest. -/
def checkedDisciplines (r : Request) (f : Option Manifest) : List Discipline :=
  if r.disciplines.isEmpty then (f.bind (·.settings.disciplines)).getD Discipline.all
  else Text.distinct r.disciplines

/-- Carries out a check. -/
def run (disk : Disk m) (r : Request) : m Outcome := do
  match ← Manifest.load? disk r.root with
  | .error cause => return .failed (.manifest cause)
  | .ok f =>
    let config := r.loadConfig f
    match ← config.load disk with
    | .error cause => return .failed (.load cause)
    | .ok p =>
      let report := p.check (r.checkedDisciplines f)
      return .printed (report.render p r.showPaths) (config.agreesWith p)

end Request

namespace Command

def versionLine : String := "mutex-check 0.1.0"

def helpLines : List String :=
  ["Check that annotated variables and struct fields are only touched with their mutex held",
   "",
   "Usage: mutex-check [OPTIONS]",
   "",
   "Options:",
   "      --path <PATH>              Root package directory [default: .]",
   "      --snapshot <SNAPSHOT>      Program snapshot written by the front end",
   "      --build-flag <BUILD_FLAGS> Build flag the snapshot is expected to carry (repeatable)",
   "      --variant <VARIANTS>       Location kind to check (repeatable) [globals, fields]",
   "      --show-paths               Print the failing call path under each unlocked-access line",
   "      --sequential               Verify locations on the current thread only",
   "  -h, --help                     Print help",
   "  -V, --version                  Print version"]

/-- Carries out a command. -/
def run (disk : Disk m) : Command → m Outcome
  | .check request => request.run disk
  | .version => pure (.printed [versionLine] true)
  | .help => pure (.printed helpLines true)

end Command

end LockDiscipline
