import ImpToC.Host.Path
import ImpToC.Text.Bytes

/-!
Settings from the environment. A variable that is empty or no text counts as
unset, and a switch is off at zero.
-/
namespace ImpToC

/-- The variables of a process. Their values are bytes, and mostly texts. -/
abbrev Environment : Type := String → Option Bytes

/-- The value of a variable, if it is a text. -/
def Environment.text? (env : Environment) (key : String) : Option String :=
  (env key).bind Bytes.toText?

structure Settings where
  /-- Where the C text and the executable go. -/
  outputDir : String
  /-- The C compiler, if one is named. -/
  compiler : Option String
  /-- Print the C text instead of building it. -/
  emitOnly : Bool
  /-- Tell more while working. -/
  debug : Bool
  deriving DecidableEq, Repr

namespace Settings

def default : Settings := ⟨"output", none, false, false⟩

def set? (lookup : String → Option String) (key : String) : Option String :=
  (lookup key).filter fun value => value != ""

def switch (lookup : String → Option String) (key : String) : Bool :=
  match set? lookup key with
  | some value => value != "0"
  | none => false

def ofLookup (lookup : String → Option String) : Settings where
  outputDir := (set? lookup "CCCP_OUTPUT_DIR").getD default.outputDir
  compiler := set? lookup "CC"
  emitOnly := switch lookup "CCCP_EMIT_ONLY"
  debug := switch lookup "CCCP_DEBUG"

def ofEnvironment (env : Environment) : Settings := ofLookup env.text?

/-- Equal as settings: paths count by their components. -/
def same (a b : Settings) : Bool :=
  Path.same a.outputDir b.outputDir && a.compiler.map Path.components == b.compiler.map Path.components &&
    a.emitOnly == b.emitOnly && a.debug == b.debug

end Settings

end ImpToC
