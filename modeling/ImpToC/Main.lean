import ImpToC.Command

/-!
The command line on the machine at hand. Source files, the output directory and
the environment are real. Other programs are not looked for and not started, so
that the C text can be printed but not built. No log is kept, and an error is told
with its causes below it, a line each.
-/
namespace ImpToC.Main

/-- What the system said about a failed call. -/
def systemError : IO.Error → SystemError
  | .noFileOrDirectory _ code reason | .permissionDenied _ code reason
  | .inappropriateType _ code reason | .alreadyExists _ code reason
  | .resourceExhausted _ code reason | .invalidArgument _ code reason
  | .otherError code reason => ⟨code.toNat, reason⟩
  | other => ⟨0, toString other⟩

def attempt {α : Type} (call : IO α) : IO (Except SystemError α) := do
  try
    return .ok (← call)
  catch e =>
    return .error (systemError e)

def host : Host IO where
  conventions := ⟨fun _ => true, fun message causes => "\n".intercalate (("Error: " ++ message) :: causes) ++ "\n"⟩
  load path := attempt do return (← IO.FS.readBinFile path).data.toList
  makeDirectories path := attempt (IO.FS.createDirAll path)
  store path content := attempt (IO.FS.writeBinFile path ⟨content.toArray⟩)
  find _ := pure none
  execute _ _ := pure (.error .unsupported)
  startLog _ := pure ()
  log _ := pure ()

/-- The variables that matter. -/
def keys : List String := ["CC", "CCCP_OUTPUT_DIR", "CCCP_EMIT_ONLY", "CCCP_DEBUG", "CCCP_LOG"]

def environment : IO (List (String × Bytes)) :=
  keys.filterMapM fun key => do return (← IO.getEnv key).map fun value => (key, .ofText value)

end ImpToC.Main

def main (args : List String) : IO UInt32 := do
  let env ← ImpToC.Main.environment
  let report ← ImpToC.Command.run ImpToC.Main.host ⟨"cccp", args, fun key => env.lookup key⟩
  IO.print report.stdout
  IO.eprint report.stderr
  return report.exitCode.toUInt32
