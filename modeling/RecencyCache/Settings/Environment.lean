import RecencyCache.Settings.Variables
/-!
# Settings from the environment

The variables are those of the process. All reading is done here; what the texts mean is decided by
`Settings.ofVariables`.
-/
namespace RecencyCache.Settings

/-- The settings that the environment of the process holds. -/
def ofEnvironment : IO Settings := do
  let held ← variableNames.mapM fun name => return (name, ← IO.getEnv name)
  return ofVariables fun name => (held.lookup name).join

end RecencyCache.Settings
