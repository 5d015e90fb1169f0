/-!
# The environment

The variables around a run that the configuration and the logging look at.  Each may be unset.
-/

namespace Recurrence

structure Environment where
  /-- the configuration file to read -/
  configPath : Option String := none
  /-- whether to write debugging output -/
  debug : Option String := none
  /-- the level of the root logger -/
  logLevel : Option String := none
deriving DecidableEq

end Recurrence
