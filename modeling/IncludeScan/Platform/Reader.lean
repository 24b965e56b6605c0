import IncludeScan.Platform.Table
import IncludeScan.Value.Check
import IncludeScan.Value.Yaml

/-!
# Platform/Reader — the reader of tables at the command line

Texts are read as far as `Yaml.parse` knows the language, and values are checked to their end.
-/

namespace IncludeScan

/-- The reader of tables at the command line. -/
def TableReader.commandLine : TableReader where
  load := Yaml.parse
  validate := Schema.check

end IncludeScan
