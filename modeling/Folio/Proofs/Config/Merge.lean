import Folio.Config.Standard
import Folio.Files.Local
import Folio.Proofs.Config.Lawful

namespace Folio.Config

namespace Value

variable {S : Type}

end Value

open Files

variable {sys : System} {files : Tree}

end Folio.Config
