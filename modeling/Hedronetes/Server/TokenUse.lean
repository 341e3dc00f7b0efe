import Hedronetes.Server.Runs
import Hedronetes.Server.Tokens

/-!
# Tokens that are presented

A presented token is looked up by its digest. The record must be there and
unexpired and its account must still be the recorded one. For which audience the
token was issued, and whether the Pod it is bound to is still there, is recorded
and never read.
-/

namespace Hedronetes.Server

open FirstMatch Apply Auth Effects Runs
open Storage (StoreKey)

section

variable (lib : Libraries)

end

variable {lib : Libraries} {s t w w' : World} {ls : List Event} {token : String} {user : User}
  {record : Json} {reg : Registry} {now : ℤ} {k : StoreKey} {stored : Stored}

/-! ## What a token is good for -/

end Hedronetes.Server
