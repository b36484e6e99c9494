import Trellis.Execution.Error
import Trellis.Resolver.Basic

/-!
Calls of resolvers that an execution made.

A call keeps what its course depends on: how long it takes, when it writes to the journal, and the
calls that were made because of what it handed out.
-/

namespace Trellis

/-- A call of the resolver of the field at a path. Times are nanoseconds from its start: `takes`
until it ends, if it does, and `writes` until it first writes to the journal, if it does. -/
structure Call where
  path : Path
  mode : ResolverMode
  takes : Option Nat
  writes : Option Nat
  after : List Call

namespace Call

mutual

/-- Number of calls, with all that were made because of one. -/
def size : Call → Nat
  | ⟨_, _, _, _, after⟩ => 1 + sizeAll after

def sizeAll : List Call → Nat
  | [] => 0
  | call :: calls => size call + sizeAll calls

end

mutual

/-- Whether some call never ends. -/
def isEndless : Call → Bool
  | ⟨_, _, takes, _, after⟩ => takes.isNone || anyEndless after

def anyEndless : List Call → Bool
  | [] => false
  | call :: calls => isEndless call || anyEndless calls

end

end Call

end Trellis
